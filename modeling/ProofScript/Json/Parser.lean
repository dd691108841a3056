import ProofScript.Json
import ProofScript.Text.Utf8

/-!
# Reading JSON

A reader for JSON texts. Numbers without fraction and exponent become whole numbers, and an escaped
surrogate that has no partner becomes the replacement character. The depth of the calls is bounded
by the length of the text.
-/

namespace ProofScript.Json

/-- A JSON blank. -/
def isBlank (c : Char) : Bool := c == ' ' || c == '\t' || c == '\n' || c == '\r'

/-- The text after its leading blanks. -/
def skipBlanks (cs : List Char) : List Char := cs.dropWhile isBlank

/-- The value of a hexadecimal digit. -/
def hexValue? (c : Char) : Option Nat :=
  if c.isDigit then some (c.toNat - 48)
  else if 'a' ≤ c ∧ c ≤ 'f' then some (c.toNat - 87)
  else if 'A' ≤ c ∧ c ≤ 'F' then some (c.toNat - 55)
  else none

/-- The value of four hexadecimal digits, and the text after them. -/
def hex4? : List Char → Option (Nat × List Char)
  | a :: b :: c :: d :: rest => do
    let a ← hexValue? a
    let b ← hexValue? b
    let c ← hexValue? c
    let d ← hexValue? d
    return (((a * 16 + b) * 16 + c) * 16 + d, rest)
  | _ => none

/-- The character of a `u` escape whose digits come next, and the text after it. -/
def unicodeEscape? (cs : List Char) : Option (Char × List Char) := do
  let (hi, rest) ← hex4? cs
  if 0xD800 ≤ hi ∧ hi < 0xDC00 then
    match rest with
    | '\\' :: 'u' :: tail =>
      match hex4? tail with
      | some (lo, tail) =>
        if 0xDC00 ≤ lo ∧ lo < 0xE000 then
          return (Char.ofNat (0x10000 + (hi - 0xD800) * 1024 + (lo - 0xDC00)), tail)
        else return (Text.replacement, rest)
      | none => none
    | _ => return (Text.replacement, rest)
  else if 0xDC00 ≤ hi ∧ hi < 0xE000 then return (Text.replacement, rest)
  else return (Char.ofNat hi, rest)

/-- The character after a backslash that is not a `u` escape. -/
def simpleEscape? : Char → Option Char
  | '"' => some '"'
  | '\\' => some '\\'
  | '/' => some '/'
  | 'b' => some (Char.ofNat 8)
  | 'f' => some (Char.ofNat 12)
  | 'n' => some '\n'
  | 'r' => some '\r'
  | 't' => some '\t'
  | _ => none

/-- The characters of a string whose opening mark is read, in reverse, and the text after it. -/
def stringBody? : Nat → List Char → List Char → Option (List Char × List Char)
  | 0, _, _ => none
  | _, _, [] => none
  | n + 1, acc, c :: rest =>
    if c = '"' then some (acc, rest)
    else if c = '\\' then
      match rest with
      | 'u' :: tail => do
        let (d, tail) ← unicodeEscape? tail
        stringBody? n (d :: acc) tail
      | d :: tail => do
        let d ← simpleEscape? d
        stringBody? n (d :: acc) tail
      | [] => none
    else if c.toNat < 0x20 then none
    else stringBody? n (c :: acc) rest

/-- A string whose opening mark is read. -/
def string? (cs : List Char) : Option (String × List Char) := do
  let (acc, rest) ← stringBody? (cs.length + 1) [] cs
  return (String.ofList acc.reverse, rest)

/-- The value of a digit sequence. -/
def digitsValue (ds : List Char) : Nat := ds.foldl (fun v d => 10 * v + (d.toNat - 48)) 0

/-- A number, and the text after it. -/
def number? (cs : List Char) : Option (Json × List Char) :=
  let (sign, body) := match cs with
    | '-' :: rest => (['-'], rest)
    | _ => ([], cs)
  let whole := body.takeWhile Char.isDigit
  let rest := body.dropWhile Char.isDigit
  if whole.isEmpty || (whole.length > 1 && whole.head? == some '0') then none
  else
    let (fraction, rest) := match rest with
      | '.' :: tail =>
        if (tail.takeWhile Char.isDigit).isEmpty then ([], rest)
        else ('.' :: tail.takeWhile Char.isDigit, tail.dropWhile Char.isDigit)
      | _ => ([], rest)
    let (exponent, rest) := match rest with
      | e :: tail =>
        if e = 'e' ∨ e = 'E' then
          let (mark, tail) := match tail with
            | '+' :: t => (['+'], t)
            | '-' :: t => (['-'], t)
            | _ => ([], tail)
          if (tail.takeWhile Char.isDigit).isEmpty then ([], rest)
          else (e :: mark ++ tail.takeWhile Char.isDigit, tail.dropWhile Char.isDigit)
        else ([], rest)
      | [] => ([], rest)
    if fraction.isEmpty && exponent.isEmpty then
      let n : Int := digitsValue whole
      some (.int (if sign.isEmpty then n else -n), rest)
    else some (.decimal (String.ofList (sign ++ whole ++ fraction ++ exponent)), rest)

mutual

/-- A value, and the text after it. -/
def value? : Nat → List Char → Option (Json × List Char)
  | 0, _ => none
  | n + 1, cs =>
    match skipBlanks cs with
    | 'n' :: 'u' :: 'l' :: 'l' :: rest => some (.null, rest)
    | 't' :: 'r' :: 'u' :: 'e' :: rest => some (.bool true, rest)
    | 'f' :: 'a' :: 'l' :: 's' :: 'e' :: rest => some (.bool false, rest)
    | '"' :: rest => do
      let (s, rest) ← string? rest
      return (.str s, rest)
    | '[' :: rest =>
      match skipBlanks rest with
      | ']' :: rest => some (.arr [], rest)
      | rest => do
        let (xs, rest) ← items? n rest
        return (.arr xs, rest)
    | '\x7b' :: rest =>
      match skipBlanks rest with
      | '\x7d' :: rest => some (.obj [], rest)
      | rest => do
        let (fs, rest) ← fields? n rest
        return (.obj fs, rest)
    | cs => number? cs

/-- The items of a list, at least one, up to its closing bracket. -/
def items? : Nat → List Char → Option (List Json × List Char)
  | 0, _ => none
  | n + 1, cs => do
    let (x, rest) ← value? n cs
    match skipBlanks rest with
    | ',' :: rest =>
      let (xs, rest) ← items? n rest
      return (x :: xs, rest)
    | ']' :: rest => return ([x], rest)
    | _ => none

/-- The fields of an object, at least one, up to its closing brace. -/
def fields? : Nat → List Char → Option (List (String × Json) × List Char)
  | 0, _ => none
  | n + 1, cs => do
    match skipBlanks cs with
    | '"' :: rest =>
      let (k, rest) ← string? rest
      match skipBlanks rest with
      | ':' :: rest =>
        let (v, rest) ← value? n rest
        match skipBlanks rest with
        | ',' :: rest =>
          let (fs, rest) ← fields? n rest
          return ((k, v) :: fs, rest)
        | '\x7d' :: rest => return ([(k, v)], rest)
        | _ => none
      | _ => none
    | _ => none

end

/-- Reads a text that is one JSON value. -/
def parse? (s : String) : Option Json :=
  let cs := s.toList
  match value? (cs.length + 1) cs with
  | some (v, rest) => if (skipBlanks rest).isEmpty then some v else none
  | none => none

end ProofScript.Json
