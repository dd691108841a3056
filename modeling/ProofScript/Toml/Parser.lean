import ProofScript.Text.Blank
import ProofScript.Text.Utf8
import ProofScript.Toml
import ProofScript.Toml.Literal

/-!
# Reading TOML

A reader for TOML documents. The readers of the parts take characters from the front of the text;
those of whole lines also put what they read into the document. The depth of the calls is bounded by
the length of the text.
-/

namespace ProofScript.Toml

/-! ## Characters -/

/-- A control character that no TOML document has. -/
def isControl (c : Char) : Bool :=
  (c.toNat < 0x20 && c != '\t' && c != '\n' && c != '\r') || c.toNat == 0x7F

/-- Does a carriage return stand anywhere but before a line feed? -/
def hasLoneReturn : List Char → Bool
  | '\r' :: '\n' :: rest => hasLoneReturn rest
  | '\r' :: _ => true
  | _ :: rest => hasLoneReturn rest
  | [] => false

/-- Bytes without the mark of the byte order. -/
def skipMark : List UInt8 → List UInt8
  | 0xEF :: 0xBB :: 0xBF :: rest => rest
  | 0xFF :: 0xFE :: rest => rest
  | 0xFE :: 0xFF :: rest => rest
  | bs => bs

/-- The characters of a document, if its bytes encode characters that it may have. -/
def characters? (bytes : List UInt8) : Option (List Char) :=
  let bytes := skipMark bytes
  let cs := Text.decode bytes
  if Text.bytes (String.ofList cs) = bytes ∧ !cs.any isControl ∧ !hasLoneReturn cs then some cs
  else none

/-- A blank inside a line. -/
def isGap (c : Char) : Bool := c == ' ' || c == '\t'

/-- A character of a line end. -/
def isLineEnd (c : Char) : Bool := c == '\n' || c == '\r'

/-- The text after its leading blanks. -/
def skipGap (cs : List Char) : List Char := cs.dropWhile isGap

/-- The text after its leading blanks, line ends and comments. -/
def skipLines : Nat → List Char → List Char
  | 0, cs => cs
  | fuel + 1, cs =>
    match cs.dropWhile fun c => isGap c || isLineEnd c with
    | '#' :: rest => skipLines fuel (rest.dropWhile fun c => !isLineEnd c)
    | rest => rest

/-! ## Strings -/

/-- The character with a number, if there is one. -/
def scalar? (n : Nat) : Option Char :=
  if n < 0xD800 ∨ (0xDFFF < n ∧ n < 0x110000) then some (Char.ofNat n) else none

/-- The character that `width` hexadecimal digits stand for, and the text after them. -/
def hexEscape? (width : Nat) (cs : List Char) : Option (Char × List Char) :=
  let ds := cs.take width
  if ds.length = width ∧ ds.all isHexDigit then
    (scalar? (valueIn 16 ds)).map fun c => (c, cs.drop width)
  else none

/-- The character of an escape whose backslash is read, and the text after it. -/
def escape? : List Char → Option (Char × List Char)
  | 'b' :: rest => some (Char.ofNat 8, rest)
  | 't' :: rest => some ('\t', rest)
  | 'n' :: rest => some ('\n', rest)
  | 'f' :: rest => some (Char.ofNat 12, rest)
  | 'r' :: rest => some ('\r', rest)
  | 'e' :: rest => some (Char.ofNat 27, rest)
  | '"' :: rest => some ('"', rest)
  | '\\' :: rest => some ('\\', rest)
  | 'x' :: rest => hexEscape? 2 rest
  | 'u' :: rest => hexEscape? 4 rest
  | 'U' :: rest => hexEscape? 8 rest
  | _ => none

/-- The rest of a string on one line, its characters so far in reverse. -/
def basic? : Nat → List Char → List Char → Option (String × List Char)
  | 0, _, _ => none
  | _, _, [] => none
  | fuel + 1, acc, c :: rest =>
    if c = '"' then some (String.ofList acc.reverse, rest)
    else if isLineEnd c then none
    else if c = '\\' then do
      let (d, rest) ← escape? rest
      basic? fuel (d :: acc) rest
    else basic? fuel (c :: acc) rest

/-- The rest of a string on one line without escapes. -/
def literal? (cs : List Char) : Option (String × List Char) :=
  let body := cs.takeWhile fun c => c ≠ '\'' && !isLineEnd c
  match cs.drop body.length with
  | '\'' :: rest => some (String.ofList body, rest)
  | _ => none

/-- The text of a string over several lines without the line end at its start. -/
def skipFirstLineEnd : List Char → List Char
  | '\n' :: rest => rest
  | '\r' :: '\n' :: rest => rest
  | cs => cs

/-- What a run of quotation marks inside a string over several lines does: fewer than three belong to
the string, and up to `most` end it, the last three being the end. More are wrong. -/
def quoteRun (mark : Char) (most : Nat) (cs : List Char) : Option (List Char × Bool × List Char) :=
  let run := cs.takeWhile (· = mark)
  let rest := cs.dropWhile (· = mark)
  if run.length < 3 then some (run, false, rest)
  else if run.length ≤ most then some (run.drop 3, true, rest)
  else none

/-- The rest of a string over several lines, its characters so far in reverse. A backslash at the
end of a line removes all blanks and line ends after it. A run that ends the string has at most five
marks, and one more where it follows an escaped backslash: then `most` is six. -/
def multiline? (mark : Char) (escapes : Bool) : Nat → Nat → List Char → List Char →
    Option (String × List Char)
  | 0, _, _, _ => none
  | _, _, _, [] => none
  | fuel + 1, most, acc, c :: rest =>
    if c = mark then do
      let (kept, ended, rest) ← quoteRun mark most (c :: rest)
      if ended then return (String.ofList (kept ++ acc).reverse, rest)
      else multiline? mark escapes fuel 5 (kept ++ acc) rest
    else if c = '\\' ∧ escapes then
      let blanks := rest.takeWhile fun d => isGap d || isLineEnd d
      if blanks.any (· == '\n') then multiline? mark escapes fuel 5 acc (rest.drop blanks.length)
      else do
        let most := if rest.head? = some '\\' then 6 else 5
        let (d, rest) ← escape? rest
        multiline? mark escapes fuel most (d :: acc) rest
    else multiline? mark escapes fuel 5 (c :: acc) rest

/-- A string, and the text after it. -/
def string? (cs : List Char) : Option (String × List Char) :=
  let fuel := cs.length + 1
  match cs with
  | '"' :: '"' :: '"' :: rest => multiline? '"' true fuel 5 [] (skipFirstLineEnd rest)
  | '"' :: rest => basic? fuel [] rest
  | '\'' :: '\'' :: '\'' :: rest => multiline? '\'' false fuel 5 [] (skipFirstLineEnd rest)
  | '\'' :: rest => literal? rest
  | _ => none

/-! ## Keys -/

/-- One part of a key, and the text after it. -/
def keyPart? (cs : List Char) : Option (String × List Char) :=
  match cs with
  | '"' :: rest => basic? (cs.length + 1) [] rest
  | '\'' :: rest => literal? rest
  | _ =>
    let body := cs.takeWhile isBare
    if body.isEmpty then none else some (String.ofList body, cs.drop body.length)

/-- A dotted key up to a closing character, and the text after that. -/
def key? (close : Char) : Nat → List Char → Option (Key × List Char)
  | 0, _ => none
  | fuel + 1, cs => do
    let (part, rest) ← keyPart? (skipGap cs)
    match skipGap rest with
    | '.' :: rest =>
      let (more, rest) ← key? close fuel rest
      return (part :: more, rest)
    | c :: rest => if c = close then some ([part], rest) else none
    | [] => none

/-! ## Numbers, dates and words -/

/-- A decimal number, whole or not, and the text after it. -/
def decimal? (cs : List Char) : Option (Toml × List Char) :=
  let (sign, body) := match cs with
    | '+' :: rest => (['+'], rest)
    | '-' :: rest => (['-'], rest)
    | _ => ([], cs)
  let ds := body.takeWhile fun c => c.isDigit || c == '_'
  let rest := body.drop ds.length
  let more := match rest with
    | c :: _ =>
      if c == '.' || c == 'e' || c == 'E' then rest.takeWhile fun c =>
        c.isDigit || c == '_' || c == '.' || c == '-' || c == '+' || c == 'e' || c == 'E'
      else []
    | [] => []
  let spelling := sign ++ ds ++ more
  if if more.isEmpty then isInteger spelling else isFraction spelling then
    some (.number (String.ofList spelling), rest.drop more.length)
  else none

/-- A number with a letter for its base, and the text after it. -/
def based? (head : List Char) (isDigit : Char → Bool) (cs : List Char) : Option (Toml × List Char) :=
  let body := cs.takeWhile fun c => isDigit c || c == '_'
  if body.head?.any isDigit && isInteger (head ++ body) then
    some (.number (String.ofList (head ++ body)), cs.drop body.length)
  else none

/-- A character that dates and times are spelled with. -/
def isDateChar (c : Char) : Bool :=
  c.isDigit || c == '-' || c == ':' || c == 'T' || c == 't' || c == ' ' || c == '.' || c == 'Z'
    || c == 'z' || c == '+'

/-- A date, a time or a number that starts with a digit, and the text after it. -/
def numeral? (cs : List Char) : Option (Toml × List Char) :=
  match cs with
  | '0' :: 'x' :: rest => based? ['0', 'x'] isHexDigit rest
  | '0' :: 'o' :: rest => based? ['0', 'o'] (fun c => '0' ≤ c && c ≤ '7') rest
  | '0' :: 'b' :: rest => based? ['0', 'b'] (fun c => c == '0' || c == '1') rest
  | _ =>
    let ds := cs.takeWhile Char.isDigit
    match cs.drop ds.length with
    | c :: _ =>
      if (c == '-' || c == ':') && ds != ['0'] then
        let body := cs.takeWhile isDateChar
        let spelling := Text.trimBy Text.isSpace body
        if isDate spelling then some (.date (String.ofList spelling), cs.drop body.length) else none
      else decimal? cs
    | [] => decimal? cs

/-- A value that is written as a word, and the text after it. -/
def word? (cs : List Char) : Option (Toml × List Char) :=
  match cs with
  | 't' :: 'r' :: 'u' :: 'e' :: rest => some (.bool true, rest)
  | 'f' :: 'a' :: 'l' :: 's' :: 'e' :: rest => some (.bool false, rest)
  | 'i' :: 'n' :: 'f' :: rest => some (.number "inf", rest)
  | 'n' :: 'a' :: 'n' :: rest => some (.number "nan", rest)
  | sign :: 'i' :: 'n' :: 'f' :: rest =>
    if sign = '+' ∨ sign = '-' then some (.number "inf", rest) else none
  | sign :: 'n' :: 'a' :: 'n' :: rest =>
    if sign = '+' ∨ sign = '-' then some (.number "nan", rest) else none
  | _ => none

/-- A value that is neither an array nor a table, and the text after it. -/
def atom? (cs : List Char) : Option (Toml × List Char) :=
  match cs with
  | [] => none
  | c :: rest =>
    if c = '"' ∨ c = '\'' then (string? cs).map fun (s, rest) => (.str s, rest)
    else if c.isDigit then numeral? cs
    else match word? cs with
      | some found => some found
      | none =>
        match rest with
        | '0' :: d :: _ =>
          if d == 'x' || d == 'o' || d == 'b' then none else signed c cs
        | _ => signed c cs
where
  /-- A decimal number with a sign. -/
  signed (c : Char) (cs : List Char) : Option (Toml × List Char) :=
    if (c = '+' ∨ c = '-') ∧ (cs.drop 1).head?.any Char.isDigit then decimal? cs else none

/-! ## Lines -/

/-- What a reader of lines works on: the text that is left and the document so far. -/
structure Reading where
  rest : List Char
  builder : Builder
deriving Inhabited

/-- Puts a value into a table under a dotted key, whose front parts have to be tables. -/
def insertDotted? (t : Table) (v : Toml) : Key → Option Table
  | [] => some t
  | [k] => some (t.set k v)
  | k :: more =>
    match t.find? k with
    | none => (insertDotted? [] v more).map fun inner => t.set k (.table inner)
    | some (.table inner) => (insertDotted? inner v more).map fun inner => t.set k (.table inner)
    | some _ => none

mutual

/-- A value, which is put below a key of the current table as far as it is a table. -/
def value? : Nat → String → Bool → Reading → Option (Toml × Reading)
  | 0, _, _, _ => none
  | fuel + 1, name, listed, r =>
    match skipGap r.rest with
    | '[' :: rest => do
      let (items, r) ← items? fuel name ⟨rest, r.builder.setType name true⟩
      return (.array items, r)
    | '\x7b' :: rest => do
      let outer := r.builder.context
      let key := outer ++ [name]
      let b ← (r.builder.addImplicit key).openTable key listed
      let (t, r) ← pairs? fuel key [] ⟨rest, b⟩
      return (.table t, { r with builder := { r.builder with context := outer } })
    | cs => do
      let (v, rest) ← atom? cs
      return (v, ⟨rest, r.builder⟩)

/-- The rest of an array, up to its closing bracket. -/
def items? : Nat → String → Reading → Option (List Toml × Reading)
  | 0, _, _ => none
  | fuel + 1, name, r =>
    match skipLines (r.rest.length + 1) r.rest with
    | ']' :: rest => some ([], { r with rest })
    | cs => do
      let (v, r) ← value? fuel name true { r with rest := cs }
      match skipLines (r.rest.length + 1) r.rest with
      | ']' :: rest => return ([v], { r with rest })
      | ',' :: rest =>
        let (more, r) ← items? fuel name { r with rest }
        return (v :: more, r)
      | _ => none

/-- The rest of a table in braces, up to its closing brace, behind the pairs read so far. -/
def pairs? : Nat → Key → Table → Reading → Option (Table × Reading)
  | 0, _, _, _ => none
  | fuel + 1, context, t, r =>
    match skipLines (r.rest.length + 1) r.rest with
    | '\x7d' :: rest => some (t, { r with rest })
    | cs => do
      let (key, v, r) ← pair? fuel { r with rest := cs }
      let t ← insertDotted? t v key
      let r := { r with builder := { r.builder with context } }
      match skipLines (r.rest.length + 1) r.rest with
      | '\x7d' :: rest => return (t, { r with rest })
      | ',' :: rest => pairs? fuel context t { r with rest }
      | _ => none

/-- A key with its value, which is put into the current table. -/
def pair? : Nat → Reading → Option (Key × Toml × Reading)
  | 0, _ => none
  | fuel + 1, r => do
    let (key, rest) ← key? '=' (r.rest.length + 1) r.rest
    let name := key.getLast?.getD ""
    let b ← r.builder.openParents key.dropLast
    let b := b.addKey (b.context ++ [name])
    let (v, r) ← value? fuel name false ⟨rest, b⟩
    let b ← r.builder.setValue name v
    let isArray := match v with
      | .array _ => true
      | _ => false
    return (key, v, { r with builder := b.setType name isArray })

end

/-- The text after the end of a line, a comment included. -/
def lineEnd? (cs : List Char) : Option (List Char) :=
  match skipGap cs with
  | [] => some []
  | '#' :: rest => some (rest.dropWhile fun c => !isLineEnd c)
  | c :: rest => if isLineEnd c then some (c :: rest) else none

/-- The header of a table whose first bracket is read. -/
def header? (r : Reading) : Option Reading := do
  let (listed, cs) := match r.rest with
    | '[' :: rest => (true, rest)
    | cs => (false, cs)
  let (key, rest) ← key? ']' (cs.length + 1) cs
  let rest ← if listed then skip? ']' rest else some rest
  let b ← r.builder.openTable key listed
  return ⟨rest, (b.setType "" false).addKey key⟩

/-- All lines of a document. -/
def lines? : Nat → Reading → Option Builder
  | 0, _ => none
  | fuel + 1, r =>
    match skipLines (r.rest.length + 1) r.rest with
    | [] => some r.builder
    | '[' :: rest => do
      let r ← header? { r with rest }
      lines? fuel { r with rest := ← lineEnd? r.rest }
    | cs => do
      let context := r.builder.context
      let (_, _, r) ← pair? (2 * cs.length + 2) { r with rest := cs }
      let r := { r with builder := { r.builder with context } }
      lines? fuel { r with rest := ← lineEnd? r.rest }

/-- Reads a document: its table, and its keys in the order in which they are written. -/
def parse? (bytes : List UInt8) : Option (Table × List Key) := do
  let cs ← characters? bytes
  let b ← lines? (cs.length + 1) ⟨cs, .empty⟩
  return (b.root, b.keys)

end ProofScript.Toml
