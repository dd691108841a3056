import ProofScript.Text.Digits
import ProofScript.Word

/-!
# Numbers and dates of TOML

Which spellings of numbers, dates and times are valid. A number is a word of 64 bits or a decimal
fraction that is not too large for a double; a date is one of the calendar.
-/

namespace ProofScript.Toml

/-- A hexadecimal digit. -/
def isHexDigit (c : Char) : Bool :=
  c.isDigit || ('a' ≤ c && c ≤ 'f') || ('A' ≤ c && c ≤ 'F')

/-- Does every underscore stand between digits? The last character has to be a digit too. -/
def underscoresOk (cs : List Char) : Bool := go false cs
where
  /-- Reads on, given whether the character before was a digit. -/
  go : Bool → List Char → Bool
    | digit, [] => digit
    | digit, c :: rest => if c == '_' && !digit then false else go (isHexDigit c) rest

/-- Does a number have a needless zero in front? -/
def hasLeadingZero : List Char → Bool
  | '0' :: c :: _ => !(c == 'b' || c == 'o' || c == 'x')
  | s :: '0' :: _ :: _ => s == '-' || s == '+'
  | _ => false

/-- The value of digits of a base. -/
def valueIn (base : Nat) (ds : List Char) : Nat :=
  let digit (c : Char) : Nat :=
    if c.isDigit then c.toNat - 48 else if c.toNat < 97 then c.toNat - 55 else c.toNat - 87
  ds.foldl (fun v d => base * v + digit d) 0

/-- Is the spelling that of a whole number of 64 bits? -/
def isInteger (cs : List Char) : Bool :=
  let (negative, body) := match cs with
    | '-' :: rest => (true, rest)
    | '+' :: rest => (false, rest)
    | _ => (false, cs)
  let (base, ds) := match body with
    | '0' :: 'x' :: rest => (16, rest)
    | '0' :: 'o' :: rest => (8, rest)
    | '0' :: 'b' :: rest => (2, rest)
    | _ => (10, body)
  let v := valueIn base (ds.filter (· ≠ '_'))
  underscoresOk cs && !hasLeadingZero cs && (v < Word.half || (negative && v == Word.half))

/-- The digits of a decimal fraction and the power of ten they are multiplied by, for a number of
the form `1`, `1.5`, `1e9` or `1.5e-9`. -/
def fraction? (cs : List Char) : Option (Nat × Int) := do
  let cs := match cs with
    | '-' :: rest => rest
    | '+' :: rest => rest
    | _ => cs
  let whole := cs.takeWhile Char.isDigit
  let rest := cs.dropWhile Char.isDigit
  if whole.isEmpty then none
  let (places, rest) ← match rest with
    | '.' :: tail =>
      if (tail.takeWhile Char.isDigit).isEmpty then none
      else some (tail.takeWhile Char.isDigit, tail.dropWhile Char.isDigit)
    | _ => some ([], rest)
  let mantissa := Text.digitsValue (whole ++ places)
  match rest with
  | [] => return (mantissa, -places.length)
  | e :: tail =>
    if e ≠ 'e' ∧ e ≠ 'E' then none
    let (negative, ds) := match tail with
      | '-' :: t => (true, t)
      | '+' :: t => (false, t)
      | _ => (false, tail)
    let n ← Text.natural? ds
    return (mantissa, (if negative then -(n : Int) else n) - places.length)

/-- Does a decimal fraction round to a finite double? -/
def isFinite (mantissa : Nat) (power : Int) : Bool :=
  let size : Int := (toString mantissa).length
  if mantissa = 0 ∨ size + power < 300 then true
  else if 400 < size + power then false
  else
    let limit := Nat.pow 2 1024 - Nat.pow 2 970
    if 0 ≤ power then mantissa * Nat.pow 10 power.toNat < limit
    else mantissa < limit * Nat.pow 10 (-power).toNat

/-- The runs of characters between the marks of a decimal fraction. -/
def fractionRuns (cs : List Char) : List (List Char) :=
  (cs.splitBy fun a b => !isMark a && !isMark b).filter fun run => !run.any isMark
where
  /-- The marks of a decimal fraction. -/
  isMark (c : Char) : Bool := c == '.' || c == 'e' || c == 'E'

/-- Is the spelling that of a decimal fraction? -/
def isFraction (cs : List Char) : Bool :=
  let runs := fractionRuns cs
  runs.all underscoresOk && !(runs.head?.any hasLeadingZero) &&
    match fraction? (cs.filter (· ≠ '_')) with
    | some (mantissa, power) => isFinite mantissa power
    | none => false

/-! ## Dates -/

/-- A number of exactly `width` digits at the front of a text, and the text after it. -/
def fixed? (width : Nat) (cs : List Char) : Option (Nat × List Char) :=
  let ds := cs.take width
  if ds.length = width ∧ ds.all Char.isDigit then some (Text.digitsValue ds, cs.drop width) else none

/-- The text after a character. -/
def skip? (c : Char) : List Char → Option (List Char)
  | d :: rest => if d = c then some rest else none
  | [] => none

/-- The number of days of a month. -/
def daysIn (year month : Nat) : Nat :=
  if month = 2 then
    if year % 4 = 0 ∧ (year % 100 ≠ 0 ∨ year % 400 = 0) then 29 else 28
  else if month = 4 ∨ month = 6 ∨ month = 9 ∨ month = 11 then 30
  else 31

/-- The text after a date. -/
def skipDate? (cs : List Char) : Option (List Char) := do
  let (year, rest) ← fixed? 4 cs
  let (month, rest) ← fixed? 2 (← skip? '-' rest)
  let (day, rest) ← fixed? 2 (← skip? '-' rest)
  if 1 ≤ month ∧ month ≤ 12 ∧ 1 ≤ day ∧ day ≤ daysIn year month then some rest else none

/-- The text after a time. Seconds and their fraction may be missing. -/
def skipTime? (cs : List Char) : Option (List Char) := do
  let (hour, rest) ← fixed? 2 cs
  let (minute, rest) ← fixed? 2 (← skip? ':' rest)
  if 24 ≤ hour ∨ 60 ≤ minute then none
  match rest with
  | ':' :: tail =>
    let (second, rest) ← fixed? 2 tail
    if 60 ≤ second then none
    match rest with
    | '.' :: tail =>
      if (tail.takeWhile Char.isDigit).isEmpty then none else some (tail.dropWhile Char.isDigit)
    | _ => some rest
  | _ => some rest

/-- Is the text an offset from universal time? -/
def isOffset (cs : List Char) : Bool :=
  match cs with
  | ['Z'] => true
  | sign :: rest =>
    (sign == '+' || sign == '-') &&
      match fixed? 2 rest with
      | some (hour, ':' :: rest) =>
        match fixed? 2 rest with
        | some (minute, []) => hour ≤ 24 && minute ≤ 60
        | _ => false
      | _ => false
  | [] => false

/-- Is the spelling that of a date, a time, or both? A blank or a small `t` may divide them. -/
def isDate (cs : List Char) : Bool :=
  let cs := cs.map fun c =>
    if c = 't' ∨ c = ' ' then 'T' else if c = 'z' then 'Z' else c
  match skipDate? cs with
  | some [] => true
  | some ('T' :: rest) =>
    match skipTime? rest with
    | some [] => true
    | some rest => isOffset rest
    | none => false
  | some _ => false
  | none => skipTime? cs == some []

end ProofScript.Toml
