import ProofScript.Word

/-!
# Decimal numbers

Digit sequences of ASCII digits and their values.
-/

namespace ProofScript.Text

/-- The value of a digit sequence. -/
def digitsValue (ds : List Char) : Nat := ds.foldl (fun v d => 10 * v + (d.toNat - 48)) 0

/-- The value of a nonempty sequence of digits, nothing else. -/
def natural? (cs : List Char) : Option Nat :=
  if cs.isEmpty || !cs.all Char.isDigit then none else some (digitsValue cs)

/-- The value of a decimal number with an optional sign that fits a word of 64 bits. -/
def integer? (cs : List Char) : Option Int :=
  let (negative, ds) := match cs with
    | '+' :: rest => (false, rest)
    | '-' :: rest => (true, rest)
    | _ => (false, cs)
  match natural? ds with
  | none => none
  | some n =>
    let v : Int := if negative then -n else n
    if Word.holds v then some v else none

end ProofScript.Text
