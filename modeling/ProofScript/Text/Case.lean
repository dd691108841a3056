/-!
# Letter case

Comparison without regard to case, for words of ASCII letters. Three characters outside ASCII count
as such letters: the long s, the sign of the kelvin and the capital i with a dot.
-/

namespace ProofScript.Text

/-- The small letter of a character, as far as it is an ASCII letter. -/
def lowerChar (c : Char) : Char :=
  if c.toNat = 0x212A then 'k' else if c.toNat = 0x130 then 'i' else c.toLower

/-- A text in small letters. -/
def lower (s : String) : String := String.ofList (s.toList.map lowerChar)

/-- The letter that stands for all cases of a character, as far as it is an ASCII letter. -/
def foldChar (c : Char) : Char :=
  if c.toNat = 0x17F then 's' else if c.toNat = 0x212A then 'k' else c.toLower

/-- Are two texts equal up to the case of their ASCII letters? -/
def equalFold (a b : String) : Bool := a.toList.map foldChar == b.toList.map foldChar

/-- Does a text contain another one? -/
def contains (part : List Char) : List Char → Bool
  | [] => part.isEmpty
  | c :: rest => part.isPrefixOf (c :: rest) || contains part rest

end ProofScript.Text
