/-!
# Words of 64 bits

The bounds of whole numbers that fit a word, with and without a sign.
-/

namespace ProofScript.Word

/-- How many words there are. -/
def count : Nat := 0x10000000000000000

/-- How many words are negative when they are read with a sign. -/
def half : Nat := 0x8000000000000000

/-- Does a number fit a word with a sign? -/
def holds (n : Int) : Bool := -(half : Int) ≤ n && n < half

end ProofScript.Word
