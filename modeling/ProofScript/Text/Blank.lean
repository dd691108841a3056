/-!
# Blanks

Two classes of blanks: the white space that trimming removes, which is that of Unicode, and the
white space of patterns, which is that of ASCII without the vertical tab.
-/

namespace ProofScript.Text

/-- White space of Unicode. -/
def isSpace (c : Char) : Bool :=
  let n := c.toNat
  (9 ≤ n && n ≤ 13) || n == 0x20 || n == 0x85 || n == 0xA0 || n == 0x1680
    || (0x2000 ≤ n && n ≤ 0x200A) || n == 0x2028 || n == 0x2029 || n == 0x202F || n == 0x205F
    || n == 0x3000

/-- White space as patterns mean it. -/
def isBlank (c : Char) : Bool :=
  c == ' ' || c == '\t' || c == '\n' || c == '\r' || c.toNat == 12

/-- Characters without those of a class at both ends. -/
def trimBy (p : Char → Bool) (cs : List Char) : List Char :=
  ((cs.dropWhile p).reverse.dropWhile p).reverse

/-- A text without the white space at both ends. -/
def trim (s : String) : String := String.ofList (trimBy isSpace s.toList)

end ProofScript.Text
