/-!
# Positions in a script

A location is a line and a byte column, both counted from one.
-/

namespace ProofScript

/-- A line and a byte column in a script, both counted from one. -/
structure Location where
  line : Int
  column : Int
deriving DecidableEq, Repr, Inhabited

namespace Location

/-- The location of the first byte of a script. -/
def start : Location := ⟨1, 1⟩

/-- The location `n` bytes further on the same line. -/
def advance (loc : Location) (n : Nat) : Location :=
  { loc with column := loc.column + n }

/-- The location of the first byte after a line break. -/
def newline (loc : Location) : Location := ⟨loc.line + 1, 1⟩

/-- The written form, as in `[3, 14]`. -/
def text (loc : Location) : String :=
  "[" ++ toString loc.line ++ ", " ++ toString loc.column ++ "]"

end Location

end ProofScript
