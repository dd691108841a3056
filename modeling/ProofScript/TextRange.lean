import ProofScript.Location

/-!
# Editor positions

Positions and ranges as editors count them: lines and characters from zero, the end excluded.
-/

namespace ProofScript

/-- A line and a character, both counted from zero. -/
structure TextPosition where
  line : Int
  character : Int
deriving DecidableEq, Repr, Inhabited

/-- A range that excludes its end. -/
structure TextRange where
  start : TextPosition
  stop : TextPosition
deriving DecidableEq, Repr, Inhabited

/-- Does a position lie in a range? -/
def TextRange.contains (r : TextRange) (p : TextPosition) : Bool :=
  if p.line < r.start.line ∨ p.line > r.stop.line then false
  else if p.line = r.start.line ∧ p.character < r.start.character then false
  else !(p.line = r.stop.line ∧ p.character ≥ r.stop.character)

/-- The editor position of a place in a script. -/
def Location.toPosition (loc : Location) : TextPosition :=
  ⟨max (loc.line - 1) 0, max (loc.column - 1) 0⟩

/-- The range of a name that starts at a place; it covers at least one character. -/
def Location.nameRange (loc : Location) (name : String) : TextRange :=
  let start := loc.toPosition
  ⟨start, { start with character := start.character + max name.utf8ByteSize 1 }⟩

end ProofScript
