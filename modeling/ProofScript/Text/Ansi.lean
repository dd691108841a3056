/-!
# Escape sequences of terminals

Colours and other commands reach a terminal as escape sequences. A text that is not shown on one is
stripped of them.
-/

namespace ProofScript.Text

/-- Where in an escape sequence a reader is: outside, after the escape character, after the
intermediate characters of a short sequence, inside the parameters or the intermediate characters
of a command, or inside a string that ends at the next escape character, a title being one that also
ends at a bell. -/
inductive AnsiState where
  | ground
  | escape
  | escapeIntermediate
  | command
  | commandIntermediate
  | string
  | title
deriving DecidableEq, Repr, Inhabited

namespace AnsiState

/-- Is a reader in this state inside a string? -/
def isString : AnsiState → Bool
  | string => true
  | title => true
  | _ => false

/-- The state after the character that follows the escape character. -/
def afterEscape (n : Nat) : AnsiState :=
  if n < 0x30 then escapeIntermediate
  else if n = 0x5B then command
  else if n = 0x5D then title
  else if n = 0x50 ∨ n = 0x58 ∨ n = 0x5E ∨ n = 0x5F then string
  else ground

/-- The state after a printable ASCII character. -/
def afterPrintable (s : AnsiState) (n : Nat) : AnsiState :=
  match s with
  | escape => afterEscape n
  | escapeIntermediate => if n < 0x30 then escapeIntermediate else ground
  | command => if n < 0x30 then commandIntermediate else if n < 0x40 then command else ground
  | commandIntermediate => if n < 0x30 then commandIntermediate else ground
  | s => s

/-- The state after a character, and whether the character stays in the text. -/
def next (s : AnsiState) (c : Char) : AnsiState × Bool :=
  let n := c.toNat
  if n = 0x1B then (escape, false)
  else if n = 0x18 ∨ n = 0x1A then (ground, !s.isString)
  else if n = 0x07 ∧ s = title then (ground, false)
  else if s.isString then (s, false)
  else if 0x80 ≤ n then (ground, true)
  else if n = 0x7F then (s, s = ground)
  else if n < 0x20 then (s, true)
  else (s.afterPrintable n, s = ground)

end AnsiState

/-- Characters without escape sequences, read from a state. -/
def stripFrom : AnsiState → List Char → List Char
  | _, [] => []
  | s, c :: rest =>
    let (t, keep) := s.next c
    if keep then c :: stripFrom t rest else stripFrom t rest

/-- A text without escape sequences. -/
def stripAnsi (s : String) : String := String.ofList (stripFrom .ground s.toList)

end ProofScript.Text
