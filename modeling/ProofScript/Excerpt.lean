import ProofScript.Location
import ProofScript.Text.Lines
import ProofScript.Word

/-!
# Excerpts

An error shown with the lines of the script around it, the offending column marked by carets. The
result holds the escape codes of a terminal.
-/

namespace ProofScript

/-- An error message with the place and the script it is about. -/
structure Excerpt where
  message : String
  filename : String
  loc : Location
  length : Int
  source : String
deriving Repr, Inhabited

namespace Excerpt

/-- The escape code that starts red text. -/
def red : String := "\x1b[31m"

/-- The escape code that starts blue text. -/
def blue : String := "\x1b[34m"

/-- The escape code that starts bold text. -/
def bold : String := "\x1b[1m"

/-- The escape code that starts dim text. -/
def dim : String := "\x1b[2m"

/-- The escape code that ends them all. -/
def reset : String := "\x1b[0m"

/-- How many columns the caret stands behind the left edge. -/
def margin (e : Excerpt) : Int := 6 + e.loc.column

/-- One line of the script. The offending one is followed by carets. -/
def line (e : Excerpt) (number : Nat) (text : String) : String :=
  let gutter := Text.padLeft 3 (toString number)
  if (number : Int) = e.loc.line then
    " " ++ dim ++ blue ++ bold ++ gutter ++ " | " ++ reset ++ text ++ "\n"
      ++ dim ++ "".pushn ' ' e.margin.toNat ++ red ++ "".pushn '^' (max 1 e.length).toNat
      ++ reset ++ "\n"
  else " " ++ dim ++ gutter ++ " | " ++ text ++ reset ++ "\n"

/-- The border above and below the lines. -/
def border : String := " " ++ dim ++ Text.padLeft 3 "" ++ " |" ++ reset ++ "\n"

/-- Does the script have the line that the error is about? -/
def hasLine (e : Excerpt) : Bool :=
  1 ≤ e.loc.line && e.loc.line ≤ (Text.lines e.source).length

/-- The error with up to two lines before and after the offending one. An error about no line of
the script is its message alone. -/
def text (e : Excerpt) : String :=
  if e.hasLine then
    let first := (max 1 (e.loc.line - 2)).toNat
    let shown := (((Text.lines e.source).zipIdx 1).drop (first - 1)).take
      ((e.loc.line + 2).toNat + 1 - first)
    bold ++ red ++ "Error:" ++ reset ++ " " ++ e.message ++ "\n"
      ++ "  " ++ dim ++ blue ++ "--> " ++ e.filename ++ ":" ++ toString e.loc.line ++ ":"
      ++ toString e.loc.column ++ reset ++ "\n"
      ++ border ++ String.join (shown.map fun (text, number) => e.line number text) ++ border
  else e.message

/-- What breaks the rendering. -/
inductive Fault where
  /-- The margin is no count: it is negative, or beyond a word. -/
  | badMargin
  /-- The line of carets is longer than any memory. -/
  | tooLong
deriving DecidableEq, Repr, Inhabited

/-- The wording of a fault, if it has one. -/
def Fault.message? : Fault → Option String
  | badMargin => some "strings: negative Repeat count"
  | tooLong => none

/-- The greatest number of bytes that can be addressed. -/
def memory : Nat := 0x1000000000000

/-- The fault of an excerpt, if it has one. -/
def fault? (e : Excerpt) : Option Fault :=
  if !e.hasLine then none
  else if e.margin < 0 || (Word.half : Int) ≤ e.margin then some .badMargin
  else if (memory : Int) < e.margin || (memory : Int) < e.length then some .tooLong
  else none

end Excerpt

end ProofScript
