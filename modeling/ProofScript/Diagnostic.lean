import ProofScript.Program.Position
import ProofScript.Wording

/-!
# Diagnostics

A type error of a printed program: a code, a message, and, where it is known, the place in the
program and the place in the script that this stems from.
-/

namespace ProofScript

open Program

/-- A type error. -/
structure Diagnostic where
  code : String
  message : Wording
  position : Option Position
  origin : Option Location
deriving DecidableEq, Repr, Inhabited

namespace Diagnostic

/-- A diagnostic at a byte offset of a program; a negative offset is no place. -/
def atOffset (p : Printed) (offset : Int) (code : String) (message : Wording) : Diagnostic :=
  if offset < 0 then ⟨code, message, none, none⟩
  else ⟨code, message, some (p.locate offset), p.originAt offset⟩

/-- The written form of a diagnostic. -/
def text (d : Diagnostic) : String :=
  let body := "error " ++ d.code ++ ": " ++ d.message.text
  match d.position with
  | none => body
  | some p => "(" ++ toString p.line ++ "," ++ toString p.column ++ "): " ++ body

end Diagnostic

end ProofScript
