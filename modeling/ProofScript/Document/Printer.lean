import ProofScript.Document
import ProofScript.Formula.Printer

/-!
# Canonical layout of documents

One statement a line, four blanks for each open block, a semicolon after a rule with its arguments,
and an empty line between theorems. Reading the result gives the same document back, up to places.
-/

namespace ProofScript

/-- The blanks in front of a line inside `depth` blocks. -/
def indentation (depth : Nat) : String := "".pushn ' ' (4 * depth)

/-- A claim in canonical layout; a hole is an underscore. -/
def Claim.text (c : Claim) : String :=
  (c.name.elim "" (· ++ " : ")) ++ if c.formula.isHole then "_" else c.formula.text

/-- An argument in canonical layout. -/
def Argument.text : Argument → String
  | fact name _ => name
  | prop f => f.text

/-- Is the justification a rule with its arguments? -/
def Justification.isApply : Justification → Bool
  | .apply .. => true
  | _ => false

/-- The end of a line: a rule with its arguments is closed by a semicolon. -/
def Justification.lineEnd (j : Justification) : String := if j.isApply then ";\n" else "\n"

mutual

/-- The lines of a proof inside `depth` blocks. -/
def Proof.text (depth : Nat) : Proof → String
  | .mk s _ => s.text depth

/-- The lines of steps inside `depth` blocks. -/
def Steps.text (depth : Nat) : Steps → String
  | .last s => s.text depth
  | .conclude j _ => indentation depth ++ "by " ++ j.text depth ++ j.lineEnd
  | .more s rest => s.text depth ++ rest.text depth

/-- The lines of a statement inside `depth` blocks. -/
def Statement.text (depth : Nat) : Statement → String
  | .missing => ""
  | .step c j _ => indentation depth ++ "have " ++ c.text ++ " by " ++ j.text depth ++ j.lineEnd
  | .block b => indentation depth ++ b.text depth ++ "\n"

/-- A justification, which starts in the middle of a line. -/
def Justification.text (depth : Nat) : Justification → String
  | .missing => ""
  | .apply rule args _ =>
    if args.isEmpty then rule else rule ++ " " ++ ", ".intercalate (args.map Argument.text)
  | .block b => b.text depth

/-- A block, which starts in the middle of a line. -/
def Block.text (depth : Nat) : Block → String
  | .assume hyps p _ =>
    "assume " ++ ", ".intercalate (hyps.map Claim.text) ++ " \x7b\n" ++ p.text (depth + 1)
      ++ indentation depth ++ "\x7d"
  | .generalize vars p _ =>
    "forall " ++ ", ".intercalate vars ++ " \x7b\n" ++ p.text (depth + 1)
      ++ indentation depth ++ "\x7d"

end

/-- A theorem in canonical layout. -/
def Theorem.text (t : Theorem) : String := "theorem " ++ t.claim.text ++ "\n" ++ t.proof.text 0

/-- A document in canonical layout. -/
def Document.text (d : Document) : String := "\n".intercalate (d.theorems.map Theorem.text)

mutual

/-- Does the proof have all its statements? -/
def Proof.isComplete : Proof → Bool
  | .mk s _ => s.isComplete

/-- Are all statements there? -/
def Steps.isComplete : Steps → Bool
  | .last s => s.isComplete
  | .conclude j _ => j.isComplete
  | .more s rest => s.isComplete && rest.isComplete

/-- Is the statement there, with all statements inside it? -/
def Statement.isComplete : Statement → Bool
  | .missing => false
  | .step _ j _ => j.isComplete
  | .block b => b.isComplete

/-- Are all statements inside the justification there? -/
def Justification.isComplete : Justification → Bool
  | .missing => true
  | .apply .. => true
  | .block b => b.isComplete

/-- Are all statements inside the block there? -/
def Block.isComplete : Block → Bool
  | .assume _ p _ => p.isComplete
  | .generalize _ p _ => p.isComplete

end

/-- The canonical layout of a document, unless a statement is missing. -/
def Document.format? (d : Document) : Option String :=
  if d.theorems.all (·.proof.isComplete) then some d.text else none

end ProofScript
