import ProofScript.Document

/-!
# Outlines

A document as nested lists, one node a line: each node opens with its words, and its children
follow on lines of their own, four blanks further in.
-/

namespace ProofScript

/-- A node: its words, and its children. -/
inductive Outline where
  | node (words : List String) (children : List Outline)
deriving Repr

namespace Outline

mutual

/-- The written form of a node that stands `depth` levels in. -/
def render (depth : Nat) : Outline → String
  | node words children => "(" ++ " ".intercalate words ++ renderAll (depth + 1) children ++ ")"

/-- The written form of children, each on a line of its own. -/
def renderAll (depth : Nat) : List Outline → String
  | [] => ""
  | c :: rest => "\n" ++ "".pushn ' ' (4 * depth) ++ c.render depth ++ renderAll depth rest

end

/-- A node without children. -/
def leaf (words : List String) : Outline := node words []

/-- The words of a node that may have a name. -/
def named (word : String) (name : Option String) : List String := word :: name.toList

end Outline

/-- The outline of a proposition. -/
def Formula.outline : Formula → Outline
  | .hole => .leaf ["Hole"]
  | .atom name args _ => .leaf ("Proposition" :: name :: args)
  | .neg a _ => .node ["Negation"] [a.outline]
  | .conj a b _ => .node ["Conjunction"] [a.outline, b.outline]
  | .disj a b _ => .node ["Disjunction"] [a.outline, b.outline]
  | .impl a b _ => .node ["Implication"] [a.outline, b.outline]
  | .all vars a _ => .node ("Quantified" :: vars) [a.outline]

/-- The outline of an argument; a hole has none. -/
def Argument.outline? : Argument → Option Outline
  | fact name _ => some (.leaf ["Identifier", name])
  | prop .hole => none
  | prop f => some f.outline

/-- The outline of a hypothesis. -/
def Claim.hypothesisOutline (c : Claim) : Outline :=
  .node (Outline.named "Hypothesis" c.name) [c.formula.outline]

mutual

/-- The outline of a proof. -/
def Proof.outline : Proof → Outline
  | .mk s _ => .node ["Proof"] s.outlines

/-- The outlines of steps. -/
def Steps.outlines : Steps → List Outline
  | .last s => [s.outline]
  | .conclude j _ => [.node ["By"] [j.outline]]
  | .more s rest => s.outline :: rest.outlines

/-- The outline of a statement. -/
def Statement.outline : Statement → Outline
  | .missing => .leaf ["?"]
  | .step c j _ => .node (Outline.named "Step" c.name) [c.formula.outline, j.outline]
  | .block b => b.outline

/-- The outline of a justification. -/
def Justification.outline : Justification → Outline
  | .missing => .leaf ["?"]
  | .apply rule args _ => .node ["Application", rule] (args.filterMap Argument.outline?)
  | .block b => b.outline

/-- The outline of a block. -/
def Block.outline : Block → Outline
  | .assume hyps p _ => .node ["Assumption"] (hyps.map Claim.hypothesisOutline ++ [p.outline])
  | .generalize vars p _ => .node ("Generalization" :: vars) [p.outline]

end

/-- The outline of a theorem. -/
def Theorem.outline (t : Theorem) : Outline :=
  .node (Outline.named "Theorem" t.claim.name) [t.claim.formula.outline, t.proof.outline]

/-- The outline of a document. -/
def Document.outline (d : Document) : Outline :=
  .node ["Document"] (d.theorems.map Theorem.outline)

/-- The written outline of a document. -/
def Document.outlineText (d : Document) : String := d.outline.render 0 ++ "\n"

end ProofScript
