import ProofScript.Formula

/-!
# Documents

A document is a list of theorems, each with a proof. A proof is a sequence of statements that ends
with a final one or with an explicit conclusion. Blocks open hypotheses or bound variables for a
subproof; a statement or a justification may be such a block. Trees built by hand may lack a
statement or a justification: those places are `missing`.
-/

namespace ProofScript

/-- A proposition with an optional name. -/
structure Claim where
  name : Option String
  formula : Formula
  loc : Location
deriving DecidableEq, Repr, Inhabited

/-- An argument of a rule: the name of a fact, or the proposition of an anonymous one. -/
inductive Argument where
  | fact (name : String) (loc : Location)
  | prop (formula : Formula)
deriving DecidableEq, Repr, Inhabited

/-- Where an argument starts. -/
def Argument.loc : Argument → Location
  | fact _ l => l
  | prop f => f.loc

mutual

/-- The steps of a proof, with the place of the first. -/
inductive Proof where
  | mk (steps : Steps) (loc : Location)

/-- Statements up to the one that closes the proof. -/
inductive Steps where
  | last (s : Statement)
  | conclude (j : Justification) (loc : Location)
  | more (s : Statement) (rest : Steps)

/-- A claim with its justification, or a block. -/
inductive Statement where
  | missing
  | step (claim : Claim) (j : Justification) (loc : Location)
  | block (b : Block)

/-- What justifies a claim: a rule applied to arguments, or a block. -/
inductive Justification where
  | missing
  | apply (rule : String) (args : List Argument) (loc : Location)
  | block (b : Block)

/-- A subproof under hypotheses or under bound variables. -/
inductive Block where
  | assume (hyps : List Claim) (proof : Proof) (loc : Location)
  | generalize (vars : List String) (proof : Proof) (loc : Location)

end

deriving instance Repr for Proof, Steps, Statement, Justification, Block

instance : Inhabited Statement := ⟨.missing⟩

instance : Inhabited Justification := ⟨.missing⟩

instance : Inhabited Steps := ⟨.last .missing⟩

instance : Inhabited Proof := ⟨.mk (.last .missing) ⟨0, 0⟩⟩

instance : Inhabited Block := ⟨.generalize [] default ⟨0, 0⟩⟩

/-- A claim and its proof. -/
structure Theorem where
  claim : Claim
  proof : Proof
  loc : Location
deriving Repr

/-- A whole script. -/
structure Document where
  theorems : List Theorem
  loc : Location
deriving Repr

/-- The steps of a proof. -/
def Proof.steps : Proof → Steps
  | mk s _ => s

/-- Where a proof starts. -/
def Proof.loc : Proof → Location
  | mk _ l => l

/-- Where a block starts. -/
def Block.loc : Block → Location
  | assume _ _ l => l
  | generalize _ _ l => l

/-- The claim without its places. -/
def Claim.erase (c : Claim) : Claim := ⟨c.name, c.formula.erase, ⟨0, 0⟩⟩

/-- The argument without its place. -/
def Argument.erase : Argument → Argument
  | fact n _ => fact n ⟨0, 0⟩
  | prop f => prop f.erase

mutual

/-- The proof without its places. -/
def Proof.erase : Proof → Proof
  | .mk s _ => .mk s.erase ⟨0, 0⟩

/-- The steps without their places. -/
def Steps.erase : Steps → Steps
  | .last s => .last s.erase
  | .conclude j _ => .conclude j.erase ⟨0, 0⟩
  | .more s rest => .more s.erase rest.erase

/-- The statement without its places. -/
def Statement.erase : Statement → Statement
  | .missing => .missing
  | .step c j _ => .step c.erase j.erase ⟨0, 0⟩
  | .block b => .block b.erase

/-- The justification without its places. -/
def Justification.erase : Justification → Justification
  | .missing => .missing
  | .apply rule args _ => .apply rule (args.map Argument.erase) ⟨0, 0⟩
  | .block b => .block b.erase

/-- The block without its places. -/
def Block.erase : Block → Block
  | .assume hyps p _ => .assume (hyps.map Claim.erase) p.erase ⟨0, 0⟩
  | .generalize vars p _ => .generalize vars p.erase ⟨0, 0⟩

end

/-- The theorem without its places. -/
def Theorem.erase (t : Theorem) : Theorem := ⟨t.claim.erase, t.proof.erase, ⟨0, 0⟩⟩

/-- The document without its places. -/
def Document.erase (d : Document) : Document := ⟨d.theorems.map Theorem.erase, ⟨0, 0⟩⟩

end ProofScript
