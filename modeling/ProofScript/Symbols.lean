import ProofScript.Document
import ProofScript.Library
import ProofScript.TextRange

/-!
# Symbol tables

Every named theorem, hypothesis and step of a document, and every use of a name. Hypotheses and
steps are visible for the rest of the proof around them, theorems for the rest of the document, and
inner names hide outer ones. A name that is bound nowhere may be a rule of the library.
-/

namespace ProofScript

/-- The kinds of bindings. -/
inductive BindingKind where
  | theorem_
  | hypothesis
  | step
deriving DecidableEq, Repr, Inhabited

namespace BindingKind

/-- The name of a kind. -/
def name : BindingKind → String
  | theorem_ => "theorem"
  | hypothesis => "hypothesis"
  | step => "step"

/-- The name of the kind with a given number. -/
def nameOfNumber : Int → String
  | 0 => theorem_.name
  | 1 => hypothesis.name
  | 2 => step.name
  | _ => "binding"

end BindingKind

/-- A named theorem, hypothesis or step, and the theorem around it. -/
structure Binding where
  name : String
  kind : BindingKind
  formula : Formula
  range : TextRange
  container : Option String
deriving Repr, Inhabited

/-- What a name refers to: a binding, by its number, or a rule of the library. -/
inductive Referent where
  | binding (index : Nat)
  | primitive (p : Primitive)
  | unknown
deriving Repr, Inhabited

/-- A use of a name. -/
structure Reference where
  name : String
  range : TextRange
  referent : Referent
deriving Repr, Inhabited

/-- The bindings and references of a document, in the order in which they are met. -/
structure SymbolTable where
  bindings : List Binding
  references : List Reference
deriving Repr, Inhabited

namespace SymbolTable

/-- What the table of a document is built with: the scopes, innermost first, and the theorem
around. -/
structure Builder where
  table : SymbolTable
  scopes : List (List (String × Nat))
  container : Option String
deriving Repr, Inhabited

/-- A step of building. -/
abbrev Build := StateM Builder

/-- Runs a step in a scope of its own. -/
def inScope (act : Build Unit) : Build Unit := do
  modify fun b => { b with scopes := [] :: b.scopes }
  act
  modify fun b => { b with scopes := b.scopes.tail }

/-- Binds the name of a claim, if it has one. -/
def bind (c : Claim) (kind : BindingKind) : Build Unit :=
  match c.name with
  | none => return ()
  | some name => modify fun b =>
    let binding : Binding :=
      ⟨name, kind, c.formula, c.loc.nameRange name, if kind = .theorem_ then none else b.container⟩
    let index := b.table.bindings.length
    let scopes := match b.scopes with
      | [] => [[(name, index)]]
      | top :: rest => ((name, index) :: top) :: rest
    { b with table.bindings := b.table.bindings ++ [binding], scopes := scopes }

/-- Notes a use of a name. -/
def refer (name : String) (loc : Location) : Build Unit := modify fun b =>
  let referent := match b.scopes.findSome? (·.lookup name) with
    | some index => Referent.binding index
    | none => (Library.findRule? name).elim .unknown .primitive
  { b with table.references := b.table.references ++ [⟨name, loc.nameRange name, referent⟩] }

/-- Notes the names among arguments. -/
def referAll : List Argument → Build Unit
  | [] => return ()
  | .fact name loc :: rest => do
    refer name loc
    referAll rest
  | .prop _ :: rest => referAll rest

/-- Binds the names of hypotheses. -/
def bindAll : List Claim → Build Unit
  | [] => return ()
  | h :: rest => do
    bind h .hypothesis
    bindAll rest

mutual

/-- Visits a proof. -/
def proof : Proof → Build Unit
  | .mk s _ => inScope (steps s)

/-- Visits steps. -/
def steps : Steps → Build Unit
  | .last s => statement s
  | .conclude j _ => justification j
  | .more s rest => do
    statement s
    steps rest

/-- Visits a statement. Its name is bound after its justification. -/
def statement : Statement → Build Unit
  | .missing => return ()
  | .step c j _ => do
    justification j
    bind c .step
  | .block b => block b

/-- Visits a justification. -/
def justification : Justification → Build Unit
  | .missing => return ()
  | .apply rule args loc => do
    refer rule loc
    referAll args
  | .block b => block b

/-- Visits a block. -/
def block : Block → Build Unit
  | .assume hyps p _ => inScope do
    bindAll hyps
    proof p
  | .generalize _ p _ => proof p

end

/-- Visits theorems. -/
def theorems : List Theorem → Build Unit
  | [] => return ()
  | t :: rest => do
    modify fun b => { b with container := t.claim.name }
    proof t.proof
    modify fun b => { b with container := none }
    bind t.claim .theorem_
    theorems rest

/-- The symbol table of a document. -/
def ofDocument (d : Document) : SymbolTable :=
  ((theorems d.theorems).run ⟨⟨[], []⟩, [[]], none⟩).2.table

/-- What stands at a position. -/
inductive Hit where
  | reference (r : Reference)
  | binding (index : Nat) (b : Binding)
deriving Repr

/-- The reference at a position, or else the binding. -/
def at? (t : SymbolTable) (p : TextPosition) : Option Hit :=
  match t.references.find? (·.range.contains p) with
  | some r => some (.reference r)
  | none =>
    (t.bindings.zipIdx.find? (·.1.range.contains p)).map fun (b, i) => .binding i b

end SymbolTable

end ProofScript
