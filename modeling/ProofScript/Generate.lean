import ProofScript.Document
import ProofScript.Frames
import ProofScript.Library
import ProofScript.Name
import ProofScript.Program.Layout
import ProofScript.ScriptError

/-!
# Generating programs

Every theorem becomes one declaration. A theorem whose whole proof assumes hypotheses, and whose
claim is neither an implication nor a negation, takes them as parameters; any other becomes a
function without parameters that returns its claim. Hypotheses and blocks become arrows, steps
become constants, and a rule with its arguments becomes a chain of calls.

Atoms become type parameters of the outermost arrow that mentions them. What a proof mentions on
its own level is therefore recorded before its blocks are generated.
-/

namespace ProofScript

open Program

/-- A problem that does not stop the compilation. -/
structure Warning where
  loc : Location
  message : String
deriving DecidableEq, Repr, Inhabited

/-- The written form of a warning. -/
def Warning.text (w : Warning) : String := w.message ++ " at " ++ w.loc.text

/-- What a document built by hand, but no document read from a script, can break. -/
inductive Fault where
  | frames (misuse : FrameMisuse)
  | framesLeftOpen (count : Nat)
  | missingFinalStep
  | missingStatement
  | missingJustification
  | missingFormula
  | missingArgument
  | noHypotheses
  | noVariables
  | program (gap : Gap)
deriving DecidableEq, Repr, Inhabited

/-- The wording of a fault, where it has one. -/
def Fault.message : Fault → Option String
  | frames m => some m.message
  | framesLeftOpen n => some ("natded: " ++ toString n ++ " frames left open after theorem")
  | missingFinalStep => some "natded: unknown final step <nil>"
  | missingStatement => some "natded: unknown statement <nil>"
  | missingJustification => some "natded: unknown justification <nil>"
  | missingFormula => some "natded: unknown expression <nil>"
  | missingArgument => some "natded: unknown argument <nil>"
  | noHypotheses => none
  | noVariables => none
  | program g => some g.message

namespace Generate

/-- Why generation stops. -/
inductive Failure where
  | error (e : GenerateError)
  | fault (f : Fault)
deriving DecidableEq, Repr, Inhabited

/-- What generation reports while it runs. -/
inductive Event where
  | warning (w : Warning)
  | reference (name : String) (kind : PrimitiveKind)
deriving DecidableEq, Repr, Inhabited

/-- The names bound by one function, with the places of their declarations. -/
abbrev Scope := List (String × Location)

/-- What generation knows from the start: the mode, and the names of all theorems. -/
structure Context where
  systemF : Bool
  theorems : List String
deriving Repr, Inhabited

/-- What generation keeps: the frames; the theorems declared so far, and which of them take no
parameters; the scopes of the functions around, innermost first; the rules used; the warnings and
the reports, latest last. -/
structure State where
  frames : Frames
  declared : Scope
  thunks : List String
  scopes : List Scope
  used : List String
  warnings : List Warning
  events : List Event
deriving Repr, Inhabited

/-- Nothing is generated yet. -/
def State.empty : State := ⟨.empty, [], [], [], [], [], []⟩

end Generate

/-- A generation step: it may fail, and keeps its reports when it does. -/
abbrev Generate := ReaderT Generate.Context (ExceptT Generate.Failure (StateM Generate.State))

namespace Generate

/-- Stops at a place of the script. -/
def fail {α : Type} (loc : Location) (cause : GenerateCause) : Generate α :=
  throw (.error ⟨loc, cause⟩)

/-- Stops at a broken document. -/
def broken {α : Type} (f : Fault) : Generate α := throw (.fault f)

/-- Runs a step on the frames. -/
def onFrames {α : Type} (f : Frames → Except FrameMisuse (α × Frames)) : Generate α := do
  match f (← get).frames with
  | .ok (a, g) =>
    modify fun s => { s with frames := g }
    return a
  | .error m => broken (.frames m)

/-- Opens a frame. -/
def enter : Generate Unit := onFrames fun f => .ok ((), f.enter)

/-- Records an atom in the innermost frame. -/
def mention (name : String) : Generate Unit := onFrames fun f => (f.add name).map ((), ·)

/-- Closes the innermost frame and returns its type parameters. -/
def exit : Generate (List String) := do
  let names ← onFrames Frames.exit
  return names.map escapeTypeVar

/-- Binds names. -/
def bindNames (names : List String) : Generate Unit := onFrames fun f => .ok ((), f.bind names)

/-- Releases the last bound names. -/
def unbindNames (n : Nat) : Generate Unit := onFrames fun f => (f.unbind n).map ((), ·)

/-- Raises a warning, unless the same one was raised before. -/
def warn (loc : Location) (message : String) : Generate Unit :=
  modify fun s =>
    let w : Warning := ⟨loc, message⟩
    if w ∈ s.warnings then s
    else { s with warnings := s.warnings ++ [w], events := s.events ++ [.warning w] }

/-- Opens a scope. -/
def pushScope : Generate Unit := modify fun s => { s with scopes := [] :: s.scopes }

/-- Closes the innermost scope. -/
def popScope : Generate Unit := modify fun s => { s with scopes := s.scopes.tail }

/-- Where a scope binds a name. -/
def Scope.find? (sc : Scope) (name : String) : Option Location := sc.lookup name

/-- Binds a name in the innermost scope, which must not bind it yet. -/
def declare (name : String) (loc : Location) : Generate Unit := do
  let s ← get
  match s.scopes with
  | [] =>
    match Scope.find? s.declared name with
    | some first => fail loc (.alreadyDeclared name first)
    | none => set { s with declared := s.declared ++ [(name, loc)] }
  | top :: rest =>
    match Scope.find? top name with
    | some first => fail loc (.alreadyDeclared name first)
    | none => set { s with scopes := (top ++ [(name, loc)]) :: rest }

/-- Notes the use of a rule of the library. -/
def useRule (p : Primitive) (loc : Location) : Generate Unit := do
  modify fun s => if p.name ∈ s.used then s else { s with used := s.used ++ [p.name] }
  match p.warning with
  | some message => warn loc message
  | none => pure ()
  modify fun s => { s with events := s.events ++ [.reference p.name p.kind] }

/-- A reference to a binding, a theorem or a rule. An unknown name is left to the checker. -/
def reference (name : String) (loc : Location) : Generate Expr := do
  let name := escapeIdent name
  let s ← get
  let ident : Expr := .ident name (some loc)
  if s.scopes.any fun sc => (Scope.find? sc name).isSome then return ident
  else if (Scope.find? s.declared name).isSome then
    if name ∈ s.thunks then return .call ident [] [] (some loc) else return ident
  else if name ∈ (← read).theorems then fail loc (.usedBeforeProved name)
  else
    match Library.findRule? name with
    | some p => useRule p loc
    | none => pure ()
    return ident

/-- The type of a proposition. Its free atoms are recorded in the innermost frame. -/
def typeOf : Formula → Generate TypeExpr
  | .hole => broken .missingFormula
  | .atom name args loc => do
    mention name
    match args with
    | [] => return .ref (escapeTypeVar name) []
    | arg :: rest =>
      if rest.isEmpty then pure ()
      else warn loc ("predicate " ++ name ++ " has " ++ toString (rest.length + 1)
        ++ " arguments; only the first is used")
      mention arg
      return .ref "Apply" [.ref (escapeTypeVar name) [], .ref (escapeTypeVar arg) []]
  | .neg a _ => do return .ref "Not" [← typeOf a]
  | .conj a b _ => do
    let ta ← typeOf a
    let tb ← typeOf b
    return .ref "And" [ta, tb]
  | .disj a b _ => do
    let ta ← typeOf a
    let tb ← typeOf b
    return .ref "Or" [ta, tb]
  | .impl a b _ => do
    let ta ← typeOf a
    let tb ← typeOf b
    return .ref "Impl" [ta, tb]
  | .all vars a _ => do
    bindNames vars
    let t ← typeOf a
    unbindNames vars.length
    return vars.foldr (fun v t => .func [escapeTypeVar v] [] t) t

/-- The value of an argument: a reference, or the name of the anonymous fact. -/
def argument : Argument → Generate Expr
  | .fact name loc => reference name loc
  | .prop .hole => broken .missingArgument
  | .prop f => do
    let _ ← typeOf f
    return .ident f.factName (some f.loc)

/-- Calls a function with arguments, one at a time. -/
def applyAll (fn : Expr) : List Argument → Generate Expr
  | [] => return fn
  | a :: rest => do
    let x ← argument a
    applyAll (.call fn [] [x] (some a.loc)) rest

/-- The rule that instantiates a quantified fact in System F mode. -/
def instantiationRule : String := "forallElim"

/-- An instance of a quantified fact at a proposition. -/
def instantiate (args : List Argument) (loc : Location) : Generate Expr :=
  match args with
  | [.prop .hole, _] => fail loc .instantiationShape
  | [.prop f, .fact name at_] => do
    let fn ← reference name at_
    let t ← typeOf f
    return .call fn [t] [] (some loc)
  | [_, _] => fail loc .instantiationShape
  | _ => fail loc (.instantiationCount args.length)

/-- A rule applied to its arguments. -/
def application (rule : String) (args : List Argument) (loc : Location) : Generate Expr := do
  if (← read).systemF ∧ rule = instantiationRule then instantiate args loc
  else
    let fn ← reference rule loc
    applyAll fn args

/-- The parameter of a hypothesis and the place it stems from. -/
abbrev Hypothesis := Param × Location

/-- Opens a frame for each hypothesis and binds its name. -/
def hypotheses : List Claim → Generate (List Hypothesis)
  | [] => return []
  | h :: rest => do
    enter
    let t ← typeOf h.formula
    let name := h.name.elim h.formula.factName escapeIdent
    declare name h.loc
    let more ← hypotheses rest
    return ((name, t), h.loc) :: more

/-- Nests the arrows of hypotheses around a body and closes their frames, innermost first. -/
def closeHypotheses (ret : Option TypeExpr) (body : Body) : List Hypothesis → Generate Expr
  | [] => broken .noHypotheses
  | [(p, loc)] => do
    let tparams ← exit
    return .arrow tparams [p] ret body (some loc)
  | (p, loc) :: rest => do
    let inner ← closeHypotheses ret body rest
    let tparams ← exit
    return .arrow tparams [p] none (.expr inner) (some loc)

/-- Nests arrows for bound variables around a body. -/
def closeVariables (ret : Option TypeExpr) (body : Body) (loc : Location) :
    List String → Generate Expr
  | [] => broken .noVariables
  | [v] => return .arrow [escapeTypeVar v] [] ret body (some loc)
  | v :: rest => do
    let inner ← closeVariables ret body loc rest
    return .arrow [escapeTypeVar v] [] none (.expr inner) (some loc)

/-- Records the atoms of the propositions among arguments. -/
def recordArguments : List Argument → Generate Unit
  | [] => return ()
  | .fact _ _ :: rest => recordArguments rest
  | .prop .hole :: rest => recordArguments rest
  | .prop f :: rest => do
    let _ ← typeOf f
    recordArguments rest

/-- Records the atoms that a justification mentions on its own level. -/
def recordJustification : Justification → Generate Unit
  | .apply _ args _ => recordArguments args
  | _ => return ()

/-- Records the atoms that a statement mentions on its own level. -/
def recordStatement : Statement → Generate Unit
  | .step c j _ => do
    if c.formula.isHole then pure ()
    else
      let _ ← typeOf c.formula
    recordJustification j
  | _ => return ()

/-- Records the atoms that steps mention on their own level. -/
def recordSteps : Steps → Generate Unit
  | .last s => recordStatement s
  | .conclude j _ => recordJustification j
  | .more s rest => do
    recordStatement s
    recordSteps rest

/-- The name and the annotation of a step's constant. -/
def stepHead (c : Claim) : Generate (String × Option TypeExpr) := do
  let name ← match c.name with
    | some n => pure (escapeIdent n)
    | none => if c.formula.isHole then fail c.loc .unnamedHole else pure c.formula.factName
  if c.formula.isHole then return (name, none)
  else
    let t ← typeOf c.formula
    return (name, some t)

/-- A function body: a value alone, or statements that return it. -/
def bodyOf (stmts : List Stmt) (value : Expr) : Body :=
  if stmts.isEmpty then .expr value else .block (stmts ++ [.ret value])

mutual

/-- The body of the function that a proof becomes, and the return type that the function should
adopt. `declared` tells whether it has a return type already. -/
def proof (declared : Bool) : Proof → Generate (Body × Option TypeExpr)
  | .mk s _ => do
    recordSteps s
    let (stmts, value, ret) ← steps declared s
    return (bodyOf stmts value, ret)

/-- The statements and the value of steps. -/
def steps (declared : Bool) : Steps → Generate (List Stmt × Expr × Option TypeExpr)
  | .last s => final declared s
  | .conclude j _ => do
    let value ← justification j
    return ([], value, none)
  | .more s rest => do
    let stmt ← statement s
    let (stmts, value, ret) ← steps declared rest
    return (stmt :: stmts, value, ret)

/-- The value of a final statement. A claim goes to the return type of the function, or to a
constant if the function has a return type already. -/
def final (declared : Bool) : Statement → Generate (List Stmt × Expr × Option TypeExpr)
  | .missing => broken .missingFinalStep
  | .block b => do
    let value ← block b
    return ([], value, none)
  | .step c j loc => do
    if c.formula.isHole then
      let value ← justification j
      return ([], value, none)
    else if declared then
      let (name, t) ← stepHead c
      let value ← justification j
      declare name c.loc
      return ([.const name t value false false none (some loc)], .ident name (some loc), none)
    else
      let t ← typeOf c.formula
      let value ← justification j
      return ([], value, some t)

/-- The declaration of a statement that is not the final one. -/
def statement : Statement → Generate Stmt
  | .missing => broken .missingStatement
  | .block b => do
    let value ← block b
    return .expr (.paren value) (some b.loc)
  | .step c j loc => do
    let (name, t) ← stepHead c
    let value ← justification j
    declare name c.loc
    return .const name t value false false none (some loc)

/-- The value of a justification. -/
def justification : Justification → Generate Expr
  | .missing => broken .missingJustification
  | .apply rule args loc => application rule args loc
  | .block b => block b

/-- The arrow that a block becomes. -/
def block : Block → Generate Expr
  | .assume hyps p _ => do
    pushScope
    let hs ← hypotheses hyps
    let (body, ret) ← proof false p
    let value ← closeHypotheses ret body hs
    popScope
    return value
  | .generalize vars p loc => do
    pushScope
    bindNames vars
    let (body, ret) ← proof false p
    unbindNames vars.length
    let value ← closeVariables ret body loc vars
    popScope
    return value

end

/-- The hypotheses and the proof of a theorem that takes them as parameters. -/
def sequent? (t : Theorem) : Option (List Claim × Proof) :=
  match t.claim.formula with
  | .impl .. => none
  | .neg .. => none
  | _ =>
    match t.proof.steps with
    | .last (.block (.assume hyps p _)) => some (hyps, p)
    | _ => none

/-- The arrow of a theorem, and whether it takes no parameters. -/
def theoremArrow (t : Theorem) : Generate (Expr × Bool) :=
  match sequent? t with
  | some (hyps, p) => do
    let hs ← hypotheses hyps
    let claim ← typeOf t.claim.formula
    let (body, _) ← proof true p
    let arrow ← closeHypotheses (some claim) body hs
    return (arrow, false)
  | none => do
    enter
    let claim ← typeOf t.claim.formula
    let (body, _) ← proof true t.proof
    let tparams ← exit
    return (.arrow tparams [] (some claim) body (some t.loc), true)

/-- Fails if the name of a theorem is taken. -/
def checkTheoremName (name : String) (loc : Location) : Generate Unit := do
  if (Library.findRule? name).isSome then fail loc (.namedLikePrimitive name)
  else
    match Scope.find? (← get).declared name with
    | some first => fail loc (.theoremAlreadyDeclared name first)
    | none => return ()

/-- The declaration of a theorem. -/
def theoremDecl (t : Theorem) : Generate Stmt := do
  let name? := t.claim.name.map escapeIdent
  match name? with
  | some name => checkTheoremName name t.claim.loc
  | none => pure ()
  pushScope
  let (arrow, isThunk) ← theoremArrow t
  popScope
  match name? with
  | none => return .expr (.paren arrow) (some t.loc)
  | some name =>
    declare name t.claim.loc
    if isThunk then modify fun s => { s with thunks := s.thunks ++ [name] }
    return .const name none arrow false false none (some t.loc)

/-- The declarations of theorems in order. No frame stays open after one. -/
def theoremDecls : List Theorem → Generate (List Stmt)
  | [] => return []
  | t :: rest => do
    let decl ← theoremDecl t
    let depth := (← get).frames.depth
    if depth ≠ 0 then broken (.framesLeftOpen depth)
    else
      let more ← theoremDecls rest
      return decl :: more

end Generate

/-- The declarations of a document's theorems with the final state, or why there are none. The
state comes in both cases. -/
def Document.generate (d : Document) (systemF : Bool) :
    Except Generate.Failure (List Stmt) × Generate.State :=
  let names := d.theorems.filterMap fun t => t.claim.name.map escapeIdent
  (((Generate.theoremDecls d.theorems).run ⟨systemF, names⟩).run).run .empty

end ProofScript
