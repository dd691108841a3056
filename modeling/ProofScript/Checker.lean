import ProofScript.Diagnostic
import ProofScript.Ty.Env
import ProofScript.Ty.Unify

/-!
# Checking programs

A checker for the programs that proofs are compiled to: arrows, calls and the types of the library.
A trusted declaration is taken at its signature. An error is recorded at its node, and checking goes
on with the type that fits everywhere. Nodes are numbered in the order in which they are printed.
-/

namespace ProofScript

open Program

namespace Program

mutual

/-- The number of nodes of an expression whose extent is recorded. -/
def Expr.count : Expr → Nat
  | .call fn _ args _ => fn.count + Expr.countAll args + 1
  | .arrow _ _ _ body _ => body.count + 1
  | .array elems => Expr.countAll elems + 1
  | .object props => Property.countAll props + 1
  | .index e _ => e.count + 1
  | .prop e _ => e.count + 1
  | .cond test yes no => test.count + yes.count + no.count + 1
  | .cast e _ => e.count + 1
  | .paren e => e.count + 1
  | _ => 1

/-- The number of nodes of expressions. -/
def Expr.countAll : List Expr → Nat
  | [] => 0
  | e :: rest => e.count + Expr.countAll rest

/-- The number of nodes of properties. -/
def Property.countAll : List Property → Nat
  | [] => 0
  | .short _ :: rest => Property.countAll rest
  | .assign _ e :: rest => e.count + Property.countAll rest

/-- The number of nodes of an arrow's body. -/
def Body.count : Body → Nat
  | .missing => 0
  | .expr e => e.count
  | .block stmts => Stmt.countAll stmts

/-- The number of nodes of statements. -/
def Stmt.countAll : List Stmt → Nat
  | [] => 0
  | s :: rest => s.count + Stmt.countAll rest

/-- The number of nodes of a statement. -/
def Stmt.count : Stmt → Nat
  | .const _ _ value declare _ _ _ => if declare then 1 else value.count + 1
  | .expr e _ => e.count + 1
  | .ret e => e.count + 1
  | _ => 1

end

end Program

/-- What the checker objects to. -/
inductive Objection where
  | unknownName (name : String)
  | notGeneric (name : String)
  | typeArgCount (name : String) (arity : Nat)
  | notAssignable (e : AssignError)
  | argumentType (arg param : Ty)
  | argument (e : AssignError)
  | notCallable (t : Option Ty)
  | mustReturn
  | redeclared (name : String)
  | argCount (want got : Nat)
  | callTypeArgCount (want got : Nat)
  | unsupportedAlias (name : String)
  | unsupportedStatement
  | unsupportedExpr (shown : String)
  | unsupportedType (shown : String)
  | unsupportedArrow (params : Nat)
  | unsupportedFuncType (params : Nat)
  | unsupportedBody
deriving Repr, Inhabited

namespace Objection

/-- The code of an objection. -/
def code : Objection → String
  | unknownName _ => "TS2304"
  | notGeneric _ => "TS2315"
  | typeArgCount _ _ => "TS2314"
  | notAssignable _ => "TS2322"
  | argumentType _ _ => "TS2345"
  | argument _ => "TS2345"
  | notCallable _ => "TS2349"
  | mustReturn => "TS2355"
  | redeclared _ => "TS2451"
  | argCount _ _ => "TS2554"
  | callTypeArgCount _ _ => "TS2558"
  | _ => "ND1000"

/-- What is shown of an objection. -/
def text : Objection → String
  | unknownName name => "Cannot find name '" ++ name ++ "'."
  | notGeneric name => "Type '" ++ name ++ "' is not generic."
  | typeArgCount name arity =>
    "Generic type '" ++ name ++ "' requires " ++ toString arity ++ " type argument(s)."
  | notAssignable e => e.message.text
  | argumentType arg param =>
    "Argument of type '" ++ arg.text ++ "' is not assignable to parameter of type '" ++ param.text
      ++ "'."
  | argument e => e.message.text
  | notCallable none => "This expression is not callable."
  | notCallable (some t) =>
    "This expression is not callable.\n  Type '" ++ t.text ++ "' has no call signatures."
  | mustReturn =>
    "A function whose declared type is neither 'undefined', 'void', nor 'any' must return a value."
  | redeclared name => "Cannot redeclare block-scoped variable '" ++ name ++ "'."
  | argCount want got => "Expected " ++ toString want ++ " arguments, but got " ++ toString got ++ "."
  | callTypeArgCount want got =>
    "Expected " ++ toString want ++ " type arguments, but got " ++ toString got ++ "."
  | unsupportedAlias name => "Unsupported type alias '" ++ name ++ "'."
  | unsupportedStatement => "Unsupported statement."
  | unsupportedExpr shown => "Unsupported expression '" ++ shown ++ "'."
  | unsupportedType shown => "Unsupported type '" ++ shown ++ "'."
  | unsupportedArrow n => "Unsupported arrow with " ++ toString n ++ " parameters."
  | unsupportedFuncType n => "Unsupported function type with " ++ toString n ++ " parameters."
  | unsupportedBody => "Unsupported arrow body."

/-- The message of an objection. -/
def message : Objection → Wording
  | notAssignable e => e.message
  | argument e => e.message
  | o => ↑o.text

end Objection

namespace Checker

/-- A node: its number in printing order, and the place it stems from. -/
structure Node where
  number : Nat
  origin : Option Location
deriving DecidableEq, Repr, Inhabited

/-- An objection to a node. -/
structure Finding where
  node : Node
  objection : Objection
deriving Repr, Inhabited

/-- What the checker keeps: how deep comparisons of types may go, bindings, the type aliases declared so
far, and its findings. -/
structure State where
  depth : Nat
  unifier : Unifier
  aliases : List String
  findings : List Finding
deriving Repr, Inhabited

/-- What is visible at a point: values, type parameters, and the names declared in this block. -/
structure Scope where
  values : TyEnv
  types : List (String × Ty)
  declared : List String
deriving Repr, Inhabited

/-- The scope inside a function or block, with more type parameters. -/
def Scope.extend (sc : Scope) (types : List (String × Ty)) : Scope :=
  ⟨sc.values.extend, types.reverse ++ sc.types, []⟩

/-- The scope after a declaration. -/
def Scope.declare (sc : Scope) (name : String) (t : Ty) : Scope :=
  { sc with values := sc.values.add name t, declared := name :: sc.declared }

/-- Why checking stops: the tree lacks a node, or a comparison of types has to go deeper. -/
inductive Stop where
  | gap (g : Gap)
  | deeper
deriving DecidableEq, Repr, Inhabited

end Checker

/-- A step of checking. -/
abbrev Checker := ExceptT Checker.Stop (StateM Checker.State)

namespace Checker

/-- Records an objection; the type that fits everywhere goes on. -/
def object (node : Node) (o : Objection) : Checker Ty := do
  modify fun s => { s with findings := s.findings ++ [⟨node, o⟩] }
  return .any

/-- The next number for a variable or a constant. -/
def fresh : Checker TyVar := do
  let s ← get
  let (v, u) := s.unifier.fresh
  set { s with unifier := u }
  return v

/-- A type with all bindings applied. -/
def resolve (t : Ty) : Checker Ty := do return (← get).unifier.resolve t

/-- Checks that one type may stand where another is expected. -/
def assign (src dst : Ty) : Checker (Except AssignError Unit) := do
  let s ← get
  match s.unifier.assign? s.depth src dst with
  | none => throw .deeper
  | some (result, u) =>
    set { s with unifier := u }
    return result

/-- The type aliases that the checker knows, with the number of their arguments. -/
def aliasArity? : String → Option Nat
  | "True" => some 0
  | "False" => some 0
  | "And" => some 2
  | "Or" => some 2
  | "Impl" => some 2
  | "Not" => some 1
  | "Apply" => some 2
  | _ => none

/-- The type of an alias at its arguments. -/
def aliasType (name : String) (args : List Ty) : Ty :=
  match name, args with
  | "True", _ => .rigid "True" 0
  | "False", _ => .never
  | "Impl", [a, b] => .fn a b
  | "Not", [a] => .fn a .never
  | _, _ => .con name args

mutual

/-- The type of an annotation. Objections go to the node that carries it. -/
def toType (node : Node) (types : List (String × Ty)) : TypeExpr → Checker Ty
  | .ref name args =>
    match types.lookup name with
    | some t => if args.isEmpty then return t else object node (.notGeneric name)
    | none => do
      match aliasArity? name with
      | none => object node (.unknownName name)
      | some arity =>
        if !(name ∈ (← get).aliases) then object node (.unknownName name)
        else if args.length ≠ arity then object node (.typeArgCount name arity)
        else
          let ts ← toTypes node types args
          return aliasType name ts
  | .func tparams params ret => do
    if 1 < params.length then object node (.unsupportedFuncType params.length)
    else
      let vars ← tparams.mapM fun name => do return (name, ← fresh)
      let types := (vars.map fun (name, v) => (name, Ty.var v)).reverse ++ types
      let args ← toParamTypes node types params
      let t ← toType node types ret
      let f := Ty.func args.head? t
      return if vars.isEmpty then f else .poly vars f
  | .keyword "never" => return .never
  | .keyword "any" => return .any
  | t =>
    match t.print with
    | .ok shown => object node (.unsupportedType shown)
    | .error g => throw (.gap g)

/-- The types of annotations, in order. -/
def toTypes (node : Node) (types : List (String × Ty)) : List TypeExpr → Checker (List Ty)
  | [] => return []
  | t :: rest => do
    let ty ← toType node types t
    let more ← toTypes node types rest
    return ty :: more

/-- The types of parameters, in order. -/
def toParamTypes (node : Node) (types : List (String × Ty)) : List Param → Checker (List Ty)
  | [] => return []
  | (_, t) :: rest => do
    let ty ← toType node types t
    let more ← toParamTypes node types rest
    return ty :: more

end

/-- Objects if a type does not fit the type expected of its node. -/
def expectType (node : Node) (t expected : Ty) : Checker Unit := do
  match ← assign t expected with
  | .ok () => return ()
  | .error e =>
    let _ ← object node (.notAssignable e)

/-- Instantiates a type until it is not polymorphic, at most `n` times. -/
def instantiateUpTo : Nat → Ty → Checker Ty
  | 0, t => return t
  | n + 1, t =>
    match t with
    | .poly params body => do
      let s ← get
      let (t, u) := s.unifier.instantiate params body
      set { s with unifier := u }
      instantiateUpTo n t
    | t => return t

/-- The type of a function at explicit type arguments, if there are any. -/
def explicitInstance (node : Node) (types : List (String × Ty)) (fnType : Ty)
    (targs : List TypeExpr) : Checker Ty := do
  match targs, fnType with
  | [], _ => return fnType
  | _, .any => return fnType
  | _, .poly params body =>
    if params.length = targs.length then
      let ts ← toTypes node types targs
      return Ty.instantiateWith params body ts
    else object node (.callTypeArgCount params.length targs.length)
  | _, _ => object node (.callTypeArgCount 0 targs.length)

/-- Checks the arguments of a call against the parameter of its function. `argNode` is the node of
the first argument. -/
def callResult (node argNode : Node) (param : Option Ty) (ret : Ty) (args : List Ty) :
    Checker Ty := do
  match param, args with
  | none, [] => resolve ret
  | some p, [a] =>
    match ← assign a p with
    | .ok () => resolve ret
    | .error (.mismatch _ _) =>
      let shownArg ← resolve a
      let shownParam ← resolve p
      let _ ← object argNode (.argumentType shownArg shownParam)
      resolve ret
    | .error e =>
      let _ ← object argNode (.argument e)
      resolve ret
  | p, args => object node (.argCount (if p.isSome then 1 else 0) args.length)

/-- Fresh types for the parameter, if there are arguments, and the result of a call of something
whose type is not known yet. -/
def freshSignature (args : Nat) : Checker (Option Ty × Ty) := do
  let param ← if args = 0 then pure none else do
    let v ← fresh
    pure (some (Ty.var v))
  let ret ← fresh
  return (param, .var ret)

mutual

/-- The type of an expression, whose node has number `k`. -/
def infer (sc : Scope) (k : Nat) : Expr → Checker Ty
  | .ident name o =>
    match sc.values.find? name with
    | some t => return t
    | none => object ⟨k, o⟩ (.unknownName name)
  | .paren e => infer sc (k + 1) e
  | .arrow tparams params ret b o => do
    let node : Node := ⟨k, o⟩
    let vars ← tparams.mapM fun name => do
      let v ← fresh
      let id ← fresh
      return (name, v, id)
    let inner := sc.extend (vars.map fun (name, _, id) => (name, .rigid name id))
    if 1 < params.length then object node (.unsupportedArrow params.length)
    else
      let args ← toParamTypes node inner.types params
      let inner := (params.zip args).foldl (fun sc (p, t) => sc.declare p.1 t) inner
      let result ← match ret with
        | some t => do
          let expected ← toType node inner.types t
          let _ ← body inner node (some expected) (k + 1) b
          pure expected
        | none => body inner node none (k + 1) b
      let f ← resolve (Ty.func args.head? result)
      return if vars.isEmpty then f
        else .poly (vars.map fun (name, v, _) => (name, v))
          (f.abstract (vars.map fun (name, v, id) => ((name, id), v)))
  | .call fn targs args o => do
    let node : Node := ⟨k, o⟩
    let first := k + 1 + fn.count
    let argNode : Node := ⟨first, (args.head?).bind Expr.origin?⟩
    let fnType ← resolve (← infer sc (k + 1) fn)
    let fnType ← explicitInstance node sc.types fnType targs
    let fnType ← instantiateUpTo fnType.size fnType
    match fnType with
    | .any =>
      let _ ← inferAll sc first args
      return .any
    | .var v =>
      let (param, ret) ← freshSignature args.length
      match ← assign (.var v) (.func param ret) with
      | .error _ => object node (.notCallable none)
      | .ok () =>
        let ts ← inferAll sc first args
        callResult node argNode param ret ts
    | .thunk ret =>
      let ts ← inferAll sc first args
      callResult node argNode none ret ts
    | .fn param ret =>
      let ts ← inferAll sc first args
      callResult node argNode (some param) ret ts
    | t => object node (.notCallable (some t))
  | e =>
    match e.print with
    | .ok shown => object ⟨k, e.origin?⟩ (.unsupportedExpr shown)
    | .error g => throw (.gap g)

/-- The types of expressions, in order; the first has number `k`. -/
def inferAll (sc : Scope) (k : Nat) : List Expr → Checker (List Ty)
  | [] => return []
  | e :: rest => do
    let t ← infer sc k e
    let more ← inferAll sc (k + e.count) rest
    return t :: more

/-- Checks a body against the expected type, or infers its type. `arrow` is the node of the arrow,
and the body's first node has number `k`. -/
def body (sc : Scope) (arrow : Node) (expected : Option Ty) (k : Nat) : Body → Checker Ty
  | .missing => object arrow .unsupportedBody
  | .block stmts => blockBody (sc.extend []) arrow expected k stmts
  | .expr e => do
    let t ← infer sc k e
    match expected with
    | none => return t
    | some want =>
      expectType ⟨k, e.origin?⟩ t want
      return want

/-- Checks the statements of a body up to the first that returns. -/
def blockBody (sc : Scope) (arrow : Node) (expected : Option Ty) (k : Nat) :
    List Stmt → Checker Ty
  | [] =>
    match expected with
    | none => return .con "void" []
    | some _ => object arrow .mustReturn
  | .ret e :: _ => do
    let t ← infer sc (k + 1) e
    match expected with
    | none => return t
    | some want =>
      expectType ⟨k + 1, e.origin?⟩ t want
      return want
  | s :: rest => do
    let inner ← stmt sc k s
    blockBody inner arrow expected (k + s.count) rest

/-- Checks a statement with number `k` and returns the scope after it. -/
def stmt (sc : Scope) (k : Nat) : Stmt → Checker Scope
  | .const name type value declare trusted signature o => do
    let node : Node := ⟨k, o⟩
    let t ← match trusted, signature with
      | true, some s => toType node sc.types s
      | _, _ =>
        if declare then toType node sc.types (type.getD .missing)
        else do
          match type with
          | some annotated =>
            let want ← toType node sc.types annotated
            let found ← infer sc (k + 1) value
            expectType ⟨k + 1, value.origin?⟩ found want
            pure want
          | none =>
            let found ← infer sc (k + 1) value
            resolve found
    if name ∈ sc.declared then
      let _ ← object node (.redeclared name)
    return sc.declare name t
  | .expr e _ => do
    let _ ← infer sc (k + 1) e
    return sc
  | s => do
    let _ ← object ⟨k, s.origin?⟩ .unsupportedStatement
    return sc

end

/-- Checks the statements of a file, the first of which has number `k`. -/
def file (sc : Scope) (k : Nat) : List Stmt → Checker Unit
  | [] => return ()
  | .typeAlias name _ _ :: rest => do
    match aliasArity? name with
    | none =>
      let _ ← object ⟨k, none⟩ (.unsupportedAlias name)
    | some _ => modify fun s => { s with aliases := name :: s.aliases }
    file sc (k + 1) rest
  | s :: rest => do
    let after ← stmt sc k s
    file after (k + s.count) rest

/-- Nothing is checked yet. -/
def State.empty (depth : Nat) : State := ⟨depth, .empty, [], []⟩

/-- The scope at the start of a file. -/
def Scope.empty : Scope := ⟨.empty, [], []⟩

/-- Checks a file from the start, with comparisons of types within a depth. -/
def outcome (depth : Nat) (stmts : List Stmt) : Except Stop Unit × State :=
  ((file .empty 0 stmts).run).run (.empty depth)

/-- The objections to a file, in the order in which they are raised. There is no answer if a comparison
of types has to go deeper. -/
def findings? (depth : Nat) (stmts : List Stmt) : Option (Except Gap (List Finding)) :=
  match outcome depth stmts with
  | (.ok (), s) => some (.ok s.findings)
  | (.error (.gap g), _) => some (.error g)
  | (.error .deeper, _) => none

/-- The diagnostic of a finding. It stems from where its node does, or else the innermost node
around it. -/
def Finding.diagnostic (p : Printed) (f : Finding) : Diagnostic :=
  let offset : Int := (p.spans[f.node.number]?).elim (-1) fun s => s.start.offset
  let d := Diagnostic.atOffset p offset f.objection.code f.objection.message
  { d with origin := f.node.origin.or d.origin }

end Checker

namespace Program.Printed

/-- The diagnostics of a program, if its comparisons of types end within a depth. -/
def check? (p : Printed) (depth : Nat) : Option (Except Gap (List Diagnostic)) :=
  (Checker.findings? depth p.stmts).map fun r => r.map fun fs => fs.map (Checker.Finding.diagnostic p)

/-- The diagnostics of a program, however long it takes to find them. -/
def check (p : Printed) : Except Gap (List Diagnostic) := settled p.check?

end Program.Printed

end ProofScript
