import ProofScript.Proofs.Checking.Weakening

/-!
# The course of a check

A run of the checker that also writes down the points it comes to: after each of its steps, within its
comparisons, and where it returns from an arrow. What is written down does not bear on the run.
-/

namespace ProofScript

open Program Stateful

namespace Checker

/-- The types of the identifiers in scope. -/
def Scope.identifiers (sc : Scope) : List Ty := sc.values.flatMap fun scope => scope.map Prod.snd

/-- The types in scope, those that stand for type parameters included. -/
def Scope.known (sc : Scope) : List Ty := sc.identifiers ++ sc.types.map Prod.snd

/-- A point of a check: the bindings, the scope, and the types that are being worked with. -/
structure Point where
  unifier : Unifier
  scope : Scope
  types : List Ty

/-- The types at hand at a point. -/
def Point.known (p : Point) : List Ty := p.scope.known ++ p.types

/-- What happens in the course of a check. -/
inductive Event where
  /-- A step has been taken. -/
  | reaches (p : Point)
  /-- Two types are about to be compared. -/
  | compares (u : Unifier) (sc : Scope) (src dst : Ty)
  /-- An arrow has been checked, which was begun at `opened`. Its type is `f` before the constants that
  stand for its type parameters become bound variables. -/
  | returns (p : Point) (opened : Unifier) (gs : List Generic) (f : Ty)

/-- The points that an event comes to. A comparison comes to points within every depth. -/
inductive Event.Comes : Event → Point → Prop
  | reaches {p : Point} : Comes (.reaches p) p
  | compares {n : Nat} {u w : Unifier} {sc : Scope} {src dst : Ty} {ts : List Ty} :
    Unify.Visits n u src dst w ts → Comes (.compares u sc src dst) ⟨w, sc, ts⟩
  | returns {p : Point} {opened : Unifier} {gs : List Generic} {f : Ty} :
    Comes (.returns p opened gs f) p

/-- The state of the checker, and what has happened so far. -/
structure Trace where
  state : State
  events : List Event

/-- A step of checking that writes down what happens. -/
abbrev Recorder := ExceptT Stop (StateM Trace)

namespace Recorder

variable {α β : Type}

/-- Takes a step and writes down nothing. -/
def lift (m : Checker α) : Recorder α := fun x =>
  ((m x.state).1, { x with state := (m x.state).2 })

/-- Writes down what happens. -/
def note (e : Unifier → Event) : Recorder Unit :=
  modify fun x => { x with events := x.events ++ [e x.state.unifier] }

/-- Takes a step and writes down the point that it reaches, with the types that it found. -/
def step (sc : Scope) (found : α → List Ty) (m : Checker α) : Recorder α := do
  let a ← lift m
  note fun u => .reaches ⟨u, sc, found a⟩
  return a

/-- Writes down that two types are compared. -/
def comparing (sc : Scope) (src dst : Ty) : Recorder Unit := note fun u => .compares u sc src dst

def expectType (sc : Scope) (node : Node) (t expected : Ty) : Recorder Unit := do
  comparing sc t expected
  step sc (fun _ => []) (Checker.expectType node t expected)

def instantiateUpTo (sc : Scope) : Nat → Ty → Recorder Ty
  | 0, t => return t
  | n + 1, t => do
    let t ← step sc (fun t => [t]) (Checker.instantiateUpTo 1 t)
    instantiateUpTo sc n t

def explicitInstance (sc : Scope) (node : Node) (fnType : Ty) (targs : List TypeExpr) :
    Recorder Ty := do
  match targs, fnType with
  | [], _ => return fnType
  | _, .any => return fnType
  | _, .poly params body =>
    if params.length = targs.length then
      let ts ← step sc (fun ts => fnType :: ts) (toTypes node sc.types targs)
      step sc (fun t => [t]) (pure (Ty.instantiateWith params body ts))
    else step sc (fun t => [t]) (object node (.callTypeArgCount params.length targs.length))
  | _, _ => step sc (fun t => [t]) (object node (.callTypeArgCount 0 targs.length))

def callResult (sc : Scope) (node argNode : Node) (param : Option Ty) (ret : Ty) (args : List Ty) :
    Recorder Ty := do
  match param, args with
  | some p, [a] => comparing sc a p
  | _, _ => pure ()
  step sc (fun t => [t]) (Checker.callResult node argNode param ret args)

/-- What is left of a call once the type of its function is known. -/
def applied (sc : Scope) (node argNode : Node) (count : Nat) (args : Recorder (List Ty))
    (fnType : Ty) : Recorder Ty := do
  match fnType with
  | .any =>
    let _ ← args
    return .any
  | .var v =>
    let (param, ret) ← step sc (fun (param, ret) => param.toList ++ [ret]) (freshSignature count)
    comparing sc (.var v) (.func param ret)
    match ← step sc (fun _ => []) (assign (.var v) (.func param ret)) with
    | .error _ => step sc (fun t => [t]) (object node (.notCallable none))
    | .ok () =>
      let ts ← args
      callResult sc node argNode param ret ts
  | .thunk ret =>
    let ts ← args
    callResult sc node argNode none ret ts
  | .fn param ret =>
    let ts ← args
    callResult sc node argNode (some param) ret ts
  | t => step sc (fun t => [t]) (object node (.notCallable (some t)))

/-- New numbers for type parameters. -/
def generics (names : List String) : Checker (List Generic) :=
  names.mapM fun name => do
    let v ← fresh
    let id ← fresh
    return (name, v, id)

/-- The type of an arrow's function in the scope of its type parameters. -/
def within (sc : Scope) (node : Node) (params : List Param) (ret : Option TypeExpr)
    (body : Scope → Option Ty → Recorder Ty) : Recorder Ty :=
  if 1 < params.length then
    step sc (fun t => [t]) (object node (.unsupportedArrow params.length))
  else do
    let args ← step sc id (toParamTypes node sc.types params)
    let inner := sc.declareAll (params.zip args)
    let result ← match ret with
      | some t => do
        let expected ← step inner (fun t => [t]) (toType node inner.types t)
        let _ ← body inner (some expected)
        pure expected
      | none => body inner none
    step inner (fun t => [t]) (resolve (.func args.head? result))

/-- The numbers of an arrow's type parameters, and the type of its function. -/
def function (sc : Scope) (node : Node) (tparams : List String) (params : List Param)
    (ret : Option TypeExpr) (body : Scope → Option Ty → Recorder Ty) :
    Recorder (List Generic × Ty) := do
  let gs ← lift (generics tparams)
  let f ← within (sc.extend (gs.map fun g => (g.1, .rigid g.1 g.2.2))) node params ret body
  return (gs, f)

/-- The type of an arrow. -/
def arrow (sc : Scope) (node : Node) (tparams : List String) (params : List Param)
    (ret : Option TypeExpr) (body : Scope → Option Ty → Recorder Ty) : Recorder Ty := do
  let opened := (← get).state.unifier
  let (gs, f) ← function sc node tparams params ret body
  let t := if 1 < params.length then .any else generalized gs f
  note fun u => .returns ⟨u, sc, [t]⟩ opened gs f
  return t

/-- What a body does with the value that it returns. -/
def returned (sc : Scope) (node : Node) (expected : Option Ty) (t : Ty) : Recorder Ty := do
  match expected with
  | none => return t
  | some want =>
    expectType sc node t want
    return want

/-- The type of a constant. -/
def constType (sc : Scope) (node valueNode : Node) (type : Option TypeExpr) (value : Recorder Ty)
    (declare trusted : Bool) (signature : Option TypeExpr) : Recorder Ty := do
  match trusted, signature with
  | true, some s => step sc (fun t => [t]) (toType node sc.types s)
  | _, _ =>
    if declare then step sc (fun t => [t]) (toType node sc.types (type.getD .missing))
    else
      match type with
      | some annotated =>
        let want ← step sc (fun t => [t]) (toType node sc.types annotated)
        let found ← value
        expectType sc valueNode found want
        pure want
      | none =>
        let found ← value
        step sc (fun t => [t]) (resolve found)

mutual

def infer (sc : Scope) (k : Nat) : Expr → Recorder Ty
  | .paren e => infer sc (k + 1) e
  | .arrow tparams params ret b o =>
    arrow sc ⟨k, o⟩ tparams params ret fun inner expected => body inner ⟨k, o⟩ expected (k + 1) b
  | .call fn targs args o => do
    let argNode : Node := ⟨k + 1 + fn.count, args.head?.bind Expr.origin?⟩
    let t ← infer sc (k + 1) fn
    let t ← step sc (fun t => [t]) (resolve t)
    let t ← explicitInstance sc ⟨k, o⟩ t targs
    let t ← instantiateUpTo sc t.size t
    applied sc ⟨k, o⟩ argNode args.length (inferAll sc argNode.number args) t
  | e => step sc (fun t => [t]) (Checker.infer sc k e)

def inferAll (sc : Scope) (k : Nat) : List Expr → Recorder (List Ty)
  | [] => return []
  | e :: rest => do
    let t ← infer sc k e
    let more ← inferAll sc (k + e.count) rest
    return t :: more

def body (sc : Scope) (arrow : Node) (expected : Option Ty) (k : Nat) : Body → Recorder Ty
  | .missing => step sc (fun t => [t]) (Checker.body sc arrow expected k .missing)
  | .block stmts => blockBody (sc.extend []) arrow expected k stmts
  | .expr e => do
    let t ← infer sc k e
    returned sc ⟨k, e.origin?⟩ expected t

def blockBody (sc : Scope) (arrow : Node) (expected : Option Ty) (k : Nat) :
    List Stmt → Recorder Ty
  | [] => step sc (fun t => [t]) (Checker.blockBody sc arrow expected k [])
  | .ret e :: _ => do
    let t ← infer sc (k + 1) e
    returned sc ⟨k + 1, e.origin?⟩ expected t
  | s :: rest => do
    let inner ← stmt sc k s
    blockBody inner arrow expected (k + s.count) rest

def stmt (sc : Scope) (k : Nat) : Stmt → Recorder Scope
  | .const name type value declare trusted signature o => do
    let t ← constType sc ⟨k, o⟩ ⟨k + 1, value.origin?⟩ type (infer sc (k + 1) value) declare trusted
      signature
    let after ← lift (declared sc ⟨k, o⟩ name t)
    note fun u => .reaches ⟨u, after, []⟩
    return after
  | .expr e _ => do
    let _ ← infer sc (k + 1) e
    return sc
  | s => step sc (fun _ => []) (Checker.stmt sc k s)

end

def file (sc : Scope) (k : Nat) : List Stmt → Recorder Unit
  | [] => return ()
  | .typeAlias name tparams t :: rest => do
    step sc (fun _ => []) (Checker.file sc k [.typeAlias name tparams t])
    file sc (k + 1) rest
  | s :: rest => do
    let after ← stmt sc k s
    file after (k + s.count) rest

end Recorder

/-- A file is checked from the start, with comparisons of types within a depth, and what happens is
written down. -/
def recorded (depth : Nat) (stmts : List Stmt) : Except Stop Unit × Trace :=
  ((Recorder.file .empty 0 stmts).run).run ⟨.empty depth, []⟩

/-- What happens in the check of a file, in order. Where a comparison has to go deeper, that is the last
thing that happens. -/
def course (depth : Nat) (stmts : List Stmt) : List Event := (recorded depth stmts).2.events

/-! ## Recorded runs take the same steps -/

namespace Recorder

variable {α β : Type}

/-- The recorded step comes to the same result and the same state. -/
def Follows (r : Recorder α) (m : Checker α) : Prop :=
  ∀ x, (r x).1 = (m x.state).1 ∧ (r x).2.state = (m x.state).2

theorem lift_of_eq {m : Checker α} {x : Trace} {r : Except Stop α} {s : State}
    (h : m x.state = (r, s)) : lift m x = (r, { x with state := s }) := by
  have hlift : lift m x = ((m x.state).1, { x with state := (m x.state).2 }) := rfl
  rw [hlift, h]

theorem Follows.eq_ok {r : Recorder α} {m : Checker α} {a : α} {x y : Trace} (h : Follows r m)
    (hrun : r x = (.ok a, y)) : m x.state = (.ok a, y.state) := by
  obtain ⟨hresult, hstate⟩ := h x
  rw [hrun] at hresult hstate
  exact Prod.ext hresult.symm hstate.symm

theorem follows_lift (m : Checker α) : Follows (lift m) m := fun _ => ⟨rfl, rfl⟩

theorem follows_pure (a : α) : Follows (pure a) (pure a) := fun _ => ⟨rfl, rfl⟩

theorem Follows.bind {r : Recorder α} {m : Checker α} {f : α → Recorder β} {g : α → Checker β}
    (h : Follows r m) (hf : ∀ a, Follows (f a) (g a)) : Follows (r >>= f) (m >>= g) := by
  intro x
  obtain ⟨hresult, hstate⟩ := h x
  change (ExceptT.bindCont f (r x).1 (r x).2).1 = (ExceptT.bindCont g (m x.state).1 (m x.state).2).1 ∧
    (ExceptT.bindCont f (r x).1 (r x).2).2.state = (ExceptT.bindCont g (m x.state).1 (m x.state).2).2
  rw [← hresult, ← hstate]
  generalize r x = y
  obtain ⟨result, y⟩ := y
  cases result with
  | error e => exact ⟨rfl, rfl⟩
  | ok a => exact hf a y

/-- What is written down may be left out. -/
theorem Follows.noted {r : Recorder α} {m : Checker α} {e : Unifier → Event} (h : Follows r m) :
    Follows (note e >>= fun _ => r) m := fun _ => h _

/-- What a run has written down so far does not bear on it. -/
theorem follows_get {f : Trace → Recorder α} {m : Checker α} (h : ∀ x, Follows (f x) m) :
    Follows (get >>= f) m := fun x => h x x

theorem follows_step (sc : Scope) (found : α → List Ty) (m : Checker α) :
    Follows (step sc found m) m := by
  have hstep : Follows (step sc found m) (m >>= pure) :=
    (follows_lift m).bind fun a => (follows_pure a).noted
  rwa [bind_pure] at hstep

theorem follows_expectType (sc : Scope) (node : Node) (t expected : Ty) :
    Follows (expectType sc node t expected) (Checker.expectType node t expected) :=
  (follows_step _ _ _).noted

/-- Instances are taken one after the other. -/
theorem instantiateUpTo_succ (n : Nat) (t : Ty) :
    Checker.instantiateUpTo (n + 1) t =
      Checker.instantiateUpTo 1 t >>= Checker.instantiateUpTo n := by
  have hkeep : ∀ t : Ty, (∀ ps b, t ≠ .poly ps b) → Checker.instantiateUpTo n t = pure t := by
    intro t ht
    cases n with
    | zero => rfl
    | succ n =>
      cases t with
      | poly ps b => exact absurd rfl (ht ps b)
      | _ => rfl
  cases t with
  | poly ps b => rfl
  | _ => exact (hkeep _ (by simp)).symm

theorem follows_instantiateUpTo (sc : Scope) (n : Nat) (t : Ty) :
    Follows (instantiateUpTo sc n t) (Checker.instantiateUpTo n t) := by
  induction n generalizing t with
  | zero => exact follows_pure t
  | succ n ih =>
    rw [instantiateUpTo_succ]
    exact (follows_step _ _ _).bind ih

theorem follows_explicitInstance (sc : Scope) (node : Node) (fnType : Ty) (targs : List TypeExpr) :
    Follows (explicitInstance sc node fnType targs)
      (Checker.explicitInstance node sc.types fnType targs) := by
  cases targs with
  | nil => exact follows_pure _
  | cons targ rest =>
    cases fnType with
    | any => exact follows_pure _
    | poly params body =>
      unfold explicitInstance Checker.explicitInstance
      dsimp only
      split
      · exact (follows_step _ _ _).bind fun ts => follows_step _ _ _
      · exact follows_step _ _ _
    | _ => exact follows_step _ _ _

theorem follows_callResult (sc : Scope) (node argNode : Node) (param : Option Ty) (ret : Ty)
    (args : List Ty) :
    Follows (callResult sc node argNode param ret args)
      (Checker.callResult node argNode param ret args) := by
  unfold callResult
  split
  · exact (follows_step _ _ _).noted
  · exact follows_step _ _ _

theorem follows_applied {sc : Scope} {node argNode : Node} {args : List Expr}
    {r : Recorder (List Ty)} (h : Follows r (Checker.inferAll sc argNode.number args)) (fnType : Ty) :
    Follows (applied sc node argNode args.length r fnType)
      (Checker.applied sc node argNode args fnType) := by
  have hresult : ∀ param ret, Follows (r >>= fun ts => callResult sc node argNode param ret ts)
      (Checker.inferAll sc argNode.number args >>= fun ts =>
        Checker.callResult node argNode param ret ts) :=
    fun param ret => h.bind fun ts => follows_callResult _ _ _ _ _ _
  cases fnType with
  | any => exact h.bind fun _ => follows_pure _
  | var v =>
    refine (follows_step _ _ _).bind fun signature => Follows.noted ?_
    refine (follows_step _ _ _).bind fun result => ?_
    cases result with
    | error e => exact follows_step _ _ _
    | ok => exact hresult _ _
  | thunk ret => exact hresult _ _
  | fn param ret => exact hresult _ _
  | _ => exact follows_step _ _ _

theorem follows_returned (sc : Scope) (node : Node) (expected : Option Ty) (t : Ty) :
    Follows (returned sc node expected t) (Checker.returned node expected t) := by
  cases expected with
  | none => exact follows_pure t
  | some want => exact (follows_expectType _ _ _ _).bind fun _ => follows_pure want

theorem object_bind_any (node : Node) (o : Objection) :
    (object node o >>= fun _ => pure .any : Checker Ty) = object node o := rfl

theorem follows_arrow {sc : Scope} {k : Nat} {tparams : List String} {params : List Param}
    {ret : Option TypeExpr} {b : Body} {o : Option Location}
    {r : Scope → Option Ty → Recorder Ty}
    (h : ∀ inner expected, Follows (r inner expected) (Checker.body inner ⟨k, o⟩ expected (k + 1) b)) :
    Follows (arrow sc ⟨k, o⟩ tparams params ret r)
      (Checker.infer sc k (.arrow tparams params ret b o)) := by
  rw [Checker.infer]
  refine follows_get fun x => ?_
  rw [function, bind_assoc]
  refine (follows_lift (generics tparams)).bind fun gs => ?_
  simp only [bind_assoc, pure_bind, within]
  by_cases hlen : 1 < params.length
  · simp only [if_pos hlen]
    rw [← object_bind_any]
    exact (follows_step _ _ _).bind fun _ => (follows_pure _).noted
  simp only [if_neg hlen, bind_assoc]
  refine (follows_step _ _ _).bind fun args => ?_
  cases ret with
  | none =>
    simp only [bind_assoc]
    exact (h _ _).bind fun result => (follows_step _ _ _).bind fun f => (follows_pure _).noted
  | some t =>
    simp only [bind_assoc]
    refine (follows_step _ _ _).bind fun expected => (h _ _).bind fun _ => ?_
    exact (follows_step _ _ _).bind fun f => (follows_pure _).noted

theorem follows_constType {sc : Scope} {node : Node} {k : Nat} {type : Option TypeExpr}
    {value : Expr} {declare trusted : Bool} {signature : Option TypeExpr} {r : Recorder Ty}
    (h : Follows r (Checker.infer sc k value)) :
    Follows (constType sc node ⟨k, value.origin?⟩ type r declare trusted signature)
      (Checker.constType sc node k type value declare trusted signature) := by
  have hchecked : Follows (constType sc node ⟨k, value.origin?⟩ type r declare false none)
      (Checker.constType sc node k type value declare false none) := by
    cases declare with
    | true => exact follows_step _ _ _
    | false =>
      cases type with
      | none => exact h.bind fun found => follows_step _ _ _
      | some annotated =>
        refine (follows_step _ _ _).bind fun want => h.bind fun found => ?_
        exact (follows_expectType _ _ _ _).bind fun _ => follows_pure want
  cases trusted with
  | false => exact hchecked
  | true =>
    cases signature with
    | none => exact hchecked
    | some signature => exact follows_step _ _ _

mutual

theorem follows_infer (sc : Scope) (k : Nat) :
    (e : Expr) → Follows (infer sc k e) (Checker.infer sc k e)
  | .paren e => follows_infer sc (k + 1) e
  | .arrow tparams params ret b o =>
    follows_arrow fun inner expected => follows_body inner ⟨k, o⟩ expected (k + 1) b
  | .call fn targs args o => by
    rw [infer_call]
    refine (follows_infer sc (k + 1) fn).bind fun t => (follows_step _ _ _).bind fun t => ?_
    refine (follows_explicitInstance _ _ _ _).bind fun t => ?_
    exact (follows_instantiateUpTo _ _ _).bind fun t => follows_applied (follows_inferAll sc _ args) t
  | .ident _ _ => follows_step _ _ _
  | .missing => follows_step _ _ _
  | .str _ => follows_step _ _ _
  | .bool _ => follows_step _ _ _
  | .array _ => follows_step _ _ _
  | .object _ => follows_step _ _ _
  | .index _ _ => follows_step _ _ _
  | .prop _ _ => follows_step _ _ _
  | .cond _ _ _ => follows_step _ _ _
  | .cast _ _ => follows_step _ _ _

theorem follows_inferAll (sc : Scope) (k : Nat) :
    (es : List Expr) → Follows (inferAll sc k es) (Checker.inferAll sc k es)
  | [] => follows_pure _
  | e :: rest =>
    (follows_infer sc k e).bind fun _ =>
      (follows_inferAll sc (k + e.count) rest).bind fun _ => follows_pure _

theorem follows_body (sc : Scope) (arrow : Node) (expected : Option Ty) (k : Nat) :
    (b : Body) → Follows (body sc arrow expected k b) (Checker.body sc arrow expected k b)
  | .missing => follows_step _ _ _
  | .block stmts => follows_blockBody (sc.extend []) arrow expected k stmts
  | .expr e => by
    rw [body_expr]
    exact (follows_infer sc k e).bind fun t => follows_returned _ _ _ t

theorem follows_blockBody (sc : Scope) (arrow : Node) (expected : Option Ty) (k : Nat) :
    (stmts : List Stmt) →
      Follows (blockBody sc arrow expected k stmts) (Checker.blockBody sc arrow expected k stmts)
  | [] => follows_step _ _ _
  | s :: rest => by
    cases s with
    | ret e =>
      rw [blockBody_ret]
      exact (follows_infer sc (k + 1) e).bind fun t => follows_returned _ _ _ t
    | _ => exact (follows_stmt sc k _).bind fun _ => follows_blockBody _ arrow expected _ rest

theorem follows_stmt (sc : Scope) (k : Nat) :
    (s : Stmt) → Follows (stmt sc k s) (Checker.stmt sc k s)
  | .const name type value declare trusted signature o => by
    rw [stmt_const]
    refine (follows_constType (follows_infer sc (k + 1) value)).bind fun t => ?_
    have hdeclared := (follows_lift (declared sc ⟨k, o⟩ name t)).bind fun after =>
      (follows_pure after).noted (e := fun u => .reaches ⟨u, after, []⟩)
    rwa [bind_pure] at hdeclared
  | .expr e _ => (follows_infer sc (k + 1) e).bind fun _ => follows_pure sc
  | .missing => follows_step _ _ _
  | .typeAlias _ _ _ => follows_step _ _ _
  | .ret _ => follows_step _ _ _

end

theorem follows_file (sc : Scope) (k : Nat) (stmts : List Stmt) :
    Follows (file sc k stmts) (Checker.file sc k stmts) := by
  induction stmts generalizing sc k with
  | nil => exact follows_pure _
  | cons s rest ih =>
    cases s with
    | typeAlias name tparams t =>
      have halias : Checker.file sc k (.typeAlias name tparams t :: rest) =
          Checker.file sc k [.typeAlias name tparams t] >>= fun _ =>
            Checker.file sc (k + 1) rest := by
        rw [Checker.file, Checker.file]
        split
        · simp only [bind_assoc]
          rfl
        · simp only [bind_assoc]
          rfl
      rw [halias]
      exact (follows_step _ _ _).bind fun _ => ih _ _
    | _ => exact (follows_stmt _ _ _).bind fun _ => ih _ _

end Recorder

/-- The recorded check of a file comes to what the check comes to. -/
theorem outcome_recorded (n : Nat) (stmts : List Stmt) :
    ((recorded n stmts).1, (recorded n stmts).2.state) = outcome n stmts :=
  Prod.ext_iff.mpr (Recorder.follows_file .empty 0 stmts ⟨.empty n, []⟩)

end Checker

end ProofScript
