import ProofScript.Checker
import ProofScript.Proofs.Assignability

/-!
# What checking keeps

Every step of the checker keeps its objections and the pairs of types taken for equal. If nothing is
objected to in the end, nothing was objected to before.

What is left of a call, a body and a constant once the types of their parts are known has a definition of its
own here, so that what holds of it is proved apart from the recursion.
-/

namespace ProofScript.Checker

open Program Stateful

variable {s s' : State}

/-! ## The checker in parts -/

/-- What is left of a call once the type of its function is known. -/
def applied (sc : Scope) (node argNode : Node) (args : List Expr) (fnType : Ty) : Checker Ty := do
  match fnType with
  | .any =>
    let _ ← inferAll sc argNode.number args
    return .any
  | .var v =>
    let (param, ret) ← freshSignature args.length
    match ← assign (.var v) (.func param ret) with
    | .error _ => object node (.notCallable none)
    | .ok () =>
      let ts ← inferAll sc argNode.number args
      callResult node argNode param ret ts
  | .thunk ret =>
    let ts ← inferAll sc argNode.number args
    callResult node argNode none ret ts
  | .fn param ret =>
    let ts ← inferAll sc argNode.number args
    callResult node argNode (some param) ret ts
  | t => object node (.notCallable (some t))

theorem infer_call (sc : Scope) (k : Nat) (fn : Expr) (targs : List TypeExpr) (args : List Expr)
    (o : Option Location) :
    infer sc k (.call fn targs args o) = (do
      let fnType ← resolve (← infer sc (k + 1) fn)
      let fnType ← explicitInstance ⟨k, o⟩ sc.types fnType targs
      let fnType ← instantiateUpTo fnType.size fnType
      applied sc ⟨k, o⟩ ⟨k + 1 + fn.count, args.head?.bind Expr.origin?⟩ args fnType) := by
  rw [infer]
  rfl

/-- What a body does with the value that it returns. -/
def returned (node : Node) (expected : Option Ty) (a : Ty) : Checker Ty :=
  match expected with
  | none => return a
  | some want => do
    expectType node a want
    return want

theorem body_expr (sc : Scope) (arrow : Node) (expected : Option Ty) (k : Nat) (e : Expr) :
    body sc arrow expected k (.expr e) = infer sc k e >>= returned ⟨k, e.origin?⟩ expected := by
  rw [body]
  rfl

theorem blockBody_ret (sc : Scope) (arrow : Node) (expected : Option Ty) (k : Nat) (e : Expr)
    (rest : List Stmt) :
    blockBody sc arrow expected k (.ret e :: rest) =
      infer sc (k + 1) e >>= returned ⟨k + 1, e.origin?⟩ expected := by
  rw [blockBody]
  rfl

/-- The type of a constant. -/
abbrev constType (sc : Scope) (node : Node) (k : Nat) (type : Option TypeExpr) (value : Expr)
    (declare trusted : Bool) (signature : Option TypeExpr) : Checker Ty :=
  match trusted, signature with
  | true, some s => toType node sc.types s
  | _, _ =>
    if declare then toType node sc.types (type.getD .missing)
    else do
      match type with
      | some annotated =>
        let want ← toType node sc.types annotated
        let found ← infer sc k value
        expectType ⟨k, value.origin?⟩ found want
        pure want
      | none =>
        let found ← infer sc k value
        resolve found

/-- What is left of a constant once its type is known. -/
def declared (sc : Scope) (node : Node) (name : String) (a : Ty) : Checker Scope := do
  if name ∈ sc.declared then
    let _ ← object node (.redeclared name)
  return sc.declare name a

theorem stmt_const (sc : Scope) (k : Nat) (name : String) (type : Option TypeExpr) (value : Expr)
    (declare trusted : Bool) (signature : Option TypeExpr) (o : Option Location) :
    stmt sc k (.const name type value declare trusted signature o) =
      constType sc ⟨k, o⟩ (k + 1) type value declare trusted signature >>=
        declared sc ⟨k, o⟩ name := by
  unfold declared
  cases trusted with
  | false => cases declare <;> cases type <;> simp [stmt, constType]
  | true =>
    cases signature with
    | some signature => simp only [stmt, constType]
    | none => cases declare <;> cases type <;> simp [stmt, constType]

theorem declared_eq_ok {sc after : Scope} {node : Node} {name : String} {a : Ty}
    (hrun : declared sc node name a s = (.ok after, s')) : after = sc.declare name a := by
  unfold declared at hrun
  dsimp only at hrun
  split at hrun
  · obtain ⟨_, s₁, -, hrun⟩ := bind_eq_ok.mp hrun
    exact (pure_eq_ok.mp hrun).1.symm
  · exact (pure_eq_ok.mp hrun).1.symm

/-! ## What is kept -/

/-- No objection is dropped, and no pair of types taken for equal is forgotten. -/
structure Grows (s s' : State) : Prop where
  findings : s.findings ⊆ s'.findings
  equated : s.unifier.equated ⊆ s'.unifier.equated

/-- If nothing is objected to in the end, nothing was before. -/
theorem Grows.clean (h : Grows s s') (hclean : s'.findings = []) : s.findings = [] :=
  List.subset_nil.mp (hclean ▸ h.findings)

theorem grows_steady : Steady Grows where
  refl _ := ⟨List.Subset.refl _, fun _ hp => hp⟩
  trans h h' := ⟨List.Subset.trans h.findings h'.findings, fun _ hp => h'.equated (h.equated hp)⟩

theorem object_grows (node : Node) (o : Objection) : Moves Grows (object node o) := by
  intro s
  exact ⟨List.subset_append_left _ _, fun _ hp => hp⟩

theorem fresh_grows : Moves Grows fresh := by
  intro s
  exact ⟨List.Subset.refl _, fun _ hp => hp⟩

theorem resolve_grows (t : Ty) : Moves Grows (resolve t) := grows_steady.refl

/-- How a comparison ends: it has to go deeper, or its outcome is handed on. -/
theorem assign_cases (src dst : Ty) (s : State) :
    s.unifier.assign? s.depth src dst = none ∧ assign src dst s = (.error .deeper, s) ∨
      ∃ r u, s.unifier.assign? s.depth src dst = some (r, u) ∧
        assign src dst s = (.ok r, { s with unifier := u }) := by
  rw [assign, get_bind]
  cases s.unifier.assign? s.depth src dst with
  | none => exact .inl ⟨rfl, rfl⟩
  | some x => exact .inr ⟨x.1, x.2, rfl, rfl⟩

theorem assign_eq_ok {src dst : Ty} {s s' : State} {r : Except AssignError Unit}
    (h : assign src dst s = (.ok r, s')) :
    ∃ u, s.unifier.assign? s.depth src dst = some (r, u) ∧ s' = { s with unifier := u } := by
  rcases assign_cases src dst s with ⟨-, hrun⟩ | ⟨r', u, hu, hrun⟩
  · rw [hrun] at h
    cases h
  · rw [hrun] at h
    cases h
    exact ⟨u, hu, rfl⟩

theorem assign_grows (src dst : Ty) : Moves Grows (assign src dst) := by
  intro s
  rcases assign_cases src dst s with ⟨-, hrun⟩ | ⟨r, u, hu, hrun⟩
  · rw [hrun]
    exact grows_steady.refl s
  · rw [hrun]
    exact ⟨List.Subset.refl _, Unifier.equated_assign? hu⟩

/-- What is kept where numbers are taken and objections are raised. -/
structure Placid (R : State → State → Prop) : Prop extends Steady R where
  object : ∀ (node : Node) (o : Objection), Moves R (object node o)
  fresh : Moves R fresh

variable {R : State → State → Prop}

theorem unsupported_moves (hR : Placid R) (node : Node) (t : TypeExpr) :
    Moves R (match t.print with
      | .ok shown => object node (.unsupportedType shown)
      | .error g => throw (.gap g) : Checker Ty) := by
  split
  · exact hR.object _ _
  · exact hR.throw _

mutual

/-- Reading an annotation takes numbers and raises objections. -/
theorem toType_moves (hR : Placid R) (node : Node) (types : List (String × Ty)) :
    (t : TypeExpr) → Moves R (toType node types t)
  | .ref name args => by
    rw [toType]
    split
    · split
      · exact hR.pure _
      · exact hR.object _ _
    · split
      · exact hR.object _ _
      · refine hR.bind hR.get fun s => ?_
        split
        · exact hR.object _ _
        split
        · exact hR.object _ _
        · exact hR.bind (toTypes_moves hR node types args) fun _ => hR.pure _
  | .func tparams params ret => by
    rw [toType]
    split
    · exact hR.object _ _
    refine hR.bind (hR.mapM (fun _ => ?_) tparams) fun vars => ?_
    · exact hR.bind hR.fresh fun _ => hR.pure _
    · refine hR.bind (toParamTypes_moves hR node _ params) fun _ => ?_
      exact hR.bind (toType_moves hR node _ ret) fun _ => hR.pure _
  | .keyword name => by
    by_cases hnever : name = "never"
    · rw [hnever, toType]
      exact hR.pure _
    by_cases hany : name = "any"
    · rw [hany, toType]
      exact hR.pure _
    rw [toType]
    · exact unsupported_moves hR node (.keyword name)
    all_goals simp [hnever, hany]
  | .missing => unsupported_moves hR node .missing
  | .tuple ts => unsupported_moves hR node (.tuple ts)
  | .union ts => unsupported_moves hR node (.union ts)
  | .object ps => unsupported_moves hR node (.object ps)
  | .str v => unsupported_moves hR node (.str v)
  | .bool b => unsupported_moves hR node (.bool b)

theorem toTypes_moves (hR : Placid R) (node : Node) (types : List (String × Ty)) :
    (ts : List TypeExpr) → Moves R (toTypes node types ts)
  | [] => hR.pure _
  | t :: rest =>
    hR.bind (toType_moves hR node types t) fun _ =>
      hR.bind (toTypes_moves hR node types rest) fun _ => hR.pure _

theorem toParamTypes_moves (hR : Placid R) (node : Node) (types : List (String × Ty)) :
    (ps : List Param) → Moves R (toParamTypes node types ps)
  | [] => hR.pure _
  | (_, t) :: rest =>
    hR.bind (toType_moves hR node types t) fun _ =>
      hR.bind (toParamTypes_moves hR node types rest) fun _ => hR.pure _

end

theorem grows_placid : Placid Grows := ⟨grows_steady, object_grows, fresh_grows⟩

theorem toType_grows (node : Node) (types : List (String × Ty)) (t : TypeExpr) :
    Moves Grows (toType node types t) :=
  toType_moves grows_placid node types t

theorem toTypes_grows (node : Node) (types : List (String × Ty)) (ts : List TypeExpr) :
    Moves Grows (toTypes node types ts) :=
  toTypes_moves grows_placid node types ts

theorem toParamTypes_grows (node : Node) (types : List (String × Ty)) (ps : List Param) :
    Moves Grows (toParamTypes node types ps) :=
  toParamTypes_moves grows_placid node types ps

theorem expectType_grows (node : Node) (t expected : Ty) :
    Moves Grows (expectType node t expected) := by
  refine grows_steady.bind (assign_grows t expected) fun r => ?_
  cases r with
  | ok => exact grows_steady.pure _
  | error e => exact grows_steady.bind (object_grows _ _) fun _ => grows_steady.pure _

theorem instantiateUpTo_grows (n : Nat) (t : Ty) : Moves Grows (instantiateUpTo n t) := by
  induction n generalizing t with
  | zero => exact grows_steady.pure _
  | succ n ih =>
    cases t with
    | poly params body =>
      intro s
      rw [instantiateUpTo, get_bind]
      dsimp only
      rw [set_bind]
      have hfresh : Grows s { s with unifier := (s.unifier.instantiate params body).2 } :=
        ⟨List.Subset.refl _, (Unifier.extends_freshAll _).equated⟩
      exact grows_steady.trans hfresh (ih _ _)
    | _ => exact grows_steady.pure _

theorem explicitInstance_grows (node : Node) (types : List (String × Ty)) (fnType : Ty)
    (targs : List TypeExpr) : Moves Grows (explicitInstance node types fnType targs) := by
  unfold explicitInstance
  split
  · exact grows_steady.pure _
  · exact grows_steady.pure _
  · split
    · exact grows_steady.bind (toTypes_grows _ _ _) fun _ => grows_steady.pure _
    · exact object_grows _ _
  · exact object_grows _ _

theorem callResult_grows (node argNode : Node) (param : Option Ty) (ret : Ty) (args : List Ty) :
    Moves Grows (callResult node argNode param ret args) := by
  unfold callResult
  split
  · exact resolve_grows _
  · refine grows_steady.bind (assign_grows _ _) fun r => ?_
    split
    · exact resolve_grows _
    · refine grows_steady.bind (resolve_grows _) fun _ => ?_
      refine grows_steady.bind (resolve_grows _) fun _ => ?_
      exact grows_steady.bind (object_grows _ _) fun _ => resolve_grows _
    · exact grows_steady.bind (object_grows _ _) fun _ => resolve_grows _
  · exact object_grows _ _

theorem freshSignature_grows (args : Nat) : Moves Grows (freshSignature args) := by
  unfold freshSignature
  dsimp only
  split
  · exact grows_steady.bind (grows_steady.pure _) fun _ =>
      grows_steady.bind fresh_grows fun _ => grows_steady.pure _
  · refine grows_steady.bind fresh_grows fun _ => grows_steady.bind (grows_steady.pure _) fun _ => ?_
    exact grows_steady.bind fresh_grows fun _ => grows_steady.pure _

theorem unsupportedExpr_grows (k : Nat) (e : Expr) :
    Moves Grows (match e.print with
      | .ok shown => object ⟨k, e.origin?⟩ (.unsupportedExpr shown)
      | .error g => throw (.gap g) : Checker Ty) := by
  split
  · exact object_grows _ _
  · exact grows_steady.throw _

theorem applied_grows {sc : Scope} {argNode : Node} {args : List Expr}
    (hargs : Moves Grows (inferAll sc argNode.number args)) (node : Node) (fnType : Ty) :
    Moves Grows (applied sc node argNode args fnType) := by
  have hresult : ∀ param ret, Moves Grows (do
      let ts ← inferAll sc argNode.number args
      callResult node argNode param ret ts) := fun param ret =>
    grows_steady.bind hargs fun _ => callResult_grows _ _ _ _ _
  cases fnType with
  | any => exact grows_steady.bind hargs fun _ => grows_steady.pure _
  | var v =>
    refine grows_steady.bind (freshSignature_grows _) fun _ =>
      grows_steady.bind (assign_grows _ _) fun r => ?_
    cases r with
    | error => exact object_grows _ _
    | ok => exact hresult _ _
  | thunk ret => exact hresult _ _
  | fn param ret => exact hresult _ _
  | _ => exact object_grows _ _

theorem returned_grows (node : Node) (expected : Option Ty) (a : Ty) :
    Moves Grows (returned node expected a) := by
  cases expected with
  | none => exact grows_steady.pure _
  | some want => exact grows_steady.bind (expectType_grows _ _ _) fun _ => grows_steady.pure _

theorem constType_grows {sc : Scope} {k : Nat} {value : Expr} (hvalue : Moves Grows (infer sc k value))
    (node : Node) (type : Option TypeExpr) (declare trusted : Bool) (signature : Option TypeExpr) :
    Moves Grows (constType sc node k type value declare trusted signature) := by
  unfold constType
  split
  · exact toType_grows _ _ _
  split
  · exact toType_grows _ _ _
  cases type with
  | some annotated =>
    refine grows_steady.bind (toType_grows _ _ _) fun _ => grows_steady.bind hvalue fun _ => ?_
    exact grows_steady.bind (expectType_grows _ _ _) fun _ => grows_steady.pure _
  | none => exact grows_steady.bind hvalue fun _ => resolve_grows _

theorem declared_grows (sc : Scope) (node : Node) (name : String) (t : Ty) :
    Moves Grows (declared sc node name t) := by
  unfold declared
  dsimp only
  split
  · exact grows_steady.bind (object_grows _ _) fun _ => grows_steady.pure _
  · exact grows_steady.pure _

mutual

theorem infer_grows (sc : Scope) (k : Nat) : (e : Expr) → Moves Grows (infer sc k e)
  | .ident name o => by
    rw [infer]
    split
    · exact grows_steady.pure _
    · exact object_grows _ _
  | .paren e => infer_grows sc (k + 1) e
  | .arrow tparams params ret b o => by
    rw [infer]
    refine grows_steady.bind (grows_steady.mapM (fun _ => ?_) tparams) fun vars => ?_
    · exact grows_steady.bind fresh_grows fun _ =>
        grows_steady.bind fresh_grows fun _ => grows_steady.pure _
    dsimp only
    split
    · exact object_grows _ _
    refine grows_steady.bind (toParamTypes_grows _ _ _) fun args => ?_
    cases ret with
    | some t =>
      refine grows_steady.bind (toType_grows _ _ t) fun expected => ?_
      refine grows_steady.bind (body_grows _ _ _ _ b) fun _ => ?_
      refine grows_steady.bind (grows_steady.pure _) fun _ => ?_
      exact grows_steady.bind (resolve_grows _) fun _ => grows_steady.pure _
    | none =>
      refine grows_steady.bind (body_grows _ _ _ _ b) fun _ => ?_
      exact grows_steady.bind (resolve_grows _) fun _ => grows_steady.pure _
  | .call fn targs args o => by
    rw [infer_call]
    refine grows_steady.bind (infer_grows sc (k + 1) fn) fun t => ?_
    refine grows_steady.bind (resolve_grows t) fun t => ?_
    refine grows_steady.bind (explicitInstance_grows _ _ _ _) fun t => ?_
    refine grows_steady.bind (instantiateUpTo_grows _ _) fun t => ?_
    exact applied_grows (inferAll_grows sc _ args) _ t
  | .missing => unsupportedExpr_grows k .missing
  | .str v => unsupportedExpr_grows k (.str v)
  | .bool b => unsupportedExpr_grows k (.bool b)
  | .array es => unsupportedExpr_grows k (.array es)
  | .object ps => unsupportedExpr_grows k (.object ps)
  | .index e i => unsupportedExpr_grows k (.index e i)
  | .prop e n => unsupportedExpr_grows k (.prop e n)
  | .cond a b c => unsupportedExpr_grows k (.cond a b c)
  | .cast e t => unsupportedExpr_grows k (.cast e t)

theorem inferAll_grows (sc : Scope) (k : Nat) : (es : List Expr) → Moves Grows (inferAll sc k es)
  | [] => grows_steady.pure _
  | e :: rest =>
    grows_steady.bind (infer_grows sc k e) fun _ =>
      grows_steady.bind (inferAll_grows sc (k + e.count) rest) fun _ => grows_steady.pure _

theorem body_grows (sc : Scope) (arrow : Node) (expected : Option Ty) (k : Nat) :
    (b : Body) → Moves Grows (body sc arrow expected k b)
  | .missing => object_grows _ _
  | .block stmts => blockBody_grows (sc.extend []) arrow expected k stmts
  | .expr e => by
    rw [body_expr]
    exact grows_steady.bind (infer_grows sc k e) fun t => returned_grows _ _ t

theorem blockBody_grows (sc : Scope) (arrow : Node) (expected : Option Ty) (k : Nat) :
    (stmts : List Stmt) → Moves Grows (blockBody sc arrow expected k stmts)
  | [] => by
    cases expected with
    | none => exact grows_steady.pure _
    | some want => exact object_grows _ _
  | s :: rest => by
    cases s with
    | ret e =>
      rw [blockBody_ret]
      exact grows_steady.bind (infer_grows sc (k + 1) e) fun t => returned_grows _ _ t
    | _ =>
      exact grows_steady.bind (stmt_grows sc k _) fun _ => blockBody_grows _ arrow expected _ rest

theorem stmt_grows (sc : Scope) (k : Nat) : (s : Stmt) → Moves Grows (stmt sc k s)
  | .const name type value declare trusted signature o => by
    rw [stmt_const]
    exact grows_steady.bind (constType_grows (infer_grows sc (k + 1) value) _ _ _ _ _) fun t =>
      declared_grows _ _ name t
  | .expr e _ => grows_steady.bind (infer_grows sc (k + 1) e) fun _ => grows_steady.pure _
  | .missing => grows_steady.bind (object_grows _ _) fun _ => grows_steady.pure _
  | .typeAlias _ _ _ => grows_steady.bind (object_grows _ _) fun _ => grows_steady.pure _
  | .ret _ => grows_steady.bind (object_grows _ _) fun _ => grows_steady.pure _

end

theorem file_grows (sc : Scope) (k : Nat) (stmts : List Stmt) : Moves Grows (file sc k stmts) := by
  induction stmts generalizing sc k with
  | nil => exact grows_steady.pure _
  | cons s rest ih =>
    cases s with
    | typeAlias name tparams t =>
      rw [file]
      dsimp only
      split
      · exact grows_steady.bind (object_grows _ _) fun _ => ih _ _
      · refine grows_steady.bind ?_ fun _ => ih _ _
        intro s
        exact ⟨List.Subset.refl _, fun _ hp => hp⟩
    | _ => exact grows_steady.bind (stmt_grows _ _ _) fun _ => ih _ _

/-- A file is checked within a depth if checking it comes to its end. -/
theorem findings?_eq_ok {n : Nat} {stmts : List Stmt} {fs : List Finding} :
    findings? n stmts = some (.ok fs) ↔ ∃ s, outcome n stmts = (.ok (), s) ∧ s.findings = fs := by
  rw [findings?]
  obtain ⟨r, s⟩ := outcome n stmts
  cases r with
  | error e =>
    refine ⟨fun h => (by cases e <;> cases h), ?_⟩
    rintro ⟨_, h, -⟩
    cases h
  | ok u =>
    refine ⟨fun h => ⟨s, rfl, Except.ok.inj (Option.some.inj h)⟩, ?_⟩
    rintro ⟨_, h, hfs⟩
    cases h
    exact congrArg (fun fs => some (Except.ok fs)) hfs

end ProofScript.Checker
