import ProofScript.Proofs.Checking.Renumbered

/-!
# Type aliases that are not looked up

A program in which no annotation names a type alias is checked alike where the alias is declared and
where it is not. The nodes behind the declaration have later numbers, and nothing else differs.
-/

namespace ProofScript

open Program

namespace Program

mutual

/-- No type of this name is looked up in the annotation. -/
def TypeExpr.spares (name : String) : TypeExpr → Bool
  | .ref n args => n != name && typesSpare name args
  | .func _ params ret => paramsSpare name params && ret.spares name
  | _ => true

/-- The same for annotations. -/
def typesSpare (name : String) : List TypeExpr → Bool
  | [] => true
  | t :: rest => t.spares name && typesSpare name rest

/-- The same for parameters. -/
def paramsSpare (name : String) : List Param → Bool
  | [] => true
  | (_, t) :: rest => t.spares name && paramsSpare name rest

end

mutual

/-- No type of this name is looked up in the expression. -/
def Expr.spares (name : String) : Expr → Bool
  | .call fn targs args _ => fn.spares name && typesSpare name targs && exprsSpare name args
  | .arrow _ params ret body _ =>
    paramsSpare name params && ret.all (TypeExpr.spares name) && body.spares name
  | .paren e => e.spares name
  | _ => true

/-- The same for expressions. -/
def exprsSpare (name : String) : List Expr → Bool
  | [] => true
  | e :: rest => e.spares name && exprsSpare name rest

/-- The same for a body. -/
def Body.spares (name : String) : Body → Bool
  | .missing => true
  | .expr e => e.spares name
  | .block stmts => stmtsSpare name stmts

/-- The same for a statement, which declares no type alias either. A signature counts where it is
trusted. -/
def Stmt.spares (name : String) : Stmt → Bool
  | .typeAlias .. => false
  | .const _ type value _ trusted signature _ =>
    type.all (TypeExpr.spares name) && value.spares name &&
      (!trusted || signature.all (TypeExpr.spares name))
  | .expr e _ => e.spares name
  | .ret e => e.spares name
  | .missing => true

/-- The same for statements. -/
def stmtsSpare (name : String) : List Stmt → Bool
  | [] => true
  | s :: rest => s.spares name && stmtsSpare name rest

end

end Program

namespace Checker

/-- The finding with so many nodes more in front of it. -/
def Finding.shift (d : Nat) (x : Finding) : Finding := ⟨x.node.shift d, x.objection⟩

/-- The state where one more alias is declared, and so many nodes more are in front. -/
def State.lift (name : String) (d : Nat) (s : State) : State :=
  { s with aliases := name :: s.aliases, findings := s.findings.map (Finding.shift d) }

/-- The second step does in the lifted state what the first one does in the state. -/
def Lifts {α : Type} (name : String) (d : Nat) (x y : Checker α) : Prop :=
  ∀ s : State, y (s.lift name d) = ((x s).1, (x s).2.lift name d)

variable {α β : Type} {name : String} {d : Nat}

namespace Lifts

theorem pure (a : α) : Lifts name d (pure a) (pure a) := fun _ => rfl

theorem throw (e : Stop) : Lifts name d (throw e : Checker α) (throw e) := fun _ => rfl

theorem bind {x y : Checker α} {f g : α → Checker β} (hx : Lifts name d x y)
    (hf : ∀ a, Lifts name d (f a) (g a)) : Lifts name d (x >>= f) (y >>= g) := by
  intro s
  change ExceptT.bindCont g (y (s.lift name d)).1 (y (s.lift name d)).2 =
    ((ExceptT.bindCont f (x s).1 (x s).2).1, (ExceptT.bindCont f (x s).1 (x s).2).2.lift name d)
  rw [hx s]
  generalize x s = r
  obtain ⟨result, mid⟩ := r
  cases result with
  | error e => rfl
  | ok a => exact hf a mid

theorem get {f g : State → Checker β} (h : ∀ s, Lifts name d (f s) (g (s.lift name d))) :
    Lifts name d (get >>= f) (get >>= g) := fun s => h s s

theorem mapM {f : α → Checker β} (hf : ∀ a, Lifts name d (f a) (f a)) (as : List α) :
    Lifts name d (as.mapM f) (as.mapM f) := by
  induction as with
  | nil => exact .pure _
  | cons a rest ih =>
    rw [List.mapM_cons]
    exact .bind (hf a) fun _ => .bind ih fun _ => .pure _

theorem ite {p : Prop} [Decidable p] {x x' y y' : Checker α} (h : Lifts name d x y)
    (h' : Lifts name d x' y') : Lifts name d (if p then x else x') (if p then y else y') := by
  split
  · exact h
  · exact h'

end Lifts

/-! ## Steps of the checker -/

theorem object_lifts (node : Node) (o : Objection) :
    Lifts name d (object node o) (object (node.shift d) o) := by
  intro s
  let x : Finding := ⟨node, o⟩
  have hfindings : (s.lift name d).findings ++ [x.shift d] =
      (s.findings ++ [x]).map (Finding.shift d) := by simp [State.lift]
  exact congrArg (fun fs => (Except.ok Ty.any, ({ s.lift name d with findings := fs } : State)))
    hfindings

theorem fresh_lifts : Lifts name d fresh fresh := fun _ => rfl

theorem resolve_lifts (t : Ty) : Lifts name d (resolve t) (resolve t) := fun _ => rfl

theorem assign_lifts (src dst : Ty) : Lifts name d (assign src dst) (assign src dst) := by
  refine .get fun s => ?_
  have hsame : (s.lift name d).unifier.assign? (s.lift name d).depth src dst =
      s.unifier.assign? s.depth src dst := rfl
  rw [hsame]
  cases s.unifier.assign? s.depth src dst with
  | none => exact .throw .deeper
  | some r => exact fun _ => rfl

theorem instantiateUpTo_lifts (n : Nat) (t : Ty) :
    Lifts name d (instantiateUpTo n t) (instantiateUpTo n t) := by
  induction n generalizing t with
  | zero => exact .pure _
  | succ n ih =>
    cases t with
    | poly params body =>
      intro s
      let step := s.unifier.instantiate params body
      exact ih step.1 { s with unifier := step.2 }
    | _ => exact .pure _

theorem expectType_lifts (node : Node) (t expected : Ty) :
    Lifts name d (expectType node t expected) (expectType (node.shift d) t expected) := by
  refine .bind (assign_lifts t expected) fun r => ?_
  cases r with
  | ok u => exact .pure _
  | error e => exact .bind (object_lifts node _) fun _ => .pure _

theorem freshSignature_lifts (args : Nat) :
    Lifts name d (freshSignature args) (freshSignature args) := fun _ => by
  unfold freshSignature
  split <;> rfl

theorem callResult_lifts (node argNode : Node) (param : Option Ty) (ret : Ty) (args : List Ty) :
    Lifts name d (callResult node argNode param ret args)
      (callResult (node.shift d) (argNode.shift d) param ret args) := by
  unfold callResult
  split
  · exact resolve_lifts ret
  · rename_i p a
    refine .bind (assign_lifts a p) fun r => ?_
    split
    · exact resolve_lifts ret
    · exact .bind (resolve_lifts a) fun _ => .bind (resolve_lifts p) fun _ =>
        .bind (object_lifts argNode _) fun _ => resolve_lifts ret
    · exact .bind (object_lifts argNode _) fun _ => resolve_lifts ret
  · exact object_lifts node _

/-! ## Annotations -/

theorem unsupportedType_lifts (node : Node) (t : TypeExpr) :
    Lifts name d (match t.print with
      | .ok shown => object node (.unsupportedType shown)
      | .error g => throw (.gap g) : Checker Ty) (match t.print with
      | .ok shown => object (node.shift d) (.unsupportedType shown)
      | .error g => throw (.gap g) : Checker Ty) := by
  cases t.print with
  | ok shown => exact object_lifts node _
  | error g => exact .throw (.gap g)

mutual

theorem toType_lifts (node : Node) (types : List (String × Ty)) :
    (t : TypeExpr) → t.spares name = true →
      Lifts name d (toType node types t) (toType (node.shift d) types t)
  | .ref n args, h => by
    simp only [TypeExpr.spares, Bool.and_eq_true, bne_iff_ne] at h
    rw [toType, toType]
    cases types.lookup n with
    | some t => exact .ite (.pure _) (object_lifts node _)
    | none =>
      cases aliasArity? n with
      | none => exact object_lifts node _
      | some arity =>
        refine .get fun s => ?_
        have hmem : decide (n ∈ (s.lift name d).aliases) = decide (n ∈ s.aliases) := by
          simp [State.lift, h.1]
        rw [hmem]
        exact .ite (object_lifts node _) (.ite (object_lifts node _)
          (.bind (toTypes_lifts node types args h.2) fun _ => .pure _))
  | .func tparams params ret, h => by
    simp only [TypeExpr.spares, Bool.and_eq_true] at h
    rw [toType, toType]
    refine .ite (object_lifts node _) (.bind (.mapM (fun _ => ?_) tparams) fun vars => ?_)
    · exact .bind fresh_lifts fun _ => .pure _
    · exact .bind (toParamTypes_lifts node _ params h.1) fun _ =>
        .bind (toType_lifts node _ ret h.2) fun _ => .pure _
  | .keyword kw, _ => by
    by_cases hnever : kw = "never"
    · rw [hnever, toType, toType]
      exact .pure _
    by_cases hany : kw = "any"
    · rw [hany, toType, toType]
      exact .pure _
    rw [toType, toType]
    · exact unsupportedType_lifts node (.keyword kw)
    all_goals simp [hnever, hany]
  | .missing, _ => unsupportedType_lifts node .missing
  | .tuple ts, _ => unsupportedType_lifts node (.tuple ts)
  | .union ts, _ => unsupportedType_lifts node (.union ts)
  | .object ps, _ => unsupportedType_lifts node (.object ps)
  | .str v, _ => unsupportedType_lifts node (.str v)
  | .bool b, _ => unsupportedType_lifts node (.bool b)

theorem toTypes_lifts (node : Node) (types : List (String × Ty)) :
    (ts : List TypeExpr) → typesSpare name ts = true →
      Lifts name d (toTypes node types ts) (toTypes (node.shift d) types ts)
  | [], _ => .pure _
  | t :: rest, h => by
    rw [typesSpare, Bool.and_eq_true] at h
    exact .bind (toType_lifts node types t h.1) fun _ =>
      .bind (toTypes_lifts node types rest h.2) fun _ => .pure _

theorem toParamTypes_lifts (node : Node) (types : List (String × Ty)) :
    (ps : List Param) → paramsSpare name ps = true →
      Lifts name d (toParamTypes node types ps) (toParamTypes (node.shift d) types ps)
  | [], _ => .pure _
  | (_, t) :: rest, h => by
    rw [paramsSpare, Bool.and_eq_true] at h
    exact .bind (toType_lifts node types t h.1) fun _ =>
      .bind (toParamTypes_lifts node types rest h.2) fun _ => .pure _

end

theorem explicitInstance_lifts (node : Node) (types : List (String × Ty)) (fnType : Ty)
    {targs : List TypeExpr} (h : typesSpare name targs = true) :
    Lifts name d (explicitInstance node types fnType targs)
      (explicitInstance (node.shift d) types fnType targs) := by
  unfold explicitInstance
  split
  · exact .pure _
  · exact .pure _
  · exact .ite (.bind (toTypes_lifts node types targs h) fun _ => .pure _) (object_lifts node _)
  · exact object_lifts node _

/-! ## Expressions and statements -/

theorem unsupportedExpr_lifts {k k' : Nat} (hk : k' = k + d) (e : Expr) :
    Lifts name d (match e.print with
      | .ok shown => object ⟨k, e.origin?⟩ (.unsupportedExpr shown)
      | .error g => throw (.gap g) : Checker Ty) (match e.print with
      | .ok shown => object ⟨k', e.origin?⟩ (.unsupportedExpr shown)
      | .error g => throw (.gap g) : Checker Ty) := by
  subst hk
  cases e.print with
  | ok shown => exact object_lifts ⟨k, e.origin?⟩ _
  | error g => exact .throw (.gap g)

theorem applied_lifts {sc : Scope} {node argNode : Node} {args : List Expr}
    (hargs : Lifts name d (inferAll sc argNode.number args)
      (inferAll sc (argNode.shift d).number args)) (fnType : Ty) :
    Lifts name d (applied sc node argNode args fnType)
      (applied sc (node.shift d) (argNode.shift d) args fnType) := by
  have hresult : ∀ param ret, Lifts name d
      (inferAll sc argNode.number args >>= fun ts => callResult node argNode param ret ts)
      (inferAll sc (argNode.shift d).number args >>= fun ts =>
        callResult (node.shift d) (argNode.shift d) param ret ts) := fun param ret =>
    .bind hargs fun ts => callResult_lifts node argNode param ret ts
  cases fnType with
  | any => exact .bind hargs fun _ => .pure _
  | var v =>
    refine .bind (freshSignature_lifts _) fun signature => .bind (assign_lifts _ _) fun r => ?_
    cases r with
    | error e => exact object_lifts node _
    | ok => exact hresult _ _
  | thunk ret => exact hresult _ _
  | fn param ret => exact hresult _ _
  | _ => exact object_lifts node _

theorem returned_lifts (node : Node) (expected : Option Ty) (t : Ty) :
    Lifts name d (returned node expected t) (returned (node.shift d) expected t) := by
  cases expected with
  | none => exact .pure _
  | some want => exact .bind (expectType_lifts node t want) fun _ => .pure _

theorem constType_lifts {sc : Scope} {k : Nat} {type signature : Option TypeExpr} {value : Expr}
    {trusted : Bool} (htype : type.all (TypeExpr.spares name) = true)
    (hsignature : (!trusted || signature.all (TypeExpr.spares name)) = true)
    (hvalue : Lifts name d (infer sc k value) (infer sc (k + d) value)) (node : Node)
    (declare : Bool) :
    Lifts name d (constType sc node k type value declare trusted signature)
      (constType sc (node.shift d) (k + d) type value declare trusted signature) := by
  have hchecked : Lifts name d (constType sc node k type value declare false none)
      (constType sc (node.shift d) (k + d) type value declare false none) := by
    cases declare with
    | true =>
      refine toType_lifts node sc.types _ ?_
      cases type with
      | none => rfl
      | some t => exact htype
    | false =>
      cases type with
      | some t =>
        refine .bind (toType_lifts node sc.types t htype) fun want => .bind hvalue fun found => ?_
        exact .bind (expectType_lifts ⟨k, value.origin?⟩ found want) fun _ => .pure _
      | none => exact .bind hvalue fun found => resolve_lifts found
  cases trusted with
  | false => exact hchecked
  | true =>
    cases signature with
    | none => exact hchecked
    | some t => exact toType_lifts node sc.types t hsignature

theorem declared_lifts (sc : Scope) (node : Node) (constant : String) (t : Ty) :
    Lifts name d (declared sc node constant t) (declared sc (node.shift d) constant t) := by
  unfold declared
  dsimp only
  split
  · exact .bind (object_lifts node _) fun _ => .pure _
  · exact .pure _

mutual

theorem infer_lifts (sc : Scope) {k k' : Nat} (hk : k' = k + d) :
    (e : Expr) → e.spares name = true → Lifts name d (infer sc k e) (infer sc k' e)
  | .ident x o, _ => by
    subst hk
    rw [infer, infer]
    cases sc.values.find? x with
    | some t => exact .pure _
    | none => exact object_lifts ⟨k, o⟩ _
  | .paren e, h => infer_lifts sc (by omega) e h
  | .arrow tparams params ret b o, h => by
    subst hk
    simp only [Expr.spares, Bool.and_eq_true] at h
    obtain ⟨⟨hparams, hret⟩, hb⟩ := h
    rw [infer, infer]
    refine .bind (.mapM (fun _ => ?_) tparams) fun vars => .ite (object_lifts ⟨k, o⟩ _) ?_
    · exact .bind fresh_lifts fun _ => .bind fresh_lifts fun _ => .pure _
    refine .bind (toParamTypes_lifts ⟨k, o⟩ _ params hparams) fun args => ?_
    cases ret with
    | some t =>
      refine .bind (toType_lifts ⟨k, o⟩ _ t hret) fun expected => ?_
      exact .bind (body_lifts _ ⟨k, o⟩ _ (by omega) b hb) fun _ => .bind (.pure _) fun _ =>
        .bind (resolve_lifts _) fun _ => .pure _
    | none =>
      exact .bind (body_lifts _ ⟨k, o⟩ _ (by omega) b hb) fun _ => .bind (resolve_lifts _) fun _ =>
        .pure _
  | .call fn targs args o, h => by
    subst hk
    simp only [Expr.spares, Bool.and_eq_true] at h
    obtain ⟨⟨hfn, htargs⟩, hargs⟩ := h
    have hk : k + d + 1 + fn.count = k + 1 + fn.count + d := by omega
    rw [infer_call, infer_call, Node.mk_shift hk]
    refine .bind (infer_lifts sc (by omega) fn hfn) fun t => .bind (resolve_lifts t) fun t => ?_
    refine .bind (explicitInstance_lifts ⟨k, o⟩ sc.types t htargs) fun t => ?_
    refine .bind (instantiateUpTo_lifts _ _) fun t => ?_
    exact @applied_lifts _ _ sc ⟨k, o⟩ _ args (inferAll_lifts sc rfl args hargs) t
  | .missing, _ => unsupportedExpr_lifts hk .missing
  | .str v, _ => unsupportedExpr_lifts hk (.str v)
  | .bool b, _ => unsupportedExpr_lifts hk (.bool b)
  | .array es, _ => unsupportedExpr_lifts hk (.array es)
  | .object ps, _ => unsupportedExpr_lifts hk (.object ps)
  | .index e i, _ => unsupportedExpr_lifts hk (.index e i)
  | .prop e n, _ => unsupportedExpr_lifts hk (.prop e n)
  | .cond a b c, _ => unsupportedExpr_lifts hk (.cond a b c)
  | .cast e t, _ => unsupportedExpr_lifts hk (.cast e t)

theorem inferAll_lifts (sc : Scope) {k k' : Nat} (hk : k' = k + d) :
    (es : List Expr) → exprsSpare name es = true →
      Lifts name d (inferAll sc k es) (inferAll sc k' es)
  | [], _ => .pure _
  | e :: rest, h => by
    rw [exprsSpare, Bool.and_eq_true] at h
    exact .bind (infer_lifts sc hk e h.1) fun _ =>
      .bind (inferAll_lifts sc (by omega) rest h.2) fun _ => .pure _

theorem body_lifts (sc : Scope) (arrow : Node) (expected : Option Ty) {k k' : Nat} (hk : k' = k + d) :
    (b : Body) → b.spares name = true →
      Lifts name d (body sc arrow expected k b) (body sc (arrow.shift d) expected k' b)
  | .missing, _ => object_lifts arrow _
  | .block stmts, h => blockBody_lifts (sc.extend []) arrow expected hk stmts h
  | .expr e, h => by
    subst hk
    rw [body_expr, body_expr]
    exact .bind (infer_lifts sc rfl e h) fun t => returned_lifts ⟨k, e.origin?⟩ expected t

theorem blockBody_lifts (sc : Scope) (arrow : Node) (expected : Option Ty) {k k' : Nat}
    (hk : k' = k + d) : (stmts : List Stmt) → stmtsSpare name stmts = true →
      Lifts name d (blockBody sc arrow expected k stmts)
        (blockBody sc (arrow.shift d) expected k' stmts)
  | [], _ => by
    cases expected with
    | none => exact .pure _
    | some want => exact object_lifts arrow _
  | st :: rest, h => by
    rw [stmtsSpare, Bool.and_eq_true] at h
    cases st with
    | ret e =>
      rw [blockBody_ret, blockBody_ret, Node.mk_shift (show k' + 1 = k + 1 + d by omega)]
      exact .bind (infer_lifts sc (by omega) e h.1) fun t => returned_lifts _ expected t
    | _ =>
      exact .bind (stmt_lifts sc hk _ h.1) fun _ =>
        blockBody_lifts _ arrow expected (by omega) rest h.2

theorem stmt_lifts (sc : Scope) {k k' : Nat} (hk : k' = k + d) :
    (st : Stmt) → st.spares name = true → Lifts name d (stmt sc k st) (stmt sc k' st)
  | .const constant type value declare trusted signature o, h => by
    simp only [Stmt.spares, Bool.and_eq_true] at h
    obtain ⟨⟨htype, hvalue⟩, hsignature⟩ := h
    subst hk
    rw [stmt_const, stmt_const, Nat.add_right_comm]
    refine .bind (constType_lifts htype hsignature (infer_lifts sc rfl value hvalue) ⟨k, o⟩ declare)
      fun t => ?_
    exact declared_lifts sc ⟨k, o⟩ constant t
  | .expr e _, h => .bind (infer_lifts sc (by omega) e h) fun _ => .pure _
  | .ret e, _ => by
    subst hk
    exact .bind (object_lifts ⟨k, none⟩ _) fun _ => .pure _
  | .missing, _ => by
    subst hk
    exact .bind (object_lifts ⟨k, none⟩ _) fun _ => .pure _
  | .typeAlias _ _ _, h => by cases h

end

end Checker

end ProofScript
