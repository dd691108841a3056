import ProofScript.Proofs.Checking.Reports
import ProofScript.Proofs.Checking.Steps

/-!
# Checking the library

Nothing in the library is objected to, whichever of its rules a program selects. The signatures of
trusted rules are read without objections, derived rules are simply typed, and the rule that a
second name stands for is declared before.
-/

namespace ProofScript

open Program Stateful

/-! ## Simple types -/

namespace Ty

/-- Is the type made of constants and functions only? -/
def simple : Ty → Bool
  | rigid _ _ => true
  | fn a r => a.simple && r.simple
  | never => true
  | _ => false

theorem apply_of_simple (σ : Subst) : (t : Ty) → t.simple = true → t.apply σ = t
  | rigid _ _, _ => rfl
  | fn a r, h => by
    rw [simple, Bool.and_eq_true] at h
    rw [Ty.apply, apply_of_simple σ a h.1, apply_of_simple σ r h.2]
  | never, _ => rfl

theorem eqv_of_simple : (t : Ty) → t.simple = true → t.eqv t = true
  | rigid _ _, _ => by simp [eqv]
  | fn a r, h => by
    rw [simple, Bool.and_eq_true] at h
    simp [eqv, eqv_of_simple a h.1, eqv_of_simple r h.2]
  | never, _ => rfl

theorem freeVars_of_simple : (t : Ty) → t.simple = true → t.freeVars = []
  | rigid _ _, _ => by simp [freeVars]
  | fn a r, h => by
    rw [simple, Bool.and_eq_true] at h
    simp [freeVars, freeVars_of_simple a h.1, freeVars_of_simple r h.2]
  | never, _ => by simp [freeVars]

variable {t : Ty}

theorem eqv_fn_vars {a : Ty} (ha : a.simple = true) (r : Ty) (v w : TyVar) :
    (fn a r).eqv (fn (var v) (var w)) = false := by
  cases a with
  | rigid | fn | never => simp [eqv]
  | _ => cases ha

theorem resolve_of_closed (u : Unifier) (h : t.freeVars = []) : u.resolve t = t := by
  have happly : t.apply u.subst = t := apply_eq_self t (by simp [h])
  rw [Unifier.resolve, Ty.resolve]
  generalize u.subst.length + 1 = n
  induction n with
  | zero => rfl
  | succ n ih => rw [resolveUpTo, happly, ih, ite_self]

theorem resolve_of_simple (u : Unifier) (h : t.simple = true) : u.resolve t = t :=
  resolve_of_closed u (freeVars_of_simple t h)

theorem shallow_of_simple (u : Unifier) (h : t.simple = true) : u.shallow t = t := by
  cases t with
  | rigid | fn | never => rfl
  | _ => cases h

end Ty

/-- A simple type may stand for itself, and nothing gets bound. -/
theorem Unifier.assign?_of_simple (u : Unifier) {n : Nat} (hn : 0 < n) {t : Ty} (h : t.simple = true) :
    u.assign? n t t = some (.ok (), { u with equated := (t, t) :: u.equated }) := by
  obtain ⟨n, rfl⟩ := Nat.exists_eq_succ_of_ne_zero (Nat.ne_of_gt hn)
  rw [Unifier.assign?_eq_ok, Unify.assign_succ, Ty.shallow_of_simple u h, Unify.task,
    if_pos (Ty.eqv_of_simple t h)]
  rfl

namespace Unify

variable {u : Unifier} {v : TyVar} {t : Ty} {n : Nat}

theorem bindVar_of_simple (h : t.simple = true) :
    bindVar v t u = (.ok (), { u with subst := u.subst.insert v t }) := by
  have hfree : v ∉ (u.resolve t).freeVars := by
    rw [Ty.resolve_of_simple u h, Ty.freeVars_of_simple t h]
    exact List.not_mem_nil
  cases t with
  | rigid | fn | never =>
    rw [bindVar, get_bind]
    simp only [hfree, if_false]
    rfl
  | _ => cases h

theorem shallow_of_unbound (hv : u.subst.find? v = none) : u.shallow (.var v) = .var v := by
  simp [Unifier.shallow, Unifier.shallowUpTo, hv]

/-- A variable that is not bound yet gets bound to the type it must accept. -/
theorem assign_var_left (hv : u.subst.find? v = none) (h : t.simple = true) :
    assign (n + 1) (.var v) t u = (.ok (), { u with subst := u.subst.insert v t }) := by
  rw [assign_succ, shallow_of_unbound hv, Ty.shallow_of_simple u h]
  cases t with
  | rigid | fn | never => exact bindVar_of_simple h
  | _ => cases h

/-- A variable that is not bound yet gets bound to the type that must accept it. -/
theorem assign_var_right (hv : u.subst.find? v = none) (h : t.simple = true) :
    assign (n + 1) t (.var v) u = (.ok (), { u with subst := u.subst.insert v t }) := by
  rw [assign_succ, shallow_of_unbound hv, Ty.shallow_of_simple u h]
  cases t with
  | rigid | fn | never => exact bindVar_of_simple h
  | _ => cases h

end Unify

/-- The parameter and the result of a function are bound at once. -/
theorem Unifier.assign?_fn_vars (u : Unifier) {n : Nat} (hn : 2 ≤ n) {a r : Ty} (ha : a.simple = true)
    (hr : r.simple = true) {v w : TyVar} (hv : u.subst.find? v = none)
    (hw : u.subst.find? w = none) (hne : w ≠ v) :
    u.assign? n (.fn a r) (.fn (.var v) (.var w)) =
      some (.ok (), { u with subst := (u.subst.insert v a).insert w r }) := by
  obtain ⟨n, rfl⟩ := Nat.exists_eq_add_of_le' hn
  have hw' : (u.subst.insert v a).find? w = none := by rw [Subst.find?_insert, if_neg hne, hw]
  have hsrc : u.shallow (.fn a r) = .fn a r := rfl
  have hdst : u.shallow (.fn (.var v) (.var w)) = .fn (.var v) (.var w) := rfl
  rw [Unifier.assign?_eq_ok, Unify.assign_succ, hsrc, hdst, Unify.task,
    if_neg (by rw [Ty.eqv_fn_vars ha r v w]; exact Bool.false_ne_true)]
  refine bind_eq_ok.mpr ⟨(), _, Unify.assign_var_left hv ha, ?_⟩
  exact bind_eq_ok.mpr ⟨(), _, Unify.assign_var_right hw' hr, rfl⟩

/-- The variables then stand for these types. -/
theorem Unifier.resolve_fn_vars (u : Unifier) {a r : Ty} (ha : a.simple = true)
    (hr : r.simple = true) {v w : TyVar} (hne : w ≠ v) {σ : Subst}
    (hu : u.subst = (σ.insert v a).insert w r) : u.resolve (.fn (.var v) (.var w)) = .fn a r := by
  have hfn : (Ty.fn a r).simple = true := by simp [Ty.simple, ha, hr]
  have happly : (Ty.fn (.var v) (.var w)).apply u.subst = .fn a r := by
    simp [Ty.apply, hu, Subst.find?_insert, Ne.symm hne]
  obtain ⟨n, hlen⟩ : ∃ n, u.subst.length = n + 1 := ⟨_, by rw [hu, Subst.insert, List.length_cons]⟩
  rw [Unifier.resolve, Ty.resolve, hlen, Ty.resolveUpTo, happly]
  simp only [Ty.eqv_fn_vars ha r v w, Bool.false_eq_true, if_false]
  rw [Ty.resolveUpTo, Ty.apply_of_simple _ _ hfn]
  simp only [Ty.eqv_of_simple _ hfn, if_true]

/-- The type of the rule that applies an implication. -/
def elimType (v w : TyVar) : Ty :=
  .poly [("A", v), ("B", w)] (.fn (.fn (.var v) (.var w)) (.fn (.var v) (.var w)))

theorem freeVars_elimType (v w : TyVar) : (elimType v w).freeVars = [] := by
  simp [elimType, Ty.freeVars]

theorem instantiate_elimType {v w : TyVar} (hne : w ≠ v) (a b : Ty) :
    Ty.instantiateWith [("A", v), ("B", w)] (.fn (.fn (.var v) (.var w)) (.fn (.var v) (.var w)))
      [a, b] = .fn (.fn a b) (.fn a b) := by
  have hvw : (v == w) = false := by simpa using Ne.symm hne
  simp [Ty.instantiateWith, Ty.apply, Subst.find?_ofList, List.lookup_cons, hvw]

/-- A name that is bound hides what it was bound to before. -/
theorem TyEnv.find?_add (env : TyEnv) (name : String) (t : Ty) (n : String) :
    (env.add name t).find? n = if n = name then some t else env.find? n := by
  by_cases hn : n = name
  · cases env <;> simp [find?, add, hn]
  · have hne : (n == name) = false := by simpa using hn
    rw [if_neg hn]
    cases env with
    | nil => simp [find?, add, List.lookup_cons, hne]
    | cons top rest =>
      have hfilter := lookup_filter_ne hn top
      simp only [find?, add, List.findSome?_cons, List.lookup_cons, hne, hfilter]

namespace Checker

/-! ## Simply typed values -/

/-- The step succeeds from every state with the property `I`, with a value that satisfies `P` and in a state
with the property `I`. -/
abbrev Succeeds {α : Type} (I : State → Prop) (P : α → Prop) (f : Checker α) : Prop :=
  Yields (fun _ => False) I P f

/-- The aliases are declared where the property holds and comparisons may go on from two types to their
parts, and it holds on when a number is taken or types are taken for equal. -/
structure Settled (aliases : List String) (I : State → Prop) : Prop extends Stable aliases I where
  depth : ∀ s, I s → 2 ≤ s.depth
  equated : ∀ s eqs, I s → I { s with unifier := { s.unifier with equated := eqs } }

/-- The value has the type wherever the property holds, and nothing is objected to. -/
def Types (I : State → Prop) (sc : Scope) (e : Expr) (t : Ty) : Prop :=
  ∀ k, Succeeds I (· = t) (infer sc k e)

section

variable {aliases : List String} {I : State → Prop} {sc : Scope}

theorem infer_var {name : String} {t : Ty} (h : sc.values.find? name = some t) (k : Nat) :
    infer sc k (Library.var name) = pure t := by
  rw [Library.var, infer, h]

theorem types_var {name : String} {t : Ty} (h : sc.values.find? name = some t) :
    Types I sc (Library.var name) t := by
  intro k
  rw [infer_var h]
  exact .pure rfl

theorem resolve_yields {t : Ty} (h : t.simple = true) : Succeeds I (· = t) (resolve t) :=
  fun s hs => ⟨Ty.resolve_of_simple s.unifier h, hs⟩

theorem assign_yields (hI : Settled aliases I) {t : Ty} (h : t.simple = true) :
    Succeeds I (· = .ok ()) (assign t t) := by
  intro s hs
  rw [assign, get_bind, s.unifier.assign?_of_simple (Nat.lt_of_lt_of_le (by decide) (hI.depth s hs)) h]
  exact ⟨rfl, hI.equated s _ hs⟩

theorem expectType_yields (hI : Settled aliases I) {t : Ty} (h : t.simple = true) (node : Node) :
    Succeeds I (fun _ => True) (expectType node t t) := by
  refine .bind (assign_yields hI h) ?_
  rintro _ rfl
  exact .pure trivial

theorem callResult_yields (hI : Settled aliases I) {a r : Ty} (ha : a.simple = true)
    (hr : r.simple = true) (node argNode : Node) :
    Succeeds I (· = r) (callResult node argNode (some a) r [a]) := by
  refine .bind (assign_yields hI ha) ?_
  rintro _ rfl
  exact resolve_yields hr

theorem instantiateUpTo_fn (n : Nat) (a r : Ty) : instantiateUpTo n (.fn a r) = pure (.fn a r) := by
  cases n <;> rfl

/-- A function applied to a value of the type of its parameter. -/
theorem types_app (hI : Settled aliases I) {fn x : Expr} {a r : Ty} (hfn : Types I sc fn (.fn a r))
    (hx : Types I sc x a) (ha : a.simple = true) (hr : r.simple = true) :
    Types I sc (Library.app fn x) r := by
  intro k
  rw [Library.app, infer]
  refine .bind (hfn _) ?_
  rintro _ rfl
  refine .bind (resolve_yields (by simp [Ty.simple, ha, hr])) ?_
  rintro _ rfl
  refine .bind (P := (· = .fn a r)) (.pure rfl) ?_
  rintro _ rfl
  rw [instantiateUpTo_fn]
  refine .bind (P := (· = .fn a r)) (.pure rfl) ?_
  rintro _ rfl
  refine .bind (P := (· = [a])) ?_ ?_
  · refine .bind (hx _) ?_
    rintro _ rfl
    exact .bind (P := (· = [])) (.pure rfl) fun _ h => .pure (by rw [h])
  · rintro _ rfl
    exact callResult_yields hI ha hr _ _

theorem toParamTypes_one {node : Node} {types : List (String × Ty)} {p : Param} {a : Ty}
    (hp : Succeeds I (· = a) (toType node types p.2)) :
    Succeeds I (· = [a]) (toParamTypes node types [p]) := by
  refine .bind hp ?_
  rintro _ rfl
  exact .bind (P := (· = [])) (.pure rfl) fun _ h => .pure (by rw [h])

/-- The rest of a function with one parameter behind its type parameters. -/
theorem arrow_yields (hI : Settled aliases I) (sc : Scope) {p : Param} {ret : Option TypeExpr}
    {b : Expr} {a r : Ty} {node : Node} {k : Nat} {β : Type} {Q : β → Prop}
    (rest : Option Ty → Ty → Checker β)
    (hparam : Succeeds I (· = a) (toType node sc.types p.2))
    (hret : ∀ t ∈ ret, Succeeds I (· = r) (toType node sc.types t))
    (hbody : Types I (sc.declare p.1 a) b r) (hr : r.simple = true)
    (hrest : Succeeds I Q (rest (some a) r)) :
    Succeeds I Q (do
      let args ← toParamTypes node sc.types [p]
      let inner := ([p].zip args).foldl (fun sc x => sc.declare x.1.1 x.2) sc
      let result ← match ret with
        | some t => do
          let expected ← toType node inner.types t
          let _ ← body inner node (some expected) k (.expr b)
          pure expected
        | none => body inner node none k (.expr b)
      rest args.head? result) := by
  refine .bind (toParamTypes_one hparam) ?_
  rintro _ rfl
  cases ret with
  | none =>
    refine .bind (P := (· = r)) ?_ ?_
    · refine .bind (hbody _) ?_
      rintro _ rfl
      exact .pure rfl
    · rintro _ rfl
      exact hrest
  | some t =>
    refine .bind (hret t rfl) ?_
    rintro _ rfl
    refine .bind (P := fun _ => True) ?_ fun _ _ => ?_
    · refine .bind (hbody _) ?_
      rintro _ rfl
      exact .bind (expectType_yields hI hr _) fun _ _ => .pure trivial
    · exact .bind (P := (· = _)) (.pure rfl) fun _ h => by rwa [h]

/-- A function without type parameters. -/
theorem types_lam (hI : Settled aliases I) {p : Param} {ret : Option TypeExpr} {b : Expr} {a r : Ty}
    (hparam : ∀ node, Succeeds I (· = a) (toType node sc.types p.2))
    (hret : ∀ t ∈ ret, ∀ node, Succeeds I (· = r) (toType node sc.types t))
    (hbody : Types I ((sc.extend []).declare p.1 a) b r) (ha : a.simple = true)
    (hr : r.simple = true) : Types I sc (Library.lam [] p ret b) (.fn a r) := by
  intro k
  rw [Library.lam, infer]
  refine .bind (P := (· = [])) (.pure rfl) ?_
  rintro _ rfl
  have hrest : Succeeds I (· = Ty.fn a r) (resolve (.func (some a) r) >>= fun f => pure f) := by
    refine .bind (resolve_yields (t := .fn a r) (by simp [Ty.simple, ha, hr])) ?_
    rintro _ rfl
    exact .pure rfl
  dsimp only
  rw [if_neg (by simp)]
  exact arrow_yields hI (sc.extend [])
    (fun param result => resolve (.func param result) >>= fun f => pure f) (hparam ⟨k, none⟩)
    (fun t ht => hret t ht _) hbody hr hrest

/-- A function with type parameters, which are constants inside. -/
theorem generic_yields (hI : Settled aliases I) {tparams : List String} {p : Param}
    {ret : Option TypeExpr} {b : Expr}
    (h : ∀ ts : List Ty, ts.length = tparams.length → (∀ t ∈ ts, t.simple = true) →
      ∃ a r, a.simple = true ∧ r.simple = true ∧
        (∀ node, Succeeds I (· = a) (toType node (sc.extend (tparams.zip ts)).types p.2)) ∧
        (∀ t ∈ ret, ∀ node, Succeeds I (· = r) (toType node (sc.extend (tparams.zip ts)).types t)) ∧
        Types I ((sc.extend (tparams.zip ts)).declare p.1 a) b r) (k : Nat) :
    Succeeds I (fun t => t.freeVars = []) (infer sc k (Library.lam tparams p ret b)) := by
  rw [Library.lam, infer]
  refine .bind (.mapM (g := Prod.fst) (fun name => ?_) tparams) fun vars hvars => ?_
  · exact .bind (fresh_yields hI.toStable) fun _ _ =>
      .bind (fresh_yields hI.toStable) fun _ _ => .pure rfl
  dsimp only
  rw [if_neg (by simp)]
  have hsimple : ∀ t ∈ vars.map fun x => Ty.rigid x.1 x.2.2, t.simple = true := by
    intro t ht
    rcases List.mem_map.mp ht with ⟨x, -, rfl⟩
    rfl
  obtain ⟨a, r, ha, hr, hparam, hret, hbody⟩ := h _ (by simp [← hvars]) hsimple
  rw [← hvars, List.zip_map'] at hparam hret hbody
  have hclosed : (Ty.poly (vars.map fun x => (x.1, x.2.1))
      ((Ty.fn a r).abstract (vars.map fun x => ((x.1, x.2.2), x.2.1)))).freeVars = [] := by
    refine List.eq_nil_iff_forall_not_mem.mpr fun v hv => ?_
    rw [Ty.freeVars, List.mem_filter] at hv
    rcases Ty.mem_freeVars_of_abstract _ hv.1 with hfree | hmem
    · simp [Ty.freeVars, Ty.freeVars_of_simple a ha, Ty.freeVars_of_simple r hr] at hfree
    · refine absurd ?_ (by simpa using hv.2 : v ∉ (vars.map fun x => (x.1, x.2.1)).map Prod.snd)
      simpa [Function.comp_def] using hmem
  have hrest : Succeeds I (fun t => t.freeVars = []) (resolve (.func (some a) r) >>= fun f =>
      pure (if vars.isEmpty then f else .poly (vars.map fun x => (x.1, x.2.1))
        (f.abstract (vars.map fun x => ((x.1, x.2.2), x.2.1))))) := by
    have hfn : (Ty.fn a r).simple = true := by simp [Ty.simple, ha, hr]
    refine .bind (resolve_yields hfn) ?_
    rintro _ rfl
    refine .pure ?_
    split
    · exact Ty.freeVars_of_simple _ hfn
    · exact hclosed
  have harrow := arrow_yields (k := k + 1) hI _ (fun param result =>
      resolve (.func param result) >>= fun f =>
        pure (if vars.isEmpty then f else .poly (vars.map fun x => (x.1, x.2.1))
          (f.abstract (vars.map fun x => ((x.1, x.2.2), x.2.1)))))
    (hparam ⟨k, none⟩) (fun t ht => hret t ht _) hbody hr hrest
  dsimp only at harrow
  exact harrow

theorem toType_param {types : List (String × Ty)} {name : String} {t : Ty} (node : Node)
    (h : types.lookup name = some t) : Succeeds I (· = t) (toType node types (Library.ty name)) := by
  rw [Library.ty, toType, h]
  exact .pure rfl

theorem toType_alias (hI : Stable aliases I) {types : List (String × Ty)} {name : String}
    {args : List TypeExpr} (ts : List Ty) {node : Node} (hname : name ∈ aliases)
    (hfind : types.lookup name = none) (harity : aliasArity? name = some args.length)
    (hargs : Succeeds I (· = ts) (toTypes node types args)) :
    Succeeds I (· = aliasType name ts) (toType node types (.ref name args)) := by
  rw [toType, hfind]
  simp only [harity]
  refine .bind .get fun s hs => ?_
  have hdeclared : name ∈ s.aliases := hI.aliases s hs hname
  simp only [hdeclared, decide_true, Bool.not_true, Bool.false_eq_true, if_false, ne_eq,
    not_true_eq_false]
  refine .bind hargs ?_
  rintro _ rfl
  exact .pure rfl

/-- Nothing was objected to, every number that is bound was taken, and comparisons may go on from two types
to their parts. -/
structure Pristine (systemF : Bool) (s : State) : Prop where
  depth : 2 ≤ s.depth
  keeping : Keeping systemF [] [] s
  taken : ∀ v t, s.unifier.subst.find? v = some t → v ≤ s.unifier.counter

variable {systemF : Bool}

theorem pristine_settled : Settled (Library.typeNames systemF) (Pristine systemF) where
  aliases _ h := h.keeping.aliases
  depth _ h := h.depth
  fresh s h := by
    refine ⟨h.depth, h.keeping.unifier _, ?_⟩
    intro v t hv
    have hle := h.taken v t hv
    change v ≤ s.unifier.counter + 1
    lia
  equated s eqs h := ⟨h.depth, h.keeping.unifier _, h.taken⟩

/-- The rule that applies an implication, at an implication between simple types. -/
theorem types_elim {f x : String} {v w : TyVar} {a r : Ty} (hne : w ≠ v)
    (hf : sc.values.find? f = some (elimType v w)) (hx : sc.values.find? x = some (.fn a r))
    (ha : a.simple = true) (hr : r.simple = true) :
    Types (Pristine systemF) sc (Library.app (Library.var f) (Library.var x)) (.fn a r) := by
  intro k s hs
  have hunbound : ∀ i, s.unifier.counter < i → s.unifier.subst.find? i = none := by
    intro i hi
    cases hfind : s.unifier.subst.find? i with
    | none => rfl
    | some t =>
      have hle := hs.taken i t hfind
      lia
  obtain ⟨depth, ⟨σ, n, equated⟩, aliases, findings⟩ := s
  dsimp only at hunbound
  -- The two type parameters become the next two variables, which get bound to `a` and `r`.
  have hassign := Unifier.assign?_fn_vars ⟨σ, n + 1 + 1, equated⟩ hs.depth ha hr
    (hunbound (n + 1) (by lia)) (hunbound (n + 1 + 1) (by lia)) (by lia)
  have hresolve := Unifier.resolve_fn_vars
    ⟨(σ.insert (n + 1) a).insert (n + 1 + 1) r, n + 1 + 1, equated⟩ ha hr (by lia) rfl
  have hrun : infer sc k (Library.app (Library.var f) (Library.var x))
      ⟨depth, ⟨σ, n, equated⟩, aliases, findings⟩ = (.ok (.fn a r),
        ⟨depth, ⟨(σ.insert (n + 1) a).insert (n + 1 + 1) r, n + 1 + 1, equated⟩, aliases,
          findings⟩) := by
    rw [Library.app, infer, infer_var hf]
    refine bind_eq_ok.mpr ⟨elimType v w, _, rfl, ?_⟩
    refine bind_eq_ok.mpr ⟨_, ⟨depth, ⟨σ, n, equated⟩, aliases, findings⟩,
      congrArg (fun t => (Except.ok t, _)) (Ty.resolve_of_closed _ (freeVars_elimType v w)), ?_⟩
    refine bind_eq_ok.mpr ⟨elimType v w, _, rfl, ?_⟩
    refine bind_eq_ok.mpr ⟨_, ⟨depth, ⟨σ, n + 1 + 1, equated⟩, aliases, findings⟩,
      congrArg (fun t => instantiateUpTo 7 t _) (instantiate_elimType hne _ _), ?_⟩
    refine bind_eq_ok.mpr ⟨[.fn a r], ⟨depth, ⟨σ, n + 1 + 1, equated⟩, aliases, findings⟩, ?_, ?_⟩
    · rw [inferAll, infer_var hx]
      exact bind_eq_ok.mpr ⟨_, _, rfl, bind_eq_ok.mpr ⟨[], _, rfl, rfl⟩⟩
    refine bind_eq_ok.mpr ⟨.ok (), _, ?_, congrArg (fun t => (Except.ok t, _)) hresolve⟩
    rw [assign, get_bind, hassign]
    rfl
  rw [hrun]
  refine ⟨rfl, hs.depth, hs.keeping.unifier _, fun i t hi => ?_⟩
  change i ≤ n + 1 + 1
  change ((σ.insert (n + 1) a).insert (n + 1 + 1) r).find? i = some t at hi
  rw [Subst.find?_insert, Subst.find?_insert] at hi
  have hle : σ.find? i = some t → i ≤ n := hs.taken i t
  split at hi
  · lia
  split at hi
  · lia
  · have := hle hi
    lia

/-! ## Rules -/

/-- The scope at the start of a file behind the declarations of these rules. -/
structure Loaded (names : List String) (sc : Scope) : Prop where
  types : sc.types = []
  declared : sc.declared = names
  closed : ∀ n t, sc.values.find? n = some t → t.freeVars = []
  values : ∀ n ∈ names, ∃ t, sc.values.find? n = some t ∧
    (n = "implElim" → ∃ v w, w ≠ v ∧ t = elimType v w)

theorem Loaded.declare {names : List String} (h : Loaded names sc) {name : String} {t : Ty}
    (hclosed : t.freeVars = []) (ht : name = "implElim" → ∃ v w, w ≠ v ∧ t = elimType v w) :
    Loaded (name :: names) (sc.declare name t) where
  types := h.types
  declared := by rw [Scope.declare, h.declared]
  closed n u hu := by
    rw [Scope.declare, TyEnv.find?_add] at hu
    split at hu
    · obtain rfl := Option.some.inj hu
      exact hclosed
    · exact h.closed n u hu
  values := by
    intro n hn
    rw [Scope.declare, TyEnv.find?_add]
    by_cases hname : n = name
    · rw [if_pos hname]
      exact ⟨t, rfl, hname ▸ ht⟩
    · rw [if_neg hname]
      exact h.values n ((List.mem_cons.mp hn).resolve_left hname)

/-- The rule is declared without objections where the rules that it requires are declared. -/
def Loads (systemF : Bool) (p : Primitive) : Prop :=
  ∀ names sc k, Loaded names sc → p.requires ⊆ names → p.name ∉ names →
    Succeeds (Pristine systemF) (Loaded (p.name :: names)) (stmt sc k p.decl)

/-- A trusted rule whose signature is read. -/
theorem loads_trusted {name : String} {kind : PrimitiveKind} {warning : Option String} {flag : Bool}
    {type : Option TypeExpr} {value : Expr} {declare : Bool} {signature : TypeExpr}
    {o : Option Location}
    (hsignature : signature.converts (Library.typeNames systemF) [] = true)
    (helim : name = "implElim" → ∀ node, Succeeds (Pristine systemF)
      (fun t => ∃ v w, w ≠ v ∧ t = elimType v w) (toType node [] signature)) :
    Loads systemF ⟨name, kind, [], flag, warning,
      .const name type value declare true (some signature) o⟩ := by
  intro names sc k hsc _ hnew
  have hread : Succeeds (Pristine systemF)
      (fun t => t.freeVars = [] ∧ (name = "implElim" → ∃ v w, w ≠ v ∧ t = elimType v w))
      (toType ⟨k, o⟩ sc.types signature) := by
    rw [hsc.types]
    by_cases hname : name = "implElim"
    · exact (helim hname ⟨k, o⟩).imp fun _ t _ hrun ht =>
        ⟨(toType_over signature hrun).closed (by simp), fun _ => ht⟩
    · have hconverts : Succeeds (Pristine systemF) (fun _ => True) (toType ⟨k, o⟩ [] signature) :=
        toType_yields pristine_settled.toStable ⟨k, o⟩ [] signature hsignature
      exact hconverts.imp fun _ t _ hrun _ =>
        ⟨(toType_over signature hrun).closed (by simp), fun h => absurd h hname⟩
  refine .bind hread fun t ht => ?_
  exact declared_yields (by rwa [hsc.declared]) _ (hsc.declare ht.1 ht.2)

/-- A rule whose value is checked. -/
theorem loads_checked {name : String} {kind : PrimitiveKind} {requires : List String}
    {warning : Option String} {flag : Bool} {value : Expr} {o : Option Location}
    (hname : name ≠ "implElim")
    (hvalue : ∀ names sc k, Loaded names sc → requires ⊆ names →
      Succeeds (Pristine systemF) (fun t => t.freeVars = []) (infer sc k value)) :
    Loads systemF ⟨name, kind, requires, flag, warning,
      .const name none value false false none o⟩ := by
  intro names sc k hsc hrequires hnew
  refine .bind (hvalue names sc _ hsc hrequires) fun t ht => ?_
  have hresolve : Succeeds (Pristine systemF) (fun u => u.freeVars = []) (resolve t) := fun s hs =>
    ⟨by rwa [Ty.resolve_of_closed s.unifier ht], hs⟩
  refine .bind hresolve fun u hu => ?_
  exact declared_yields (by rwa [hsc.declared]) _ (hsc.declare hu fun h => absurd h hname)

theorem toTypes_cons {node : Node} {types : List (String × Ty)} {x : TypeExpr}
    {rest : List TypeExpr} {a : Ty} {ts : List Ty} (hx : Succeeds I (· = a) (toType node types x))
    (hrest : Succeeds I (· = ts) (toTypes node types rest)) :
    Succeeds I (· = a :: ts) (toTypes node types (x :: rest)) := by
  refine .bind hx ?_
  rintro _ rfl
  refine .bind hrest ?_
  rintro _ rfl
  exact .pure rfl

theorem toTypes_nil {node : Node} {types : List (String × Ty)} :
    Succeeds I (· = []) (toTypes node types []) := .pure rfl

theorem mem_typeNames {name : String}
    (h : name ∈ ["True", "False", "And", "Or", "Impl", "Not"]) :
    name ∈ Library.typeNames systemF := by
  cases systemF with
  | true => exact List.mem_append_left ["Apply"] h
  | false => exact h

theorem toType_impl {node : Node} {types : List (String × Ty)} {x y : TypeExpr} {a b : Ty}
    (hfind : types.lookup "Impl" = none)
    (hx : Succeeds (Pristine systemF) (· = a) (toType node types x))
    (hy : Succeeds (Pristine systemF) (· = b) (toType node types y)) :
    Succeeds (Pristine systemF) (· = .fn a b) (toType node types (Library.implType x y)) :=
  toType_alias pristine_settled.toStable [a, b] (mem_typeNames (by decide)) hfind rfl
    (toTypes_cons hx (toTypes_cons hy toTypes_nil))

theorem toType_not {node : Node} {types : List (String × Ty)} {x : TypeExpr} {a : Ty}
    (hfind : types.lookup "Not" = none)
    (hx : Succeeds (Pristine systemF) (· = a) (toType node types x)) :
    Succeeds (Pristine systemF) (· = .fn a .never) (toType node types (Library.notType x)) :=
  toType_alias pristine_settled.toStable [a] (mem_typeNames (by decide)) hfind rfl
    (toTypes_cons hx toTypes_nil)

theorem toType_false {node : Node} {types : List (String × Ty)}
    (hfind : types.lookup "False" = none) :
    Succeeds (Pristine systemF) (· = .never) (toType node types (Library.ty "False")) :=
  toType_alias pristine_settled.toStable [] (mem_typeNames (by decide)) hfind rfl toTypes_nil

theorem toType_fn {node : Node} {types : List (String × Ty)} {p : Param} {ret : TypeExpr} {a r : Ty}
    (hp : Succeeds I (· = a) (toType node types p.2))
    (hr : Succeeds I (· = r) (toType node types ret)) :
    Succeeds I (· = .fn a r) (toType node types (Library.fnType [] p ret)) := by
  rw [Library.fnType, toType, if_neg (by simp)]
  refine .bind (P := (· = [])) (.pure rfl) ?_
  rintro _ rfl
  refine .bind (toParamTypes_one hp) ?_
  rintro _ rfl
  refine .bind hr ?_
  rintro _ rfl
  exact .pure rfl

open Library in
/-- The rule that applies an implication is read as it should be. -/
theorem implElim_yields (node : Node) :
    Succeeds (Pristine systemF) (fun t => ∃ v w, w ≠ v ∧ t = elimType v w)
      (toType node [] (fnType ["A", "B"] ("aToB", implType (ty "A") (ty "B"))
        (fnType [] ("a", ty "A") (ty "B")))) := by
  have hvars : Succeeds (Pristine systemF) (fun vars => ∃ v w, w ≠ v ∧ vars = [("A", v), ("B", w)])
      (["A", "B"].mapM fun name => do return (name, ← fresh) : Checker _) := by
    intro s hs
    exact ⟨⟨s.unifier.counter + 1, s.unifier.counter + 1 + 1, by lia, rfl⟩,
      pristine_settled.fresh _ (pristine_settled.fresh _ hs)⟩
  rw [fnType, toType, if_neg (by simp)]
  refine .bind hvars ?_
  rintro _ ⟨v, w, hne, rfl⟩
  have hA : Succeeds (Pristine systemF) (· = Ty.var v)
      (toType node [("B", Ty.var w), ("A", .var v)] (ty "A")) := toType_param _ rfl
  have hB : Succeeds (Pristine systemF) (· = Ty.var w)
      (toType node [("B", Ty.var w), ("A", .var v)] (ty "B")) := toType_param _ rfl
  refine .bind (toParamTypes_one (p := ("aToB", _)) (toType_impl rfl hA hB)) ?_
  rintro _ rfl
  refine .bind (toType_fn (p := ("a", _)) hA hB) ?_
  rintro _ rfl
  exact .pure ⟨v, w, hne, rfl⟩

/-- The trusted rules are declared at their signatures. -/
theorem loads_trustedRules : ∀ p ∈ Library.trustedRules, Loads systemF p := by
  simp only [Library.trustedRules, Library.trustedRule, List.forall_mem_cons]
  refine ⟨loads_trusted ?_ (by simp), loads_trusted ?_ (by simp), loads_trusted ?_ (by simp),
    loads_trusted ?_ (by simp), loads_trusted ?_ (by simp), loads_trusted ?_ (by simp),
    loads_trusted ?_ (by simp), loads_trusted ?_ fun _ => implElim_yields,
    loads_trusted ?_ (by simp), loads_trusted ?_ (by simp), loads_trusted ?_ (by simp), by simp⟩
  all_goals
    cases systemF with
    | true => decide
    | false => decide

/-- The derived rules are simply typed. One of them uses the rule that applies an implication. -/
theorem loads_derivedRules : ∀ p ∈ Library.derivedRules, Loads systemF p := by
  have hI : Settled (Library.typeNames systemF) (Pristine systemF) := pristine_settled
  simp only [Library.derivedRules, List.forall_mem_cons]
  refine ⟨loads_checked (by decide) ?_, loads_checked (by decide) ?_, by simp⟩
  · rintro names ⟨values, types, declared⟩ k hsc -
    obtain rfl : types = [] := hsc.types
    refine generic_yields hI ?_ k
    intro ts hlen hsimple
    match ts, hlen with
    | [A, B], _ =>
      have hA : A.simple = true := hsimple A (by simp)
      have hB : B.simple = true := hsimple B (by simp)
      refine ⟨.fn A B, .fn (.fn B .never) (.fn A .never), by simp [Ty.simple, hA, hB],
        by simp [Ty.simple, hA, hB], ?_, by simp, ?_⟩
      · exact fun _ => toType_impl rfl (toType_param _ rfl) (toType_param _ rfl)
      · refine types_lam hI (fun _ => toType_not rfl (toType_param _ rfl)) ?_ ?_
          (by simp [Ty.simple, hB]) (by simp [Ty.simple, hA])
        · rintro _ ⟨⟩ _
          exact toType_not rfl (toType_param _ rfl)
        · refine types_lam hI (fun _ => toType_param _ rfl) (by simp) ?_ hA rfl
          exact types_app hI (types_var rfl)
            (types_app hI (types_var rfl) (types_var rfl) hA hB) hB rfl
  · rintro names ⟨values, types, declared⟩ k hsc hrequires
    obtain rfl : types = [] := hsc.types
    refine generic_yields hI ?_ k
    intro ts hlen hsimple
    match ts, hlen with
    | [P], _ =>
      have hP : P.simple = true := hsimple P (by simp)
      obtain ⟨_, hfind, helim⟩ := hsc.values "implElim" (hrequires (by simp))
      obtain ⟨v, w, hne, rfl⟩ := helim rfl
      refine ⟨P, .fn (.fn P .never) .never, hP, by simp [Ty.simple, hP],
        fun _ => toType_param _ rfl, by simp, ?_⟩
      refine types_lam hI (fun _ => toType_not rfl (toType_param _ rfl)) ?_ ?_
        (by simp [Ty.simple, hP]) rfl
      · rintro _ ⟨⟩ _
        exact toType_false rfl
      · exact types_app hI (types_elim hne hfind rfl hP rfl) (types_var rfl) hP rfl

/-- A second name stands for a rule that is declared before. -/
theorem loads_aliases : ∀ p ∈ Library.aliases, Loads systemF p := by
  have hvar : ∀ target names sc k, Loaded names sc → [target] ⊆ names →
      Succeeds (Pristine systemF) (fun t => t.freeVars = []) (infer sc k (Library.var target)) := by
    intro target names sc k hsc hrequires
    obtain ⟨t, ht, -⟩ := hsc.values target (hrequires (by simp))
    rw [infer_var ht]
    exact .pure (hsc.closed target t ht)
  simp only [Library.aliases, List.forall_mem_cons]
  exact ⟨loads_checked (by decide) (hvar _), loads_checked (by decide) (hvar _),
    loads_checked (by decide) (hvar _), loads_checked (by decide) (hvar _),
    loads_checked (by decide) (hvar _), by simp⟩

/-! ## The library of a program -/

/-- Does every rule come behind the rules that it requires, where these are declared before? -/
def requiresBefore (names : List String) : List Primitive → Bool
  | [] => true
  | p :: rest => p.requires.all (· ∈ names) && requiresBefore (p.name :: names) rest

/-- Dropping rules that no rule left requires keeps the order. -/
theorem requiresBefore_filter (keep : String → Bool) {ps : List Primitive} {names : List String}
    (hkeep : ∀ p ∈ ps, keep p.name = true → ∀ r ∈ p.requires, keep r = true)
    (h : requiresBefore names ps = true) :
    requiresBefore (names.filter keep) (ps.filter fun p => keep p.name) = true := by
  induction ps generalizing names with
  | nil => rfl
  | cons p rest ih =>
    rw [requiresBefore, Bool.and_eq_true, List.all_eq_true] at h
    have hrest := ih (fun q hq => hkeep q (by simp [hq])) h.2
    cases hp : keep p.name with
    | false => simpa [hp] using hrest
    | true =>
      rw [List.filter_cons_of_pos (by exact hp), requiresBefore, Bool.and_eq_true, List.all_eq_true]
      refine ⟨?_, by simpa [hp] using hrest⟩
      intro r hr
      simpa [hkeep p (by simp) hp r hr] using h.1 r hr

/-- The types of the library are registered. -/
theorem file_types {sc : Scope} {k : Nat} {s : State} {ts : List Primitive} {rest : List Stmt}
    (hts : ∀ p ∈ ts, (aliasArity? p.name).isSome = true ∧
      ∃ tparams t, p.decl = .typeAlias p.name tparams t) :
    file sc k (ts.map Primitive.decl ++ rest) s =
      file sc (k + Stmt.countAll (ts.map Primitive.decl)) rest
        { s with aliases := (ts.map Primitive.name).reverse ++ s.aliases } := by
  induction ts generalizing k s with
  | nil => rfl
  | cons p ts ih =>
    obtain ⟨hsome, tparams, t, hdecl⟩ := hts p (by simp)
    obtain ⟨arity, harity⟩ := Option.isSome_iff_exists.mp hsome
    have hstep : file sc k (p.decl :: (ts.map Primitive.decl ++ rest)) s =
        file sc (k + 1) (ts.map Primitive.decl ++ rest)
          { s with aliases := p.name :: s.aliases } := by
      rw [hdecl, file]
      simp only [harity]
      rfl
    rw [List.map_cons, List.cons_append, hstep, ih fun q hq => hts q (by simp [hq])]
    simp [Stmt.countAll, hdecl, Stmt.count, Nat.add_assoc]

theorem file_rule {sc after : Scope} {k : Nat} {s mid : State} {p : Primitive} {rest : List Stmt}
    (hconstant : p.decl.constant? = some p.name) (hrun : stmt sc k p.decl s = (.ok after, mid)) :
    file sc k (p.decl :: rest) s = file after (k + p.decl.count) rest mid := by
  cases hdecl : p.decl with
  | const =>
    rw [hdecl] at hrun
    exact bind_of_ok hrun
  | _ => simp [hdecl, Stmt.constant?] at hconstant

/-- The rules of the library are declared without objections. -/
theorem file_rules {sc : Scope} {k : Nat} {s : State} {ps : List Primitive} (rest : List Stmt)
    {names : List String} (hps : ∀ p ∈ ps, Loads systemF p ∧ p.decl.constant? = some p.name)
    (hnodup : (names ++ ps.map Primitive.name).Nodup) (hrequires : requiresBefore names ps = true)
    (hsc : Loaded names sc) (hs : Pristine systemF s) :
    ∃ sc' s', file sc k (ps.map Primitive.decl ++ rest) s =
        file sc' (k + Stmt.countAll (ps.map Primitive.decl)) rest s' ∧
      Loaded ((ps.map Primitive.name).reverse ++ names) sc' ∧ Pristine systemF s' := by
  induction ps generalizing sc k s names with
  | nil => exact ⟨sc, s, rfl, hsc, hs⟩
  | cons p ps ih =>
    obtain ⟨hloads, hconstant⟩ := hps p (by simp)
    rw [requiresBefore, Bool.and_eq_true, List.all_eq_true] at hrequires
    rw [List.map_cons] at hnodup
    have hnew : p.name ∉ names := by
      intro hmem
      exact (List.nodup_append.mp hnodup).2.2 _ hmem _ (by simp) rfl
    obtain ⟨after, mid, hrun, hafter, hmid⟩ :=
      (hloads names sc k hsc (fun r hr => by simpa using hrequires.1 r hr) hnew).succeeds hs (by simp)
    obtain ⟨sc', s', hfile, hsc', hs'⟩ := ih (k := k + p.decl.count)
      (fun q hq => hps q (by simp [hq])) (List.perm_middle.nodup hnodup) hrequires.2 hafter hmid
    refine ⟨sc', s', ?_, ?_, hs'⟩
    · rw [List.map_cons, List.cons_append, file_rule hconstant hrun, hfile, Stmt.countAll, Nat.add_assoc]
    · simpa using hsc'

end

end Checker

namespace Library

/-- The rules of the library. -/
def rules : List Primitive := trustedRules ++ derivedRules ++ aliases

theorem mem_reach_self (depth : Nat) (name : String) : name ∈ reach depth name := by
  cases depth with
  | zero => simp [reach]
  | succ depth => simp [reach]

/-- What is reached from a name is the name itself, or required by some declaration. -/
theorem required_of_reach {depth : Nat} {name reached : String} (h : reached ∈ reach depth name) :
    reached = name ∨ ∃ q ∈ all, reached ∈ q.requires := by
  induction depth generalizing name with
  | zero => exact .inl (List.mem_singleton.mp h)
  | succ depth ih =>
    rw [reach] at h
    rcases List.mem_cons.mp h with h | h
    · exact .inl h
    · rcases List.mem_flatMap.mp h with ⟨next, hnext, hreached⟩
      rcases ih hreached with rfl | hrequired
      · cases hfind : find? name with
        | none => simp [hfind] at hnext
        | some q =>
          rw [hfind] at hnext
          exact .inr ⟨q, List.mem_of_find?_eq_some hfind, hnext⟩
      · exact .inr hrequired

/-- What a rule requires is reached wherever the rule is, since nothing that is required requires
anything. -/
theorem reach_requires {depth : Nat} {name : String} {p : Primitive} (hp : p ∈ all)
    (h : p.name ∈ reach (depth + 1) name) {r : String} (hr : r ∈ p.requires) :
    r ∈ reach (depth + 1) name := by
  have hflat : ∀ p ∈ all, p.requires ≠ [] → ∀ q ∈ all, p.name ∉ q.requires := by decide
  have hfind : ∀ p ∈ all, (find? p.name).elim [] Primitive.requires = p.requires := by decide
  have hname : p.name = name := by
    rcases required_of_reach h with hname | ⟨q, hq, hrequired⟩
    · exact hname
    · exact absurd hrequired (hflat p hp (List.ne_nil_of_mem hr) q hq)
  rw [reach, ← hname, hfind p hp]
  exact List.mem_cons_of_mem _ (List.mem_flatMap.mpr ⟨r, hr, mem_reach_self depth r⟩)

/-- The rules of a program that uses these rules. -/
def selectRules (used : List String) : List Primitive :=
  rules.filter fun p => p.name ∈ used.flatMap (reach all.length)

theorem select_eq (used : List String) (systemF : Bool) :
    select used systemF = (types.filter fun p => systemF || !p.systemF) ++ selectRules used := by
  have htypes : ∀ p ∈ types, p.kind = .typeDecl := by decide
  have hrules : ∀ p ∈ rules, p.kind ≠ .typeDecl ∧ p.systemF = false := by decide
  have hall : all = types ++ rules := by simp [all, rules]
  rw [select, hall, List.filter_append]
  congr 1
  · exact List.filter_congr fun p hp => by simp [htypes p hp]
  · exact List.filter_congr fun p hp => by simp [hrules p hp, hall]

theorem mem_reach_requires {used : List String} {p : Primitive} (hp : p ∈ rules)
    (h : p.name ∈ used.flatMap (reach all.length)) {r : String} (hr : r ∈ p.requires) :
    r ∈ used.flatMap (reach all.length) := by
  rw [List.mem_flatMap] at h ⊢
  obtain ⟨name, hname, hreach⟩ := h
  have hall : p ∈ all := by
    have hsplit : all = types ++ rules := by simp [all, rules]
    exact hsplit ▸ List.mem_append_right _ hp
  exact ⟨name, hname, reach_requires hall hreach hr⟩

theorem requiresBefore_rules : Checker.requiresBefore [] rules = true := by decide

theorem requiresBefore_selectRules (used : List String) :
    Checker.requiresBefore [] (selectRules used) = true := by
  refine Checker.requiresBefore_filter (fun n => n ∈ used.flatMap (reach all.length)) ?_
    requiresBefore_rules
  intro p hp hkeep r hr
  simpa using mem_reach_requires hp (by simpa using hkeep) hr

end Library

theorem Checker.loaded_empty : Loaded [] .empty where
  types := rfl
  declared := rfl
  closed := by simp [Scope.empty, TyEnv.empty, TyEnv.find?]
  values := by simp

/-- Where every statement is counted as it is printed, so is a list of them. -/
theorem length_stmtsTags {stmts : List Stmt} (h : ∀ st ∈ stmts, st.tags.length = st.count) :
    (stmtsTags stmts).length = Stmt.countAll stmts := by
  induction stmts with
  | nil => rfl
  | cons st rest ih =>
    rw [List.forall_mem_cons] at h
    rw [stmtsTags, List.length_append, h.1, ih h.2, Stmt.countAll]

theorem countAll_append (stmts more : List Stmt) :
    Stmt.countAll (stmts ++ more) = Stmt.countAll stmts + Stmt.countAll more := by
  induction stmts with
  | nil => simp [Stmt.countAll]
  | cons st rest ih => simp only [List.cons_append, Stmt.countAll, ih, Nat.add_assoc]

namespace Library

theorem length_tags_select (used : List String) (systemF : Bool) :
    (stmtsTags ((select used systemF).map Primitive.decl)).length =
      Stmt.countAll ((select used systemF).map Primitive.decl) := by
  have hall : ∀ p ∈ all, p.decl.tags.length = p.decl.count := by decide
  refine length_stmtsTags ?_
  intro st hst
  rcases List.mem_map.mp hst with ⟨p, hp, rfl⟩
  exact hall p (List.mem_filter.mp hp).1

theorem nodup_rules : (rules.map Primitive.name).Nodup := by decide

theorem nodup_selectRules (used : List String) : ((selectRules used).map Primitive.name).Nodup :=
  (List.filter_sublist.map Primitive.name).nodup nodup_rules

end Library

namespace Checker

theorem loads_rules {systemF : Bool} :
    ∀ p ∈ Library.rules, Loads systemF p ∧ p.decl.constant? = some p.name := by
  have hconstant : ∀ p ∈ Library.rules, p.decl.constant? = some p.name := by decide
  intro p hp
  refine ⟨?_, hconstant p hp⟩
  rcases List.mem_append.mp hp with hmem | hmem
  · rcases List.mem_append.mp hmem with hmem | hmem
    · exact loads_trustedRules p hmem
    · exact loads_derivedRules p hmem
  · exact loads_aliases p hmem

theorem isAlias_types : ∀ p ∈ Library.types, (aliasArity? p.name).isSome = true ∧
    ∃ tparams t, p.decl = .typeAlias p.name tparams t := by
  simp [Library.types, Library.typeDecl, aliasArity?]

/-- Checking a program starts with its library, to which nothing is objected. -/
theorem file_library {n : Nat} (hn : 2 ≤ n) (used : List String) (systemF : Bool) (rest : List Stmt) :
    ∃ sc s, file .empty 0 ((Library.select used systemF).map Primitive.decl ++ rest) (.empty n) =
        file sc (stmtsTags ((Library.select used systemF).map Primitive.decl)).length rest s ∧
      Loaded ((Library.selectRules used).map Primitive.name).reverse sc ∧ Pristine systemF s := by
  have hstart : Pristine systemF
      { State.empty n with aliases := (Library.typeNames systemF).reverse ++ [] } := by
    refine ⟨hn, ⟨by simp, by simp [State.empty]⟩, ?_⟩
    intro v t hv
    cases hv
  have hloads : ∀ p ∈ Library.selectRules used, Loads systemF p ∧ p.decl.constant? = some p.name :=
    fun p hp => loads_rules p (List.mem_filter.mp hp).1
  obtain ⟨sc, s, hfile, hsc, hs⟩ := file_rules rest
    (k := Stmt.countAll ((Library.types.filter fun p => systemF || !p.systemF).map Primitive.decl))
    hloads (Library.nodup_selectRules used) (Library.requiresBefore_selectRules used) loaded_empty
    hstart
  refine ⟨sc, s, ?_, by simpa using hsc, hs⟩
  rw [Library.length_tags_select, Library.select_eq, List.map_append, List.append_assoc,
    file_types fun p hp => isAlias_types p (List.mem_filter.mp hp).1, countAll_append, Nat.zero_add]
  exact hfile

end Checker

end ProofScript
