import ProofScript.Proofs.Checking.Annotations

/-!
# Steps of checking

A type is proved by hypotheses if it holds in every solution of the bindings in which they hold.
Each step of checking that raises no objection leads from proved types to proved types, provided
that all types it took for equal are equal.
-/

namespace ProofScript

open Program Stateful

namespace Ty

variable {k : Roles} {c : TyVar} {consts : List ((String × TyVar) × TyVar)}

/-! ## Binding rigid constants -/

mutual

/-- A type whose rigid constants become variables says what it said, if the variables mean what the
constants meant. -/
theorem sense_abstract (hconsts : ∀ b ∈ consts, k b.2 ≠ .bound) {ρ ρ' : Valuation}
    (hc : ∀ n i, (consts.lookup (n, i)).elim (ρ.const n i) ρ.vars = ρ'.const n i) :
    (t : Ty) → t.Shaped k c → (∀ v ∈ t.freeVars, ρ.vars v = ρ'.vars v) →
      (t.abstract consts).sense ρ = t.sense ρ'
  | var v, _, hv => hv v (by simp [freeVars])
  | rigid n i, _, _ => by
    have hni := hc n i
    rw [Ty.abstract]
    cases hl : consts.lookup (n, i) with
    | none =>
      rw [hl] at hni
      exact hni
    | some v =>
      rw [hl] at hni
      exact hni
  | thunk r, h, hv => by rw [Ty.abstract, sense, sense, sense_abstract hconsts hc r h hv]
  | fn a r, h, hv => by
    rw [Ty.abstract, sense, sense,
      sense_abstract hconsts hc a h.1 fun v hm => hv v (by simp [freeVars, hm]),
      sense_abstract hconsts hc r h.2 fun v hm => hv v (by simp [freeVars, hm])]
  | con _ as, h, hv => by
    rw [Ty.abstract, sense, sense, senses_abstract hconsts hc as h hv]
  | poly ps b, h, hv => by
    rw [Ty.abstract, sense, sense]
    refine iInf_congr fun f => sense_abstract hconsts ?_ b h.2 ?_
    · intro n i
      rw [Valuation.rebind_const, Valuation.rebind_const, ← hc n i]
      cases hl : consts.lookup (n, i) with
      | none => rfl
      | some v =>
        refine Valuation.rebind_vars_of_not_mem ?_
        intro hmem
        rcases List.mem_map.mp hmem with ⟨p, hp, rfl⟩
        exact hconsts _ (mem_of_lookup hl) (h.1 p hp).1
    · intro v hm
      by_cases hps : v ∈ ps.map Prod.snd
      · rw [Valuation.rebind_vars_of_mem hps, Valuation.rebind_vars_of_mem hps]
      · rw [Valuation.rebind_vars_of_not_mem hps, Valuation.rebind_vars_of_not_mem hps]
        exact hv v (by simpa [freeVars, hm] using hps)
  | never, _, _ => rfl
  | any, _, _ => rfl

theorem senses_abstract (hconsts : ∀ b ∈ consts, k b.2 ≠ .bound) {ρ ρ' : Valuation}
    (hc : ∀ n i, (consts.lookup (n, i)).elim (ρ.const n i) ρ.vars = ρ'.const n i) :
    (ts : List Ty) → ShapedAll k c ts → (∀ v ∈ freeVarsAll ts, ρ.vars v = ρ'.vars v) →
      senses ρ (abstractAll consts ts) = senses ρ' ts
  | [], _, _ => rfl
  | t :: rest, h, hv => by
    rw [abstractAll, senses, senses,
      sense_abstract hconsts hc t h.1 fun v hm => hv v (by simp [freeVarsAll, hm]),
      senses_abstract hconsts hc rest h.2 fun v hm => hv v (by simp [freeVarsAll, hm])]

end

mutual

theorem Shaped.abstract : (t : Ty) → t.Shaped k c → (t.abstract consts).Shaped k c
  | var _, _ => trivial
  | rigid n i, h => by
    rw [Ty.abstract]
    cases consts.lookup (n, i) with
    | none => exact h
    | some v => trivial
  | thunk r, h => Shaped.abstract r h
  | fn a r, h => ⟨Shaped.abstract a h.1, Shaped.abstract r h.2⟩
  | con _ as, h => ShapedAll.abstract as h
  | poly _ b, h => ⟨h.1, Shaped.abstract b h.2⟩
  | never, _ => trivial
  | any, h => h.elim

theorem ShapedAll.abstract : (ts : List Ty) → ShapedAll k c ts → ShapedAll k c (abstractAll consts ts)
  | [], _ => trivial
  | t :: rest, h => ⟨Shaped.abstract t h.1, ShapedAll.abstract rest h.2⟩

end

mutual

theorem mem_freeVars_of_abstract {v : TyVar} :
    (t : Ty) → v ∈ (t.abstract consts).freeVars → v ∈ t.freeVars ∨ v ∈ consts.map Prod.snd
  | var _, h => .inl h
  | rigid n i, h => by
    rw [Ty.abstract] at h
    cases hl : consts.lookup (n, i) with
    | none => simp [hl, freeVars] at h
    | some w =>
      have hvw : v = w := by simpa [hl, freeVars] using h
      exact .inr (hvw ▸ List.mem_map_of_mem (f := Prod.snd) (mem_of_lookup hl))
  | thunk r, h => mem_freeVars_of_abstract r h
  | fn a r, h => by
    rw [Ty.abstract, freeVars, List.mem_append] at h
    rw [freeVars, List.mem_append]
    rcases h with h | h
    · exact (mem_freeVars_of_abstract r h).imp .inl id
    · exact (mem_freeVars_of_abstract a h).imp .inr id
  | con _ as, h => mem_freeVarsAll_of_abstract as h
  | poly ps b, h => by
    rw [Ty.abstract, freeVars, List.mem_filter] at h
    rcases mem_freeVars_of_abstract b h.1 with hb | hb
    · exact .inl (List.mem_filter.mpr ⟨hb, h.2⟩)
    · exact .inr hb
  | never, h => by simp [Ty.abstract, freeVars] at h
  | any, h => by simp [Ty.abstract, freeVars] at h

theorem mem_freeVarsAll_of_abstract {v : TyVar} :
    (ts : List Ty) → v ∈ freeVarsAll (abstractAll consts ts) →
      v ∈ freeVarsAll ts ∨ v ∈ consts.map Prod.snd
  | [], h => by simp [abstractAll, freeVarsAll] at h
  | t :: rest, h => by
    rw [abstractAll, freeVarsAll, List.mem_append] at h
    rw [freeVarsAll, List.mem_append]
    rcases h with h | h
    · exact (mem_freeVars_of_abstract t h).imp .inl id
    · exact (mem_freeVarsAll_of_abstract rest h).imp .inr id

end

end Ty

namespace Program

mutual

/-- Is the expression free of annotations that fit everywhere and of trusted declarations? -/
def Expr.plain : Expr → Bool
  | .call fn targs args _ => fn.plain && TypeExpr.plainAll targs && Expr.plainAll args
  | .arrow _ params ret body _ =>
    TypeExpr.plainParams params && ret.all TypeExpr.plain && body.plain
  | .paren e => e.plain
  | _ => true

/-- Are the expressions plain? -/
def Expr.plainAll : List Expr → Bool
  | [] => true
  | e :: rest => e.plain && Expr.plainAll rest

/-- Is the body plain? -/
def Body.plain : Body → Bool
  | .missing => true
  | .expr e => e.plain
  | .block stmts => Stmt.plainAll stmts

/-- Is the statement plain? -/
def Stmt.plain : Stmt → Bool
  | .const _ type value declare trusted _ _ =>
    !declare && !trusted && type.all TypeExpr.plain && value.plain
  | .expr e _ => e.plain
  | .ret e => e.plain
  | _ => true

/-- Are the statements plain? -/
def Stmt.plainAll : List Stmt → Bool
  | [] => true
  | s :: rest => s.plain && Stmt.plainAll rest

end

end Program

namespace Checker

variable {s s' : State} {k k' : Roles} {Γ : List Ty}

/-- The type fits, and holds in every solution in which the hypotheses hold. -/
structure Proves (Γ : List Ty) (k : Roles) (s : State) (t : Ty) : Prop where
  fits : t.Fits k s.unifier.counter
  holds : ∀ ρ, s.unifier.subst.Solves ρ → (∀ h ∈ Γ, h.holds ρ) → t.holds ρ

theorem Progress.proves (h : Progress k s k' s') {t : Ty} (ht : Proves Γ k s t) :
    Proves Γ k' s' t where
  fits := h.fits ht.fits
  holds ρ hρ := ht.holds ρ (h.extends_.solves ρ hρ)

/-- Hypotheses have no variables, the type parameters stand for rigid constants of their names, and
the types of all values follow from the hypotheses. -/
structure Scoped (Γ : List Ty) (k : Roles) (s : State) (sc : Scope) : Prop where
  hyps : ∀ h ∈ Γ, h.Shaped k s.unifier.counter ∧ h.freeVars = []
  values : ∀ scope ∈ sc.values, ∀ b ∈ scope, Proves Γ k s b.2
  types : ∀ b ∈ sc.types, ∃ i, b.2 = .rigid b.1 i ∧ i ≤ s.unifier.counter

theorem Progress.scoped (h : Progress k s k' s') {sc : Scope} (hsc : Scoped Γ k s sc) :
    Scoped Γ k' s' sc where
  hyps t ht := ⟨h.shaped (hsc.hyps t ht).1, (hsc.hyps t ht).2⟩
  values scope hscope b hb := h.proves (hsc.values scope hscope b hb)
  types b hb := by
    rcases hsc.types b hb with ⟨i, heq, hle⟩
    exact ⟨i, heq, Int.le_trans hle h.extends_.counter⟩

theorem Scoped.supported {sc : Scope} (h : Scoped Γ k s sc) :
    Supported k s.unifier.counter sc.types := by
  intro b hb
  rcases h.types b hb with ⟨i, heq, hle⟩
  rw [heq]
  exact ⟨hle, by simp [Ty.freeVars]⟩

/-- Where type parameters stand for constants, the type of an annotation has no free variables. -/
theorem Scoped.closed {sc : Scope} (h : Scoped Γ k s sc) {t : Ty} (ht : Over sc.types t) :
    t.freeVars = [] := by
  refine ht.closed fun b hb => ?_
  rcases h.types b hb with ⟨i, heq, -⟩
  rw [heq]
  rfl

theorem Scoped.declare {sc : Scope} (h : Scoped Γ k s sc) {name : String} {t : Ty}
    (ht : Proves Γ k s t) : Scoped Γ k s (sc.declare name t) where
  hyps := h.hyps
  types := h.types
  values := by
    intro scope hscope b hb
    cases hv : sc.values with
    | nil =>
      have hscope' : scope = [(name, t)] := by simpa [Scope.declare, TyEnv.add, hv] using hscope
      have hb' : b = (name, t) := by simpa [hscope'] using hb
      rw [hb']
      exact ht
    | cons top rest =>
      have hscope' : scope = (name, t) :: top.filter (fun b => b.1 ≠ name) ∨ scope ∈ rest := by
        simpa [Scope.declare, TyEnv.add, hv] using hscope
      rcases hscope' with rfl | hscope'
      · rcases List.mem_cons.mp hb with rfl | hb
        · exact ht
        · exact h.values top (by simp [hv]) b (List.mem_filter.mp hb).1
      · exact h.values scope (by simp [hv, hscope']) b hb

/-- Another block or function starts with an empty scope. -/
theorem Scoped.extend {sc : Scope} (h : Scoped Γ k s sc) {types : List (String × Ty)}
    (htypes : ∀ b ∈ types, ∃ i, b.2 = .rigid b.1 i ∧ i ≤ s.unifier.counter) :
    Scoped Γ k s (sc.extend types) where
  hyps := h.hyps
  values := by
    intro scope hscope b hb
    rcases List.mem_cons.mp hscope with rfl | hscope
    · simp at hb
    · exact h.values scope hscope b hb
  types := by
    intro b hb
    rcases List.mem_append.mp hb with hb | hb
    · exact htypes b (List.mem_reverse.mp hb)
    · exact h.types b hb

theorem Scoped.find {sc : Scope} (h : Scoped Γ k s sc) {name : String} {t : Ty}
    (ht : sc.values.find? name = some t) : Proves Γ k s t := by
  obtain ⟨scope, hscope, hfind⟩ := List.exists_of_findSome?_eq_some ht
  exact h.values scope hscope (name, t) (mem_of_lookup hfind)

/-! ## Steps of checking -/

theorem resolve_eq_ok {t u : Ty} (h : resolve t s = (.ok u, s')) :
    u = s.unifier.resolve t ∧ s = s' := by
  cases h
  exact ⟨rfl, rfl⟩

theorem Proves.resolve (h : s.unifier.Regular k) {t : Ty} (ht : Proves Γ k s t) :
    Proves Γ k s (s.unifier.resolve t) where
  fits := h.subst.fits_resolve ht.fits
  holds ρ hρ hΓ := by
    rw [Ty.holds, Unifier.resolve, h.subst.sense_resolve ht.fits hρ]
    exact ht.holds ρ hρ hΓ

/-- Nothing is objected to, and all types that were taken for equal are equal up to bound
variables. -/
structure Accepted (s : State) : Prop where
  clean : s.findings = []
  honest : ∀ p ∈ s.unifier.equated, p.1.alphaEq [] p.2 = true

theorem accepted_before {α : Type} {f : Checker α} {a : α} (hf : Moves Grows f)
    (h : f s = (.ok a, s')) (haccepted : Accepted s') : Accepted s := by
  have hgrows := hf s
  rw [h] at hgrows
  exact ⟨hgrows.clean haccepted.clean, fun p hp => haccepted.honest p (hgrows.equated hp)⟩

theorem assign_sound {src dst : Ty} (h : s.unifier.Regular k)
    (hsrc : src.Fits k s.unifier.counter) (hdst : dst.Fits k s.unifier.counter)
    (hassign : assign src dst s = (.ok (.ok ()), s')) (haccepted : Accepted s') :
    Progress k s k s' ∧ ∀ ρ, s'.unifier.subst.Solves ρ → src.holds ρ → dst.holds ρ := by
  obtain ⟨u, hu, rfl⟩ := assign_eq_ok hassign
  have hsound := Unify.assign_sound _ h hsrc hdst (Unifier.assign?_eq_ok.mp hu) haccepted.honest
  exact ⟨⟨fun _ _ => rfl, hsound.extends_, hsound.regular⟩, fun ρ hρ => (hsound.implies ρ hρ).1⟩

theorem expectType_sound {node : Node} {t want : Ty} {r : Unit} (h : s.unifier.Regular k)
    (ht : Proves Γ k s t) (hwant : want.Fits k s.unifier.counter)
    (hexpect : expectType node t want s = (.ok r, s')) (haccepted : Accepted s') :
    Progress k s k s' ∧ Proves Γ k s' want := by
  obtain ⟨result, s₁, hassign, hexpect⟩ := bind_eq_ok.mp hexpect
  cases result with
  | error e =>
    obtain ⟨_, s₂, hobject, hexpect⟩ := bind_eq_ok.mp hexpect
    obtain ⟨-, rfl⟩ := pure_eq_ok.mp hexpect
    exact absurd haccepted.clean (object_not_clean hobject)
  | ok =>
    obtain ⟨-, rfl⟩ := pure_eq_ok.mp hexpect
    rcases assign_sound h ht.fits hwant hassign haccepted with ⟨hprogress, himplies⟩
    refine ⟨hprogress, hprogress.fits hwant, ?_⟩
    intro ρ hρ hΓ
    exact himplies ρ hρ (ht.holds ρ (hprogress.extends_.solves ρ hρ) hΓ)

theorem instantiateUpTo_sound {n : Nat} {t u : Ty} (h : s.unifier.Regular k) (ht : Proves Γ k s t)
    (hrun : instantiateUpTo n t s = (.ok u, s')) : Progress k s k s' ∧ Proves Γ k s' u := by
  induction n generalizing s t with
  | zero =>
    obtain ⟨rfl, rfl⟩ := pure_eq_ok.mp hrun
    exact ⟨.refl h, ht⟩
  | succ n ih =>
    cases t with
    | poly params body =>
      rw [instantiateUpTo, get_bind] at hrun
      dsimp only at hrun
      rw [set_bind] at hrun
      rcases h.instantiate ht.fits with ⟨hregular, hextends, hfits, hinstance⟩
      have hprogress : Progress k s k { s with unifier := (s.unifier.instantiate params body).2 } :=
        ⟨fun _ _ => rfl, hextends, hregular⟩
      have hproves : Proves Γ k { s with unifier := (s.unifier.instantiate params body).2 }
          (s.unifier.instantiate params body).1 := by
        refine ⟨hfits, ?_⟩
        intro ρ hρ hΓ
        exact (hinstance ρ).1 (ht.holds ρ (hextends.solves ρ hρ) hΓ)
      rcases ih hregular hproves hrun with ⟨hprogress', hproves'⟩
      exact ⟨hprogress.trans hprogress', hproves'⟩
    | _ =>
      obtain ⟨rfl, rfl⟩ := pure_eq_ok.mp hrun
      exact ⟨.refl h, ht⟩

theorem explicitInstance_sound {sc : Scope} {node : Node} {t u : Ty} {targs : List TypeExpr}
    (h : s.unifier.Regular k) (hsc : Scoped Γ k s sc) (ht : Proves Γ k s t)
    (hplain : TypeExpr.plainAll targs = true)
    (hrun : explicitInstance node sc.types t targs s = (.ok u, s')) (hclean : s'.findings = []) :
    ∃ k', Progress k s k' s' ∧ Proves Γ k' s' u := by
  generalize hcomp : explicitInstance node sc.types t targs = comp at hrun
  unfold explicitInstance at hcomp
  split at hcomp
  · subst hcomp
    obtain ⟨rfl, rfl⟩ := pure_eq_ok.mp hrun
    exact ⟨k, .refl h, ht⟩
  · exact ht.fits.shaped.elim
  · rename_i params body _
    split at hcomp
    · rename_i hlen
      subst hcomp
      obtain ⟨ts, s₁, hts, hrun⟩ := bind_eq_ok.mp hrun
      obtain ⟨rfl, rfl⟩ := pure_eq_ok.mp hrun
      rcases toTypes_sound h hsc.supported hclean targs hplain hts with ⟨k', hprogress, hreads⟩
      have hlen' : params.length = ts.length := by rw [hlen, hreads.length]
      have hclosed : ∀ a ∈ ts, a.freeVars = [] := fun a ha => hsc.closed (hreads.free a ha)
      have hfits := hprogress.fits ht.fits
      refine ⟨k', hprogress, ?_, ?_⟩
      · refine Ty.Fits.instantiateWith hlen' hfits (Int.le_refl _) ?_
        exact fun a ha => ⟨hreads.shaped a ha, by simp [hclosed a ha]⟩
      · intro ρ hρ hΓ
        refine (Ty.sense_poly_le hlen' hfits.shaped.2 ?_ ρ).1
          (ht.holds ρ (hprogress.extends_.solves ρ hρ) hΓ)
        intro a ha w hw
        simp [hclosed a ha] at hw
    · subst hcomp
      exact absurd hclean (object_not_clean hrun)
  · subst hcomp
    exact absurd hclean (object_not_clean hrun)

theorem freshSignature_sound {n : Nat} {param : Option Ty} {ret : Ty} (h : s.unifier.Regular k)
    (hrun : freshSignature n s = (.ok (param, ret), s')) :
    Progress k s k s' ∧ (Ty.func param ret).Fits k s'.unifier.counter := by
  have hfresh : ∀ {s s' : State} {v : TyVar}, s.unifier.Regular k → fresh s = (.ok v, s') →
      Progress k s k s' ∧ (Ty.var v).Fits k s'.unifier.counter := by
    intro s s' v h hv
    obtain ⟨rfl, rfl⟩ := fresh_eq_ok hv
    refine ⟨⟨fun _ _ => rfl, ⟨by simp only [Unifier.fresh]; lia, fun _ hρ => hρ, fun _ hp => hp⟩,
      h.advance (by lia)⟩, ?_⟩
    rw [Ty.fits_var]
    exact ⟨h.fresh _ (by lia), Int.le_refl _⟩
  unfold freshSignature at hrun
  dsimp only at hrun
  split at hrun
  · obtain ⟨_, s₁, hparam, hrun⟩ := bind_eq_ok.mp hrun
    obtain ⟨rfl, rfl⟩ := pure_eq_ok.mp hparam
    obtain ⟨v, s₂, hv, hrun⟩ := bind_eq_ok.mp hrun
    obtain ⟨heq, rfl⟩ := pure_eq_ok.mp hrun
    cases heq
    rcases hfresh h hv with ⟨hprogress, hfits⟩
    exact ⟨hprogress, Ty.fits_thunk.mpr hfits⟩
  · obtain ⟨p, s₁, hp, hrun⟩ := bind_eq_ok.mp hrun
    obtain ⟨_, s₂, hparam, hrun⟩ := bind_eq_ok.mp hrun
    obtain ⟨rfl, rfl⟩ := pure_eq_ok.mp hparam
    obtain ⟨v, s₃, hv, hrun⟩ := bind_eq_ok.mp hrun
    obtain ⟨heq, rfl⟩ := pure_eq_ok.mp hrun
    cases heq
    rcases hfresh h hp with ⟨hprogress, hpfits⟩
    rcases hfresh hprogress.regular hv with ⟨hprogress', hvfits⟩
    exact ⟨hprogress.trans hprogress', Ty.fits_fn.mpr ⟨hprogress'.fits hpfits, hvfits⟩⟩

theorem callResult_sound {node argNode : Node} {param : Option Ty} {ret u : Ty} {args : List Ty}
    (h : s.unifier.Regular k) (hfn : Proves Γ k s (.func param ret))
    (hargs : ∀ a ∈ args, Proves Γ k s a)
    (hrun : callResult node argNode param ret args s = (.ok u, s')) (haccepted : Accepted s') :
    Progress k s k s' ∧ Proves Γ k s' u := by
  generalize hcomp : callResult node argNode param ret args = comp at hrun
  unfold callResult at hcomp
  split at hcomp
  · subst hcomp
    obtain ⟨rfl, rfl⟩ := resolve_eq_ok hrun
    have hret : Proves Γ k s ret := ⟨Ty.fits_thunk.mp hfn.fits, hfn.holds⟩
    exact ⟨.refl h, hret.resolve h⟩
  · rename_i p a
    subst hcomp
    rcases Ty.fits_fn.mp hfn.fits with ⟨hpfits, hrfits⟩
    have ha := hargs a (by simp)
    obtain ⟨result, s₁, hassign, hrun⟩ := bind_eq_ok.mp hrun
    cases result with
    | ok =>
      obtain ⟨rfl, rfl⟩ := resolve_eq_ok hrun
      rcases assign_sound h ha.fits hpfits hassign haccepted with ⟨hprogress, himplies⟩
      have hret : Proves Γ k s₁ ret := by
        refine ⟨hprogress.fits hrfits, ?_⟩
        intro ρ hρ hΓ
        have hρ' := hprogress.extends_.solves ρ hρ
        exact hfn.holds ρ hρ' hΓ (himplies ρ hρ (ha.holds ρ hρ' hΓ))
      exact ⟨hprogress, hret.resolve hprogress.regular⟩
    | error e =>
      have hobjects : ∃ o s₂ s₃ t, object argNode o s₂ = (.ok t, s₃) ∧ s₃ = s' := by
        cases e with
        | mismatch x y =>
          obtain ⟨_, s₂, hfirst, hrun⟩ := bind_eq_ok.mp hrun
          obtain ⟨_, s₃, hsecond, hrun⟩ := bind_eq_ok.mp hrun
          obtain ⟨_, s₄, hobject, hrun⟩ := bind_eq_ok.mp hrun
          obtain ⟨-, rfl⟩ := resolve_eq_ok hrun
          exact ⟨_, _, _, _, hobject, rfl⟩
        | _ =>
          obtain ⟨_, s₂, hobject, hrun⟩ := bind_eq_ok.mp hrun
          obtain ⟨-, rfl⟩ := resolve_eq_ok hrun
          exact ⟨_, _, _, _, hobject, rfl⟩
      rcases hobjects with ⟨o, s₂, s₃, t, hobject, rfl⟩
      exact absurd haccepted.clean (object_not_clean hobject)
  · subst hcomp
    exact absurd haccepted.clean (object_not_clean hrun)

end Checker

end ProofScript
