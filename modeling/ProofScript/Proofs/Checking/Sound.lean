import ProofScript.Proofs.Checking.Steps

/-!
# Sound checking

The body of an arrow is checked where the types of its parameters are assumed and new constants
stand for its type parameters; what is proved there holds for all propositions in their place. So
every expression that is accepted has a type that follows from the hypotheses, and every statement
that is accepted leaves a scope whose types do.
-/

namespace ProofScript

open Program Stateful

namespace Checker

variable {s s' : State} {k k' : Roles} {Γ : List Ty}

/-! ## Type parameters of arrows -/

/-- A type parameter of an arrow: its name, the number of the variable that is bound in the arrow's
type, and the number of the constant that stands for it in the body. -/
abbrev Generic := String × TyVar × TyVar

/-- The numbers of the variables. -/
abbrev Generic.vars (gs : List Generic) : List TyVar := gs.map fun g => g.2.1

/-- Every type parameter gets two new numbers. -/
theorem generics_eq_ok {names : List String} {gs : List Generic}
    (h : (names.mapM fun name => do
      let v ← fresh
      let id ← fresh
      return (name, v, id) : Checker (List Generic)) s = (.ok gs, s')) :
    ∃ n, s.unifier.counter ≤ n ∧ s' = { s with unifier := { s.unifier with counter := n } } ∧
      gs.map Prod.fst = names ∧
      ∀ g ∈ gs, (s.unifier.counter < g.2.1 ∧ g.2.1 ≤ n) ∧ s.unifier.counter < g.2.2 ∧ g.2.2 ≤ n := by
  induction names generalizing s gs with
  | nil =>
    obtain ⟨rfl, rfl⟩ := pure_eq_ok.mp h
    exact ⟨s.unifier.counter, Int.le_refl _, rfl, rfl, by simp⟩
  | cons name rest ih =>
    rw [List.mapM_cons] at h
    obtain ⟨g, s₁, hg, h⟩ := bind_eq_ok.mp h
    obtain ⟨v, s₂, hv, hg⟩ := bind_eq_ok.mp hg
    obtain ⟨i, s₃, hi, hg⟩ := bind_eq_ok.mp hg
    obtain ⟨rfl, rfl⟩ := pure_eq_ok.mp hg
    obtain ⟨more, s₄, hmore, h⟩ := bind_eq_ok.mp h
    obtain ⟨rfl, rfl⟩ := pure_eq_ok.mp h
    obtain ⟨rfl, rfl⟩ := fresh_eq_ok hv
    obtain ⟨rfl, rfl⟩ := fresh_eq_ok hi
    rcases ih hmore with ⟨n, hn, hs, hnames, hbound⟩
    simp only [Unifier.fresh] at hn hs hbound ⊢
    refine ⟨n, by lia, hs, by simp [hnames], ?_⟩
    intro g hg
    rcases List.mem_cons.mp hg with rfl | hg
    · dsimp only
      lia
    · have hbound := hbound g hg
      lia

/-- Numbers that were set aside may become binders. -/
theorem Fits.mark {c : TyVar} {vs : List TyVar} (hvs : ∀ v ∈ vs, k v = .reserved) {t : Ty}
    (ht : t.Fits k c) : t.Fits (k.mark vs .bound) c where
  shaped := by
    refine Ty.Shaped.mono (Int.le_refl _) ?_ t ht.shaped
    intro v _ hv
    by_cases hmem : v ∈ vs
    · exact Roles.mark_of_mem hmem
    · rw [Roles.mark_of_not_mem hmem, hv]
  free := by
    intro v hv
    rcases ht.free v hv with ⟨hflex, hle⟩
    refine ⟨?_, hle⟩
    rw [Roles.mark_of_not_mem, hflex]
    intro hmem
    rw [hvs v hmem] at hflex
    cases hflex

theorem Regular.bind {u : Unifier} {vs : List TyVar} (h : u.Regular k)
    (hvs : ∀ v ∈ vs, k v = .reserved) : u.Regular (k.mark vs .bound) where
  subst :=
    { acyclic := h.subst.acyclic
      fits := fun v t hv => ⟨(h.subst.fits v t hv).1, Fits.mark hvs (h.subst.fits v t hv).2⟩ }
  fresh v hv := by
    have hflex := h.fresh v hv
    rw [Roles.mark_of_not_mem, hflex]
    intro hmem
    rw [hvs v hmem] at hflex
    cases hflex
  nonneg := h.nonneg

namespace Generic

/-- The constants of type parameters with the variables that they become. -/
abbrev consts (gs : List Generic) : List ((String × TyVar) × TyVar) :=
  gs.map fun g => ((g.1, g.2.2), g.2.1)

theorem mem_vars_of_mem_consts {gs : List Generic} {b : (String × TyVar) × TyVar}
    (h : b ∈ consts gs) : b.2 ∈ vars gs := by
  rcases List.mem_map.mp h with ⟨g, hg, rfl⟩
  exact List.mem_map_of_mem (f := fun g => g.2.1) hg

/-- Constants with new numbers only become variables. -/
theorem lookup_consts {gs : List Generic} {c : TyVar} (hgs : ∀ g ∈ gs, c < g.2.2) {n : String}
    {i : TyVar} (hi : i ≤ c) : (consts gs).lookup (n, i) = none := by
  cases hl : (consts gs).lookup (n, i) with
  | none => rfl
  | some v =>
    rcases List.mem_map.mp (mem_of_lookup hl) with ⟨g, hg, heq⟩
    cases heq
    have hlt := hgs g hg
    lia

/-- The interpretation in which the constants of type parameters mean what `f` says of their
variables. -/
def interpret (gs : List Generic) (ρ : Valuation) (f : TyVar → Sense) : Valuation :=
  ⟨ρ.vars, fun n i => ((consts gs).lookup (n, i)).elim (ρ.consts n i) f⟩

theorem const_interpret {gs : List Generic} {c : TyVar} (hgs : ∀ g ∈ gs, c < g.2.2) (hc : 0 ≤ c)
    (ρ : Valuation) (f : TyVar → Sense) (n : String) (i : TyVar) :
    ((consts gs).lookup (n, i)).elim ((ρ.rebind (vars gs) f).const n i) (ρ.rebind (vars gs) f).vars =
      (interpret gs ρ f).const n i := by
  rw [Valuation.const, Valuation.const, interpret]
  dsimp only
  cases hl : (consts gs).lookup (n, i) with
  | none => rfl
  | some v =>
    have hpos : i ≠ 0 := by
      intro hi
      rw [lookup_consts hgs (by lia)] at hl
      cases hl
    rw [Option.elim_some, Option.elim_some,
      Valuation.rebind_vars_of_mem (mem_vars_of_mem_consts (mem_of_lookup hl))]
    simp [hpos]

end Generic

/-- A resolved type is as true for all propositions in the place of new constants as it is for the
constants: no hypothesis and no variable that is free in it depends on them. -/
theorem Proves.generalize {c : TyVar} {gs : List Generic} {t : Ty} (h : s.unifier.Regular k)
    (hc : 0 ≤ c) (hΓ : ∀ h ∈ Γ, h.Shaped k c ∧ h.freeVars = [])
    (hgs : ∀ g ∈ gs, k g.2.1 = .reserved ∧ g.2.1 ≤ s.unifier.counter ∧ c < g.2.2)
    (ht : Proves Γ k s t) :
    Proves Γ (k.mark (Generic.vars gs) .bound) s
      (.poly (gs.map fun g => (g.1, g.2.1))
        ((s.unifier.resolve t).abstract (Generic.consts gs))) := by
  have hnew : ∀ g ∈ gs, c < g.2.2 := fun g hg => (hgs g hg).2.2
  have hreserved : ∀ v ∈ Generic.vars gs, k v = .reserved := by
    intro v hv
    rcases List.mem_map.mp hv with ⟨g, hg, rfl⟩
    exact (hgs g hg).1
  have hresolved := ht.resolve h
  have hfits := hresolved.fits
  have hsnd : (gs.map fun g => (g.1, g.2.1)).map Prod.snd = Generic.vars gs := by
    rw [List.map_map]
    rfl
  refine ⟨⟨⟨?_, ?_⟩, ?_⟩, ?_⟩
  · intro p hp
    rcases List.mem_map.mp hp with ⟨g, hg, rfl⟩
    exact ⟨Roles.mark_of_mem (List.mem_map_of_mem (f := fun g => g.2.1) hg), (hgs g hg).2.1⟩
  · exact Ty.Shaped.abstract _ (Fits.mark hreserved hfits).shaped
  · intro v hv
    rw [Ty.freeVars, List.mem_filter, hsnd] at hv
    rcases Ty.mem_freeVars_of_abstract _ hv.1 with hfree | hmem
    · exact (Fits.mark hreserved hfits).free v hfree
    · rcases List.mem_map.mp hmem with ⟨b, hb, rfl⟩
      exact absurd (Generic.mem_vars_of_mem_consts hb) (by simpa using hv.2)
  · intro ρ hρ hholds
    rw [Ty.holds_poly, hsnd]
    intro f
    -- the bindings are solved with other meanings of the constants, too
    rcases h.subst.acyclic.exists_solution (Generic.interpret gs ρ f) with ⟨ρ', hρ', hconsts, hvars⟩
    have hconst : ∀ n i, ((Generic.consts gs).lookup (n, i)).elim
        ((ρ.rebind (Generic.vars gs) f).const n i) (ρ.rebind (Generic.vars gs) f).vars =
          ρ'.const n i := by
      intro n i
      rw [Generic.const_interpret hnew hc, Valuation.const, Valuation.const, hconsts]
    rw [Ty.holds, Ty.sense_abstract (k := k) (c := s.unifier.counter) ?_ hconst _ hfits.shaped ?_]
    · refine hresolved.holds ρ' hρ' ?_
      intro t ht
      have hsame : t.sense ρ' = t.sense ρ := by
        refine Ty.sense_congr t (by simp [(hΓ t ht).2]) ?_
        intro n i hmentions
        rw [← hconst n i, Generic.lookup_consts hnew (Ty.Shaped.mentions t (hΓ t ht).1 hmentions)]
        rfl
      rw [Ty.holds, hsame]
      exact hholds t ht
    · intro b hb
      rw [hreserved _ (Generic.mem_vars_of_mem_consts hb)]
      decide
    · intro v hv
      have hunbound : s.unifier.subst.find? v = none := by
        by_contra hbound
        exact List.not_mem_nil (h.subst.acyclic.resolve_within t v hv hbound)
      have hunreserved : v ∉ Generic.vars gs := by
        intro hmem
        have hflex := (hfits.free v hv).1
        rw [hreserved v hmem] at hflex
        cases hflex
      rw [Valuation.rebind_vars_of_not_mem hunreserved, hvars v hunbound]
      rfl

/-! ## Arrows -/

theorem Proves.weaken {Δ : List Ty} {t : Ty} (h : Proves Γ k s t) : Proves (Δ ++ Γ) k s t where
  fits := h.fits
  holds ρ hρ hΓ := h.holds ρ hρ fun u hu => hΓ u (List.mem_append_right _ hu)

theorem Proves.hypothesis {t : Ty} (hmem : t ∈ Γ) (ht : t.Fits k s.unifier.counter) :
    Proves Γ k s t :=
  ⟨ht, fun _ _ hΓ => hΓ t hmem⟩

/-- Types without free variables may be assumed. -/
theorem Scoped.assume {sc : Scope} {Δ : List Ty} (h : Scoped Γ k s sc)
    (hΔ : ∀ t ∈ Δ, t.Shaped k s.unifier.counter ∧ t.freeVars = []) : Scoped (Δ ++ Γ) k s sc where
  hyps := by
    intro t ht
    rcases List.mem_append.mp ht with ht | ht
    · exact hΔ t ht
    · exact h.hyps t ht
  values scope hscope b hb := (h.values scope hscope b hb).weaken
  types := h.types

/-- The scope with parameters and their types. -/
abbrev Scope.declareAll (sc : Scope) (bs : List (Param × Ty)) : Scope :=
  bs.foldl (fun sc (p, t) => sc.declare p.1 t) sc

theorem Scoped.declareAll {sc : Scope} {bs : List (Param × Ty)} (h : Scoped Γ k s sc)
    (hbs : ∀ b ∈ bs, Proves Γ k s b.2) :
    Scoped Γ k s (sc.declareAll bs) ∧ (sc.declareAll bs).types = sc.types := by
  induction bs generalizing sc with
  | nil => exact ⟨h, rfl⟩
  | cons b bs ih =>
    have hfirst : Scoped Γ k s (sc.declare b.1.1 b.2) := h.declare (hbs b (by simp))
    exact ih hfirst fun b hb => hbs b (by simp [hb])

/-- What is known where the body of an arrow is checked: the types of its parameters are assumed,
its type parameters stand for new constants, and the types say what their annotations say. -/
structure Opened (Γ : List Ty) (k : Roles) (s : State) (sc : Scope) (tparams : List String)
    (params : List Param) (ret : Option TypeExpr) (gs : List Generic) (args : List Ty)
    (expected : Option Ty) (k' : Roles) (s' : State) (inner : Scope) : Prop where
  progress : Progress k s k' s'
  inScope : Scoped (args ++ Γ) k' s' inner
  names : gs.map Prod.fst = tparams
  types : inner.types = (gs.map fun g => (g.1, Ty.rigid g.1 g.2.2)).reverse ++ sc.types
  params : ReadsAll inner.types (params.map Prod.snd) k' s' args
  single : args.length ≤ 1
  ret : ReadsAll inner.types ret.toList k' s' expected.toList
  generics : ∀ g ∈ gs, k' g.2.1 = .reserved ∧ g.2.1 ≤ s'.unifier.counter ∧
    s.unifier.counter < g.2.1 ∧ s.unifier.counter < g.2.2

/-- The type parameters of an arrow get numbers, and their constants come into scope. -/
theorem generics_sound {sc : Scope} {tparams : List String} {gs : List Generic}
    (h : s.unifier.Regular k) (hsc : Scoped Γ k s sc)
    (hrun : (tparams.mapM fun name => do
      let v ← fresh
      let id ← fresh
      return (name, v, id) : Checker (List Generic)) s = (.ok gs, s')) :
    gs.map Prod.fst = tparams ∧ ∃ k', Progress k s k' s' ∧
      Scoped Γ k' s' (sc.extend (gs.map fun g => (g.1, Ty.rigid g.1 g.2.2))) ∧
      ∀ g ∈ gs, k' g.2.1 = .reserved ∧ g.2.1 ≤ s'.unifier.counter ∧
        s.unifier.counter < g.2.1 ∧ s.unifier.counter < g.2.2 := by
  rcases generics_eq_ok hrun with ⟨n, hn, rfl, hnames, hbound⟩
  have hnew : ∀ v ∈ Generic.vars gs, s.unifier.counter < v ∧ v ≤ n := by
    intro v hv
    rcases List.mem_map.mp hv with ⟨g, hg, rfl⟩
    exact (hbound g hg).1
  have hprogress : Progress k s (k.mark (Generic.vars gs) .reserved)
      { s with unifier := { s.unifier with counter := n } } := by
    refine ⟨?_, ⟨hn, fun _ hρ => hρ, fun _ hp => hp⟩, h.mark hn hnew .reserved⟩
    intro v hv
    refine Roles.mark_of_not_mem ?_
    intro hmem
    have hlt := (hnew v hmem).1
    lia
  refine ⟨hnames, _, hprogress, (hprogress.scoped hsc).extend ?_, ?_⟩
  · intro b hb
    rcases List.mem_map.mp hb with ⟨g, hg, rfl⟩
    exact ⟨g.2.2, rfl, (hbound g hg).2.2⟩
  · intro g hg
    have hmem : g.2.1 ∈ Generic.vars gs := List.mem_map_of_mem (f := fun g => g.2.1) hg
    exact ⟨Roles.mark_of_mem hmem, (hbound g hg).1.2, (hbound g hg).1.1, (hbound g hg).2.1⟩

/-- The return annotation of an arrow, if there is one. -/
theorem toReturnType_sound {types : List (String × Ty)} {node : Node} {ret : Option TypeExpr}
    {expected : Option Ty} (h : s.unifier.Regular k) (htypes : Supported k s.unifier.counter types)
    (hrun : match ret with
      | none => expected = none ∧ s = s'
      | some te => ∃ t, expected = some t ∧ toType node types te s = (.ok t, s'))
    (hplain : ret.all TypeExpr.plain = true) (hclean : s'.findings = []) :
    ∃ k', Progress k s k' s' ∧ ReadsAll types ret.toList k' s' expected.toList := by
  cases ret with
  | none =>
    rcases hrun with ⟨rfl, rfl⟩
    exact ⟨k, .refl h, rfl, by simp, by simp, trivial, fun _ => rfl⟩
  | some te =>
    rcases hrun with ⟨t, rfl, hrun⟩
    rcases toType_sound h htypes hclean te hplain hrun with ⟨k', hprogress, hreads⟩
    exact ⟨k', hprogress, .cons hreads ⟨rfl, by simp, by simp, trivial, fun _ => rfl⟩⟩

/-- The type of an arrow whose body has the type `result`. -/
abbrev arrowType (u : Unifier) (gs : List Generic) (args : List Ty) (result : Ty) : Ty :=
  if gs.isEmpty then u.resolve (.func args.head? result)
  else .poly (gs.map fun g => (g.1, g.2.1))
    ((u.resolve (.func args.head? result)).abstract (Generic.consts gs))

/-- The scope in which the body of an arrow is checked. -/
abbrev Scope.inArrow (sc : Scope) (gs : List Generic) (params : List Param) (args : List Ty) : Scope :=
  (sc.extend (gs.map fun g => (g.1, Ty.rigid g.1 g.2.2))).declareAll (params.zip args)

theorem infer_arrow_eq_ok {sc : Scope} {n : Nat} {tparams : List String} {params : List Param}
    {ret : Option TypeExpr} {b : Body} {o : Option Location} {t : Ty}
    (hrun : infer sc n (.arrow tparams params ret b o) s = (.ok t, s')) (hclean : s'.findings = []) :
    ∃ gs s₁ args s₂ expected s₃ r,
      (tparams.mapM fun name => do
        let v ← fresh
        let id ← fresh
        return (name, v, id) : Checker (List Generic)) s = (.ok gs, s₁) ∧
      params.length ≤ 1 ∧
      toParamTypes ⟨n, o⟩ (sc.extend (gs.map fun g => (g.1, Ty.rigid g.1 g.2.2))).types params s₁ =
        (.ok args, s₂) ∧
      (match ret with
        | none => expected = none ∧ s₂ = s₃
        | some te => ∃ t, expected = some t ∧
            toType ⟨n, o⟩ (sc.inArrow gs params args).types te s₂ = (.ok t, s₃)) ∧
      body (sc.inArrow gs params args) ⟨n, o⟩ expected (n + 1) b s₃ = (.ok r, s') ∧
      t = arrowType s'.unifier gs args (expected.getD r) := by
  unfold infer at hrun
  obtain ⟨gs, s₁, hgs, hrun⟩ := bind_eq_ok.mp hrun
  dsimp only at hrun
  split at hrun
  · exact absurd hclean (object_not_clean hrun)
  rename_i hlen
  obtain ⟨args, s₂, hargs, hrun⟩ := bind_eq_ok.mp hrun
  cases ret with
  | none =>
    obtain ⟨r, s₃, hbody, hrun⟩ := bind_eq_ok.mp hrun
    obtain ⟨f, s₄, hf, hrun⟩ := bind_eq_ok.mp hrun
    obtain ⟨rfl, rfl⟩ := resolve_eq_ok hf
    obtain ⟨rfl, rfl⟩ := pure_eq_ok.mp hrun
    exact ⟨gs, s₁, args, s₂, none, s₂, r, hgs, Nat.not_lt.mp hlen, hargs, ⟨rfl, rfl⟩, hbody, rfl⟩
  | some te =>
    obtain ⟨want, s₃, hwant, hrun⟩ := bind_eq_ok.mp hrun
    obtain ⟨r, s₄, hbody, hrun⟩ := bind_eq_ok.mp hrun
    obtain ⟨_, _, hpure, hrun⟩ := bind_eq_ok.mp hrun
    obtain ⟨rfl, rfl⟩ := pure_eq_ok.mp hpure
    obtain ⟨f, s₅, hf, hrun⟩ := bind_eq_ok.mp hrun
    obtain ⟨rfl, rfl⟩ := resolve_eq_ok hf
    obtain ⟨rfl, rfl⟩ := pure_eq_ok.mp hrun
    exact ⟨gs, s₁, args, s₂, some want, s₃, r, hgs, Nat.not_lt.mp hlen, hargs, ⟨want, rfl, hwant⟩,
      hbody, rfl⟩

/-- The body of an arrow is checked where its parameters are assumed. -/
theorem infer_arrow {sc : Scope} {n : Nat} {tparams : List String} {params : List Param}
    {ret : Option TypeExpr} {b : Body} {o : Option Location} {t : Ty} (h : s.unifier.Regular k)
    (hsc : Scoped Γ k s sc) (hparams : TypeExpr.plainParams params = true)
    (hret : ret.all TypeExpr.plain = true)
    (hrun : infer sc n (.arrow tparams params ret b o) s = (.ok t, s')) (hclean : s'.findings = []) :
    ∃ gs args expected k₁ s₁ inner r, Opened Γ k s sc tparams params ret gs args expected k₁ s₁ inner ∧
      body inner ⟨n, o⟩ expected (n + 1) b s₁ = (.ok r, s') ∧
      t = arrowType s'.unifier gs args (expected.getD r) := by
  rcases infer_arrow_eq_ok hrun hclean with
    ⟨gs, s₁, args, s₂, expected, s₃, r, hgs, hlen, hargs, hexpected, hbody, ht⟩
  have hclean₃ : s₃.findings = [] := clean_before (body_grows _ _ _ _ b) hbody hclean
  have hclean₂ : s₂.findings = [] := by
    cases ret with
    | none =>
      rcases hexpected with ⟨-, rfl⟩
      exact hclean₃
    | some te =>
      rcases hexpected with ⟨want, -, hwant⟩
      exact clean_before (toType_grows _ _ te) hwant hclean₃
  rcases generics_sound h hsc hgs with ⟨hnames, k₁, hprogress, hscoped, hgenerics⟩
  rcases toParamTypes_sound hprogress.regular hscoped.supported hclean₂ params hparams hargs with
    ⟨k₂, hprogress₂, hreads⟩
  have hclosed : ∀ a ∈ args, a.Shaped k₂ s₂.unifier.counter ∧ a.freeVars = [] :=
    fun a ha => ⟨hreads.shaped a ha, hscoped.closed (hreads.free a ha)⟩
  have hdeclared : ∀ b ∈ params.zip args, Proves (args ++ Γ) k₂ s₂ b.2 := by
    intro b hb
    have hmem : b.2 ∈ args := (List.of_mem_zip hb).2
    refine .hypothesis (List.mem_append_left _ hmem) ⟨(hclosed _ hmem).1, ?_⟩
    simp [(hclosed _ hmem).2]
  rcases ((hprogress₂.scoped hscoped).assume hclosed).declareAll hdeclared with ⟨hinner, htypes⟩
  rcases toReturnType_sound hprogress₂.regular hinner.supported hexpected hret hclean₃ with
    ⟨k₃, hprogress₃, hwant⟩
  have hlater := hprogress₂.trans hprogress₃
  refine ⟨gs, args, expected, k₃, s₃, _, r, ?_, hbody, ht⟩
  refine ⟨hprogress.trans hlater, hprogress₃.scoped hinner, hnames, htypes, ?_, ?_, hwant, ?_⟩
  · rw [htypes]
    exact hprogress₃.readsAll hreads
  · rw [hreads.length, List.length_map]
    exact hlen
  · intro g hg
    rcases hgenerics g hg with ⟨hreserved, hle, hlt⟩
    refine ⟨?_, Int.le_trans hle hlater.extends_.counter, hlt⟩
    rw [hlater.roles _ hle, hreserved]

theorem Opened.expected {sc inner : Scope} {tparams : List String} {params : List Param}
    {ret : Option TypeExpr} {gs : List Generic} {args : List Ty} {expected : Option Ty}
    (h : Opened Γ k s sc tparams params ret gs args expected k' s' inner) :
    ∀ want ∈ expected, want.Fits k' s'.unifier.counter := by
  intro want hwant
  have hmem : want ∈ expected.toList := Option.mem_toList.mpr hwant
  exact ⟨h.ret.shaped want hmem, by simp [h.inScope.closed (h.ret.free want hmem)]⟩

/-- The type of an arrow is proved if its result is where its parameters are assumed. -/
theorem Opened.close {sc inner : Scope} {tparams : List String} {params : List Param}
    {ret : Option TypeExpr} {gs : List Generic} {args : List Ty} {expected : Option Ty}
    {k₁ : Roles} {s₁ : State} {result : Ty} (hsc : Scoped Γ k s sc) (h : s.unifier.Regular k)
    (hopened : Opened Γ k s sc tparams params ret gs args expected k₁ s₁ inner)
    (hprogress : Progress k₁ s₁ k' s') (hresult : Proves (args ++ Γ) k' s' result) :
    ∃ k'', Progress k s k'' s' ∧ Proves Γ k'' s' (arrowType s'.unifier gs args result) := by
  have hall := hopened.progress.trans hprogress
  have hfunc : Proves Γ k' s' (.func args.head? result) := by
    have hsingle := hopened.single
    match args, hopened, hsingle with
    | [], _, _ => exact ⟨Ty.fits_thunk.mpr hresult.fits, hresult.holds⟩
    | [a], hopened, _ =>
      have ha := hprogress.fits
        ⟨hopened.params.shaped a (by simp), by simp [(hopened.inScope.hyps a (by simp)).2]⟩
      refine ⟨Ty.fits_fn.mpr ⟨ha, hresult.fits⟩, ?_⟩
      intro ρ hρ hΓ hhyp
      refine hresult.holds ρ hρ ?_
      intro t ht
      rcases List.mem_cons.mp ht with rfl | ht
      · exact hhyp
      · exact hΓ t ht
  unfold arrowType
  split
  · exact ⟨k', hall, hfunc.resolve hall.regular⟩
  · have hgs : ∀ g ∈ gs, k' g.2.1 = .reserved ∧ g.2.1 ≤ s'.unifier.counter ∧
        s.unifier.counter < g.2.2 := by
      intro g hg
      rcases hopened.generics g hg with ⟨hreserved, hle, -, hlt⟩
      exact ⟨by rw [hprogress.roles _ hle, hreserved],
        Int.le_trans hle hprogress.extends_.counter, hlt⟩
    have hΓ : ∀ t ∈ Γ, t.Shaped k' s.unifier.counter ∧ t.freeVars = [] := by
      intro t ht
      refine ⟨Ty.Shaped.mono (Int.le_refl _) ?_ t (hsc.hyps t ht).1, (hsc.hyps t ht).2⟩
      intro v hv hbound
      rw [hall.roles v hv, hbound]
    have hreserved : ∀ v ∈ Generic.vars gs, k' v = .reserved := by
      intro v hv
      rcases List.mem_map.mp hv with ⟨g, hg, rfl⟩
      exact (hgs g hg).1
    refine ⟨_, ⟨?_, hall.extends_, Regular.bind hall.regular hreserved⟩,
      hfunc.generalize hall.regular h.nonneg hΓ hgs⟩
    intro v hv
    rw [Roles.mark_of_not_mem, hall.roles v hv]
    intro hmem
    rcases List.mem_map.mp hmem with ⟨g, hg, rfl⟩
    have hlt := (hopened.generics g hg).2.2.1
    lia

/-! ## Expressions, bodies and statements -/

theorem unsupportedExpr_not_clean (n : Nat) (e : Expr) {t : Ty}
    (h : (match e.print with
      | .ok shown => object ⟨n, e.origin?⟩ (.unsupportedExpr shown)
      | .error g => throw (.gap g) : Checker Ty) s = (.ok t, s')) : s'.findings ≠ [] := by
  generalize e.print = printed at h
  cases printed with
  | ok shown => exact object_not_clean h
  | error g => exact absurd h throw_ne_ok

/-- The value that a body returns is checked against the expected type, if there is one. -/
theorem returned_sound {mid : State} {node : Node} {t u : Ty} {expected : Option Ty}
    (hrun : returned node expected t mid = (.ok u, s')) (haccepted : Accepted s')
    (hexpected : ∀ want ∈ expected, want.Fits k s.unifier.counter)
    (ht : Accepted mid → ∃ k', Progress k s k' mid ∧ Proves Γ k' mid t) :
    ∃ k', Progress k s k' s' ∧ Proves Γ k' s' (expected.getD u) := by
  cases expected with
  | none =>
    obtain ⟨rfl, rfl⟩ := pure_eq_ok.mp hrun
    exact ht haccepted
  | some want =>
    obtain ⟨_, s₁, hexpect, hrun⟩ := bind_eq_ok.mp hrun
    obtain ⟨rfl, rfl⟩ := pure_eq_ok.mp hrun
    rcases ht (accepted_before (expectType_grows _ _ _) hexpect haccepted) with
      ⟨k', hprogress, hproves⟩
    rcases expectType_sound hprogress.regular hproves (hprogress.fits (hexpected want rfl)) hexpect
      haccepted with ⟨hprogress', hproves'⟩
    exact ⟨k', hprogress.trans hprogress', hproves'⟩

/-- A declaration that is not the second of its name. -/
theorem declare_eq_ok {sc sc' : Scope} {node : Node} {name : String} {t : Ty}
    (hrun : declared sc node name t s = (.ok sc', s')) (hclean : s'.findings = []) :
    sc' = sc.declare name t ∧ s = s' := by
  unfold declared at hrun
  dsimp only at hrun
  split at hrun
  · obtain ⟨_, s₁, hobject, hrun⟩ := bind_eq_ok.mp hrun
    obtain ⟨rfl, rfl⟩ := pure_eq_ok.mp hrun
    exact absurd hclean (object_not_clean hobject)
  · obtain ⟨rfl, rfl⟩ := pure_eq_ok.mp hrun
    exact ⟨rfl, rfl⟩

/-- The statements that raise an objection wherever they stand in a body. -/
theorem objection_not_clean {sc sc' : Scope} {node : Node} {o : Objection}
    (hrun : (do
      let _ ← object node o
      return sc : Checker Scope) s = (.ok sc', s')) : s'.findings ≠ [] := by
  obtain ⟨_, s₁, hobject, hrun⟩ := bind_eq_ok.mp hrun
  obtain ⟨rfl, rfl⟩ := pure_eq_ok.mp hrun
  exact object_not_clean hobject

/-- What a body returns after a statement. -/
theorem Scoped.next {sc inner : Scope} {s₁ : State} {expected : Option Ty} {t : Ty}
    (hexpected : ∀ want ∈ expected, want.Fits k s.unifier.counter)
    (hstmt : ∃ k₁, Progress k s k₁ s₁ ∧ Scoped Γ k₁ s₁ inner ∧ inner.types = sc.types)
    (hrest : ∀ k₁, s₁.unifier.Regular k₁ → Scoped Γ k₁ s₁ inner →
      (∀ want ∈ expected, want.Fits k₁ s₁.unifier.counter) →
      ∃ k', Progress k₁ s₁ k' s' ∧ Proves Γ k' s' (expected.getD t)) :
    ∃ k', Progress k s k' s' ∧ Proves Γ k' s' (expected.getD t) := by
  rcases hstmt with ⟨k₁, hprogress, hinner, -⟩
  have hwants : ∀ want ∈ expected, want.Fits k₁ s₁.unifier.counter :=
    fun want hwant => hprogress.fits (hexpected want hwant)
  rcases hrest k₁ hprogress.regular hinner hwants with ⟨k', hprogress', hproves⟩
  exact ⟨k', hprogress.trans hprogress', hproves⟩

/-- The parameter and the result of a function, and the state in which its arguments are checked. The
type of a function that is not known yet becomes the type of a function. -/
inductive Callee (args : Nat) : Ty → State → Option Ty → Ty → State → Prop
  | known {param ret s} : Callee args (.func param ret) s param ret s
  | unknown {v param ret s s₁ s₂} (hfresh : freshSignature args s = (.ok (param, ret), s₁))
      (hassign : assign (.var v) (.func param ret) s₁ = (.ok (.ok ()), s₂)) :
      Callee args (.var v) s param ret s₂

theorem infer_call_eq_ok {sc : Scope} {n : Nat} {fn : Expr} {targs : List TypeExpr}
    {args : List Expr} {o : Option Location} {t : Ty}
    (hrun : infer sc n (.call fn targs args o) s = (.ok t, s')) (hclean : s'.findings = []) :
    ∃ t₁ s₁ t₂ s₂ t₃ s₃, infer sc (n + 1) fn s = (.ok t₁, s₁) ∧
      explicitInstance ⟨n, o⟩ sc.types (s₁.unifier.resolve t₁) targs s₁ = (.ok t₂, s₂) ∧
      instantiateUpTo t₂.size t₂ s₂ = (.ok t₃, s₃) ∧
      ((∃ ts, t₃ = .any ∧ inferAll sc (n + 1 + fn.count) args s₃ = (.ok ts, s')) ∨
        ∃ param ret s₄ ts s₅ argNode, Callee args.length t₃ s₃ param ret s₄ ∧
          inferAll sc (n + 1 + fn.count) args s₄ = (.ok ts, s₅) ∧
          callResult ⟨n, o⟩ argNode param ret ts s₅ = (.ok t, s')) := by
  rw [infer] at hrun
  obtain ⟨t₁, s₁, ht₁, hrun⟩ := bind_eq_ok.mp hrun
  obtain ⟨_, _, hresolve, hrun⟩ := bind_eq_ok.mp hrun
  obtain ⟨rfl, rfl⟩ := resolve_eq_ok hresolve
  obtain ⟨t₂, s₂, ht₂, hrun⟩ := bind_eq_ok.mp hrun
  obtain ⟨t₃, s₃, ht₃, hrun⟩ := bind_eq_ok.mp hrun
  refine ⟨t₁, s₁, t₂, s₂, t₃, s₃, ht₁, ht₂, ht₃, ?_⟩
  cases t₃ with
  | any =>
    obtain ⟨ts, s₄, hts, hrun⟩ := bind_eq_ok.mp hrun
    obtain ⟨-, rfl⟩ := pure_eq_ok.mp hrun
    exact .inl ⟨ts, rfl, hts⟩
  | var v =>
    obtain ⟨⟨param, ret⟩, s₄, hfresh, hrun⟩ := bind_eq_ok.mp hrun
    obtain ⟨r, s₅, hassign, hrun⟩ := bind_eq_ok.mp hrun
    cases r with
    | error e => exact absurd hclean (object_not_clean hrun)
    | ok =>
      obtain ⟨ts, s₆, hts, hrun⟩ := bind_eq_ok.mp hrun
      exact .inr ⟨param, ret, s₅, ts, s₆, _, .unknown hfresh hassign, hts, hrun⟩
  | thunk ret =>
    obtain ⟨ts, s₄, hts, hrun⟩ := bind_eq_ok.mp hrun
    exact .inr ⟨none, ret, s₃, ts, s₄, _, @Callee.known _ none ret s₃, hts, hrun⟩
  | fn param ret =>
    obtain ⟨ts, s₄, hts, hrun⟩ := bind_eq_ok.mp hrun
    exact .inr ⟨some param, ret, s₃, ts, s₄, _, @Callee.known _ (some param) ret s₃, hts, hrun⟩
  | rigid => exact absurd hclean (object_not_clean hrun)
  | con => exact absurd hclean (object_not_clean hrun)
  | poly => exact absurd hclean (object_not_clean hrun)
  | never => exact absurd hclean (object_not_clean hrun)

theorem callee_sound {args : Nat} {t ret : Ty} {param : Option Ty} (h : s.unifier.Regular k)
    (ht : Proves Γ k s t) (hcallee : Callee args t s param ret s') (haccepted : Accepted s') :
    Progress k s k s' ∧ Proves Γ k s' (.func param ret) := by
  cases hcallee with
  | known => exact ⟨.refl h, ht⟩
  | unknown hfresh hassign =>
    rcases freshSignature_sound h hfresh with ⟨hprogress, hfits⟩
    have hvar := hprogress.proves ht
    rcases assign_sound hprogress.regular hvar.fits hfits hassign haccepted with
      ⟨hprogress', himplies⟩
    refine ⟨hprogress.trans hprogress', hprogress'.fits hfits, ?_⟩
    intro ρ hρ hΓ
    exact himplies ρ hρ (hvar.holds ρ (hprogress'.extends_.solves ρ hρ) hΓ)

theorem callee_before {args : Nat} {t ret : Ty} {param : Option Ty}
    (hcallee : Callee args t s param ret s') (haccepted : Accepted s') : Accepted s := by
  cases hcallee with
  | known => exact haccepted
  | unknown hfresh hassign =>
    exact accepted_before (freshSignature_grows _) hfresh
      (accepted_before (assign_grows _ _) hassign haccepted)

mutual

/-- An expression that is accepted has a type that follows from the hypotheses. -/
theorem infer_sound {Γ : List Ty} {k : Roles} {s s' : State} {sc : Scope} {n : Nat} {t : Ty}
    (h : s.unifier.Regular k) (hsc : Scoped Γ k s sc) (haccepted : Accepted s') :
    (e : Expr) → e.plain = true → infer sc n e s = (.ok t, s') →
      ∃ k', Progress k s k' s' ∧ Proves Γ k' s' t
  | .ident name o, _, hrun => by
    rw [infer] at hrun
    cases hfind : sc.values.find? name with
    | none =>
      rw [hfind] at hrun
      exact absurd haccepted.clean (object_not_clean hrun)
    | some u =>
      rw [hfind] at hrun
      obtain ⟨rfl, rfl⟩ := pure_eq_ok.mp hrun
      exact ⟨k, .refl h, hsc.find hfind⟩
  | .paren e, hplain, hrun => infer_sound h hsc haccepted e hplain hrun
  | .arrow tparams params ret b o, hplain, hrun => by
    simp only [Expr.plain, Bool.and_eq_true] at hplain
    rcases infer_arrow h hsc hplain.1.1 hplain.1.2 hrun haccepted.clean with
      ⟨gs, args, expected, k₁, s₁, inner, r, hopened, hbody, rfl⟩
    rcases body_sound hopened.progress.regular hopened.inScope haccepted hopened.expected b hplain.2
      hbody with ⟨k₂, hprogress, hresult⟩
    exact hopened.close hsc h hprogress hresult
  | .call fn targs args o, hplain, hrun => by
    simp only [Expr.plain, Bool.and_eq_true] at hplain
    rcases infer_call_eq_ok hrun haccepted.clean with ⟨t₁, s₁, t₂, s₂, t₃, s₃, ht₁, ht₂, ht₃, hrest⟩
    have haccepted₃ : Accepted s₃ := by
      rcases hrest with ⟨ts, -, hts⟩ | ⟨param, ret, s₄, ts, s₅, argNode, hcallee, hts, hresult⟩
      · exact accepted_before (inferAll_grows _ _ args) hts haccepted
      · exact callee_before hcallee (accepted_before (inferAll_grows _ _ args) hts
          (accepted_before (callResult_grows _ _ _ _ _) hresult haccepted))
    have haccepted₂ := accepted_before (instantiateUpTo_grows _ _) ht₃ haccepted₃
    have haccepted₁ := accepted_before (explicitInstance_grows _ _ _ _) ht₂ haccepted₂
    rcases infer_sound h hsc haccepted₁ fn hplain.1.1 ht₁ with ⟨k₁, hprogress₁, hproves₁⟩
    rcases explicitInstance_sound hprogress₁.regular (hprogress₁.scoped hsc)
      (hproves₁.resolve hprogress₁.regular) hplain.1.2 ht₂ haccepted₂.clean with
      ⟨k₂, hprogress₂, hproves₂⟩
    rcases instantiateUpTo_sound hprogress₂.regular hproves₂ ht₃ with ⟨hprogress₃, hproves₃⟩
    have hprogress := (hprogress₁.trans hprogress₂).trans hprogress₃
    rcases hrest with ⟨ts, rfl, hts⟩ | ⟨param, ret, s₄, ts, s₅, argNode, hcallee, hts, hresult⟩
    · exact hproves₃.fits.shaped.elim
    have haccepted₅ := accepted_before (callResult_grows _ _ _ _ _) hresult haccepted
    have haccepted₄ := accepted_before (inferAll_grows _ _ args) hts haccepted₅
    rcases callee_sound hprogress₃.regular hproves₃ hcallee haccepted₄ with ⟨hprogress₄, hfunc⟩
    rcases inferAll_sound hprogress₄.regular ((hprogress.trans hprogress₄).scoped hsc) haccepted₅
      args hplain.2 hts with ⟨k₅, hprogress₅, hargs⟩
    rcases callResult_sound hprogress₅.regular (hprogress₅.proves hfunc) hargs hresult haccepted with
      ⟨hprogress₆, hproves₆⟩
    exact ⟨k₅, ((hprogress.trans hprogress₄).trans hprogress₅).trans hprogress₆, hproves₆⟩
  | .missing, _, hrun => absurd haccepted.clean (unsupportedExpr_not_clean n .missing hrun)
  | .str v, _, hrun => absurd haccepted.clean (unsupportedExpr_not_clean n (.str v) hrun)
  | .bool b, _, hrun => absurd haccepted.clean (unsupportedExpr_not_clean n (.bool b) hrun)
  | .array es, _, hrun => absurd haccepted.clean (unsupportedExpr_not_clean n (.array es) hrun)
  | .object ps, _, hrun => absurd haccepted.clean (unsupportedExpr_not_clean n (.object ps) hrun)
  | .index e i, _, hrun => absurd haccepted.clean (unsupportedExpr_not_clean n (.index e i) hrun)
  | .prop e m, _, hrun => absurd haccepted.clean (unsupportedExpr_not_clean n (.prop e m) hrun)
  | .cond a b c, _, hrun => absurd haccepted.clean (unsupportedExpr_not_clean n (.cond a b c) hrun)
  | .cast e u, _, hrun => absurd haccepted.clean (unsupportedExpr_not_clean n (.cast e u) hrun)

theorem inferAll_sound {Γ : List Ty} {k : Roles} {s s' : State} {sc : Scope} {n : Nat}
    {ts : List Ty} (h : s.unifier.Regular k) (hsc : Scoped Γ k s sc) (haccepted : Accepted s') :
    (es : List Expr) → Expr.plainAll es = true → inferAll sc n es s = (.ok ts, s') →
      ∃ k', Progress k s k' s' ∧ ∀ t ∈ ts, Proves Γ k' s' t
  | [], _, hrun => by
    obtain ⟨rfl, rfl⟩ := pure_eq_ok.mp hrun
    exact ⟨k, .refl h, by simp⟩
  | e :: rest, hplain, hrun => by
    rw [Expr.plainAll, Bool.and_eq_true] at hplain
    obtain ⟨t, s₁, ht, hrun⟩ := bind_eq_ok.mp hrun
    obtain ⟨more, s₂, hmore, hrun⟩ := bind_eq_ok.mp hrun
    obtain ⟨rfl, rfl⟩ := pure_eq_ok.mp hrun
    have haccepted₁ := accepted_before (inferAll_grows _ _ rest) hmore haccepted
    rcases infer_sound h hsc haccepted₁ e hplain.1 ht with ⟨k₁, hprogress, hproves⟩
    rcases inferAll_sound hprogress.regular (hprogress.scoped hsc) haccepted rest hplain.2 hmore with
      ⟨k₂, hprogress', hall⟩
    refine ⟨k₂, hprogress.trans hprogress', ?_⟩
    intro u hu
    rcases List.mem_cons.mp hu with rfl | hu
    · exact hprogress'.proves hproves
    · exact hall u hu

theorem body_sound {Γ : List Ty} {k : Roles} {s s' : State} {sc : Scope} {arrow : Node}
    {expected : Option Ty} {n : Nat} {t : Ty} (h : s.unifier.Regular k) (hsc : Scoped Γ k s sc)
    (haccepted : Accepted s') (hexpected : ∀ want ∈ expected, want.Fits k s.unifier.counter) :
    (b : Body) → b.plain = true → body sc arrow expected n b s = (.ok t, s') →
      ∃ k', Progress k s k' s' ∧ Proves Γ k' s' (expected.getD t)
  | .missing, _, hrun => absurd haccepted.clean (object_not_clean hrun)
  | .expr e, hplain, hrun => by
    rw [body_expr] at hrun
    obtain ⟨u, s₁, hu, hrun⟩ := bind_eq_ok.mp hrun
    exact returned_sound hrun haccepted hexpected (infer_sound h hsc · e hplain hu)
  | .block stmts, hplain, hrun =>
    blockBody_sound h (hsc.extend (by simp)) haccepted hexpected stmts hplain hrun

theorem blockBody_sound {Γ : List Ty} {k : Roles} {s s' : State} {sc : Scope} {arrow : Node}
    {expected : Option Ty} {n : Nat} {t : Ty} (h : s.unifier.Regular k) (hsc : Scoped Γ k s sc)
    (haccepted : Accepted s') (hexpected : ∀ want ∈ expected, want.Fits k s.unifier.counter) :
    (stmts : List Stmt) → Stmt.plainAll stmts = true →
      blockBody sc arrow expected n stmts s = (.ok t, s') →
      ∃ k', Progress k s k' s' ∧ Proves Γ k' s' (expected.getD t)
  | [], _, hrun => by
    cases expected with
    | none =>
      obtain ⟨rfl, rfl⟩ := pure_eq_ok.mp hrun
      exact ⟨k, .refl h, ⟨trivial, by simp [Ty.freeVars, Ty.freeVarsAll]⟩, fun _ _ _ => trivial⟩
    | some want => exact absurd haccepted.clean (object_not_clean hrun)
  | st :: rest, hplain, hrun => by
    rw [Stmt.plainAll, Bool.and_eq_true] at hplain
    cases st with
    | ret e =>
      rw [blockBody_ret] at hrun
      obtain ⟨u, s₁, hu, hrun⟩ := bind_eq_ok.mp hrun
      exact returned_sound hrun haccepted hexpected (infer_sound h hsc · e hplain.1 hu)
    | _ =>
      obtain ⟨inner, s₁, hstmt, hrun⟩ := bind_eq_ok.mp hrun
      have haccepted₁ := accepted_before (blockBody_grows _ _ _ _ rest) hrun haccepted
      refine Scoped.next hexpected (stmt_sound h hsc haccepted₁ _ hplain.1 hstmt) ?_
      intro k₁ hregular hinner hwants
      exact blockBody_sound hregular hinner haccepted hwants rest hplain.2 hrun

theorem stmt_sound {Γ : List Ty} {k : Roles} {s s' : State} {sc sc' : Scope} {n : Nat}
    (h : s.unifier.Regular k) (hsc : Scoped Γ k s sc) (haccepted : Accepted s') :
    (st : Stmt) → st.plain = true → stmt sc n st s = (.ok sc', s') →
      ∃ k', Progress k s k' s' ∧ Scoped Γ k' s' sc' ∧ sc'.types = sc.types
  | .const name type value declare trusted signature o, hplain, hrun => by
    simp only [Stmt.plain, Bool.and_eq_true, Bool.not_eq_true'] at hplain
    obtain ⟨⟨⟨rfl, rfl⟩, htype⟩, hvalue⟩ := hplain
    cases type with
    | none =>
      obtain ⟨found, s₁, hfound, hrun⟩ := bind_eq_ok.mp hrun
      obtain ⟨_, s₂, hresolve, hrun⟩ := bind_eq_ok.mp hrun
      obtain ⟨rfl, rfl⟩ := resolve_eq_ok hresolve
      obtain ⟨rfl, rfl⟩ := declare_eq_ok hrun haccepted.clean
      rcases infer_sound h hsc haccepted value hvalue hfound with ⟨k₁, hprogress, hproves⟩
      exact ⟨k₁, hprogress, (hprogress.scoped hsc).declare (hproves.resolve hprogress.regular), rfl⟩
    | some annotated =>
      obtain ⟨want, s₁, hwant, hrun⟩ := bind_eq_ok.mp hrun
      obtain ⟨found, s₂, hfound, hrun⟩ := bind_eq_ok.mp hrun
      obtain ⟨_, s₃, hexpect, hrun⟩ := bind_eq_ok.mp hrun
      obtain ⟨_, s₄, hpure, hrun⟩ := bind_eq_ok.mp hrun
      obtain ⟨rfl, rfl⟩ := pure_eq_ok.mp hpure
      obtain ⟨rfl, rfl⟩ := declare_eq_ok hrun haccepted.clean
      have haccepted₂ := accepted_before (expectType_grows _ _ _) hexpect haccepted
      have haccepted₁ := accepted_before (infer_grows _ _ value) hfound haccepted₂
      rcases toType_sound h hsc.supported haccepted₁.clean annotated htype hwant with
        ⟨k₁, hprogress₁, hreads⟩
      have hfits : want.Fits k₁ s₁.unifier.counter :=
        ⟨hreads.shaped, by simp [hsc.closed hreads.free]⟩
      rcases infer_sound hprogress₁.regular (hprogress₁.scoped hsc) haccepted₂ value hvalue hfound with
        ⟨k₂, hprogress₂, hproves⟩
      rcases expectType_sound hprogress₂.regular hproves (hprogress₂.fits hfits) hexpect haccepted with
        ⟨hprogress₃, hproves'⟩
      have hprogress := (hprogress₁.trans hprogress₂).trans hprogress₃
      exact ⟨k₂, hprogress, (hprogress.scoped hsc).declare hproves', rfl⟩
  | .expr e o, hplain, hrun => by
    obtain ⟨t, s₁, ht, hrun⟩ := bind_eq_ok.mp hrun
    obtain ⟨rfl, rfl⟩ := pure_eq_ok.mp hrun
    rcases infer_sound h hsc haccepted e hplain ht with ⟨k₁, hprogress, -⟩
    exact ⟨k₁, hprogress, hprogress.scoped hsc, rfl⟩
  | .missing, _, hrun => absurd haccepted.clean (objection_not_clean hrun)
  | .typeAlias _ _ _, _, hrun => absurd haccepted.clean (objection_not_clean hrun)
  | .ret _, _, hrun => absurd haccepted.clean (objection_not_clean hrun)

end

end Checker

end ProofScript
