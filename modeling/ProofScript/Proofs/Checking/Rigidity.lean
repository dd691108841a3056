import ProofScript.Proofs.Checking.Passage

/-!
# Type parameters outside of their arrows

In the body of an arrow new constants stand for its type parameters. Once the arrow has returned, a variable
that was in use before it can lead to such a constant only through a binding that was made in its body.
Where the identifiers in scope leave no variable open that is so bound, the constant is hidden for good:
what is hidden when an arrow returns stays hidden in the rest of the check.
-/

namespace ProofScript

open Program Stateful

namespace Checker

variable {F F' : Set TyVar}

/-! ## Scopes -/

theorem known_extend (sc : Scope) (types : List (String × Ty)) :
    (sc.extend types).known ⊆ types.map Prod.snd ++ sc.known := by
  intro t ht
  simp only [Scope.known, Scope.identifiers, Scope.extend, TyEnv.extend, List.flatMap_cons,
    List.map_nil, List.nil_append, List.map_append, List.map_reverse, List.mem_append,
    List.mem_reverse] at ht ⊢
  tauto

theorem known_declareAll (sc : Scope) (bs : List (Param × Ty)) :
    (sc.declareAll bs).known ⊆ bs.map Prod.snd ++ sc.known ∧ (sc.declareAll bs).types = sc.types := by
  induction bs generalizing sc with
  | nil => exact ⟨List.Subset.refl _, rfl⟩
  | cons b rest ih =>
    obtain ⟨hknown, htypes⟩ := ih (sc.declare b.1.1 b.2)
    refine ⟨fun t ht => ?_, htypes⟩
    rcases List.mem_append.mp (hknown ht) with ht | ht
    · simp [ht]
    · rcases List.mem_cons.mp (Recorder.known_declare sc b.1.1 b.2 ht) with rfl | ht
      · simp
      · simp [ht]

/-! ## Types of arrows -/

section

variable {gs : List Generic} {f : Ty} {n : String} {i : TyVar}

/-- The type of an arrow mentions no constant that stands for its type parameters. -/
theorem mentions_of_generalized (hm : (generalized gs f).mentions n i = true) :
    f.mentions n i = true ∧ ∀ g ∈ gs, ¬ (g.1 = n ∧ g.2.2 = i) := by
  rw [generalized] at hm
  split at hm
  · rename_i hempty
    rw [List.isEmpty_iff] at hempty
    exact ⟨hm, by simp [hempty]⟩
  obtain ⟨hm, hnone⟩ := (Ty.mentions_abstract f).mp hm
  refine ⟨hm, ?_⟩
  rintro g hg ⟨rfl, rfl⟩
  have hne := List.lookup_eq_none_iff.mp hnone ((g.1, g.2.2), g.2.1)
    (List.mem_map_of_mem (f := fun g => ((g.1, g.2.2), g.2.1)) hg)
  simp at hne

theorem generalized_confined {Z : Set TyVar} {K : String → TyVar → Prop} (h : f.Confined Z K) :
    (generalized gs f).Confined Z K :=
  ⟨fun v hv => h.vars v (mem_freeVars_of_generalized hv),
    fun n i hm => h.consts n i (mentions_of_generalized hm).1⟩

theorem exposes_of_generalized {σ : Subst} (h : σ.Exposes n i (generalized gs f)) :
    σ.Exposes n i f := by
  cases h with
  | here hm => exact .here (mentions_of_generalized hm).1
  | within hv hs h => exact .within (mem_freeVars_of_generalized hv) hs h

theorem not_exposes_any {σ : Subst} : ¬ σ.Exposes n i .any := by
  rintro (hm | ⟨hv, -, -⟩)
  · simp [Ty.mentions] at hm
  · simp [Ty.freeVars] at hv

end

/-! ## The type that an arrow returns with

It is the type of the arrow, or `any` where there are more parameters than an arrow may have.
-/

section

variable {gs : List Generic} {f t : Ty} (ht : t = .any ∨ t = generalized gs f)

include ht

theorem returns_apart {c : TyVar} (hf : f.Apart F c) (hgs : ∀ g ∈ gs, g.2.1 ∉ F ∧ g.2.1 ≤ c) :
    t.Apart F c := by
  rcases ht with rfl | rfl
  · exact apart_any rfl
  · exact generalized_apart hf hgs

theorem returns_confined {Z : Set TyVar} {K : String → TyVar → Prop} (h : f.Confined Z K) :
    t.Confined Z K := by
  rcases ht with rfl | rfl
  · exact ⟨by simp [Ty.freeVars], by simp [Ty.mentions]⟩
  · exact generalized_confined h

theorem exposes_of_returns {σ : Subst} {n : String} {i : TyVar} (h : σ.Exposes n i t) :
    σ.Exposes n i f := by
  rcases ht with rfl | rfl
  · exact absurd h not_exposes_any
  · exact exposes_of_generalized h

/-- The type parameters are gone from it, where nothing is bound that its function type leaves open. -/
theorem not_exposes_of_returns {σ : Subst} (hresolved : ∀ v ∈ f.freeVars, σ.find? v = none)
    {g : Generic} (hg : g ∈ gs) : ¬ σ.Exposes g.1 g.2.2 t := by
  rcases ht with rfl | rfl
  · exact not_exposes_any
  rintro (hm | ⟨hv, hs, -⟩)
  · exact (mentions_of_generalized hm).2 g hg ⟨rfl, rfl⟩
  · simp [hresolved _ (mem_freeVars_of_generalized hv)] at hs

end

/-! ## The return of an arrow -/

section

variable {sc : Scope} {u w : Unifier} {events : List Event} {ts found : List Ty} {n : String}
  {i : TyVar}

/-- What is bound stays bound. -/
theorem Safe.kept (h : Safe F ts u events (some (w, found))) :
    ∀ v t, u.subst.find? v = some t → w.subst.find? v = some t := by
  have hall : ∀ t : Ty, t.Confined Set.univ fun _ _ => True :=
    fun _ => ⟨fun _ _ => trivial, fun _ _ _ => trivial⟩
  obtain ⟨-, hend⟩ := h.confined Set.univ (fun _ _ => True) trivial
    ⟨fun _ _ => trivial, fun _ _ _ => trivial, fun _ _ t _ => hall t⟩ fun t _ => hall t
  exact (hend w found rfl).1.kept

/-- If the variables that the identifiers in scope leave open do not lead to a new constant in the end, no
variable of before leads to it. -/
theorem Safe.hides (hu : u.Tidy F) (hts : ∀ t ∈ sc.known, t.Apart F u.counter) (hrigid : sc.Rigid)
    (h : Safe F sc.known u events (some (w, found))) (hi : u.counter < i)
    (hsealed : ∀ t ∈ sc.identifiers, ∀ v ∈ (u.resolve t).freeVars, ¬ w.subst.Exposes n i (.var v)) :
    w.subst.Hides u.counter n i := by
  have hkept := h.kept
  -- Only variables that do not lead to the constant are bound: the types in scope have no others.
  have hscope : ∀ t ∈ sc.known, t.Confined {v | u.counter < v ∨ ¬ w.subst.Exposes n i (.var v)}
      fun _ _ => True := by
    intro t ht
    refine ⟨fun v hv => .inr fun hexposes => ?_, fun _ _ _ => trivial⟩
    rcases List.mem_append.mp ht with hident | htype
    · cases hu.apart.subst.exposes_resolve hkept (hts t ht) (Subst.exposes_of_mem hv hexposes) with
      | here hm =>
        exact Int.not_le.mpr hi ((hu.apart.resolve (hts t ht)).orderly.mentions _ hm)
      | within hv hs hexposes =>
        exact hsealed t hident _ hv (Subst.exposes_var.mpr ⟨_, hs, hexposes⟩)
    · obtain ⟨b, hb, rfl⟩ := List.mem_map.mp htype
      rw [hrigid b hb] at hv
      cases hv
  obtain ⟨-, hend⟩ := h.confined _ _ trivial (Unify.confined_unexposed hu.apart hkept) hscope
  refine fun v hv => Unify.not_exposes_of_before hu.apart (fun v hv hexposes => ?_) hv hi
  refine (hend w found rfl).1.outside v ?_
  rintro (hlt | hnot)
  · exact Int.not_lt.mpr hv hlt
  · exact hnot hexposes

section

variable {gs : List Generic} {f t : Ty}

theorem known_returns {t' : Ty} (h : t' ∈ (Point.mk w sc [t]).known) : t' ∈ sc.known ∨ t' = t :=
  (List.mem_append.mp h).imp_right List.mem_singleton.mp

/-- The return of an arrow comes to a tidy point, and what was bound when the arrow was begun still is. -/
theorem sound_returns (hu : u.Tidy F) (hts : ∀ t ∈ sc.known, t.Apart F u.counter)
    (hadvances : u.Advances F F' w) (hw : w.Tidy F')
    (hkept : ∀ v t, u.subst.find? v = some t → w.subst.find? v = some t)
    (hf : f.Apart F' w.counter) (ht : t.Apart F' w.counter)
    (hgs : ∀ g ∈ gs, g.2.1 ∉ F' ∧ g.2.1 ≤ w.counter) (hbinders : ∀ v ∈ Generic.vars gs, v ∉ f.binders) :
    Event.Sound F' (.returns ⟨w, sc, [t]⟩ u gs f) := by
  refine ⟨⟨F', fun _ _ => .rfl, hw.apart.fresh, ?_, ?_⟩, ?_⟩
  · rintro p ⟨⟩
    refine ⟨hw, fun t' ht' => ?_⟩
    rcases known_returns ht' with ht' | rfl
    · exact hadvances.type (hts t' ht')
    · exact ht
  · rintro _ _ _ _ ⟨⟩
    refine ⟨hadvances.counter, hu.apart.subst.mono (Int.le_refl _) hadvances.uses, fun t' ht' => ?_,
      hkept⟩
    exact (hts t' (List.mem_append_left _ ht')).mono (Int.le_refl _) hadvances.uses
  · rintro _ _ _ _ ⟨⟩ v hv
    refine ⟨hbinders v hv, fun hfree => ?_⟩
    obtain ⟨g, hg, rfl⟩ := List.mem_map.mp hv
    exact (hgs g hg).1 (hf.free _ hfree)

/-- What hides the constant from all of before hides it from what is at hand when the arrow returns. -/
theorem hides_returns {c : TyVar} (hts : ∀ t ∈ sc.known, t.Apart F u.counter) (hle : u.counter ≤ c)
    (hlt : c < i) (hvars : w.subst.Hides c n i) (hnot : ¬ w.subst.Exposes n i t) :
    Event.Hides c n i (.returns ⟨w, sc, [t]⟩ u gs f) := by
  rintro p ⟨⟩
  refine ⟨hvars, fun t' ht' => ?_⟩
  rcases known_returns ht' with ht' | rfl
  · exact hvars.not_exposes (hts t' ht').orderly hle hlt
  · exact hnot

/-- What is hidden behind the body of an arrow is hidden behind the arrow. -/
theorem Hidden.returns {c : TyVar} {later : List Event} (hts : ∀ t ∈ sc.known, t.Apart F u.counter)
    (ht : t = .any ∨ t = generalized gs f) (hmem : f ∈ found)
    (h : Hidden u c n i later (some (w, found))) :
    Hidden u c n i (later ++ [.returns ⟨w, sc, [t]⟩ u gs f]) (some (w, [t])) := by
  obtain ⟨hi, hvars, hfound⟩ := h.state w _ rfl
  have hnot : ¬ w.subst.Exposes n i t := fun hexposed =>
    hfound f hmem (exposes_of_returns ht hexposed)
  refine ⟨h.older, h.newer, fun e he => ?_, ?_⟩
  · rcases List.mem_append.mp he with he | he
    · exact h.events e he
    · rw [List.mem_singleton.mp he]
      exact hides_returns hts h.older h.newer hvars hnot
  · rintro _ _ ⟨⟩
    exact ⟨hi, hvars, by simpa using hnot⟩

/-- A constant that the arrow seals is hidden behind the arrow. -/
theorem Hidden.sealed {opened : Unifier} (hu : u.Tidy F)
    (hts : ∀ t ∈ sc.known, t.Apart F u.counter) (hrigid : sc.Rigid)
    (h : Safe F sc.known u events (some (w, found)))
    (hnew : ∀ g ∈ gs, u.counter < g.2.2 ∧ g.2.2 ≤ w.counter)
    (hresolved : ∀ v ∈ f.freeVars, w.subst.find? v = none) (ht : t = .any ∨ t = generalized gs f)
    (hseals : Event.Seals opened n i (.returns ⟨w, sc, [t]⟩ u gs f)) :
    Hidden u opened.counter n i [.returns ⟨w, sc, [t]⟩ u gs f] (some (w, [t])) := by
  obtain ⟨p, gs', f', hreturns, ⟨g, hg, rfl, rfl⟩, hsealed⟩ := hseals
  cases hreturns
  have hvars := h.hides hu hts hrigid (hnew g hg).1 hsealed
  have hnot := not_exposes_of_returns ht hresolved hg
  refine ⟨Int.le_refl _, (hnew g hg).1, ?_, ?_⟩
  · exact List.forall_mem_singleton.mpr
      (hides_returns hts (Int.le_refl _) (hnew g hg).1 hvars hnot)
  · rintro _ _ ⟨⟩
    exact ⟨(hnew g hg).2, hvars, by simpa using hnot⟩

/-- An arrow returns to where it was begun. -/
theorem Safe.returns (hu : u.Tidy F) (hts : ∀ t ∈ sc.known, t.Apart F u.counter) (hrigid : sc.Rigid)
    (h : Safe F sc.known u events (some (w, [f, .poly (gs.map fun g => (g.1, g.2.1)) .any])))
    (hnew : ∀ g ∈ gs, u.counter < g.2.2 ∧ g.2.2 ≤ w.counter)
    (hbinders : ∀ v ∈ Generic.vars gs, v ∉ f.binders)
    (hresolved : ∀ v ∈ f.freeVars, w.subst.find? v = none)
    (ht : t = .any ∨ t = generalized gs f) :
    Safe F sc.known u (events ++ [.returns ⟨w, sc, [t]⟩ u gs f]) (some (w, [t])) := by
  obtain ⟨F', c, hc, huses, hevents, hend⟩ := h.sound
  obtain ⟨rfl, hadvances, hw, hfound⟩ := hend w _ rfl
  obtain ⟨hf, hpoly⟩ : f.Apart F' w.counter ∧
      (Ty.poly (gs.map fun g => (g.1, g.2.1)) .any).Apart F' w.counter := by simpa using hfound
  have hgs : ∀ g ∈ gs, g.2.1 ∉ F' ∧ g.2.1 ≤ w.counter := fun g hg =>
    hpoly.orderly.1 _ (List.mem_map_of_mem hg)
  have happart : t.Apart F' w.counter := returns_apart ht hf hgs
  constructor
  case sorted =>
    refine List.pairwise_append.mpr ⟨h.sorted, List.pairwise_singleton _ _, fun e he e' he' => ?_⟩
    rw [List.mem_singleton.mp he']
    exact (hevents e he).2.1
  case sound =>
    refine ⟨F', w.counter, hc, huses, fun e he => ?_, ?_⟩
    · rcases List.mem_append.mp he with he | he
      · exact hevents e he
      rw [List.mem_singleton.mp he]
      exact ⟨hc, Int.le_refl _,
        sound_returns hu hts hadvances hw h.kept hf happart hgs hbinders⟩
    · rintro _ _ ⟨⟩
      exact ⟨rfl, hadvances, hw, by simpa using happart⟩
  case confined =>
    intro Z K hK hcu hcts
    obtain ⟨hcevents, hcend⟩ := h.confined Z K hK hcu hcts
    obtain ⟨hspreads, hcfound⟩ := hcend w _ rfl
    have hct : t.Confined Z K := returns_confined ht (hcfound f (by simp))
    refine ⟨fun e he => ?_, ?_⟩
    · rcases List.mem_append.mp he with he | he
      · exact hcevents e he
      rw [List.mem_singleton.mp he]
      rintro p ⟨⟩
      refine ⟨hspreads.confined, fun t' ht' => ?_⟩
      rcases known_returns ht' with ht' | rfl
      · exact hcts t' ht'
      · exact hct
    · rintro _ _ ⟨⟩
      exact ⟨hspreads, by simpa using hct⟩
  case hidden =>
    -- The arrow that seals the constant is this one, or it returned within the body of this one.
    intro before e after heq opened n i hseals
    rcases List.eq_nil_or_concat after with rfl | ⟨later, last, rfl⟩
    · obtain ⟨rfl, hlast⟩ := List.append_inj' heq rfl
      obtain rfl := List.singleton_inj.mp hlast
      exact .sealed hu hts hrigid h hnew hresolved ht hseals
    · rw [List.concat_eq_append, ← List.cons_append, ← List.append_assoc] at heq
      obtain ⟨hevents, hlast⟩ := List.append_inj' heq rfl
      obtain rfl := List.singleton_inj.mp hlast
      rw [List.concat_eq_append, ← List.cons_append]
      exact (h.hidden before e later hevents opened n i hseals).returns hts ht (by simp)

end

end

namespace Recorder

variable {sc : Scope} {ts : List Ty} {node : Node} {x y : Trace}

section

variable {tparams : List String} {params : List Param} {ret : Option TypeExpr}
  {body : Scope → Option Ty → Recorder Ty}

/-- The constants that stand for type parameters of an arrow. -/
abbrev constants (gs : List Generic) : List (String × Ty) := gs.map fun g => (g.1, .rigid g.1 g.2.2)

theorem rigid_constants (hrigid : sc.Rigid) (gs : List Generic) :
    (sc.extend (constants gs)).Rigid := by
  intro b hb
  rcases List.mem_append.mp hb with hb | hb
  · obtain ⟨g, -, rfl⟩ := List.mem_map.mp (List.mem_reverse.mp hb)
    rfl
  · exact hrigid b hb

/-- New numbers are taken for type parameters: binders and constants. -/
theorem keeps_generics (names : List String) :
    Keeps ts (fun gs => .poly (gs.map fun g => (g.1, g.2.1)) .any :: (constants gs).map Prod.snd)
      (lift (generics names)) := by
  refine .lift fun s gs s' hrun F hu hts => ?_
  obtain ⟨n, hn, rfl, -, hbound⟩ := generics_eq_ok hrun
  have hnew : ∀ v ∈ Generic.vars gs, s.unifier.counter < v ∧ v ≤ n := by
    intro v hv
    obtain ⟨g, hg, rfl⟩ := List.mem_map.mp hv
    exact (hbound g hg).1
  have hadvances := hu.apart.take hn hnew
  refine ⟨⟨_, hadvances, hadvances.tidy_of_subst rfl hu, ?_⟩, fun Z K _ hc hcts => ⟨?_, ?_⟩⟩
  · refine List.forall_mem_cons.mpr ⟨⟨⟨fun p hp => ?_, trivial⟩, by simp [Ty.freeVars]⟩, ?_⟩
    · obtain ⟨g, hg, rfl⟩ := List.mem_map.mp hp
      have hmem : g.2.1 ∈ Generic.vars gs := List.mem_map_of_mem (f := fun g => g.2.1) hg
      exact ⟨fun hF => hF.2 hmem, (hnew _ hmem).2⟩
    · simp only [List.map_map, List.mem_map, Function.comp_apply, forall_exists_index, and_imp]
      rintro _ g hg rfl
      exact ⟨(hbound g hg).2.2, by simp [Ty.freeVars]⟩
  · exact hc.advance hn rfl
  · refine List.forall_mem_cons.mpr ⟨⟨by simp [Ty.freeVars], by simp [Ty.mentions]⟩, ?_⟩
    simp only [List.map_map, List.mem_map, Function.comp_apply, forall_exists_index, and_imp]
    rintro _ g hg rfl
    refine ⟨by simp [Ty.freeVars], fun n i hm => ?_⟩
    obtain ⟨rfl, rfl⟩ : g.1 = n ∧ g.2.2 = i := by simpa [Ty.mentions] using hm
    exact hc.consts _ _ (hbound g hg).2.1

/-- The function of an arrow, in the scope of the arrow's type parameters. -/
theorem keeps_within (hrigid : sc.Rigid) (hsc : sc.known ⊆ ts)
    (hbody : ∀ inner expected, inner.types = sc.types →
      Keeps (expected.toList ++ inner.known) (fun t => [t]) (body inner expected)) :
    Keeps ts (fun t => [t]) (within sc node params ret body) := by
  unfold within
  split
  · exact Keeps.step hsc (keeps_object _)
  refine (Keeps.step hsc (keeps_toParamTypes hrigid hsc params)).bind fun args _ _ _ => ?_
  obtain ⟨hknown, htypes⟩ := known_declareAll sc (params.zip args)
  generalize sc.declareAll (params.zip args) = inner at hknown htypes
  have hinner : inner.known ⊆ args ++ ts := by
    intro t ht
    rcases List.mem_append.mp (hknown ht) with ht | ht
    · obtain ⟨b, hb, rfl⟩ := List.mem_map.mp ht
      exact List.mem_append_left _ (List.of_mem_zip hb).2
    · exact List.mem_append_right _ (hsc ht)
  have hfunc : ∀ {ts' : List Ty} {result : Ty}, result ∈ ts' → args ++ ts ⊆ ts' →
      Keeps ts' (fun t => [t]) (step inner (fun t => [t]) (resolve (.func args.head? result))) := by
    intro ts' result hresult hsub
    have harg : ∀ a ∈ args.head?, a ∈ ts' := fun a ha =>
      hsub (List.mem_append_left _ (List.mem_of_mem_head? ha))
    have hstep : Keeps ([.func args.head? result] ++ ts') (fun t => [t])
        (step inner (fun t => [t]) (resolve (.func args.head? result))) :=
      Keeps.step (fun t ht => List.mem_append_right _ (hsub (hinner ht))) (keeps_resolve (by simp))
    exact hstep.mono ((Derives.func harg hresult).append (.of_subset (List.Subset.refl _)))
  cases ret with
  | none =>
    refine ((hbody inner none htypes).of_subset hinner).bind fun result _ _ _ => hfunc ?_ ?_
    · exact List.mem_append_left _ (by simp)
    · exact List.subset_append_right _ _
  | some t =>
    have hrigid' : inner.Rigid := by rwa [Scope.Rigid, htypes]
    simp only [pure_bind]
    refine (Keeps.step hinner (keeps_toType hrigid' hinner t)).bind fun expected _ _ _ => ?_
    have hexpected : (some expected).toList ++ inner.known ⊆ [expected] ++ (args ++ ts) := by
      intro t ht
      rcases List.mem_append.mp ht with ht | ht
      · exact List.mem_append_left _ ht
      · exact List.mem_append_right _ (hinner ht)
    refine ((hbody inner (some expected) htypes).of_subset hexpected).bind fun _ _ _ _ => hfunc ?_ ?_
    · simp
    · intro t ht
      simp [ht]

/-- The type of an arrow's function is resolved. -/
theorem within_eq_ok {f : Ty} (hrun : within sc node params ret body x = (.ok f, y)) :
    ∃ t, f = y.state.unifier.resolve t := by
  have hfunc : ∀ {inner : Scope} {t : Ty} {x : Trace},
      step inner (fun t => [t]) (resolve t) x = (.ok f, y) → ∃ t, f = y.state.unifier.resolve t := by
    intro inner t x hrun
    obtain ⟨rfl, hstate⟩ := resolve_eq_ok ((follows_step _ _ _).eq_ok hrun)
    exact ⟨t, by rw [hstate]⟩
  unfold within at hrun
  split at hrun
  · have hobject := (follows_step _ _ _).eq_ok hrun
    generalize y.state = s at hobject ⊢
    cases hobject
    refine ⟨.any, ?_⟩
    simp [Unifier.resolve, Ty.resolve, Ty.resolveUpTo, Ty.apply, Ty.eqv]
  obtain ⟨args, x₁, -, hrun⟩ := bind_eq_ok.mp hrun
  cases ret with
  | none =>
    obtain ⟨result, x₂, -, hrun⟩ := bind_eq_ok.mp hrun
    exact hfunc hrun
  | some t =>
    obtain ⟨expected, x₂, -, hrun⟩ := bind_eq_ok.mp hrun
    obtain ⟨_, x₃, -, hrun⟩ := bind_eq_ok.mp hrun
    exact hfunc hrun

theorem keeps_function (hrigid : sc.Rigid)
    (hbody : ∀ inner expected, inner.Rigid →
      Keeps (expected.toList ++ inner.known) (fun t => [t]) (body inner expected)) :
    Keeps sc.known (fun (gs, f) => [f, .poly (gs.map fun g => (g.1, g.2.1)) .any])
      (function sc node tparams params ret body) := by
  refine (keeps_generics tparams).bind fun gs _ _ _ => ?_
  have hinner := rigid_constants hrigid gs
  refine (keeps_within hinner ?_ ?_).bind fun f _ _ _ => .pure (.of_subset (by simp))
  · intro t ht
    rcases List.mem_append.mp (known_extend sc _ ht) with ht | ht
    · exact List.mem_append_left _ (List.mem_cons_of_mem _ ht)
    · exact List.mem_append_right _ ht
  · intro inner expected htypes
    exact hbody inner expected (by rwa [Scope.Rigid, htypes])

/-- The numbers of the type parameters are new, and those of binders are not used within the function's
type. -/
theorem function_eq_ok {gs : List Generic} {f : Ty} (hrigid : sc.Rigid)
    (hbody : ∀ inner expected, inner.Rigid →
      Keeps (expected.toList ++ inner.known) (fun t => [t]) (body inner expected))
    (hu : x.state.unifier.Tidy F) (hts : ∀ t ∈ sc.known, t.Apart F x.state.unifier.counter)
    (hrun : function sc node tparams params ret body x = (.ok (gs, f), y)) :
    (∀ g ∈ gs, x.state.unifier.counter < g.2.2 ∧ g.2.2 ≤ y.state.unifier.counter) ∧
      (∀ v ∈ Generic.vars gs, v ∉ f.binders) ∧ ∀ v ∈ f.freeVars, y.state.unifier.subst.find? v = none := by
  obtain ⟨gs', x₁, hgenerics, hrun⟩ := bind_eq_ok.mp hrun
  obtain ⟨f', y', hwithin, hrun⟩ := bind_eq_ok.mp hrun
  obtain ⟨heq, rfl⟩ := pure_eq_ok.mp hrun
  obtain ⟨rfl, rfl⟩ := Prod.mk.inj heq
  obtain ⟨n, hn, hstate, -, hbound⟩ := generics_eq_ok ((follows_lift _).eq_ok hgenerics)
  have hadvances := hu.apart.advance hn
  have hinner := rigid_constants hrigid gs'
  have hkeeps : Keeps (sc.extend (constants gs')).known (fun t => [t])
      (within (sc.extend (constants gs')) node params ret body) :=
    keeps_within hinner (List.Subset.refl _) fun inner expected htypes =>
      hbody inner expected (by rwa [Scope.Rigid, htypes])
  obtain ⟨events, -, hsafe⟩ := hkeeps x₁
  rw [hwithin, hstate] at hsafe
  have hknown : ∀ t ∈ (sc.extend (constants gs')).known, t.Apart F n := by
    intro t ht
    rcases List.mem_append.mp (known_extend sc _ ht) with ht | ht
    · simp only [List.map_map, List.mem_map, Function.comp_apply] at ht
      obtain ⟨g, hg, rfl⟩ := ht
      exact ⟨(hbound g hg).2.2, by simp [Ty.freeVars]⟩
    · exact hadvances.type (hts t ht)
  obtain ⟨F', c, -, -, -, hend⟩ := (hsafe F (hadvances.tidy hu) hknown).sound
  obtain ⟨-, hadvances', htidy, hf⟩ := hend _ _ rfl
  refine ⟨fun g hg => ⟨(hbound g hg).2.1, Int.le_trans (hbound g hg).2.2 hadvances'.counter⟩,
    fun v hv hbinder => ?_, fun v hv => ?_⟩
  · obtain ⟨g, hg, rfl⟩ := List.mem_map.mp hv
    have hF : g.2.1 ∈ F' :=
      (hadvances'.uses _ (hbound g hg).1.2).mpr (hu.apart.fresh _ (hbound g hg).1.1)
    exact ((hf f' (by simp)).orderly.binders _ hbinder).1 hF
  · obtain ⟨t, rfl⟩ := within_eq_ok hwithin
    exact htidy.apart.subst.acyclic.unbound_of_mem_resolve hv

theorem keeps_arrow (hrigid : sc.Rigid)
    (hbody : ∀ inner expected, inner.Rigid →
      Keeps (expected.toList ++ inner.known) (fun t => [t]) (body inner expected)) :
    Keeps sc.known (fun t => [t]) (arrow sc node tparams params ret body) := by
  intro x
  have hkeeps : Keeps sc.known (fun (gs, f) => [f, .poly (gs.map fun g => (g.1, g.2.1)) .any])
      (function sc node tparams params ret body) := keeps_function hrigid hbody
  obtain ⟨events, heq, hsafe⟩ := hkeeps x
  obtain ⟨r, y, hrun⟩ : ∃ r y, function sc node tparams params ret body x = (r, y) := ⟨_, _, rfl⟩
  have harrow : arrow sc node tparams params ret body x =
      (function sc node tparams params ret body >>= fun (gs, f) => do
        let t := if 1 < params.length then .any else generalized gs f
        note fun u => .returns ⟨u, sc, [t]⟩ x.state.unifier gs f
        return t) x := rfl
  rw [harrow]
  rw [hrun] at heq hsafe
  cases r with
  | error e =>
    rw [bind_of_error hrun]
    exact ⟨events, heq, hsafe⟩
  | ok a =>
    obtain ⟨gs, f⟩ := a
    rw [bind_of_ok hrun]
    let t : Ty := if 1 < params.length then .any else generalized gs f
    refine ⟨events ++ [.returns ⟨y.state.unifier, sc, [t]⟩ x.state.unifier gs f], ?_,
      fun F hu hts => ?_⟩
    · rw [← List.append_assoc, ← heq]
      rfl
    · obtain ⟨hnew, hbinders, hresolved⟩ := function_eq_ok hrigid hbody hu hts hrun
      exact (hsafe F hu hts).returns hu hts hrigid hnew hbinders hresolved (ite_eq_or_eq ..)

end

/-! ## The whole check -/

theorem keeps_unsupported (printed : Except Gap String) :
    Keeps ts (fun t => [t]) (lift (match printed with
      | .ok shown => object node (.unsupportedExpr shown)
      | .error g => throw (.gap g))) := by
  cases printed with
  | ok shown => exact keeps_object _
  | error g => exact keeps_throw (.gap g)

theorem keeps_ident (name : String) (k : Nat) (o : Option Location) :
    Keeps sc.known (fun t => [t]) (lift (Checker.infer sc k (.ident name o))) := by
  rw [Checker.infer]
  cases hfind : sc.values.find? name with
  | none => exact keeps_object _
  | some t =>
    obtain ⟨scope, hscope, hlookup⟩ := List.exists_of_findSome?_eq_some hfind
    have ht : t ∈ sc.identifiers :=
      List.mem_flatMap.mpr ⟨scope, hscope, List.mem_map_of_mem (mem_of_lookup hlookup)⟩
    exact keeps_pure (.of_subset (by simp [Scope.known, ht]))

theorem keeps_declared (name : String) (t : Ty) :
    Keeps ([t] ++ sc.known) Scope.known (lift (declared sc node name t)) := by
  have hknown := known_declare sc name t
  unfold declared
  dsimp only
  split
  · refine .lift_bind ((keeps_object _).bind fun _ _ _ _ => keeps_pure (.of_subset ?_))
    exact fun u hu => List.mem_cons_of_mem _ (hknown hu)
  · exact keeps_pure (.of_subset hknown)

theorem keeps_alias (k : Nat) (name : String) (tparams : List String) (t : TypeExpr) :
    Keeps ts (fun _ => []) (lift (Checker.file sc k [.typeAlias name tparams t])) := by
  rw [Checker.file]
  cases aliasArity? name with
  | none =>
    exact .lift_bind ((keeps_object _).bind fun _ _ _ _ => keeps_pure (.of_subset (List.nil_subset _)))
  | some n =>
    refine .lift fun s a s' hrun F hu hts => ?_
    obtain ⟨_, s₁, hmodify, hrun⟩ := bind_eq_ok.mp hrun
    obtain ⟨-, rfl⟩ := modify_eq_ok.mp hmodify
    obtain ⟨-, rfl⟩ := pure_eq_ok.mp hrun
    exact .refl hu hts (.of_subset (List.nil_subset _))

theorem rigid_of_stmt {k : Nat} {s : Stmt} {after : Scope} (hrigid : sc.Rigid)
    (hrun : stmt sc k s x = (.ok after, y)) : after.Rigid := by
  rw [Scope.Rigid, (stmt_values ((follows_stmt sc k s).eq_ok hrun)).1]
  exact hrigid

/-- A step that finds nothing and stays in its scope. -/
theorem keeps_unsupportedStmt {k : Nat} {s : Stmt}
    (hstmt : Checker.stmt sc k s = object ⟨k, s.origin?⟩ .unsupportedStatement >>= fun _ => pure sc) :
    Keeps sc.known Scope.known (step sc (fun _ => []) (Checker.stmt sc k s)) := by
  have hstep : Keeps sc.known (fun _ => []) (step sc (fun _ => []) (Checker.stmt sc k s)) := by
    refine Keeps.step (List.Subset.refl _) ?_
    rw [hstmt]
    exact .lift_bind ((keeps_object _).bind fun _ _ _ _ => keeps_pure (.of_subset (List.nil_subset _)))
  refine hstep.derive fun after x y hrun => .of_subset ?_
  have hrun := (follows_step _ _ _).eq_ok hrun
  rw [hstmt] at hrun
  obtain ⟨_, _, -, hrun⟩ := bind_eq_ok.mp hrun
  obtain ⟨rfl, -⟩ := pure_eq_ok.mp hrun
  exact List.subset_append_right _ _

/-- What comes after a statement in a body. -/
theorem keeps_rest {k : Nat} {s : Stmt} {expected : Option Ty} {m : Scope → Recorder Ty}
    (hrigid : sc.Rigid) (hs : Keeps sc.known Scope.known (stmt sc k s))
    (hrest : ∀ after, after.Rigid → Keeps (expected.toList ++ after.known) (fun t => [t]) (m after)) :
    Keeps (expected.toList ++ sc.known) (fun t => [t]) (stmt sc k s >>= m) := by
  refine (hs.of_subset (List.subset_append_right _ _)).bind fun after _ _ hrun => ?_
  refine (hrest after (rigid_of_stmt hrigid hrun)).of_subset fun t ht => ?_
  simp only [List.mem_append] at ht ⊢
  tauto

mutual

theorem keeps_infer {sc : Scope} (hrigid : sc.Rigid) (k : Nat) :
    (e : Expr) → Keeps sc.known (fun t => [t]) (infer sc k e)
  | .paren e => keeps_infer hrigid (k + 1) e
  | .arrow tparams params ret b o =>
    keeps_arrow hrigid fun inner expected hinner => keeps_body hinner ⟨k, o⟩ expected (k + 1) b
  | .call fn targs args o => by
    refine (keeps_infer hrigid (k + 1) fn).bind fun t _ _ _ => ?_
    refine (Keeps.step (fun t ht => by simp [ht]) (keeps_resolve (by simp))).bind fun t _ _ _ => ?_
    refine (keeps_explicitInstance hrigid (fun t ht => by simp [ht]) (by simp)).bind fun t _ _ _ => ?_
    refine (keeps_instantiateUpTo (fun t ht => by simp [ht]) (by simp)).bind fun t _ _ _ => ?_
    exact keeps_applied (fun t ht => by simp [ht]) (by simp) (keeps_inferAll hrigid _ args)
  | .ident name o => Keeps.step (List.Subset.refl _) (keeps_ident name k o)
  | .missing => Keeps.step (List.Subset.refl _) (keeps_throw _)
  | .str v => Keeps.step (List.Subset.refl _) (keeps_unsupported (Expr.str v).print)
  | .bool b => Keeps.step (List.Subset.refl _) (keeps_unsupported (Expr.bool b).print)
  | .array es => Keeps.step (List.Subset.refl _) (keeps_unsupported (Expr.array es).print)
  | .object ps => Keeps.step (List.Subset.refl _) (keeps_unsupported (Expr.object ps).print)
  | .index e i => Keeps.step (List.Subset.refl _) (keeps_unsupported (Expr.index e i).print)
  | .prop e n => Keeps.step (List.Subset.refl _) (keeps_unsupported (Expr.prop e n).print)
  | .cond c a b => Keeps.step (List.Subset.refl _) (keeps_unsupported (Expr.cond c a b).print)
  | .cast e t => Keeps.step (List.Subset.refl _) (keeps_unsupported (Expr.cast e t).print)

theorem keeps_inferAll {sc : Scope} (hrigid : sc.Rigid) (k : Nat) :
    (es : List Expr) → Keeps sc.known id (inferAll sc k es)
  | [] => .pure (.of_subset (List.nil_subset _))
  | e :: rest => by
    refine (keeps_infer hrigid k e).bind fun t _ _ _ => ?_
    have hrest := (keeps_inferAll hrigid (k + e.count) rest).of_subset
      (List.subset_append_right [t] _)
    exact hrest.bind fun more _ _ _ => .pure (.of_subset (fun u hu => by
      rcases List.mem_cons.mp hu with rfl | hu
      · simp
      · simp [hu]))

theorem keeps_body {sc : Scope} (hrigid : sc.Rigid) (arrow : Node) (expected : Option Ty) (k : Nat) :
    (b : Body) → Keeps (expected.toList ++ sc.known) (fun t => [t]) (body sc arrow expected k b)
  | .missing => Keeps.step (List.subset_append_right _ _) (keeps_object _)
  | .block stmts => by
    have hknown : (sc.extend []).known ⊆ sc.known := known_extend sc []
    have hinner : (sc.extend []).Rigid := hrigid
    have hblock : Keeps (expected.toList ++ (sc.extend []).known) (fun t => [t])
        (blockBody (sc.extend []) arrow expected k stmts) :=
      keeps_blockBody hinner arrow expected k stmts
    exact hblock.of_subset fun t ht => (List.mem_append.mp ht).elim (List.mem_append_left _) fun ht =>
      List.mem_append_right _ (hknown ht)
  | .expr e => by
    refine ((keeps_infer hrigid k e).of_subset (List.subset_append_right _ _)).bind fun t _ _ _ => ?_
    refine keeps_returned (fun t ht => by simp [ht]) (fun want hwant => ?_) (by simp)
    simp [Option.mem_def.mp hwant]

theorem keeps_blockBody {sc : Scope} (hrigid : sc.Rigid) (arrow : Node) (expected : Option Ty)
    (k : Nat) : (stmts : List Stmt) →
      Keeps (expected.toList ++ sc.known) (fun t => [t]) (blockBody sc arrow expected k stmts)
  | [] => by
    refine Keeps.step (List.subset_append_right _ _) ?_
    cases expected with
    | none => exact keeps_pure .void
    | some want => exact keeps_object _
  | s :: rest => by
    cases s with
    | ret e =>
      refine ((keeps_infer hrigid (k + 1) e).of_subset (List.subset_append_right _ _)).bind
        fun t _ _ _ => ?_
      refine keeps_returned (fun t ht => by simp [ht]) (fun want hwant => ?_) (by simp)
      simp [Option.mem_def.mp hwant]
    | _ =>
      exact keeps_rest hrigid (keeps_stmt hrigid k _) fun after hafter =>
        keeps_blockBody hafter arrow expected _ rest

theorem keeps_stmt {sc : Scope} (hrigid : sc.Rigid) (k : Nat) :
    (s : Stmt) → Keeps sc.known Scope.known (stmt sc k s)
  | .const name type value declare trusted signature o => by
    refine (keeps_constType hrigid (keeps_infer hrigid (k + 1) value)).bind fun t _ _ _ => ?_
    refine (keeps_declared name t).bind fun after _ _ _ => ?_
    refine (Keeps.reaching (List.subset_append_left _ _) (List.nil_subset _)).bind fun _ _ _ _ => ?_
    exact .pure (.of_subset (fun u hu => by simp [hu]))
  | .expr e _ =>
    (keeps_infer hrigid (k + 1) e).bind fun _ _ _ _ => .pure (.of_subset (List.subset_append_right _ _))
  | .missing => keeps_unsupportedStmt rfl
  | .typeAlias _ _ _ => keeps_unsupportedStmt rfl
  | .ret _ => keeps_unsupportedStmt rfl

end

theorem keeps_file {sc : Scope} (hrigid : sc.Rigid) (k : Nat) (stmts : List Stmt) :
    Keeps sc.known (fun _ => []) (file sc k stmts) := by
  induction stmts generalizing sc k with
  | nil => exact .pure (.of_subset (List.nil_subset _))
  | cons s rest ih =>
    have hrest : Keeps sc.known (fun _ => [])
        (stmt sc k s >>= fun after => file after (k + s.count) rest) :=
      (keeps_stmt hrigid k s).bind fun after _ _ hrun =>
        (ih (rigid_of_stmt hrigid hrun) _).of_subset (List.subset_append_left _ _)
    cases s with
    | typeAlias name tparams t =>
      exact (Keeps.step (List.Subset.refl _) (keeps_alias k name tparams t)).bind fun _ _ _ _ =>
        ih hrigid _
    | _ => exact hrest

end Recorder

theorem tidy_empty : Unifier.empty.Tidy Set.univ where
  apart := by simpa [Unifier.flexible] using Unifier.apart_empty (B := ∅)
  bound _ _ _ := trivial

/-- The course of every check is safe, within every depth. -/
theorem safe_course (n : Nat) (stmts : List Stmt) :
    ∃ last, Safe Set.univ [] .empty (course n stmts) last := by
  have hrigid : Scope.empty.Rigid := fun b hb => by simp [Scope.empty] at hb
  obtain ⟨events, heq, hsafe⟩ := Recorder.keeps_file hrigid 0 stmts ⟨.empty n, []⟩
  have hcourse : course n stmts = events := heq
  exact ⟨_, hcourse ▸ hsafe Set.univ tidy_empty (fun t ht => by cases ht)⟩

/-- When an arrow returns, and at every later point of the check, some identifier that is in scope there, or
that was in scope around the arrow, has a type that mentions a constant of the arrow's type parameters,
exactly if an identifier around the arrow left a variable open when the arrow was begun that was bound
in its body to a type that mentions the constant. That is so within every depth of comparisons. -/
theorem mentions_later_iff {n : Nat} {stmts : List Stmt} {pre post : List Event} {p : Point}
    {opened : Unifier} {gs : List Generic} {f : Ty}
    (hcourse : course n stmts = pre ++ .returns p opened gs f :: post) {g : Generic} (hg : g ∈ gs) :
    (∃ e ∈ .returns p opened gs f :: post, ∃ q, e.Comes q ∧
      ∃ t ∈ p.scope.identifiers ++ q.scope.identifiers,
        (q.unifier.resolve t).mentions g.1 g.2.2 = true) ↔
      ∃ t ∈ p.scope.identifiers, ∃ v ∈ (opened.resolve t).freeVars,
        (p.unifier.resolve (.var v)).mentions g.1 g.2.2 = true := by
  obtain ⟨last, hsafe⟩ := safe_course n stmts
  obtain ⟨F, c, -, -, hevents, -⟩ := hsafe.sound
  have hmem : .returns p opened gs f ∈ course n stmts := by simp [hcourse]
  obtain ⟨F₀, -, -, htidy, hbegun⟩ := (hevents _ hmem).2.2.tidy
  have hp := htidy p .returns
  obtain ⟨hcounter, hopened, hidents, hkept⟩ := hbegun p opened gs f rfl
  constructor
  · rintro ⟨e, he, q, hq, t, ht, hm⟩
    by_contra hnone
    push Not at hnone
    have hseals : Event.Seals opened g.1 g.2.2 (.returns p opened gs f) := by
      refine ⟨p, gs, f, rfl, ⟨g, hg, rfl, rfl⟩, fun t ht v hv hexposes => hnone t ht v hv ?_⟩
      have hresolved := hopened.resolve (hidents t ht)
      have hvar : (Ty.var v).Apart F₀ p.unifier.counter :=
        Ty.apart_var (Int.le_trans (hresolved.orderly.le _ hv) hcounter) (hresolved.free v hv)
      exact (hp.unifier.apart.subst.mentions_resolve hvar).mpr hexposes
    have hhidden := hsafe.hidden pre _ post hcourse opened g.1 g.2.2 hseals
    obtain ⟨hvars, hknown⟩ := hhidden.events e he q hq
    have hexposes : q.unifier.subst.Exposes g.1 g.2.2 t :=
      Subst.exposes_of_resolve (fun _ _ hs => hs) (.here hm)
    rcases List.mem_append.mp ht with ht | ht
    · exact hvars.not_exposes (hidents t ht).orderly (Int.le_refl _) hhidden.newer hexposes
    · exact hknown t (List.mem_append_left _ (List.mem_append_left _ ht)) hexposes
  · rintro ⟨t, ht, v, hv, hm⟩
    refine ⟨_, List.mem_cons_self .., p, .returns, t, List.mem_append_left _ ht, ?_⟩
    have htp := hp.known t (List.mem_append_left _ (List.mem_append_left _ ht))
    refine (hp.unifier.apart.subst.mentions_resolve htp).mpr (Subst.exposes_of_resolve hkept ?_)
    exact Subst.exposes_of_mem hv (Subst.exposes_of_resolve (fun _ _ hs => hs) (.here hm))

/-- A constant without an annotation has an open type, and an arrow uses it at its type parameter. -/
def borrowing : List Stmt :=
  [.const "choose" (some (.func ["A"] [] (.ref "A" []))) .missing true false none none,
    .const "open" none (.call (.ident "choose" none) [] [] none) false false none none,
    .const "closed" none (.arrow ["Y"] [] none (.block
      [.const "inner" (some (.ref "Y" [])) (.ident "open" none) false false none none,
        .ret (.ident "inner" none)]) none) false false none none]

/-- The open type becomes the constant that stands for the type parameter, also outside of the arrow. -/
theorem borrowing_mentions : ∃ pre p opened gs f post, ∃ g ∈ gs,
    course 2 borrowing = pre ++ .returns p opened gs f :: post ∧
      ∃ e ∈ .returns p opened gs f :: post, ∃ q, e.Comes q ∧
        ∃ t ∈ p.scope.identifiers ++ q.scope.identifiers,
          (q.unifier.resolve t).mentions g.1 g.2.2 = true := by
  have hany : (course 2 borrowing).any (fun
      | .returns p opened gs _ => gs.any fun g => p.scope.identifiers.any fun t =>
        (opened.resolve t).freeVars.any fun v => (p.unifier.resolve (.var v)).mentions g.1 g.2.2
      | _ => false) = true := by decide +kernel
  obtain ⟨e, he, hmatch⟩ := List.any_eq_true.mp hany
  obtain ⟨pre, post, hcourse⟩ := List.append_of_mem he
  cases e with
  | returns p opened gs f =>
    simp only [List.any_eq_true] at hmatch
    obtain ⟨g, hg, t, ht, v, hv, hm⟩ := hmatch
    exact ⟨pre, p, opened, gs, f, post, g, hg, hcourse,
      (mentions_later_iff hcourse hg).mpr ⟨t, ht, v, hv, hm⟩⟩
  | _ => cases hmatch

end Checker

end ProofScript
