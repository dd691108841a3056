import ProofScript.Proofs.Sessions

/-!
# Constants stay within their comparison

A polymorphic target is compared at rigid constants that no type has before. If the comparison succeeds,
no variable that had a number before leads to such a constant, wherever in the compared types the
polymorphic type occurs. Variables that lead to a constant of the target in the end were bound before, or
take part in the comparison of its body; the first would have to mention the constant themselves, and for
the second the free variables of the two types are checked.
-/

namespace ProofScript

open Stateful

/-! ## Constants of a type -/

namespace Ty

variable {F : Set TyVar} {c : TyVar} {n : String} {i : TyVar}

mutual

theorem Orderly.mentions : (t : Ty) → t.Orderly F c → t.mentions n i = true → i ≤ c
  | var _, _, hm => by simp [Ty.mentions] at hm
  | rigid _ j, h, hm => by
    have hij : j = i := by simpa using (Bool.and_eq_true_iff.mp hm).2
    exact hij ▸ h
  | thunk r, h, hm => Orderly.mentions r h hm
  | fn a r, h, hm => by
    rcases Bool.or_eq_true_iff.mp hm with hm | hm
    · exact Orderly.mentions a h.1 hm
    · exact Orderly.mentions r h.2 hm
  | con _ as, h, hm => OrderlyAll.mentions as h hm
  | poly _ b, h, hm => Orderly.mentions b h.2 hm
  | never, _, hm => by simp [Ty.mentions] at hm
  | any, _, hm => by simp [Ty.mentions] at hm

theorem OrderlyAll.mentions : (ts : List Ty) → OrderlyAll F c ts → mentionsAny n i ts = true → i ≤ c
  | [], _, hm => by simp [mentionsAny] at hm
  | t :: rest, h, hm => by
    rcases Bool.or_eq_true_iff.mp hm with hm | hm
    · exact Orderly.mentions t h.1 hm
    · exact OrderlyAll.mentions rest h.2 hm

end

mutual

/-- What a type mentions after a substitution, it or a replacement of one of its free variables
mentions. Binders capture no constants. -/
theorem mentions_apply {σ : Subst} : (t : Ty) → ((t.apply σ).mentions n i = true ↔
    t.mentions n i = true ∨ ∃ v ∈ t.freeVars, ∃ s, σ.find? v = some s ∧ s.mentions n i = true)
  | var v => by
    rw [Ty.apply]
    cases hv : σ.find? v with
    | none => simp [mentions, freeVars, hv]
    | some s => simp [mentions, freeVars, hv]
  | rigid _ _ => by simp [Ty.apply, freeVars]
  | thunk r => mentions_apply r
  | fn a r => by
    simp only [Ty.apply, mentions, Bool.or_eq_true, mentions_apply a, mentions_apply r, freeVars,
      List.mem_append, or_and_right, exists_or]
    exact or_or_or_comm.trans (or_congr_right or_comm)
  | con _ as => mentionsAny_apply as
  | poly ps b => by
    simp only [Ty.apply, mentions, mentions_apply b, Subst.find?_without,
      Option.ite_none_left_eq_some, freeVars, List.mem_filter]
    simp [and_assoc]
  | never => by simp [Ty.apply, freeVars]
  | any => by simp [Ty.apply, freeVars]

theorem mentionsAny_apply {σ : Subst} : (ts : List Ty) → (mentionsAny n i (applyAll σ ts) = true ↔
    mentionsAny n i ts = true ∨
      ∃ v ∈ freeVarsAll ts, ∃ s, σ.find? v = some s ∧ s.mentions n i = true)
  | [] => by simp [applyAll, mentionsAny, freeVarsAll]
  | t :: rest => by
    simp only [applyAll, mentionsAny, Bool.or_eq_true, mentions_apply t, mentionsAny_apply rest,
      freeVarsAll, List.mem_append, or_and_right, exists_or]
    exact or_or_or_comm

end

/-- What an instance mentions, the polymorphic type or an argument mentions. -/
theorem mentions_of_instantiateWith {ps : List (String × TyVar)} {body : Ty} {args : List Ty}
    (hm : (instantiateWith ps body args).mentions n i = true) :
    body.mentions n i = true ∨ ∃ a ∈ args, a.mentions n i = true :=
  ((mentions_apply body).mp hm).imp_right fun ⟨_, _, s, hs, hm⟩ => ⟨s, mem_of_find?_zip hs, hm⟩

end Ty

/-! ## Constants that a type leads to -/

namespace Subst

variable {F : Set TyVar} {c : TyVar} {σ : Subst} {n : String} {i : TyVar} {t : Ty}

/-- A constant occurs in a type or in what its free variables lead to. -/
inductive Exposes (σ : Subst) (n : String) (i : TyVar) : Ty → Prop
  | here {t : Ty} : t.mentions n i = true → Exposes σ n i t
  | within {t s : Ty} {v : TyVar} : v ∈ t.freeVars → σ.find? v = some s → Exposes σ n i s →
    Exposes σ n i t

theorem exposes_var {v : TyVar} :
    σ.Exposes n i (.var v) ↔ ∃ s, σ.find? v = some s ∧ σ.Exposes n i s := by
  constructor
  · intro h
    cases h with
    | here hm => simp [Ty.mentions] at hm
    | within hw hs h =>
      rw [Ty.freeVars, List.mem_singleton] at hw
      exact ⟨_, hw ▸ hs, h⟩
  · rintro ⟨s, hs, h⟩
    exact .within (by simp [Ty.freeVars]) hs h

theorem exposes_of_mem {v : TyVar} (hv : v ∈ t.freeVars) (h : σ.Exposes n i (.var v)) :
    σ.Exposes n i t := by
  obtain ⟨s, hs, h⟩ := exposes_var.mp h
  exact .within hv hs h

theorem Apart.le_of_exposes (h : σ.Apart F c) (ht : t.mentions n i = true → i ≤ c)
    (hexposes : σ.Exposes n i t) : i ≤ c := by
  induction hexposes with
  | here hm => exact ht hm
  | within _ hs _ ih => exact ih ((h.orderly _ _ hs).2.mentions _)

/-- What a substitution binds leads to nothing else, also once more is bound. -/
theorem exposes_of_apply {σ' : Subst} (hσ : ∀ v s, σ.find? v = some s → σ'.find? v = some s)
    (hexposes : σ'.Exposes n i (t.apply σ)) : σ'.Exposes n i t := by
  cases hexposes with
  | here hm =>
    rcases (Ty.mentions_apply t).mp hm with hm | ⟨v, hv, s, hs, hm⟩
    · exact .here hm
    · exact .within hv (hσ v s hs) (.here hm)
  | within hv hs hexposes =>
    rcases Ty.mem_freeVars_of_apply t hv with ⟨hv, -⟩ | ⟨w, hw, r, hr, hv⟩
    · exact .within hv hs hexposes
    · exact .within hw (hσ w r hr) (.within hv hs hexposes)

theorem exposes_of_resolve {σ' : Subst} (hσ : ∀ v s, σ.find? v = some s → σ'.find? v = some s)
    (hexposes : σ'.Exposes n i (t.resolve σ)) : σ'.Exposes n i t := by
  refine resolve_induct (p := fun u => σ'.Exposes n i u → σ'.Exposes n i t) id ?_ hexposes
  exact fun u hu hexposes => hu (exposes_of_apply hσ hexposes)

theorem Apart.exposes_apply {σ' : Subst} (h : σ.Apart F c)
    (hσ : ∀ v s, σ.find? v = some s → σ'.find? v = some s) (ht : t.Apart F c)
    (hexposes : σ'.Exposes n i t) : σ'.Exposes n i (t.apply σ) := by
  cases hexposes with
  | here hm => exact .here ((Ty.mentions_apply t).mpr (.inl hm))
  | @within _ s v hv hs hexposes =>
    cases hfind : σ.find? v with
    | none =>
      refine .within (ht.orderly.mem_freeVars_apply (.inl rfl) ?_ t hv) hs hexposes
      simp [hfind, Ty.freeVars]
    | some r =>
      obtain rfl : r = s := Option.some.inj ((hσ v r hfind).symm.trans hs)
      cases hexposes with
      | here hm => exact .here ((Ty.mentions_apply t).mpr (.inr ⟨v, hv, r, hfind, hm⟩))
      | @within _ _ w hw hr hexposes =>
        -- No binder of the type captures a variable of the replacement.
        refine .within (ht.orderly.mem_freeVars_apply (.inr ?_) ?_ t hv) hr hexposes
        · exact h.free v (ht.free v hv) r hfind w hw
        · simpa [hfind] using hw

theorem Apart.exposes_resolve {σ' : Subst} (h : σ.Apart F c)
    (hσ : ∀ v s, σ.find? v = some s → σ'.find? v = some s) (ht : t.Apart F c)
    (hexposes : σ'.Exposes n i t) : σ'.Exposes n i (t.resolve σ) := by
  refine (resolve_induct (p := fun u => u.Apart F c ∧ σ'.Exposes n i u) ⟨ht, hexposes⟩ ?_).2
  rintro u ⟨hu, hexposes⟩
  exact ⟨h.apply hu, h.exposes_apply hσ hu hexposes⟩

/-- A resolved type mentions all that the type leads to. -/
theorem Apart.mentions_resolve (h : σ.Apart F c) (ht : t.Apart F c) :
    (t.resolve σ).mentions n i = true ↔ σ.Exposes n i t := by
  refine ⟨fun hm => exposes_of_resolve (fun _ _ hs => hs) (.here hm), fun hexposes => ?_⟩
  cases h.exposes_resolve (fun _ _ hs => hs) ht hexposes with
  | here hm => exact hm
  | within hv hs _ => simp [h.acyclic.unbound_of_mem_resolve hv] at hs

end Subst

/-! ## Confined types and bindings -/

/-- All free variables and constants of a type are of these. -/
structure Ty.Confined (Z : Set TyVar) (K : String → TyVar → Prop) (t : Ty) : Prop where
  vars : ∀ v ∈ t.freeVars, v ∈ Z
  consts : ∀ n i, t.mentions n i = true → K n i

namespace Ty

variable {Z : Set TyVar} {K : String → TyVar → Prop}

theorem confined_thunk {r : Ty} : (thunk r).Confined Z K ↔ r.Confined Z K :=
  ⟨fun h => ⟨h.vars, h.consts⟩, fun h => ⟨h.vars, h.consts⟩⟩

theorem confined_fn {a r : Ty} : (fn a r).Confined Z K ↔ a.Confined Z K ∧ r.Confined Z K := by
  constructor
  · intro h
    refine ⟨⟨fun v hv => h.vars v ?_, fun n i hm => h.consts n i ?_⟩,
      ⟨fun v hv => h.vars v ?_, fun n i hm => h.consts n i ?_⟩⟩
    · simp [freeVars, hv]
    · simp [mentions, hm]
    · simp [freeVars, hv]
    · simp [mentions, hm]
  · rintro ⟨ha, hr⟩
    refine ⟨fun v hv => ?_, fun n i hm => ?_⟩
    · rw [freeVars, List.mem_append] at hv
      exact hv.elim (hr.vars v) (ha.vars v)
    · exact (Bool.or_eq_true_iff.mp hm).elim (ha.consts n i) (hr.consts n i)

theorem Confined.arguments {f : String} {as : List Ty} (h : (con f as).Confined Z K) :
    ∀ a ∈ as, a.Confined Z K := by
  have hall : ∀ ts : List Ty, (∀ v ∈ freeVarsAll ts, v ∈ Z) →
      (∀ n i, mentionsAny n i ts = true → K n i) → ∀ a ∈ ts, a.Confined Z K := by
    intro ts hvars hconsts
    induction ts with
    | nil => simp
    | cons t rest ih =>
      refine List.forall_mem_cons.mpr ⟨⟨fun v hv => hvars v ?_, fun n i hm => hconsts n i ?_⟩,
        ih (fun v hv => hvars v ?_) fun n i hm => hconsts n i ?_⟩
      · simp [freeVarsAll, hv]
      · simp [mentionsAny, hm]
      · simp [freeVarsAll, hv]
      · simp [mentionsAny, hm]
  exact hall as h.vars h.consts

theorem Confined.instantiateWith {ps : List (String × TyVar)} {body : Ty} {args : List Ty}
    (hlen : ps.length = args.length) (h : (poly ps body).Confined Z K)
    (hargs : ∀ a ∈ args, a.Confined Z K) : (Ty.instantiateWith ps body args).Confined Z K where
  vars v hv := by
    rcases mem_freeVars_of_instantiateWith hlen hv with hv | ⟨a, ha, hv⟩
    · exact h.vars v hv
    · exact (hargs a ha).vars v hv
  consts n i hm := by
    rcases mentions_of_instantiateWith hm with hm | ⟨a, ha, hm⟩
    · exact h.consts n i hm
    · exact (hargs a ha).consts n i hm

end Ty

namespace Unifier

variable {F Z : Set TyVar} {K : String → TyVar → Prop} {u u' : Unifier} {t : Ty}

/-- What variables of `Z` are bound to is confined, and numbers that are not taken may be used. -/
structure Confined (Z : Set TyVar) (K : String → TyVar → Prop) (u : Unifier) : Prop where
  vars : ∀ v, u.counter < v → v ∈ Z
  consts : ∀ n i, u.counter < i → K n i
  bound : ∀ v ∈ Z, ∀ t, u.subst.find? v = some t → t.Confined Z K

/-- A confined type leads to constants of `K` only. -/
theorem Confined.of_exposes (h : u.Confined Z K) (ht : t.Confined Z K) {n : String} {i : TyVar}
    (hexposes : u.subst.Exposes n i t) : K n i := by
  induction hexposes with
  | here hm => exact ht.consts n i hm
  | within hv hs _ ih => exact ih (h.bound _ (ht.vars _ hv) _ hs)

theorem Confined.shallow (h : u.Confined Z K) (ht : t.Confined Z K) : (u.shallow t).Confined Z K := by
  refine Subst.shallowUpTo_induct (p := fun t => t.Confined Z K) ht (fun v s hvar hv => ?_) _
  exact h.bound v (hvar.vars v (by simp [Ty.freeVars])) s hv

/-- A later state: bindings are only added, and only for variables of `Z`, to confined types. -/
structure Spreads (Z : Set TyVar) (K : String → TyVar → Prop) (u u' : Unifier) : Prop where
  confined : u'.Confined Z K
  kept : ∀ v t, u.subst.find? v = some t → u'.subst.find? v = some t
  outside : ∀ v ∉ Z, u'.subst.find? v = u.subst.find? v

theorem Spreads.refl (h : u.Confined Z K) : u.Spreads Z K u :=
  ⟨h, fun _ _ hv => hv, fun _ _ => rfl⟩

theorem Spreads.trans {mid : Unifier} (h : u.Spreads Z K mid) (h' : mid.Spreads Z K u') :
    u.Spreads Z K u' where
  confined := h'.confined
  kept v t hv := h'.kept v t (h.kept v t hv)
  outside v hv := (h'.outside v hv).trans (h.outside v hv)

theorem Confined.equate (h : u.Confined Z K) (pairs : List (Ty × Ty)) :
    u.Spreads Z K { u with equated := pairs } :=
  ⟨⟨h.vars, h.consts, h.bound⟩, fun _ _ hv => hv, fun _ _ => rfl⟩

theorem Confined.freshAll (h : u.Confined Z K) (names : List String) :
    u.Spreads Z K (u.freshAll names).2 := by
  rw [(freshAll_eq u names).1]
  refine ⟨⟨fun v hv => h.vars v ?_, fun n i hi => h.consts n i ?_, h.bound⟩, fun _ _ hv => hv,
    fun _ _ => rfl⟩
  · dsimp only at hv
    lia
  · dsimp only at hi
    lia

theorem Confined.bind (h : u.Confined Z K) {v : TyVar} (hv : u.subst.find? v = none) (hZ : v ∈ Z)
    (ht : t.Confined Z K) : u.Spreads Z K { u with subst := u.subst.insert v t } := by
  refine ⟨⟨h.vars, h.consts, fun w hw s hs => ?_⟩, fun w s hs => ?_, fun w hw => ?_⟩
  · rw [Subst.find?_insert] at hs
    split at hs
    · cases hs
      exact ht
    · exact h.bound w hw s hs
  · rw [Subst.find?_insert, if_neg, hs]
    rintro rfl
    rw [hv] at hs
    cases hs
  · rw [Subst.find?_insert, if_neg]
    rintro rfl
    exact hw hZ

theorem Confined.instantiate (h : u.Confined Z K) {ps : List (String × TyVar)} {body : Ty}
    (ht : (Ty.poly ps body).Confined Z K) :
    u.Spreads Z K (u.instantiate ps body).2 ∧ (u.instantiate ps body).1.Confined Z K := by
  obtain ⟨-, hlen, hbound, -⟩ := freshAll_eq u (ps.map Prod.fst)
  refine ⟨h.freshAll _, ht.instantiateWith (by simp [hlen]) ?_⟩
  intro a ha
  obtain ⟨v, hv, rfl⟩ := List.mem_map.mp ha
  refine ⟨fun w hw => ?_, by simp [Ty.mentions]⟩
  rw [Ty.freeVars, List.mem_singleton] at hw
  exact hw ▸ h.vars v (hbound v hv).1

theorem Confined.skolemize (h : u.Confined Z K) {ps : List (String × TyVar)} {body : Ty}
    (ht : (Ty.poly ps body).Confined Z K) :
    u.Spreads Z K (u.skolemize ps body).2 ∧ (u.skolemize ps body).1.2.Confined Z K := by
  obtain ⟨-, hlen, hbound, -⟩ := freshAll_eq u (ps.map Prod.fst)
  refine ⟨h.freshAll _, ht.instantiateWith (by simp [hlen]) ?_⟩
  intro a ha
  obtain ⟨s, hs, rfl⟩ := List.mem_map.mp ha
  refine ⟨by simp [Ty.freeVars], fun n i hm => h.consts n i ?_⟩
  have hi : s.2 = i := by simpa using (Bool.and_eq_true_iff.mp hm).2
  exact hi ▸ (hbound s.2 (List.of_mem_zip hs).2).1

theorem Apart.not_exposes (h : u.Apart F) (ht : t.Apart F u.counter) {n : String} {i : TyVar}
    (hi : u.counter < i) : ¬ u.subst.Exposes n i t :=
  fun hexposes => Int.not_le.mpr hi (h.subst.le_of_exposes (ht.orderly.mentions t) hexposes)

theorem skolemize_subst (ps : List (String × TyVar)) (body : Ty) :
    (u.skolemize ps body).2.subst = u.subst := by
  change (u.freshAll (ps.map Prod.fst)).2.subst = u.subst
  rw [(freshAll_eq u _).1]

theorem instantiate_subst (ps : List (String × TyVar)) (body : Ty) :
    (u.instantiate ps body).2.subst = u.subst := by
  change (u.freshAll (ps.map Prod.fst)).2.subst = u.subst
  rw [(freshAll_eq u _).1]

theorem freeVars_skolemize {ps : List (String × TyVar)} {body : Ty} {v : TyVar}
    (hv : v ∈ (u.skolemize ps body).1.2.freeVars) : v ∈ (Ty.poly ps body).freeVars := by
  obtain ⟨-, hlen, -, -⟩ := freshAll_eq u (ps.map Prod.fst)
  rcases Ty.mem_freeVars_of_instantiateWith (by simp [hlen]) hv with hv | ⟨a, ha, hv⟩
  · exact hv
  · obtain ⟨s, -, rfl⟩ := List.mem_map.mp ha
    simp [Ty.freeVars] at hv

/-- A polymorphic type at fresh constants leads to these and to nothing else that is new. -/
theorem Apart.exposes_skolemize (h : u.Apart F) {ps : List (String × TyVar)} {body : Ty}
    (ht : (Ty.poly ps body).Apart F u.counter) {n : String} {i : TyVar}
    (hexposes : u.subst.Exposes n i (u.skolemize ps body).1.2) (hi : u.counter < i) :
    (n, i) ∈ (u.skolemize ps body).1.1 := by
  by_contra hmem
  refine Int.not_le.mpr hi (h.subst.le_of_exposes (fun hm => ?_) hexposes)
  rcases Ty.mentions_of_instantiateWith hm with hm | ⟨a, ha, hm⟩
  · exact ht.orderly.2.mentions _ hm
  · obtain ⟨s, hs, rfl⟩ := List.mem_map.mp ha
    simp only [Ty.mentions, Bool.and_eq_true, decide_eq_true_eq] at hm
    exact absurd (by rwa [← hm.1, ← hm.2]) hmem

/-- A polymorphic type at fresh variables leads to no new constants. -/
theorem Apart.exposes_instantiate (h : u.Apart F) {ps : List (String × TyVar)} {body : Ty}
    (ht : (Ty.poly ps body).Apart F u.counter) {n : String} {i : TyVar}
    (hexposes : u.subst.Exposes n i (u.instantiate ps body).1) : i ≤ u.counter := by
  refine h.subst.le_of_exposes (fun hm => ?_) hexposes
  rcases Ty.mentions_of_instantiateWith hm with hm | ⟨a, ha, hm⟩
  · exact ht.orderly.2.mentions _ hm
  · obtain ⟨v, -, rfl⟩ := List.mem_map.mp ha
    simp [Ty.mentions] at hm

end Unifier

/-! ## Comparisons of confined types -/

namespace Unify

variable {F Z : Set TyVar} {K : String → TyVar → Prop} {u u' : Unifier} {src dst : Ty}

theorem inherits_confined (Z : Set TyVar) (K : String → TyVar → Prop) :
    Inherits (fun t => t.Confined Z K) fun t => t.Confined Z K :=
  ⟨Ty.confined_thunk.mp, Ty.confined_fn.mp, Ty.Confined.arguments⟩

/-- Comparisons of confined types bind only variables that they may use, to confined types. -/
theorem carries_spreads (F Z : Set TyVar) (K : String → TyVar → Prop) :
    Carries (fun u => u.Apart F ∧ u.Confined Z K)
      (fun u t => t.Apart F u.counter ∧ t.Confined Z K)
      fun u u' => u.Advances F F u' ∧ u.Spreads Z K u' where
  refl h := ⟨.refl h.1, .refl h.2⟩
  trans h h' := ⟨h.1.trans h'.1, h.2.trans h'.2⟩
  state h := ⟨h.1.apart, h.2.confined⟩
  type h ht := ⟨h.1.type ht.1, ht.2⟩
  parts _ :=
    { thunk := fun h => ⟨(inherits_apart F _).thunk h.1, (inherits_confined Z K).thunk h.2⟩
      fn := fun h =>
        have hapart := (inherits_apart F _).fn h.1
        have hconfined := (inherits_confined Z K).fn h.2
        ⟨⟨hapart.1, hconfined.1⟩, hapart.2, hconfined.2⟩
      con := fun h a ha => ⟨(inherits_apart F _).con h.1 a ha, (inherits_confined Z K).con h.2 a ha⟩ }
  shallow h ht := ⟨h.1.shallow ht.1, h.2.shallow ht.2⟩
  equate _ h := ⟨h.1.equate _, h.2.equate _⟩
  bind := fun h ⟨_, hv⟩ hvar ht hfree =>
    have hunbound := h.1.unbound hv
    ⟨h.1.bind hunbound hvar.1 ht.1 hfree,
      h.2.bind hunbound (hvar.2.vars _ (by simp [Ty.freeVars])) ht.2⟩
  skolemize h ht :=
    have hapart := h.1.skolemize ht.1
    have hconfined := h.2.skolemize ht.2
    ⟨⟨hapart.1, hconfined.1⟩, hapart.2, hconfined.2⟩
  instantiate h ht :=
    have hapart := h.1.instantiate ht.1
    have hconfined := h.2.instantiate ht.2
    ⟨⟨hapart.1, hconfined.1⟩, hapart.2, hconfined.2⟩

theorem assign_spreads (n : Nat) {r : Except Stop Unit} (hu : u.Apart F) (hsrc : src.Apart F u.counter)
    (hdst : dst.Apart F u.counter) (hc : u.Confined Z K) (hcsrc : src.Confined Z K)
    (hcdst : dst.Confined Z K) (h : assign n src dst u = (r, u')) : u.Spreads Z K u' := by
  have hspreads := (carries_spreads F Z K).assign n ⟨hu, hc⟩ ⟨hsrc, hcsrc⟩ ⟨hdst, hcdst⟩
  rw [h] at hspreads
  exact hspreads.2

/-! ## Constants that types do not lead to -/

theorem confined_of_not_exposes {σ : Subst} {c : TyVar} {t : Ty} {n : String} {i : TyVar}
    (h : ¬ σ.Exposes n i t) :
    t.Confined {v | c < v ∨ ¬ σ.Exposes n i (.var v)} fun m j => ¬ (m = n ∧ j = i) where
  vars _ hv := .inr fun hexposes => h (Subst.exposes_of_mem hv hexposes)
  consts := by
    rintro m j hm ⟨rfl, rfl⟩
    exact h (.here hm)

/-- The variables that do not lead to a constant. -/
theorem confined_hidden {n : String} {i : TyVar} (hu : u.Apart F) (hi : i ≤ u.counter) :
    u.Confined {v | u.counter < v ∨ ¬ u.subst.Exposes n i (.var v)} fun m j => ¬ (m = n ∧ j = i) := by
  refine ⟨fun v hv => .inl hv, ?_, fun v hv s hfind => confined_of_not_exposes ?_⟩
  · rintro m j hj ⟨-, rfl⟩
    exact absurd hi (Int.not_le.mpr hj)
  · rcases hv with hlt | hv
    · rw [hu.find?_of_lt hlt] at hfind
      cases hfind
    · exact fun hexposes => hv (Subst.exposes_var.mpr ⟨s, hfind, hexposes⟩)

/-- The variables that do not lead to a constant in a later state. -/
theorem confined_unexposed {n : String} {i : TyVar} (hu : u.Apart F)
    (hkept : ∀ v t, u.subst.find? v = some t → u'.subst.find? v = some t) :
    u.Confined {v | u.counter < v ∨ ¬ u'.subst.Exposes n i (.var v)} fun _ _ => True := by
  refine ⟨fun v hv => .inl hv, fun _ _ _ => trivial, fun v hv s hfind => ⟨fun w hw => ?_,
    fun _ _ _ => trivial⟩⟩
  rcases hv with hlt | hv
  · rw [hu.find?_of_lt hlt] at hfind
    cases hfind
  · refine .inr fun hexposes => hv (Subst.exposes_var.mpr ⟨s, hkept v s hfind, ?_⟩)
    exact Subst.exposes_of_mem hw hexposes

/-- A constant that the compared types do not lead to before is not spread by their comparison. -/
theorem not_exposes_of_assign {m : Nat} {t : Ty} {n : String} {i : TyVar} (hu : u.Apart F)
    (hsrc : src.Apart F u.counter) (hdst : dst.Apart F u.counter)
    (h : assign m src dst u = (.ok (), u')) (hi : i ≤ u.counter)
    (hs : ¬ u.subst.Exposes n i src) (hd : ¬ u.subst.Exposes n i dst)
    (ht : ¬ u.subst.Exposes n i t) : ¬ u'.subst.Exposes n i t := by
  have hspreads := assign_spreads m hu hsrc hdst (confined_hidden hu hi) (confined_of_not_exposes hs)
    (confined_of_not_exposes hd) h
  exact fun hexposes => hspreads.confined.of_exposes (confined_of_not_exposes ht) hexposes ⟨rfl, rfl⟩

/-- If the free variables of the compared types do not lead to a constant afterwards, the variables of
before that do are bound as they were. -/
theorem bound_before_of_exposes {m : Nat} {n : String} {i : TyVar} (hu : u.Apart F)
    (hsrc : src.Apart F u.counter) (hdst : dst.Apart F u.counter)
    (h : assign m src dst u = (.ok (), u'))
    (hs : ∀ v ∈ src.freeVars, ¬ u'.subst.Exposes n i (.var v))
    (hd : ∀ v ∈ dst.freeVars, ¬ u'.subst.Exposes n i (.var v)) {v : TyVar} (hv : v ≤ u.counter)
    (hexposes : u'.subst.Exposes n i (.var v)) : u'.subst.find? v = u.subst.find? v := by
  have hkept : ∀ v t, u.subst.find? v = some t → u'.subst.find? v = some t := by
    have hall : ∀ t : Ty, t.Confined Set.univ fun _ _ => True :=
      fun _ => ⟨fun _ _ => trivial, fun _ _ _ => trivial⟩
    exact (assign_spreads m hu hsrc hdst ⟨fun _ _ => trivial, fun _ _ _ => trivial,
      fun _ _ t _ => hall t⟩ (hall src) (hall dst) h).kept
  have hc := confined_unexposed (n := n) (i := i) hu hkept
  refine (assign_spreads m hu hsrc hdst hc ?_ ?_ h).outside v ?_
  · exact ⟨fun w hw => .inr (hs w hw), fun _ _ _ => trivial⟩
  · exact ⟨fun w hw => .inr (hd w hw), fun _ _ _ => trivial⟩
  · rintro (hlt | hnot)
    · exact Int.not_lt.mpr hv hlt
    · exact hnot hexposes

/-! ## Constants of a polymorphic target -/

/-- No type of before leads to a constant with a number that was taken since. -/
def Hides (F : Set TyVar) (u u' : Unifier) : Prop :=
  ∀ t : Ty, t.Apart F u.counter → ∀ n i, u.counter < i → ¬ u'.subst.Exposes n i t

theorem hides_of_counter (h : u.Advances F F u') (hcounter : u'.counter = u.counter) :
    Hides F u u' := by
  intro t ht n i hi hexposes
  have hle := h.apart.subst.le_of_exposes ((h.type ht).orderly.mentions t) hexposes
  lia

/-- If the variables of before that lead to a new constant are bound as they were, no type of before leads
to it. -/
theorem not_exposes_of_before {t : Ty} {n : String} {i : TyVar} (hu : u.Apart F)
    (hbefore : ∀ v ≤ u.counter, u'.subst.Exposes n i (.var v) → u'.subst.find? v = u.subst.find? v)
    (ht : t.Orderly F u.counter) (hi : u.counter < i) : ¬ u'.subst.Exposes n i t := by
  -- On the way to the constant all is as before, so that a type of before mentions it in the end.
  intro hexposes
  induction hexposes with
  | here hm => exact Int.not_le.mpr hi (ht.mentions _ hm)
  | @within _ _ v hv hfind hexposes ih =>
    refine ih (hu.subst.orderly v _ ?_).2
    rw [← hbefore _ (ht.le _ hv) (Subst.exposes_var.mpr ⟨_, hfind, hexposes⟩), hfind]

/-- A further comparison hides a constant from a type, if its types do not lead to it or it is new to
them as well. -/
theorem not_exposes_of_hides {mid : Unifier} {m : Nat} {t : Ty} {n : String} {i : TyVar}
    (hmid : mid.Apart F) (hsrc : src.Apart F mid.counter) (hdst : dst.Apart F mid.counter)
    (h : assign m src dst mid = (.ok (), u')) (hhides : Hides F mid u') (ht : t.Apart F mid.counter)
    (hnot : ¬ mid.subst.Exposes n i t)
    (htypes : i ≤ mid.counter → ¬ mid.subst.Exposes n i src ∧ ¬ mid.subst.Exposes n i dst) :
    ¬ u'.subst.Exposes n i t := by
  rcases Int.lt_or_le mid.counter i with hlt | hle
  · exact hhides t ht n i hlt
  · exact not_exposes_of_assign hmid hsrc hdst h hle (htypes hle).1 (htypes hle).2 hnot

/-- The check that no constant of the target escapes finds each of them that a variable leads to. -/
theorem not_exposes_of_escaping {vs : List TyVar} {skolems : List (String × TyVar)} (hu : u.Apart F)
    (h : escaping u vs skolems = []) {v : TyVar} (hv : v ∈ vs) (hvar : (Ty.var v).Apart F u.counter)
    {s : String × TyVar} (hs : s ∈ skolems) : ¬ u.subst.Exposes s.1 s.2 (.var v) := by
  intro hexposes
  exact not_mentions_of_escaping h hv hs ((hu.subst.mentions_resolve hvar).mpr hexposes)

theorem generalize_hides {m : Nat} {ps : List (String × TyVar)} {s b : Ty} (hu : u.Apart F)
    (hs : s.Apart F u.counter) (hd : (Ty.poly ps b).Apart F u.counter)
    (hbody : assign m s (u.skolemize ps b).1.2 (u.skolemize ps b).2 = (.ok (), u'))
    (hescape : escaping u' (s.freeVars ++ (Ty.poly ps b).freeVars) (u.skolemize ps b).1.1 = [])
    (hhides : Hides F (u.skolemize ps b).2 u') : Hides F u u' := by
  obtain ⟨hmid, hb⟩ := hu.skolemize hd
  have hsubst := u.skolemize_subst ps b
  intro t ht n i hi
  by_cases hmem : (n, i) ∈ (u.skolemize ps b).1.1
  · have hfree : ∀ v ∈ s.freeVars ++ (Ty.poly ps b).freeVars, ¬ u'.subst.Exposes n i (.var v) := by
      intro v hv
      have hadvances := hmid.trans (assign_advances hmid.apart (hmid.type hs) hb hbody)
      refine not_exposes_of_escaping hadvances.apart hescape hv (hadvances.type ?_) hmem
      rcases List.mem_append.mp hv with hv | hv
      · exact Ty.apart_var (hs.orderly.le s hv) (hs.free v hv)
      · exact Ty.apart_var (hd.orderly.le _ hv) (hd.free v hv)
    have hbody : ∀ v ≤ u.counter, u'.subst.Exposes n i (.var v) →
        u'.subst.find? v = u.subst.find? v := by
      intro v hv hexposes
      rw [← hsubst]
      refine bound_before_of_exposes hmid.apart (hmid.type hs) hb hbody ?_ ?_
        (Int.le_trans hv hmid.counter) hexposes
      · exact fun w hw => hfree w (List.mem_append_left _ hw)
      · exact fun w hw => hfree w (List.mem_append_right _ (Unifier.freeVars_skolemize hw))
    exact not_exposes_of_before hu hbody ht.orderly hi
  · refine not_exposes_of_hides hmid.apart (hmid.type hs) hb hbody hhides (hmid.type ht) ?_ ?_
    · rw [hsubst]
      exact hu.not_exposes ht hi
    · intro _
      rw [hsubst]
      exact ⟨hu.not_exposes hs hi, fun hexposes => hmem (hu.exposes_skolemize hd hexposes hi)⟩

/-- Several comparisons hide their constants from each other's types. -/
theorem loop_hides {m : Nat} {pairs : List (Ty × Ty)} (hu : u.Apart F)
    (hpairs : ∀ p ∈ pairs, p.1.Apart F u.counter ∧ p.2.Apart F u.counter)
    (hhides : ∀ p ∈ pairs, ∀ {mid later : Unifier}, mid.Apart F → p.1.Apart F mid.counter →
      p.2.Apart F mid.counter → assign m p.1 p.2 mid = (.ok (), later) → Hides F mid later)
    (h : (pairs.forM fun p => assign m p.1 p.2) u = (.ok (), u')) : Hides F u u' := by
  refine (forM_keeps (I := fun s => u.Advances F F s ∧ Hides F u s) ?_
    ⟨.refl hu, fun t ht n i hi => hu.not_exposes ht hi⟩ h).2
  rintro p hp mid later ⟨hmid, hbefore⟩ hrun
  obtain ⟨ha, hb⟩ := hpairs p hp
  have hlater := assign_advances hmid.apart (hmid.type ha) (hmid.type hb) hrun
  refine ⟨hmid.trans hlater, fun t ht n i hi => ?_⟩
  exact not_exposes_of_hides hmid.apart (hmid.type ha) (hmid.type hb) hrun
    (hhides p hp hmid.apart (hmid.type ha) (hmid.type hb) hrun) (hmid.type ht) (hbefore t ht n i hi)
    fun _ => ⟨hbefore _ ha n i hi, hbefore _ hb n i hi⟩

/-- No type of before leads to a constant that a comparison made, if the comparison succeeds. -/
theorem assign_hides (n : Nat) (hu : u.Apart F) (hsrc : src.Apart F u.counter)
    (hdst : dst.Apart F u.counter) (h : assign n src dst u = (.ok (), u')) : Hides F u u' := by
  induction n generalizing u u' src dst with
  | zero => exact absurd h throw_ne_ok
  | succ n ih =>
    have hadvances := assign_advances hu hsrc hdst h
    have hs := hu.shallow hsrc
    have hd := hu.shallow hdst
    have hposes := poses_task (u.shallow src) (u.shallow dst)
    rw [assign_succ] at h
    generalize u.shallow src = s at hs hposes h
    generalize u.shallow dst = d at hd hposes h
    generalize task s d = t at hposes h
    cases t with
    | equate =>
      rw [Task.run, get_bind] at h
      obtain rfl := set_eq_ok.mp h
      exact hides_of_counter hadvances rfl
    | accept =>
      obtain ⟨-, rfl⟩ := pure_eq_ok.mp h
      exact hides_of_counter hadvances rfl
    | bind =>
      rcases bindVar_eq_ok h with ⟨-, rfl⟩ | ⟨-, rfl⟩
      · exact hides_of_counter hadvances rfl
      · exact hides_of_counter hadvances rfl
    | generalize =>
      cases hposes
      obtain ⟨hbody, hescape⟩ := run_generalize_eq_ok h
      obtain ⟨hmid, hb⟩ := hu.skolemize hd
      exact generalize_hides hu hs hd hbody hescape (ih hmid.apart (hmid.type hs) hb hbody)
    | specialize ps b =>
      cases hposes
      obtain ⟨hmid, hb⟩ := hu.instantiate hs
      have hsubst := u.instantiate_subst ps b
      intro t ht n i hi
      refine not_exposes_of_hides hmid.apart hb (hmid.type hd) h
        (ih hmid.apart hb (hmid.type hd) h) (hmid.type ht) ?_ fun _ => ?_
      · rw [hsubst]
        exact hu.not_exposes ht hi
      · rw [hsubst]
        exact ⟨fun hexposes => Int.not_le.mpr hi (hu.exposes_instantiate hs hexposes),
          hu.not_exposes hd hi⟩
    | parts =>
      exact loop_hides hu ((inherits_apart F _).parts hposes hs hd)
        (fun p _ _ _ hmid ha hb hrun => ih hmid ha hb hrun) h
    | refuse => exact absurd h throw_ne_ok

end Unify

namespace Unifier

variable {B : Set TyVar} {u u' : Unifier} {src dst : Ty}

/-- If a comparison of a session succeeds, no variable with a number of before resolves to a type that
mentions a constant with a number that was taken since. -/
theorem assign_confines {m : Nat} (h : Session B u) (hsrc : src.Apart Bᶜ u.counter)
    (hdst : dst.Apart Bᶜ u.counter) (hassign : u.assign? m src dst = some (.ok (), u')) :
    ∀ v ≤ u.counter, ∀ n i, u.counter < i → (u'.resolve (.var v)).mentions n i = false := by
  intro v hv n i hi
  obtain ⟨hu, hB⟩ := h.apart
  have hrun := assign?_eq_ok.mp hassign
  have hs := apart_flexible hsrc
  have hd := apart_flexible hdst
  have hadvances := Unify.assign_advances hu hs hd hrun
  have hhides := Unify.assign_hides _ hu hs hd hrun
  rw [Bool.eq_false_iff]
  intro hm
  by_cases hF : v ∈ u.flexible B
  · have hvar : (Ty.var v).Apart (u.flexible B) u.counter := Ty.apart_var hv hF
    exact hhides _ hvar n i hi ((hadvances.apart.subst.mentions_resolve (hadvances.type hvar)).mp hm)
  · -- The variable is bound by a polymorphic type, so it has no binding.
    have hmem : v ∈ B := by
      by_contra hmem
      exact hF fun hB => absurd hB hmem
    have hnone : u'.subst.find? v = none := by
      rw [hadvances.kept v hv hF]
      by_contra hbound
      exact hB v hmem (.inl hbound)
    have hwithin : u'.subst.Within [] (.var v) := by
      intro w hw hbound
      rw [Ty.freeVars, List.mem_singleton] at hw
      exact absurd (hw ▸ hnone) hbound
    rw [resolve, Ty.resolve, Subst.within_nil_resolveUpTo hwithin] at hm
    simp [Ty.mentions] at hm

/-- The second conjunct of a type had to hold for every proposition. -/
def conjoined : Unifier :=
  ⟨[(5, .fn (.rigid "X" 4) (.rigid "X" 4)), (3, .rigid "P" 0), (1, .var 3)], 5, []⟩

/-- The fresh variable that stands for `Y` leads to the constant that stands for `X`, but none of the
older ones does. -/
theorem conjoined_confines :
    linked.assign? 4 (.con "And" [.var 1, .poly [("Y", 2)] (.var 2)])
        (.con "And" [.rigid "P" 0, .poly [("X", 2)] (.fn (.var 2) (.var 2))]) =
      some (.ok (), conjoined) ∧
      (conjoined.resolve (.var 5)).mentions "X" 4 = true ∧
      ∀ v ≤ 3, ∀ n i, 3 < i → (conjoined.resolve (.var v)).mentions n i = false := by
  have hassign : linked.assign? 4 (.con "And" [.var 1, .poly [("Y", 2)] (.var 2)])
      (.con "And" [.rigid "P" 0, .poly [("X", 2)] (.fn (.var 2) (.var 2))]) =
        some (.ok (), conjoined) := rfl
  refine ⟨hassign, by decide +kernel, ?_⟩
  refine assign_confines session_linked ⟨?_, ?_⟩ ⟨?_, ?_⟩ hassign
  · simp [Ty.Orderly, Ty.OrderlyAll, linked]
  · simp [Ty.freeVars, Ty.freeVarsAll]
  · simp [Ty.Orderly, Ty.OrderlyAll, linked]
  · simp [Ty.freeVars, Ty.freeVarsAll]

end Unifier

end ProofScript
