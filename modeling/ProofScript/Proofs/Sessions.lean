import ProofScript.Proofs.Apartness

/-!
# Sessions of comparisons

A session begins without bindings and compares types, with or without success. If no variable that is
bound by a polymorphic type is free in a type or bound to one, then in every state of the session, those
within a comparison included, bindings lead no variable back to itself. Hence following them ends, and a
resolved type is free of bound variables.
-/

namespace ProofScript

open Stateful

/-! ## Bindings that lead on -/

namespace Subst

variable {σ : Subst}

/-- A variable is bound to a type in which another one is free, be it under binders. -/
def Leads (σ : Subst) (v w : TyVar) : Prop := ∃ t, σ.find? v = some t ∧ w ∈ t.freeVars

/-- A variable is bound, or another one leads to it. -/
def Uses (σ : Subst) (v : TyVar) : Prop := σ.find? v ≠ none ∨ ∃ w, σ.Leads w v

theorem not_uses {v : TyVar} (h : ∀ b ∈ σ, b.1 ≠ v ∧ v ∉ b.2.freeVars) : ¬ σ.Uses v := by
  rintro (hbound | ⟨w, t, ht, hv⟩)
  · obtain ⟨t, ht⟩ := Option.ne_none_iff_exists'.mp hbound
    exact (h (v, t) (mem_of_lookup ht)).1 rfl
  · exact (h (w, t) (mem_of_lookup ht)).2 hv

theorem layered_not_leads {vs : List TyVar} (h : σ.Layered vs) {v : TyVar} (hv : v ∈ vs) :
    ¬ Relation.TransGen σ.Leads v v := by
  induction vs generalizing v with
  | nil => simp at hv
  | cons a vs ih =>
    intro hcycle
    obtain ⟨x, ⟨t, ht, hx⟩, hback⟩ := Relation.TransGen.head'_iff.mp hcycle
    have hcycle' : Relation.TransGen σ.Leads x x := .tail' hback ⟨t, ht, hx⟩
    -- The next variable of the cycle is bound as well, so it comes later in the order.
    obtain ⟨y, ⟨u, hu, -⟩, -⟩ := Relation.TransGen.head'_iff.mp hcycle'
    exact ih h.2 (h.1 v hv t ht x hx (by simp [hu])) hcycle'

/-- No variable leads back to itself. -/
theorem Acyclic.not_leads (h : σ.Acyclic) (v : TyVar) : ¬ Relation.TransGen σ.Leads v v := by
  obtain ⟨order, -, hcover, hlayered⟩ := h
  intro hcycle
  obtain ⟨x, ⟨t, ht, -⟩, -⟩ := Relation.TransGen.head'_iff.mp hcycle
  exact layered_not_leads hlayered (hcover v (by simp [ht])) hcycle

theorem Acyclic.unbound_of_mem_resolve (h : σ.Acyclic) {t : Ty} {v : TyVar}
    (hv : v ∈ (t.resolve σ).freeVars) : σ.find? v = none := by
  by_contra hbound
  exact List.not_mem_nil (h.resolve_within t v hv hbound)

/-- A resolved type is left as it is. -/
theorem Acyclic.apply_resolve (h : σ.Acyclic) (t : Ty) : (t.resolve σ).apply σ = t.resolve σ :=
  apply_of_within_nil (h.resolve_within t)

theorem Acyclic.resolve_resolve (h : σ.Acyclic) (t : Ty) : (t.resolve σ).resolve σ = t.resolve σ :=
  within_nil_resolveUpTo (h.resolve_within t) _

end Subst

/-! ## Comparisons -/

namespace Unify

variable {F : Set TyVar} {u u' : Unifier}

theorem inherits_apart (F : Set TyVar) (c : TyVar) :
    Inherits (fun t => t.Apart F c) fun t => t.Apart F c :=
  ⟨Ty.apart_thunk.mp, Ty.apart_fn.mp, Ty.apart_con⟩

/-- From a state in which variables and binders are apart, the session advances. -/
theorem carries_advances (F : Set TyVar) :
    Carries (fun u => u.Apart F) (fun u t => t.Apart F u.counter) fun u u' => u.Advances F F u' where
  refl := .refl
  trans := .trans
  state h := h.apart
  type h ht := h.type ht
  parts _ := inherits_apart F _
  shallow hu ht := hu.shallow ht
  equate _ hu := hu.equate _
  bind := fun hu ⟨_, hv⟩ hvar ht hfree => hu.bind (hu.unbound hv) hvar ht hfree
  skolemize hu ht := hu.skolemize ht
  instantiate hu ht := hu.instantiate ht

theorem assign_advances {n : Nat} {src dst : Ty} {r : Except Stop Unit} (hu : u.Apart F)
    (hsrc : src.Apart F u.counter) (hdst : dst.Apart F u.counter)
    (h : assign n src dst u = (r, u')) : u.Advances F F u' := by
  have hadvances := (carries_advances F).assign n hu hsrc hdst
  rwa [h] at hadvances

end Unify

/-! ## Sessions -/

namespace Unifier

variable {F F' B : Set TyVar} {u : Unifier} {src dst : Ty}

/-- A comparison from the outside leaves variables and binders apart. -/
theorem Apart.assign? {u' : Unifier} {n : Nat} {r : Except AssignError Unit} (hu : u.Apart F)
    (hsrc : src.Apart F u.counter) (hdst : dst.Apart F u.counter)
    (h : u.assign? n src dst = some (r, u')) : u.Advances F F u' :=
  carries_assign? (Unify.carries_advances F) (fun h => h.restore hu) hu hsrc hdst h

/-- Numbers that no binding uses may be kept for binders. -/
theorem Apart.reserve (hu : u.Apart F) (hsub : F' ⊆ F) (hfresh : ∀ v, u.counter < v → v ∈ F')
    (huses : ∀ v ∈ F, u.subst.Uses v → v ∈ F') : u.Apart F' where
  subst :=
    { acyclic := hu.subst.acyclic
      orderly := fun v t hv =>
        ⟨(hu.subst.orderly v t hv).1, (hu.subst.orderly v t hv).2.mono (Int.le_refl _)
          fun _ _ hw => hsub hw⟩
      free := fun v hv t ht w hw =>
        huses w (hu.subst.free v (hsub hv) t ht w hw) (.inr ⟨v, t, ht, hw⟩) }
  fresh := hfresh
  nonneg := hu.nonneg

/-- The states between the comparisons of a session, where polymorphic types bind variables of `B`
only. Numbers are taken before the types they occur in are compared, and no variable of `B` is free in
such a type, or bound or free in what is bound after a comparison. -/
inductive Session (B : Set TyVar) : Unifier → Prop
  | start : Session B empty
  | take {u : Unifier} {n : TyVar} : Session B u → u.counter ≤ n → Session B { u with counter := n }
  | compare {u u' : Unifier} {n : Nat} {src dst : Ty} {r : Except AssignError Unit} : Session B u →
    src.Apart Bᶜ u.counter → dst.Apart Bᶜ u.counter → u.assign? n src dst = some (r, u') →
    (∀ v ∈ B, ¬ u'.subst.Uses v) → Session B u'

/-- The states of a session, those within its comparisons included, however deep these go and whether they
end or not. -/
inductive Reachable (B : Set TyVar) : Unifier → Prop
  | between {u : Unifier} : Session B u → Reachable B u
  | within {u w : Unifier} {n : Nat} {src dst : Ty} {ts : List Ty} : Session B u →
    src.Apart Bᶜ u.counter → dst.Apart Bᶜ u.counter → Unify.Visits n u src dst w ts → Reachable B w

/-- The numbers that are not kept for binders so far. -/
def flexible (B : Set TyVar) (u : Unifier) : Set TyVar := {v | v ∈ B → u.counter < v}

theorem apart_flexible {t : Ty} (h : t.Apart Bᶜ u.counter) : t.Apart (u.flexible B) u.counter :=
  h.mono (Int.le_refl _) fun _ hv =>
    ⟨fun hmem hB => absurd (hmem hB) (Int.not_lt.mpr hv), fun hB hmem => absurd hmem hB⟩

theorem apart_empty : empty.Apart (empty.flexible B) where
  subst :=
    { acyclic := ⟨[], Nat.le_refl _, fun _ h => absurd rfl h, trivial⟩
      orderly := fun _ _ h => by cases h
      free := fun _ _ _ h => by cases h }
  fresh _ hv _ := hv
  nonneg := Int.le_refl _

theorem Apart.reserve_flexible (hu : u.Apart F) (hF : u.flexible B ⊆ F)
    (hB : ∀ v ∈ B, ¬ u.subst.Uses v) : u.Apart (u.flexible B) :=
  hu.reserve hF (fun _ hv _ => hv) fun v _ huses hmem => absurd huses (hB v hmem)

theorem Session.apart (h : Session B u) :
    u.Apart (u.flexible B) ∧ ∀ v ∈ B, ¬ u.subst.Uses v := by
  induction h with
  | start =>
    refine ⟨apart_empty, fun v _ huses => ?_⟩
    rcases huses with hbound | ⟨w, t, ht, -⟩
    · exact hbound rfl
    · cases ht
  | take _ hn ih =>
    refine ⟨(ih.1.advance hn).apart.reserve_flexible ?_ ih.2, ih.2⟩
    exact fun v hv hmem => Int.lt_of_le_of_lt hn (hv hmem)
  | compare _ hsrc hdst hassign huses ih =>
    have hadvances := ih.1.assign? (apart_flexible hsrc) (apart_flexible hdst) hassign
    refine ⟨hadvances.apart.reserve_flexible ?_ huses, huses⟩
    exact fun v hv hmem => Int.lt_of_le_of_lt hadvances.counter (hv hmem)

theorem Reachable.acyclic (h : Reachable B u) : u.subst.Acyclic := by
  cases h with
  | between hsession => exact hsession.apart.1.subst.acyclic
  | within hsession hsrc hdst hvisits =>
    exact ((Unify.carries_advances _).visits hvisits hsession.apart.1 (apart_flexible hsrc)
      (apart_flexible hdst)).1.apart.subst.acyclic

/-- In every state of a session, no variable leads to itself, a chain of bindings is followed to its end,
and resolving a type removes all bound variables from it. -/
theorem reachable_settles (h : Reachable B u) :
    (∀ v, ¬ Relation.TransGen u.subst.Leads v v) ∧
      (∀ t v, u.shallow t = .var v → u.subst.find? v = none) ∧
      ∀ t, (∀ v ∈ (u.resolve t).freeVars, u.subst.find? v = none) ∧
        (u.resolve t).apply u.subst = u.resolve t ∧ u.resolve (u.resolve t) = u.resolve t := by
  have hacyclic := h.acyclic
  refine ⟨hacyclic.not_leads, fun t v hv => ?_, fun t => ⟨fun v hv => ?_, ?_, ?_⟩⟩
  · exact hacyclic.unbound_of_shallowUpTo hv
  · exact hacyclic.unbound_of_mem_resolve hv
  · exact hacyclic.apply_resolve t
  · exact hacyclic.resolve_resolve t

/-- Two variables were compared with each other. -/
def linked : Unifier := ⟨[(1, .var 3)], 3, []⟩

theorem session_linked : Session {2} linked := by
  have hlinked : ({ empty with counter := 3 } : Unifier).assign? 1 (.var 1) (.var 3) =
      some (.ok (), linked) := rfl
  refine .compare (.take .start (by decide)) (Ty.apart_var (by decide) (by decide))
    (Ty.apart_var (by decide) (by decide)) hlinked ?_
  rintro v rfl
  exact Subst.not_uses (by simp [linked, Ty.freeVars])

/-- A polymorphic identity was compared with a function from the second variable to a constant. -/
def identified : Unifier := ⟨[(4, .rigid "P" 0), (3, .var 4), (1, .var 3)], 4, []⟩

theorem session_identified : Session {2} identified := by
  have hidentified : linked.assign? 3 (.poly [("X", 2)] (.fn (.var 2) (.var 2)))
      (.fn (.var 3) (.rigid "P" 0)) = some (.ok (), identified) := rfl
  refine .compare session_linked ⟨?_, ?_⟩ ⟨?_, ?_⟩ hidentified ?_
  · simp [Ty.Orderly, linked]
  · simp [Ty.freeVars]
  · simp [Ty.Orderly, linked]
  · simp [Ty.freeVars]
  · rintro v rfl
    exact Subst.not_uses (by simp [identified, Ty.freeVars])

/-- The first variable leads to the constant, over the second one and a fresh one. -/
theorem identified_settles :
    (identified.subst.map Prod.fst = [4, 3, 1] ∧ (identified.shallow (.var 1)).text = "P") ∧
      (∀ v, ¬ Relation.TransGen identified.subst.Leads v v) ∧
      identified.resolve (identified.resolve (.fn (.var 1) (.var 2))) =
        identified.resolve (.fn (.var 1) (.var 2)) := by
  obtain ⟨hleads, -, hresolve⟩ := reachable_settles (.between session_identified)
  exact ⟨by decide +kernel, hleads, (hresolve _).2.2⟩

end Unifier

end ProofScript
