import Mathlib.Data.List.Forall2
import ProofScript.Proofs.Descent

/-!
# Comparisons of types without binders are implications

Between types without binders and without the type that goes with everything, a comparison that succeeds is
an implication in every reading of them as propositions: constructors are monotone, functions are
implications, and the type of no value is absurd. The same argument shows that first-order types are made
equal, so it is given once, for a relation that formers respect.
-/

namespace ProofScript

open Stateful

universe w

variable {α : Type w} {A : Algebra α} {R : α → α → Prop} {K : Set Form} {P : Pool}

/-- The formers respect a relation as comparisons do: functions turn it around in their parameter, which a
function without one leaves open. -/
structure Algebra.Ordered (K : Set Form) (A : Algebra α) (R : α → α → Prop) : Prop where
  refl : ∀ x, R x x
  thunk : ∀ {x y}, R x y → R (A.thunk x) (A.thunk y)
  drop : .thunk ∈ K → ∀ {x y} z, R x y → R (A.thunk x) (A.fn z y)
  fn : ∀ {a b r s}, R b a → R r s → R (A.fn a r) (A.fn b s)
  con : ∀ n {xs ys}, List.Forall₂ R xs ys → R (A.con n xs) (A.con n ys)
  never : .never ∈ K → ∀ x, R A.never x

namespace Unify

variable {u u' : Unifier}

/-- A variable that was bound means what it was bound to. -/
theorem bindVar_solves {v : TyVar} {t : Ty} (h : bindVar v t u = (.ok (), u')) {ρ : TyVar → α}
    (hρ : u'.subst.SolvedBy A ρ) : ρ v = t.value A ρ := by
  rcases bindVar_eq_ok h with ⟨rfl, -⟩ | ⟨-, rfl⟩
  · rfl
  · exact hρ v t (by rw [Subst.find?_insert, if_pos rfl])

/-- What the relation makes of types whose parts it relates. -/
theorem relates_of_parts (hR : A.Ordered K R) {s d : Ty} {pairs : List (Ty × Ty)}
    (hposes : Poses s d (.parts pairs)) (hs : s.Built K) {ρ : TyVar → α}
    (h : ∀ p ∈ pairs, R (p.1.value A ρ) (p.2.value A ρ)) : R (s.value A ρ) (d.value A ρ) := by
  cases hposes with
  | thunks =>
    rw [List.forall_mem_singleton] at h
    exact hR.thunk h
  | drop =>
    rw [List.forall_mem_singleton] at h
    exact hR.drop hs.1 _ h
  | functions =>
    rw [List.forall_mem_cons, List.forall_mem_singleton] at h
    exact hR.fn h.1 h.2
  | @arguments f as bs hlen =>
    rw [Ty.value, Ty.value, Ty.values_eq_map, Ty.values_eq_map]
    refine hR.con f ?_
    rw [List.forall₂_map_left_iff, List.forall₂_map_right_iff]
    exact List.forall₂_iff_zip.mpr ⟨hlen, fun hp => h _ hp⟩

/-- A loop of comparisons relates the values that it compares, if each of them does. -/
theorem loop_relates {n : Nat} {ρ : TyVar → α} {pairs : List (Ty × Ty)}
    (hf : ∀ p ∈ pairs, ∀ u u' : Unifier, u.subst.Drawn P → assign n p.1 p.2 u = (.ok (), u') →
      u'.subst.SolvedBy A ρ → R (p.1.value A ρ) (p.2.value A ρ))
    (hpairs : ∀ p ∈ pairs, p.1.Drawn P ∧ p.2.Drawn P) (hu : u.subst.Drawn P)
    (h : (pairs.forM fun p => assign n p.1 p.2) u = (.ok (), u')) (hρ : u'.subst.SolvedBy A ρ) :
    ∀ p ∈ pairs, R (p.1.value A ρ) (p.2.value A ρ) := by
  induction pairs generalizing u with
  | nil => simp
  | cons p pairs ih =>
    rw [List.forall_mem_cons] at hf hpairs ⊢
    obtain ⟨_, mid, hfirst, hrest⟩ := bind_eq_ok.mp h
    have hmid := (carries_drawn P).assign n hu hpairs.1.1 hpairs.1.2
    dsimp only at hfirst
    rw [hfirst] at hmid
    have hlater := (carries_drawn P).loop n hmid.1 hpairs.2
    rw [hrest] at hlater
    exact ⟨hf.1 u mid hu hfirst (hρ.of_extends hlater.2), ih hf.2 hpairs.2 hmid.1 hrest⟩

/-- In every solution of the bindings that a comparison leaves, the values of the two types are related. -/
theorem assign_relates (hR : A.Ordered P.forms R) (hany : .any ∉ P.forms) {n : Nat} {src dst : Ty}
    (hsrc : src.Drawn P) (hdst : dst.Drawn P) (hu : u.subst.Drawn P)
    (h : assign n src dst u = (.ok (), u')) {ρ : TyVar → α} (hρ : u'.subst.SolvedBy A ρ) :
    R (src.value A ρ) (dst.value A ρ) := by
  induction n generalizing src dst u u' with
  | zero => exact absurd h throw_ne_ok
  | succ n ih =>
    have hgrows := (carries_drawn P).assign (n + 1) hu hsrc hdst
    rw [h] at hgrows
    have hsolved : u.subst.SolvedBy A ρ := hρ.of_extends hgrows.2
    have hs : (u.shallow src).Drawn P := hu.shallow hsrc _
    have hd : (u.shallow dst).Drawn P := hu.shallow hdst _
    have hposes := poses_task (u.shallow src) (u.shallow dst)
    rw [assign_succ] at h
    suffices R ((u.shallow src).value A ρ) ((u.shallow dst).value A ρ) by
      rwa [Unifier.shallow, Unifier.shallow, hsolved.value_shallow, hsolved.value_shallow] at this
    generalize u.shallow src = s at hs hposes h ⊢
    generalize u.shallow dst = d at hd hposes h ⊢
    generalize task s d = t at hposes h
    cases t with
    | equate =>
      cases hposes with
      | equate heqv => exact Ty.eq_of_eqv P.flat s d hs.built heqv ▸ hR.refl _
    | accept =>
      cases hposes with
      | anySource => exact absurd hs.built hany
      | anyTarget => exact absurd hd.built hany
      | absurd => exact hR.never hs.built _
    | bind =>
      cases hposes with
      | bindSource | bindTarget =>
        rw [Ty.value, bindVar_solves h hρ]
        exact hR.refl _
    | generalize =>
      cases hposes
      exact absurd hd.built.1 P.flat
    | specialize =>
      cases hposes
      exact absurd hs.built.1 P.flat
    | parts =>
      have hdrawn := (inherits_drawn P).parts hposes hs hd
      refine relates_of_parts hR hposes hs.built (loop_relates ?_ hdrawn hu h hρ)
      exact fun p hp _ _ hu hrun hρ => ih (hdrawn p hp).1 (hdrawn p hp).2 hu hrun hρ
    | refuse => exact absurd h throw_ne_ok

end Unify

/-! ## Comparisons from the outside -/

namespace Unifier

variable {u u' : Unifier} {n : Nat} {src dst : Ty} {r : Except AssignError Unit}

theorem assign_failed (h : u.assign? n src dst = some (r, u')) (hr : r ≠ .ok ()) :
    u'.subst = u.subst := by
  cases r with
  | ok => exact absurd rfl hr
  | error e => rw [assign?_eq_error h]

/-- A comparison adds bindings of the same forms, and none if it fails. -/
theorem assign_tame (hK : .poly ∉ K) (hu : u.subst.Tame K) (hsrc : src.Built K)
    (hdst : dst.Built K) (h : u.assign? n src dst = some (r, u')) :
    u'.subst.Tame K ∧ u.subst.Extends u'.subst := by
  obtain ⟨hdrawn, hs, hd⟩ := drawn_pool hK hu hsrc hdst
  have hgrows := carries_assign? (Unify.carries_drawn _) (fun _ => ⟨hdrawn, .refl _⟩) hdrawn hs hd h
  exact ⟨hgrows.1.tame, hgrows.2⟩

theorem assign_solved (hK : .poly ∉ K) (hany : .any ∉ K) (hR : A.Ordered K R) (hu : u.subst.Tame K)
    (hsrc : src.Built K) (hdst : dst.Built K) (h : u.assign? n src dst = some (.ok (), u'))
    {ρ : TyVar → α} (hρ : u'.subst.SolvedBy A ρ) : R (src.value A ρ) (dst.value A ρ) := by
  obtain ⟨hdrawn, hs, hd⟩ := drawn_pool hK hu hsrc hdst
  exact Unify.assign_relates (P := u.pool K hK src dst) hR hany hs hd hdrawn (assign?_eq_ok.mp h) hρ

/-- Comparisons of types without binders come to an answer, which is the same within every larger depth. -/
theorem exists_assign? (hK : .poly ∉ K) (hu : u.subst.Tame K) (hsrc : src.Built K)
    (hdst : dst.Built K) :
    ∃ r u', ∀ n, u.depth src dst ≤ n → u.assign? n src dst = some (r, u') := by
  cases h : u.assign? (u.depth src dst) src dst with
  | none => exact absurd (assign?_eq_none.mp h) (assign_settles hK hu hsrc hdst)
  | some x => exact ⟨x.1, x.2, fun n hn => assign?_mono hn h⟩

end Unifier

/-! ## Readings -/

/-- Constants as propositions, and constructors as operations that are monotone in each argument. -/
structure Reading where
  consts : String → TyVar → Prop
  cons : String → List Prop → Prop
  monotone : ∀ name ps qs, List.Forall₂ (· → ·) ps qs → cons name ps → cons name qs

/-- A function is an implication, one without a parameter is its result, and the type of no value is
absurd. -/
def Reading.algebra (r : Reading) : Algebra Prop where
  rigid := r.consts
  thunk p := p
  fn p q := p → q
  con := r.cons
  never := False
  any := True

/-- What a type without binders says, where `ρ` says what its variables do. -/
def Ty.meaning (r : Reading) (ρ : TyVar → Prop) (t : Ty) : Prop := t.value r.algebra ρ

theorem Reading.ordered (r : Reading) (K : Set Form) : r.algebra.Ordered K (· → ·) where
  refl _ hx := hx
  thunk hret := hret
  drop _ {_ _} _ hret hx _ := hret hx
  fn harg hret hx hb := hret (hx (harg hb))
  con n _ _ hargs := r.monotone n _ _ hargs
  never _ _ := False.elim

namespace Unifier

variable {u : Unifier} {src dst : Ty}

/-- One more comparison of types of these forms, successful or not. -/
inductive Compares (K : Set Form) (u u' : Unifier) : Prop
  | intro {n : Nat} {src dst : Ty} {r : Except AssignError Unit} : src.Built K → dst.Built K →
    u.assign? n src dst = some (r, u') → Compares K u u'

theorem tame_of_compares {u' : Unifier} (hK : .poly ∉ K)
    (h : Relation.ReflTransGen (Compares K) u u') (hu : u.subst.Tame K) :
    u'.subst.Tame K ∧ u.subst.Extends u'.subst := by
  induction h with
  | refl => exact ⟨hu, .refl _⟩
  | tail _ hlast ih =>
    obtain ⟨hsrc, hdst, hassign⟩ := hlast
    have hnext := assign_tame hK ih.1 hsrc hdst hassign
    exact ⟨hnext.1, ih.2.trans hnext.2⟩

/-- Comparisons of types without binders come to an answer, however much deeper they may go, and leave the
bindings of before where it is no. Where one succeeds, the first type implies the second in every reading,
now and after any further comparisons. -/
theorem assign_entails (hacyclic : ∀ v, ¬ Relation.TransGen u.subst.Leads v v)
    (hσ : ∀ v t, u.subst.find? v = some t → t.Built Form.flat) (hsrc : src.Built Form.flat)
    (hdst : dst.Built Form.flat) :
    ∃ r u', (∀ n, u.depth src dst ≤ n → u.assign? n src dst = some (r, u')) ∧
      (∀ n w ts, Unify.Visits n u src dst w ts →
        (∀ t v, w.shallow t = .var v → w.subst.find? v = none) ∧
          ∀ t, (w.resolve t).apply w.subst = w.resolve t) ∧
      (r ≠ .ok () → u'.subst = u.subst) ∧
      ((∀ v t, u.subst.find? v = some t → t.Built Form.plain) → src.Built Form.plain →
        dst.Built Form.plain → r = .ok () →
          ∀ later, Relation.ReflTransGen (Compares Form.plain) u' later →
            ∀ (reading : Reading) (ρ : TyVar → Prop), (later.resolve src).meaning reading ρ →
              (later.resolve dst).meaning reading ρ) := by
  have hflat : Form.poly ∉ Form.flat := fun h => h rfl
  have hplain : Form.poly ∉ Form.plain := fun h => h.1 rfl
  have hu := Subst.acyclic_of_not_leads hacyclic
  obtain ⟨hdrawn, hs, hd⟩ := drawn_pool hflat ⟨hu, hσ⟩ hsrc hdst
  obtain ⟨r, u', hanswer⟩ := exists_assign? hflat ⟨hu, hσ⟩ hsrc hdst
  have hassign := hanswer _ (Nat.le_refl _)
  refine ⟨r, u', hanswer, fun n w ts hvisits => ?_, assign_failed hassign, ?_⟩
  · have hacyclic := ((Unify.carries_drawn _).visits hvisits hdrawn hs hd).1.1.acyclic
    exact ⟨fun _ _ => hacyclic.unbound_of_shallowUpTo, hacyclic.apply_resolve⟩
  rintro hσ hsrc hdst rfl later hlater reading ρ hmeaning
  have hnext := assign_tame hplain ⟨hu, hσ⟩ hsrc hdst hassign
  obtain ⟨htame, hext⟩ := tame_of_compares hplain hlater hnext.1
  have hsolved := htame.solvedBy_resolve (A := reading.algebra) hplain ρ
  have himplies := assign_solved hplain (fun h => h.2 rfl) (reading.ordered _) ⟨hu, hσ⟩ hsrc hdst hassign
    (hsolved.of_extends hext)
  rw [Ty.meaning, resolve, Ty.value_resolve hplain hsrc] at hmeaning
  rw [Ty.meaning, resolve, Ty.value_resolve hplain hdst]
  exact himplies hmeaning

/-- The first variable was compared with a conjunction of the second one. -/
def halfBound : Unifier := ⟨[(1, .con "And" [.var 2, .rigid "P" 0])], 3, []⟩

/-- A function without a parameter, where one from the third variable was expected: the second variable got
bound. -/
def halfBoundDrop : Unifier :=
  ⟨[(2, .rigid "Q" 0), (1, .con "And" [.var 2, .rigid "P" 0])], 3, [(.rigid "P" 0, .rigid "P" 0)]⟩

/-- After the third variable gets bound as well, the first type still implies the second. -/
theorem halfBoundDrop_entails :
    let src := Ty.thunk (.var 1)
    let dst := Ty.fn (.var 3) (.con "And" [.rigid "Q" 0, .rigid "P" 0])
    (∀ v, ¬ Relation.TransGen halfBound.subst.Leads v v) ∧
      halfBound.assign? 3 src dst = some (.ok (), halfBoundDrop) ∧
      ∃ later, halfBoundDrop.assign? 1 (.var 3) (.con "Or" [.var 2, .never]) = some (.ok (), later) ∧
        (later.resolve (.var 3)).text = "Or<Q, never>" ∧
        ∀ (reading : Reading) (ρ : TyVar → Prop), (later.resolve src).meaning reading ρ →
          (later.resolve dst).meaning reading ρ := by
  intro src dst
  have hsub : Form.plain ⊆ Form.flat := fun _ h => h.1
  have hbuilt : (Ty.con "And" [.var 2, .rigid "P" 0]).Built Form.plain := by
    simp [Ty.Built, Ty.BuiltAll, Form.plain]
  have hhalf : ({ empty with counter := 3 } : Unifier).assign? 1 (.var 1)
      (.con "And" [.var 2, .rigid "P" 0]) = some (.ok (), halfBound) := rfl
  have htame : halfBound.subst.Tame Form.plain :=
    (assign_tame (fun h => h.1 rfl) Subst.tame_nil (by simp [Ty.Built, Form.plain]) hbuilt hhalf).1
  have hsrc : src.Built Form.plain := by simp [src, Ty.Built, Form.plain]
  have hdst : dst.Built Form.plain := by simp [dst, Ty.Built, Ty.BuiltAll, Form.plain]
  have hdrop : halfBound.assign? 3 src dst = some (.ok (), halfBoundDrop) := rfl
  obtain ⟨r, u', hanswer, -, -, hentails⟩ := assign_entails htame.acyclic.not_leads
    (fun v t hv => (htame.built v t hv).mono hsub) (hsrc.mono hsub) (hdst.mono hsub)
  obtain ⟨rfl, rfl⟩ : (.ok (), halfBoundDrop) = (r, u') := by
    have hlarge := assign?_mono (Nat.le_max_left 3 (halfBound.depth src dst)) hdrop
    rw [hanswer _ (Nat.le_max_right ..)] at hlarge
    exact (Option.some.inj hlarge).symm
  have hlater : halfBoundDrop.assign? 1 (.var 3) (.con "Or" [.var 2, .never]) =
      some (.ok (), { halfBoundDrop with
        subst := halfBoundDrop.subst.insert 3 (.con "Or" [.var 2, .never]) }) := rfl
  refine ⟨htame.acyclic.not_leads, hdrop, _, hlater, by decide +kernel, ?_⟩
  refine hentails htame.built hsrc hdst rfl _ (.single (.intro ?_ ?_ hlater)) <;>
    simp [Ty.Built, Ty.BuiltAll, Form.plain]

end Unifier

end ProofScript
