import ProofScript.Proofs.Entailment

/-!
# First-order comparisons are unification

Between types made of variables, constants, functions with a parameter and constructors, a comparison
succeeds if and only if some substitution makes the two types equal. The bindings are then most general:
the substitutions that satisfy all equations accepted so far are those that the bindings absorb.
-/

namespace ProofScript

open Stateful

variable {P : Pool} {σ : Subst} {t : Ty} {ρ : TyVar → Ty}

/-! ## Occurrences -/

namespace Ty

variable {K : Set Form} {v : TyVar}

mutual

theorem size_le_value (hK : Form.poly ∉ K) : (t : Ty) → t.Built K → v ∈ t.freeVars →
    (ρ v).size ≤ (t.value .terms ρ).size
  | var w, _, hv => by
    rw [freeVars, List.mem_singleton] at hv
    rw [value, hv]
  | rigid _ _, _, hv => absurd hv List.not_mem_nil
  | thunk r, ht, hv => (size_le_value hK r ht.2 hv).trans (Nat.le_succ _)
  | fn a r, ht, hv => by
    change _ ≤ (a.value .terms ρ).size + (r.value .terms ρ).size + 1
    rw [freeVars, List.mem_append] at hv
    rcases hv with hv | hv
    · have hr := size_le_value hK r ht.2.2 hv
      omega
    · have ha := size_le_value hK a ht.2.1 hv
      omega
  | con _ as, ht, hv => (size_le_values hK as ht.2 hv).trans (Nat.le_succ _)
  | poly _ _, ht, _ => absurd ht.1 hK
  | never, _, hv => absurd hv List.not_mem_nil
  | any, _, hv => absurd hv List.not_mem_nil

theorem size_le_values (hK : Form.poly ∉ K) : (ts : List Ty) → BuiltAll K ts → v ∈ freeVarsAll ts →
    (ρ v).size ≤ sizes (values .terms ρ ts)
  | [], _, hv => absurd hv List.not_mem_nil
  | t :: rest, ht, hv => by
    change _ ≤ (t.value .terms ρ).size + sizes (values .terms ρ rest)
    rw [freeVarsAll, List.mem_append] at hv
    rcases hv with hv | hv
    · exact (size_le_value hK t ht.1 hv).trans (Nat.le_add_right ..)
    · exact (size_le_values hK rest ht.2 hv).trans (Nat.le_add_left ..)

end

/-- A variable cannot stand for a type that it occurs in. -/
theorem value_ne_of_mem (hK : Form.poly ∉ K) (ht : t.Built K) (hne : ∀ w, t ≠ var w)
    (hv : v ∈ t.freeVars) : ρ v ≠ t.value .terms ρ := by
  suffices (ρ v).size < (t.value .terms ρ).size by
    intro heq
    rw [heq] at this
    exact Nat.lt_irrefl _ this
  cases t with
  | var w => exact absurd rfl (hne w)
  | thunk r => exact Nat.lt_succ_of_le (size_le_value hK r ht.2 hv)
  | fn a r =>
    change _ < (a.value .terms ρ).size + (r.value .terms ρ).size + 1
    rw [freeVars, List.mem_append] at hv
    rcases hv with hv | hv
    · have hr := size_le_value (ρ := ρ) hK r ht.2.2 hv
      omega
    · have ha := size_le_value (ρ := ρ) hK a ht.2.1 hv
      omega
  | con n as => exact Nat.lt_succ_of_le (size_le_values hK as ht.2 hv)
  | poly _ _ => exact absurd ht.1 hK
  | _ => exact absurd hv List.not_mem_nil

theorem resolve_ne_var (hne : ∀ w, t ≠ var w) (ht : t.Built K) (hK : Form.poly ∉ K) (w : TyVar) :
    t.resolve σ ≠ var w := by
  rw [resolve_eq_value hK ht]
  cases t with
  | var v => exact absurd rfl (hne v)
  | poly _ _ => exact absurd ht.1 hK
  | _ => exact Ty.noConfusion

end Ty

/-! ## Completeness -/

namespace Unify

variable {u : Unifier}

/-- A variable can be bound to what it stands for in a solution. -/
theorem bindVar_succeeds {v : TyVar} (ht : t.Drawn P)
    (htvar : ∀ w, t = .var w → u.subst.find? w = none) (hu : u.subst.Drawn P)
    (hρ : u.subst.SolvedBy .terms ρ) (heq : ρ v = t.value .terms ρ) :
    ∃ u', bindVar v t u = (.ok (), u') ∧ u'.subst.SolvedBy .terms ρ := by
  rcases bindVar_cases v t u with ⟨-, h⟩ | ⟨hfree, h⟩ | ⟨hne, hfree, -⟩
  · exact ⟨u, h, hρ⟩
  · refine ⟨_, h, fun w s hw => ?_⟩
    rw [Subst.find?_insert] at hw
    split at hw
    · rename_i hwv
      cases hw
      rw [hwv, heq]
    · exact hρ w s hw
  · have hresolved := hu.tame.value_resolve P.flat hρ ht.built
    by_cases hvar : ∃ w, t = .var w
    · obtain ⟨w, rfl⟩ := hvar
      rw [Unifier.resolve, Ty.resolve_unbound (htvar w rfl), Ty.freeVars, List.mem_singleton] at hfree
      exact absurd (hfree ▸ rfl) hne
    · have hnot : ∀ w, t ≠ .var w := fun w hw => hvar ⟨w, hw⟩
      refine absurd (heq.trans hresolved.symm) (Ty.value_ne_of_mem P.flat ?_ ?_ hfree)
      · exact hu.tame.built_resolve ht.built
      · exact Ty.resolve_ne_var hnot ht.built P.flat

/-- First-order types of the same value are taken for equal, bound to each other, or compared in parts that
have the same values. -/
theorem task_of_value_eq {K : Set Form} (hK : K ⊆ Form.firstOrder) {s d : Ty} (hs : s.Built K)
    (hd : d.Built K) (heq : s.value .terms ρ = d.value .terms ρ) :
    task s d = .equate s d ∨ (∃ v, s = .var v ∧ task s d = .bind v d) ∨
      (∃ v, d = .var v ∧ task s d = .bind v s) ∨
      ∃ pairs, task s d = .parts pairs ∧ ∀ p ∈ pairs, p.1.value .terms ρ = p.2.value .terms ρ := by
  have hpoly : Form.poly ∉ K := fun h => absurd (hK h) (by simp [Form.firstOrder])
  have hany : Form.any ∉ K := fun h => absurd (hK h) (by simp [Form.firstOrder])
  have hthunk : Form.thunk ∉ K := fun h => absurd (hK h) (by simp [Form.firstOrder])
  have hnever : Form.never ∉ K := fun h => absurd (hK h) (by simp [Form.firstOrder])
  by_cases heqv : s.eqv d = true
  · exact .inl (if_pos heqv)
  rw [task, if_neg heqv]
  cases s with
  | var v =>
    cases d with
    | any => exact absurd hd hany
    | _ => exact .inr (.inl ⟨v, rfl, rfl⟩)
  | rigid a i =>
    cases d with
    | var v => exact .inr (.inr (.inl ⟨v, rfl, rfl⟩))
    | rigid b j =>
      obtain ⟨rfl, rfl⟩ := Ty.rigid.inj heq
      exact absurd (by simp [Ty.eqv]) heqv
    | poly _ _ => exact absurd hd.1 hpoly
    | any => exact absurd hd hany
    | _ => exact Ty.noConfusion heq
  | fn a r =>
    cases d with
    | var v => exact .inr (.inr (.inl ⟨v, rfl, rfl⟩))
    | fn b q =>
      obtain ⟨harg, hret⟩ := Ty.fn.inj heq
      refine .inr (.inr (.inr ⟨_, rfl, ?_⟩))
      simpa using ⟨harg.symm, hret⟩
    | poly _ _ => exact absurd hd.1 hpoly
    | any => exact absurd hd hany
    | _ => exact Ty.noConfusion heq
  | con f as =>
    cases d with
    | var v => exact .inr (.inr (.inl ⟨v, rfl, rfl⟩))
    | con g bs =>
      obtain ⟨rfl, hargs⟩ := Ty.con.inj heq
      rw [Ty.values_eq_map, Ty.values_eq_map] at hargs
      have hlen : as.length = bs.length := by simpa using congrArg List.length hargs
      refine .inr (.inr (.inr ⟨as.zip bs, if_pos ⟨rfl, hlen⟩, fun p hp => ?_⟩))
      exact (List.forall₂_iff_zip.mp (List.forall₂_map_left_iff.mp
        (List.forall₂_map_right_iff.mp (List.forall₂_eq_eq_eq ▸ hargs)))).2 hp
    | poly _ _ => exact absurd hd.1 hpoly
    | any => exact absurd hd hany
    | _ => exact Ty.noConfusion heq
  | poly _ _ => exact absurd hs.1 hpoly
  | thunk _ => exact absurd hs.1 hthunk
  | never => exact absurd hs hnever
  | any => exact absurd hs hany

theorem loop_succeeds {n : Nat} {pairs : List (Ty × Ty)}
    (hf : ∀ p ∈ pairs, ∀ u : Unifier, σ.Extends u.subst → u.subst.Drawn P →
      u.subst.SolvedBy .terms ρ → ∃ u', assign n p.1 p.2 u = (.ok (), u') ∧ u'.subst.SolvedBy .terms ρ)
    (hpairs : ∀ p ∈ pairs, p.1.Drawn P ∧ p.2.Drawn P) (hext : σ.Extends u.subst) (hu : u.subst.Drawn P)
    (hρ : u.subst.SolvedBy .terms ρ) :
    ∃ u', (pairs.forM fun p => assign n p.1 p.2) u = (.ok (), u') ∧ u'.subst.SolvedBy .terms ρ := by
  induction pairs generalizing u with
  | nil => exact ⟨u, rfl, hρ⟩
  | cons p pairs ih =>
    rw [List.forall_mem_cons] at hf hpairs
    obtain ⟨mid, hfirst, hmid⟩ := hf.1 u hext hu hρ
    have hgrows := (carries_drawn P).assign n hu hpairs.1.1 hpairs.1.2
    rw [hfirst] at hgrows
    obtain ⟨u', hrest, hu'⟩ := ih hf.2 hpairs.2 (hext.trans hgrows.2) hgrows.1 hmid
    exact ⟨u', bind_eq_ok.mpr ⟨(), mid, hfirst, hrest⟩, hu'⟩

/-- If some solution of the bindings gives first-order types the same value, they can be made equal, and it
stays a solution. -/
theorem assign_succeeds (hP : P.forms ⊆ Form.firstOrder) {n : Nat} {src dst : Ty} (hsrc : src.Drawn P)
    (hdst : dst.Drawn P) (hcsrc : σ.Caps P n src) (hcdst : σ.Caps P n dst) (hext : σ.Extends u.subst)
    (hu : u.subst.Drawn P) (hρ : u.subst.SolvedBy .terms ρ)
    (heq : src.value .terms ρ = dst.value .terms ρ) :
    ∃ u', assign n src dst u = (.ok (), u') ∧ u'.subst.SolvedBy .terms ρ := by
  induction n generalizing src dst σ u with
  | zero => exact absurd (hcsrc _ hext hu) (Nat.not_lt_zero _)
  | succ n ih =>
    have hs : (u.shallow src).Drawn P := hu.shallow hsrc _
    have hd : (u.shallow dst).Drawn P := hu.shallow hdst _
    have hcs : u.subst.Caps P (n + 1) (u.shallow src) := (hcsrc.of_extends hext).shallow
    have hcd : u.subst.Caps P (n + 1) (u.shallow dst) := (hcdst.of_extends hext).shallow
    have hsvar : ∀ v, u.shallow src = .var v → u.subst.find? v = none :=
      fun v => hu.acyclic.unbound_of_shallowUpTo
    have hdvar : ∀ v, u.shallow dst = .var v → u.subst.find? v = none :=
      fun v => hu.acyclic.unbound_of_shallowUpTo
    have heq : (u.shallow src).value .terms ρ = (u.shallow dst).value .terms ρ := by
      rw [Unifier.shallow, Unifier.shallow, hρ.value_shallow, hρ.value_shallow, heq]
    have hposes := poses_task (u.shallow src) (u.shallow dst)
    rw [assign_succ]
    generalize u.shallow src = s at hs hcs hsvar heq hposes ⊢
    generalize u.shallow dst = d at hd hcd hdvar heq hposes ⊢
    rcases task_of_value_eq hP hs.built hd.built heq with
      htask | ⟨v, rfl, htask⟩ | ⟨v, rfl, htask⟩ | ⟨pairs, htask, hvalues⟩ <;> rw [htask] at hposes ⊢
    · exact ⟨_, rfl, hρ⟩
    · exact bindVar_succeeds hd hdvar hu hρ heq
    · exact bindVar_succeeds hs hsvar hu hρ heq.symm
    · have hdrawn := (inherits_drawn P).parts hposes hs hd
      have hcaps := (Subst.inherits_caps P u.subst n).parts hposes hcs hcd
      exact loop_succeeds (fun p hp _ hext hu hρ => ih (hdrawn p hp).1 (hdrawn p hp).2 (hcaps p hp).1
        (hcaps p hp).2 hext hu hρ (hvalues p hp)) hdrawn (.refl _) hu hρ

end Unify

/-! ## Solutions and unifiers -/

namespace Subst

variable {K : Set Form}

/-- Each bound variable with what it is resolved to. -/
def solution (σ : Subst) : Subst := σ.map fun b => (b.1, (Ty.var b.1).resolve σ)

theorem find?_map_self (f : TyVar → Ty) (σ : Subst) (v : TyVar) :
    Subst.find? (σ.map fun b => (b.1, f b.1)) v = (σ.find? v).map fun _ => f v := by
  induction σ with
  | nil => rfl
  | cons b σ ih =>
    obtain ⟨a, u⟩ := b
    by_cases ha : v = a
    · simp [find?, ha]
    · have hne : (v == a) = false := by simpa using ha
      simpa [find?, List.lookup_cons, hne] using ih

theorem apply_solution (hK : Form.poly ∉ K) (ht : t.Built K) : t.apply σ.solution = t.resolve σ := by
  have hvar : ∀ v, (Ty.var v).apply σ.solution = (Ty.var v).resolve σ := by
    intro v
    rw [Ty.apply, solution, find?_map_self fun v => (Ty.var v).resolve σ]
    cases hv : σ.find? v with
    | none => exact (Ty.resolve_unbound hv).symm
    | some u => rfl
  rw [Ty.apply_eq_value hK ht, Ty.resolve_eq_value hK ht]
  exact congrArg (fun f => t.value .terms f) (funext hvar)

/-- What variables are resolved to is a solution. -/
theorem Tame.solvedBy (h : σ.Tame K) (hK : Form.poly ∉ K) :
    σ.SolvedBy .terms fun v => (Ty.var v).resolve σ := by
  intro v t hv
  dsimp only
  rw [h.acyclic.resolve_bound hv, Ty.resolve_eq_value hK (h.built v t hv)]

end Subst

namespace Algebra

theorem terms_ordered {K : Set Form} (hK : K ⊆ Form.firstOrder) : Algebra.terms.Ordered K Eq where
  refl _ := rfl
  thunk h := congrArg Ty.thunk h
  drop h := absurd (hK h) (by simp [Form.firstOrder])
  fn harg hret := congrArg₂ Ty.fn harg.symm hret
  con n _ _ h := congrArg (Ty.con n) (List.forall₂_eq_eq_eq ▸ h)
  never h := absurd (hK h) (by simp [Form.firstOrder])

end Algebra

namespace Unifier

variable {u : Unifier} {src dst : Ty} {eqs : List (Ty × Ty)}

theorem poly_not_mem_firstOrder : Form.poly ∉ Form.firstOrder := by simp [Form.firstOrder]

/-- A comparison that succeeds leaves those solutions that give both types the same value. -/
theorem solvedBy_assign_iff {u' : Unifier} {r : Except AssignError Unit}
    (hu : u.subst.Tame Form.firstOrder) (hsrc : src.Built Form.firstOrder)
    (hdst : dst.Built Form.firstOrder)
    (hanswer : ∀ n, u.depth src dst ≤ n → u.assign? n src dst = some (r, u')) :
    r = .ok () ∧ u'.subst.SolvedBy .terms ρ ↔
      u.subst.SolvedBy .terms ρ ∧ src.value .terms ρ = dst.value .terms ρ := by
  have hK := poly_not_mem_firstOrder
  have hassign := hanswer _ (Nat.le_refl _)
  constructor
  · rintro ⟨rfl, hρ⟩
    refine ⟨hρ.of_extends (assign_tame hK hu hsrc hdst hassign).2, ?_⟩
    exact assign_solved hK (by simp [Form.firstOrder]) (Algebra.terms_ordered subset_rfl) hu hsrc hdst
      hassign hρ
  · rintro ⟨hρ, heq⟩
    obtain ⟨hdrawn, hs, hd⟩ := drawn_pool hK hu hsrc hdst
    obtain ⟨later, hrun, hlater⟩ := Unify.assign_succeeds subset_rfl hs hd (caps_depth hK u src dst hs)
      (caps_depth hK u src dst hd) (.refl _) hdrawn hρ heq
    rw [assign?_eq_ok.mpr hrun] at hassign
    cases hassign
    exact ⟨rfl, hlater⟩

/-- First-order types fit if and only if their resolved forms have a unifier. -/
theorem assign_ok_iff {u' : Unifier} {r : Except AssignError Unit} (hu : u.subst.Tame Form.firstOrder)
    (hsrc : src.Built Form.firstOrder) (hdst : dst.Built Form.firstOrder)
    (hanswer : ∀ n, u.depth src dst ≤ n → u.assign? n src dst = some (r, u')) :
    r = .ok () ↔ ∃ θ : Subst, (u.resolve src).apply θ = (u.resolve dst).apply θ := by
  have hK := poly_not_mem_firstOrder
  constructor
  · intro hok
    have htame := (assign_tame hK hu hsrc hdst (hanswer _ (Nat.le_refl _))).1
    obtain ⟨hρ, heq⟩ := (solvedBy_assign_iff hu hsrc hdst hanswer).mp ⟨hok, htame.solvedBy hK⟩
    refine ⟨u'.subst.solution, ?_⟩
    have happly : ∀ {t : Ty}, t.Built Form.firstOrder →
        (u.resolve t).apply u'.subst.solution = t.value .terms fun v => (Ty.var v).resolve u'.subst := by
      intro t ht
      have hresolved := hu.built_resolve ht
      rw [resolve, Subst.apply_solution hK hresolved, Ty.resolve_eq_value hK hresolved,
        hu.value_resolve hK hρ ht]
    rw [happly hsrc, happly hdst, heq]
  · rintro ⟨θ, hθ⟩
    have hρ := hu.solvedBy_resolve (A := .terms) hK fun v => (Ty.var v).apply θ
    refine ((solvedBy_assign_iff hu hsrc hdst hanswer).mpr ⟨hρ, ?_⟩).1
    rwa [resolve, resolve, Ty.apply_eq_value hK (hu.built_resolve hsrc),
      Ty.apply_eq_value hK (hu.built_resolve hdst), Ty.value_resolve hK hsrc,
      Ty.value_resolve hK hdst] at hθ

/-- The bindings that comparisons of first-order types lead to, with the equations that were accepted,
latest first. Numbers may be taken in between. -/
inductive Accepts : List (Ty × Ty) → Unifier → Prop
  | start : Accepts [] empty
  | take {eqs : List (Ty × Ty)} {u : Unifier} (n : TyVar) : Accepts eqs u →
    Accepts eqs { u with counter := n }
  | accept {eqs : List (Ty × Ty)} {u u' : Unifier} {n : Nat} {src dst : Ty} : Accepts eqs u →
    src.Built Form.firstOrder → dst.Built Form.firstOrder →
    u.assign? n src dst = some (.ok (), u') → Accepts ((src, dst) :: eqs) u'
  | refuse {eqs : List (Ty × Ty)} {u u' : Unifier} {n : Nat} {src dst : Ty} {e : AssignError} :
    Accepts eqs u → src.Built Form.firstOrder → dst.Built Form.firstOrder →
    u.assign? n src dst = some (.error e, u') → Accepts eqs u'

/-- The answer within some depth is the answer within every larger one. -/
theorem answers_of_assign? {u' : Unifier} {n : Nat} {r : Except AssignError Unit}
    (hu : u.subst.Tame Form.firstOrder) (hsrc : src.Built Form.firstOrder)
    (hdst : dst.Built Form.firstOrder) (h : u.assign? n src dst = some (r, u')) :
    ∀ n, u.depth src dst ≤ n → u.assign? n src dst = some (r, u') := by
  obtain ⟨r₁, u₁, hanswer⟩ := exists_assign? poly_not_mem_firstOrder hu hsrc hdst
  have hlarge := assign?_mono (Nat.le_max_left n (u.depth src dst)) h
  rw [hanswer _ (Nat.le_max_right ..)] at hlarge
  rwa [hlarge] at hanswer

/-- The solutions of the bindings are those of the accepted equations. -/
theorem Accepts.solvedBy_iff (h : Accepts eqs u) :
    u.subst.Tame Form.firstOrder ∧
      (∀ p ∈ eqs, p.1.Built Form.firstOrder ∧ p.2.Built Form.firstOrder) ∧
      ∀ ρ : TyVar → Ty, u.subst.SolvedBy .terms ρ ↔
        ∀ p ∈ eqs, p.1.value .terms ρ = p.2.value .terms ρ := by
  have hK := poly_not_mem_firstOrder
  induction h with
  | start =>
    refine ⟨Subst.tame_nil, by simp, fun ρ => ?_⟩
    exact ⟨fun _ => by simp, fun _ _ _ h => by cases h⟩
  | take _ _ ih => exact ih
  | accept _ hsrc hdst hassign ih =>
    obtain ⟨htame, hbuilt, hsolved⟩ := ih
    refine ⟨(assign_tame hK htame hsrc hdst hassign).1, ?_, fun ρ => ?_⟩
    · exact List.forall_mem_cons.mpr ⟨⟨hsrc, hdst⟩, hbuilt⟩
    · have hiff := solvedBy_assign_iff (ρ := ρ) htame hsrc hdst
        (answers_of_assign? htame hsrc hdst hassign)
      rw [and_iff_right rfl] at hiff
      rw [hiff, List.forall_mem_cons, hsolved, and_comm]
  | refuse _ hsrc hdst hassign ih =>
    rwa [assign_failed hassign (by simp)]

/-- First-order comparisons are unification: each comes to an answer, which is the same within every larger
depth, and it succeeds if and only if the resolved types have a unifier, in either order of the types. Every
substitution that satisfies the accepted equations factors through the bindings, which satisfy them as
well. -/
theorem assign_unifies (h : Accepts eqs u) (hsrc : src.Built Form.firstOrder)
    (hdst : dst.Built Form.firstOrder) :
    ∃ r u', (∀ n, u.depth src dst ≤ n → u.assign? n src dst = some (r, u')) ∧
      (r = .ok () ↔ ∃ θ : Subst, (u.resolve src).apply θ = (u.resolve dst).apply θ) ∧
      (r = .ok () →
        (∀ p ∈ (src, dst) :: eqs, u'.resolve p.1 = u'.resolve p.2) ∧
        ∀ θ : Subst, (∀ p ∈ (src, dst) :: eqs, p.1.apply θ = p.2.apply θ) →
          ∃ δ : Subst, ∀ t : Ty, t.Built Form.firstOrder → t.apply θ = (u'.resolve t).apply δ) ∧
      ∃ r' u'', (∀ n, u.depth dst src ≤ n → u.assign? n dst src = some (r', u'')) ∧
        (r = .ok () ↔ r' = .ok ()) := by
  have hK := poly_not_mem_firstOrder
  have htame := h.solvedBy_iff.1
  obtain ⟨r, u', hanswer⟩ := exists_assign? hK htame hsrc hdst
  obtain ⟨r', u'', hanswer'⟩ := exists_assign? hK htame hdst hsrc
  refine ⟨r, u', hanswer, assign_ok_iff htame hsrc hdst hanswer, fun hok => ?_, r', u'', hanswer', ?_⟩
  · subst hok
    obtain ⟨hnext, hbuilt, hsolved⟩ := (h.accept hsrc hdst (hanswer _ (Nat.le_refl _))).solvedBy_iff
    refine ⟨fun p hp => ?_, fun θ hθ => ⟨θ, fun t ht => ?_⟩⟩
    · rw [resolve, resolve, Ty.resolve_eq_value hK (hbuilt p hp).1,
        Ty.resolve_eq_value hK (hbuilt p hp).2]
      exact (hsolved _).mp (hnext.solvedBy hK) p hp
    · have hρ : u'.subst.SolvedBy .terms fun v => (Ty.var v).apply θ := by
        refine (hsolved _).mpr fun p hp => ?_
        rw [← Ty.apply_eq_value hK (hbuilt p hp).1, ← Ty.apply_eq_value hK (hbuilt p hp).2]
        exact hθ p hp
      rw [resolve, Ty.apply_eq_value hK ht, Ty.apply_eq_value hK (hnext.built_resolve ht),
        hnext.value_resolve hK hρ ht]
  · rw [assign_ok_iff htame hsrc hdst hanswer, assign_ok_iff htame hdst hsrc hanswer']
    exact exists_congr fun θ => eq_comm

/-- A function between variables was compared with one from a constant to a conjunction of the third variable
with itself. -/
def doubled : Unifier := ⟨[(2, .con "And" [.var 3, .var 3]), (1, .rigid "P" 0)], 5, []⟩

theorem accepts_doubled : Accepts [(.fn (.var 1) (.var 2),
    .fn (.rigid "P" 0) (.con "And" [.var 3, .var 3]))] doubled := by
  have hassign : ({ empty with counter := 5 } : Unifier).assign? 2 (.fn (.var 1) (.var 2))
      (.fn (.rigid "P" 0) (.con "And" [.var 3, .var 3])) = some (.ok (), doubled) := rfl
  refine .accept (.take 5 .start) ?_ ?_ hassign <;> simp [Ty.Built, Ty.BuiltAll, Form.firstOrder]

/-- The second variable fits a conjunction of a constant with a fourth one, in either order, and then both
conjuncts are the constant. -/
theorem doubled_unifies :
    let and := Ty.con "And" [.rigid "Q" 0, .var 4]
    (∃ u', doubled.assign? 3 (.var 2) and = some (.ok (), u') ∧ (u'.resolve (.var 4)).text = "Q") ∧
      (∃ n u', doubled.assign? n and (.var 2) = some (.ok (), u')) ∧
      ¬ ∃ θ : Subst, (doubled.resolve (.var 2)).apply θ = (doubled.resolve (.var 3)).apply θ := by
  intro and
  have hvar : ∀ v, (Ty.var v).Built Form.firstOrder := by simp [Ty.Built, Form.firstOrder]
  have hand : and.Built Form.firstOrder := by
    simp [and, Ty.Built, Ty.BuiltAll, Form.firstOrder]
  have htame := accepts_doubled.solvedBy_iff.1
  obtain ⟨u', hfits, htext⟩ : ∃ u', doubled.assign? 3 (.var 2) and = some (.ok (), u') ∧
      (u'.resolve (.var 4)).text = "Q" := ⟨_, rfl, by decide +kernel⟩
  obtain ⟨r, u₁, hanswer, -, -, r', u₂, hanswer', hsame⟩ := assign_unifies accepts_doubled (hvar 2) hand
  obtain ⟨rfl, -⟩ : r = .ok () ∧ u₁ = u' := by
    have heq := answers_of_assign? htame (hvar 2) hand hfits _ (Nat.le_refl _)
    rw [hanswer _ (Nat.le_refl _)] at heq
    cases heq
    exact ⟨rfl, rfl⟩
  obtain rfl := hsame.mp rfl
  refine ⟨⟨u', hfits, htext⟩, ⟨_, u₂, hanswer' _ (Nat.le_refl _)⟩, fun hθ => ?_⟩
  obtain ⟨r, u₃, hanswer, hok, -⟩ := assign_unifies accepts_doubled (hvar 2) (hvar 3)
  obtain rfl := hok.mpr hθ
  obtain ⟨e, u₄, hrefused⟩ : ∃ e u₄, doubled.assign? 3 (.var 2) (.var 3) = some (.error e, u₄) :=
    ⟨_, _, rfl⟩
  have heq := answers_of_assign? htame (hvar 2) (hvar 3) hrefused _ (Nat.le_refl _)
  rw [hanswer _ (Nat.le_refl _)] at heq
  cases heq

end Unifier

end ProofScript
