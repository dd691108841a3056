import ProofScript.Proofs.Stateful
import ProofScript.Ty.Unify

/-!
# Steps of a comparison

What a comparison of two types does next depends on these only, once chains of bindings are followed. Runs
of a comparison, those that fail or have to go deeper included, are looked at here in steps of that kind: a
run within a depth is the same within any larger one, and what each change of the bindings keeps, a run
keeps.
-/

namespace ProofScript

open Stateful

namespace Unify

/-! ## What is left to do -/

/-- What is left to do when two types meet that are no bound variables. -/
inductive Task where
  | equate (s d : Ty)
  | accept
  | bind (v : TyVar) (t : Ty)
  | generalize (s : Ty) (params : List (String × TyVar)) (body : Ty)
  | specialize (params : List (String × TyVar)) (body d : Ty)
  | parts (pairs : List (Ty × Ty))
  | refuse (s d : Ty)

/-- What is left to do for a source and a target that are not equal. -/
def differing : Ty → Ty → Task
  | .any, _ => .accept
  | _, .any => .accept
  | .var v, d => .bind v d
  | s, .var v => .bind v s
  | .never, _ => .accept
  | s, .poly params body => .generalize s params body
  | .poly params body, d => .specialize params body d
  | .thunk r, .thunk q => .parts [(r, q)]
  | .thunk r, .fn _ q => .parts [(r, q)]
  | .fn a r, .fn b q => .parts [(b, a), (r, q)]
  | .con f as, .con g bs =>
    if f = g ∧ as.length = bs.length then .parts (as.zip bs) else .refuse (.con f as) (.con g bs)
  | s, d => .refuse s d

/-- What is left to do for a source and a target. -/
def task (s d : Ty) : Task := if s.eqv d then .equate s d else differing s d

/-- Checks that no type parameter of a polymorphic target escapes. -/
def confine (vars : List TyVar) (skolems : List (String × TyVar)) : Unify Unit := do
  match escaping (← get) vars skolems with
  | name :: others => throw (.refused (.escape name others))
  | [] => return ()

/-- Does what is left to do, where parts are compared within a depth. -/
def Task.run (n : Nat) : Task → Unify Unit
  | equate s d => do
    let u ← get
    set { u with equated := (s, d) :: u.equated }
  | accept => return ()
  | bind v t => bindVar v t
  | generalize s params body => do
    let u ← get
    set (u.skolemize params body).2
    assign n s (u.skolemize params body).1.2
    confine (s.freeVars ++ (Ty.poly params body).freeVars) (u.skolemize params body).1.1
  | specialize params body d => do
    let u ← get
    set (u.instantiate params body).2
    assign n (u.instantiate params body).1 d
  | parts pairs => pairs.forM fun p => assign n p.1 p.2
  | refuse s d => throw (.refused (.mismatch s d))

theorem assign_succ (n : Nat) (src dst : Ty) (u : Unifier) :
    assign (n + 1) src dst u = (task (u.shallow src) (u.shallow dst)).run n u := by
  rw [assign, get_bind]
  dsimp only
  generalize u.shallow src = s
  generalize u.shallow dst = d
  unfold task
  split
  · rfl
  unfold differing
  cases s <;> cases d <;> try rfl
  case thunk.thunk => simp [Task.run]
  case thunk.fn => simp [Task.run]
  case fn.fn => simp [Task.run]
  case con.con =>
    dsimp only
    split <;> rfl

/-- Where a comparison with a polymorphic target succeeds, the one with its body does, and no type parameter
escapes. -/
theorem run_generalize_eq_ok {n : Nat} {s b : Ty} {ps : List (String × TyVar)} {u u' : Unifier}
    (h : (Task.generalize s ps b).run n u = (.ok (), u')) :
    assign n s (u.skolemize ps b).1.2 (u.skolemize ps b).2 = (.ok (), u') ∧
      escaping u' (s.freeVars ++ (Ty.poly ps b).freeVars) (u.skolemize ps b).1.1 = [] := by
  rw [Task.run, get_bind, set_bind] at h
  obtain ⟨_, mid, hassign, h⟩ := bind_eq_ok.mp h
  rw [confine, get_bind] at h
  generalize hescape : escaping _ _ _ = escaped at h
  cases escaped with
  | cons name others => exact absurd h throw_ne_ok
  | nil =>
    obtain ⟨-, rfl⟩ := pure_eq_ok.mp h
    exact ⟨hassign, hescape⟩

/-- The types that each task is left for. -/
inductive Poses : Ty → Ty → Task → Prop
  | equate {s d : Ty} : s.eqv d = true → Poses s d (.equate s d)
  | anySource {d : Ty} : Poses .any d .accept
  | anyTarget {s : Ty} : Poses s .any .accept
  | absurd {d : Ty} : Poses .never d .accept
  | bindSource {v : TyVar} {d : Ty} : Poses (.var v) d (.bind v d)
  | bindTarget {v : TyVar} {s : Ty} : Poses s (.var v) (.bind v s)
  | generalize {s b : Ty} {ps : List (String × TyVar)} : Poses s (.poly ps b) (.generalize s ps b)
  | specialize {b d : Ty} {ps : List (String × TyVar)} : Poses (.poly ps b) d (.specialize ps b d)
  | thunks {r q : Ty} : Poses (.thunk r) (.thunk q) (.parts [(r, q)])
  | drop {r b q : Ty} : Poses (.thunk r) (.fn b q) (.parts [(r, q)])
  | functions {a r b q : Ty} : Poses (.fn a r) (.fn b q) (.parts [(b, a), (r, q)])
  | arguments {f : String} {as bs : List Ty} : as.length = bs.length →
    Poses (.con f as) (.con f bs) (.parts (as.zip bs))
  | refuse {s d : Ty} : Poses s d (.refuse s d)

theorem poses_task (s d : Ty) : Poses s d (task s d) := by
  unfold task
  split
  · rename_i heqv
    exact .equate heqv
  unfold differing
  split
  · exact .anySource
  · exact .anyTarget
  · exact .bindSource
  · exact .bindTarget
  · exact .absurd
  · exact .generalize
  · exact .specialize
  · exact .thunks
  · exact .drop
  · exact .functions
  · split
    · rename_i hcon
      obtain ⟨rfl, hlen⟩ := hcon
      exact .arguments hlen
    · exact .refuse
  · exact .refuse

/-- A property of a type that passes on to the types which it is made of. -/
structure Inherits (I J : Ty → Prop) : Prop where
  thunk : ∀ {r}, I (.thunk r) → J r
  fn : ∀ {a r}, I (.fn a r) → J a ∧ J r
  con : ∀ {f as}, I (.con f as) → ∀ a ∈ as, J a

theorem Inherits.parts {I J : Ty → Prop} (h : Inherits I J) {s d : Ty} {pairs : List (Ty × Ty)}
    (hposes : Poses s d (.parts pairs)) (hs : I s) (hd : I d) : ∀ p ∈ pairs, J p.1 ∧ J p.2 := by
  cases hposes with
  | thunks => simpa using ⟨h.thunk hs, h.thunk hd⟩
  | drop => simpa using ⟨h.thunk hs, (h.fn hd).2⟩
  | functions => simpa using ⟨⟨(h.fn hd).1, (h.fn hs).1⟩, (h.fn hs).2, (h.fn hd).2⟩
  | arguments =>
    intro p hp
    obtain ⟨ha, hb⟩ := List.of_mem_zip hp
    exact ⟨h.con hs _ ha, h.con hd _ hb⟩

/-! ## Binding a variable -/

/-- How binding a variable ends. -/
theorem bindVar_cases (v : TyVar) (t : Ty) (u : Unifier) :
    t = .var v ∧ bindVar v t u = (.ok (), u) ∨
      v ∉ (u.resolve t).freeVars ∧
        bindVar v t u = (.ok (), { u with subst := u.subst.insert v t }) ∨
      t ≠ .var v ∧ v ∈ (u.resolve t).freeVars ∧
        bindVar v t u = (.error (.refused (.selfReference (u.resolve t))), u) := by
  rw [bindVar, get_bind]
  have hbind : ∀ t : Ty, t ≠ .var v →
      v ∉ (u.resolve t).freeVars ∧ (if v ∈ (u.resolve t).freeVars then
        throw (.refused (.selfReference (u.resolve t))) else set { u with subst := u.subst.insert v t } :
          Unify Unit) u = (.ok (), { u with subst := u.subst.insert v t }) ∨
      t ≠ .var v ∧ v ∈ (u.resolve t).freeVars ∧ (if v ∈ (u.resolve t).freeVars then
        throw (.refused (.selfReference (u.resolve t))) else set { u with subst := u.subst.insert v t } :
          Unify Unit) u = (.error (.refused (.selfReference (u.resolve t))), u) := by
    intro t hne
    split
    · rename_i hfree
      exact .inr ⟨hne, hfree, rfl⟩
    · rename_i hfree
      exact .inl ⟨hfree, rfl⟩
  cases t with
  | var w =>
    by_cases hw : v = w
    · subst hw
      dsimp only
      rw [if_pos rfl]
      exact .inl ⟨rfl, rfl⟩
    · dsimp only
      rw [if_neg hw]
      exact .inr (hbind _ fun heq => hw (Ty.var.inj heq).symm)
  | _ => exact .inr (hbind _ Ty.noConfusion)

theorem bindVar_eq_ok {v : TyVar} {t : Ty} {u u' : Unifier} {r : Unit}
    (h : bindVar v t u = (.ok r, u')) :
    t = .var v ∧ u' = u ∨
      v ∉ (u.resolve t).freeVars ∧ u' = { u with subst := u.subst.insert v t } := by
  rcases bindVar_cases v t u with ⟨ht, hrun⟩ | ⟨hfree, hrun⟩ | ⟨-, -, hrun⟩
  · rw [hrun] at h
    cases h
    exact .inl ⟨ht, rfl⟩
  · rw [hrun] at h
    cases h
    exact .inr ⟨hfree, rfl⟩
  · rw [hrun] at h
    cases h

/-! ## Depth -/

/-- The second step does what the first one does, unless that has to go deeper. -/
def Continues (m m' : Unify Unit) : Prop := ∀ u, (m u).1 ≠ .error .deeper → m' u = m u

namespace Continues

variable {m m' g g' : Unify Unit}

theorem refl (m : Unify Unit) : Continues m m := fun _ _ => rfl

theorem bind (hm : Continues m m') (hg : Continues g g') :
    Continues (m >>= fun _ => g) (m' >>= fun _ => g') := by
  intro u hends
  obtain ⟨r, mid, hrun⟩ : ∃ r mid, m u = (r, mid) := ⟨_, _, rfl⟩
  cases r with
  | error e =>
    rw [bind_of_error hrun] at hends ⊢
    exact bind_of_error ((hm u (by rwa [hrun])).trans hrun)
  | ok a =>
    rw [bind_of_ok hrun] at hends ⊢
    rw [bind_of_ok ((hm u (by simp [hrun])).trans hrun)]
    exact hg mid hends

theorem forM {α : Type} {f f' : α → Unify Unit} (h : ∀ a, Continues (f a) (f' a)) (as : List α) :
    Continues (as.forM f) (as.forM f') := by
  induction as with
  | nil => exact .refl _
  | cons a as ih => exact (h a).bind ih

end Continues

/-- More depth does not change what a comparison comes to. -/
theorem assign_continues {n k : Nat} (hnk : n ≤ k) (src dst : Ty) :
    Continues (assign n src dst) (assign k src dst) := by
  induction n generalizing k src dst with
  | zero => exact fun _ hends => absurd rfl hends
  | succ n ih =>
    obtain ⟨k, rfl⟩ := Nat.exists_eq_succ_of_ne_zero (by omega : k ≠ 0)
    have hpart : ∀ s d, Continues (assign n s d) (assign k s d) :=
      fun s d => ih (Nat.le_of_succ_le_succ hnk) s d
    intro u hends
    rw [assign_succ] at hends ⊢
    rw [assign_succ]
    generalize task (u.shallow src) (u.shallow dst) = t at hends ⊢
    cases t with
    | generalize s ps b => exact (hpart _ _).bind (.refl _) _ hends
    | specialize ps b d => exact hpart _ _ _ hends
    | parts pairs =>
      have hloop : Continues (pairs.forM fun p => assign n p.1 p.2)
          (pairs.forM fun p => assign k p.1 p.2) := .forM (fun p => hpart p.1 p.2) pairs
      exact hloop u hends
    | _ => rfl

/-! ## The states within a comparison -/

/-- The comparisons to depth `n` that a comparison of two types may make, if these are no bound
variables, with the states that they begin in. -/
inductive Part (n : Nat) (u : Unifier) : Ty → Ty → Unifier → Ty → Ty → Prop
  | generalize {s b : Ty} {ps : List (String × TyVar)} :
    Part n u s (.poly ps b) (u.skolemize ps b).2 s (u.skolemize ps b).1.2
  | specialize {d b : Ty} {ps : List (String × TyVar)} :
    Part n u (.poly ps b) d (u.instantiate ps b).2 (u.instantiate ps b).1 d
  | thunks {r q : Ty} : Part n u (.thunk r) (.thunk q) u r q
  | drop {r b q : Ty} : Part n u (.thunk r) (.fn b q) u r q
  | parameter {a r b q : Ty} : Part n u (.fn a r) (.fn b q) u b a
  | result {a r b q : Ty} {mid : Unifier} : assign n b a u = (.ok (), mid) →
    Part n u (.fn a r) (.fn b q) mid r q
  | argument {f : String} {as bs : List Ty} {before after : List (Ty × Ty)} {a b : Ty}
      {mid : Unifier} : as.zip bs = before ++ (a, b) :: after →
    (before.forM fun p => assign n p.1 p.2) u = (.ok (), mid) →
    Part n u (.con f as) (.con f bs) mid a b

/-- The states that a comparison comes to, with the types that it compares there: where it or a comparison
that it makes begins, and where one ends, with success or without. -/
inductive Visits : Nat → Unifier → Ty → Ty → Unifier → List Ty → Prop
  | begins {n : Nat} {u : Unifier} {src dst : Ty} : Visits n u src dst u [src, dst]
  | ends {n : Nat} {u : Unifier} {src dst : Ty} :
    Visits n u src dst (assign n src dst u).2 [src, dst]
  | within {n : Nat} {u v w : Unifier} {src dst s d : Ty} {ts : List Ty} :
    Part n u (u.shallow src) (u.shallow dst) v s d → Visits n v s d w ts →
    Visits (n + 1) u src dst w ts

/-! ## Invariants -/

/-- What comparisons keep: a state with the property `S` and types with the property `I` there are led to
later states by each change that a comparison makes, and `R` relates the states before and after. -/
structure Carries (S : Unifier → Prop) (I : Unifier → Ty → Prop) (R : Unifier → Unifier → Prop) :
    Prop where
  refl : ∀ {u}, S u → R u u
  trans : ∀ {u v w}, R u v → R v w → R u w
  state : ∀ {u v}, R u v → S v
  type : ∀ {u v t}, R u v → I u t → I v t
  parts : ∀ {u}, S u → Inherits (I u) (I u)
  shallow : ∀ {u t}, S u → I u t → I u (u.shallow t)
  equate : ∀ {u} pairs, S u → R u { u with equated := pairs ++ u.equated }
  bind : ∀ {u v t}, S u → (∃ s, u.shallow s = .var v) → I u (.var v) → I u t →
    v ∉ (u.resolve t).freeVars → R u { u with subst := u.subst.insert v t }
  skolemize : ∀ {u ps b}, S u → I u (.poly ps b) →
    R u (u.skolemize ps b).2 ∧ I (u.skolemize ps b).2 (u.skolemize ps b).1.2
  instantiate : ∀ {u ps b}, S u → I u (.poly ps b) →
    R u (u.instantiate ps b).2 ∧ I (u.instantiate ps b).2 (u.instantiate ps b).1

namespace Carries

variable {S : Unifier → Prop} {I : Unifier → Ty → Prop} {R : Unifier → Unifier → Prop}
  {u v w : Unifier} {src dst s d : Ty} {n : Nat}

theorem bindVar (h : Carries S I R) {v : TyVar} {t : Ty} (hu : S u) (hv : ∃ s, u.shallow s = .var v)
    (hvar : I u (.var v)) (ht : I u t) : R u (bindVar v t u).2 := by
  rcases bindVar_cases v t u with ⟨-, hrun⟩ | ⟨hfree, hrun⟩ | ⟨-, -, hrun⟩
  · rw [hrun]
    exact h.refl hu
  · rw [hrun]
    exact h.bind hu hv hvar ht hfree
  · rw [hrun]
    exact h.refl hu

/-- What each of several comparisons keeps, a loop over them keeps. -/
theorem forM (h : Carries S I R) {f : Ty × Ty → Unify Unit} {pairs : List (Ty × Ty)}
    (hf : ∀ p ∈ pairs, ∀ u, S u → I u p.1 → I u p.2 → R u (f p u).2) (hu : S u)
    (hpairs : ∀ p ∈ pairs, I u p.1 ∧ I u p.2) : R u (pairs.forM f u).2 := by
  induction pairs generalizing u with
  | nil => exact h.refl hu
  | cons p pairs ih =>
    rw [List.forall_mem_cons] at hf hpairs
    have hfirst := hf.1 u hu hpairs.1.1 hpairs.1.2
    obtain ⟨r, mid, hrun⟩ : ∃ r mid, f p u = (r, mid) := ⟨_, _, rfl⟩
    rw [hrun] at hfirst
    change R u ((f p >>= fun _ => pairs.forM f) u).2
    cases r with
    | error e => rwa [bind_of_error hrun]
    | ok _ =>
      rw [bind_of_ok hrun]
      exact h.trans hfirst (ih hf.2 (h.state hfirst)
        fun q hq => ⟨h.type hfirst (hpairs.2 q hq).1, h.type hfirst (hpairs.2 q hq).2⟩)

theorem confine (h : Carries S I R) (hu : S u) (vars : List TyVar) (skolems : List (String × TyVar)) :
    R u (confine vars skolems u).2 := by
  rw [Unify.confine, get_bind]
  cases escaping u vars skolems <;> exact h.refl hu

/-- A comparison keeps it, whether it succeeds, fails or has to go deeper. -/
theorem assign (h : Carries S I R) (n : Nat) (hu : S u) (hsrc : I u src) (hdst : I u dst) :
    R u (assign n src dst u).2 := by
  induction n generalizing u src dst with
  | zero => exact h.refl hu
  | succ n ih =>
    have hs := h.shallow hu hsrc
    have hd := h.shallow hu hdst
    have hsvar : ∀ v, u.shallow src = .var v → ∃ s, u.shallow s = .var v := fun _ hv => ⟨_, hv⟩
    have hdvar : ∀ v, u.shallow dst = .var v → ∃ s, u.shallow s = .var v := fun _ hv => ⟨_, hv⟩
    have hposes := poses_task (u.shallow src) (u.shallow dst)
    rw [assign_succ]
    generalize u.shallow src = s at hs hsvar hposes ⊢
    generalize u.shallow dst = d at hd hdvar hposes ⊢
    generalize task s d = t at hposes ⊢
    cases t with
    | equate =>
      cases hposes
      exact h.equate [(s, d)] hu
    | accept | refuse => exact h.refl hu
    | bind =>
      cases hposes with
      | bindSource => exact h.bindVar hu (hsvar _ rfl) hs hd
      | bindTarget => exact h.bindVar hu (hdvar _ rfl) hd hs
    | generalize _ ps b =>
      cases hposes
      obtain ⟨hfresh, hb⟩ := h.skolemize hu hd
      have hbody := ih (h.state hfresh) (h.type hfresh hs) hb
      rw [Task.run, get_bind, set_bind]
      obtain ⟨r, mid, hrun⟩ : ∃ r mid, Unify.assign n s (u.skolemize ps b).1.2 (u.skolemize ps b).2 =
        (r, mid) := ⟨_, _, rfl⟩
      rw [hrun] at hbody
      have hmid := h.trans hfresh hbody
      cases r with
      | error e => rwa [bind_of_error hrun]
      | ok _ =>
        rw [bind_of_ok hrun]
        exact h.trans hmid (h.confine (h.state hmid) _ _)
    | specialize =>
      cases hposes
      obtain ⟨hfresh, hb⟩ := h.instantiate hu hs
      exact h.trans hfresh (ih (h.state hfresh) hb (h.type hfresh hd))
    | parts pairs =>
      exact h.forM (fun p _ u hu hs hd => ih hu hs hd) hu ((h.parts hu).parts hposes hs hd)

theorem loop (h : Carries S I R) (n : Nat) {pairs : List (Ty × Ty)} (hu : S u)
    (hpairs : ∀ p ∈ pairs, I u p.1 ∧ I u p.2) :
    R u ((pairs.forM fun p => Unify.assign n p.1 p.2) u).2 :=
  h.forM (fun _ _ _ hu hs hd => h.assign n hu hs hd) hu hpairs

/-- The parts of a comparison begin in later states. -/
theorem part (h : Carries S I R) (hu : S u) (hs : I u s) (hd : I u d) {s' d' : Ty}
    (hpart : Part n u s d v s' d') : R u v ∧ I v s' ∧ I v d' := by
  have hparts := h.parts hu
  have hrefl := h.refl hu
  cases hpart with
  | generalize =>
    obtain ⟨hfresh, hb⟩ := h.skolemize hu hd
    exact ⟨hfresh, h.type hfresh hs, hb⟩
  | specialize =>
    obtain ⟨hfresh, hb⟩ := h.instantiate hu hs
    exact ⟨hfresh, hb, h.type hfresh hd⟩
  | thunks => exact ⟨hrefl, hparts.thunk hs, hparts.thunk hd⟩
  | drop => exact ⟨hrefl, hparts.thunk hs, (hparts.fn hd).2⟩
  | parameter => exact ⟨hrefl, (hparts.fn hd).1, (hparts.fn hs).1⟩
  | result hfirst =>
    have hlater := h.assign n hu (hparts.fn hd).1 (hparts.fn hs).1
    rw [hfirst] at hlater
    exact ⟨hlater, h.type hlater (hparts.fn hs).2, h.type hlater (hparts.fn hd).2⟩
  | @argument _ as bs _ _ _ _ _ hzip hbefore =>
    have hall : ∀ p ∈ as.zip bs, I u p.1 ∧ I u p.2 := fun p hp =>
      ⟨hparts.con hs _ (List.of_mem_zip hp).1, hparts.con hd _ (List.of_mem_zip hp).2⟩
    rw [hzip, List.forall_mem_append, List.forall_mem_cons] at hall
    have hlater := h.loop n hu hall.1
    rw [hbefore] at hlater
    exact ⟨hlater, h.type hlater hall.2.1.1, h.type hlater hall.2.1.2⟩

/-- All states that a comparison comes to are later ones. -/
theorem visits (h : Carries S I R) {ts : List Ty} (hvisits : Visits n u src dst w ts) (hu : S u)
    (hsrc : I u src) (hdst : I u dst) : R u w ∧ ∀ t ∈ ts, I w t := by
  induction hvisits with
  | begins => exact ⟨h.refl hu, by simp [hsrc, hdst]⟩
  | @ends n =>
    have hlater := h.assign n hu hsrc hdst
    exact ⟨hlater, by simp [h.type hlater hsrc, h.type hlater hdst]⟩
  | within hpart _ ih =>
    obtain ⟨hbegins, hs, hd⟩ := h.part hu (h.shallow hu hsrc) (h.shallow hu hdst) hpart
    obtain ⟨hlater, hts⟩ := ih (h.state hbegins) hs hd
    exact ⟨h.trans hbegins hlater, hts⟩

end Carries

end Unify

/-! ## Comparisons from the outside -/

namespace Unifier

variable {u u' : Unifier} {n k : Nat} {src dst : Ty} {r : Except AssignError Unit}

theorem assign?_eq (u : Unifier) (n : Nat) (src dst : Ty) :
    u.assign? n src dst = u.conclude src dst (Unify.assign n src dst u) := rfl

theorem assign?_eq_ok :
    u.assign? n src dst = some (.ok (), u') ↔ Unify.assign n src dst u = (.ok (), u') := by
  rw [assign?_eq]
  generalize Unify.assign n src dst u = run
  obtain ⟨(e | _) | _, later⟩ := run
  · cases e <;> exact ⟨nofun, nofun⟩
  · exact ⟨nofun, nofun⟩
  · constructor <;> intro h <;> cases h <;> rfl

theorem assign?_eq_none :
    u.assign? n src dst = none ↔ (Unify.assign n src dst u).1 = .error .deeper := by
  rw [assign?_eq]
  generalize Unify.assign n src dst u = run
  obtain ⟨(e | _) | _, later⟩ := run
  · cases e <;> simp [conclude]
  · simp [conclude]
  · simp [conclude]

/-- A comparison that fails leaves the bindings of before. -/
theorem assign?_eq_error {e : AssignError} (h : u.assign? n src dst = some (.error e, u')) :
    u' = { (Unify.assign n src dst u).2 with subst := u.subst } := by
  rw [assign?_eq] at h
  generalize Unify.assign n src dst u = run at h ⊢
  obtain ⟨(e' | _) | _, later⟩ := run
  · cases e' <;> exact (congrArg Prod.snd (Option.some.inj h)).symm
  · cases h
  · cases h

/-- More depth does not change what a comparison comes to. -/
theorem assign?_mono (hnk : n ≤ k) {x : Except AssignError Unit × Unifier}
    (h : u.assign? n src dst = some x) : u.assign? k src dst = some x := by
  have hends : (Unify.assign n src dst u).1 ≠ .error .deeper := by
    intro hdeeper
    rw [assign?_eq_none.mpr hdeeper] at h
    cases h
  rwa [assign?_eq, Unify.assign_continues hnk src dst u hends, ← assign?_eq]

/-- A comparison from the outside keeps what comparisons keep and forgetting bindings does. -/
theorem carries_assign? {S : Unifier → Prop} {I : Unifier → Ty → Prop} {R : Unifier → Unifier → Prop}
    (h : Unify.Carries S I R)
    (hrestore : ∀ {v : Unifier}, R u v → R u { v with subst := u.subst }) (hu : S u) (hsrc : I u src)
    (hdst : I u dst) (hassign : u.assign? n src dst = some (r, u')) : R u u' := by
  have hrun := h.assign n hu hsrc hdst
  cases r with
  | ok =>
    rw [assign?_eq_ok.mp hassign] at hrun
    exact hrun
  | error e =>
    rw [assign?_eq_error hassign]
    exact hrestore hrun

end Unifier

end ProofScript
