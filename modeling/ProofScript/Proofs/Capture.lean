import ProofScript.Proofs.Confinement

/-!
# Capture

A substitution captures a variable if it puts a type in which the variable is free below a binder of that
variable, and so does binding a constant by a variable that is bound around it. Nothing is captured where
binders have numbers of their own.
-/

namespace ProofScript

namespace Ty

/-! ## Binders of a type -/

mutual

/-- The variables that polymorphic types within a type bind, possibly repeated. -/
def binders : Ty → List TyVar
  | thunk r => r.binders
  | fn a r => a.binders ++ r.binders
  | con _ as => bindersAll as
  | poly ps b => ps.map Prod.snd ++ b.binders
  | _ => []

/-- The variables that are bound within types, possibly repeated. -/
def bindersAll : List Ty → List TyVar
  | [] => []
  | t :: rest => t.binders ++ bindersAll rest

end

mutual

/-- Does a binder of the type capture a variable of a replacement? -/
def captures (σ : Subst) : Ty → Bool
  | thunk r => r.captures σ
  | fn a r => a.captures σ || r.captures σ
  | con _ as => anyCaptures σ as
  | poly ps b =>
    ((poly ps b).freeVars.any fun v =>
        (σ.find? v).any fun t => t.freeVars.any (· ∈ ps.map Prod.snd)) ||
      b.captures (σ.without (ps.map Prod.snd))
  | _ => false

/-- Does a binder of one of the types capture a variable of a replacement? -/
def anyCaptures (σ : Subst) : List Ty → Bool
  | [] => false
  | t :: rest => t.captures σ || anyCaptures σ rest

end

mutual

/-- Does a binder of the type capture a variable that takes the place of a constant? -/
def abstractCaptures (consts : List ((String × TyVar) × TyVar)) : Ty → Bool
  | thunk r => r.abstractCaptures consts
  | fn a r => a.abstractCaptures consts || r.abstractCaptures consts
  | con _ as => anyAbstractCaptures consts as
  | poly ps b =>
    (consts.any fun c => b.mentions c.1.1 c.1.2 && c.2 ∈ ps.map Prod.snd) ||
      b.abstractCaptures consts
  | _ => false

/-- Does a binder of one of the types capture a variable that takes the place of a constant? -/
def anyAbstractCaptures (consts : List ((String × TyVar) × TyVar)) : List Ty → Bool
  | [] => false
  | t :: rest => t.abstractCaptures consts || anyAbstractCaptures consts rest

end

/-! ## Binders with numbers of their own -/

section

variable {F : Set TyVar} {c : TyVar}

mutual

theorem Orderly.binders {v : TyVar} : (t : Ty) → t.Orderly F c → v ∈ t.binders → v ∉ F ∧ v ≤ c
  | var _, _, hv => by simp [Ty.binders] at hv
  | rigid _ _, _, hv => by simp [Ty.binders] at hv
  | thunk r, h, hv => Orderly.binders r h hv
  | fn a r, h, hv => by
    rw [Ty.binders, List.mem_append] at hv
    exact hv.elim (Orderly.binders a h.1) (Orderly.binders r h.2)
  | con _ as, h, hv => OrderlyAll.binders as h hv
  | poly ps b, h, hv => by
    rw [Ty.binders, List.mem_append] at hv
    rcases hv with hv | hv
    · obtain ⟨p, hp, rfl⟩ := List.mem_map.mp hv
      exact h.1 p hp
    · exact Orderly.binders b h.2 hv
  | never, _, hv => by simp [Ty.binders] at hv
  | any, _, hv => by simp [Ty.binders] at hv

theorem OrderlyAll.binders {v : TyVar} :
    (ts : List Ty) → OrderlyAll F c ts → v ∈ bindersAll ts → v ∉ F ∧ v ≤ c
  | [], _, hv => by simp [bindersAll] at hv
  | t :: rest, h, hv => by
    rw [bindersAll, List.mem_append] at hv
    exact hv.elim (Orderly.binders t h.1) (OrderlyAll.binders rest h.2)

end

end

mutual

/-- Nothing is captured if no variable of a replacement is bound in the type. -/
theorem captures_eq_false {σ : Subst} : (t : Ty) →
    (∀ v s, σ.find? v = some s → ∀ w ∈ s.freeVars, w ∉ t.binders) → t.captures σ = false
  | var _, _ => rfl
  | rigid _ _, _ => rfl
  | thunk r, h => captures_eq_false r h
  | fn a r, h => by
    simp only [Ty.binders, List.mem_append, not_or] at h
    rw [captures, Bool.or_eq_false_iff]
    exact ⟨captures_eq_false a fun v s hs w hw => (h v s hs w hw).1,
      captures_eq_false r fun v s hs w hw => (h v s hs w hw).2⟩
  | con _ as, h => anyCaptures_eq_false as h
  | poly ps b, h => by
    simp only [Ty.binders, List.mem_append, not_or] at h
    rw [captures, Bool.or_eq_false_iff]
    constructor
    · simp only [List.any_eq_false, Option.any_eq_true, decide_eq_true_eq, not_exists, not_and,
        List.any_eq_true]
      exact fun v _ s hs w hw => (h v s hs w hw).1
    · refine captures_eq_false b fun v s hs => ?_
      rw [Subst.find?_without, Option.ite_none_left_eq_some] at hs
      exact fun w hw => (h v s hs.2 w hw).2
  | never, _ => rfl
  | any, _ => rfl

theorem anyCaptures_eq_false {σ : Subst} : (ts : List Ty) →
    (∀ v s, σ.find? v = some s → ∀ w ∈ s.freeVars, w ∉ bindersAll ts) → anyCaptures σ ts = false
  | [], _ => rfl
  | t :: rest, h => by
    simp only [bindersAll, List.mem_append, not_or] at h
    rw [anyCaptures, Bool.or_eq_false_iff]
    exact ⟨captures_eq_false t fun v s hs w hw => (h v s hs w hw).1,
      anyCaptures_eq_false rest fun v s hs w hw => (h v s hs w hw).2⟩

end

section

variable {consts : List ((String × TyVar) × TyVar)}

mutual

/-- Nothing is captured if no variable that takes the place of a constant is bound in the type. -/
theorem abstractCaptures_eq_false :
    (t : Ty) → (∀ c ∈ consts, c.2 ∉ t.binders) → t.abstractCaptures consts = false
  | var _, _ => rfl
  | rigid _ _, _ => rfl
  | thunk r, h => abstractCaptures_eq_false r h
  | fn a r, h => by
    simp only [Ty.binders, List.mem_append, not_or] at h
    rw [abstractCaptures, Bool.or_eq_false_iff]
    exact ⟨abstractCaptures_eq_false a fun c hc => (h c hc).1,
      abstractCaptures_eq_false r fun c hc => (h c hc).2⟩
  | con _ as, h => anyAbstractCaptures_eq_false as h
  | poly ps b, h => by
    simp only [Ty.binders, List.mem_append, not_or] at h
    rw [abstractCaptures, Bool.or_eq_false_iff]
    constructor
    · simp only [List.any_eq_false, Bool.and_eq_true, decide_eq_true_eq, not_and]
      exact fun c hc _ => (h c hc).1
    · exact abstractCaptures_eq_false b fun c hc => (h c hc).2
  | never, _ => rfl
  | any, _ => rfl

theorem anyAbstractCaptures_eq_false :
    (ts : List Ty) → (∀ c ∈ consts, c.2 ∉ bindersAll ts) → anyAbstractCaptures consts ts = false
  | [], _ => rfl
  | t :: rest, h => by
    simp only [bindersAll, List.mem_append, not_or] at h
    rw [anyAbstractCaptures, Bool.or_eq_false_iff]
    exact ⟨abstractCaptures_eq_false t fun c hc => (h c hc).1,
      anyAbstractCaptures_eq_false rest fun c hc => (h c hc).2⟩

end

/-! ## Constants that become variables -/

variable {n : String} {i : TyVar}

mutual

/-- Constants that become variables are gone, and the others stay. -/
theorem mentions_abstract : (t : Ty) → ((t.abstract consts).mentions n i = true ↔
    t.mentions n i = true ∧ consts.lookup (n, i) = none)
  | var _ => by simp [Ty.abstract, mentions]
  | rigid m j => by
    rw [Ty.abstract]
    by_cases heq : m = n ∧ j = i
    · obtain ⟨rfl, rfl⟩ := heq
      cases hl : consts.lookup (m, j) with
      | none => simp [mentions]
      | some v => simp [mentions]
    · cases hl : consts.lookup (m, j) with
      | none => simp [mentions, heq]
      | some v => simp [mentions, heq]
  | thunk r => mentions_abstract r
  | fn a r => by
    simp only [Ty.abstract, mentions, Bool.or_eq_true, mentions_abstract a, mentions_abstract r,
      or_and_right]
  | con _ as => mentionsAny_abstract as
  | poly _ b => mentions_abstract b
  | never => by simp [Ty.abstract, mentions]
  | any => by simp [Ty.abstract, mentions]

theorem mentionsAny_abstract :
    (ts : List Ty) → (mentionsAny n i (abstractAll consts ts) = true ↔
      mentionsAny n i ts = true ∧ consts.lookup (n, i) = none)
  | [] => by simp [abstractAll, mentionsAny]
  | t :: rest => by
    simp only [abstractAll, mentionsAny, Bool.or_eq_true, mentions_abstract t,
      mentionsAny_abstract rest, or_and_right]

end

end

end Ty

end ProofScript
