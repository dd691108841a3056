/-!
# Steps that keep a state

When a step that may fail and keeps a state succeeds, and with which value and state; and how the
states before and after a step are related, whether it fails or not.
-/

namespace ProofScript

/-- A result whose value passes a test has a value. -/
theorem exists_ok_of_any {ε α : Type} {r : Except ε α} {p : α → Bool}
    (h : r.toOption.any p = true) : ∃ a, r = .ok a ∧ p a = true := by
  cases r with
  | error e => cases h
  | ok a => exact ⟨a, rfl, h⟩

/-- A result that is there, and whose value passes a test, has a value. -/
theorem exists_some_ok_of_any {ε α : Type} {r : Option (Except ε α)} {p : α → Bool}
    (h : r.any (fun r => r.toOption.any p) = true) : ∃ a, r = some (.ok a) ∧ p a = true := by
  cases r with
  | none => cases h
  | some r =>
    obtain ⟨a, rfl, ha⟩ := exists_ok_of_any h
    exact ⟨a, rfl, ha⟩

end ProofScript

namespace ProofScript.Stateful

variable {ε σ α β : Type} {s s' : σ}

theorem bind_eq_ok {f : ExceptT ε (StateM σ) α} {g : α → ExceptT ε (StateM σ) β} {b : β} :
    (f >>= g) s = (.ok b, s') ↔ ∃ a mid, f s = (.ok a, mid) ∧ g a mid = (.ok b, s') := by
  change ExceptT.bindCont g (f s).1 (f s).2 = _ ↔ _
  obtain ⟨result, mid⟩ := f s
  cases result with
  | error e =>
    constructor
    · intro h
      cases h
    · rintro ⟨a, mid', h, -⟩
      cases h
  | ok a =>
    constructor
    · intro h
      exact ⟨a, mid, rfl, h⟩
    · rintro ⟨a', mid', h, h'⟩
      cases h
      exact h'

theorem bind_of_ok {f : ExceptT ε (StateM σ) α} {g : α → ExceptT ε (StateM σ) β} {a : α}
    (h : f s = (.ok a, s')) : (f >>= g) s = g a s' := by
  change ExceptT.bindCont g (f s).1 (f s).2 = _
  rw [h]
  rfl

theorem bind_of_error {f : ExceptT ε (StateM σ) α} {g : α → ExceptT ε (StateM σ) β} {e : ε}
    (h : f s = (.error e, s')) : (f >>= g) s = (.error e, s') := by
  change ExceptT.bindCont g (f s).1 (f s).2 = _
  rw [h]
  rfl

theorem pure_eq_ok {a b : α} :
    (pure a : ExceptT ε (StateM σ) α) s = (.ok b, s') ↔ a = b ∧ s = s' := by
  change (Except.ok a, s) = (.ok b, s') ↔ _
  simp

theorem get_eq_ok {a : σ} :
    (get : ExceptT ε (StateM σ) σ) s = (.ok a, s') ↔ s = a ∧ s = s' := by
  change (Except.ok s, s) = (.ok a, s') ↔ _
  simp

theorem set_eq_ok {t : σ} {u : PUnit} :
    (set t : ExceptT ε (StateM σ) PUnit) s = (.ok u, s') ↔ t = s' := by
  change (Except.ok PUnit.unit, t) = (.ok u, s') ↔ _
  simp

theorem modify_eq_ok {f : σ → σ} {u : PUnit} :
    (modify f : ExceptT ε (StateM σ) PUnit) s = (.ok u, s') ↔ f s = s' := by
  change (Except.ok PUnit.unit, f s) = (.ok u, s') ↔ _
  simp

theorem throw_ne_ok {e : ε} {a : α} :
    (throw e : ExceptT ε (StateM σ) α) s ≠ (.ok a, s') := by
  intro h
  cases h

theorem get_bind {g : σ → ExceptT ε (StateM σ) α} : (get >>= g) s = g s s := rfl

theorem set_bind {t : σ} {g : PUnit → ExceptT ε (StateM σ) α} : (set t >>= g) s = g ⟨⟩ t := rfl

/-- A loop that succeeds keeps what each of its steps keeps when it succeeds. -/
theorem forM_keeps {I : σ → Prop} {f : α → ExceptT ε (StateM σ) PUnit} {as : List α}
    (hf : ∀ a ∈ as, ∀ s s', I s → f a s = (.ok ⟨⟩, s') → I s') (hs : I s)
    (h : as.forM f s = (.ok ⟨⟩, s')) : I s' := by
  induction as generalizing s with
  | nil =>
    obtain ⟨-, rfl⟩ := pure_eq_ok.mp h
    exact hs
  | cons a as ih =>
    rw [List.forall_mem_cons] at hf
    obtain ⟨_, mid, hfirst, hrest⟩ := bind_eq_ok.mp h
    exact ih hf.2 (hf.1 _ _ hs hfirst) hrest

/-- The states before and after the step are related, whether it fails or not. -/
def Moves (R : σ → σ → Prop) (f : ExceptT ε (StateM σ) α) : Prop := ∀ s, R s (f s).2

/-- A relation that holds across steps one after the other. -/
structure Steady (R : σ → σ → Prop) : Prop where
  refl : ∀ s, R s s
  trans : ∀ {s₁ s₂ s₃}, R s₁ s₂ → R s₂ s₃ → R s₁ s₃

namespace Steady

variable {R : σ → σ → Prop} (hR : Steady R)

include hR

theorem pure (a : α) : Moves R (pure a : ExceptT ε (StateM σ) α) := hR.refl

theorem get : Moves R (get : ExceptT ε (StateM σ) σ) := hR.refl

theorem throw (e : ε) : Moves R (throw e : ExceptT ε (StateM σ) α) := hR.refl

theorem bind {f : ExceptT ε (StateM σ) α} {g : α → ExceptT ε (StateM σ) β} (hf : Moves R f)
    (hg : ∀ a, Moves R (g a)) : Moves R (f >>= g) := by
  intro s
  have hstep := hf s
  change R s (ExceptT.bindCont g (f s).1 (f s).2).2
  generalize f s = r at hstep
  obtain ⟨result, mid⟩ := r
  cases result with
  | error e => exact hstep
  | ok a => exact hR.trans hstep (hg a mid)

theorem mapM {f : α → ExceptT ε (StateM σ) β} (hf : ∀ a, Moves R (f a)) (as : List α) :
    Moves R (as.mapM f) := by
  induction as with
  | nil => exact hR.pure _
  | cons a as ih =>
    rw [List.mapM_cons]
    exact hR.bind (hf a) fun _ => hR.bind ih fun _ => hR.pure _

end Steady

/-- From every state with the property `I` the step succeeds, with a value that satisfies `P` and in
a state with the property `I`, unless it fails with an error that satisfies `E`. -/
def Yields (E : ε → Prop) (I : σ → Prop) (P : α → Prop) (f : ExceptT ε (StateM σ) α) : Prop :=
  ∀ s, I s → match f s with
    | (.ok a, s') => P a ∧ I s'
    | (.error e, _) => E e

namespace Yields

variable {E : ε → Prop} {I : σ → Prop} {P : α → Prop} {Q : β → Prop}

theorem pure {a : α} (h : P a) : Yields E I P (pure a : ExceptT ε (StateM σ) α) :=
  fun _ hs => ⟨h, hs⟩

theorem get : Yields E I I (get : ExceptT ε (StateM σ) σ) := fun _ hs => ⟨hs, hs⟩

theorem bind {f : ExceptT ε (StateM σ) α} {g : α → ExceptT ε (StateM σ) β} (hf : Yields E I P f)
    (hg : ∀ a, P a → Yields E I Q (g a)) : Yields E I Q (f >>= g) := by
  intro s hs
  have hfirst := hf s hs
  obtain ⟨r, mid, hrun⟩ : ∃ r mid, f s = (r, mid) := ⟨_, _, rfl⟩
  rw [hrun] at hfirst
  cases r with
  | error e =>
    rw [bind_of_error hrun]
    exact hfirst
  | ok a =>
    rw [bind_of_ok hrun]
    exact hg a hfirst.1 mid hfirst.2

/-- What runs tell of their values may be used. -/
theorem imp {P' : α → Prop} {f : ExceptT ε (StateM σ) α} (hf : Yields E I P f)
    (himp : ∀ s a s', f s = (.ok a, s') → P a → P' a) : Yields E I P' f := by
  intro s hs
  have hrun := hf s hs
  obtain ⟨r, s', heq⟩ : ∃ r s', f s = (r, s') := ⟨_, _, rfl⟩
  rw [heq] at hrun ⊢
  cases r with
  | error e => exact hrun
  | ok a => exact ⟨himp s a s' heq hrun.1, hrun.2⟩

/-- A loop whose values tell what they were made from. -/
theorem mapM {f : α → ExceptT ε (StateM σ) β} {g : β → α}
    (hf : ∀ a, Yields E I (fun b => g b = a) (f a)) (as : List α) :
    Yields E I (fun bs => bs.map g = as) (as.mapM f) := by
  induction as with
  | nil => exact pure rfl
  | cons a rest ih =>
    rw [List.mapM_cons]
    refine (hf a).bind fun b hb => ih.bind fun bs hbs => pure ?_
    rw [List.map_cons, hb, hbs]

/-- A step that fails with no such error succeeds. -/
theorem succeeds {f : ExceptT ε (StateM σ) α} (h : Yields E I P f) {s : σ} (hs : I s)
    (hends : ∀ e, E e → (f s).1 ≠ .error e) : ∃ a s', f s = (.ok a, s') ∧ P a ∧ I s' := by
  have hrun := h s hs
  obtain ⟨r, s', heq⟩ : ∃ r s', f s = (r, s') := ⟨_, _, rfl⟩
  rw [heq] at hrun hends ⊢
  cases r with
  | error e => exact absurd rfl (hends e hrun)
  | ok a => exact ⟨a, s', rfl, hrun⟩

end Yields

end ProofScript.Stateful
