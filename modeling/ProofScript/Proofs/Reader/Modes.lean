import ProofScript.Proofs.Reader.Exact

/-!
# Propositional scripts in System F mode

Whatever is read in propositional mode is read in System F mode as well, with the same tree and the
same places. The modes differ in the errors and in one decision: where a rule could be followed by an
argument, System F mode also looks behind a quantifier. In propositional mode nothing can be read from
there on, so a rule in a proof that is read stands in front of no quantifier.
-/

namespace ProofScript

namespace Parser

variable {α β : Type} {s s' : TokenStream} {n : Nat}

/-- Whatever the first reader reads, the second one reads. -/
def Carries (p q : Parser α) : Prop := ∀ s s' a, p s = .ok (a, s') → q s = .ok (a, s')

namespace Carries

theorem refl (p : Parser α) : Carries p p := fun _ _ _ h => h

theorem bind {p q : Parser α} {f g : α → Parser β} (hp : Carries p q)
    (hf : ∀ a, Carries (f a) (g a)) : Carries (p >>= f) (q >>= g) := by
  intro s s' b h
  obtain ⟨a, mid, hread, hrest⟩ := bind_eq_ok.mp h
  exact bind_eq_ok.mpr ⟨a, mid, hp _ _ _ hread, hf a _ _ _ hrest⟩

theorem tooDeep (q : Parser α) : Carries tooDeep q := fun _ _ _ h => absurd h tooDeep_ne_ok

theorem fail (tok : Token) (cause : ParseCause) (q : Parser α) : Carries (fail tok cause) q :=
  fun _ _ _ h => absurd h fail_ne_ok

/-- Nothing is read behind what asks for System F mode. -/
theorem require (tok : Token) (form : Extension) (f : Unit → Parser α) (q : Parser α) :
    Carries (require false tok form >>= f) q := by
  intro s s' a h
  obtain ⟨_, _, hreq, -⟩ := bind_eq_ok.mp h
  obtain ⟨hmode, -⟩ := require_eq_ok.mp hreq
  cases hmode

theorem ite {c : Prop} [Decidable c] {p p' q q' : Parser α} (h : c → Carries p q)
    (h' : ¬ c → Carries p' q') : Carries (if c then p else p') (if c then q else q') := by
  by_cases hc : c
  · rw [if_pos hc, if_pos hc]
    exact h hc
  · rw [if_neg hc, if_neg hc]
    exact h' hc

end Carries

/-! ## Propositions -/

/-- A quantifier stands at the front. -/
def Quantified (s : TokenStream) : Prop := ∃ t, s.peek 0 = .ok t ∧ t.kind = .forallKeyword

/-- Whatever the first reader reads in front of no quantifier, the second one reads. -/
def CarriesInFront (p q : Parser α) : Prop :=
  ∀ s s' a, p s = .ok (a, s') → ¬ Quantified s' → q s = .ok (a, s')

theorem CarriesInFront.bind {p q : Parser α} {f g : α → Parser β} (hp : Carries p q)
    (hf : ∀ a, CarriesInFront (f a) (g a)) : CarriesInFront (p >>= f) (q >>= g) := by
  intro s s' b h hfront
  obtain ⟨a, mid, hread, hrest⟩ := bind_eq_ok.mp h
  exact bind_eq_ok.mpr ⟨a, mid, hp _ _ _ hread, hf a _ _ _ hrest hfront⟩

theorem CarriesInFront.bind_pure {p q : Parser α} (h : CarriesInFront p q) (f : α → β) :
    CarriesInFront (p >>= fun a => pure (f a)) (q >>= fun a => pure (f a)) := by
  intro s s' b hread hfront
  obtain ⟨a, mid, ha, hpure⟩ := bind_eq_ok.mp hread
  obtain ⟨rfl, rfl⟩ := pure_eq_ok.mp hpure
  exact bind_eq_ok.mpr ⟨a, mid, h _ _ _ ha hfront, hpure⟩

end Parser

end ProofScript
