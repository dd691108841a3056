import ProofScript.Document.Parser
import ProofScript.Proofs.Grammar
import ProofScript.Proofs.Scanning

/-!
# What the readers of single tokens do

One equation for each combinator says when it succeeds and what it leaves. The proofs about the
grammar cite these and never open the state of a reader.
-/

namespace ProofScript

namespace TokenStream

/-- The stream of tokens with an end token behind them. -/
def ofTokens (stop : Token) (ts : List Token) : TokenStream := ⟨ts, .ok stop⟩

theorem Closed.next {s : TokenStream} (h : s.Closed) : s.next.Closed := h

theorem Closed.of_stop_eq {s s' : TokenStream} (h : s.Closed) (hs : s'.stop = s.stop) :
    s'.Closed := by
  intro t ht
  exact h t (hs ▸ ht)

theorem peek_succ (s : TokenStream) (n : Nat) : s.peek (n + 1) = s.next.peek n := by
  obtain ⟨ts, stop⟩ := s
  cases ts with
  | nil => simp [peek, next]
  | cons t ts => simp [peek, next]

/-- The stream after some tokens. -/
def drop (s : TokenStream) (n : Nat) : TokenStream := { s with tokens := s.tokens.drop n }

theorem peek_add (s : TokenStream) (n k : Nat) : s.peek (n + k) = (s.drop n).peek k := by
  simp [peek, drop]

theorem ahead_of_peek {s : TokenStream} {t : Token} (hc : s.Closed) (h : s.peek 0 = .ok t) :
    Grammar.ahead s.tokens = t.kind := by
  obtain ⟨ts, stop⟩ := s
  cases ts with
  | nil => exact (hc t (by simpa [peek] using h)).symm
  | cons u ts =>
    have hu : u = t := by simpa [peek] using h
    rw [← hu]
    rfl

/-- A token that is not the end is taken off the tokens. -/
theorem tokens_of_peek {s : TokenStream} {t : Token} (hc : s.Closed) (h : s.peek 0 = .ok t)
    (ht : t.kind ≠ .eof) : s.tokens = t :: s.next.tokens := by
  obtain ⟨ts, stop⟩ := s
  cases ts with
  | nil => exact absurd (hc t (by simpa [peek] using h)) ht
  | cons u ts =>
    have hu : u = t := by simpa [peek] using h
    rw [← hu]
    rfl

end TokenStream

namespace Parser

variable {α β : Type} {s s' : TokenStream}

theorem bind_eq_ok {p : Parser α} {f : α → Parser β} {b : β} :
    (p >>= f) s = .ok (b, s') ↔ ∃ a mid, p s = .ok (a, mid) ∧ f a mid = .ok (b, s') := by
  change (p s >>= fun r => f r.1 r.2) = _ ↔ _
  cases hp : p s with
  | error e => simp [bind, Except.bind]
  | ok r =>
    obtain ⟨a, mid⟩ := r
    simp only [bind, Except.bind, Except.ok.injEq, Prod.mk.injEq]
    constructor
    · intro h
      exact ⟨a, mid, ⟨rfl, rfl⟩, h⟩
    · rintro ⟨a, mid, ⟨rfl, rfl⟩, h⟩
      exact h

theorem bind_of_ok {p : Parser α} {f : α → Parser β} {a : α} (h : p s = .ok (a, s')) :
    (p >>= f) s = f a s' := by
  change (p s >>= fun r => f r.1 r.2) = _
  rw [h]
  rfl

theorem pure_eq_ok {a b : α} : (pure a : Parser α) s = .ok (b, s') ↔ a = b ∧ s = s' := by
  change Except.ok (a, s) = Except.ok (b, s') ↔ _
  simp

theorem peek_eq_ok {n : Nat} {t : Token} :
    peek n s = .ok (t, s') ↔ s.peek n = .ok t ∧ s' = s := by
  unfold peek
  cases s.peek n <;> simp [eq_comm]

theorem next_eq_ok {t : Token} : next s = .ok (t, s') ↔ s.peek 0 = .ok t ∧ s' = s.next := by
  unfold next
  cases s.peek 0 <;> simp [eq_comm]

theorem fail_ne_ok {tok : Token} {cause : ParseCause} {a : α} :
    fail tok cause s ≠ .ok (a, s') := by
  simp [fail]

theorem tooDeep_ne_ok {a : α} : (tooDeep : Parser α) s ≠ .ok (a, s') := by
  intro h
  obtain ⟨tok, mid, -, hf⟩ := bind_eq_ok.mp h
  exact fail_ne_ok hf

theorem expect_eq_ok {kinds : List TokenKind} {t : Token} :
    expect kinds s = .ok (t, s') ↔ s.peek 0 = .ok t ∧ t.kind ∈ kinds ∧ s' = s.next := by
  unfold expect
  rw [bind_eq_ok]
  constructor
  · rintro ⟨tok, mid, hn, h⟩
    obtain ⟨hp, rfl⟩ := next_eq_ok.mp hn
    split at h
    · obtain ⟨rfl, rfl⟩ := pure_eq_ok.mp h
      exact ⟨hp, ‹_›, rfl⟩
    · exact absurd h fail_ne_ok
  · rintro ⟨hp, hk, rfl⟩
    refine ⟨t, s.next, next_eq_ok.mpr ⟨hp, rfl⟩, ?_⟩
    rw [if_pos hk]
    exact pure_eq_ok.mpr ⟨rfl, rfl⟩

theorem accept_eq_ok {kind : TokenKind} {b : Bool} :
    accept kind s = .ok (b, s') ↔ ∃ t, s.peek 0 = .ok t ∧
      (t.kind = kind ∧ b = true ∧ s' = s.next ∨ t.kind ≠ kind ∧ b = false ∧ s' = s) := by
  unfold accept
  rw [bind_eq_ok]
  constructor
  · rintro ⟨tok, mid, hp, h⟩
    obtain ⟨hp, rfl⟩ := peek_eq_ok.mp hp
    refine ⟨tok, hp, ?_⟩
    split at h
    · obtain ⟨tok', mid', hn, h⟩ := bind_eq_ok.mp h
      obtain ⟨-, rfl⟩ := next_eq_ok.mp hn
      obtain ⟨rfl, rfl⟩ := pure_eq_ok.mp h
      exact .inl ⟨‹_›, rfl, rfl⟩
    · obtain ⟨rfl, rfl⟩ := pure_eq_ok.mp h
      exact .inr ⟨‹_›, rfl, rfl⟩
  · rintro ⟨t, hp, ⟨hk, rfl, rfl⟩ | ⟨hk, rfl, rfl⟩⟩
    · refine ⟨t, s, peek_eq_ok.mpr ⟨hp, rfl⟩, ?_⟩
      rw [if_pos hk]
      exact bind_eq_ok.mpr ⟨t, s.next, next_eq_ok.mpr ⟨hp, rfl⟩, pure_eq_ok.mpr ⟨rfl, rfl⟩⟩
    · refine ⟨t, s', peek_eq_ok.mpr ⟨hp, rfl⟩, ?_⟩
      rw [if_neg hk]
      exact pure_eq_ok.mpr ⟨rfl, rfl⟩

theorem require_eq_ok {systemF : Bool} {tok : Token} {form : Extension} {u : Unit} :
    require systemF tok form s = .ok (u, s') ↔ systemF = true ∧ s' = s := by
  unfold require
  cases systemF with
  | true =>
    rw [if_pos rfl, pure_eq_ok]
    simp [eq_comm]
  | false => simp [fail]

theorem require_of {systemF : Bool} {tok : Token} {form : Extension} (h : systemF = true) :
    require systemF tok form s = .ok ((), s) :=
  require_eq_ok.mpr ⟨h, rfl⟩

end Parser

end ProofScript
