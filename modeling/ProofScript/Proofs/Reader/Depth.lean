import ProofScript.Proofs.Reader.Sound

/-!
# Readers never give up

No reader of a script uses up the bound on the depth of its calls. `Room w n s` says that the depth
`n` is left for the tokens of `s` with `w` to spare: every token taken leaves more to spare, and every
call takes one. A reader is called with its weight to spare, the number of calls it can lead to before
a token is taken.
-/

namespace ProofScript.Parser

open Grammar TokenStream

variable {α β : Type} {systemF : Bool} {n w : Nat} {s s' : TokenStream}

/-- The reader does not give up on the stream. -/
def Persists (p : Parser α) (s : TokenStream) : Prop :=
  ∀ e, p s = .error (.parse e) → e.cause ≠ .tooDeep

theorem Persists.bind {p : Parser α} {f : α → Parser β} (hp : Persists p s)
    (hf : ∀ a s', p s = .ok (a, s') → Persists (f a) s') : Persists (p >>= f) s := by
  intro e he
  cases hps : p s with
  | error e' =>
    have hbind : (p >>= f) s = .error e' := by
      change (p s >>= fun r => f r.1 r.2) = _
      rw [hps]
      rfl
    obtain rfl : e' = .parse e := by simpa [hbind] using he
    exact hp e hps
  | ok r =>
    rw [bind_of_ok (f := f) hps] at he
    exact hf r.1 r.2 hps e he

theorem persists_of_ok {p : Parser α} {a : α} (h : p s = .ok (a, s')) : Persists p s := by
  intro e he
  rw [h] at he
  cases he

theorem persists_pure (a : α) (s : TokenStream) : Persists (pure a) s :=
  persists_of_ok (pure_eq_ok.mpr ⟨rfl, rfl⟩)

theorem persists_fail {tok : Token} {cause : ParseCause} (h : cause ≠ .tooDeep) :
    Persists (fail tok cause : Parser α) s := by
  intro e he
  obtain rfl : ⟨tok.loc, tok.kind, cause⟩ = e := by simpa [fail] using he
  exact h

theorem persists_peek (i : Nat) (s : TokenStream) : Persists (peek i) s := by
  intro e he
  unfold peek at he
  split at he <;> cases he

theorem persists_next (s : TokenStream) : Persists next s := by
  intro e he
  unfold next at he
  split at he <;> cases he

theorem persists_expect (kinds : List TokenKind) (s : TokenStream) : Persists (expect kinds) s := by
  refine .bind (persists_next s) fun tok s' _ => ?_
  split
  · exact persists_pure tok s'
  · exact persists_fail (by simp)

theorem persists_accept (kind : TokenKind) (s : TokenStream) : Persists (accept kind) s := by
  refine .bind (persists_peek 0 s) fun tok s₁ _ => ?_
  split
  · exact .bind (persists_next s₁) fun _ s₂ _ => persists_pure true s₂
  · exact persists_pure false s₁

theorem persists_require (systemF : Bool) (tok : Token) (form : Extension) (s : TokenStream) :
    Persists (require systemF tok form) s := by
  unfold require
  split
  · exact persists_pure () s
  · exact persists_fail (by simp)

/-! ## Room for calls -/

/-- The depth is left for the tokens of a stream, with some to spare. -/
def Room (w n : Nat) (s : TokenStream) : Prop := s.Closed ∧ 16 * s.tokens.length + w ≤ n

/-- A call takes one from the depth. -/
theorem Room.call {w' : Nat} (h : Room w (n + 1) s) (hw : w' + 1 ≤ w) : Room w' n s := by
  obtain ⟨hc, hn⟩ := h
  exact ⟨hc, by omega⟩

theorem Room.mono {w' : Nat} (h : Room w n s) (hw : w' ≤ w) : Room w' n s := by
  obtain ⟨hc, hn⟩ := h
  exact ⟨hc, by omega⟩

theorem not_room_zero : ¬ Room (w + 1) 0 s := by
  rintro ⟨-, hn⟩
  omega

/-- A phrase that takes tokens leaves more to spare. -/
theorem Room.takes (h : Room w n s) (htakes : Takes s.tokens s'.tokens) (hstop : s'.stop = s.stop) :
    Room (w + 16) n s' := by
  obtain ⟨hc, hn⟩ := h
  have hlt := htakes.length_lt
  exact ⟨hc.of_stop_eq hstop, by omega⟩

theorem Room.suffix (h : Room w n s) (hsuffix : s'.tokens <:+ s.tokens) (hstop : s'.stop = s.stop) :
    Room w n s' := by
  obtain ⟨hc, hn⟩ := h
  have hle := hsuffix.length_le
  exact ⟨hc.of_stop_eq hstop, by omega⟩

theorem Room.sound (h : Room w n s) {p : Parser α} {category : Category α} (hp : Sound p category)
    (htakes : ∀ ts a rest, category ts a rest → Takes ts rest) {a : α} (hps : p s = .ok (a, s')) :
    Room (w + 16) n s' := by
  obtain ⟨hphrase, hstop⟩ := hp s s' a h.1 hps
  exact h.takes (htakes _ _ _ hphrase) hstop

theorem Room.next (h : Room w n s) {t : Token} (hpeek : s.peek 0 = .ok t) (ht : t.kind ≠ .eof) :
    Room (w + 16) n s.next := by
  have htokens := tokens_of_peek h.1 hpeek ht
  exact h.takes (htokens ▸ takes_cons t _) rfl

theorem Room.expect (h : Room w n s) {kinds : List TokenKind} {t : Token}
    (hexpect : expect kinds s = .ok (t, s')) (hkinds : .eof ∉ kinds) : Room (w + 16) n s' := by
  obtain ⟨htokens, -, hstop⟩ := tokens_of_expect h.1 hexpect hkinds
  exact h.takes (htokens ▸ takes_cons t _) hstop

theorem Room.accept (h : Room w n s) {kind : TokenKind} {b : Bool}
    (haccept : accept kind s = .ok (b, s')) (hkind : kind ≠ .eof) : Room w n s' := by
  obtain ⟨-, t, -, htokens, hstop⟩ | ⟨-, rfl⟩ := tokens_of_accept h.1 haccept hkind
  · exact h.suffix (htokens ▸ (takes_cons t _).suffix) hstop
  · exact h

/-- Where it has room to spare, the reader does not give up. -/
def Steady (w : Nat) (p : Nat → Parser α) (n : Nat) : Prop := ∀ s, Room w n s → Persists (p n) s

theorem steady_zero (w : Nat) (p : Nat → Parser α) : Steady (w + 1) p 0 :=
  fun _ h => absurd h not_room_zero

/-- A reader that repeats a reader after each comma. -/
theorem separated_steady {p : Parser α} {ps : Parser (List α)} {category : Category α}
    (hsound : Sound p category) (htakes : ∀ ts a rest, category ts a rest → Takes ts rest)
    (hroom : Room w n s) (hp : Persists p s) (hps : ∀ s', Room (w + 16) n s' → Persists ps s') :
    Persists (do
      let a ← p
      if ← accept .comma then
        let rest ← ps
        return a :: rest
      else return [a]) s := by
  refine hp.bind fun a s₁ ha => ?_
  have hroom₁ := hroom.sound hsound htakes ha
  refine .bind (persists_accept _ _) fun more s₂ hmore => ?_
  have hroom₂ := hroom₁.accept hmore (by decide)
  cases more with
  | true => exact (hps s₂ hroom₂).bind fun rest s₃ _ => persists_pure _ s₃
  | false => exact persists_pure _ s₂

theorem typeVars_steady : Steady 1 typeVars n := by
  induction n with
  | zero => exact steady_zero _ _
  | succ n ih =>
    intro s hroom
    refine .bind (persists_expect _ _) fun tok s₁ htok => ?_
    have hroom₁ := hroom.expect htok (by decide)
    refine .bind (persists_accept _ _) fun more s₂ hmore => ?_
    have hroom₂ := hroom₁.accept hmore (by decide)
    cases more with
    | true => exact (ih s₂ (hroom₂.call (by decide))).bind fun rest s₃ _ => persists_pure _ s₃
    | false => exact persists_pure _ s₂

/-! ## Propositions -/

/-- The readers of propositions do not give up at a depth. -/
structure PropositionsSteady (systemF : Bool) (n : Nat) : Prop where
  formula : Steady 6 (formula systemF) n
  implication : Steady 5 (implication systemF) n
  disjunction : Steady 4 (disjunction systemF) n
  disjunctionRest : ∀ left, Steady 1 (disjunctionRest systemF · left) n
  conjunction : Steady 3 (conjunction systemF) n
  conjunctionRest : ∀ left, Steady 1 (conjunctionRest systemF · left) n
  negation : Steady 2 (negation systemF) n
  atom : Steady 1 (atom systemF) n

theorem formula_steady_succ (hi : Steady 5 (implication systemF) n) :
    Steady 6 (formula systemF) (n + 1) := by
  intro s hroom
  refine .bind (persists_peek 0 s) fun tok s₁ hpeek => ?_
  obtain ⟨hpeek, rfl⟩ := peek_eq_ok.mp hpeek
  split
  · rename_i hq
    refine .bind (persists_require _ _ _ _) fun _ s₂ hreq => ?_
    obtain ⟨-, rfl⟩ := require_eq_ok.mp hreq
    refine .bind (persists_next _) fun _ s₃ hnext => ?_
    obtain ⟨-, rfl⟩ := next_eq_ok.mp hnext
    have hroom₃ := hroom.next hpeek (by simp [hq])
    refine .bind (typeVars_steady _ (hroom₃.call (by decide))) fun vars s₄ hvars => ?_
    have hroom₄ := hroom₃.sound typeVars_sound (fun _ _ _ => typeVars_takes) hvars
    refine .bind (persists_expect _ _) fun dot s₅ hdot => ?_
    have hroom₅ := hroom₄.expect hdot (by decide)
    exact (hi _ (hroom₅.call (by decide))).bind fun body s₆ _ => persists_pure _ s₆
  · exact hi _ (hroom.call (by decide))

theorem implication_steady_succ (hd : Steady 4 (disjunction systemF) n)
    (hi : Steady 5 (implication systemF) n) : Steady 5 (implication systemF) (n + 1) := by
  intro s hroom
  refine (hd s (hroom.call (by decide))).bind fun left s₁ hleft => ?_
  have hroom₁ := hroom.sound (propositions_sound systemF n).disjunction
    (fun _ _ _ => Proposition.takes) hleft
  refine .bind (persists_accept _ _) fun more s₂ hmore => ?_
  have hroom₂ := hroom₁.accept hmore (by decide)
  cases more with
  | true => exact (hi s₂ (hroom₂.call (by decide))).bind fun right s₃ _ => persists_pure _ s₃
  | false => exact persists_pure _ s₂

theorem disjunction_steady_succ (hc : Steady 3 (conjunction systemF) n)
    (hr : ∀ left, Steady 1 (disjunctionRest systemF · left) n) :
    Steady 4 (disjunction systemF) (n + 1) := by
  intro s hroom
  refine (hc s (hroom.call (by decide))).bind fun left s₁ hleft => ?_
  have hroom₁ := hroom.sound (propositions_sound systemF n).conjunction
    (fun _ _ _ => Proposition.takes) hleft
  exact hr left s₁ (hroom₁.call (by decide))

theorem disjunctionRest_steady_succ (hc : Steady 3 (conjunction systemF) n)
    (hr : ∀ left, Steady 1 (disjunctionRest systemF · left) n) (left : Formula) :
    Steady 1 (disjunctionRest systemF · left) (n + 1) := by
  intro s hroom
  refine .bind (persists_accept _ _) fun more s₁ hmore => ?_
  obtain ⟨rfl, t, -, htokens, hstop⟩ | ⟨rfl, rfl⟩ :=
    tokens_of_accept hroom.1 hmore (by decide)
  · have hroom₁ := hroom.takes (htokens ▸ takes_cons t _) hstop
    refine (hc s₁ (hroom₁.call (by decide))).bind fun right s₂ hright => ?_
    have hroom₂ := hroom₁.sound (propositions_sound systemF n).conjunction
      (fun _ _ _ => Proposition.takes) hright
    exact hr _ s₂ (hroom₂.call (by decide))
  · exact persists_pure left s₁

theorem conjunction_steady_succ (hn : Steady 2 (negation systemF) n)
    (hr : ∀ left, Steady 1 (conjunctionRest systemF · left) n) :
    Steady 3 (conjunction systemF) (n + 1) := by
  intro s hroom
  refine (hn s (hroom.call (by decide))).bind fun left s₁ hleft => ?_
  have hroom₁ := hroom.sound (propositions_sound systemF n).negation
    (fun _ _ _ => Proposition.takes) hleft
  exact hr left s₁ (hroom₁.call (by decide))

theorem conjunctionRest_steady_succ (hn : Steady 2 (negation systemF) n)
    (hr : ∀ left, Steady 1 (conjunctionRest systemF · left) n) (left : Formula) :
    Steady 1 (conjunctionRest systemF · left) (n + 1) := by
  intro s hroom
  refine .bind (persists_accept _ _) fun more s₁ hmore => ?_
  obtain ⟨rfl, t, -, htokens, hstop⟩ | ⟨rfl, rfl⟩ :=
    tokens_of_accept hroom.1 hmore (by decide)
  · have hroom₁ := hroom.takes (htokens ▸ takes_cons t _) hstop
    refine (hn s₁ (hroom₁.call (by decide))).bind fun right s₂ hright => ?_
    have hroom₂ := hroom₁.sound (propositions_sound systemF n).negation
      (fun _ _ _ => Proposition.takes) hright
    exact hr _ s₂ (hroom₂.call (by decide))
  · exact persists_pure left s₁

theorem negation_steady_succ (hn : Steady 2 (negation systemF) n)
    (ha : Steady 1 (atom systemF) n) : Steady 2 (negation systemF) (n + 1) := by
  intro s hroom
  refine .bind (persists_peek 0 s) fun tok s₁ hpeek => ?_
  obtain ⟨hpeek, rfl⟩ := peek_eq_ok.mp hpeek
  split
  · rename_i hop
    refine .bind (persists_next _) fun _ s₂ hnext => ?_
    obtain ⟨-, rfl⟩ := next_eq_ok.mp hnext
    have hroom₂ := hroom.next hpeek (by simp [hop])
    exact (hn _ (hroom₂.call (by decide))).bind fun body s₃ _ => persists_pure _ s₃
  · exact ha _ (hroom.call (by decide))

theorem atom_steady_succ (hf : Steady 6 (formula systemF) n) :
    Steady 1 (atom systemF) (n + 1) := by
  intro s hroom
  refine .bind (persists_expect _ _) fun tok s₁ htok => ?_
  have hroom₁ := hroom.expect htok (by decide)
  split
  · refine (hf s₁ (hroom₁.call (by decide))).bind fun f s₂ _ => ?_
    exact .bind (persists_expect _ _) fun _ s₃ _ => persists_pure f s₃
  · refine .bind (persists_peek 0 _) fun bracket s₂ hpeek => ?_
    obtain ⟨hpeek, rfl⟩ := peek_eq_ok.mp hpeek
    split
    · rename_i hbracket
      refine .bind (persists_require _ _ _ _) fun _ s₃ hreq => ?_
      obtain ⟨-, rfl⟩ := require_eq_ok.mp hreq
      refine .bind (persists_next _) fun _ s₄ hnext => ?_
      obtain ⟨-, rfl⟩ := next_eq_ok.mp hnext
      have hroom₄ := hroom₁.next hpeek (by simp [hbracket])
      refine .bind (typeVars_steady _ (hroom₄.call (by decide))) fun args s₅ _ => ?_
      exact .bind (persists_expect _ _) fun _ s₆ _ => persists_pure _ s₆
    · exact persists_pure _ _

theorem propositions_steady (systemF : Bool) (n : Nat) : PropositionsSteady systemF n := by
  induction n with
  | zero =>
    exact ⟨steady_zero _ _, steady_zero _ _, steady_zero _ _, fun _ => steady_zero _ _,
      steady_zero _ _, fun _ => steady_zero _ _, steady_zero _ _, steady_zero _ _⟩
  | succ n ih =>
    exact {
      formula := formula_steady_succ ih.implication
      implication := implication_steady_succ ih.disjunction ih.implication
      disjunction := disjunction_steady_succ ih.conjunction ih.disjunctionRest
      disjunctionRest := disjunctionRest_steady_succ ih.conjunction ih.disjunctionRest
      conjunction := conjunction_steady_succ ih.negation ih.conjunctionRest
      conjunctionRest := conjunctionRest_steady_succ ih.negation ih.conjunctionRest
      negation := negation_steady_succ ih.negation ih.atom
      atom := atom_steady_succ ih.formula }

/-! ## Claims and arguments -/

theorem persists_label (s : TokenStream) : Persists label s := by
  refine .bind (persists_peek 0 s) fun tok s₁ _ => ?_
  split
  · refine .bind (persists_peek 1 s₁) fun colon s₂ _ => ?_
    split
    · refine .bind (persists_next s₂) fun _ s₃ _ => ?_
      exact .bind (persists_next s₃) fun _ s₄ _ => persists_pure _ s₄
    · exact persists_pure _ s₂
  · exact persists_pure _ s₁

theorem Room.label (h : Room w n s) {name : Option String} (hlabel : label s = .ok (name, s')) :
    Room w n s' := by
  obtain ⟨hphrase, hstop⟩ := label_sound s s' name h.1 hlabel
  exact h.suffix hphrase.suffix hstop

theorem claim_steady : Steady 6 (claim systemF) n := by
  intro s hroom
  refine .bind (persists_peek 0 s) fun start s₁ hpeek => ?_
  obtain ⟨-, rfl⟩ := peek_eq_ok.mp hpeek
  refine .bind (persists_label _) fun name s₂ hname => ?_
  refine .bind ((propositions_steady systemF n).formula s₂ (hroom.label hname)) fun f s₃ _ => ?_
  exact persists_pure _ s₃

theorem claimOrHole_steady : Steady 6 (claimOrHole systemF) n := by
  intro s hroom
  refine .bind (persists_peek 0 s) fun start s₁ hpeek => ?_
  obtain ⟨-, rfl⟩ := peek_eq_ok.mp hpeek
  refine .bind (persists_label _) fun name s₂ hname => ?_
  refine .bind (persists_peek 0 s₂) fun tok s₃ hpeek => ?_
  obtain ⟨-, rfl⟩ := peek_eq_ok.mp hpeek
  split
  · exact .bind (persists_next s₃) fun _ s₄ _ => persists_pure _ s₄
  · refine .bind ((propositions_steady systemF n).formula s₃ (hroom.label hname)) fun f s₄ _ => ?_
    exact persists_pure _ s₄

theorem argument_steady : Steady 6 (argument systemF) n := by
  intro s hroom
  refine .bind (persists_peek 0 s) fun tok s₁ hpeek => ?_
  obtain ⟨-, rfl⟩ := peek_eq_ok.mp hpeek
  split
  · exact .bind (persists_next _) fun _ s₂ _ => persists_pure _ s₂
  · exact .bind ((propositions_steady systemF n).formula _ hroom) fun f s₂ _ => persists_pure _ s₂

theorem claims_steady : Steady 7 (claims systemF) n := by
  induction n with
  | zero => exact steady_zero _ _
  | succ n ih =>
    intro s hroom
    rw [claims]
    exact separated_steady claim_sound (fun _ _ _ => Named.takes) hroom
      (claim_steady s (hroom.call (by decide))) fun s' hroom' => ih s' (hroom'.call (by decide))

theorem arguments_steady : Steady 7 (arguments systemF) n := by
  induction n with
  | zero => exact steady_zero _ _
  | succ n ih =>
    intro s hroom
    rw [arguments]
    exact separated_steady argument_sound (fun _ _ _ => Operand.takes) hroom
      (argument_steady s (hroom.call (by decide))) fun s' hroom' => ih s' (hroom'.call (by decide))

/-- The lookahead goes over two tokens with each call, and ends at the last. -/
theorem quantifierAhead_persists {i : Nat} (hc : s.Closed) (hn : s.tokens.length - i + 1 ≤ n) :
    Persists (quantifierAhead n i) s := by
  induction n generalizing i with
  | zero => omega
  | succ n ih =>
    refine .bind (persists_peek i s) fun tok s₁ hpeek => ?_
    obtain ⟨hpeek, rfl⟩ := peek_eq_ok.mp hpeek
    split
    · exact persists_pure _ _
    · rename_i hvar
      have hlt : i < s₁.tokens.length := by
        refine Nat.lt_of_not_le fun hge => ?_
        have hstop : s₁.stop = .ok tok := by
          simpa [TokenStream.peek, List.getElem?_eq_none hge] using hpeek
        simp [hc tok hstop] at hvar
      refine .bind (persists_peek (i + 1) _) fun sep s₂ hsep => ?_
      obtain ⟨-, rfl⟩ := peek_eq_ok.mp hsep
      split
      · exact ih (by omega)
      · exact persists_pure _ _

theorem startsArgument_persists (hroom : Room 1 n s) (kind : TokenKind) :
    Persists (startsArgument systemF n kind) s := by
  obtain ⟨hc, hn⟩ := hroom
  cases kind
  case forallKeyword =>
    cases systemF with
    | false => exact persists_pure _ s
    | true => exact quantifierAhead_persists hc (by omega)
  all_goals exact persists_pure _ s

theorem application_steady : Steady 1 (application systemF) n := by
  intro s hroom
  refine .bind (persists_expect _ _) fun tok s₁ htok => ?_
  have hroom₁ := hroom.expect htok (by decide)
  refine .bind (persists_peek 0 _) fun next s₂ hpeek => ?_
  obtain ⟨hpeek, rfl⟩ := peek_eq_ok.mp hpeek
  rw [← ahead_of_peek hroom₁.1 hpeek]
  refine .bind (startsArgument_persists (hroom₁.mono (by decide)) _) fun starts s₃ hstarts => ?_
  obtain ⟨rfl, -⟩ := startsArgument_spec hroom₁.1 hstarts
  cases starts with
  | true =>
    exact (arguments_steady _ (hroom₁.mono (by decide))).bind fun args s₄ _ => persists_pure _ s₄
  | false => exact persists_pure _ _

/-! ## Proofs -/

/-- The readers of proofs do not give up at a depth. -/
structure ProofsSteady (systemF : Bool) (n : Nat) : Prop where
  proof : ∀ closing, Steady 4 (proof systemF closing) n
  steps : ∀ closing, Steady 3 (steps systemF closing) n
  statement : ∀ closing, Steady 2 (statement systemF closing) n
  step : Steady 1 (step systemF) n
  justification : Steady 2 (justification systemF) n
  assumption : Steady 1 (assumption systemF) n
  generalization : Steady 1 (generalization systemF) n
  braced : Steady 1 (braced systemF) n

theorem proof_steady_succ {closing : List TokenKind} (hs : Steady 3 (steps systemF closing) n) :
    Steady 4 (proof systemF closing) (n + 1) := by
  intro s hroom
  refine .bind (persists_peek 0 s) fun start s₁ hpeek => ?_
  obtain ⟨-, rfl⟩ := peek_eq_ok.mp hpeek
  refine (hs _ (hroom.call (by decide))).bind fun r s₂ _ => ?_
  cases r with
  | some steps => exact persists_pure _ s₂
  | none => exact persists_fail (by simp)

theorem steps_steady_succ {closing : List TokenKind} (hj : Steady 2 (justification systemF) n)
    (hst : Steady 2 (statement systemF closing) n) (hs : Steady 3 (steps systemF closing) n) :
    Steady 3 (steps systemF closing) (n + 1) := by
  intro s hroom
  refine .bind (persists_peek 0 s) fun tok s₁ hpeek => ?_
  obtain ⟨hpeek, rfl⟩ := peek_eq_ok.mp hpeek
  split
  · exact persists_pure _ _
  split
  · rename_i hby
    refine .bind (persists_next _) fun _ s₂ hnext => ?_
    obtain ⟨-, rfl⟩ := next_eq_ok.mp hnext
    have hroom₂ := hroom.next hpeek (by simp [hby])
    refine (hj _ (hroom₂.call (by decide))).bind fun j s₃ _ => ?_
    refine .bind (persists_accept _ s₃) fun _ s₄ _ => ?_
    refine .bind (persists_peek 0 s₄) fun stop s₅ _ => ?_
    split
    · exact persists_pure _ s₅
    · exact persists_fail (by simp)
  · refine (hst _ (hroom.call (by decide))).bind fun st s₂ hst => ?_
    have hroom₂ := hroom.sound ((proofs_sound systemF n).statement closing)
      (fun _ _ _ => StatementText.takes) hst
    refine .bind (persists_accept _ s₂) fun _ s₃ hsemi => ?_
    have hroom₃ := hroom₂.accept hsemi (by decide)
    refine (hs s₃ (hroom₃.call (by decide))).bind fun more s₄ _ => ?_
    cases more with
    | some rest => exact persists_pure _ s₄
    | none => exact persists_pure _ s₄

theorem statement_steady_succ {closing : List TokenKind} (ha : Steady 1 (assumption systemF) n)
    (hst : Steady 1 (step systemF) n) (hg : Steady 1 (generalization systemF) n) :
    Steady 2 (statement systemF closing) (n + 1) := by
  intro s hroom
  refine .bind (persists_peek 0 s) fun tok s₁ hpeek => ?_
  obtain ⟨-, rfl⟩ := peek_eq_ok.mp hpeek
  cases tok.kind
  case assumeKeyword =>
    exact (ha _ (hroom.call (by decide))).bind fun b s₂ _ => persists_pure _ s₂
  case haveKeyword => exact hst _ (hroom.call (by decide))
  case forallKeyword =>
    refine .bind (persists_require _ _ _ _) fun _ s₂ hreq => ?_
    obtain ⟨-, rfl⟩ := require_eq_ok.mp hreq
    exact (hg _ (hroom.call (by decide))).bind fun b s₃ _ => persists_pure _ s₃
  all_goals exact persists_fail (by simp)

theorem step_steady_succ (hj : Steady 2 (justification systemF) n) :
    Steady 1 (step systemF) (n + 1) := by
  intro s hroom
  refine .bind (persists_expect _ _) fun tok s₁ htok => ?_
  have hroom₁ := hroom.expect htok (by decide)
  refine (claimOrHole_steady s₁ (hroom₁.call (by decide))).bind fun c s₂ hclaim => ?_
  have hroom₂ := hroom₁.sound claimOrHole_sound (fun _ _ _ => Claimed.takes) hclaim
  refine .bind (persists_expect _ _) fun _ s₃ hby => ?_
  have hroom₃ := hroom₂.expect hby (by decide)
  exact (hj s₃ (hroom₃.call (by decide))).bind fun j s₄ _ => persists_pure _ s₄

theorem justification_steady_succ (ha : Steady 1 (assumption systemF) n)
    (hg : Steady 1 (generalization systemF) n) : Steady 2 (justification systemF) (n + 1) := by
  intro s hroom
  refine .bind (persists_peek 0 s) fun tok s₁ hpeek => ?_
  obtain ⟨-, rfl⟩ := peek_eq_ok.mp hpeek
  cases tok.kind
  case identifier => exact application_steady _ (hroom.call (by decide))
  case assumeKeyword =>
    exact (ha _ (hroom.call (by decide))).bind fun b s₂ _ => persists_pure _ s₂
  case forallKeyword =>
    refine .bind (persists_require _ _ _ _) fun _ s₂ hreq => ?_
    obtain ⟨-, rfl⟩ := require_eq_ok.mp hreq
    exact (hg _ (hroom.call (by decide))).bind fun b s₃ _ => persists_pure _ s₃
  all_goals exact persists_fail (by simp)

theorem assumption_steady_succ (hb : Steady 1 (braced systemF) n) :
    Steady 1 (assumption systemF) (n + 1) := by
  intro s hroom
  refine .bind (persists_expect _ _) fun tok s₁ htok => ?_
  have hroom₁ := hroom.expect htok (by decide)
  refine (claims_steady s₁ (hroom₁.call (by decide))).bind fun hyps s₂ hhyps => ?_
  have hroom₂ := hroom₁.sound claims_sound (fun _ _ _ h => h.takes fun _ _ _ => Named.takes) hhyps
  exact (hb s₂ (hroom₂.call (by decide))).bind fun p s₃ _ => persists_pure _ s₃

theorem generalization_steady_succ (hb : Steady 1 (braced systemF) n) :
    Steady 1 (generalization systemF) (n + 1) := by
  intro s hroom
  refine .bind (persists_expect _ _) fun tok s₁ htok => ?_
  have hroom₁ := hroom.expect htok (by decide)
  refine (typeVars_steady s₁ (hroom₁.call (by decide))).bind fun vars s₂ hvars => ?_
  have hroom₂ := hroom₁.sound typeVars_sound (fun _ _ _ => typeVars_takes) hvars
  exact (hb s₂ (hroom₂.call (by decide))).bind fun p s₃ _ => persists_pure _ s₃

theorem braced_steady_succ (hp : Steady 4 (proof systemF [.rbrace]) n) :
    Steady 1 (braced systemF) (n + 1) := by
  intro s hroom
  refine .bind (persists_expect _ _) fun tok s₁ htok => ?_
  have hroom₁ := hroom.expect htok (by decide)
  refine (hp s₁ (hroom₁.call (by decide))).bind fun p s₂ _ => ?_
  exact .bind (persists_expect _ _) fun _ s₃ _ => persists_pure p s₃

theorem proofs_steady (systemF : Bool) (n : Nat) : ProofsSteady systemF n := by
  induction n with
  | zero =>
    exact ⟨fun _ => steady_zero _ _, fun _ => steady_zero _ _, fun _ => steady_zero _ _,
      steady_zero _ _, steady_zero _ _, steady_zero _ _, steady_zero _ _, steady_zero _ _⟩
  | succ n ih =>
    exact {
      proof := fun closing => proof_steady_succ (ih.steps closing)
      steps := fun closing =>
        steps_steady_succ ih.justification (ih.statement closing) (ih.steps closing)
      statement := fun _ => statement_steady_succ ih.assumption ih.step ih.generalization
      step := step_steady_succ ih.justification
      justification := justification_steady_succ ih.assumption ih.generalization
      assumption := assumption_steady_succ ih.braced
      generalization := generalization_steady_succ ih.braced
      braced := braced_steady_succ (ih.proof _) }

/-! ## Documents -/

theorem theorems_steady : Steady 1 (theorems systemF) n := by
  induction n with
  | zero => exact steady_zero _ _
  | succ n ih =>
    intro s hroom
    refine .bind (persists_peek 0 s) fun tok s₁ hpeek => ?_
    obtain ⟨hpeek, rfl⟩ := peek_eq_ok.mp hpeek
    split
    · rename_i htok
      refine .bind (persists_next _) fun _ s₂ hnext => ?_
      obtain ⟨-, rfl⟩ := next_eq_ok.mp hnext
      have hroom₂ := hroom.next hpeek (by simp [htok])
      refine (claim_steady _ (hroom₂.call (by decide))).bind fun c s₃ hclaim => ?_
      have hroom₃ := hroom₂.sound claim_sound (fun _ _ _ => Named.takes) hclaim
      refine ((proofs_steady systemF n).proof _ s₃ (hroom₃.call (by decide))).bind
        fun p s₄ hproof => ?_
      have hroom₄ := hroom₃.sound ((proofs_sound systemF n).proof _) (fun _ _ _ => ProofText.takes)
        hproof
      exact (ih s₄ (hroom₄.call (by decide))).bind fun rest s₅ _ => persists_pure _ s₅
    · exact persists_pure _ _

theorem document_steady : Steady 1 (document systemF) n := by
  intro s hroom
  refine .bind (persists_peek 0 s) fun first s₁ hpeek => ?_
  obtain ⟨-, rfl⟩ := peek_eq_ok.mp hpeek
  refine (theorems_steady _ hroom).bind fun thms s₂ _ => ?_
  split
  · exact .bind (persists_expect _ _) fun _ s₃ _ => persists_pure _ s₃
  · exact .bind (persists_expect _ _) fun _ s₃ _ => persists_pure _ s₃

end ProofScript.Parser

namespace ProofScript

/-- The bound on the depth is enough for every script. -/
theorem parse_ne_tooDeep {src : List UInt8} {systemF : Bool} {e : ParseError}
    (h : parse src systemF = .error (.parse e)) : e.cause ≠ .tooDeep := by
  generalize hs : TokenStream.ofSource src = s at h
  have hroom : Parser.Room 1 (parseDepth s.tokens.length) s := by
    refine ⟨hs ▸ TokenStream.collect_closed _ _, ?_⟩
    unfold parseDepth
    omega
  have hpersists : Parser.Persists (Parser.document systemF (parseDepth s.tokens.length)) s :=
    Parser.document_steady s hroom
  refine hpersists e ?_
  unfold parse TokenStream.parse StateT.run' at h
  rw [hs] at h
  cases hdoc : Parser.document systemF (parseDepth s.tokens.length) s with
  | error e' => simpa [hdoc, Functor.map, Except.map] using h
  | ok r => simp [hdoc, Functor.map, Except.map] at h

end ProofScript
