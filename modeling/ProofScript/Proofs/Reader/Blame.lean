import ProofScript.Proofs.Reader.Sound

/-!
# What readers blame

A reader that stops blames a token of its stream, with the class it has, or it passes on the error
that stops the stream. The places that a document keeps of its claims, of the rules it applies and of
the facts it names are places of tokens.
-/

namespace ProofScript

/-! ## Cited places -/

/-- The place of a name among the arguments passes a test. -/
def Argument.Cites (P : Location → Prop) : Argument → Prop
  | .fact _ loc => P loc
  | .prop _ => True

mutual

/-- The places of the claims, rules and named facts of a proof pass a test. -/
def Proof.Cites (P : Location → Prop) : Proof → Prop
  | .mk s _ => s.Cites P

/-- The cited places of steps pass a test. -/
def Steps.Cites (P : Location → Prop) : Steps → Prop
  | .last s => s.Cites P
  | .conclude j _ => j.Cites P
  | .more s rest => s.Cites P ∧ rest.Cites P

/-- The cited places of a statement pass a test. -/
def Statement.Cites (P : Location → Prop) : Statement → Prop
  | .missing => True
  | .step c j _ => P c.loc ∧ j.Cites P
  | .block b => b.Cites P

/-- The cited places of a justification pass a test. -/
def Justification.Cites (P : Location → Prop) : Justification → Prop
  | .missing => True
  | .apply _ args loc => P loc ∧ ∀ a ∈ args, a.Cites P
  | .block b => b.Cites P

/-- The cited places of a block pass a test. -/
def Block.Cites (P : Location → Prop) : Block → Prop
  | .assume hyps p _ => (∀ h ∈ hyps, P h.loc) ∧ p.Cites P
  | .generalize _ p _ => p.Cites P

end

/-- The cited places of a theorem pass a test. -/
def Theorem.Cites (P : Location → Prop) (t : Theorem) : Prop := P t.claim.loc ∧ t.proof.Cites P

/-! ## Blame -/

namespace TokenStream

/-- A stream is what is left of a whole one. -/
def Within (s whole : TokenStream) : Prop := s.tokens <:+ whole.tokens ∧ s.stop = whole.stop

/-- The tokens that readers of a stream can look at: those before the end, and the end. -/
def Shows (whole : TokenStream) (t : Token) : Prop := t ∈ whole.tokens ∨ whole.stop = .ok t

/-- The place is that of a token before the end. -/
def HasPlace (whole : TokenStream) (loc : Location) : Prop := ∃ t ∈ whole.tokens, t.loc = loc

/-- The error is the one that stops the tokens, or it blames a token at its place. -/
def Blamed (whole : TokenStream) : ScriptError → Prop
  | .lex e => whole.stop = .error e
  | .parse e => ∃ t, whole.Shows t ∧ t.loc = e.loc ∧ t.kind = e.got
  | .generate _ => False

variable {s whole : TokenStream} {t : Token}

theorem Within.refl (s : TokenStream) : s.Within s := ⟨List.suffix_rfl, rfl⟩

theorem Within.next (h : s.Within whole) : s.next.Within whole :=
  ⟨(List.tail_suffix _).trans h.1, h.2⟩

theorem Within.shows (h : s.Within whole) {n : Nat} (hpeek : s.peek n = .ok t) :
    whole.Shows t := by
  unfold peek at hpeek
  split at hpeek
  · next u hu =>
    obtain rfl := Except.ok.inj hpeek
    exact .inl (h.1.subset (List.mem_of_getElem? hu))
  · exact .inr (h.2 ▸ hpeek)

theorem Within.stops (h : s.Within whole) {n : Nat} {e : LexError} (hpeek : s.peek n = .error e) :
    whole.Blamed (.lex e) := by
  unfold peek at hpeek
  split at hpeek
  · cases hpeek
  · exact h.2.symm.trans hpeek

theorem Shows.hasPlace (h : whole.Shows t) (hclosed : whole.Closed) (ht : t.kind ≠ .eof) :
    whole.HasPlace t.loc := by
  rcases h with h | h
  · exact ⟨t, h, rfl⟩
  · exact absurd (hclosed t h) ht

end TokenStream

namespace Parser

open TokenStream

variable {α β : Type} {whole : TokenStream} {P Q : α → Prop} {R : β → Prop} {systemF : Bool} {n : Nat}

/-- On what is left of a stream, the reader yields a result that passes a test, or an error that the
stream is to blame for. -/
def Blames (whole : TokenStream) (p : Parser α) (P : α → Prop) : Prop :=
  ∀ s, s.Within whole →
    match p s with
    | .ok (a, s') => s'.Within whole ∧ P a
    | .error e => whole.Blamed e

theorem Blames.bind {p : Parser α} {f : α → Parser β} (hp : Blames whole p P)
    (hf : ∀ a, P a → Blames whole (f a) R) : Blames whole (p >>= f) R := by
  intro s hs
  have hps := hp s hs
  change match (p s >>= fun r => f r.1 r.2) with
    | .ok (a, s') => s'.Within whole ∧ R a
    | .error e => whole.Blamed e
  cases h : p s with
  | error e =>
    rw [h] at hps
    exact hps
  | ok r =>
    rw [h] at hps
    exact hf r.1 hps.2 r.2 hps.1

/-- A fact about all results that the reader yields is a test they pass. -/
theorem Blames.of_ok {p : Parser α} (hp : Blames whole p P)
    (h : ∀ s s' a, s.Within whole → p s = .ok (a, s') → Q a) : Blames whole p Q := by
  intro s hs
  have hps := hp s hs
  split at hps
  · next hok => exact ⟨hps.1, h _ _ _ hs hok⟩
  · exact hps

theorem blames_pure {a : α} (h : P a) : Blames whole (pure a) P := fun _ hs => ⟨hs, h⟩

theorem blames_fail {tok : Token} (h : whole.Shows tok) (cause : ParseCause) :
    Blames whole (fail tok cause) P := fun _ _ => ⟨tok, h, rfl, rfl⟩

theorem blames_peek (i : Nat) : Blames whole (peek i) whole.Shows := by
  intro s hs
  unfold peek
  cases h : s.peek i with
  | ok t => exact ⟨hs, hs.shows h⟩
  | error e => exact hs.stops h

theorem blames_next : Blames whole next whole.Shows := by
  intro s hs
  unfold next
  cases h : s.peek 0 with
  | ok t => exact ⟨hs.next, hs.shows h⟩
  | error e => exact hs.stops h

theorem blames_tooDeep : Blames whole tooDeep P :=
  (blames_peek 0).bind fun _ h => blames_fail h _

theorem blames_expect (kinds : List TokenKind) :
    Blames whole (expect kinds) fun t => whole.Shows t ∧ t.kind ∈ kinds := by
  refine blames_next.bind fun tok htok => ?_
  split
  · exact blames_pure ⟨htok, ‹_›⟩
  · exact blames_fail htok _

theorem blames_accept (kind : TokenKind) : Blames whole (accept kind) fun _ => True := by
  refine (blames_peek 0).bind fun tok _ => ?_
  split
  · exact blames_next.bind fun _ _ => blames_pure trivial
  · exact blames_pure trivial

theorem blames_require {tok : Token} (h : whole.Shows tok) (form : Extension) :
    Blames whole (require systemF tok form) fun _ => True := by
  unfold require
  split
  · exact blames_pure trivial
  · exact blames_fail h _

/-- Readers separated by commas. -/
theorem separated_blames_succ {p : Parser α} {ps : Parser (List α)} (hp : Blames whole p P)
    (hps : Blames whole ps fun as => ∀ a ∈ as, P a) :
    Blames whole (do
      let a ← p
      if ← accept .comma then
        let rest ← ps
        return a :: rest
      else return [a]) fun as => ∀ a ∈ as, P a := by
  refine hp.bind fun a ha => (blames_accept .comma).bind fun more _ => ?_
  split
  · exact hps.bind fun as has => blames_pure (List.forall_mem_cons.mpr ⟨ha, has⟩)
  · exact blames_pure (by simpa using ha)

theorem typeVars_blames : Blames whole (typeVars n) fun _ => True := by
  induction n with
  | zero => exact blames_tooDeep
  | succ n ih =>
    refine (blames_expect _).bind fun tok _ => (blames_accept .comma).bind fun more _ => ?_
    split
    · exact ih.bind fun _ _ => blames_pure trivial
    · exact blames_pure trivial

/-! ## Propositions -/

/-- The readers of propositions blame tokens at a depth. -/
structure PropositionsBlame (whole : TokenStream) (systemF : Bool) (n : Nat) : Prop where
  formula : Blames whole (formula systemF n) fun _ => True
  implication : Blames whole (implication systemF n) fun _ => True
  disjunction : Blames whole (disjunction systemF n) fun _ => True
  disjunctionRest : ∀ left, Blames whole (disjunctionRest systemF n left) fun _ => True
  conjunction : Blames whole (conjunction systemF n) fun _ => True
  conjunctionRest : ∀ left, Blames whole (conjunctionRest systemF n left) fun _ => True
  negation : Blames whole (negation systemF n) fun _ => True
  atom : Blames whole (atom systemF n) fun _ => True

theorem formula_blames_succ (ih : PropositionsBlame whole systemF n) :
    Blames whole (formula systemF (n + 1)) fun _ => True := by
  refine (blames_peek 0).bind fun tok htok => ?_
  split
  · refine (blames_require htok _).bind fun _ _ => blames_next.bind fun _ _ => ?_
    refine typeVars_blames.bind fun _ _ => (blames_expect _).bind fun _ _ => ?_
    exact ih.implication.bind fun _ _ => blames_pure trivial
  · exact ih.implication

theorem implication_blames_succ (ih : PropositionsBlame whole systemF n) :
    Blames whole (implication systemF (n + 1)) fun _ => True := by
  refine ih.disjunction.bind fun left _ => (blames_accept _).bind fun more _ => ?_
  split
  · exact ih.implication.bind fun _ _ => blames_pure trivial
  · exact blames_pure trivial

theorem disjunctionRest_blames_succ (ih : PropositionsBlame whole systemF n) (left : Formula) :
    Blames whole (disjunctionRest systemF (n + 1) left) fun _ => True := by
  refine (blames_accept _).bind fun more _ => ?_
  split
  · exact ih.conjunction.bind fun _ _ => ih.disjunctionRest _
  · exact blames_pure trivial

theorem conjunctionRest_blames_succ (ih : PropositionsBlame whole systemF n) (left : Formula) :
    Blames whole (conjunctionRest systemF (n + 1) left) fun _ => True := by
  refine (blames_accept _).bind fun more _ => ?_
  split
  · exact ih.negation.bind fun _ _ => ih.conjunctionRest _
  · exact blames_pure trivial

theorem negation_blames_succ (ih : PropositionsBlame whole systemF n) :
    Blames whole (negation systemF (n + 1)) fun _ => True := by
  refine (blames_peek 0).bind fun tok _ => ?_
  split
  · exact blames_next.bind fun _ _ => ih.negation.bind fun _ _ => blames_pure trivial
  · exact ih.atom

theorem atom_blames_succ (ih : PropositionsBlame whole systemF n) :
    Blames whole (atom systemF (n + 1)) fun _ => True := by
  refine (blames_expect _).bind fun tok _ => ?_
  split
  · exact ih.formula.bind fun _ _ => (blames_expect _).bind fun _ _ => blames_pure trivial
  · refine (blames_peek 0).bind fun bracket hbracket => ?_
    split
    · refine (blames_require hbracket _).bind fun _ _ => blames_next.bind fun _ _ => ?_
      exact typeVars_blames.bind fun _ _ => (blames_expect _).bind fun _ _ => blames_pure trivial
    · exact blames_pure trivial

theorem propositions_blame (whole : TokenStream) (systemF : Bool) (n : Nat) :
    PropositionsBlame whole systemF n := by
  induction n with
  | zero =>
    exact ⟨blames_tooDeep, blames_tooDeep, blames_tooDeep, fun _ => blames_tooDeep, blames_tooDeep,
      fun _ => blames_tooDeep, blames_tooDeep, blames_tooDeep⟩
  | succ n ih =>
    exact {
      formula := formula_blames_succ ih
      implication := implication_blames_succ ih
      disjunction := ih.conjunction.bind fun left _ => ih.disjunctionRest left
      disjunctionRest := disjunctionRest_blames_succ ih
      conjunction := ih.negation.bind fun left _ => ih.conjunctionRest left
      conjunctionRest := conjunctionRest_blames_succ ih
      negation := negation_blames_succ ih
      atom := atom_blames_succ ih }

/-! ## Claims and arguments -/

theorem mem_of_takes {s : TokenStream} {t : Token} {rest : List Token} (hpeek : s.peek 0 = .ok t)
    (h : Grammar.Takes s.tokens rest) : t ∈ s.tokens := by
  obtain ⟨u, used, htokens⟩ := h
  obtain rfl : u = t := by simpa [TokenStream.peek, htokens] using hpeek
  simp [htokens]

theorem label_blames : Blames whole label fun _ => True := by
  refine (blames_peek 0).bind fun tok _ => ?_
  split
  · refine (blames_peek 1).bind fun colon _ => ?_
    split
    · exact blames_next.bind fun _ _ => blames_next.bind fun _ _ => blames_pure trivial
    · exact blames_pure trivial
  · exact blames_pure trivial

/-- A claim starts at a token, since it takes one. -/
theorem claim_blames (hclosed : whole.Closed) :
    Blames whole (claim systemF n) fun c => whole.HasPlace c.loc := by
  have hrun : Blames whole (claim systemF n) fun _ => True := by
    refine (blames_peek 0).bind fun _ _ => label_blames.bind fun _ _ => ?_
    exact (propositions_blame whole systemF n).formula.bind fun _ _ => blames_pure trivial
  refine hrun.of_ok fun s s' c hs h => ?_
  obtain ⟨hphrase, -⟩ := claim_sound s s' c (hclosed.of_stop_eq hs.2) h
  simp only [claim, bind_eq_ok] at h
  obtain ⟨start, s₁, hpeek, name, s₂, -, f, s₃, -, h⟩ := h
  obtain ⟨hpeek, -⟩ := peek_eq_ok.mp hpeek
  obtain ⟨rfl, -⟩ := pure_eq_ok.mp h
  exact ⟨start, hs.1.subset (mem_of_takes hpeek hphrase.takes), rfl⟩

theorem claimOrHole_blames (hclosed : whole.Closed) :
    Blames whole (claimOrHole systemF n) fun c => whole.HasPlace c.loc := by
  have hrun : Blames whole (claimOrHole systemF n) fun _ => True := by
    refine (blames_peek 0).bind fun _ _ => label_blames.bind fun _ _ => ?_
    refine (blames_peek 0).bind fun tok _ => ?_
    split
    · exact blames_next.bind fun _ _ => blames_pure trivial
    · exact (propositions_blame whole systemF n).formula.bind fun _ _ => blames_pure trivial
  refine hrun.of_ok fun s s' c hs h => ?_
  obtain ⟨hphrase, -⟩ := claimOrHole_sound s s' c (hclosed.of_stop_eq hs.2) h
  simp only [claimOrHole, bind_eq_ok] at h
  obtain ⟨start, s₁, hpeek, name, s₂, -, tok, s₃, -, h⟩ := h
  obtain ⟨hpeek, -⟩ := peek_eq_ok.mp hpeek
  have hloc : c.loc = start.loc := by
    split at h
    · obtain ⟨_, _, -, h⟩ := bind_eq_ok.mp h
      obtain ⟨rfl, -⟩ := pure_eq_ok.mp h
      rfl
    · obtain ⟨_, _, -, h⟩ := bind_eq_ok.mp h
      obtain ⟨rfl, -⟩ := pure_eq_ok.mp h
      rfl
  exact ⟨start, hs.1.subset (mem_of_takes hpeek hphrase.takes), hloc.symm⟩

theorem claims_blame (hclosed : whole.Closed) :
    Blames whole (claims systemF n) fun cs => ∀ c ∈ cs, whole.HasPlace c.loc := by
  induction n with
  | zero => exact blames_tooDeep
  | succ n ih => exact separated_blames_succ (claim_blames hclosed) ih

theorem quantifierAhead_blames (i : Nat) : Blames whole (quantifierAhead n i) fun _ => True := by
  induction n generalizing i with
  | zero => exact blames_tooDeep
  | succ n ih =>
    refine (blames_peek i).bind fun tok _ => ?_
    split
    · exact blames_pure trivial
    · refine (blames_peek (i + 1)).bind fun sep _ => ?_
      split
      · exact ih (i + 2)
      · exact blames_pure trivial

theorem startsArgument_blames (kind : TokenKind) :
    Blames whole (startsArgument systemF n kind) fun _ => True := by
  unfold startsArgument
  split
  case h_5 =>
    split
    · exact quantifierAhead_blames 1
    · exact blames_pure trivial
  all_goals exact blames_pure trivial

theorem argument_blames (hclosed : whole.Closed) :
    Blames whole (argument systemF n) (Argument.Cites whole.HasPlace) := by
  refine (blames_peek 0).bind fun tok htok => ?_
  split
  · next hkind =>
    have hplace := htok.hasPlace hclosed (by simp [hkind])
    exact blames_next.bind fun _ _ => blames_pure hplace
  · exact (propositions_blame whole systemF n).formula.bind fun _ _ => blames_pure trivial

theorem arguments_blame (hclosed : whole.Closed) :
    Blames whole (arguments systemF n) fun as => ∀ a ∈ as, a.Cites whole.HasPlace := by
  induction n with
  | zero => exact blames_tooDeep
  | succ n ih => exact separated_blames_succ (argument_blames hclosed) ih

theorem application_blames (hclosed : whole.Closed) :
    Blames whole (application systemF n) (Justification.Cites whole.HasPlace) := by
  refine (blames_expect _).bind fun tok htok => ?_
  obtain ⟨hshows, hkind⟩ := htok
  have hplace := hshows.hasPlace hclosed (by simp_all)
  refine (blames_peek 0).bind fun ahead _ => (startsArgument_blames _).bind fun b _ => ?_
  split
  · exact (arguments_blame hclosed).bind fun args hargs => blames_pure ⟨hplace, hargs⟩
  · exact blames_pure ⟨hplace, by simp⟩

/-! ## Proofs -/

/-- The readers of proofs blame tokens at a depth, and what they read cites places of tokens. -/
structure ProofsBlame (whole : TokenStream) (systemF : Bool) (n : Nat) : Prop where
  proof : ∀ closing, Blames whole (proof systemF closing n) (Proof.Cites whole.HasPlace)
  steps : ∀ closing, Blames whole (steps systemF closing n)
    fun r => ∀ s ∈ r, s.Cites whole.HasPlace
  statement : ∀ closing, Blames whole (statement systemF closing n)
    (Statement.Cites whole.HasPlace)
  step : Blames whole (step systemF n) (Statement.Cites whole.HasPlace)
  justification : Blames whole (justification systemF n) (Justification.Cites whole.HasPlace)
  assumption : Blames whole (assumption systemF n) (Block.Cites whole.HasPlace)
  generalization : Blames whole (generalization systemF n) (Block.Cites whole.HasPlace)
  braced : Blames whole (braced systemF n) (Proof.Cites whole.HasPlace)

theorem proof_blames_succ (ih : ProofsBlame whole systemF n) (closing : List TokenKind) :
    Blames whole (proof systemF closing (n + 1)) (Proof.Cites whole.HasPlace) := by
  refine (blames_peek 0).bind fun start hstart => (ih.steps closing).bind fun r hr => ?_
  cases r with
  | none => exact blames_fail hstart _
  | some s => exact blames_pure (hr s rfl)

theorem steps_blames_succ (ih : ProofsBlame whole systemF n) (closing : List TokenKind) :
    Blames whole (steps systemF closing (n + 1)) fun r => ∀ s ∈ r, s.Cites whole.HasPlace := by
  refine (blames_peek 0).bind fun tok _ => ?_
  split
  · exact blames_pure (by simp)
  split
  · refine blames_next.bind fun _ _ => ih.justification.bind fun j hj => ?_
    refine (blames_accept _).bind fun _ _ => (blames_peek 0).bind fun stop hstop => ?_
    split
    · exact blames_pure (by simpa [Steps.Cites] using hj)
    · exact blames_fail hstop _
  · refine (ih.statement closing).bind fun st hst => (blames_accept _).bind fun _ _ => ?_
    refine (ih.steps closing).bind fun more hmore => ?_
    cases more with
    | none => exact blames_pure (by simpa [Steps.Cites] using hst)
    | some rest => exact blames_pure (by simpa [Steps.Cites] using ⟨hst, hmore rest rfl⟩)

theorem statement_blames_succ (ih : ProofsBlame whole systemF n) (closing : List TokenKind) :
    Blames whole (statement systemF closing (n + 1)) (Statement.Cites whole.HasPlace) := by
  refine (blames_peek 0).bind fun tok htok => ?_
  split
  · exact ih.assumption.bind fun b hb => blames_pure hb
  · exact ih.step
  · refine (blames_require htok _).bind fun _ _ => ?_
    exact ih.generalization.bind fun b hb => blames_pure hb
  · exact blames_fail htok _

theorem step_blames_succ (hclosed : whole.Closed) (ih : ProofsBlame whole systemF n) :
    Blames whole (step systemF (n + 1)) (Statement.Cites whole.HasPlace) := by
  refine (blames_expect _).bind fun _ _ => (claimOrHole_blames hclosed).bind fun c hc => ?_
  exact (blames_expect _).bind fun _ _ => ih.justification.bind fun j hj => blames_pure ⟨hc, hj⟩

theorem justification_blames_succ (hclosed : whole.Closed) (ih : ProofsBlame whole systemF n) :
    Blames whole (justification systemF (n + 1)) (Justification.Cites whole.HasPlace) := by
  refine (blames_peek 0).bind fun tok htok => ?_
  split
  · exact application_blames hclosed
  · exact ih.assumption.bind fun b hb => blames_pure hb
  · refine (blames_require htok _).bind fun _ _ => ?_
    exact ih.generalization.bind fun b hb => blames_pure hb
  · exact blames_fail htok _

theorem proofs_blame (hclosed : whole.Closed) (systemF : Bool) (n : Nat) :
    ProofsBlame whole systemF n := by
  induction n with
  | zero =>
    exact ⟨fun _ => blames_tooDeep, fun _ => blames_tooDeep, fun _ => blames_tooDeep,
      blames_tooDeep, blames_tooDeep, blames_tooDeep, blames_tooDeep, blames_tooDeep⟩
  | succ n ih =>
    exact {
      proof := proof_blames_succ ih
      steps := steps_blames_succ ih
      statement := statement_blames_succ ih
      step := step_blames_succ hclosed ih
      justification := justification_blames_succ hclosed ih
      assumption := (blames_expect _).bind fun _ _ => (claims_blame hclosed).bind fun _ hhyps =>
        ih.braced.bind fun _ hp => blames_pure ⟨hhyps, hp⟩
      generalization := (blames_expect _).bind fun _ _ => typeVars_blames.bind fun _ _ =>
        ih.braced.bind fun _ hp => blames_pure hp
      braced := (blames_expect _).bind fun _ _ => (ih.proof _).bind fun _ hp =>
        (blames_expect _).bind fun _ _ => blames_pure hp }

theorem theorems_blame (hclosed : whole.Closed) :
    Blames whole (theorems systemF n) fun thms => ∀ t ∈ thms, t.Cites whole.HasPlace := by
  induction n with
  | zero => exact blames_tooDeep
  | succ n ih =>
    refine (blames_peek 0).bind fun tok _ => ?_
    split
    · refine blames_next.bind fun _ _ => (claim_blames hclosed).bind fun c hc => ?_
      refine ((proofs_blame hclosed systemF n).proof _).bind fun p hp => ?_
      exact ih.bind fun rest hrest => blames_pure (List.forall_mem_cons.mpr ⟨⟨hc, hp⟩, hrest⟩)
    · exact blames_pure (by simp)

theorem document_blames (hclosed : whole.Closed) :
    Blames whole (document systemF n) fun d => ∀ t ∈ d.theorems, t.Cites whole.HasPlace := by
  refine (blames_peek 0).bind fun first _ => (theorems_blame hclosed).bind fun thms hthms => ?_
  split
  · exact (blames_expect _).bind fun _ _ => blames_pure (by simp)
  · exact (blames_expect _).bind fun _ _ => blames_pure hthms

end Parser

/-- Reading a script cites places of its tokens, or blames one of them. -/
theorem parse_blames (src : List UInt8) (systemF : Bool) :
    match parse src systemF with
    | .ok d => ∀ t ∈ d.theorems, t.Cites (TokenStream.ofSource src).HasPlace
    | .error e => (TokenStream.ofSource src).Blamed e := by
  generalize hs : TokenStream.ofSource src = whole
  have hclosed : whole.Closed := hs ▸ TokenStream.collect_closed _ _
  have hdocument : Parser.Blames whole (Parser.document systemF (parseDepth whole.tokens.length))
      fun d => ∀ t ∈ d.theorems, t.Cites whole.HasPlace := Parser.document_blames hclosed
  have hrun := hdocument whole (.refl whole)
  unfold parse TokenStream.parse StateT.run'
  rw [hs]
  cases h : Parser.document systemF (parseDepth whole.tokens.length) whole with
  | error e =>
    rw [h] at hrun
    exact hrun
  | ok r =>
    rw [h] at hrun
    exact hrun.2

end ProofScript
