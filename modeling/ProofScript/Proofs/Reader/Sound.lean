import ProofScript.Proofs.Reader.Basic

/-!
# What is read is a phrase

Every reader that succeeds has taken a phrase of its category and returns the tree of that phrase.
The readers call each other at a smaller depth, so each is treated apart under the assumption that
the readers it calls are sound, and one induction on the depth ties them together.
-/

namespace ProofScript.Parser

open Grammar TokenStream

variable {α : Type} {systemF : Bool} {n : Nat}

/-- On a closed stream, whatever the reader takes is a phrase of the category. -/
def Sound (p : Parser α) (category : Category α) : Prop :=
  ∀ s s' a, s.Closed → p s = .ok (a, s') → category s.tokens a s'.tokens ∧ s'.stop = s.stop

theorem tooDeep_sound (category : Category α) : Sound tooDeep category := by
  intro s s' a _ h
  exact absurd h tooDeep_ne_ok

/-- A token of one of these classes, none of which is the end, is taken off the tokens. -/
theorem tokens_of_expect {s s' : TokenStream} {kinds : List TokenKind} {t : Token}
    (hc : s.Closed) (h : expect kinds s = .ok (t, s')) (hk : .eof ∉ kinds) :
    s.tokens = t :: s'.tokens ∧ t.kind ∈ kinds ∧ s'.stop = s.stop := by
  obtain ⟨hp, hm, rfl⟩ := expect_eq_ok.mp h
  refine ⟨tokens_of_peek hc hp ?_, hm, rfl⟩
  intro he
  exact hk (he ▸ hm)

/-- A token of a class other than the end is accepted by taking it off the tokens. -/
theorem tokens_of_accept {s s' : TokenStream} {kind : TokenKind} {b : Bool}
    (hc : s.Closed) (h : accept kind s = .ok (b, s')) (hk : kind ≠ .eof) :
    (b = true ∧ ∃ t, t.kind = kind ∧ s.tokens = t :: s'.tokens ∧ s'.stop = s.stop) ∨
      (b = false ∧ s' = s) := by
  obtain ⟨t, hp, ⟨ht, hb, rfl⟩ | ⟨-, hb, rfl⟩⟩ := accept_eq_ok.mp h
  · exact .inl ⟨hb, t, ht, tokens_of_peek hc hp (ht ▸ hk), rfl⟩
  · exact .inr ⟨hb, rfl⟩

/-! ## Lists of type variables -/

theorem typeVars_sound : Sound (typeVars n) (Separated TypeVar) := by
  induction n with
  | zero => exact tooDeep_sound _
  | succ n ih =>
    intro s s' vars hc h
    simp only [typeVars, bind_eq_ok] at h
    obtain ⟨tok, s₁, htok, more, s₂, hmore, h⟩ := h
    obtain ⟨e₁, hk, stop₁⟩ := tokens_of_expect hc htok (by simp)
    have hvar : TypeVar s.tokens tok.value s₁.tokens := by
      rw [e₁]
      exact .word tok (by simpa using hk)
    obtain ⟨rfl, c, hcomma, e₂, stop₂⟩ | ⟨rfl, rfl⟩ :=
      tokens_of_accept (hc.of_stop_eq stop₁) hmore (by simp)
    · simp only [if_true, bind_eq_ok] at h
      obtain ⟨rest, s₃, hrest, h⟩ := h
      obtain ⟨rfl, rfl⟩ := pure_eq_ok.mp h
      obtain ⟨hvars, stop₃⟩ := ih s₂ s₃ rest (hc.of_stop_eq (stop₂.trans stop₁)) hrest
      exact ⟨.more (e₂ ▸ hvar) hcomma hvars, stop₃.trans (stop₂.trans stop₁)⟩
    · obtain ⟨rfl, rfl⟩ := pure_eq_ok.mp h
      exact ⟨.one hvar, stop₁⟩

/-! ## Propositions -/

theorem formula_sound_succ (hi : Sound (implication systemF n) (Proposition systemF .implication)) :
    Sound (formula systemF (n + 1)) (Proposition systemF .quantified) := by
  intro s s' f hc h
  simp only [formula, bind_eq_ok] at h
  obtain ⟨tok, s₁, hpeek, h⟩ := h
  obtain ⟨hpeek, rfl⟩ := peek_eq_ok.mp hpeek
  split at h
  · rename_i hq
    simp only [bind_eq_ok] at h
    obtain ⟨_, s₂, hreq, _, s₃, hnext, vars, s₄, hvars, dot, s₅, hdot, body, s₆, hbody, h⟩ := h
    obtain ⟨hsf, rfl⟩ := require_eq_ok.mp hreq
    obtain ⟨-, rfl⟩ := next_eq_ok.mp hnext
    obtain ⟨rfl, rfl⟩ := pure_eq_ok.mp h
    have e₁ := tokens_of_peek hc hpeek (by simp [hq])
    obtain ⟨pvars, stop₄⟩ := typeVars_sound _ _ _ hc.next hvars
    obtain ⟨e₅, hdot, stop₅⟩ := tokens_of_expect (hc.next.of_stop_eq stop₄) hdot (by simp)
    have stop : s₅.stop = s₂.stop := stop₅.trans stop₄
    obtain ⟨pbody, stop₆⟩ := hi _ _ _ (hc.of_stop_eq stop) hbody
    rw [e₁]
    exact ⟨.quantifier hsf hq (e₅ ▸ pvars) (by simpa using hdot) pbody, stop₆.trans stop⟩
  · obtain ⟨pf, stop⟩ := hi _ _ _ hc h
    exact ⟨.ofImplication pf, stop⟩

theorem implication_sound_succ
    (hd : Sound (disjunction systemF n) (Proposition systemF .disjunction))
    (hi : Sound (implication systemF n) (Proposition systemF .implication)) :
    Sound (implication systemF (n + 1)) (Proposition systemF .implication) := by
  intro s s' f hc h
  simp only [implication, bind_eq_ok] at h
  obtain ⟨left, s₁, hleft, more, s₂, hmore, h⟩ := h
  obtain ⟨pleft, stop₁⟩ := hd _ _ _ hc hleft
  obtain ⟨rfl, op, hop, e₂, stop₂⟩ | ⟨rfl, rfl⟩ :=
    tokens_of_accept (hc.of_stop_eq stop₁) hmore (by simp)
  · simp only [if_true, bind_eq_ok] at h
    obtain ⟨right, s₃, hright, h⟩ := h
    obtain ⟨rfl, rfl⟩ := pure_eq_ok.mp h
    have stop : s₂.stop = s.stop := stop₂.trans stop₁
    obtain ⟨pright, stop₃⟩ := hi _ _ _ (hc.of_stop_eq stop) hright
    exact ⟨.arrow (e₂ ▸ pleft) hop pright, stop₃.trans stop⟩
  · obtain ⟨rfl, rfl⟩ := pure_eq_ok.mp h
    exact ⟨.ofDisjunction pleft, stop₁⟩

/-- The rest of a disjunction extends any disjunction in front of it. -/
def DisjunctionRestSound (systemF : Bool) (n : Nat) : Prop :=
  ∀ ts left, Sound (disjunctionRest systemF n left) fun mid f rest =>
    Proposition systemF .disjunction ts left mid → Proposition systemF .disjunction ts f rest

theorem disjunctionRest_sound_succ
    (hc : Sound (conjunction systemF n) (Proposition systemF .conjunction))
    (hr : DisjunctionRestSound systemF n) : DisjunctionRestSound systemF (n + 1) := by
  intro ts left s s' f hcl h
  simp only [disjunctionRest, bind_eq_ok] at h
  obtain ⟨more, s₁, hmore, h⟩ := h
  obtain ⟨rfl, op, hop, e₁, stop₁⟩ | ⟨rfl, rfl⟩ := tokens_of_accept hcl hmore (by simp)
  · simp only [if_true, bind_eq_ok] at h
    obtain ⟨right, s₂, hright, h⟩ := h
    obtain ⟨pright, stop₂⟩ := hc _ _ _ (hcl.of_stop_eq stop₁) hright
    have stop : s₂.stop = s.stop := stop₂.trans stop₁
    obtain ⟨extend, stop₃⟩ := hr ts _ _ _ _ (hcl.of_stop_eq stop) h
    refine ⟨fun pleft => extend ?_, stop₃.trans stop⟩
    exact .bar (e₁ ▸ pleft) hop pright
  · obtain ⟨rfl, rfl⟩ := pure_eq_ok.mp h
    exact ⟨id, rfl⟩

theorem disjunction_sound_succ
    (hc : Sound (conjunction systemF n) (Proposition systemF .conjunction))
    (hr : DisjunctionRestSound systemF n) :
    Sound (disjunction systemF (n + 1)) (Proposition systemF .disjunction) := by
  intro s s' f hcl h
  simp only [disjunction, bind_eq_ok] at h
  obtain ⟨left, s₁, hleft, h⟩ := h
  obtain ⟨pleft, stop₁⟩ := hc _ _ _ hcl hleft
  obtain ⟨extend, stop₂⟩ := hr s.tokens _ _ _ _ (hcl.of_stop_eq stop₁) h
  exact ⟨extend (.ofConjunction pleft), stop₂.trans stop₁⟩

/-- The rest of a conjunction extends any conjunction in front of it. -/
def ConjunctionRestSound (systemF : Bool) (n : Nat) : Prop :=
  ∀ ts left, Sound (conjunctionRest systemF n left) fun mid f rest =>
    Proposition systemF .conjunction ts left mid → Proposition systemF .conjunction ts f rest

theorem conjunctionRest_sound_succ
    (hn : Sound (negation systemF n) (Proposition systemF .negation))
    (hr : ConjunctionRestSound systemF n) : ConjunctionRestSound systemF (n + 1) := by
  intro ts left s s' f hcl h
  simp only [conjunctionRest, bind_eq_ok] at h
  obtain ⟨more, s₁, hmore, h⟩ := h
  obtain ⟨rfl, op, hop, e₁, stop₁⟩ | ⟨rfl, rfl⟩ := tokens_of_accept hcl hmore (by simp)
  · simp only [if_true, bind_eq_ok] at h
    obtain ⟨right, s₂, hright, h⟩ := h
    obtain ⟨pright, stop₂⟩ := hn _ _ _ (hcl.of_stop_eq stop₁) hright
    have stop : s₂.stop = s.stop := stop₂.trans stop₁
    obtain ⟨extend, stop₃⟩ := hr ts _ _ _ _ (hcl.of_stop_eq stop) h
    refine ⟨fun pleft => extend ?_, stop₃.trans stop⟩
    exact .ampersand (e₁ ▸ pleft) hop pright
  · obtain ⟨rfl, rfl⟩ := pure_eq_ok.mp h
    exact ⟨id, rfl⟩

theorem conjunction_sound_succ
    (hn : Sound (negation systemF n) (Proposition systemF .negation))
    (hr : ConjunctionRestSound systemF n) :
    Sound (conjunction systemF (n + 1)) (Proposition systemF .conjunction) := by
  intro s s' f hcl h
  simp only [conjunction, bind_eq_ok] at h
  obtain ⟨left, s₁, hleft, h⟩ := h
  obtain ⟨pleft, stop₁⟩ := hn _ _ _ hcl hleft
  obtain ⟨extend, stop₂⟩ := hr s.tokens _ _ _ _ (hcl.of_stop_eq stop₁) h
  exact ⟨extend (.ofNegation pleft), stop₂.trans stop₁⟩

theorem negation_sound_succ
    (hn : Sound (negation systemF n) (Proposition systemF .negation))
    (ha : Sound (atom systemF n) (Proposition systemF .atom)) :
    Sound (negation systemF (n + 1)) (Proposition systemF .negation) := by
  intro s s' f hc h
  simp only [negation, bind_eq_ok] at h
  obtain ⟨tok, s₁, hpeek, h⟩ := h
  obtain ⟨hpeek, rfl⟩ := peek_eq_ok.mp hpeek
  split at h
  · rename_i hop
    simp only [bind_eq_ok] at h
    obtain ⟨_, s₂, hnext, body, s₃, hbody, h⟩ := h
    obtain ⟨-, rfl⟩ := next_eq_ok.mp hnext
    obtain ⟨rfl, rfl⟩ := pure_eq_ok.mp h
    have e₁ := tokens_of_peek hc hpeek (by simp [hop])
    obtain ⟨pbody, stop₃⟩ := hn _ _ _ hc.next hbody
    rw [e₁]
    exact ⟨.tilde hop pbody, stop₃⟩
  · obtain ⟨pf, stop⟩ := ha _ _ _ hc h
    exact ⟨.ofAtom pf, stop⟩

theorem atom_sound_succ (hf : Sound (formula systemF n) (Proposition systemF .quantified)) :
    Sound (atom systemF (n + 1)) (Proposition systemF .atom) := by
  intro s s' f hc h
  simp only [atom, bind_eq_ok] at h
  obtain ⟨tok, s₁, htok, h⟩ := h
  obtain ⟨e₁, hk, stop₁⟩ := tokens_of_expect hc htok (by simp)
  have hc₁ := hc.of_stop_eq stop₁
  rw [e₁]
  split at h
  · rename_i hopen
    simp only [bind_eq_ok] at h
    obtain ⟨g, s₂, hg, close, s₃, hclose, h⟩ := h
    obtain ⟨rfl, rfl⟩ := pure_eq_ok.mp h
    obtain ⟨pg, stop₂⟩ := hf _ _ _ hc₁ hg
    obtain ⟨e₃, hclose, stop₃⟩ := tokens_of_expect (hc₁.of_stop_eq stop₂) hclose (by simp)
    exact ⟨.parentheses hopen (e₃ ▸ pg) (by simpa using hclose), stop₃.trans (stop₂.trans stop₁)⟩
  · rename_i hopen
    have hvar : tok.kind = .typeVar := by
      simpa [hopen] using hk
    simp only [bind_eq_ok] at h
    obtain ⟨bracket, s₂, hpeek, h⟩ := h
    obtain ⟨hpeek, rfl⟩ := peek_eq_ok.mp hpeek
    split at h
    · rename_i hbracket
      simp only [bind_eq_ok] at h
      obtain ⟨_, s₃, hreq, _, s₄, hnext, args, s₅, hargs, close, s₆, hclose, h⟩ := h
      obtain ⟨hsf, rfl⟩ := require_eq_ok.mp hreq
      obtain ⟨-, rfl⟩ := next_eq_ok.mp hnext
      obtain ⟨rfl, rfl⟩ := pure_eq_ok.mp h
      have e₂ := tokens_of_peek hc₁ hpeek (by simp [hbracket])
      obtain ⟨pargs, stop₅⟩ := typeVars_sound _ _ _ hc₁.next hargs
      obtain ⟨e₆, hclose, stop₆⟩ := tokens_of_expect (hc₁.next.of_stop_eq stop₅) hclose (by simp)
      rw [e₂]
      exact ⟨.predicate hsf hvar hbracket (e₆ ▸ pargs) (by simpa using hclose),
        stop₆.trans (stop₅.trans stop₁)⟩
    · obtain ⟨rfl, rfl⟩ := pure_eq_ok.mp h
      exact ⟨.var hvar, stop₁⟩

/-- The readers of propositions are sound at a depth. -/
structure PropositionsSound (systemF : Bool) (n : Nat) : Prop where
  formula : Sound (formula systemF n) (Proposition systemF .quantified)
  implication : Sound (implication systemF n) (Proposition systemF .implication)
  disjunction : Sound (disjunction systemF n) (Proposition systemF .disjunction)
  disjunctionRest : DisjunctionRestSound systemF n
  conjunction : Sound (conjunction systemF n) (Proposition systemF .conjunction)
  conjunctionRest : ConjunctionRestSound systemF n
  negation : Sound (negation systemF n) (Proposition systemF .negation)
  atom : Sound (atom systemF n) (Proposition systemF .atom)

theorem propositions_sound (systemF : Bool) (n : Nat) : PropositionsSound systemF n := by
  induction n with
  | zero =>
    exact ⟨tooDeep_sound _, tooDeep_sound _, tooDeep_sound _, fun _ _ => tooDeep_sound _,
      tooDeep_sound _, fun _ _ => tooDeep_sound _, tooDeep_sound _, tooDeep_sound _⟩
  | succ n ih =>
    exact {
      formula := formula_sound_succ ih.implication
      implication := implication_sound_succ ih.disjunction ih.implication
      disjunction := disjunction_sound_succ ih.conjunction ih.disjunctionRest
      disjunctionRest := disjunctionRest_sound_succ ih.conjunction ih.disjunctionRest
      conjunction := conjunction_sound_succ ih.negation ih.conjunctionRest
      conjunctionRest := conjunctionRest_sound_succ ih.negation ih.conjunctionRest
      negation := negation_sound_succ ih.negation ih.atom
      atom := atom_sound_succ ih.formula }

/-! ## Claims and arguments -/

theorem label_sound : Sound label Label := by
  intro s s' name hc h
  simp only [label, bind_eq_ok] at h
  obtain ⟨tok, s₁, hpeek, h⟩ := h
  obtain ⟨hpeek, rfl⟩ := peek_eq_ok.mp hpeek
  split at h
  · rename_i hname
    simp only [bind_eq_ok] at h
    obtain ⟨colon, s₂, hpeek₁, h⟩ := h
    obtain ⟨hpeek₁, rfl⟩ := peek_eq_ok.mp hpeek₁
    rw [peek_succ] at hpeek₁
    split at h
    · rename_i hcolon
      simp only [bind_eq_ok] at h
      obtain ⟨_, s₃, hnext, _, s₄, hnext', h⟩ := h
      obtain ⟨-, rfl⟩ := next_eq_ok.mp hnext
      obtain ⟨-, rfl⟩ := next_eq_ok.mp hnext'
      obtain ⟨rfl, rfl⟩ := pure_eq_ok.mp h
      rw [tokens_of_peek hc hpeek (by simp [hname]),
        tokens_of_peek hc.next hpeek₁ (by simp [hcolon])]
      exact ⟨.name hname hcolon, rfl⟩
    · obtain ⟨rfl, rfl⟩ := pure_eq_ok.mp h
      exact ⟨.absent, rfl⟩
  · obtain ⟨rfl, rfl⟩ := pure_eq_ok.mp h
    exact ⟨.absent, rfl⟩

theorem claim_sound : Sound (claim systemF n) (Named systemF) := by
  intro s s' c hc h
  simp only [claim, bind_eq_ok] at h
  obtain ⟨start, s₁, hpeek, name, s₂, hname, f, s₃, hf, h⟩ := h
  obtain ⟨-, rfl⟩ := peek_eq_ok.mp hpeek
  obtain ⟨rfl, rfl⟩ := pure_eq_ok.mp h
  obtain ⟨pname, stop₂⟩ := label_sound _ _ _ hc hname
  obtain ⟨pf, stop₃⟩ := (propositions_sound systemF n).formula _ _ _ (hc.of_stop_eq stop₂) hf
  exact ⟨.claim pname pf, stop₃.trans stop₂⟩

theorem claimOrHole_sound : Sound (claimOrHole systemF n) (Claimed systemF) := by
  intro s s' c hc h
  simp only [claimOrHole, bind_eq_ok] at h
  obtain ⟨start, s₁, hpeek, name, s₂, hname, tok, s₃, hpeek', h⟩ := h
  obtain ⟨-, rfl⟩ := peek_eq_ok.mp hpeek
  obtain ⟨hpeek', rfl⟩ := peek_eq_ok.mp hpeek'
  obtain ⟨pname, stop₂⟩ := label_sound _ _ _ hc hname
  have hc₂ := hc.of_stop_eq stop₂
  split at h
  · rename_i hhole
    simp only [bind_eq_ok] at h
    obtain ⟨_, s₃, hnext, h⟩ := h
    obtain ⟨-, rfl⟩ := next_eq_ok.mp hnext
    obtain ⟨rfl, rfl⟩ := pure_eq_ok.mp h
    have e := tokens_of_peek hc₂ hpeek' (by simp [hhole.1])
    exact ⟨.hole (e ▸ pname) hhole.1 hhole.2, stop₂⟩
  · simp only [bind_eq_ok] at h
    obtain ⟨f, s₃, hf, h⟩ := h
    obtain ⟨rfl, rfl⟩ := pure_eq_ok.mp h
    obtain ⟨pf, stop₃⟩ := (propositions_sound systemF n).formula _ _ _ hc₂ hf
    exact ⟨.stated (.claim pname pf), stop₃.trans stop₂⟩

theorem argument_sound : Sound (argument systemF n) (Operand systemF) := by
  intro s s' a hc h
  simp only [argument, bind_eq_ok] at h
  obtain ⟨tok, s₁, hpeek, h⟩ := h
  obtain ⟨hpeek, rfl⟩ := peek_eq_ok.mp hpeek
  split at h
  · rename_i hname
    simp only [bind_eq_ok] at h
    obtain ⟨_, s₂, hnext, h⟩ := h
    obtain ⟨-, rfl⟩ := next_eq_ok.mp hnext
    obtain ⟨rfl, rfl⟩ := pure_eq_ok.mp h
    rw [tokens_of_peek hc hpeek (by simp [hname])]
    exact ⟨.fact hname, rfl⟩
  · simp only [bind_eq_ok] at h
    obtain ⟨f, s₂, hf, h⟩ := h
    obtain ⟨rfl, rfl⟩ := pure_eq_ok.mp h
    obtain ⟨pf, stop⟩ := (propositions_sound systemF n).formula _ _ _ hc hf
    exact ⟨.proposition pf, stop⟩

/-- A reader that repeats a sound reader after each comma reads a separated list. -/
theorem separated_sound_succ {p : Parser α} {ps : Parser (List α)} {category : Category α}
    (hp : Sound p category) (hps : Sound ps (Separated category)) :
    Sound (do
      let a ← p
      if ← accept .comma then
        let rest ← ps
        return a :: rest
      else return [a]) (Separated category) := by
  intro s s' as hc h
  simp only [bind_eq_ok] at h
  obtain ⟨a, s₁, ha, more, s₂, hmore, h⟩ := h
  obtain ⟨pa, stop₁⟩ := hp _ _ _ hc ha
  obtain ⟨rfl, c, hcomma, e₂, stop₂⟩ | ⟨rfl, rfl⟩ :=
    tokens_of_accept (hc.of_stop_eq stop₁) hmore (by simp)
  · simp only [if_true, bind_eq_ok] at h
    obtain ⟨rest, s₃, hrest, h⟩ := h
    obtain ⟨rfl, rfl⟩ := pure_eq_ok.mp h
    have stop : s₂.stop = s.stop := stop₂.trans stop₁
    obtain ⟨prest, stop₃⟩ := hps _ _ _ (hc.of_stop_eq stop) hrest
    exact ⟨.more (e₂ ▸ pa) hcomma prest, stop₃.trans stop⟩
  · obtain ⟨rfl, rfl⟩ := pure_eq_ok.mp h
    exact ⟨.one pa, stop₁⟩

theorem claims_sound : Sound (claims systemF n) (Separated (Named systemF)) := by
  induction n with
  | zero => exact tooDeep_sound _
  | succ n ih =>
    rw [claims]
    exact separated_sound_succ claim_sound ih

theorem arguments_sound : Sound (arguments systemF n) (Separated (Operand systemF)) := by
  induction n with
  | zero => exact tooDeep_sound _
  | succ n ih =>
    rw [arguments]
    exact separated_sound_succ argument_sound ih

/-- The lookahead behind a quantifier tells whether a block is ahead, and takes nothing. -/
theorem quantifierAhead_spec {i : Nat} {s s' : TokenStream} {b : Bool} (hc : s.Closed)
    (h : quantifierAhead n i s = .ok (b, s')) :
    s' = s ∧ (b = true ↔ ¬ OpensBlock (s.drop i).tokens) := by
  induction n generalizing i with
  | zero => exact absurd h tooDeep_ne_ok
  | succ n ih =>
    simp only [quantifierAhead, bind_eq_ok] at h
    obtain ⟨tok, s₁, hpeek, h⟩ := h
    obtain ⟨hpeek, rfl⟩ := peek_eq_ok.mp hpeek
    have htok : ahead (s₁.drop i).tokens = tok.kind :=
      ahead_of_peek hc (by rw [← peek_add]; exact hpeek)
    rw [opensBlock_iff, htok]
    split at h
    · rename_i hvar
      obtain ⟨rfl, rfl⟩ := pure_eq_ok.mp h
      simpa using fun hk => absurd hk hvar
    · rename_i hvar
      have hvar : tok.kind = .typeVar := by simpa using hvar
      simp only [bind_eq_ok] at h
      obtain ⟨sep, s₂, hsep, h⟩ := h
      obtain ⟨hsep, rfl⟩ := peek_eq_ok.mp hsep
      have htail : (s₂.drop i).tokens.tail = (s₂.drop (i + 1)).tokens := by
        simp [drop]
      have htail₂ : (s₂.drop (i + 1)).tokens.tail = (s₂.drop (i + 2)).tokens := by
        simp [drop]
      have hkind : ahead (s₂.drop (i + 1)).tokens = sep.kind :=
        ahead_of_peek hc (by rw [← peek_add]; exact hsep)
      rw [htail, hkind, htail₂]
      split at h
      · rename_i hcomma
        obtain ⟨rfl, hb⟩ := ih h
        refine ⟨rfl, hb.trans ?_⟩
        simp [hvar, hcomma]
      · rename_i hcomma
        obtain ⟨rfl, rfl⟩ := pure_eq_ok.mp h
        simp [hvar, hcomma]

theorem startsArgument_spec {s s' : TokenStream} {b : Bool} (hc : s.Closed)
    (h : startsArgument systemF n (ahead s.tokens) s = .ok (b, s')) :
    s' = s ∧ (b = true ↔ StartsArgument systemF s.tokens) := by
  unfold StartsArgument
  generalize hk : ahead s.tokens = kind at h
  cases kind
  case forallKeyword =>
    cases systemF with
    | false =>
      obtain ⟨rfl, rfl⟩ := pure_eq_ok.mp h
      simp
    | true =>
      have htail : s.tokens.tail = (s.drop 1).tokens := by simp [drop]
      obtain ⟨rfl, hb⟩ := quantifierAhead_spec hc h
      refine ⟨rfl, hb.trans ?_⟩
      simp [htail]
  all_goals
    obtain ⟨rfl, rfl⟩ := pure_eq_ok.mp h
    simp

theorem application_sound : Sound (application systemF n) (Application systemF) := by
  intro s s' j hc h
  simp only [application, bind_eq_ok] at h
  obtain ⟨tok, s₁, htok, next, s₂, hpeek, starts, s₃, hstarts, h⟩ := h
  obtain ⟨e₁, hname, stop₁⟩ := tokens_of_expect hc htok (by simp)
  have hc₁ := hc.of_stop_eq stop₁
  obtain ⟨hpeek, rfl⟩ := peek_eq_ok.mp hpeek
  rw [← ahead_of_peek hc₁ hpeek] at hstarts
  obtain ⟨rfl, hstarts⟩ := startsArgument_spec hc₁ hstarts
  rw [e₁]
  split at h
  · rename_i hb
    simp only [bind_eq_ok] at h
    obtain ⟨args, s₄, hargs, h⟩ := h
    obtain ⟨rfl, rfl⟩ := pure_eq_ok.mp h
    obtain ⟨pargs, stop₄⟩ := arguments_sound _ _ _ hc₁ hargs
    exact ⟨.applied (by simpa using hname) (hstarts.mp hb) pargs, stop₄.trans stop₁⟩
  · rename_i hb
    obtain ⟨rfl, rfl⟩ := pure_eq_ok.mp h
    exact ⟨.bare (by simpa using hname) fun hs => hb (hstarts.mpr hs), stop₁⟩

/-! ## Proofs -/

/-- An optional semicolon is taken where it stands. -/
theorem semicolon_of_accept {s s' : TokenStream} {b : Bool} (hc : s.Closed)
    (h : accept .semi s = .ok (b, s')) : Semicolon s.tokens s'.tokens ∧ s'.stop = s.stop := by
  obtain ⟨-, t, ht, e, stop⟩ | ⟨-, rfl⟩ := tokens_of_accept hc h (by simp)
  · rw [e]
    exact ⟨.present ht, stop⟩
  · exact ⟨.absent, rfl⟩

/-- Steps are a phrase, and where there are none nothing is taken. -/
def StepsSound (systemF : Bool) (closing : List TokenKind) (n : Nat) : Prop :=
  ∀ s s' r, s.Closed → steps systemF closing n s = .ok (r, s') →
    s'.stop = s.stop ∧ match r with
      | some st => StepsText systemF s.tokens st s'.tokens
      | none => s' = s

theorem proof_sound_succ {closing : List TokenKind} (hs : StepsSound systemF closing n) :
    Sound (proof systemF closing (n + 1)) (ProofText systemF) := by
  intro s s' p hc h
  simp only [proof, bind_eq_ok] at h
  obtain ⟨start, s₁, hpeek, r, s₂, hsteps, h⟩ := h
  obtain ⟨-, rfl⟩ := peek_eq_ok.mp hpeek
  obtain ⟨stop, hr⟩ := hs _ _ _ hc hsteps
  cases r with
  | none => exact absurd h fail_ne_ok
  | some st =>
    obtain ⟨rfl, rfl⟩ := pure_eq_ok.mp h
    exact ⟨.steps hr, stop⟩

theorem steps_sound_succ {closing : List TokenKind}
    (hj : Sound (justification systemF n) (JustificationText systemF))
    (hst : Sound (statement systemF closing n) (StatementText systemF))
    (hs : StepsSound systemF closing n) : StepsSound systemF closing (n + 1) := by
  intro s s' r hc h
  simp only [steps, bind_eq_ok] at h
  obtain ⟨tok, s₁, hpeek, h⟩ := h
  obtain ⟨hpeek, rfl⟩ := peek_eq_ok.mp hpeek
  split at h
  · obtain ⟨rfl, rfl⟩ := pure_eq_ok.mp h
    exact ⟨rfl, rfl⟩
  split at h
  · rename_i hby
    simp only [bind_eq_ok] at h
    obtain ⟨_, s₂, hnext, j, s₃, hjust, _, s₄, hsemi, stop, s₅, hstop, h⟩ := h
    obtain ⟨-, rfl⟩ := next_eq_ok.mp hnext
    obtain ⟨-, rfl⟩ := peek_eq_ok.mp hstop
    have e₁ := tokens_of_peek hc hpeek (by simp [hby])
    obtain ⟨pj, stop₃⟩ := hj _ _ _ hc.next hjust
    obtain ⟨psemi, stop₄⟩ := semicolon_of_accept (hc.next.of_stop_eq stop₃) hsemi
    split at h
    · obtain ⟨rfl, rfl⟩ := pure_eq_ok.mp h
      refine ⟨stop₄.trans stop₃, ?_⟩
      rw [e₁]
      exact .conclude hby pj psemi
    · exact absurd h fail_ne_ok
  · simp only [bind_eq_ok] at h
    obtain ⟨st, s₂, hstatement, _, s₃, hsemi, more, s₄, hmore, h⟩ := h
    obtain ⟨pst, stop₂⟩ := hst _ _ _ hc hstatement
    obtain ⟨psemi, stop₃⟩ := semicolon_of_accept (hc.of_stop_eq stop₂) hsemi
    have stop : s₃.stop = s₁.stop := stop₃.trans stop₂
    obtain ⟨stop₄, hr⟩ := hs _ _ _ (hc.of_stop_eq stop) hmore
    cases more with
    | none =>
      obtain ⟨rfl, rfl⟩ := pure_eq_ok.mp h
      exact ⟨stop₄.trans stop, .last pst (hr ▸ psemi)⟩
    | some rest =>
      obtain ⟨rfl, rfl⟩ := pure_eq_ok.mp h
      exact ⟨stop₄.trans stop, .more pst psemi hr⟩

theorem statement_sound_succ {closing : List TokenKind}
    (ha : Sound (assumption systemF n) (BlockText systemF))
    (hst : Sound (step systemF n) (StatementText systemF))
    (hg : systemF = true → Sound (generalization systemF n) (BlockText systemF)) :
    Sound (statement systemF closing (n + 1)) (StatementText systemF) := by
  intro s s' st hc h
  simp only [statement, bind_eq_ok] at h
  obtain ⟨tok, s₁, hpeek, h⟩ := h
  obtain ⟨-, rfl⟩ := peek_eq_ok.mp hpeek
  generalize tok.kind = kind at h
  cases kind
  case assumeKeyword =>
    simp only [bind_eq_ok] at h
    obtain ⟨b, s₂, hb, h⟩ := h
    obtain ⟨rfl, rfl⟩ := pure_eq_ok.mp h
    obtain ⟨pb, stop⟩ := ha _ _ _ hc hb
    exact ⟨.block pb, stop⟩
  case haveKeyword => exact hst _ _ _ hc h
  case forallKeyword =>
    simp only [bind_eq_ok] at h
    obtain ⟨_, s₂, hreq, b, s₃, hb, h⟩ := h
    obtain ⟨hsf, rfl⟩ := require_eq_ok.mp hreq
    obtain ⟨rfl, rfl⟩ := pure_eq_ok.mp h
    obtain ⟨pb, stop⟩ := hg hsf _ _ _ hc hb
    exact ⟨.block pb, stop⟩
  all_goals exact absurd h fail_ne_ok

theorem step_sound_succ (hj : Sound (justification systemF n) (JustificationText systemF)) :
    Sound (step systemF (n + 1)) (StatementText systemF) := by
  intro s s' st hc h
  simp only [step, bind_eq_ok] at h
  obtain ⟨tok, s₁, htok, c, s₂, hclaim, by_, s₃, hby, j, s₄, hjust, h⟩ := h
  obtain ⟨rfl, rfl⟩ := pure_eq_ok.mp h
  obtain ⟨e₁, hhave, stop₁⟩ := tokens_of_expect hc htok (by simp)
  obtain ⟨pclaim, stop₂⟩ := claimOrHole_sound _ _ _ (hc.of_stop_eq stop₁) hclaim
  have hc₂ := hc.of_stop_eq (stop₂.trans stop₁)
  obtain ⟨e₃, hby, stop₃⟩ := tokens_of_expect hc₂ hby (by simp)
  obtain ⟨pj, stop₄⟩ := hj _ _ _ (hc₂.of_stop_eq stop₃) hjust
  rw [e₁]
  exact ⟨.step (by simpa using hhave) (e₃ ▸ pclaim) (by simpa using hby) pj,
    stop₄.trans (stop₃.trans (stop₂.trans stop₁))⟩

theorem justification_sound_succ
    (ha : Sound (assumption systemF n) (BlockText systemF))
    (hg : systemF = true → Sound (generalization systemF n) (BlockText systemF)) :
    Sound (justification systemF (n + 1)) (JustificationText systemF) := by
  intro s s' j hc h
  simp only [justification, bind_eq_ok] at h
  obtain ⟨tok, s₁, hpeek, h⟩ := h
  obtain ⟨-, rfl⟩ := peek_eq_ok.mp hpeek
  generalize tok.kind = kind at h
  cases kind
  case identifier =>
    obtain ⟨pj, stop⟩ := application_sound _ _ _ hc h
    exact ⟨.application pj, stop⟩
  case assumeKeyword =>
    simp only [bind_eq_ok] at h
    obtain ⟨b, s₂, hb, h⟩ := h
    obtain ⟨rfl, rfl⟩ := pure_eq_ok.mp h
    obtain ⟨pb, stop⟩ := ha _ _ _ hc hb
    exact ⟨.block pb, stop⟩
  case forallKeyword =>
    simp only [bind_eq_ok] at h
    obtain ⟨_, s₂, hreq, b, s₃, hb, h⟩ := h
    obtain ⟨hsf, rfl⟩ := require_eq_ok.mp hreq
    obtain ⟨rfl, rfl⟩ := pure_eq_ok.mp h
    obtain ⟨pb, stop⟩ := hg hsf _ _ _ hc hb
    exact ⟨.block pb, stop⟩
  all_goals exact absurd h fail_ne_ok

/-- A proof in braces. -/
def Braced (systemF : Bool) : Category Proof := fun ts p rest =>
  ∃ opening closing ts', ts = opening :: ts' ∧ opening.kind = .lbrace ∧
    ProofText systemF ts' p (closing :: rest) ∧ closing.kind = .rbrace

theorem braced_sound_succ (hp : Sound (proof systemF [.rbrace] n) (ProofText systemF)) :
    Sound (braced systemF (n + 1)) (Braced systemF) := by
  intro s s' p hc h
  simp only [braced, bind_eq_ok] at h
  obtain ⟨opening, s₁, hopen, q, s₂, hq, closing, s₃, hclose, h⟩ := h
  obtain ⟨rfl, rfl⟩ := pure_eq_ok.mp h
  obtain ⟨e₁, hopen, stop₁⟩ := tokens_of_expect hc hopen (by simp)
  obtain ⟨pq, stop₂⟩ := hp _ _ _ (hc.of_stop_eq stop₁) hq
  have hc₂ := hc.of_stop_eq (stop₂.trans stop₁)
  obtain ⟨e₃, hclose, stop₃⟩ := tokens_of_expect hc₂ hclose (by simp)
  exact ⟨⟨opening, closing, _, e₁, by simpa using hopen, e₃ ▸ pq, by simpa using hclose⟩,
    stop₃.trans (stop₂.trans stop₁)⟩

theorem assumption_sound_succ (hb : Sound (braced systemF n) (Braced systemF)) :
    Sound (assumption systemF (n + 1)) (BlockText systemF) := by
  intro s s' b hc h
  simp only [assumption, bind_eq_ok] at h
  obtain ⟨tok, s₁, htok, hyps, s₂, hhyps, p, s₃, hp, h⟩ := h
  obtain ⟨rfl, rfl⟩ := pure_eq_ok.mp h
  obtain ⟨e₁, hassume, stop₁⟩ := tokens_of_expect hc htok (by simp)
  obtain ⟨phyps, stop₂⟩ := claims_sound _ _ _ (hc.of_stop_eq stop₁) hhyps
  have stop : s₂.stop = s.stop := stop₂.trans stop₁
  obtain ⟨⟨opening, closing, ts, e₃, hopen, pp, hclose⟩, stop₃⟩ := hb _ _ _ (hc.of_stop_eq stop) hp
  rw [e₁]
  exact ⟨.assume (by simpa using hassume) (e₃ ▸ phyps) hopen pp hclose, stop₃.trans stop⟩

theorem generalization_sound_succ (hsf : systemF = true)
    (hb : Sound (braced systemF n) (Braced systemF)) :
    Sound (generalization systemF (n + 1)) (BlockText systemF) := by
  intro s s' b hc h
  simp only [generalization, bind_eq_ok] at h
  obtain ⟨tok, s₁, htok, vars, s₂, hvars, p, s₃, hp, h⟩ := h
  obtain ⟨rfl, rfl⟩ := pure_eq_ok.mp h
  obtain ⟨e₁, hforall, stop₁⟩ := tokens_of_expect hc htok (by simp)
  obtain ⟨pvars, stop₂⟩ := typeVars_sound _ _ _ (hc.of_stop_eq stop₁) hvars
  have stop : s₂.stop = s.stop := stop₂.trans stop₁
  obtain ⟨⟨opening, closing, ts, e₃, hopen, pp, hclose⟩, stop₃⟩ := hb _ _ _ (hc.of_stop_eq stop) hp
  rw [e₁]
  exact ⟨.generalize hsf (by simpa using hforall) (e₃ ▸ pvars) hopen pp hclose, stop₃.trans stop⟩

/-- The readers of proofs are sound at a depth. -/
structure ProofsSound (systemF : Bool) (n : Nat) : Prop where
  proof : ∀ closing, Sound (proof systemF closing n) (ProofText systemF)
  steps : ∀ closing, StepsSound systemF closing n
  statement : ∀ closing, Sound (statement systemF closing n) (StatementText systemF)
  step : Sound (step systemF n) (StatementText systemF)
  justification : Sound (justification systemF n) (JustificationText systemF)
  assumption : Sound (assumption systemF n) (BlockText systemF)
  generalization : systemF = true → Sound (generalization systemF n) (BlockText systemF)
  braced : Sound (braced systemF n) (Braced systemF)

theorem proofs_sound (systemF : Bool) (n : Nat) : ProofsSound systemF n := by
  induction n with
  | zero =>
    exact ⟨fun _ => tooDeep_sound _, fun _ _ _ _ _ h => absurd h tooDeep_ne_ok,
      fun _ => tooDeep_sound _, tooDeep_sound _, tooDeep_sound _, tooDeep_sound _,
      fun _ => tooDeep_sound _, tooDeep_sound _⟩
  | succ n ih =>
    exact {
      proof := fun closing => proof_sound_succ (ih.steps closing)
      steps := fun closing =>
        steps_sound_succ ih.justification (ih.statement closing) (ih.steps closing)
      statement := fun _ => statement_sound_succ ih.assumption ih.step ih.generalization
      step := step_sound_succ ih.justification
      justification := justification_sound_succ ih.assumption ih.generalization
      assumption := assumption_sound_succ ih.braced
      generalization := fun hsf => generalization_sound_succ hsf ih.braced
      braced := braced_sound_succ (ih.proof _) }

/-! ## Documents -/

/-- Theorems are a phrase where there are any, and nothing is taken where there are none. What
follows them starts no theorem. -/
theorem theorems_sound {s s' : TokenStream} {thms : List Theorem} (hc : s.Closed)
    (h : theorems systemF n s = .ok (thms, s')) :
    s'.stop = s.stop ∧ ahead s'.tokens ≠ .theoremKeyword ∧
      (thms = [] ∧ s' = s ∨ TheoremsText systemF s.tokens thms s'.tokens) := by
  induction n generalizing s thms with
  | zero => exact absurd h tooDeep_ne_ok
  | succ n ih =>
    simp only [theorems, bind_eq_ok] at h
    obtain ⟨tok, s₁, hpeek, h⟩ := h
    obtain ⟨hpeek, rfl⟩ := peek_eq_ok.mp hpeek
    split at h
    · rename_i htok
      simp only [bind_eq_ok] at h
      obtain ⟨_, s₂, hnext, c, s₃, hclaim, p, s₄, hproof, rest, s₅, hrest, h⟩ := h
      obtain ⟨-, rfl⟩ := next_eq_ok.mp hnext
      obtain ⟨rfl, rfl⟩ := pure_eq_ok.mp h
      have e₁ := tokens_of_peek hc hpeek (by simp [htok])
      obtain ⟨pclaim, stop₃⟩ := claim_sound _ _ _ hc.next hclaim
      obtain ⟨pproof, stop₄⟩ :=
        (proofs_sound systemF n).proof _ _ _ _ (hc.next.of_stop_eq stop₃) hproof
      have stop : s₄.stop = s₁.stop := stop₄.trans stop₃
      obtain ⟨stop₅, hafter, hthms⟩ := ih (hc.of_stop_eq stop) hrest
      refine ⟨stop₅.trans stop, hafter, .inr ?_⟩
      have hthm : TheoremText systemF s₁.tokens ⟨c, p, tok.loc⟩ s₄.tokens := by
        rw [e₁]
        exact .proved htok pclaim pproof
      obtain ⟨rfl, rfl⟩ | hmore := hthms
      · exact .one hthm
      · exact .more hthm hmore
    · rename_i htok
      obtain ⟨rfl, rfl⟩ := pure_eq_ok.mp h
      refine ⟨rfl, ?_, .inl ⟨rfl, rfl⟩⟩
      rw [ahead_of_peek hc hpeek]
      exact htok

/-- A document takes all tokens, and the stream ends without an error. -/
theorem document_sound {s s' : TokenStream} {d : Document} (hc : s.Closed)
    (hend : ∀ t ∈ s.tokens, t.kind ≠ .eof) (h : document systemF n s = .ok (d, s')) :
    TheoremsText systemF s.tokens d.theorems [] ∧ ∃ t, s.stop = .ok t := by
  simp only [document, bind_eq_ok] at h
  obtain ⟨first, s₁, hpeek, thms, s₂, hthms, h⟩ := h
  obtain ⟨-, rfl⟩ := peek_eq_ok.mp hpeek
  obtain ⟨stop₂, hafter, hthms⟩ := theorems_sound hc hthms
  split at h
  · rename_i hnil
    simp only [bind_eq_ok] at h
    obtain ⟨t, s₃, ht, -⟩ := h
    obtain ⟨e, hkind, -⟩ := tokens_of_expect (hc.of_stop_eq stop₂) ht (by simp)
    exact absurd (by simpa [e, ahead] using hkind) hafter
  · rename_i hnil
    simp only [bind_eq_ok] at h
    obtain ⟨t, s₃, ht, h⟩ := h
    obtain ⟨rfl, rfl⟩ := pure_eq_ok.mp h
    obtain ⟨hpeek, hkind, -⟩ := expect_eq_ok.mp ht
    have htext : TheoremsText systemF s₁.tokens thms s₂.tokens := by
      rcases hthms with ⟨rfl, -⟩ | htext
      · exact absurd rfl hnil
      · exact htext
    have heof : t.kind = .eof := by
      rw [ahead_of_peek (hc.of_stop_eq stop₂) hpeek] at hafter
      simpa [hafter] using hkind
    -- A token of the end class would be one of the tokens of the script.
    cases hts : s₂.tokens with
    | nil =>
      refine ⟨hts ▸ htext, t, ?_⟩
      rw [← stop₂]
      simpa [TokenStream.peek, hts] using hpeek
    | cons u ts =>
      have hu : u = t := by simpa [TokenStream.peek, hts] using hpeek
      have hmem : u ∈ s₁.tokens := by
        apply htext.takes.suffix.subset
        simp [hts]
      exact absurd (hu ▸ heof) (hend u hmem)

end ProofScript.Parser
