import ProofScript.Proofs.Reader.Blame
import ProofScript.Proofs.RoundTrip
import ProofScript.Proofs.Stateful

/-!
# Written propositions have the fewest parentheses

Every way to write a proposition has at least the parentheses that its written form has. The
induction goes over the derivation of the tokens: a production that takes its operands at a level
asks of them what the written form does, a production that passes to a tighter level asks for more,
and a pair of parentheses pays for passing from the tightest level back to the loosest.
-/

namespace ProofScript

open Grammar

/-! ## Levels -/

/-- The precedence that a level asks for. -/
def Grammar.Level.precedence : Level → Nat
  | .quantified => 0
  | .implication => 1
  | .disjunction => 2
  | .conjunction => 3
  | .negation => 4
  | .atom => 5

namespace Formula

theorem parens_mono (f : Formula) {k j : Nat} (h : k ≤ j) : f.parens k ≤ f.parens j := by
  by_cases hk : k ≤ f.precedence
  · rw [parens_of_le hk, parens]
    exact Nat.le_add_left _ _
  · exact Nat.le_of_eq ((parens_of_lt (by omega)).trans (parens_of_lt (by omega)).symm)

/-- What is enough at a precedence is enough at a looser one. -/
theorem parens_add_le {f : Formula} {k j m n : Nat} (hkj : k ≤ j) (h : f.parens j + m ≤ n) :
    f.parens k + m ≤ n :=
  Nat.le_trans (Nat.add_le_add_right (f.parens_mono hkj) m) h

/-- A pair of parentheses is enough at any precedence. -/
theorem parens_le (f : Formula) (k : Nat) : f.parens k ≤ f.parens 0 + 1 := by
  rw [parens_of_le (Nat.zero_le _)]
  by_cases hk : k ≤ f.precedence
  · rw [parens_of_le hk]
    exact Nat.le_succ _
  · exact Nat.le_of_eq (parens_of_lt (by omega))

@[simp]
theorem precedence_erase (f : Formula) : f.erase.precedence = f.precedence := by cases f <;> rfl

@[simp]
theorem inside_erase (f : Formula) : f.erase.inside = f.inside := by
  induction f with
  | hole => rfl
  | atom => rfl
  | neg a _ ih => simp [erase, inside, wraps, ih]
  | conj a b _ iha ihb => simp [erase, inside, wraps, iha, ihb]
  | disj a b _ iha ihb => simp [erase, inside, wraps, iha, ihb]
  | impl a b _ iha ihb => simp [erase, inside, wraps, iha, ihb]
  | all vars a _ ih => simp [erase, inside, wraps, ih]

theorem parens_erase (f : Formula) (k : Nat) : f.erase.parens k = f.parens k := by
  simp [parens, wraps]

end Formula

/-! ## Phrases -/

theorem opened_le_cons (t : Token) (ts : List Token) : opened ts ≤ opened (t :: ts) :=
  (List.sublist_cons_self t ts).countP_le

theorem opened_cons_of_lparen {t : Token} (h : t.kind = .lparen) (ts : List Token) :
    opened (t :: ts) = opened ts + 1 :=
  List.countP_cons_of_pos (by simpa using h)

/-- A phrase of a level has at least the parentheses of the written form. -/
theorem Grammar.Proposition.parens_le {systemF : Bool} {level : Level} {ts rest : List Token}
    {f : Formula} (h : Proposition systemF level ts f rest) :
    f.parens level.precedence + opened rest ≤ opened ts := by
  induction h with
  | @quantifier ts ts' rest q dot vars f loc _ _ hvars _ _ ih =>
    have hbody : (Formula.all vars f loc).parens 0 = f.parens 1 :=
      Formula.parens_of_le (Nat.le_refl _)
    have hfront := opened_le_cons q ts
    have hdot := opened_le_cons dot ts'
    have hvars := opened_typeVars hvars
    simp only [Level.precedence] at ih ⊢
    omega
  | ofImplication _ ih => exact Formula.parens_add_le (by decide) ih
  | @arrow ts ts' rest op a b loc _ _ _ iha ihb =>
    have hparts : (Formula.impl a b loc).parens 1 = a.parens 2 + b.parens 1 :=
      Formula.parens_of_le (Nat.le_refl _)
    have hop := opened_le_cons op ts'
    simp only [Level.precedence] at iha ihb ⊢
    omega
  | ofDisjunction _ ih => exact Formula.parens_add_le (by decide) ih
  | @bar ts ts' rest op a b loc _ _ _ iha ihb =>
    have hparts : (Formula.disj a b loc).parens 2 = a.parens 2 + b.parens 3 :=
      Formula.parens_of_le (Nat.le_refl _)
    have hop := opened_le_cons op ts'
    simp only [Level.precedence] at iha ihb ⊢
    omega
  | ofConjunction _ ih => exact Formula.parens_add_le (by decide) ih
  | @ampersand ts ts' rest op a b loc _ _ _ iha ihb =>
    have hparts : (Formula.conj a b loc).parens 3 = a.parens 3 + b.parens 4 :=
      Formula.parens_of_le (Nat.le_refl _)
    have hop := opened_le_cons op ts'
    simp only [Level.precedence] at iha ihb ⊢
    omega
  | ofNegation _ ih => exact Formula.parens_add_le (by decide) ih
  | @tilde ts rest op f loc _ _ ih =>
    have hbody : (Formula.neg f loc).parens 4 = f.parens 4 := Formula.parens_of_le (Nat.le_refl _)
    have hop := opened_le_cons op ts
    simp only [Level.precedence] at ih ⊢
    omega
  | ofAtom _ ih => exact Formula.parens_add_le (by decide) ih
  | @var rest t loc _ =>
    have hbare : (Formula.atom t.value [] loc).parens 5 = 0 := rfl
    have hname := opened_le_cons t rest
    simp only [Level.precedence]
    omega
  | @predicate ts rest t opening closing args loc _ _ _ hargs _ =>
    have hname := opened_le_cons t (opening :: ts)
    have hopening := opened_le_cons opening ts
    have hclosing := opened_le_cons closing rest
    have hargs := opened_typeVars hargs
    have hbare : (Formula.atom t.value args loc).parens 5 = 0 := rfl
    simp only [Level.precedence]
    omega
  | @parentheses ts rest opening closing f hopening _ _ ih =>
    -- The pair pays for passing from the tightest level to the loosest.
    have hpair := f.parens_le 5
    have hopening := opened_cons_of_lparen hopening ts
    have hclosing := opened_le_cons closing rest
    simp only [Level.precedence] at ih ⊢
    omega

/-! ## Propositions that are read -/

/-- What is left of the tokens of a script ends where the script does. -/
theorem TokenStream.Within.closed {src : List UInt8} {s : TokenStream}
    (h : s.Within (.ofSource src)) : s.Closed := by
  intro t ht
  exact collect_closed _ _ t (h.2 ▸ ht)

/-- Reading a proposition takes the tokens in front, with at least the parentheses of the written
form. -/
theorem parens_le_of_formula {systemF : Bool} {n : Nat} {s s' : TokenStream} {f : Formula}
    (hs : s.Closed) (h : Parser.formula systemF n s = .ok (f, s')) :
    ∃ used, s.tokens = used ++ s'.tokens ∧ f.parens 0 ≤ opened used := by
  obtain ⟨hphrase, -⟩ := (Parser.propositions_sound systemF n).formula _ _ _ hs h
  obtain ⟨used, hused⟩ := hphrase.takes.suffix
  have hparens := hphrase.parens_le
  rw [← hused, opened, opened, List.countP_append] at hparens
  exact ⟨used, hused.symm, Nat.le_of_add_le_add_right hparens⟩

/-- The written form of a proposition that was read scans to the end, to tokens with the parentheses
of the written form that are read as the proposition. -/
theorem text_scans {src : List UInt8} {systemF : Bool} {n : Nat} {s s' : TokenStream} {e : Formula}
    (hs : s.Within (.ofSource src)) (h : Parser.formula systemF n s = .ok (e, s')) :
    ∃ ts stop, TokenStream.ofSource (Text.bytes e.text) = .ofTokens stop ts ∧ stop.kind = .eof ∧
      opened ts = e.parens 0 ∧ Proposition systemF .quantified ts e [] := by
  obtain ⟨hphrase, -⟩ := (Parser.propositions_sound systemF n).formula _ _ _ hs.closed h
  have hspelled : Spelled s.tokens := fun t ht => (TokenStream.collect_spelled (hs.1.subset ht)).1
  have hlexes := writes_formula hphrase hspelled 0 [] (· = []) (by simp [EndsWord]) (.nil rfl)
  rw [List.append_nil] at hlexes
  obtain ⟨ts, stop, hcollect, hstop, _, ⟨htext, hopened⟩, rfl⟩ :=
    hlexes .start _ (Nat.lt_succ_self _)
  exact ⟨ts, stop, hcollect, hstop, hopened, htext⟩

/-- The written form of a proposition that was read is read as that proposition, and no tokens that
are read as it have fewer opening parentheses. -/
theorem text_fewest {src : List UInt8} {systemF : Bool} {n : Nat} {s s' : TokenStream} {e : Formula}
    (hs : s.Within (.ofSource src)) (h : Parser.formula systemF n s = .ok (e, s')) :
    ∃ ts stop, TokenStream.ofSource (Text.bytes e.text) = .ofTokens stop ts ∧ stop.kind = .eof ∧
      (∃ e', Parser.formula systemF (parseDepth ts.length) (.ofTokens stop ts) =
        .ok (e', .ofTokens stop []) ∧ e'.erase = e.erase) ∧
      ∀ systemF' m (u u' : TokenStream) f, u.Closed → Parser.formula systemF' m u = .ok (f, u') →
        f.erase = e.erase → ∃ used, u.tokens = used ++ u'.tokens ∧ opened ts ≤ opened used := by
  obtain ⟨ts, stop, hsource, hstop, hopened, htext⟩ := text_scans hs h
  refine ⟨ts, stop, hsource, hstop, ?_, ?_⟩
  · exact Parser.formula_complete hstop htext (by simp [Parser.EndsProposition, ahead])
      (by rw [parseDepth]; omega)
  · intro systemF' m u u' f hu hf herase
    obtain ⟨used, hused, hparens⟩ := parens_le_of_formula hu hf
    refine ⟨used, hused, ?_⟩
    rwa [hopened, ← e.parens_erase, ← herase, f.parens_erase]

/-- Of five pairs of parentheses two are needed: one groups to the other side than the operator
does, and one holds a quantifier that is an operand. -/
theorem text_fewest_nested :
    ∃ e s', Parser.formula true 400
        (.ofSource (Text.bytes "((P & (Q & R)) | (forall X . (X))) => ~(~S); have")) = .ok (e, s') ∧
      e.inside = 2 ∧ s'.tokens.length = 2 ∧
    ∃ ts stop, TokenStream.ofSource (Text.bytes e.text) = .ofTokens stop ts ∧ stop.kind = .eof ∧
      (∃ e', Parser.formula true (parseDepth ts.length) (.ofTokens stop ts) =
        .ok (e', .ofTokens stop []) ∧ e'.erase = e.erase) ∧
      ∀ systemF' m (u u' : TokenStream) f, u.Closed → Parser.formula systemF' m u = .ok (f, u') →
        f.erase = e.erase → ∃ used, u.tokens = used ++ u'.tokens ∧ opened ts ≤ opened used := by
  generalize hsrc : Text.bytes _ = src
  have hchecked : (Parser.formula true 400 (.ofSource src)).toOption.any
      (fun r => r.1.inside = 2 ∧ r.2.tokens.length = 2) = true := by
    rw [← hsrc]
    decide +kernel
  obtain ⟨⟨e, s'⟩, h, hcounts⟩ := exists_ok_of_any hchecked
  obtain ⟨hinside, hrest⟩ := of_decide_eq_true hcounts
  exact ⟨e, s', h, hinside, hrest, text_fewest (.refl _) h⟩

end ProofScript
