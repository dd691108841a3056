import ProofScript.Proofs.Reader.Complete

/-!
# Reading accepts the grammar and nothing else

A script is read exactly when it has tokens and these are the text of a document, what is read is a
document with this text, and no tokens are the text of two documents that differ in more than places.
-/

namespace ProofScript

open Grammar TokenStream

variable {src : List UInt8} {systemF : Bool} {ts : List Token} {d d₁ d₂ : Document}

theorem parse_eq_ok : parse src systemF = .ok d ↔
    ∃ s, Parser.document systemF (parseDepth (ofSource src).tokens.length) (ofSource src) =
      .ok (d, s) := by
  unfold parse TokenStream.parse StateT.run'
  cases hdoc : Parser.document systemF (parseDepth (ofSource src).tokens.length) (ofSource src) with
  | error e => simp [Functor.map, Except.map]
  | ok r =>
    obtain ⟨d', s⟩ := r
    simp [Functor.map, Except.map]

/-- A document that is read is the tree of its tokens. -/
theorem documentText_of_parse (h : parse src systemF = .ok d) :
    ∃ ts, tokenize src = .ok ts ∧ DocumentText systemF ts d := by
  obtain ⟨s, hdoc⟩ := parse_eq_ok.mp h
  have hclosed : (ofSource src).Closed := collect_closed _ _
  obtain ⟨htext, stop, hstop⟩ :=
    Parser.document_sound hclosed (fun t ht => (collect_spelled ht).2) hdoc
  exact ⟨_, tokenize_eq_ok.mpr ⟨stop, hstop, rfl⟩, .theorems htext (hclosed stop hstop)⟩

/-- The text of a document is read, whatever the places of its tree. -/
theorem parse_of_documentText (hts : tokenize src = .ok ts) (h : DocumentText systemF ts d) :
    ∃ d', parse src systemF = .ok d' ∧ d'.erase = d.erase := by
  obtain ⟨stop, hstop, heq⟩ := tokenize_eq_ok.mp hts
  cases h with
  | @theorems tokens end_ _ htext hend =>
    obtain ⟨htokens, hends⟩ := List.append_inj' heq rfl
    obtain rfl : stop = end_ := by simpa using hends
    have hsource : ofSource src = ofTokens stop tokens := by
      rw [← htokens, ofTokens, ← hstop]
    obtain ⟨d', hd', herase⟩ := Parser.document_complete hend htext
      (n := parseDepth (ofSource src).tokens.length) (by rw [parseDepth, htokens]; omega)
    rw [← hsource] at hd'
    exact ⟨d', parse_eq_ok.mpr ⟨_, hd'⟩, herase⟩

/-- The same tokens are never the text of two documents. -/
theorem documentText_unique (h₁ : DocumentText systemF ts d₁) (h₂ : DocumentText systemF ts d₂) :
    d₁.erase = d₂.erase := by
  cases h₁ with
  | @theorems tokens₁ stop₁ _ htext₁ hstop₁ =>
    generalize hts : tokens₁ ++ [stop₁] = ts at h₂
    cases h₂ with
    | @theorems tokens₂ stop₂ _ htext₂ hstop₂ =>
      obtain ⟨rfl, hstops⟩ := List.append_inj' hts rfl
      obtain rfl : stop₁ = stop₂ := by simpa using hstops
      obtain ⟨d, hd, herase₁⟩ := Parser.document_complete hstop₁ htext₁ (Nat.le_refl _)
      obtain ⟨d', hd', herase₂⟩ := Parser.document_complete hstop₁ htext₂ (Nat.le_refl _)
      obtain rfl : d = d' := by simpa [hd'] using hd.symm
      rw [← herase₁, herase₂]

/-- A script is read exactly when its tokens derive from the grammar; the document is then the tree
of the derivation, of which there is one up to places. -/
theorem parse_iff_documentText (src : List UInt8) (systemF : Bool) :
    ((∃ d, parse src systemF = .ok d) ↔
      ∃ ts, tokenize src = .ok ts ∧ ∃ d, DocumentText systemF ts d) ∧
    (∀ ts d, tokenize src = .ok ts → parse src systemF = .ok d → DocumentText systemF ts d) ∧
    ∀ ts d₁ d₂, DocumentText systemF ts d₁ → DocumentText systemF ts d₂ →
      d₁.erase = d₂.erase := by
  refine ⟨⟨?_, ?_⟩, ?_, ?_⟩
  · rintro ⟨d, hd⟩
    obtain ⟨ts, hts, htext⟩ := documentText_of_parse hd
    exact ⟨ts, hts, d, htext⟩
  · rintro ⟨ts, hts, d, htext⟩
    obtain ⟨d', hd', -⟩ := parse_of_documentText hts htext
    exact ⟨d', hd'⟩
  · intro ts d hts hd
    obtain ⟨ts', hts', htext⟩ := documentText_of_parse hd
    obtain rfl : ts' = ts := by simpa [hts'] using hts
    exact htext
  · intro ts d₁ d₂
    exact documentText_unique

end ProofScript
