import ProofScript.Proofs.Meaning
import ProofScript.Proofs.RoundTrip

/-!
# How documents are spelled

What the words of a script say about the document that it is read as: the atoms of its propositions
are spelled like type variables, and only System F has predicates and generalizations.
-/

namespace ProofScript

/-- Every atom and every bound atom is spelled like a type variable, and nothing is left out. -/
def Formula.Spelled : Formula → Prop
  | .hole => False
  | .atom name args _ => IsTypeVar name ∧ ∀ a ∈ args, IsTypeVar a
  | .neg a _ => a.Spelled
  | .conj a b _ => a.Spelled ∧ b.Spelled
  | .disj a b _ => a.Spelled ∧ b.Spelled
  | .impl a b _ => a.Spelled ∧ b.Spelled
  | .all vars a _ => (∀ v ∈ vars, IsTypeVar v) ∧ a.Spelled

/-- A script of the mode can state the proposition: its atoms are spelled like type variables, and it
has predicates in System F only. -/
def Formula.SpelledIn (systemF : Bool) (f : Formula) : Prop :=
  f.Spelled ∧ (systemF = false → f.propositional = true)

/-- The proposition of a fact without a name is one that a script can state. -/
def Argument.Spelled (systemF : Bool) : Argument → Prop
  | .fact _ _ => True
  | .prop f => f.SpelledIn systemF

mutual

/-- Every proposition of a proof is one that a script can state, and every generalization is one of
System F. The claim of a step may be left out. -/
def Proof.Spelled (systemF : Bool) : Proof → Prop
  | .mk s _ => s.Spelled systemF

/-- The same for steps. -/
def Steps.Spelled (systemF : Bool) : Steps → Prop
  | .last s => s.Spelled systemF
  | .conclude j _ => j.Spelled systemF
  | .more s rest => s.Spelled systemF ∧ rest.Spelled systemF

/-- The same for a statement. -/
def Statement.Spelled (systemF : Bool) : Statement → Prop
  | .missing => True
  | .step c j _ => (c.formula.isHole = true ∨ c.formula.SpelledIn systemF) ∧ j.Spelled systemF
  | .block b => b.Spelled systemF

/-- The same for a justification. -/
def Justification.Spelled (systemF : Bool) : Justification → Prop
  | .missing => True
  | .apply _ args _ => ∀ a ∈ args, a.Spelled systemF
  | .block b => b.Spelled systemF

/-- The same for a block. -/
def Block.Spelled (systemF : Bool) : Block → Prop
  | .assume hyps p _ => (∀ h ∈ hyps, h.formula.SpelledIn systemF) ∧ p.Spelled systemF
  | .generalize _ p _ => systemF = true ∧ p.Spelled systemF

end

/-- The same for the claim and the proof of a theorem. -/
def Theorem.Spelled (systemF : Bool) (t : Theorem) : Prop :=
  t.claim.formula.SpelledIn systemF ∧ t.proof.Spelled systemF

/-- The hypotheses and the proof that a theorem takes are part of its own proof. -/
theorem Theorem.Spelled.sequent {systemF : Bool} {t : Theorem} (h : t.Spelled systemF)
    {hyps : List Claim} {p : Proof} (hsequent : Generate.sequent? t = some (hyps, p)) :
    (∀ h ∈ hyps, h.formula.SpelledIn systemF) ∧ p.Spelled systemF := by
  obtain ⟨loc, loc', hproof⟩ := Generate.sequent?_eq_some hsequent
  have hspelled := h.2
  rwa [hproof] at hspelled

namespace Grammar

variable {systemF : Bool} {ts rest : List Token}

theorem spelled_of_separated {α : Type} {item : Category α} {P : α → Prop}
    (htakes : ∀ ts a rest, item ts a rest → Takes ts rest)
    (hitem : ∀ ts a rest, item ts a rest → Spelled ts → P a) {as : List α}
    (h : Separated item ts as rest) (hts : Spelled ts) : ∀ a ∈ as, P a := by
  induction h with
  | one ha =>
    intro a hmem
    rw [List.mem_singleton.mp hmem]
    exact hitem _ _ _ ha hts
  | more ha _ _ ih =>
    intro a hmem
    rcases List.mem_cons.mp hmem with rfl | hmem
    · exact hitem _ _ _ ha hts
    · exact ih (hts.after (htakes _ _ _ ha)).tail a hmem

theorem spelled_of_typeVars {vars : List String} (h : Separated TypeVar ts vars rest)
    (hts : Spelled ts) : ∀ v ∈ vars, IsTypeVar v := by
  refine spelled_of_separated (fun _ _ _ => TypeVar.takes) ?_ h hts
  rintro ts v rest ⟨t, ht⟩ hts
  exact hts.head.typeVar ht

theorem spelled_of_proposition {level : Level} {f : Formula}
    (h : Proposition systemF level ts f rest) (hts : Spelled ts) : f.Spelled := by
  induction h with
  | quantifier _ _ hvars _ _ ih =>
    exact ⟨spelled_of_typeVars hvars hts.tail, ih (hts.tail.after (typeVars_takes hvars)).tail⟩
  | ofImplication _ ih => exact ih hts
  | arrow ha _ _ iha ihb => exact ⟨iha hts, ihb (hts.after (Proposition.takes ha)).tail⟩
  | ofDisjunction _ ih => exact ih hts
  | bar ha _ _ iha ihb => exact ⟨iha hts, ihb (hts.after (Proposition.takes ha)).tail⟩
  | ofConjunction _ ih => exact ih hts
  | ampersand ha _ _ iha ihb => exact ⟨iha hts, ihb (hts.after (Proposition.takes ha)).tail⟩
  | ofNegation _ ih => exact ih hts
  | tilde _ _ ih => exact ih hts.tail
  | ofAtom _ ih => exact ih hts
  | var ht => exact ⟨hts.head.typeVar ht, by simp⟩
  | predicate _ ht _ hargs _ => exact ⟨hts.head.typeVar ht, spelled_of_typeVars hargs hts.tail.tail⟩
  | parentheses _ _ _ ih => exact ih hts.tail

theorem propositional_of_proposition {level : Level} {f : Formula}
    (h : Proposition systemF level ts f rest) (hmode : systemF = false) :
    f.propositional = true := by
  induction h with
  | quantifier hsystemF => rw [hmode] at hsystemF; cases hsystemF
  | ofImplication _ ih | ofDisjunction _ ih | ofConjunction _ ih | ofNegation _ ih | ofAtom _ ih =>
    exact ih
  | arrow _ _ _ iha ihb | bar _ _ _ iha ihb | ampersand _ _ _ iha ihb =>
    simp [Formula.propositional, iha, ihb]
  | tilde _ _ ih => exact ih
  | var => rfl
  | predicate hsystemF => rw [hmode] at hsystemF; cases hsystemF
  | parentheses _ _ _ ih => exact ih

theorem spelledIn_of_proposition {level : Level} {f : Formula}
    (h : Proposition systemF level ts f rest) (hts : Spelled ts) : f.SpelledIn systemF :=
  ⟨spelled_of_proposition h hts, propositional_of_proposition h⟩

theorem spelled_of_named {c : Claim} (h : Named systemF ts c rest) (hts : Spelled ts) :
    c.formula.SpelledIn systemF := by
  cases h with
  | claim hlabel hf => exact spelledIn_of_proposition hf (hts.of_suffix hlabel.suffix)

theorem spelled_of_claimed {c : Claim} (h : Claimed systemF ts c rest) (hts : Spelled ts) :
    c.formula.isHole = true ∨ c.formula.SpelledIn systemF := by
  cases h with
  | stated h => exact .inr (spelled_of_named h hts)
  | hole => exact .inl rfl

theorem spelled_of_operand {a : Argument} (h : Operand systemF ts a rest) (hts : Spelled ts) :
    a.Spelled systemF := by
  cases h with
  | fact => trivial
  | proposition h => exact spelledIn_of_proposition h hts

theorem spelled_of_application {j : Justification} (h : Application systemF ts j rest)
    (hts : Spelled ts) : j.Spelled systemF := by
  cases h with
  | bare => simp [Justification.Spelled]
  | applied _ _ hargs =>
    exact spelled_of_separated (P := Argument.Spelled systemF) (fun _ _ _ => Operand.takes)
      (fun _ _ _ => spelled_of_operand) hargs hts.tail

mutual

theorem spelled_of_proof {systemF : Bool} {ts rest : List Token} {p : Proof} (hts : Spelled ts) :
    ProofText systemF ts p rest → p.Spelled systemF
  | .steps h => spelled_of_steps hts h

theorem spelled_of_steps {systemF : Bool} {ts rest : List Token} {s : Steps} (hts : Spelled ts) :
    StepsText systemF ts s rest → s.Spelled systemF
  | .last h _ => spelled_of_statement hts h
  | .conclude _ h _ => spelled_of_justification hts.tail h
  | .more h hsemi hmore =>
    ⟨spelled_of_statement hts h, spelled_of_steps ((hts.after h.takes).of_suffix hsemi.suffix) hmore⟩

theorem spelled_of_statement {systemF : Bool} {ts rest : List Token} {s : Statement}
    (hts : Spelled ts) : StatementText systemF ts s rest → s.Spelled systemF
  | .step _ hclaim _ h =>
    ⟨spelled_of_claimed hclaim hts.tail,
      spelled_of_justification (hts.tail.after hclaim.takes).tail h⟩
  | .block h => spelled_of_block hts h

theorem spelled_of_justification {systemF : Bool} {ts rest : List Token} {j : Justification}
    (hts : Spelled ts) : JustificationText systemF ts j rest → j.Spelled systemF
  | .application h => spelled_of_application h hts
  | .block h => spelled_of_block hts h

theorem spelled_of_block {systemF : Bool} {ts rest : List Token} {b : Block} (hts : Spelled ts) :
    BlockText systemF ts b rest → b.Spelled systemF
  | .assume _ hhyps _ h _ =>
    ⟨spelled_of_separated (P := fun c => c.formula.SpelledIn systemF) (fun _ _ _ => Named.takes)
        (fun _ _ _ => spelled_of_named) hhyps hts.tail,
      spelled_of_proof (hts.tail.after (hhyps.takes fun _ _ _ => Named.takes)).tail h⟩
  | .generalize hsystemF _ hvars _ h _ =>
    ⟨hsystemF, spelled_of_proof (hts.tail.after (typeVars_takes hvars)).tail h⟩

end

theorem spelled_of_theorem {t : Theorem} (h : TheoremText systemF ts t rest) (hts : Spelled ts) :
    t.Spelled systemF := by
  cases h with
  | proved _ hclaim hproof =>
    exact ⟨spelled_of_named hclaim hts.tail, spelled_of_proof (hts.tail.after hclaim.takes) hproof⟩

theorem spelled_of_theorems {thms : List Theorem} (h : TheoremsText systemF ts thms rest)
    (hts : Spelled ts) : ∀ t ∈ thms, t.Spelled systemF := by
  induction h with
  | one h =>
    intro t ht
    rw [List.mem_singleton.mp ht]
    exact spelled_of_theorem h hts
  | more h _ ih =>
    intro t ht
    rcases List.mem_cons.mp ht with rfl | ht
    · exact spelled_of_theorem h hts
    · exact ih (hts.after h.takes) t ht

end Grammar

/-- The theorems of a document that was read are spelled as they should be. -/
theorem theorems_spelled {src : List UInt8} {systemF : Bool} {d : Document}
    (h : parse src systemF = .ok d) : ∀ t ∈ d.theorems, t.Spelled systemF := by
  rcases parse_eq_ok.mp h with ⟨s, hdoc⟩
  have hspelled : Spelled (TokenStream.ofSource src).tokens :=
    fun t ht => (TokenStream.collect_spelled ht).1
  rcases Parser.document_sound (TokenStream.collect_closed _ _)
    (fun t ht => (TokenStream.collect_spelled ht).2) hdoc with ⟨htext, -⟩
  exact Grammar.spelled_of_theorems htext hspelled

/-- So are their claims and hypotheses. -/
theorem spelled_of_parse {src : List UInt8} {systemF : Bool} {d : Document}
    (h : parse src systemF = .ok d) :
    ∀ t ∈ d.theorems, t.claim.formula.Spelled ∧ ∀ f ∈ t.hypotheses, f.Spelled := by
  intro t ht
  have hspelled := theorems_spelled h t ht
  refine ⟨hspelled.1.1, ?_⟩
  intro f hf
  unfold Theorem.hypotheses at hf
  cases hsequent : Generate.sequent? t with
  | none => simp [hsequent] at hf
  | some hp =>
    obtain ⟨hyps, p⟩ := hp
    simp only [hsequent, Option.elim_some] at hf
    rcases List.mem_map.mp hf with ⟨claim, hclaim, rfl⟩
    exact ((hspelled.sequent hsequent).1 claim hclaim).1

end ProofScript
