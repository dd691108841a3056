import ProofScript.Proofs.Legibility
import ProofScript.Proofs.Naming

/-!
# The words of documents

What generation takes for granted of a document: nothing is missing where a node is required, blocks
have hypotheses or variables, and every name is a word. Documents that were read are of this kind, and
the names that are made of theirs are words too.
-/

namespace ProofScript

open Program

/-! ## Names that are made of names -/

/-- An ASCII character that may stand in a name. -/
def NameChar (c : Char) : Prop := c ∉ delimiters ∧ c.toNat < 128

instance (c : Char) : Decidable (NameChar c) := inferInstanceAs (Decidable (_ ∧ _))

/-- A name of ASCII characters. -/
def AsciiWord (name : String) : Prop := name.toList ≠ [] ∧ ∀ c ∈ name.toList, NameChar c

instance (name : String) : Decidable (AsciiWord name) :=
  decidable_of_iff (name.toList ≠ [] ∧ name.toList.all (NameChar ·)) (by simp [AsciiWord])

theorem AsciiWord.isWord {name : String} (h : AsciiWord name) : IsWord name :=
  ⟨h.1, fun c hc => (h.2 c hc).1⟩

theorem WordOf.asciiWord {first : UInt8 → Bool} {s : String} (h : WordOf first s)
    (hfirst : ∀ b, first b = true → isWordByte b = true) : AsciiWord s := by
  rcases h with ⟨b, w, hb, hw, rfl⟩
  have hbyte : ∀ b : UInt8, isWordByte b = false ∨ NameChar (Char.ofNat b.toNat) :=
    forall_byte (by decide +kernel)
  have hbytes : ∀ x ∈ b :: w, isWordByte x = true := List.forall_mem_cons.mpr ⟨hfirst b hb, hw⟩
  have hchars : (Text.ofBytes (b :: w)).toList = (b :: w).map fun x => Char.ofNat x.toNat := by
    rw [Text.ofBytes, String.toList_ofList, Text.decode,
      Text.decodeUpTo_ascii fun x hx => ascii_of_word (hbytes x hx)]
  rw [AsciiWord, hchars]
  refine ⟨by simp, ?_⟩
  intro c hc
  rcases List.mem_map.mp hc with ⟨x, hx, rfl⟩
  simpa [hbytes x hx] using hbyte x

theorem IsTypeVar.asciiWord {s : String} (h : IsTypeVar s) : AsciiWord s :=
  WordOf.asciiWord h fun _ => isWordByte_of_upper

theorem IsName.asciiWord {s : String} (h : IsName s) : AsciiWord s :=
  WordOf.asciiWord h.1 fun _ => isWordByte_of_startsName

theorem AsciiWord.append {s t : String} (h : AsciiWord s) (ht : AsciiWord t) : AsciiWord (s ++ t) := by
  rw [AsciiWord, String.toList_append]
  exact ⟨by simp [h.1], List.forall_mem_append.mpr ⟨h.2, ht.2⟩⟩

theorem asciiWord_escapeIdent {name : String} (h : AsciiWord name) : AsciiWord (escapeIdent name) := by
  unfold escapeIdent
  split
  · exact h.append (by decide)
  · exact h

theorem asciiWord_escapeTypeVar {name : String} (h : AsciiWord name) :
    AsciiWord (escapeTypeVar name) := by
  unfold escapeTypeVar
  split
  · exact h.append (by decide)
  · exact h

theorem nameChar_toLower {c : Char} (h : c.isUpper = true) : NameChar c.toLower := by
  have hall : ∀ n < 128, (Char.ofNat n).isUpper = true → NameChar (Char.ofNat n).toLower := by
    decide +kernel
  have hle : c.toNat ≤ 90 := (of_decide_eq_true h).2
  have hc := hall c.toNat (by omega)
  rw [Char.ofNat_toNat] at hc
  exact hc h

theorem nameChar_encodeChar {c d : Char} (h : NameChar c) (hd : d ∈ encodeChar c) :
    NameChar d := by
  unfold encodeChar at hd
  split at hd
  · rename_i hupper
    rcases List.mem_pair.mp hd with rfl | rfl
    · decide
    · exact nameChar_toLower hupper
  split at hd
  · rcases List.mem_pair.mp hd with rfl | rfl <;> decide
  · rw [List.mem_singleton.mp hd]
    exact h

theorem asciiWord_encodeAtom {name : String} (h : IsTypeVar name) : AsciiWord (encodeAtom name) := by
  refine ⟨fun hnil => (encodeAtom_spec h).2.1 (String.toList_eq_nil_iff.mp hnil), ?_⟩
  obtain ⟨c, cs, hname, hupper, -⟩ := h.toList_eq
  have hclean : ∀ d ∈ encodeChars name.toList, NameChar d := by
    have hcs : ∀ x ∈ cs, NameChar x := fun x hx => h.asciiWord.2 x (by simp [hname, hx])
    simp only [hname, encodeChars, hupper, if_true, List.singleton_append, List.forall_mem_cons]
    refine ⟨nameChar_toLower hupper, ?_⟩
    intro d hd
    rcases List.mem_flatMap.mp hd with ⟨x, hx, hdx⟩
    exact nameChar_encodeChar (hcs x hx) hdx
  unfold encodeAtom
  dsimp only
  split
  · rw [String.toList_append, String.toList_ofList, List.forall_mem_append]
    exact ⟨hclean, (show AsciiWord "$" by decide).2⟩
  · rwa [String.toList_ofList]

theorem asciiWord_factName {f : Formula} (h : f.Spelled) : AsciiWord f.factName := by
  have hone : ∀ {w a : String}, AsciiWord w → AsciiWord a → AsciiWord (w ++ a ++ "_") :=
    fun hw ha => (hw.append ha).append (by decide)
  have htwo : ∀ {w a b : String}, AsciiWord w → AsciiWord a → AsciiWord b →
      AsciiWord (w ++ a ++ "_" ++ b ++ "_") :=
    fun hw ha hb => ((hone hw ha).append hb).append (by decide)
  induction f with
  | hole => exact h.elim
  | atom name args loc =>
    cases args with
    | nil => exact (asciiWord_encodeAtom h.1).append (by decide)
    | cons arg rest =>
      exact htwo (by decide) (asciiWord_encodeAtom h.1) (asciiWord_encodeAtom (h.2 arg (by simp)))
  | neg a _ iha => exact hone (by decide) (iha h)
  | conj a b _ iha ihb | disj a b _ iha ihb | impl a b _ iha ihb =>
    exact htwo (by decide) (iha h.1) (ihb h.2)
  | all vars a _ iha =>
    have hvars : ∀ c ∈ (String.join (vars.map (encodeAtom · ++ "_"))).toList, NameChar c := by
      rw [String.toList_join]
      intro c hc
      rcases List.mem_flatMap.mp hc with ⟨word, hword, hc⟩
      rcases List.mem_map.mp hword with ⟨v, hv, rfl⟩
      exact ((asciiWord_encodeAtom (h.1 v hv)).append (t := "_") (by decide)).2 c hc
    have hforall : AsciiWord ("forall_" ++ String.join (vars.map (encodeAtom · ++ "_"))) := by
      rw [AsciiWord, String.toList_append]
      exact ⟨by simp, List.forall_mem_append.mpr ⟨(show AsciiWord "forall_" by decide).2, hvars⟩⟩
    exact ((hforall.append (by decide)).append (iha h.2)).append (by decide)

/-! ## Documents -/

/-- The name of a claim is a word of a script, and its proposition is stated. -/
def Claim.Worded (c : Claim) : Prop := (∀ n ∈ c.name, IsName n) ∧ c.formula.Spelled

/-- The name of an argument is a word of a script, or its proposition is stated. -/
def Argument.Worded : Argument → Prop
  | .fact name _ => IsName name
  | .prop f => f.Spelled

mutual

/-- Nothing is missing in a proof, blocks open something, and every name is a word of a script. The
claim of a step may be left out. -/
def Proof.Worded : Proof → Prop
  | .mk s _ => s.Worded

/-- The same for steps. -/
def Steps.Worded : Steps → Prop
  | .last s => s.Worded
  | .conclude j _ => j.Worded
  | .more s rest => s.Worded ∧ rest.Worded

/-- The same for a statement. -/
def Statement.Worded : Statement → Prop
  | .missing => False
  | .step c j _ =>
    (∀ n ∈ c.name, IsName n) ∧ (c.formula.isHole = true ∨ c.formula.Spelled) ∧ j.Worded
  | .block b => b.Worded

/-- The same for a justification. -/
def Justification.Worded : Justification → Prop
  | .missing => False
  | .apply rule args _ => IsName rule ∧ ∀ a ∈ args, a.Worded
  | .block b => b.Worded

/-- The same for a block. -/
def Block.Worded : Block → Prop
  | .assume hyps p _ => hyps ≠ [] ∧ (∀ h ∈ hyps, h.Worded) ∧ p.Worded
  | .generalize vars p _ => vars ≠ [] ∧ (∀ v ∈ vars, IsTypeVar v) ∧ p.Worded

end

/-- The same for the claim and the proof of a theorem. -/
def Theorem.Worded (t : Theorem) : Prop := t.claim.Worded ∧ t.proof.Worded

/-- The hypotheses and the proof that a theorem takes are those of a block. -/
theorem Theorem.Worded.sequent {t : Theorem} (h : t.Worded) {hyps : List Claim} {p : Proof}
    (hsequent : Generate.sequent? t = some (hyps, p)) :
    hyps ≠ [] ∧ (∀ h ∈ hyps, h.Worded) ∧ p.Worded := by
  obtain ⟨loc, loc', hproof⟩ := Generate.sequent?_eq_some hsequent
  have hworded := h.2
  rwa [hproof] at hworded

namespace Grammar

variable {systemF : Bool} {ts rest : List Token}

theorem Separated.ne_nil {α : Type} {item : Category α} {as : List α}
    (h : Separated item ts as rest) : as ≠ [] := by
  cases h <;> simp

theorem worded_of_label {name : Option String} (h : Label ts name rest) (hts : Spelled ts) :
    ∀ n ∈ name, IsName n := by
  cases h with
  | absent => simp
  | name ht _ => simpa using hts.head.name ht

theorem worded_of_named {c : Claim} (h : Named systemF ts c rest) (hts : Spelled ts) : c.Worded := by
  cases h with
  | claim hlabel hf =>
    exact ⟨worded_of_label hlabel hts, spelled_of_proposition hf (hts.of_suffix hlabel.suffix)⟩

theorem worded_of_claimed {c : Claim} (h : Claimed systemF ts c rest) (hts : Spelled ts) :
    (∀ n ∈ c.name, IsName n) ∧ (c.formula.isHole = true ∨ c.formula.Spelled) := by
  cases h with
  | stated h => exact ⟨(worded_of_named h hts).1, .inr (worded_of_named h hts).2⟩
  | hole hlabel => exact ⟨worded_of_label hlabel hts, .inl rfl⟩

theorem worded_of_operand {a : Argument} (h : Operand systemF ts a rest) (hts : Spelled ts) :
    a.Worded := by
  cases h with
  | fact ht => exact hts.head.name ht
  | proposition h => exact spelled_of_proposition h hts

theorem worded_of_application {j : Justification} (h : Application systemF ts j rest)
    (hts : Spelled ts) : j.Worded := by
  cases h with
  | bare ht => exact ⟨hts.head.name ht, by simp⟩
  | applied ht _ hargs =>
    exact ⟨hts.head.name ht, spelled_of_separated (P := Argument.Worded)
      (fun _ _ _ => Operand.takes) (fun _ _ _ => worded_of_operand) hargs hts.tail⟩

mutual

theorem worded_of_proof {systemF : Bool} {ts rest : List Token} {p : Proof} (hts : Spelled ts) :
    ProofText systemF ts p rest → p.Worded
  | .steps h => worded_of_steps hts h

theorem worded_of_steps {systemF : Bool} {ts rest : List Token} {s : Steps} (hts : Spelled ts) :
    StepsText systemF ts s rest → s.Worded
  | .last h _ => worded_of_statement hts h
  | .conclude _ h _ => worded_of_justification hts.tail h
  | .more h hsemi hmore =>
    ⟨worded_of_statement hts h, worded_of_steps ((hts.after h.takes).of_suffix hsemi.suffix) hmore⟩

theorem worded_of_statement {systemF : Bool} {ts rest : List Token} {s : Statement}
    (hts : Spelled ts) : StatementText systemF ts s rest → s.Worded
  | .step _ hclaim _ h =>
    ⟨(worded_of_claimed hclaim hts.tail).1, (worded_of_claimed hclaim hts.tail).2,
      worded_of_justification (hts.tail.after hclaim.takes).tail h⟩
  | .block h => worded_of_block hts h

theorem worded_of_justification {systemF : Bool} {ts rest : List Token} {j : Justification}
    (hts : Spelled ts) : JustificationText systemF ts j rest → j.Worded
  | .application h => worded_of_application h hts
  | .block h => worded_of_block hts h

theorem worded_of_block {systemF : Bool} {ts rest : List Token} {b : Block} (hts : Spelled ts) :
    BlockText systemF ts b rest → b.Worded
  | .assume _ hhyps _ h _ =>
    ⟨hhyps.ne_nil, spelled_of_separated (P := Claim.Worded) (fun _ _ _ => Named.takes)
        (fun _ _ _ => worded_of_named) hhyps hts.tail,
      worded_of_proof (hts.tail.after (hhyps.takes fun _ _ _ => Named.takes)).tail h⟩
  | .generalize _ _ hvars _ h _ =>
    ⟨hvars.ne_nil, spelled_of_typeVars hvars hts.tail,
      worded_of_proof (hts.tail.after (typeVars_takes hvars)).tail h⟩

end

theorem worded_of_theorem {t : Theorem} (h : TheoremText systemF ts t rest) (hts : Spelled ts) :
    t.Worded := by
  cases h with
  | proved _ hclaim hproof =>
    exact ⟨worded_of_named hclaim hts.tail, worded_of_proof (hts.tail.after hclaim.takes) hproof⟩

theorem worded_of_theorems {thms : List Theorem} (h : TheoremsText systemF ts thms rest)
    (hts : Spelled ts) : ∀ t ∈ thms, t.Worded := by
  induction h with
  | one h =>
    rw [List.forall_mem_singleton]
    exact worded_of_theorem h hts
  | more h _ ih =>
    rw [List.forall_mem_cons]
    exact ⟨worded_of_theorem h hts, ih (hts.after h.takes)⟩

end Grammar

/-- The theorems of a document that was read are of the kind that generation takes for granted. -/
theorem theorems_worded {src : List UInt8} {systemF : Bool} {d : Document}
    (h : parse src systemF = .ok d) : ∀ t ∈ d.theorems, t.Worded := by
  rcases parse_eq_ok.mp h with ⟨s, hdoc⟩
  have hspelled : Spelled (TokenStream.ofSource src).tokens :=
    fun t ht => (TokenStream.collect_spelled ht).1
  rcases Parser.document_sound (TokenStream.collect_closed _ _)
    (fun t ht => (TokenStream.collect_spelled ht).2) hdoc with ⟨htext, -⟩
  exact Grammar.worded_of_theorems htext hspelled

end ProofScript
