import ProofScript.Proofs.Spelling
import ProofScript.Proofs.Stateful

/-!
# Names of anonymous facts

The name of a fact without a name of its own spells out its proposition: words that hold no
underscore, each closed by one. `Formula.ofFactName?` reads such a name back. It stops where the name
ends, whatever follows, so that different propositions have different names and no name starts
another one.
-/

namespace ProofScript

/-! ## Propositions of a document -/

/-- The proposition without its places, and without the predicate arguments that have no effect. -/
def Formula.bare : Formula → Formula
  | .hole => .hole
  | .atom name args _ => .atom name (args.take 1) ⟨0, 0⟩
  | .neg a _ => .neg a.bare ⟨0, 0⟩
  | .conj a b _ => .conj a.bare b.bare ⟨0, 0⟩
  | .disj a b _ => .disj a.bare b.bare ⟨0, 0⟩
  | .impl a b _ => .impl a.bare b.bare ⟨0, 0⟩
  | .all vars a _ => .all vars a.bare ⟨0, 0⟩

/-- The propositions in an argument. -/
def Argument.formulas : Argument → List Formula
  | .fact _ _ => []
  | .prop f => f.subformulas

mutual

/-- The propositions in a proof, with all parts of them. -/
def Proof.formulas : Proof → List Formula
  | .mk s _ => s.formulas

/-- The propositions in steps. -/
def Steps.formulas : Steps → List Formula
  | .last s => s.formulas
  | .conclude j _ => j.formulas
  | .more s rest => s.formulas ++ rest.formulas

/-- The propositions in a statement. -/
def Statement.formulas : Statement → List Formula
  | .missing => []
  | .step c j _ => c.formula.subformulas ++ j.formulas
  | .block b => b.formulas

/-- The propositions in a justification. -/
def Justification.formulas : Justification → List Formula
  | .missing => []
  | .apply _ args _ => args.flatMap Argument.formulas
  | .block b => b.formulas

/-- The propositions in a block. -/
def Block.formulas : Block → List Formula
  | .assume hyps p _ => hyps.flatMap (·.formula.subformulas) ++ p.formulas
  | .generalize _ p _ => p.formulas

end

/-- The propositions in a document: claims, hypotheses and arguments, with all parts of them. -/
def Document.formulas (d : Document) : List Formula :=
  d.theorems.flatMap fun t => t.claim.formula.subformulas ++ t.proof.formulas

theorem Formula.Spelled.subformulas {f : Formula} (h : f.Spelled) :
    ∀ g ∈ f.subformulas, g.Spelled := by
  induction f with
  | hole => exact h.elim
  | atom name args loc => exact List.forall_mem_singleton.mpr h
  | neg a _ ih => exact List.forall_mem_cons.mpr ⟨h, ih h⟩
  | conj a b _ iha ihb | disj a b _ iha ihb | impl a b _ iha ihb =>
    exact List.forall_mem_cons.mpr ⟨h, List.forall_mem_append.mpr ⟨iha h.1, ihb h.2⟩⟩
  | all vars a _ ih => exact List.forall_mem_cons.mpr ⟨h, ih h.2⟩

mutual

theorem Proof.Spelled.formulas {systemF : Bool} :
    (p : Proof) → p.Spelled systemF → ∀ f ∈ p.formulas, f.Spelled
  | .mk s _, h => Steps.Spelled.formulas s h

theorem Steps.Spelled.formulas {systemF : Bool} :
    (st : Steps) → st.Spelled systemF → ∀ f ∈ st.formulas, f.Spelled
  | .last s, h => Statement.Spelled.formulas s h
  | .conclude j _, h => Justification.Spelled.formulas j h
  | .more s rest, h =>
    List.forall_mem_append.mpr ⟨Statement.Spelled.formulas s h.1, Steps.Spelled.formulas rest h.2⟩

theorem Statement.Spelled.formulas {systemF : Bool} :
    (s : Statement) → s.Spelled systemF → ∀ f ∈ s.formulas, f.Spelled
  | .missing, _ => by simp [Statement.formulas]
  | .step c j _, h => by
    refine List.forall_mem_append.mpr ⟨?_, Justification.Spelled.formulas j h.2⟩
    rcases h.1 with hhole | hspelled
    · obtain ⟨_, f, _⟩ := c
      cases f with
      | hole => simp [Formula.subformulas]
      | _ => cases hhole
    · exact hspelled.1.subformulas
  | .block b, h => Block.Spelled.formulas b h

theorem Justification.Spelled.formulas {systemF : Bool} :
    (j : Justification) → j.Spelled systemF → ∀ f ∈ j.formulas, f.Spelled
  | .missing, _ => by simp [Justification.formulas]
  | .apply _ args _, h => by
    intro f hf
    rcases List.mem_flatMap.mp hf with ⟨a, ha, hf⟩
    have hspelled := h a ha
    cases a with
    | fact => cases hf
    | prop g => exact hspelled.1.subformulas f hf
  | .block b, h => Block.Spelled.formulas b h

theorem Block.Spelled.formulas {systemF : Bool} :
    (b : Block) → b.Spelled systemF → ∀ f ∈ b.formulas, f.Spelled
  | .assume hyps p _, h => by
    refine List.forall_mem_append.mpr ⟨?_, Proof.Spelled.formulas p h.2⟩
    intro f hf
    rcases List.mem_flatMap.mp hf with ⟨c, hc, hf⟩
    exact (h.1 c hc).1.subformulas f hf
  | .generalize _ p _, h => Proof.Spelled.formulas p h.2

end

/-- The propositions of a document that was read are spelled as they should be. -/
theorem formulas_spelled {src : List UInt8} {systemF : Bool} {d : Document}
    (h : parse src systemF = .ok d) : ∀ f ∈ d.formulas, f.Spelled := by
  intro f hf
  rcases List.mem_flatMap.mp hf with ⟨t, ht, hf⟩
  have hspelled := theorems_spelled h t ht
  rcases List.mem_append.mp hf with hf | hf
  · exact hspelled.1.1.subformulas f hf
  · exact Proof.Spelled.formulas t.proof hspelled.2 f hf

/-! ## Reading names -/

/-- The word in front of the first underscore, and what follows the underscore. -/
def readWord (cs : List Char) : Option (List Char × List Char) :=
  match cs.dropWhile (· ≠ '_') with
  | [] => none
  | _ :: rest => some (cs.takeWhile (· ≠ '_'), rest)

/-- Words up to an empty one, at most `n`, and what follows. -/
def readWords : Nat → List Char → Option (List (List Char) × List Char)
  | 0, _ => none
  | n + 1, cs => do
    let (word, rest) ← readWord cs
    if word.isEmpty then return ([], rest)
    else
      let (words, rest) ← readWords n rest
      return (word :: words, rest)

/-- The characters of an atom after the first. A dollar sign marks an upper-case letter or, in front
of another one, an underscore; at the end it only tells the atom from a connective. -/
def decodeChars : List Char → List Char
  | [] => []
  | '$' :: [] => []
  | '$' :: c :: rest => (if c = '$' then '_' else c.toUpper) :: decodeChars rest
  | c :: rest => c :: decodeChars rest

/-- The atom that a word stands for. -/
def decodeAtom : List Char → String
  | [] => ""
  | c :: rest => String.ofList (c.toUpper :: decodeChars rest)

/-- The binary connective of a word. -/
def connective? (word : List Char) : Option (Formula → Formula → Location → Formula) :=
  if word = "and".toList then some .conj
  else if word = "or".toList then some .disj
  else if word = "impl".toList then some .impl
  else none

/-- The proposition that the characters spell, to a depth, and what follows. -/
def readFact : Nat → List Char → Option (Formula × List Char)
  | 0, _ => none
  | n + 1, cs => do
    let (word, rest) ← readWord cs
    match connective? word with
    | some connect =>
      let (a, rest) ← readFact n rest
      let (b, rest) ← readFact n rest.tail
      return (connect a b ⟨0, 0⟩, rest.tail)
    | none =>
      if word = "not".toList then
        let (a, rest) ← readFact n rest
        return (.neg a ⟨0, 0⟩, rest.tail)
      else if word = "apply".toList then
        let (name, rest) ← readWord rest
        let (arg, rest) ← readWord rest
        return (.atom (decodeAtom name) [decodeAtom arg] ⟨0, 0⟩, rest)
      else if word = "forall".toList then
        let (vars, rest) ← readWords cs.length rest
        let (a, rest) ← readFact n rest
        return (.all (vars.map decodeAtom) a ⟨0, 0⟩, rest.tail)
      else return (.atom (decodeAtom word) [] ⟨0, 0⟩, rest)

/-- The proposition of a name, without its places. -/
def Formula.ofFactName? (name : String) : Option Formula :=
  (readFact name.toList.length name.toList).map Prod.fst

/-! ## Atoms -/

/-- A type variable starts with an upper-case letter and holds no dollar sign. -/
theorem IsTypeVar.toList_eq {s : String} (h : IsTypeVar s) :
    ∃ c cs, s.toList = c :: cs ∧ c.isUpper = true ∧ '$' ∉ cs := by
  rcases h with ⟨b, w, hb, hw, rfl⟩
  have hupper : ∀ b : UInt8, isUpperByte b = false ∨ (Char.ofNat b.toNat).isUpper = true :=
    forall_byte (by decide +kernel)
  have hsign : ∀ b : UInt8, isWordByte b = false ∨ Char.ofNat b.toNat ≠ '$' :=
    forall_byte (by decide +kernel)
  have hascii : ∀ x ∈ b :: w, x < 0x80 := by
    refine List.forall_mem_cons.mpr ⟨ascii_of_word (isWordByte_of_upper hb), ?_⟩
    exact fun x hx => ascii_of_word (hw x hx)
  refine ⟨Char.ofNat b.toNat, w.map fun x => Char.ofNat x.toNat, ?_, ?_, ?_⟩
  · rw [Text.ofBytes, String.toList_ofList, Text.decode, Text.decodeUpTo_ascii hascii, List.map_cons]
  · simpa [hb] using hupper b
  · intro hmem
    rcases List.mem_map.mp hmem with ⟨x, hx, heq⟩
    simpa [hw x hx, heq] using hsign x

/-- The lower-case letter of an upper-case one leads back to it, and is no sign. -/
theorem toLower_of_isUpper {c : Char} (h : c.isUpper = true) :
    c.toLower.toUpper = c ∧ c.toLower ≠ '$' ∧ c.toLower ≠ '_' := by
  have hall : ∀ n < 128, (Char.ofNat n).isUpper = true →
      (Char.ofNat n).toLower.toUpper = Char.ofNat n ∧ (Char.ofNat n).toLower ≠ '$' ∧
        (Char.ofNat n).toLower ≠ '_' := by
    decide +kernel
  have hlt : c.toNat < 128 := by
    have hle : c.toNat ≤ 90 := (of_decide_eq_true h).2
    omega
  have hc := hall c.toNat hlt
  rw [Char.ofNat_toNat] at hc
  exact hc h

theorem not_mem_encodeChar (c : Char) : '_' ∉ encodeChar c := by
  unfold encodeChar
  split
  · rename_i hupper
    have hne := (toLower_of_isUpper hupper).2.2
    simp [hne.symm]
  split
  · simp
  · rename_i hne
    simpa using fun h => hne h.symm

/-- Reading the characters of an atom undoes encoding them, whether a mark follows or not. -/
theorem decodeChars_append {cs : List Char} (h : '$' ∉ cs) {mark : List Char}
    (hmark : mark = [] ∨ mark = ['$']) : decodeChars (cs.flatMap encodeChar ++ mark) = cs := by
  induction cs with
  | nil => rcases hmark with rfl | rfl <;> rfl
  | cons c cs ih =>
    have hne : c ≠ '$' := fun heq => h (by simp [heq])
    have hcs := ih fun hmem => h (List.mem_cons_of_mem _ hmem)
    rw [List.flatMap_cons, List.append_assoc]
    by_cases hupper : c.isUpper = true
    · obtain ⟨hback, hsign, -⟩ := toLower_of_isUpper hupper
      simp [encodeChar, hupper, decodeChars, hsign, hback, hcs]
    by_cases hunder : c = '_'
    · simp [encodeChar, hunder, decodeChars, hcs]
    · simp [encodeChar, hupper, hunder, decodeChars, hne, hcs]

/-- An atom is encoded as a word without underscores that is not empty and no word for a connective,
and reading the word gives the atom back. -/
theorem encodeAtom_spec {name : String} (h : IsTypeVar name) :
    '_' ∉ (encodeAtom name).toList ∧ encodeAtom name ≠ "" ∧
      encodeAtom name ∉ connectiveWords ∧ decodeAtom (encodeAtom name).toList = name := by
  obtain ⟨c, cs, hname, hupper, hsign⟩ := h.toList_eq
  obtain ⟨hback, -, hunder⟩ := toLower_of_isUpper hupper
  have hchars : encodeChars name.toList = c.toLower :: cs.flatMap encodeChar := by
    simp [hname, encodeChars, hupper]
  have hclean : '_' ∉ c.toLower :: cs.flatMap encodeChar := by
    simp only [List.mem_cons, List.mem_flatMap, not_or, not_exists, not_and]
    exact ⟨hunder.symm, fun x _ => not_mem_encodeChar x⟩
  have hdecode : ∀ mark, mark = [] ∨ mark = ['$'] →
      decodeAtom (c.toLower :: cs.flatMap encodeChar ++ mark) = name := by
    intro mark hmark
    rw [List.cons_append, decodeAtom, hback, decodeChars_append hsign hmark, ← hname,
      String.ofList_toList]
  unfold encodeAtom
  rw [hchars]
  dsimp only
  split
  · rename_i hmem
    refine ⟨?_, ?_, ?_, ?_⟩
    · simpa using hclean
    · simp
    · simp only [connectiveWords, List.mem_cons, List.not_mem_nil, or_false] at hmem
      rcases hmem with hmem | hmem | hmem | hmem | hmem | hmem
      all_goals
        rw [hmem]
        decide
    · simpa using hdecode ['$'] (.inr rfl)
  · rename_i hmem
    refine ⟨by simpa using hclean, by simp, hmem, by simpa using hdecode [] (.inl rfl)⟩

/-! ## Reading back -/

theorem readWord_append {word rest : List Char} (h : '_' ∉ word) :
    readWord (word ++ '_' :: rest) = some (word, rest) := by
  have hword : ∀ c ∈ word, (decide (c ≠ '_')) = true := by
    intro c hc
    simpa using fun heq : c = '_' => h (heq ▸ hc)
  unfold readWord
  rw [List.dropWhile_append_of_pos hword, List.takeWhile_append_of_pos hword]
  simp

theorem readWord_encodeAtom {name : String} (h : IsTypeVar name) (rest : List Char) :
    readWord ((encodeAtom name).toList ++ '_' :: rest) = some ((encodeAtom name).toList, rest) :=
  readWord_append (encodeAtom_spec h).1

theorem readWords_append {vars : List String} (h : ∀ v ∈ vars, IsTypeVar v) {n : Nat}
    (hn : vars.length < n) (rest : List Char) :
    readWords n (vars.flatMap (fun v => (encodeAtom v).toList ++ ['_']) ++ '_' :: rest) =
      some (vars.map fun v => (encodeAtom v).toList, rest) := by
  induction vars generalizing n with
  | nil =>
    obtain ⟨m, rfl⟩ : ∃ m, n = m + 1 := ⟨n - 1, by simp only [List.length_nil] at hn; omega⟩
    have hempty : readWord ('_' :: rest) = some ([], rest) := @readWord_append [] rest (by simp)
    simp [readWords, hempty]
  | cons v vars ih =>
    simp only [List.length_cons] at hn
    obtain ⟨m, rfl⟩ : ∃ m, n = m + 1 := ⟨n - 1, by omega⟩
    have hv := h v (by simp)
    have hrest := ih (fun w hw => h w (by simp [hw])) (n := m) (by omega)
    have hne := (encodeAtom_spec hv).2.1
    simp only [List.flatMap_cons, List.append_assoc, List.cons_append, List.nil_append]
    simp [readWords, readWord_encodeAtom hv, hne, hrest]

theorem length_le_length_flatMap (vars : List String) :
    vars.length ≤ (vars.flatMap fun v => (encodeAtom v).toList ++ ['_']).length := by
  induction vars with
  | nil => simp
  | cons v vars ih =>
    simp only [List.flatMap_cons, List.length_append, List.length_cons, List.length_nil]
    omega

/-- A word for an atom is none for a connective. -/
theorem encodeAtom_ne {name : String} (h : IsTypeVar name) (word : String)
    (hword : word ∈ connectiveWords) :
    (encodeAtom name).toList ≠ word.toList := by
  intro heq
  rw [String.toList_inj] at heq
  exact (encodeAtom_spec h).2.2.1 (heq ▸ hword)

theorem connective?_encodeAtom {name : String} (h : IsTypeVar name) :
    connective? (encodeAtom name).toList = none := by
  unfold connective?
  rw [if_neg (encodeAtom_ne h "and" (by decide)), if_neg (encodeAtom_ne h "or" (by decide)),
    if_neg (encodeAtom_ne h "impl" (by decide))]

variable {a b : Formula} {as bs : List Char} {n : Nat} (rest : List Char)

/-- An atom is read as a single word. -/
theorem readFact_atom {name : String} (h : IsTypeVar name) :
    readFact (n + 1) ((encodeAtom name).toList ++ '_' :: rest) =
      some (.atom name [] ⟨0, 0⟩, rest) := by
  have hnot := encodeAtom_ne h "not" (by decide)
  have happly := encodeAtom_ne h "apply" (by decide)
  have hforall := encodeAtom_ne h "forall" (by decide)
  rw [readFact, readWord_encodeAtom h]
  simp only [Option.bind_eq_bind, Option.bind_some, connective?_encodeAtom h, if_neg hnot,
    if_neg happly, if_neg hforall, (encodeAtom_spec h).2.2.2]
  rfl

/-- A predicate is read with its argument. -/
theorem readFact_apply {name arg : String} (h : IsTypeVar name) (harg : IsTypeVar arg) :
    readFact (n + 1)
      ("apply".toList ++ '_' :: ((encodeAtom name).toList ++ '_' ::
        ((encodeAtom arg).toList ++ '_' :: rest))) =
      some (.atom name [arg] ⟨0, 0⟩, rest) := by
  have hconnective : connective? "apply".toList = none := by decide
  have hnot : "apply".toList ≠ "not".toList := by decide
  rw [readFact, readWord_append (by decide)]
  -- The characters of the word would be computed at every rewriting.
  generalize "apply".toList = word at *
  simp only [Option.bind_eq_bind, Option.bind_some, hconnective, if_neg hnot, if_true,
    readWord_encodeAtom h, readWord_encodeAtom harg, (encodeAtom_spec h).2.2.2,
    (encodeAtom_spec harg).2.2.2]
  rfl

/-- A negation is read with its operand. -/
theorem readFact_neg (ha : ∀ rest, readFact n (as ++ rest) = some (a, rest)) :
    readFact (n + 1) ("not".toList ++ '_' :: (as ++ '_' :: rest)) =
      some (.neg a ⟨0, 0⟩, rest) := by
  have hconnective : connective? "not".toList = none := by decide
  rw [readFact, readWord_append (by decide)]
  generalize "not".toList = word at *
  simp only [Option.bind_eq_bind, Option.bind_some, hconnective, if_true, ha, List.tail_cons]
  rfl

/-- A binary connective is read with its operands. -/
theorem readFact_binary (word : String) (connect : Formula → Formula → Location → Formula)
    (hconnect : connective? word.toList = some connect) (hword : '_' ∉ word.toList)
    (ha : ∀ rest, readFact n (as ++ rest) = some (a, rest))
    (hb : ∀ rest, readFact n (bs ++ rest) = some (b, rest)) :
    readFact (n + 1) (word.toList ++ '_' :: (as ++ '_' :: (bs ++ '_' :: rest))) =
      some (connect a b ⟨0, 0⟩, rest) := by
  rw [readFact, readWord_append hword]
  simp only [Option.bind_eq_bind, Option.bind_some, hconnect, ha, hb, List.tail_cons]
  rfl

/-- A quantifier is read with its variables, which an empty word closes. -/
theorem readFact_all {vars : List String} (h : ∀ v ∈ vars, IsTypeVar v)
    (ha : ∀ rest, readFact n (as ++ rest) = some (a, rest)) :
    readFact (n + 1) ("forall".toList ++ '_' ::
        (vars.flatMap (fun v => (encodeAtom v).toList ++ ['_']) ++ '_' :: (as ++ '_' :: rest))) =
      some (.all vars a ⟨0, 0⟩, rest) := by
  have hlength := length_le_length_flatMap vars
  have hatoms : vars.map (fun v => decodeAtom (encodeAtom v).toList) = vars := by
    nth_rewrite 2 [← List.map_id vars]
    exact List.map_congr_left fun v hv => (encodeAtom_spec (h v hv)).2.2.2
  have hconnective : connective? "forall".toList = none := by decide
  have hnot : "forall".toList ≠ "not".toList := by decide
  have happly : "forall".toList ≠ "apply".toList := by decide
  rw [readFact, readWord_append (by decide)]
  generalize "forall".toList = word at *
  simp only [Option.bind_eq_bind, Option.bind_some]
  rw [readWords_append h]
  · simp only [hconnective, if_neg hnot, if_neg happly, if_true, Option.bind_some, ha, List.tail_cons,
      List.map_map, Function.comp_def, hatoms]
    rfl
  · simp only [List.length_append, List.length_cons]
    omega

/-- How deep the connectives of a proposition are nested. -/
def Formula.height : Formula → Nat
  | .hole => 0
  | .atom .. => 1
  | .neg a _ => a.height + 1
  | .conj a b _ => max a.height b.height + 1
  | .disj a b _ => max a.height b.height + 1
  | .impl a b _ => max a.height b.height + 1
  | .all _ a _ => a.height + 1

theorem Formula.height_le_length (f : Formula) : f.height ≤ f.factName.toList.length := by
  induction f with
  | hole => simp [Formula.height]
  | atom name args loc =>
    cases args with
    | nil => simp [Formula.height, Formula.factName]
    | cons arg args =>
      simp only [Formula.height, Formula.factName, String.toList_append, List.length_append]
      have hunder : "_".toList.length = 1 := rfl
      omega
  | neg a _ ih | all vars a _ ih =>
    simp only [Formula.height, Formula.factName, String.toList_append, List.length_append]
    have hunder : "_".toList.length = 1 := rfl
    omega
  | conj a b _ iha ihb | disj a b _ iha ihb | impl a b _ iha ihb =>
    simp only [Formula.height, Formula.factName, String.toList_append, List.length_append]
    have hunder : "_".toList.length = 1 := rfl
    omega

/-- The name of a proposition reads as the proposition, whatever follows the name. -/
theorem readFact_append {f : Formula} (h : f.Spelled) {n : Nat} (hn : f.height ≤ n)
    (rest : List Char) : readFact n (f.factName.toList ++ rest) = some (f.bare, rest) := by
  induction n generalizing f rest with
  | zero =>
    cases f with
    | hole => exact h.elim
    | _ => simp [Formula.height] at hn
  | succ n ih =>
    cases f with
    | hole => exact h.elim
    | atom name args loc =>
      cases args with
      | nil => simpa [Formula.factName, Formula.bare] using readFact_atom rest h.1
      | cons arg args =>
        have hread := readFact_apply (n := n) rest h.1 (h.2 arg (by simp))
        simpa [Formula.factName, Formula.bare] using hread
    | neg a loc =>
      have hread := readFact_neg rest (ih (f := a) h (Nat.le_of_succ_le_succ hn))
      simpa [Formula.factName, Formula.bare] using hread
    | conj a b loc =>
      obtain ⟨ha, hb⟩ := Nat.max_le.mp (Nat.le_of_succ_le_succ hn)
      have hread := readFact_binary rest "and" .conj rfl (by decide)
        (ih h.1 ha) (ih h.2 hb)
      simpa [Formula.factName, Formula.bare] using hread
    | disj a b loc =>
      obtain ⟨ha, hb⟩ := Nat.max_le.mp (Nat.le_of_succ_le_succ hn)
      have hread := readFact_binary rest "or" .disj rfl (by decide)
        (ih h.1 ha) (ih h.2 hb)
      simpa [Formula.factName, Formula.bare] using hread
    | impl a b loc =>
      obtain ⟨ha, hb⟩ := Nat.max_le.mp (Nat.le_of_succ_le_succ hn)
      have hread := readFact_binary rest "impl" .impl rfl (by decide)
        (ih h.1 ha) (ih h.2 hb)
      simpa [Formula.factName, Formula.bare] using hread
    | all vars a loc =>
      have hread := readFact_all rest h.1 (ih h.2 (Nat.le_of_succ_le_succ hn))
      simpa [Formula.factName, Formula.bare, Function.comp_def, List.flatMap_map] using hread

theorem ofFactName?_factName {f : Formula} (h : f.Spelled) :
    Formula.ofFactName? f.factName = some f.bare := by
  have hread := readFact_append h f.height_le_length []
  rw [List.append_nil] at hread
  rw [Formula.ofFactName?, hread]
  rfl

/-- Names depend neither on places nor on predicate arguments after the first. -/
theorem Formula.factName_bare (f : Formula) : f.bare.factName = f.factName := by
  induction f with
  | hole => rfl
  | atom name args loc =>
    cases args with
    | nil => rfl
    | cons arg args => rfl
  | neg a _ ih => simp [Formula.bare, Formula.factName, ih]
  | conj a b _ iha ihb | disj a b _ iha ihb | impl a b _ iha ihb =>
    simp [Formula.bare, Formula.factName, iha, ihb]
  | all vars a _ ih => simp [Formula.bare, Formula.factName, ih]

/-- Propositions that can be read have the same name only if they are the same up to places and
further predicate arguments. -/
theorem bare_eq_of_factName_eq {f g : Formula} (hf : f.Spelled) (hg : g.Spelled)
    (h : f.factName = g.factName) : f.bare = g.bare := by
  have hread := ofFactName?_factName hf
  rw [h, ofFactName?_factName hg] at hread
  exact (Option.some.inj hread).symm

/-- A name that starts another one is the other one. -/
theorem factName_eq_of_isPrefix {f g : Formula} (hf : f.Spelled) (hg : g.Spelled)
    (h : f.factName.toList <+: g.factName.toList) : f.factName = g.factName := by
  obtain ⟨rest, hrest⟩ := h
  have hreadf := readFact_append hf (Nat.le_max_left f.height g.height) rest
  have hreadg := readFact_append hg (Nat.le_max_right f.height g.height) []
  rw [hrest, ← List.append_nil g.factName.toList, hreadg] at hreadf
  have hsame := Option.some.inj hreadf
  rw [← f.factName_bare, ← g.factName_bare, (Prod.mk.inj hsame).1]

/-- For any two propositions of documents that were read, in either mode: they have the same name
exactly if they are the same up to places and predicate arguments after the first, neither name
starts the other, and the name can be read back. -/
theorem factName_eq_iff {src src' : List UInt8} {systemF systemF' : Bool} {d d' : Document}
    (hd : parse src systemF = .ok d) (hd' : parse src' systemF' = .ok d') {f g : Formula}
    (hf : f ∈ d.formulas) (hg : g ∈ d'.formulas) :
    (f.factName = g.factName ↔ f.bare = g.bare) ∧
      (f.factName.toList <+: g.factName.toList → f.factName = g.factName) ∧
      Formula.ofFactName? f.factName = some f.bare := by
  have hf := formulas_spelled hd f hf
  have hg := formulas_spelled hd' g hg
  refine ⟨⟨bare_eq_of_factName_eq hf hg, ?_⟩, factName_eq_of_isPrefix hf hg,
    ofFactName?_factName hf⟩
  intro hsame
  rw [← f.factName_bare, hsame, g.factName_bare]

/-- Two propositions that differ in a second predicate argument share their name. -/
theorem factName_eq_iff_arguments :
    ∃ d d' f g, parse (Text.bytes "theorem t : ~And & P[X, Y] by sorry;") true = .ok d ∧
      parse (Text.bytes "theorem t : ~And & P[X, Z] by sorry;") true = .ok d' ∧
      f ∈ d.formulas ∧ g ∈ d'.formulas ∧ f ≠ g ∧ f.factName = g.factName ∧
      Formula.ofFactName? f.factName = some f.bare := by
  generalize hsrc : Text.bytes "theorem t : ~And & P[X, Y] by sorry;" = src
  generalize hsrc' : Text.bytes "theorem t : ~And & P[X, Z] by sorry;" = src'
  have hfirst : (parse src true).toOption.any (fun d => d.formulas.head? = some (.conj
      (.neg (.atom "And" [] ⟨1, 14⟩) ⟨1, 13⟩) (.atom "P" ["X", "Y"] ⟨1, 20⟩) ⟨1, 13⟩)) = true := by
    rw [← hsrc]
    decide +kernel
  have hfirst' : (parse src' true).toOption.any (fun d => d.formulas.head? = some (.conj
      (.neg (.atom "And" [] ⟨1, 14⟩) ⟨1, 13⟩) (.atom "P" ["X", "Z"] ⟨1, 20⟩) ⟨1, 13⟩)) = true := by
    rw [← hsrc']
    decide +kernel
  obtain ⟨d, h, hhead⟩ := exists_ok_of_any hfirst
  obtain ⟨d', h', hhead'⟩ := exists_ok_of_any hfirst'
  have hf := List.mem_of_head? (of_decide_eq_true hhead)
  have hg := List.mem_of_head? (of_decide_eq_true hhead')
  have hnames := factName_eq_iff h h' hf hg
  exact ⟨d, d', _, _, h, h', hf, hg, by decide, hnames.1.mpr rfl, hnames.2.2⟩

end ProofScript
