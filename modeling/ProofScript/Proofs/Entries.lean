import ProofScript.Proofs.Reader.Places
import ProofScript.Proofs.Stateful
import ProofScript.Symbols

/-!
# Entries of symbol tables

Building a symbol table meets every rule, every name among arguments and every name of a claim once,
so that a table has one entry for each of these names. They are tokens of the script, which stand
apart. So the ranges of the entries cover what is written for them, no two have a position in
common, and a position on one of these names leads to its entry and to no other.
-/

namespace ProofScript

open Text

/-! ## Ranges of names -/

/-- The bytes of the range stand on one line of the script and spell the name. -/
def TextRange.Spells (src : List UInt8) (r : TextRange) (name : String) : Prop :=
  ∃ (i j : Nat) (line : List UInt8), (byteLines src)[i]? = some line ∧ bytes name ≠ [] ∧
    r = ⟨⟨i, j⟩, ⟨i, j + (bytes name).length⟩⟩ ∧ (line.drop j).take (bytes name).length = bytes name

/-- The names that symbol tables are about: those of rules, of arguments and of claims. -/
def Document.named (d : Document) : List Occurrence := d.occurrences.filter (·.role ≠ .atom)

/-- What a symbol table says of a name. -/
structure Entry where
  role : NameRole
  name : String
  range : TextRange
deriving DecidableEq, Repr

namespace Occurrence

/-- The entry of a name. -/
def entry (o : Occurrence) : Entry := ⟨o.role, o.name, o.loc.nameRange o.name⟩

theorem spelling_token (o : Occurrence) : o.token.spelling = o.name := by
  unfold Token.spelling token
  split <;> simp

/-- The range of a name that is a token starts at its place and ends behind its bytes. -/
theorem range_entry {o : Occurrence} (h : o.token.Solid) : o.entry.range =
    ⟨⟨o.loc.line - 1, o.loc.column - 1⟩,
      ⟨o.loc.line - 1, o.loc.column - 1 + (bytes o.name).length⟩⟩ := by
  obtain ⟨⟨hline, hcolumn⟩, htaken⟩ := h
  rw [spelling_token] at htaken
  have hpos := List.length_pos_iff.mpr htaken
  have hline : 1 ≤ o.loc.line := hline
  have hcolumn : 1 ≤ o.loc.column := hcolumn
  have hsize : o.name.utf8ByteSize = (bytes o.name).length := by
    rw [bytes_eq]
    rfl
  simp only [entry, Location.nameRange, Location.toPosition, hsize, TextRange.mk.injEq,
    TextPosition.mk.injEq]
  omega

variable {src : List UInt8} {o : Occurrence}

/-- A position lies in the range of a name exactly if it lies on the token. -/
theorem contains_entry (h : o.token.Solid) (p : TextPosition) :
    o.entry.range.contains p = true ↔ o.token.On p := by
  have hloc : o.token.loc = o.loc := rfl
  rw [range_entry h]
  simp only [TextRange.contains, Token.On, Token.stop, Location.advance, spelling_token, hloc]
  split
  · simp only [Bool.false_eq_true, false_iff]
    omega
  split
  · simp only [Bool.false_eq_true, false_iff]
    omega
  simp only [Bool.not_eq_true', decide_eq_false_iff_not]
  omega

/-- The range of a name spells it. -/
theorem spells_entry (h : o.token.Solid) (hseen : o.token.Seen src) :
    o.entry.range.Spells src o.name := by
  obtain ⟨line, ls, ⟨i, j, whole, hloc, hwhole, -, hahead⟩, ⟨after, hline, -, -⟩, -⟩ := hseen
  have hloc : o.loc = ⟨i + 1, j + 1⟩ := hloc
  have htaken := h.taken
  rw [spelling_token] at htaken hline
  refine ⟨i, j, whole, hwhole, htaken, ?_, ?_⟩
  · rw [range_entry h, hloc, Int.add_sub_cancel, Int.add_sub_cancel]
  · rw [← (List.cons.inj hahead).1, hline, List.take_left]

end Occurrence

namespace SymbolTable

/-! ## Visiting a document -/

/-- What a reference says of its name. -/
def referenceEntry (r : Reference) : Entry := ⟨.use, r.name, r.range⟩

/-- What a binding says of its name. -/
def bindingEntry (b : Binding) : Entry := ⟨.binder, b.name, b.range⟩

/-- The entries of the names that are there for something. -/
def entriesOf (role : NameRole) (os : List Occurrence) : List Entry :=
  (occurrencesOf role os).map Occurrence.entry

@[simp]
theorem entriesOf_append (role : NameRole) (os os' : List Occurrence) :
    entriesOf role (os ++ os') = entriesOf role os ++ entriesOf role os' := by
  rw [entriesOf, occurrencesOf_append, List.map_append, entriesOf, entriesOf]

/-- Building passes the names: it notes every use, in order, and binds every name of a claim. -/
structure Passes (t t' : SymbolTable) (os : List Occurrence) : Prop where
  uses : t'.references.map referenceEntry = t.references.map referenceEntry ++ entriesOf .use os
  binders : (t'.bindings.map bindingEntry).Perm
    (t.bindings.map bindingEntry ++ entriesOf .binder os)

namespace Passes

variable {t mid t' : SymbolTable} {os os' : List Occurrence}

theorem refl (t : SymbolTable) : Passes t t [] :=
  ⟨(List.append_nil _).symm, .of_eq (List.append_nil _).symm⟩

theorem trans (h : Passes t mid os) (h' : Passes mid t' os') : Passes t t' (os ++ os') := by
  refine ⟨?_, ?_⟩
  · rw [h'.uses, h.uses, entriesOf_append, List.append_assoc]
  · rw [entriesOf_append, ← List.append_assoc]
    exact h'.binders.trans (h.binders.append_right _)

/-- Names that are no uses may be passed behind those that stand behind them. -/
theorem behind (h : Passes t mid os) (h' : Passes mid t' os') (hos : entriesOf .use os' = []) :
    Passes t t' (os' ++ os) := by
  obtain ⟨huses, hbinders⟩ := h.trans h'
  refine ⟨?_, ?_⟩
  · rw [huses, entriesOf_append, entriesOf_append, hos, List.append_nil, List.nil_append]
  · rw [entriesOf_append] at hbinders ⊢
    exact hbinders.trans (List.perm_append_comm.append_left _)

end Passes

theorem entriesOf_formula {role : NameRole} (hrole : role ≠ .atom) (f : Formula) :
    entriesOf role f.occurrences = [] := by
  rw [entriesOf, occurrencesOf_formula, if_neg hrole, List.map_nil]

theorem entriesOf_use_claim (c : Claim) : entriesOf .use c.occurrences = [] := by
  simp [entriesOf, Claim.occurrences]

theorem bind_passes (c : Claim) (kind : BindingKind) (b : Builder) :
    Passes b.table (bind c kind b).2.table c.occurrences := by
  have hbinders : entriesOf .binder c.occurrences = c.binders.map Occurrence.entry := by
    simp [entriesOf, Claim.occurrences]
  unfold bind
  refine ⟨?_, ?_⟩
  · rw [entriesOf_use_claim, List.append_nil]
    cases c.name <;> rfl
  · rw [hbinders, Claim.binders]
    cases c.name with
    | none => exact .of_eq (List.append_nil _).symm
    | some name => exact .of_eq List.map_append

theorem bindAll_passes (hyps : List Claim) (b : Builder) :
    Passes b.table (bindAll hyps b).2.table (hyps.flatMap Claim.occurrences) := by
  induction hyps generalizing b with
  | nil => exact .refl b.table
  | cons h rest ih => exact (bind_passes h .hypothesis b).trans (ih _)

theorem refer_passes (name : String) (loc : Location) (b : Builder) :
    Passes b.table (refer name loc b).2.table [⟨.use, name, loc⟩] :=
  ⟨List.map_append, .of_eq (List.append_nil _).symm⟩

theorem referAll_passes (args : List Argument) (b : Builder) :
    Passes b.table (referAll args b).2.table (args.flatMap Argument.occurrences) := by
  induction args generalizing b with
  | nil => exact .refl b.table
  | cons a rest ih =>
    cases a with
    | fact name loc => exact (refer_passes name loc b).trans (ih _)
    | prop f =>
      obtain ⟨huses, hbinders⟩ := ih b
      refine ⟨?_, ?_⟩
      all_goals
        rw [List.flatMap_cons, entriesOf_append, Argument.occurrences, entriesOf_formula (by simp)]
      · exact huses
      · exact hbinders

mutual

theorem proof_passes : (p : Proof) → (b : Builder) →
    Passes b.table (proof p b).2.table p.occurrences
  | .mk s _, b => steps_passes s { b with scopes := [] :: b.scopes }

theorem steps_passes : (st : Steps) → (b : Builder) →
    Passes b.table (steps st b).2.table st.occurrences
  | .last s, b => statement_passes s b
  | .conclude j _, b => justification_passes j b
  | .more s rest, b => (statement_passes s b).trans (steps_passes rest _)

theorem statement_passes : (st : Statement) → (b : Builder) →
    Passes b.table (statement st b).2.table st.occurrences
  | .missing, b => .refl b.table
  | .step c j _, b =>
    -- The claim stands in front of its justification and is bound behind it.
    (justification_passes j b).behind (bind_passes c .step _) (entriesOf_use_claim c)
  | .block bl, b => block_passes bl b

theorem justification_passes : (j : Justification) → (b : Builder) →
    Passes b.table (justification j b).2.table j.occurrences
  | .missing, b => .refl b.table
  | .apply rule args loc, b => (refer_passes rule loc b).trans (referAll_passes args _)
  | .block bl, b => block_passes bl b

theorem block_passes : (bl : Block) → (b : Builder) →
    Passes b.table (block bl b).2.table bl.occurrences
  | .assume hyps p _, b =>
    (bindAll_passes hyps { b with scopes := [] :: b.scopes }).trans (proof_passes p _)
  | .generalize _ p _, b => proof_passes p b

end

theorem theorems_passes (ts : List Theorem) (b : Builder) :
    Passes b.table (theorems ts b).2.table (ts.flatMap Theorem.occurrences) := by
  induction ts generalizing b with
  | nil => exact .refl b.table
  | cons t rest ih =>
    have hproof := proof_passes t.proof { b with container := t.claim.name }
    have hclaim := bind_passes t.claim .theorem_
      { (proof t.proof { b with container := t.claim.name }).2 with container := none }
    exact (hproof.behind hclaim (entriesOf_use_claim t.claim)).trans (ih _)

/-- The references of a document are its uses of names in order, and its bindings are the names of
its claims, each once. -/
theorem ofDocument_passes (d : Document) : Passes ⟨[], []⟩ (ofDocument d) d.occurrences :=
  theorems_passes d.theorems ⟨⟨[], []⟩, [[]], none⟩

/-! ## Entries -/

/-- The entries of a table, the references first. -/
def entries (t : SymbolTable) : List Hit :=
  t.references.map .reference ++ t.bindings.zipIdx.map fun (b, i) => .binding i b

/-- What an entry says of its name. -/
def Hit.entry : Hit → Entry
  | .reference r => referenceEntry r
  | .binding _ b => bindingEntry b

theorem entry_entries (t : SymbolTable) :
    t.entries.map Hit.entry = t.references.map referenceEntry ++ t.bindings.map bindingEntry := by
  rw [entries, List.map_append, List.map_map, List.map_map]
  congr 1
  calc t.bindings.zipIdx.map _ = (t.bindings.zipIdx.map Prod.fst).map bindingEntry := by
        rw [List.map_map]
        rfl
    _ = t.bindings.map bindingEntry := by rw [List.zipIdx_map_fst]

/-- What stands at a position is the first entry whose range the position lies in. -/
theorem at?_eq (t : SymbolTable) (p : TextPosition) :
    t.at? p = t.entries.find? (·.entry.range.contains p) := by
  rw [entries, List.find?_append, List.find?_map, List.find?_map, at?]
  have hreferences : t.references.find? (·.range.contains p) =
      t.references.find? ((·.entry.range.contains p) ∘ Hit.reference) := rfl
  rw [hreferences]
  cases t.references.find? ((·.entry.range.contains p) ∘ Hit.reference) with
  | some r => rfl
  | none => rfl

/-- Every name of a document that is no atom has one entry. -/
theorem entries_perm (d : Document) :
    ((ofDocument d).entries.map Hit.entry).Perm (d.named.map Occurrence.entry) := by
  obtain ⟨huses, hbinders⟩ := ofDocument_passes d
  rw [entry_entries, huses]
  refine ((List.Perm.refl _).append hbinders).trans ?_
  simp only [List.map_nil, List.nil_append, entriesOf, Document.named, ← List.map_append]
  refine List.Perm.map _ ?_
  have hsplit := List.filter_append_perm (fun o : Occurrence => o.role = .use) d.named
  rw [Document.named, List.filter_filter, List.filter_filter] at hsplit
  refine List.Perm.trans (.of_eq ?_) hsplit
  congr 1
  all_goals
    refine List.filter_congr fun o _ => ?_
    cases o.role <;> simp

/-- In a list where no two members pass a test together, the one that passes is found. -/
theorem find?_eq_some_of_pairwise {α : Type} {q : α → Bool} {l : List α} {x : α}
    (h : l.Pairwise fun x y => q x = true → ¬q y = true) :
    l.find? q = some x ↔ x ∈ l ∧ q x = true := by
  refine ⟨fun hx => ⟨List.mem_of_find?_eq_some hx, List.find?_some hx⟩, ?_⟩
  rintro ⟨hx, hq⟩
  induction h with
  | nil => cases hx
  | @cons y l hy _ ih =>
    rcases List.mem_cons.mp hx with rfl | hx
    · exact List.find?_cons_of_pos hq
    · rw [List.find?_cons_of_neg fun hqy => hy x hx hqy hq]
      exact ih hx

/-! ## Scripts -/

/-- The entries of a table are the rule names, the names among arguments and the names of claims of
a document, each at its token of the script, and looking at a position finds the name there. -/
structure Exact (src : List UInt8) (d : Document) (t : SymbolTable) : Prop where
  /-- There is one entry for each of the names. -/
  names : (t.entries.map Hit.entry).Perm (d.named.map Occurrence.entry)
  /-- The names are different tokens of the script. -/
  tokens : (d.named.map Occurrence.token).Sublist (TokenStream.ofSource src).tokens
  /-- No position lies in the ranges of two entries. -/
  disjoint : t.entries.Pairwise fun x y =>
    ∀ p, x.entry.range.contains p = true → ¬y.entry.range.contains p = true
  /-- A range stands on one line and covers the bytes of the name. -/
  spelled : ∀ x ∈ t.entries, x.entry.range.Spells src x.entry.name
  /-- An entry is found at the positions of its range. -/
  found : ∀ p x, t.at? p = some x ↔ x ∈ t.entries ∧ x.entry.range.contains p = true
  /-- What is found at a position is the entry of a name whose token the position lies on. -/
  on : ∀ p x, t.at? p = some x → ∃ o ∈ d.named, o.token.On p ∧ x.entry = o.entry
  /-- At every position on a name its entry is found, and no other entry has the position. -/
  hit : ∀ o ∈ d.named, ∀ p, o.token.On p →
    ∃ x, t.at? p = some x ∧ x.entry = o.entry ∧
      ∀ y ∈ t.entries, y.entry.range.contains p = true → y = x

/-- The symbol table of a script is exact. -/
theorem ofDocument_exact {src : List UInt8} {systemF : Bool} {d : Document}
    (h : parse src systemF = .ok d) : Exact src d (ofDocument d) := by
  have hnames := entries_perm d
  have hnamed : d.named.Sublist d.occurrences := List.filter_sublist
  have hsolid : ∀ o ∈ d.named, o.token.Solid := fun o ho =>
    TokenStream.ofSource_solid (mem_tokens_of_parse h (hnamed.subset ho))
  have hentry : ∀ x ∈ (ofDocument d).entries, ∃ o ∈ d.named, o.entry = x.entry := fun x hx =>
    List.mem_map.mp (hnames.subset (List.mem_map_of_mem hx))
  have hdisjoint : ((ofDocument d).entries.map Hit.entry).Pairwise fun x y =>
      ∀ p, x.range.contains p = true → ¬y.range.contains p = true := by
    refine (hnames.pairwise_iff ?_).mpr (List.pairwise_map.mpr ?_)
    · exact fun hxy p hy hx => hxy p hx hy
    · refine ((parse_apart h).sublist hnamed).imp_of_mem fun ho ho' hapart p hx hy => ?_
      exact hapart p ((Occurrence.contains_entry (hsolid _ ho) p).mp hx)
        ((Occurrence.contains_entry (hsolid _ ho') p).mp hy)
  have hdisjoint := List.pairwise_map.mp hdisjoint
  have hfound : ∀ p x, (ofDocument d).at? p = some x ↔
      x ∈ (ofDocument d).entries ∧ x.entry.range.contains p = true := fun p x => by
    rw [at?_eq]
    exact find?_eq_some_of_pairwise (hdisjoint.imp fun hxy => hxy p)
  refine ⟨hnames, (hnamed.map _).trans (parse_occurrences h), hdisjoint, ?_, hfound, ?_, ?_⟩
  · intro x hx
    obtain ⟨o, ho, heq⟩ := hentry x hx
    rw [← heq]
    exact Occurrence.spells_entry (hsolid o ho)
      ((TokenStream.ofSource_seen src).1 _ (mem_tokens_of_parse h (hnamed.subset ho)))
  · intro p x hx
    obtain ⟨hmem, hcontains⟩ := (hfound p x).mp hx
    obtain ⟨o, ho, heq⟩ := hentry x hmem
    exact ⟨o, ho, (Occurrence.contains_entry (hsolid o ho) p).mp (heq ▸ hcontains), heq.symm⟩
  · intro o ho p hon
    obtain ⟨x, hx, heq⟩ := List.mem_map.mp (hnames.symm.subset (List.mem_map_of_mem ho))
    have hcontains := (Occurrence.contains_entry (hsolid o ho) p).mpr hon
    have hat := (hfound p x).mpr ⟨hx, heq ▸ hcontains⟩
    refine ⟨x, hat, heq, fun y hy hcontains' => ?_⟩
    have hat' := (hfound p y).mpr ⟨hy, hcontains'⟩
    exact Option.some.inj (hat'.symm.trans hat)

/-- A script on two lines where a comment holds a name, and where one name is bound and used on the
same line more than once. -/
theorem ofDocument_exact_lines :
    ∃ d, parse (bytes "theorem t : P => P // p\r\n assume p : P \x7b have p : P by f p, P; by p \x7d")
        false = .ok d ∧
      d.named.map (fun o => (o.name, o.loc)) = [("t", ⟨1, 9⟩), ("p", ⟨2, 9⟩), ("p", ⟨2, 22⟩),
        ("f", ⟨2, 31⟩), ("p", ⟨2, 33⟩), ("p", ⟨2, 42⟩)] ∧
      Exact (bytes "theorem t : P => P // p\r\n assume p : P \x7b have p : P by f p, P; by p \x7d")
        d (ofDocument d) := by
  generalize hsrc : bytes _ = src
  have hchecked : (parse src false).toOption.any (fun d => d.named.map (fun o => (o.name, o.loc)) =
      [("t", ⟨1, 9⟩), ("p", ⟨2, 9⟩), ("p", ⟨2, 22⟩), ("f", ⟨2, 31⟩), ("p", ⟨2, 33⟩),
        ("p", ⟨2, 42⟩)]) = true := by
    rw [← hsrc]
    decide +kernel
  obtain ⟨d, h, hnamed⟩ := exists_ok_of_any hchecked
  exact ⟨d, h, of_decide_eq_true hnamed, ofDocument_exact h⟩

end SymbolTable

end ProofScript
