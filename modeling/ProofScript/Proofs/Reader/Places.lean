import ProofScript.Proofs.Reader.Exact
import ProofScript.Proofs.Standing
import ProofScript.TextRange

/-!
# Where names stand

The tokens of a script stand one behind the other, and every name that a document holds with a place
is a token of its own. So no two of these names stand at the same place, also as editors count
places.
-/

namespace ProofScript

/-! ## Tokens -/

namespace Location

/-- On an earlier line, or further left on the same line. -/
def Before (a b : Location) : Prop := a.line < b.line ∨ a.line = b.line ∧ a.column < b.column

/-- The place of a byte of a script. -/
def Inside (loc : Location) : Prop := 1 ≤ loc.line ∧ 1 ≤ loc.column

theorem Inside.newline {loc : Location} (h : loc.Inside) : loc.newline.Inside :=
  ⟨by have := h.1; simp only [Location.newline]; omega, by simp [Location.newline]⟩

theorem Inside.advance {loc : Location} (h : loc.Inside) (n : Nat) : (loc.advance n).Inside :=
  ⟨h.1, by have := h.2; simp only [Location.advance]; omega⟩

theorem Before.trans {a b c : Location} (h : a.Before b) (h' : b.Before c) : a.Before c := by
  simp only [Before] at h h' ⊢
  omega

theorem before_newline (loc : Location) : loc.Before loc.newline :=
  .inl (by simp only [Location.newline]; omega)

theorem before_advance (loc : Location) {n : Nat} (h : 0 < n) : loc.Before (loc.advance n) :=
  .inr ⟨rfl, by simp only [Location.advance]; omega⟩

/-- The place of a byte of a script, not before another place. -/
def Reaches (a b : Location) : Prop := b.Inside ∧ (b = a ∨ a.Before b)

theorem Before.reaches {a b c : Location} (h : a.Before b) (h' : b.Reaches c) : a.Reaches c := by
  obtain ⟨hinside, rfl | hbefore⟩ := h'
  · exact ⟨hinside, .inr h⟩
  · exact ⟨hinside, .inr (h.trans hbefore)⟩

theorem Reaches.trans {a b c : Location} (h : a.Reaches b) (h' : b.Reaches c) : a.Reaches c := by
  obtain ⟨-, rfl | hbefore⟩ := h
  · exact h'
  · exact hbefore.reaches h'

end Location

theorem Cursor.skipFrom_reaches (inComment : Bool) (rest : List UInt8) (loc : Location)
    (h : loc.Inside) : loc.Reaches (skipFrom inComment rest loc).loc := by
  fun_induction skipFrom inComment rest loc with
  | case1 => exact ⟨h, .inl rfl⟩
  | case2 inComment rest loc hnext ih => exact ih h
  | case3 inComment rest loc hnext ih => exact loc.before_newline.reaches (ih h.newline)
  | case4 inComment rest loc hb ih => exact loc.before_newline.reaches (ih h.newline)
  | case5 inComment b rest loc hb hb' hblank ih =>
    exact (loc.before_advance (by omega)).reaches (ih (h.advance 1))
  | case6 inComment b rest loc hb hb' hblank hslash ih =>
    exact (loc.before_advance (by omega)).reaches (ih (h.advance 1))
  | case7 => exact ⟨h, .inl rfl⟩

namespace Token

/-- The place behind a token. -/
def stop (t : Token) : Location := t.loc.advance (Text.bytes t.spelling).length

/-- The position lies on the token. -/
def On (t : Token) (p : TextPosition) : Prop :=
  p.line + 1 = t.loc.line ∧ t.loc.column ≤ p.character + 1 ∧ p.character + 1 < t.stop.column

/-- A token with at least a byte. -/
structure Solid (t : Token) : Prop where
  inside : t.loc.Inside
  taken : Text.bytes t.spelling ≠ []

variable {t u : Token}

theorem Solid.before (h : t.Solid) : t.loc.Before t.stop :=
  Location.before_advance _ (List.length_pos_iff.mpr h.taken)

/-- A token starts at a position on it. -/
theorem Solid.on (h : t.Solid) : t.On t.loc.toPosition := by
  obtain ⟨⟨hline, hcolumn⟩, htaken⟩ := h
  have hpos := List.length_pos_iff.mpr htaken
  simp only [On, stop, Location.advance, Location.toPosition]
  omega

/-- No position lies on a token and on one behind it. -/
theorem not_on_of_reaches (h : t.stop.Reaches u.loc) {p : TextPosition} (ht : t.On p) :
    ¬u.On p := by
  obtain ⟨-, heq | hbefore⟩ := h
  · rintro ⟨-, hu, -⟩
    obtain ⟨-, -, ht⟩ := ht
    rw [heq] at hu
    omega
  · rintro ⟨huline, hu, -⟩
    obtain ⟨htline, -, ht⟩ := ht
    have hline : t.stop.line = t.loc.line := rfl
    simp only [Location.Before] at hbefore
    omega

end Token

namespace TokenStream

/-- The tokens stand one behind the other, behind the cursor. -/
theorem collect_ordered (fuel : Nat) (c : Cursor) (h : c.loc.Inside) :
    (∀ t ∈ (collect fuel c).tokens, c.loc.Reaches t.loc ∧ t.Solid) ∧
      (collect fuel c).tokens.Pairwise (·.stop.Reaches ·.loc) := by
  induction fuel generalizing c with
  | zero => simp [collect]
  | succ fuel ih =>
    unfold collect
    split
    · simp
    rename_i t next hscan
    split
    · simp
    rename_i hkind
    have hreads := Cursor.lexeme_reads hscan
    have hfirst : c.loc.Reaches t.loc := hreads.loc ▸ Cursor.skipFrom_reaches false c.rest c.loc h
    have hsolid : t.Solid := ⟨hfirst.1, hreads.taken hkind⟩
    have hstop : next.loc = t.stop := by rw [hreads.moves.2.1, ← hreads.loc, Token.stop]
    obtain ⟨hreaches, hordered⟩ := ih next (hstop ▸ hfirst.1.advance _)
    rw [hstop] at hreaches
    refine ⟨List.forall_mem_cons.mpr ⟨⟨hfirst, hsolid⟩, fun u hu => ?_⟩,
      List.pairwise_cons.mpr ⟨fun u hu => (hreaches u hu).1, hordered⟩⟩
    obtain ⟨hbehind, hu⟩ := hreaches u hu
    exact ⟨hfirst.trans (hsolid.before.reaches hbehind), hu⟩

/-- Every token of a script has a place and at least a byte. -/
theorem ofSource_solid {src : List UInt8} {t : Token} (h : t ∈ (ofSource src).tokens) : t.Solid :=
  ((collect_ordered _ _ (show Location.start.Inside from ⟨by decide, by decide⟩)).1 t h).2

/-- No position lies on two tokens of a script. -/
theorem ofSource_apart (src : List UInt8) :
    (ofSource src).tokens.Pairwise fun t u => ∀ p, t.On p → ¬u.On p := by
  obtain ⟨-, hordered⟩ := collect_ordered (src.length + 1) (.ofSource src)
    (show Location.start.Inside from ⟨by decide, by decide⟩)
  exact hordered.imp fun hreaches p => Token.not_on_of_reaches hreaches

end TokenStream

/-! ## Names of a document -/

/-- What a name is there for: a rule or an argument uses it, a claim binds it, or it is an atom. -/
inductive NameRole where
  | use
  | binder
  | atom
deriving DecidableEq, Repr

/-- A name of a document at its place. -/
structure Occurrence where
  role : NameRole
  name : String
  loc : Location
deriving DecidableEq, Repr

/-- The token that the name is. -/
def Occurrence.token (o : Occurrence) : Token :=
  ⟨if o.role = .atom then .typeVar else .identifier, o.name, o.loc⟩

/-- The atoms of a proposition. Predicate arguments and bound variables have no places. -/
def Formula.occurrences : Formula → List Occurrence
  | hole => []
  | atom n _ l => [⟨.atom, n, l⟩]
  | neg a _ => a.occurrences
  | conj a b _ => a.occurrences ++ b.occurrences
  | disj a b _ => a.occurrences ++ b.occurrences
  | impl a b _ => a.occurrences ++ b.occurrences
  | all _ a _ => a.occurrences

/-- The name of a claim, if it has one. -/
def Claim.binders (c : Claim) : List Occurrence := c.name.toList.map fun n => ⟨.binder, n, c.loc⟩

/-- The names in a claim. -/
def Claim.occurrences (c : Claim) : List Occurrence := c.binders ++ c.formula.occurrences

/-- The names in an argument. -/
def Argument.occurrences : Argument → List Occurrence
  | fact n l => [⟨.use, n, l⟩]
  | prop f => f.occurrences

mutual

/-- The names in a proof, in the order of the text. -/
def Proof.occurrences : Proof → List Occurrence
  | .mk s _ => s.occurrences

/-- The names in steps. -/
def Steps.occurrences : Steps → List Occurrence
  | .last s => s.occurrences
  | .conclude j _ => j.occurrences
  | .more s rest => s.occurrences ++ rest.occurrences

/-- The names in a statement. -/
def Statement.occurrences : Statement → List Occurrence
  | .missing => []
  | .step c j _ => c.occurrences ++ j.occurrences
  | .block b => b.occurrences

/-- The names in a justification. -/
def Justification.occurrences : Justification → List Occurrence
  | .missing => []
  | .apply rule args loc => ⟨.use, rule, loc⟩ :: args.flatMap Argument.occurrences
  | .block b => b.occurrences

/-- The names in a block. -/
def Block.occurrences : Block → List Occurrence
  | .assume hyps p _ => hyps.flatMap Claim.occurrences ++ p.occurrences
  | .generalize _ p _ => p.occurrences

end

/-- The names in a theorem. -/
def Theorem.occurrences (t : Theorem) : List Occurrence :=
  t.claim.occurrences ++ t.proof.occurrences

/-- The names in a document, in the order of the text. -/
def Document.occurrences (d : Document) : List Occurrence := d.theorems.flatMap Theorem.occurrences

/-- The names that are there for something. -/
def occurrencesOf (role : NameRole) (os : List Occurrence) : List Occurrence :=
  os.filter (·.role = role)

@[simp]
theorem occurrencesOf_append (role : NameRole) (os os' : List Occurrence) :
    occurrencesOf role (os ++ os') = occurrencesOf role os ++ occurrencesOf role os' :=
  List.filter_append ..

@[simp]
theorem occurrencesOf_flatMap {α : Type} (role : NameRole) (names : α → List Occurrence)
    (xs : List α) :
    occurrencesOf role (xs.flatMap names) = xs.flatMap fun x => occurrencesOf role (names x) :=
  List.filter_flatMap ..

/-- The atom that the proposition is. -/
def Formula.atom? : Formula → Option Occurrence
  | atom n _ l => some ⟨.atom, n, l⟩
  | _ => none

/-- The names in a proposition are its atoms. -/
theorem Formula.occurrences_eq (f : Formula) : f.occurrences = f.subformulas.filterMap atom? := by
  induction f with
  | hole | atom => rfl
  | neg a _ ih | all _ a _ ih => exact ih
  | conj a b _ iha ihb | disj a b _ iha ihb | impl a b _ iha ihb =>
    rw [occurrences, iha, ihb, ← List.filterMap_append]
    rfl

@[simp]
theorem occurrencesOf_formula (role : NameRole) (f : Formula) :
    occurrencesOf role f.occurrences = if role = .atom then f.occurrences else [] := by
  have hatoms : ∀ o ∈ f.occurrences, o.role = .atom := by
    intro o ho
    rw [f.occurrences_eq] at ho
    obtain ⟨g, -, hg⟩ := List.mem_filterMap.mp ho
    unfold Formula.atom? at hg
    split at hg <;> cases hg
    rfl
  split
  · rename_i hrole
    exact List.filter_eq_self.mpr fun o ho => by simpa [hrole] using hatoms o ho
  · rename_i hrole
    exact List.filter_eq_nil_iff.mpr fun o ho => by simpa [hatoms o ho] using Ne.symm hrole

@[simp]
theorem occurrencesOf_binders (role : NameRole) (c : Claim) :
    occurrencesOf role c.binders = if role = .binder then c.binders else [] := by
  unfold occurrencesOf Claim.binders
  cases c.name <;> cases role <;> rfl

namespace Parser

open Grammar TokenStream

variable {α : Type} {systemF : Bool} {n : Nat}

/-- The names in what is read are tokens that are taken, in their order. -/
def InOrder (names : α → List Occurrence) : Category α := fun ts a rest =>
  ((names a).map Occurrence.token ++ rest).Sublist ts

/-- What is read behind other tokens. -/
theorem inOrder_append {before names : List Occurrence} {ts mid rest : List Token}
    (h : (before.map Occurrence.token ++ mid).Sublist ts)
    (h' : (names.map Occurrence.token ++ rest).Sublist mid) :
    ((before ++ names).map Occurrence.token ++ rest).Sublist ts := by
  rw [List.map_append, List.append_assoc]
  exact (h'.append_left _).trans h

/-- What is taken in front of what is read is no name. -/
theorem inOrder_behind {front ts mid rest : List Token} (h : mid <:+ ts)
    (h' : (front ++ rest).Sublist mid) : (front ++ rest).Sublist ts := h'.trans h.sublist

/-- What is taken behind what is read is no name. -/
theorem inOrder_before {front ts mid rest : List Token} (h : (front ++ mid).Sublist ts)
    (h' : rest <:+ mid) : (front ++ rest).Sublist ts := (h'.sublist.append_left front).trans h

/-- A reader that keeps the order, where nothing but the names matters. -/
theorem inOrder_nil {ts rest : List Token} (h : rest <:+ ts) :
    (([] : List Occurrence).map Occurrence.token ++ rest).Sublist ts := h.sublist

theorem token_of_atom {t : Token} (h : t.kind = .typeVar) :
    Occurrence.token ⟨.atom, t.value, t.loc⟩ = t := by
  rw [Occurrence.token, if_pos rfl, ← h]

theorem token_of_name {t : Token} {role : NameRole} (hrole : role ≠ .atom)
    (h : t.kind = .identifier) : Occurrence.token ⟨role, t.value, t.loc⟩ = t := by
  rw [Occurrence.token, if_neg hrole, ← h]

/-! ## Propositions -/

theorem formula_inOrder_succ (hi : Sound (implication systemF n) (InOrder Formula.occurrences)) :
    Sound (formula systemF (n + 1)) (InOrder Formula.occurrences) := by
  intro s s' f hc h
  simp only [formula, bind_eq_ok] at h
  obtain ⟨tok, s₁, hpeek, h⟩ := h
  obtain ⟨-, rfl⟩ := peek_eq_ok.mp hpeek
  split at h
  · simp only [bind_eq_ok] at h
    obtain ⟨_, s₂, hreq, _, s₃, hnext, vars, s₄, hvars, dot, s₅, hdot, body, s₆, hbody, h⟩ := h
    obtain ⟨-, rfl⟩ := require_eq_ok.mp hreq
    obtain ⟨-, rfl⟩ := next_eq_ok.mp hnext
    obtain ⟨rfl, rfl⟩ := pure_eq_ok.mp h
    obtain ⟨pvars, stop₄⟩ := typeVars_sound _ _ _ hc.next hvars
    obtain ⟨-, -, rfl⟩ := expect_eq_ok.mp hdot
    obtain ⟨pbody, stop₆⟩ := hi _ _ _ (hc.next.of_stop_eq stop₄).next hbody
    refine ⟨inOrder_behind ?_ pbody, stop₆.trans stop₄⟩
    exact (List.tail_suffix _).trans ((typeVars_takes pvars).suffix.trans (List.tail_suffix _))
  · exact hi _ _ _ hc h

theorem implication_inOrder_succ
    (hd : Sound (disjunction systemF n) (InOrder Formula.occurrences))
    (hi : Sound (implication systemF n) (InOrder Formula.occurrences)) :
    Sound (implication systemF (n + 1)) (InOrder Formula.occurrences) := by
  intro s s' f hc h
  simp only [implication, bind_eq_ok] at h
  obtain ⟨left, s₁, hleft, more, s₂, hmore, h⟩ := h
  obtain ⟨pleft, stop₁⟩ := hd _ _ _ hc hleft
  obtain ⟨rfl, op, -, e₂, stop₂⟩ | ⟨rfl, rfl⟩ :=
    tokens_of_accept (hc.of_stop_eq stop₁) hmore (by simp)
  · simp only [if_true, bind_eq_ok] at h
    obtain ⟨right, s₃, hright, h⟩ := h
    obtain ⟨rfl, rfl⟩ := pure_eq_ok.mp h
    have stop : s₂.stop = s.stop := stop₂.trans stop₁
    obtain ⟨pright, stop₃⟩ := hi _ _ _ (hc.of_stop_eq stop) hright
    exact ⟨inOrder_append (inOrder_before pleft (e₂ ▸ List.suffix_cons op _)) pright,
      stop₃.trans stop⟩
  · obtain ⟨rfl, rfl⟩ := pure_eq_ok.mp h
    exact ⟨pleft, stop₁⟩

/-- A reader of more operands keeps the order behind the operands so far. -/
def RestInOrder (p : Formula → Parser Formula) : Prop :=
  ∀ ts left, Sound (p left) fun mid f rest =>
    InOrder Formula.occurrences ts left mid → InOrder Formula.occurrences ts f rest

/-- One more operand behind an operator. -/
theorem rest_inOrder_succ {p : Formula → Parser Formula} {operand : Parser Formula}
    {kind : TokenKind} {join : Formula → Formula → Location → Formula} (hkind : kind ≠ .eof)
    (hjoin : ∀ a b loc, (join a b loc).occurrences = a.occurrences ++ b.occurrences)
    (ho : Sound operand (InOrder Formula.occurrences)) (hp : RestInOrder p) :
    RestInOrder fun left => do
      if ← accept kind then
        let right ← operand
        p (join left right left.loc)
      else return left := by
  intro ts left s s' f hc h
  simp only [bind_eq_ok] at h
  obtain ⟨more, s₁, hmore, h⟩ := h
  obtain ⟨rfl, op, -, e₁, stop₁⟩ | ⟨rfl, rfl⟩ := tokens_of_accept hc hmore hkind
  · simp only [if_true, bind_eq_ok] at h
    obtain ⟨right, s₂, hright, h⟩ := h
    obtain ⟨pright, stop₂⟩ := ho _ _ _ (hc.of_stop_eq stop₁) hright
    have stop : s₂.stop = s.stop := stop₂.trans stop₁
    obtain ⟨extend, stop₃⟩ := hp ts _ _ _ _ (hc.of_stop_eq stop) h
    refine ⟨fun pleft => extend ?_, stop₃.trans stop⟩
    rw [InOrder, hjoin]
    exact inOrder_append (inOrder_before pleft (e₁ ▸ List.suffix_cons op _)) pright
  · obtain ⟨rfl, rfl⟩ := pure_eq_ok.mp h
    exact ⟨id, rfl⟩

/-- The first operand with those behind it. -/
theorem operands_inOrder {p : Formula → Parser Formula} {operand : Parser Formula}
    (ho : Sound operand (InOrder Formula.occurrences)) (hp : RestInOrder p) :
    Sound (operand >>= p) (InOrder Formula.occurrences) := by
  intro s s' f hc h
  obtain ⟨left, s₁, hleft, h⟩ := bind_eq_ok.mp h
  obtain ⟨pleft, stop₁⟩ := ho _ _ _ hc hleft
  obtain ⟨extend, stop₂⟩ := hp s.tokens _ _ _ _ (hc.of_stop_eq stop₁) h
  exact ⟨extend pleft, stop₂.trans stop₁⟩

theorem negation_inOrder_succ
    (hn : Sound (negation systemF n) (InOrder Formula.occurrences))
    (ha : Sound (atom systemF n) (InOrder Formula.occurrences)) :
    Sound (negation systemF (n + 1)) (InOrder Formula.occurrences) := by
  intro s s' f hc h
  simp only [negation, bind_eq_ok] at h
  obtain ⟨tok, s₁, hpeek, h⟩ := h
  obtain ⟨-, rfl⟩ := peek_eq_ok.mp hpeek
  split at h
  · simp only [bind_eq_ok] at h
    obtain ⟨_, s₂, hnext, body, s₃, hbody, h⟩ := h
    obtain ⟨-, rfl⟩ := next_eq_ok.mp hnext
    obtain ⟨rfl, rfl⟩ := pure_eq_ok.mp h
    obtain ⟨pbody, stop₃⟩ := hn _ _ _ hc.next hbody
    exact ⟨inOrder_behind (List.tail_suffix _) pbody, stop₃⟩
  · exact ha _ _ _ hc h

theorem atom_inOrder_succ (hf : Sound (formula systemF n) (InOrder Formula.occurrences)) :
    Sound (atom systemF (n + 1)) (InOrder Formula.occurrences) := by
  intro s s' f hc h
  simp only [atom, bind_eq_ok] at h
  obtain ⟨tok, s₁, htok, h⟩ := h
  obtain ⟨e₁, hkind, stop₁⟩ := tokens_of_expect hc htok (by simp)
  have hc₁ := hc.of_stop_eq stop₁
  rw [e₁]
  split at h
  · simp only [bind_eq_ok] at h
    obtain ⟨g, s₂, hg, close, s₃, hclose, h⟩ := h
    obtain ⟨rfl, rfl⟩ := pure_eq_ok.mp h
    obtain ⟨pg, stop₂⟩ := hf _ _ _ hc₁ hg
    obtain ⟨-, -, rfl⟩ := expect_eq_ok.mp hclose
    exact ⟨inOrder_before (inOrder_behind (List.suffix_cons tok _) pg) (List.tail_suffix _),
      stop₂.trans stop₁⟩
  · rename_i hopen
    have hname : ∀ args, InOrder Formula.occurrences (tok :: s₁.tokens)
        (.atom tok.value args tok.loc) s₁.tokens := by
      intro args
      rw [InOrder, Formula.occurrences, List.map_singleton,
        token_of_atom (by simpa [hopen] using hkind)]
      exact .refl _
    simp only [bind_eq_ok] at h
    obtain ⟨bracket, s₂, hpeek, h⟩ := h
    obtain ⟨-, rfl⟩ := peek_eq_ok.mp hpeek
    split at h
    · simp only [bind_eq_ok] at h
      obtain ⟨_, s₃, hreq, _, s₄, hnext, args, s₅, hargs, close, s₆, hclose, h⟩ := h
      obtain ⟨-, rfl⟩ := require_eq_ok.mp hreq
      obtain ⟨-, rfl⟩ := next_eq_ok.mp hnext
      obtain ⟨rfl, rfl⟩ := pure_eq_ok.mp h
      obtain ⟨pargs, stop₅⟩ := typeVars_sound _ _ _ hc₁.next hargs
      obtain ⟨-, -, rfl⟩ := expect_eq_ok.mp hclose
      refine ⟨inOrder_before (hname args) ?_, stop₅.trans stop₁⟩
      exact (List.tail_suffix _).trans ((typeVars_takes pargs).suffix.trans (List.tail_suffix _))
    · obtain ⟨rfl, rfl⟩ := pure_eq_ok.mp h
      exact ⟨hname [], stop₁⟩

/-- The readers of propositions keep the order of names at a depth. -/
structure PropositionsInOrder (systemF : Bool) (n : Nat) : Prop where
  formula : Sound (formula systemF n) (InOrder Formula.occurrences)
  implication : Sound (implication systemF n) (InOrder Formula.occurrences)
  disjunction : Sound (disjunction systemF n) (InOrder Formula.occurrences)
  disjunctionRest : RestInOrder (disjunctionRest systemF n)
  conjunction : Sound (conjunction systemF n) (InOrder Formula.occurrences)
  conjunctionRest : RestInOrder (conjunctionRest systemF n)
  negation : Sound (negation systemF n) (InOrder Formula.occurrences)
  atom : Sound (atom systemF n) (InOrder Formula.occurrences)

theorem propositions_inOrder (systemF : Bool) (n : Nat) : PropositionsInOrder systemF n := by
  induction n with
  | zero =>
    exact ⟨tooDeep_sound _, tooDeep_sound _, tooDeep_sound _, fun _ _ => tooDeep_sound _,
      tooDeep_sound _, fun _ _ => tooDeep_sound _, tooDeep_sound _, tooDeep_sound _⟩
  | succ n ih =>
    exact {
      formula := formula_inOrder_succ ih.implication
      implication := implication_inOrder_succ ih.disjunction ih.implication
      disjunction := operands_inOrder ih.conjunction ih.disjunctionRest
      disjunctionRest :=
        rest_inOrder_succ (by simp) (fun _ _ _ => rfl) ih.conjunction ih.disjunctionRest
      conjunction := operands_inOrder ih.negation ih.conjunctionRest
      conjunctionRest :=
        rest_inOrder_succ (by simp) (fun _ _ _ => rfl) ih.negation ih.conjunctionRest
      negation := negation_inOrder_succ ih.negation ih.atom
      atom := atom_inOrder_succ ih.formula }

/-! ## Claims and arguments -/

/-- A token that stands at the front is the name of a claim, or nothing is taken. -/
theorem label_inOrder {start : Token} {s s' : TokenStream} {name : Option String} (hc : s.Closed)
    (hstart : s.peek 0 = .ok start) (h : label s = .ok (name, s')) (f : Formula) :
    ((Claim.binders ⟨name, f, start.loc⟩).map Occurrence.token ++ s'.tokens).Sublist s.tokens := by
  have hlabel := (label_sound _ _ _ hc h).1
  cases name with
  | none => exact hlabel.suffix.sublist
  | some name =>
    generalize hts : s.tokens = ts at hlabel ⊢
    generalize s'.tokens = rest at hlabel ⊢
    cases hlabel with
    | @name rest t colon hname _ =>
      obtain rfl : t = start := by simpa [TokenStream.peek, hts] using hstart
      have htoken : Occurrence.token ⟨.binder, t.value, t.loc⟩ = t := token_of_name (by simp) hname
      rw [Claim.binders, Option.toList_some, List.map_singleton, List.map_singleton, htoken]
      exact (List.sublist_cons_self colon rest).cons_cons t

theorem claim_inOrder : Sound (claim systemF n) (InOrder Claim.occurrences) := by
  intro s s' c hc h
  simp only [claim, bind_eq_ok] at h
  obtain ⟨start, s₁, hpeek, name, s₂, hname, f, s₃, hf, h⟩ := h
  obtain ⟨hpeek, rfl⟩ := peek_eq_ok.mp hpeek
  obtain ⟨rfl, rfl⟩ := pure_eq_ok.mp h
  obtain ⟨-, stop₂⟩ := label_sound _ _ _ hc hname
  obtain ⟨pf, stop₃⟩ := (propositions_inOrder systemF n).formula _ _ _ (hc.of_stop_eq stop₂) hf
  exact ⟨inOrder_append (label_inOrder hc hpeek hname f) pf, stop₃.trans stop₂⟩

theorem claimOrHole_inOrder : Sound (claimOrHole systemF n) (InOrder Claim.occurrences) := by
  intro s s' c hc h
  simp only [claimOrHole, bind_eq_ok] at h
  obtain ⟨start, s₁, hpeek, name, s₂, hname, tok, s₃, hpeek', h⟩ := h
  obtain ⟨hpeek, rfl⟩ := peek_eq_ok.mp hpeek
  obtain ⟨hpeek', rfl⟩ := peek_eq_ok.mp hpeek'
  obtain ⟨-, stop₂⟩ := label_sound _ _ _ hc hname
  split at h
  · simp only [bind_eq_ok] at h
    obtain ⟨_, s₃, hnext, h⟩ := h
    obtain ⟨-, rfl⟩ := next_eq_ok.mp hnext
    obtain ⟨rfl, rfl⟩ := pure_eq_ok.mp h
    exact ⟨inOrder_append (label_inOrder hc hpeek hname .hole) (inOrder_nil (List.tail_suffix _)),
      stop₂⟩
  · simp only [bind_eq_ok] at h
    obtain ⟨f, s₃, hf, h⟩ := h
    obtain ⟨rfl, rfl⟩ := pure_eq_ok.mp h
    obtain ⟨pf, stop₃⟩ := (propositions_inOrder systemF n).formula _ _ _ (hc.of_stop_eq stop₂) hf
    exact ⟨inOrder_append (label_inOrder hc hpeek hname f) pf, stop₃.trans stop₂⟩

theorem argument_inOrder : Sound (argument systemF n) (InOrder Argument.occurrences) := by
  intro s s' a hc h
  simp only [argument, bind_eq_ok] at h
  obtain ⟨tok, s₁, hpeek, h⟩ := h
  obtain ⟨hpeek, rfl⟩ := peek_eq_ok.mp hpeek
  split at h
  · rename_i hname
    simp only [bind_eq_ok] at h
    obtain ⟨_, s₂, hnext, h⟩ := h
    obtain ⟨-, rfl⟩ := next_eq_ok.mp hnext
    obtain ⟨rfl, rfl⟩ := pure_eq_ok.mp h
    refine ⟨?_, rfl⟩
    rw [tokens_of_peek hc hpeek (by simp [hname]), InOrder, Argument.occurrences, List.map_singleton,
      token_of_name (by simp) hname]
    exact .refl _
  · simp only [bind_eq_ok] at h
    obtain ⟨f, s₂, hf, h⟩ := h
    obtain ⟨rfl, rfl⟩ := pure_eq_ok.mp h
    exact (propositions_inOrder systemF n).formula _ _ _ hc hf

theorem separated_inOrder {names : α → List Occurrence} {ts rest : List Token} {as : List α}
    (h : Separated (InOrder names) ts as rest) : InOrder (List.flatMap names) ts as rest := by
  induction h with
  | one h => simpa [InOrder] using h
  | more h _ _ ih =>
    exact inOrder_append (inOrder_before h (List.suffix_cons _ _)) ih

theorem claims_inOrder : Sound (claims systemF n) (InOrder (List.flatMap Claim.occurrences)) := by
  have hseparated : Sound (claims systemF n) (Separated (InOrder Claim.occurrences)) := by
    induction n with
    | zero => exact tooDeep_sound _
    | succ n ih => exact separated_sound_succ claim_inOrder ih
  intro s s' cs hc h
  obtain ⟨pcs, stop⟩ := hseparated s s' cs hc h
  exact ⟨separated_inOrder pcs, stop⟩

theorem arguments_inOrder :
    Sound (arguments systemF n) (InOrder (List.flatMap Argument.occurrences)) := by
  have hseparated : Sound (arguments systemF n) (Separated (InOrder Argument.occurrences)) := by
    induction n with
    | zero => exact tooDeep_sound _
    | succ n ih => exact separated_sound_succ argument_inOrder ih
  intro s s' as hc h
  obtain ⟨pas, stop⟩ := hseparated s s' as hc h
  exact ⟨separated_inOrder pas, stop⟩

theorem application_inOrder :
    Sound (application systemF n) (InOrder Justification.occurrences) := by
  intro s s' j hc h
  simp only [application, bind_eq_ok] at h
  obtain ⟨tok, s₁, htok, next, s₂, hpeek, starts, s₃, hstarts, h⟩ := h
  obtain ⟨e₁, hname, stop₁⟩ := tokens_of_expect hc htok (by simp)
  have hc₁ := hc.of_stop_eq stop₁
  obtain ⟨hpeek, rfl⟩ := peek_eq_ok.mp hpeek
  rw [← ahead_of_peek hc₁ hpeek] at hstarts
  obtain ⟨rfl, -⟩ := startsArgument_spec hc₁ hstarts
  have hrule : (([⟨.use, tok.value, tok.loc⟩] : List Occurrence).map Occurrence.token
      ++ s₃.tokens).Sublist (tok :: s₃.tokens) := by
    rw [List.map_singleton, token_of_name (by simp) (by simpa using hname)]
    exact .refl _
  rw [e₁]
  split at h
  · simp only [bind_eq_ok] at h
    obtain ⟨args, s₄, hargs, h⟩ := h
    obtain ⟨rfl, rfl⟩ := pure_eq_ok.mp h
    obtain ⟨pargs, stop₄⟩ := arguments_inOrder _ _ _ hc₁ hargs
    exact ⟨inOrder_append hrule pargs, stop₄.trans stop₁⟩
  · obtain ⟨rfl, rfl⟩ := pure_eq_ok.mp h
    exact ⟨hrule, stop₁⟩

/-! ## Proofs -/

/-- The names in steps that may be none. -/
def stepsNames (r : Option Steps) : List Occurrence := r.elim [] Steps.occurrences

theorem proof_inOrder_succ {closing : List TokenKind}
    (hs : Sound (steps systemF closing n) (InOrder stepsNames)) :
    Sound (proof systemF closing (n + 1)) (InOrder Proof.occurrences) := by
  intro s s' p hc h
  simp only [proof, bind_eq_ok] at h
  obtain ⟨start, s₁, hpeek, r, s₂, hsteps, h⟩ := h
  obtain ⟨-, rfl⟩ := peek_eq_ok.mp hpeek
  cases r with
  | none => exact absurd h fail_ne_ok
  | some st =>
    obtain ⟨rfl, rfl⟩ := pure_eq_ok.mp h
    exact hs _ _ _ hc hsteps

theorem steps_inOrder_succ {closing : List TokenKind}
    (hj : Sound (justification systemF n) (InOrder Justification.occurrences))
    (hst : Sound (statement systemF closing n) (InOrder Statement.occurrences))
    (hs : Sound (steps systemF closing n) (InOrder stepsNames)) :
    Sound (steps systemF closing (n + 1)) (InOrder stepsNames) := by
  intro s s' r hc h
  simp only [steps, bind_eq_ok] at h
  obtain ⟨tok, s₁, hpeek, h⟩ := h
  obtain ⟨hpeek, rfl⟩ := peek_eq_ok.mp hpeek
  split at h
  · obtain ⟨rfl, rfl⟩ := pure_eq_ok.mp h
    exact ⟨List.Sublist.refl _, rfl⟩
  split at h
  · simp only [bind_eq_ok] at h
    obtain ⟨_, s₂, hnext, j, s₃, hjust, _, s₄, hsemi, stop, s₅, hstop, h⟩ := h
    obtain ⟨-, rfl⟩ := next_eq_ok.mp hnext
    obtain ⟨-, rfl⟩ := peek_eq_ok.mp hstop
    obtain ⟨pj, stop₃⟩ := hj _ _ _ hc.next hjust
    obtain ⟨psemi, stop₄⟩ := semicolon_of_accept (hc.next.of_stop_eq stop₃) hsemi
    split at h
    · obtain ⟨rfl, rfl⟩ := pure_eq_ok.mp h
      exact ⟨inOrder_before (inOrder_behind (List.tail_suffix _) pj) psemi.suffix,
        stop₄.trans stop₃⟩
    · exact absurd h fail_ne_ok
  · simp only [bind_eq_ok] at h
    obtain ⟨st, s₂, hstatement, _, s₃, hsemi, more, s₄, hmore, h⟩ := h
    obtain ⟨pst, stop₂⟩ := hst _ _ _ hc hstatement
    obtain ⟨psemi, stop₃⟩ := semicolon_of_accept (hc.of_stop_eq stop₂) hsemi
    have stop : s₃.stop = s₁.stop := stop₃.trans stop₂
    obtain ⟨pmore, stop₄⟩ := hs _ _ _ (hc.of_stop_eq stop) hmore
    have hplaced := inOrder_append (inOrder_before pst psemi.suffix) pmore
    cases more with
    | none =>
      obtain ⟨rfl, rfl⟩ := pure_eq_ok.mp h
      exact ⟨by simpa [InOrder, stepsNames, Steps.occurrences] using hplaced, stop₄.trans stop⟩
    | some rest =>
      obtain ⟨rfl, rfl⟩ := pure_eq_ok.mp h
      exact ⟨hplaced, stop₄.trans stop⟩

theorem statement_inOrder_succ {closing : List TokenKind}
    (ha : Sound (assumption systemF n) (InOrder Block.occurrences))
    (hst : Sound (step systemF n) (InOrder Statement.occurrences))
    (hg : Sound (generalization systemF n) (InOrder Block.occurrences)) :
    Sound (statement systemF closing (n + 1)) (InOrder Statement.occurrences) := by
  intro s s' st hc h
  simp only [statement, bind_eq_ok] at h
  obtain ⟨tok, s₁, hpeek, h⟩ := h
  obtain ⟨-, rfl⟩ := peek_eq_ok.mp hpeek
  generalize tok.kind = kind at h
  cases kind
  case assumeKeyword =>
    simp only [bind_eq_ok] at h
    obtain ⟨b, s₂, hb, h⟩ := h
    obtain ⟨rfl, rfl⟩ := pure_eq_ok.mp h
    exact ha _ _ _ hc hb
  case haveKeyword => exact hst _ _ _ hc h
  case forallKeyword =>
    simp only [bind_eq_ok] at h
    obtain ⟨_, s₂, hreq, b, s₃, hb, h⟩ := h
    obtain ⟨-, rfl⟩ := require_eq_ok.mp hreq
    obtain ⟨rfl, rfl⟩ := pure_eq_ok.mp h
    exact hg _ _ _ hc hb
  all_goals exact absurd h fail_ne_ok

theorem step_inOrder_succ
    (hj : Sound (justification systemF n) (InOrder Justification.occurrences)) :
    Sound (step systemF (n + 1)) (InOrder Statement.occurrences) := by
  intro s s' st hc h
  simp only [step, bind_eq_ok] at h
  obtain ⟨tok, s₁, htok, c, s₂, hclaim, by_, s₃, hby, j, s₄, hjust, h⟩ := h
  obtain ⟨rfl, rfl⟩ := pure_eq_ok.mp h
  obtain ⟨-, -, rfl⟩ := expect_eq_ok.mp htok
  obtain ⟨pclaim, stop₂⟩ := claimOrHole_inOrder _ _ _ hc.next hclaim
  obtain ⟨-, -, rfl⟩ := expect_eq_ok.mp hby
  obtain ⟨pj, stop₄⟩ := hj _ _ _ (hc.next.of_stop_eq stop₂).next hjust
  refine ⟨inOrder_append ?_ pj, stop₄.trans stop₂⟩
  exact inOrder_before (inOrder_behind (List.tail_suffix _) pclaim) (List.tail_suffix _)

theorem justification_inOrder_succ
    (ha : Sound (assumption systemF n) (InOrder Block.occurrences))
    (hg : Sound (generalization systemF n) (InOrder Block.occurrences)) :
    Sound (justification systemF (n + 1)) (InOrder Justification.occurrences) := by
  intro s s' j hc h
  simp only [justification, bind_eq_ok] at h
  obtain ⟨tok, s₁, hpeek, h⟩ := h
  obtain ⟨-, rfl⟩ := peek_eq_ok.mp hpeek
  generalize tok.kind = kind at h
  cases kind
  case identifier => exact application_inOrder _ _ _ hc h
  case assumeKeyword =>
    simp only [bind_eq_ok] at h
    obtain ⟨b, s₂, hb, h⟩ := h
    obtain ⟨rfl, rfl⟩ := pure_eq_ok.mp h
    exact ha _ _ _ hc hb
  case forallKeyword =>
    simp only [bind_eq_ok] at h
    obtain ⟨_, s₂, hreq, b, s₃, hb, h⟩ := h
    obtain ⟨-, rfl⟩ := require_eq_ok.mp hreq
    obtain ⟨rfl, rfl⟩ := pure_eq_ok.mp h
    exact hg _ _ _ hc hb
  all_goals exact absurd h fail_ne_ok

theorem braced_inOrder_succ (hp : Sound (proof systemF [.rbrace] n) (InOrder Proof.occurrences)) :
    Sound (braced systemF (n + 1)) (InOrder Proof.occurrences) := by
  intro s s' p hc h
  simp only [braced, bind_eq_ok] at h
  obtain ⟨opening, s₁, hopen, q, s₂, hq, closing, s₃, hclose, h⟩ := h
  obtain ⟨rfl, rfl⟩ := pure_eq_ok.mp h
  obtain ⟨-, -, rfl⟩ := expect_eq_ok.mp hopen
  obtain ⟨pq, stop₂⟩ := hp _ _ _ hc.next hq
  obtain ⟨-, -, rfl⟩ := expect_eq_ok.mp hclose
  exact ⟨inOrder_before (inOrder_behind (List.tail_suffix _) pq) (List.tail_suffix _), stop₂⟩

theorem assumption_inOrder_succ (hb : Sound (braced systemF n) (InOrder Proof.occurrences)) :
    Sound (assumption systemF (n + 1)) (InOrder Block.occurrences) := by
  intro s s' b hc h
  simp only [assumption, bind_eq_ok] at h
  obtain ⟨tok, s₁, htok, hyps, s₂, hhyps, p, s₃, hp, h⟩ := h
  obtain ⟨rfl, rfl⟩ := pure_eq_ok.mp h
  obtain ⟨-, -, rfl⟩ := expect_eq_ok.mp htok
  obtain ⟨phyps, stop₂⟩ := claims_inOrder _ _ _ hc.next hhyps
  obtain ⟨pp, stop₃⟩ := hb _ _ _ (hc.next.of_stop_eq stop₂) hp
  exact ⟨inOrder_append (inOrder_behind (List.tail_suffix _) phyps) pp, stop₃.trans stop₂⟩

theorem generalization_inOrder_succ (hb : Sound (braced systemF n) (InOrder Proof.occurrences)) :
    Sound (generalization systemF (n + 1)) (InOrder Block.occurrences) := by
  intro s s' b hc h
  simp only [generalization, bind_eq_ok] at h
  obtain ⟨tok, s₁, htok, vars, s₂, hvars, p, s₃, hp, h⟩ := h
  obtain ⟨rfl, rfl⟩ := pure_eq_ok.mp h
  obtain ⟨-, -, rfl⟩ := expect_eq_ok.mp htok
  obtain ⟨pvars, stop₂⟩ := typeVars_sound _ _ _ hc.next hvars
  obtain ⟨pp, stop₃⟩ := hb _ _ _ (hc.next.of_stop_eq stop₂) hp
  exact ⟨inOrder_behind ((typeVars_takes pvars).suffix.trans (List.tail_suffix _)) pp,
    stop₃.trans stop₂⟩

/-- The readers of proofs keep the order of names at a depth. -/
structure ProofsInOrder (systemF : Bool) (n : Nat) : Prop where
  proof : ∀ closing, Sound (proof systemF closing n) (InOrder Proof.occurrences)
  steps : ∀ closing, Sound (steps systemF closing n) (InOrder stepsNames)
  statement : ∀ closing, Sound (statement systemF closing n) (InOrder Statement.occurrences)
  step : Sound (step systemF n) (InOrder Statement.occurrences)
  justification : Sound (justification systemF n) (InOrder Justification.occurrences)
  assumption : Sound (assumption systemF n) (InOrder Block.occurrences)
  generalization : Sound (generalization systemF n) (InOrder Block.occurrences)
  braced : Sound (braced systemF n) (InOrder Proof.occurrences)

theorem proofs_inOrder (systemF : Bool) (n : Nat) : ProofsInOrder systemF n := by
  induction n with
  | zero =>
    exact ⟨fun _ => tooDeep_sound _, fun _ => tooDeep_sound _, fun _ => tooDeep_sound _,
      tooDeep_sound _, tooDeep_sound _, tooDeep_sound _, tooDeep_sound _, tooDeep_sound _⟩
  | succ n ih =>
    exact {
      proof := fun closing => proof_inOrder_succ (ih.steps closing)
      steps := fun closing =>
        steps_inOrder_succ ih.justification (ih.statement closing) (ih.steps closing)
      statement := fun _ => statement_inOrder_succ ih.assumption ih.step ih.generalization
      step := step_inOrder_succ ih.justification
      justification := justification_inOrder_succ ih.assumption ih.generalization
      assumption := assumption_inOrder_succ ih.braced
      generalization := generalization_inOrder_succ ih.braced
      braced := braced_inOrder_succ (ih.proof _) }

/-! ## Documents -/

theorem theorems_inOrder :
    Sound (theorems systemF n) (InOrder (List.flatMap Theorem.occurrences)) := by
  induction n with
  | zero => exact tooDeep_sound _
  | succ n ih =>
    intro s s' thms hc h
    simp only [theorems, bind_eq_ok] at h
    obtain ⟨tok, s₁, hpeek, h⟩ := h
    obtain ⟨hpeek, rfl⟩ := peek_eq_ok.mp hpeek
    split at h
    · simp only [bind_eq_ok] at h
      obtain ⟨_, s₂, hnext, c, s₃, hclaim, p, s₄, hproof, rest, s₅, hrest, h⟩ := h
      obtain ⟨-, rfl⟩ := next_eq_ok.mp hnext
      obtain ⟨rfl, rfl⟩ := pure_eq_ok.mp h
      obtain ⟨pclaim, stop₃⟩ := claim_inOrder _ _ _ hc.next hclaim
      obtain ⟨pproof, stop₄⟩ :=
        (proofs_inOrder systemF n).proof _ _ _ _ (hc.next.of_stop_eq stop₃) hproof
      have stop : s₄.stop = s₁.stop := stop₄.trans stop₃
      obtain ⟨prest, stop₅⟩ := ih _ _ _ (hc.of_stop_eq stop) hrest
      have hthm := inOrder_append (inOrder_behind (List.tail_suffix _) pclaim) pproof
      exact ⟨inOrder_append hthm prest, stop₅.trans stop⟩
    · obtain ⟨rfl, rfl⟩ := pure_eq_ok.mp h
      exact ⟨List.Sublist.refl _, rfl⟩

end Parser

/-- The names of a document are tokens of its script, in their order. -/
theorem parse_occurrences {src : List UInt8} {systemF : Bool} {d : Document}
    (h : parse src systemF = .ok d) :
    (d.occurrences.map Occurrence.token).Sublist (TokenStream.ofSource src).tokens := by
  obtain ⟨s, hdoc⟩ := parse_eq_ok.mp h
  simp only [Parser.document, Parser.bind_eq_ok] at hdoc
  obtain ⟨first, s₁, hpeek, thms, s₂, hthms, hdoc⟩ := hdoc
  obtain ⟨-, rfl⟩ := Parser.peek_eq_ok.mp hpeek
  obtain ⟨hplaced, -⟩ := Parser.theorems_inOrder _ _ _ (TokenStream.collect_closed _ _) hthms
  split at hdoc
  · obtain ⟨_, _, -, hdoc⟩ := Parser.bind_eq_ok.mp hdoc
    obtain ⟨rfl, -⟩ := Parser.pure_eq_ok.mp hdoc
    exact List.nil_sublist _
  · obtain ⟨_, _, -, hdoc⟩ := Parser.bind_eq_ok.mp hdoc
    obtain ⟨rfl, -⟩ := Parser.pure_eq_ok.mp hdoc
    exact (List.sublist_append_left _ _).trans hplaced

/-- Every name of a document is a token of its script. -/
theorem mem_tokens_of_parse {src : List UInt8} {systemF : Bool} {d : Document}
    (h : parse src systemF = .ok d) {o : Occurrence} (ho : o ∈ d.occurrences) :
    o.token ∈ (TokenStream.ofSource src).tokens :=
  (parse_occurrences h).subset (List.mem_map_of_mem ho)

/-- No position lies on two names of a document. -/
theorem parse_apart {src : List UInt8} {systemF : Bool} {d : Document}
    (h : parse src systemF = .ok d) :
    d.occurrences.Pairwise fun o o' => ∀ p, o.token.On p → ¬o'.token.On p :=
  List.pairwise_map.mp ((TokenStream.ofSource_apart src).sublist (parse_occurrences h))

/-- No two names of a document stand at one place. -/
theorem parse_places_nodup {src : List UInt8} {systemF : Bool} {d : Document}
    (h : parse src systemF = .ok d) : (d.occurrences.map (·.loc.toPosition)).Nodup := by
  rw [List.Nodup, List.pairwise_map]
  refine (parse_apart h).imp_of_mem fun {o o'} ho ho' hapart heq => ?_
  have hon : o.token.On o.loc.toPosition :=
    (TokenStream.ofSource_solid (mem_tokens_of_parse h ho)).on
  have hon' : o'.token.On o'.loc.toPosition :=
    (TokenStream.ofSource_solid (mem_tokens_of_parse h ho')).on
  exact hapart _ hon (heq ▸ hon')

end ProofScript
