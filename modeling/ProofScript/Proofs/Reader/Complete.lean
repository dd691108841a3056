import ProofScript.Proofs.Reader.Sound

/-!
# What is a phrase is read

The other direction: the readers take every phrase and return its tree, up to places. A phrase is
read on its own only where the tokens behind it cannot belong to it, so every statement names the
classes that may follow. A depth of sixteen for each token is enough: between two tokens that are
taken, the readers call each other less than sixteen times.
-/

namespace ProofScript.Parser

open Grammar TokenStream

variable {α : Type} {systemF : Bool} {n : Nat} {stop t : Token} {ts rest : List Token}

/-! ## Single tokens -/

theorem ofTokens_closed (hstop : stop.kind = .eof) : (ofTokens stop ts).Closed := by
  intro u hu
  obtain rfl : stop = u := by simpa [ofTokens] using hu
  exact hstop

theorem peek_ofTokens (hstop : stop.kind = .eof) (ts : List Token) (i : Nat) :
    ∃ u, peek i (ofTokens stop ts) = .ok (u, ofTokens stop ts) ∧ u.kind = ahead (ts.drop i) := by
  cases h : ts.drop i with
  | nil =>
    refine ⟨stop, peek_eq_ok.mpr ⟨?_, rfl⟩, hstop⟩
    have hlen : ts.length ≤ i := List.drop_eq_nil_iff.mp h
    simp [TokenStream.peek, ofTokens, hlen]
  | cons u us =>
    refine ⟨u, peek_eq_ok.mpr ⟨?_, rfl⟩, rfl⟩
    have hget : ts[i]? = some u := by
      rw [← List.head?_drop, h]
      rfl
    simp [TokenStream.peek, ofTokens, hget]

theorem peek_zero_ofTokens_cons :
    peek 0 (ofTokens stop (t :: ts)) = .ok (t, ofTokens stop (t :: ts)) := rfl

theorem next_ofTokens_eq : next (ofTokens stop (t :: ts)) = .ok (t, ofTokens stop ts) := rfl

theorem expect_ofTokens {kinds : List TokenKind} (h : t.kind ∈ kinds) :
    expect kinds (ofTokens stop (t :: ts)) = .ok (t, ofTokens stop ts) :=
  expect_eq_ok.mpr ⟨rfl, h, rfl⟩

theorem accept_ofTokens {kind : TokenKind} (h : t.kind = kind) :
    accept kind (ofTokens stop (t :: ts)) = .ok (true, ofTokens stop ts) :=
  accept_eq_ok.mpr ⟨t, rfl, .inl ⟨h, rfl, rfl⟩⟩

theorem accept_ofTokens_of_ne {kind : TokenKind} (hstop : stop.kind = .eof)
    (h : ahead ts ≠ kind) : accept kind (ofTokens stop ts) = .ok (false, ofTokens stop ts) := by
  obtain ⟨u, hu, hkind⟩ := peek_ofTokens hstop ts 0
  obtain ⟨hu, -⟩ := peek_eq_ok.mp hu
  refine accept_eq_ok.mpr ⟨u, hu, .inr ⟨?_, rfl, rfl⟩⟩
  rw [hkind]
  exact h

/-- The reader takes the tokens in front of the rest and returns the tree, up to places. -/
def Yields (stop : Token) (p : Parser α) (erase : α → α) : Category α := fun ts a rest =>
  ∃ a', p (ofTokens stop ts) = .ok (a', ofTokens stop rest) ∧ erase a' = erase a

/-! ## Type variables -/

theorem typeVars_complete {vars : List String} (hstop : stop.kind = .eof)
    (h : Separated TypeVar ts vars rest) (hafter : ahead rest ≠ .comma) (hn : ts.length ≤ n) :
    typeVars n (ofTokens stop ts) = .ok (vars, ofTokens stop rest) := by
  induction h generalizing n with
  | one h =>
    cases h with
    | word t ht =>
      obtain ⟨n, rfl⟩ : ∃ m, n = m + 1 := ⟨n - 1, by simp at hn; omega⟩
      rw [typeVars, bind_of_ok (expect_ofTokens (by simp [ht])),
        bind_of_ok (accept_ofTokens_of_ne hstop hafter)]
      rfl
  | more h hcomma _ ih =>
    cases h with
    | word t ht =>
      obtain ⟨n, rfl⟩ : ∃ m, n = m + 1 := ⟨n - 1, by simp at hn; omega⟩
      have hrest := ih hafter (n := n) (by simp at hn; omega)
      rw [typeVars, bind_of_ok (expect_ofTokens (by simp [ht])),
        bind_of_ok (accept_ofTokens hcomma)]
      simp only [if_true]
      rw [bind_of_ok hrest]
      rfl

/-! ## Propositions -/

/-- The classes that start a proposition of a level. -/
def starts : Level → List TokenKind
  | .quantified => [.forallKeyword, .not, .typeVar, .lparen]
  | .atom => [.typeVar, .lparen]
  | _ => [.not, .typeVar, .lparen]

theorem Proposition.ahead_mem {level : Level} {f : Formula}
    (h : Proposition systemF level ts f rest) : ahead ts ∈ starts level := by
  induction h with
  | quantifier _ hq => simp [ahead, hq, starts]
  | ofImplication _ ih => exact List.mem_cons_of_mem _ ih
  | tilde hop => simp [ahead, hop, starts]
  | ofAtom _ ih => exact List.mem_cons_of_mem _ ih
  | var ht => simp [ahead, ht, starts]
  | predicate _ ht => simp [ahead, ht, starts]
  | parentheses hopen => simp [ahead, hopen, starts]
  | _ => assumption

/-- Nothing of these tokens can belong to a proposition in front of them. -/
def EndsProposition (rest : List Token) : Prop :=
  ahead rest ∉ [.implies, .or, .and, .lbracket]

/-- The reader takes the tokens in front of the rest and goes on with the reader of what may follow
the tree, up to places. -/
def GoesOn (stop : Token) (p : Parser Formula) (more : Nat → Formula → Parser Formula) :
    Category Formula := fun ts f rest =>
  ∃ m f', 16 * rest.length + 1 ≤ m ∧ f'.erase = f.erase ∧
    p (ofTokens stop ts) = more m f' (ofTokens stop rest)

/-! ### Operands joined to the left

Disjunctions and conjunctions are read alike: an operand, and then the rest of the operands, each
behind the connective. -/

section Chain

variable {connective : TokenKind} {join : Formula → Formula → Location → Formula}
  {operand : Nat → Parser Formula} {more : Nat → Formula → Parser Formula} {p : Parser Formula}

/-- The second reader joins to a tree the operands that follow it, each behind the connective. -/
def Joins (connective : TokenKind) (join : Formula → Formula → Location → Formula)
    (operand : Nat → Parser Formula) (more : Nat → Formula → Parser Formula) : Prop :=
  ∀ n left, more (n + 1) left = do
    if ← accept connective then
      let right ← operand n
      more n (join left right left.loc)
    else return left

theorem joins_disjunctionRest :
    Joins .or .disj (conjunction systemF) (disjunctionRest systemF) := fun _ _ => by
  rw [disjunctionRest]

theorem joins_conjunctionRest :
    Joins .and .conj (negation systemF) (conjunctionRest systemF) := fun _ _ => by
  rw [conjunctionRest]

/-- One operand is read, and what may follow it is still to come. -/
theorem goesOn_operand {f : Formula} (hp : p = operand n >>= more n)
    (h : Yields stop (operand n) Formula.erase ts f rest) (hn : 16 * rest.length + 1 ≤ n) :
    GoesOn stop p more ts f rest := by
  obtain ⟨f', hf', herase⟩ := h
  refine ⟨n, f', hn, herase, ?_⟩
  rw [hp, bind_of_ok hf']

/-- Behind a connective the next operand is joined to those that are read. -/
theorem GoesOn.joined {a b : Formula} {loc : Location} (hmore : Joins connective join operand more)
    (herase : ∀ a' b' at_, a'.erase = a.erase → b'.erase = b.erase →
      (join a' b' at_).erase = (join a b loc).erase)
    (h : GoesOn stop p more ts a (t :: rest)) (ht : t.kind = connective) {after : List Token}
    (hb : ∀ n, 16 * rest.length + 3 ≤ n → Yields stop (operand n) Formula.erase rest b after)
    (hlen : after.length < rest.length) : GoesOn stop p more ts (join a b loc) after := by
  obtain ⟨m, a', hm, herasea, heq⟩ := h
  obtain ⟨m, rfl⟩ : ∃ k, m = k + 1 := ⟨m - 1, by omega⟩
  simp only [List.length_cons] at hm
  obtain ⟨b', hb', heraseb⟩ := hb m (by omega)
  refine ⟨m, join a' b' a'.loc, by omega, herase _ _ _ herasea heraseb, ?_⟩
  rw [heq, hmore, bind_of_ok (accept_ofTokens ht)]
  simp only [if_true]
  rw [bind_of_ok hb']

/-- Where no connective follows, the operands that are read are all. -/
theorem GoesOn.yields {f : Formula} (hstop : stop.kind = .eof)
    (hmore : Joins connective join operand more) (h : GoesOn stop p more ts f rest)
    (hrest : ahead rest ≠ connective) : Yields stop p Formula.erase ts f rest := by
  obtain ⟨m, f', hm, hf', heq⟩ := h
  obtain ⟨m, rfl⟩ : ∃ k, m = k + 1 := ⟨m - 1, by omega⟩
  refine ⟨f', ?_, hf'⟩
  rw [heq, hmore, bind_of_ok (accept_ofTokens_of_ne hstop hrest)]
  rfl

end Chain

/-! ### Level by level -/

theorem formula_quantifier {ts' : List Token} {q dot : Token} {vars : List String} {f : Formula}
    {loc : Location} (hstop : stop.kind = .eof) (hsf : systemF = true)
    (hq : q.kind = .forallKeyword) (hvars : Separated TypeVar ts vars (dot :: ts'))
    (hdot : dot.kind = .dot) (hn : ts.length ≤ n)
    (h : Yields stop (implication systemF n) Formula.erase ts' f rest) :
    Yields stop (formula systemF (n + 1)) Formula.erase (q :: ts) (.all vars f loc) rest := by
  obtain ⟨f', hf', herase⟩ := h
  refine ⟨.all vars f' q.loc, ?_, by simp [Formula.erase, herase]⟩
  rw [formula, bind_of_ok peek_zero_ofTokens_cons, if_pos hq, bind_of_ok (require_of hsf),
    bind_of_ok next_ofTokens_eq,
    bind_of_ok (typeVars_complete hstop hvars (by simp [ahead, hdot]) hn),
    bind_of_ok (expect_ofTokens (by simp [hdot])), bind_of_ok hf']
  rfl

theorem formula_implication (hstop : stop.kind = .eof) (h : ahead ts ≠ .forallKeyword) :
    formula systemF (n + 1) (ofTokens stop ts) = implication systemF n (ofTokens stop ts) := by
  obtain ⟨u, hu, hkind⟩ := peek_ofTokens hstop ts 0
  rw [formula, bind_of_ok hu, if_neg (by rw [hkind]; exact h)]

theorem implication_arrow {a b : Formula} {loc : Location} {op : Token}
    (ha : Yields stop (disjunction systemF n) Formula.erase ts a (op :: rest))
    (hop : op.kind = .implies) {after : List Token}
    (hb : Yields stop (implication systemF n) Formula.erase rest b after) :
    Yields stop (implication systemF (n + 1)) Formula.erase ts (.impl a b loc) after := by
  obtain ⟨a', ha', erasea⟩ := ha
  obtain ⟨b', hb', eraseb⟩ := hb
  refine ⟨.impl a' b' a'.loc, ?_, by simp [Formula.erase, erasea, eraseb]⟩
  rw [implication, bind_of_ok ha', bind_of_ok (accept_ofTokens hop)]
  simp only [if_true]
  rw [bind_of_ok hb']
  rfl

theorem implication_disjunction {f : Formula} (hstop : stop.kind = .eof)
    (h : Yields stop (disjunction systemF n) Formula.erase ts f rest)
    (hrest : ahead rest ≠ .implies) :
    Yields stop (implication systemF (n + 1)) Formula.erase ts f rest := by
  obtain ⟨f', hf', herase⟩ := h
  refine ⟨f', ?_, herase⟩
  rw [implication, bind_of_ok hf', bind_of_ok (accept_ofTokens_of_ne hstop hrest)]
  rfl

theorem negation_tilde {op : Token} {f : Formula} {loc : Location} (hop : op.kind = .not)
    (h : Yields stop (negation systemF n) Formula.erase ts f rest) :
    Yields stop (negation systemF (n + 1)) Formula.erase (op :: ts) (.neg f loc) rest := by
  obtain ⟨f', hf', herase⟩ := h
  refine ⟨.neg f' op.loc, ?_, by simp [Formula.erase, herase]⟩
  rw [negation, bind_of_ok peek_zero_ofTokens_cons, if_pos hop, bind_of_ok next_ofTokens_eq,
    bind_of_ok hf']
  rfl

theorem negation_atom (hstop : stop.kind = .eof) (h : ahead ts ≠ .not) :
    negation systemF (n + 1) (ofTokens stop ts) = atom systemF n (ofTokens stop ts) := by
  obtain ⟨u, hu, hkind⟩ := peek_ofTokens hstop ts 0
  rw [negation, bind_of_ok hu, if_neg (by rw [hkind]; exact h)]

theorem atom_var {loc : Location} (hstop : stop.kind = .eof) (ht : t.kind = .typeVar)
    (hrest : ahead rest ≠ .lbracket) :
    Yields stop (atom systemF (n + 1)) Formula.erase (t :: rest) (.atom t.value [] loc) rest := by
  obtain ⟨u, hu, hkind⟩ := peek_ofTokens hstop rest 0
  refine ⟨.atom t.value [] t.loc, ?_, rfl⟩
  rw [atom, bind_of_ok (expect_ofTokens (by simp [ht])), if_neg (by simp [ht]), bind_of_ok hu,
    if_neg (by rw [hkind]; exact hrest)]
  rfl

theorem atom_predicate {opening closing : Token} {args : List String} {loc : Location}
    (hstop : stop.kind = .eof) (hsf : systemF = true) (ht : t.kind = .typeVar)
    (hopen : opening.kind = .lbracket) (hargs : Separated TypeVar ts args (closing :: rest))
    (hclose : closing.kind = .rbracket) (hn : ts.length ≤ n) :
    Yields stop (atom systemF (n + 1)) Formula.erase (t :: opening :: ts)
      (.atom t.value args loc) rest := by
  refine ⟨.atom t.value args t.loc, ?_, rfl⟩
  rw [atom, bind_of_ok (expect_ofTokens (by simp [ht])), if_neg (by simp [ht]),
    bind_of_ok peek_zero_ofTokens_cons, if_pos hopen, bind_of_ok (require_of hsf),
    bind_of_ok next_ofTokens_eq,
    bind_of_ok (typeVars_complete hstop hargs (by simp [ahead, hclose]) hn),
    bind_of_ok (expect_ofTokens (by simp [hclose]))]
  rfl

theorem atom_parentheses {opening closing : Token} {f : Formula} (hopen : opening.kind = .lparen)
    (h : Yields stop (formula systemF n) Formula.erase ts f (closing :: rest))
    (hclose : closing.kind = .rparen) :
    Yields stop (atom systemF (n + 1)) Formula.erase (opening :: ts) f rest := by
  obtain ⟨f', hf', herase⟩ := h
  refine ⟨f', ?_, herase⟩
  rw [atom, bind_of_ok (expect_ofTokens (by simp [hopen])), if_pos hopen, bind_of_ok hf',
    bind_of_ok (expect_ofTokens (by simp [hclose]))]
  rfl

/-- What the reader of a level makes of a phrase. The readers of disjunctions and conjunctions go
on from a phrase with the reader of the rest, whatever follows. -/
def Reached (systemF : Bool) (stop : Token) : Level → Category Formula
  | .quantified, ts, f, rest =>
    EndsProposition rest → ∀ n, 16 * ts.length + 6 ≤ n →
      Yields stop (formula systemF n) Formula.erase ts f rest
  | .implication, ts, f, rest =>
    EndsProposition rest → ∀ n, 16 * ts.length + 5 ≤ n →
      Yields stop (implication systemF n) Formula.erase ts f rest
  | .disjunction, ts, f, rest =>
    ahead rest ∉ [.and, .lbracket] → ∀ n, 16 * ts.length + 4 ≤ n →
      GoesOn stop (disjunction systemF n) (disjunctionRest systemF) ts f rest
  | .conjunction, ts, f, rest =>
    ahead rest ≠ .lbracket → ∀ n, 16 * ts.length + 3 ≤ n →
      GoesOn stop (conjunction systemF n) (conjunctionRest systemF) ts f rest
  | .negation, ts, f, rest =>
    ahead rest ≠ .lbracket → ∀ n, 16 * ts.length + 2 ≤ n →
      Yields stop (negation systemF n) Formula.erase ts f rest
  | .atom, ts, f, rest =>
    ahead rest ≠ .lbracket → ∀ n, 16 * ts.length + 1 ≤ n →
      Yields stop (atom systemF n) Formula.erase ts f rest

theorem Proposition.reached {level : Level} {f : Formula} (hstop : stop.kind = .eof)
    (h : Proposition systemF level ts f rest) : Reached systemF stop level ts f rest := by
  induction h with
  | quantifier hsf hq hvars hdot _ ih =>
    intro hafter n hn
    obtain ⟨n, rfl⟩ : ∃ m, n = m + 1 := ⟨n - 1, by omega⟩
    have hlen := (typeVars_takes hvars).length_lt
    simp only [List.length_cons] at hn hlen
    exact formula_quantifier hstop hsf hq hvars hdot (by omega) (ih hafter n (by omega))
  | ofImplication h ih =>
    intro hafter n hn
    obtain ⟨n, rfl⟩ : ∃ m, n = m + 1 := ⟨n - 1, by omega⟩
    have hstart := Proposition.ahead_mem h
    rw [Yields, formula_implication hstop (by intro hq; simp [hq, starts] at hstart)]
    exact ih hafter n (by omega)
  | arrow ha hop hb iha ihb =>
    intro hafter n hn
    obtain ⟨n, rfl⟩ : ∃ m, n = m + 1 := ⟨n - 1, by omega⟩
    have hlen := (Proposition.takes ha).length_lt
    simp only [List.length_cons] at hlen
    have ha' := (iha (by simp [ahead, hop]) n (by omega)).yields hstop joins_disjunctionRest
      (by simp [ahead, hop])
    exact implication_arrow ha' hop (ihb hafter n (by omega))
  | ofDisjunction _ ih =>
    intro hafter n hn
    obtain ⟨n, rfl⟩ : ∃ m, n = m + 1 := ⟨n - 1, by omega⟩
    simp only [EndsProposition, List.mem_cons, List.not_mem_nil, or_false, not_or] at hafter
    have h' := (ih (by simp [hafter]) n (by omega)).yields hstop joins_disjunctionRest hafter.2.1
    exact implication_disjunction hstop h' hafter.1
  | bar ha hop hb iha ihb =>
    intro hafter n hn
    have hlen := (Proposition.takes hb).length_lt
    simp only [List.mem_cons, List.not_mem_nil, or_false, not_or] at hafter
    refine (iha (by simp [ahead, hop]) n hn).joined joins_disjunctionRest
      (by intros; simp [Formula.erase, *]) hop (fun m hm => ?_) hlen
    exact (ihb hafter.2 m hm).yields hstop joins_conjunctionRest hafter.1
  | ofConjunction h ih =>
    intro hafter n hn
    obtain ⟨n, rfl⟩ : ∃ m, n = m + 1 := ⟨n - 1, by omega⟩
    have hlen := (Proposition.takes h).length_lt
    simp only [List.mem_cons, List.not_mem_nil, or_false, not_or] at hafter
    exact goesOn_operand (disjunction.eq_2 systemF n)
      ((ih hafter.2 n (by omega)).yields hstop joins_conjunctionRest hafter.1) (by omega)
  | ampersand ha hop hb iha ihb =>
    intro hafter n hn
    have hlen := (Proposition.takes hb).length_lt
    exact (iha (by simp [ahead, hop]) n hn).joined joins_conjunctionRest
      (by intros; simp [Formula.erase, *]) hop (fun m hm => ihb hafter m (by omega)) hlen
  | ofNegation h ih =>
    intro hafter n hn
    obtain ⟨n, rfl⟩ : ∃ m, n = m + 1 := ⟨n - 1, by omega⟩
    have hlen := (Proposition.takes h).length_lt
    exact goesOn_operand (conjunction.eq_2 systemF n) (ih hafter n (by omega)) (by omega)
  | tilde hop _ ih =>
    intro hafter n hn
    obtain ⟨n, rfl⟩ : ∃ m, n = m + 1 := ⟨n - 1, by omega⟩
    simp only [List.length_cons] at hn
    exact negation_tilde hop (ih hafter n (by omega))
  | ofAtom h ih =>
    intro hafter n hn
    obtain ⟨n, rfl⟩ : ∃ m, n = m + 1 := ⟨n - 1, by omega⟩
    have hstart := Proposition.ahead_mem h
    rw [Yields, negation_atom hstop (by intro hq; simp [hq, starts] at hstart)]
    exact ih hafter n (by omega)
  | var ht =>
    intro hafter n hn
    obtain ⟨n, rfl⟩ : ∃ m, n = m + 1 := ⟨n - 1, by omega⟩
    exact atom_var hstop ht hafter
  | predicate hsf ht hopen hargs hclose =>
    intro hafter n hn
    obtain ⟨n, rfl⟩ : ∃ m, n = m + 1 := ⟨n - 1, by omega⟩
    simp only [List.length_cons] at hn
    exact atom_predicate hstop hsf ht hopen hargs hclose (by omega)
  | parentheses hopen _ hclose ih =>
    intro hafter n hn
    obtain ⟨n, rfl⟩ : ∃ m, n = m + 1 := ⟨n - 1, by omega⟩
    simp only [List.length_cons] at hn
    exact atom_parentheses hopen
      (ih (by simp [EndsProposition, ahead, hclose]) n (by omega)) hclose

/-- A whole proposition is read where nothing that follows can belong to it. -/
theorem formula_complete {f : Formula} (hstop : stop.kind = .eof)
    (h : Proposition systemF .quantified ts f rest) (hafter : EndsProposition rest)
    (hn : 16 * ts.length + 6 ≤ n) : Yields stop (formula systemF n) Formula.erase ts f rest :=
  Proposition.reached hstop h hafter n hn

/-! ## Claims and arguments -/

theorem label_of_ne (hstop : stop.kind = .eof) (h : ahead ts ≠ .identifier) :
    label (ofTokens stop ts) = .ok (none, ofTokens stop ts) := by
  obtain ⟨u, hu, hkind⟩ := peek_ofTokens hstop ts 0
  rw [label, bind_of_ok hu, if_neg (by rw [hkind]; exact h)]
  rfl

/-- A name without a colon behind it is no label. -/
theorem label_of_ne_colon (hstop : stop.kind = .eof) (h : ahead ts ≠ .colon) :
    label (ofTokens stop (t :: ts)) = .ok (none, ofTokens stop (t :: ts)) := by
  obtain ⟨u, hu, hkind⟩ := peek_ofTokens hstop (t :: ts) 1
  rw [label, bind_of_ok peek_zero_ofTokens_cons]
  split
  · rw [bind_of_ok hu, if_neg (by rw [hkind]; exact h)]
    rfl
  · rfl

theorem label_of_colon {colon : Token} (ht : t.kind = .identifier) (hcolon : colon.kind = .colon) :
    label (ofTokens stop (t :: colon :: ts)) = .ok (some t.value, ofTokens stop ts) := by
  have hpeek : peek 1 (ofTokens stop (t :: colon :: ts)) =
      .ok (colon, ofTokens stop (t :: colon :: ts)) := rfl
  rw [label, bind_of_ok peek_zero_ofTokens_cons, if_pos ht, bind_of_ok hpeek, if_pos hcolon,
    bind_of_ok next_ofTokens_eq, bind_of_ok next_ofTokens_eq]
  rfl

/-- In front of a proposition, a label is read whether it is there or not. -/
theorem label_complete {name : Option String} {mid : List Token} {f : Formula}
    (hstop : stop.kind = .eof) (h : Label ts name mid)
    (hf : Proposition systemF .quantified mid f rest) :
    label (ofTokens stop ts) = .ok (name, ofTokens stop mid) := by
  cases h with
  | absent =>
    apply label_of_ne hstop
    intro hk
    have hstart := Proposition.ahead_mem hf
    simp [hk, starts] at hstart
  | name ht hcolon => exact label_of_colon ht hcolon

theorem claim_complete {c : Claim} (hstop : stop.kind = .eof) (h : Named systemF ts c rest)
    (hafter : EndsProposition rest) (hn : 16 * ts.length + 6 ≤ n) :
    Yields stop (claim systemF n) Claim.erase ts c rest := by
  cases h with
  | @claim _ mid _ name f _ hname hf =>
    have hlen := hname.suffix.length_le
    obtain ⟨f', hf', herase⟩ := formula_complete hstop hf hafter (n := n) (by omega)
    obtain ⟨u, hu, -⟩ := peek_ofTokens hstop ts 0
    refine ⟨⟨name, f', u.loc⟩, ?_, by simp [Claim.erase, herase]⟩
    rw [claim, bind_of_ok hu, bind_of_ok (label_complete hstop hname hf), bind_of_ok hf']
    rfl

theorem claimOrHole_complete {c : Claim} (hstop : stop.kind = .eof)
    (h : Claimed systemF ts c rest) (hby : ahead rest = .byKeyword)
    (hn : 16 * ts.length + 6 ≤ n) :
    Yields stop (claimOrHole systemF n) Claim.erase ts c rest := by
  obtain ⟨u, hu, -⟩ := peek_ofTokens hstop ts 0
  cases h with
  | stated h =>
    cases h with
    | @claim _ mid _ name f _ hname hf =>
      have hlen := hname.suffix.length_le
      obtain ⟨f', hf', herase⟩ :=
        formula_complete hstop hf (by simp [EndsProposition, hby]) (n := n) (by omega)
      obtain ⟨v, hv, hkind⟩ := peek_ofTokens hstop mid 0
      have hstart : v.kind ∈ starts .quantified := hkind ▸ Proposition.ahead_mem hf
      refine ⟨⟨name, f', u.loc⟩, ?_, by simp [Claim.erase, herase]⟩
      rw [claimOrHole, bind_of_ok hu, bind_of_ok (label_complete hstop hname hf), bind_of_ok hv,
        if_neg (by rintro ⟨hk, -⟩; simp [hk, starts] at hstart), bind_of_ok hf']
      rfl
  | @hole _ _ name t _ hname ht hvalue =>
    have hlabel : label (ofTokens stop ts) = .ok (name, ofTokens stop (t :: rest)) := by
      cases hname with
      | absent => exact label_of_ne_colon hstop (by simp [hby])
      | name ht hcolon => exact label_of_colon ht hcolon
    refine ⟨⟨name, .hole, u.loc⟩, ?_, rfl⟩
    rw [claimOrHole, bind_of_ok hu, bind_of_ok hlabel, bind_of_ok peek_zero_ofTokens_cons,
      if_pos ⟨ht, hvalue⟩, bind_of_ok next_ofTokens_eq]
    rfl

theorem argument_complete {a : Argument} (hstop : stop.kind = .eof)
    (h : Operand systemF ts a rest) (hafter : EndsProposition rest)
    (hn : 16 * ts.length + 6 ≤ n) :
    Yields stop (argument systemF n) Argument.erase ts a rest := by
  cases h with
  | @fact _ t loc ht =>
    refine ⟨.fact t.value t.loc, ?_, rfl⟩
    rw [argument, bind_of_ok peek_zero_ofTokens_cons, if_pos ht, bind_of_ok next_ofTokens_eq]
    rfl
  | @proposition _ _ f hf =>
    obtain ⟨f', hf', herase⟩ := formula_complete hstop hf hafter hn
    obtain ⟨u, hu, hkind⟩ := peek_ofTokens hstop ts 0
    have hstart : u.kind ∈ starts .quantified := hkind ▸ Proposition.ahead_mem hf
    refine ⟨.prop f', ?_, by simp [Argument.erase, herase]⟩
    rw [argument, bind_of_ok hu, if_neg (by intro hk; simp [hk, starts] at hstart), bind_of_ok hf']
    rfl

/-- A reader that repeats a reader after each comma takes every separated list. -/
theorem separated_complete {p : Nat → Parser α} {ps : Nat → Parser (List α)}
    {category : Category α} {erase : α → α} {as : List α} (hstop : stop.kind = .eof)
    (hps : ∀ n, ps (n + 1) = do
      let a ← p n
      if ← accept .comma then
        let rest ← ps n
        return a :: rest
      else return [a])
    (htakes : ∀ ts a rest, category ts a rest → Takes ts rest)
    (hp : ∀ {n ts a rest}, category ts a rest → EndsProposition rest → 16 * ts.length + 6 ≤ n →
      Yields stop (p n) erase ts a rest)
    (h : Separated category ts as rest) (hafter : EndsProposition rest)
    (hcomma : ahead rest ≠ .comma) (hn : 16 * ts.length + 7 ≤ n) :
    Yields stop (ps n) (List.map erase) ts as rest := by
  induction h generalizing n with
  | @one ts rest a ha =>
    obtain ⟨n, rfl⟩ : ∃ m, n = m + 1 := ⟨n - 1, by omega⟩
    obtain ⟨a', ha', herase⟩ := hp ha hafter (n := n) (by omega)
    refine ⟨[a'], ?_, by simp [herase]⟩
    rw [hps, bind_of_ok ha', bind_of_ok (accept_ofTokens_of_ne hstop hcomma)]
    rfl
  | @more ts ts' rest comma a as ha hsep has ih =>
    obtain ⟨n, rfl⟩ : ∃ m, n = m + 1 := ⟨n - 1, by omega⟩
    have hlen := (htakes _ _ _ ha).length_lt
    simp only [List.length_cons] at hlen
    obtain ⟨a', ha', herase⟩ := hp ha (by simp [EndsProposition, ahead, hsep]) (n := n) (by omega)
    obtain ⟨as', has', heraseas⟩ := ih hafter hcomma (n := n) (by omega)
    refine ⟨a' :: as', ?_, by simp [herase, heraseas]⟩
    rw [hps, bind_of_ok ha', bind_of_ok (accept_ofTokens hsep)]
    simp only [if_true]
    rw [bind_of_ok has']
    rfl

theorem claims_complete {cs : List Claim} (hstop : stop.kind = .eof)
    (h : Separated (Named systemF) ts cs rest) (hafter : EndsProposition rest)
    (hcomma : ahead rest ≠ .comma) (hn : 16 * ts.length + 7 ≤ n) :
    Yields stop (claims systemF n) (List.map Claim.erase) ts cs rest :=
  separated_complete hstop (fun _ => by rw [claims]) (fun _ _ _ => Named.takes)
    (claim_complete hstop) h hafter hcomma hn

theorem arguments_complete {as : List Argument} (hstop : stop.kind = .eof)
    (h : Separated (Operand systemF) ts as rest) (hafter : EndsProposition rest)
    (hcomma : ahead rest ≠ .comma) (hn : 16 * ts.length + 7 ≤ n) :
    Yields stop (arguments systemF n) (List.map Argument.erase) ts as rest :=
  separated_complete hstop (fun _ => by rw [arguments]) (fun _ _ _ => Operand.takes)
    (argument_complete hstop) h hafter hcomma hn

/-! ## Applications -/

/-- The lookahead behind a quantifier comes to an answer: each round passes two tokens. -/
theorem quantifierAhead_total (hstop : stop.kind = .eof) {i : Nat} (hi : i ≤ ts.length)
    (hn : ts.length < i + 2 * n) :
    ∃ b, quantifierAhead n i (ofTokens stop ts) = .ok (b, ofTokens stop ts) := by
  induction n generalizing i with
  | zero => omega
  | succ n ih =>
    obtain ⟨u, hu, -⟩ := peek_ofTokens hstop ts i
    obtain ⟨v, hv, hkind⟩ := peek_ofTokens hstop ts (i + 1)
    rw [quantifierAhead, bind_of_ok hu]
    split
    · exact ⟨true, rfl⟩
    · rw [bind_of_ok hv]
      split
      · rename_i hcomma
        have hlt : i + 1 < ts.length := by
          apply Nat.lt_of_not_le
          intro hge
          rw [List.drop_eq_nil_of_le hge, hcomma] at hkind
          simp [ahead] at hkind
        exact ih hlt (by omega)
      · exact ⟨_, rfl⟩

theorem startsArgument_total (systemF : Bool) (ts : List Token) (hstop : stop.kind = .eof)
    (hn : ts.length ≤ n) :
    ∃ b, startsArgument systemF n (ahead ts) (ofTokens stop ts) = .ok (b, ofTokens stop ts) := by
  generalize hk : ahead ts = kind
  cases kind
  case forallKeyword =>
    cases systemF with
    | false => exact ⟨false, rfl⟩
    | true =>
      have hpos : 1 ≤ ts.length := by
        cases ts with
        | nil => simp [ahead] at hk
        | cons => simp
      exact quantifierAhead_total hstop hpos (by omega)
  all_goals exact ⟨_, rfl⟩

theorem application_complete {j : Justification} (hstop : stop.kind = .eof)
    (h : Application systemF ts j rest) (hafter : EndsProposition rest)
    (hcomma : ahead rest ≠ .comma) (hn : 16 * ts.length ≤ n) :
    Yields stop (application systemF n) Justification.erase ts j rest := by
  cases h with
  | @bare _ t loc ht hstarts =>
    obtain ⟨u, hu, hkind⟩ := peek_ofTokens hstop rest 0
    simp only [List.length_cons] at hn
    obtain ⟨b, hb⟩ := startsArgument_total systemF rest hstop (n := n) (by omega)
    have hfalse : b = false := by
      have hspec := (startsArgument_spec (ofTokens_closed hstop) hb).2
      simpa using fun htrue => hstarts (hspec.mp htrue)
    refine ⟨.apply t.value [] t.loc, ?_, rfl⟩
    rw [application, bind_of_ok (expect_ofTokens (by simp [ht])), bind_of_ok hu, hkind,
      List.drop_zero, bind_of_ok hb, hfalse]
    rfl
  | @applied ts _ t args loc ht hstarts hargs =>
    obtain ⟨u, hu, hkind⟩ := peek_ofTokens hstop ts 0
    simp only [List.length_cons] at hn
    obtain ⟨b, hb⟩ := startsArgument_total systemF ts hstop (n := n) (by omega)
    have htrue : b = true := (startsArgument_spec (ofTokens_closed hstop) hb).2.mpr hstarts
    obtain ⟨args', hargs', herase⟩ :=
      arguments_complete hstop hargs hafter hcomma (n := n) (by omega)
    refine ⟨.apply t.value args' t.loc, ?_, by simp [Justification.erase, herase]⟩
    rw [application, bind_of_ok (expect_ofTokens (by simp [ht])), bind_of_ok hu, hkind,
      List.drop_zero, bind_of_ok hb, htrue]
    simp only [if_true]
    rw [bind_of_ok hargs']
    rfl

/-! ## Proofs -/

/-- The classes behind a proof. -/
def closings : List TokenKind := [.rbrace, .theoremKeyword, .eof]

/-- Nothing of these tokens can belong to a statement or a justification in front of them. -/
def EndsStatement (rest : List Token) : Prop :=
  ahead rest ∈ [.semi, .assumeKeyword, .haveKeyword, .forallKeyword, .byKeyword] ++ closings

theorem EndsStatement.endsProposition (h : EndsStatement rest) : EndsProposition rest := by
  unfold EndsProposition
  generalize hk : ahead rest = kind
  simp only [EndsStatement, closings, hk] at h
  revert h
  cases kind <;> decide

theorem EndsStatement.ne_comma (h : EndsStatement rest) : ahead rest ≠ .comma := by
  intro hk
  simp [EndsStatement, closings, hk] at h

theorem StatementText.ahead_mem {s : Statement} (h : StatementText systemF ts s rest) :
    ahead ts ∈ [.assumeKeyword, .haveKeyword, .forallKeyword] := by
  cases h with
  | step hkeyword => simp [ahead, hkeyword]
  | block h =>
    cases h with
    | assume hkeyword => simp [ahead, hkeyword]
    | generalize _ hkeyword => simp [ahead, hkeyword]

theorem StepsText.ahead_mem {s : Steps} (h : StepsText systemF ts s rest) :
    ahead ts ∈ [.byKeyword, .assumeKeyword, .haveKeyword, .forallKeyword] := by
  cases h with
  | last h => exact List.mem_cons_of_mem _ (StatementText.ahead_mem h)
  | conclude hkeyword => simp [ahead, hkeyword]
  | more h => exact List.mem_cons_of_mem _ (StatementText.ahead_mem h)

/-- An optional semicolon is read where none follows it. -/
theorem accept_semicolon (hstop : stop.kind = .eof) (h : Semicolon ts rest)
    (hafter : ahead rest ≠ .semi) :
    ∃ b, accept .semi (ofTokens stop ts) = .ok (b, ofTokens stop rest) := by
  cases h with
  | absent => exact ⟨false, accept_ofTokens_of_ne hstop hafter⟩
  | present ht => exact ⟨true, accept_ofTokens ht⟩

theorem semicolon_endsStatement (h : Semicolon ts rest) (hrest : EndsStatement rest) :
    EndsStatement ts := by
  cases h with
  | absent => exact hrest
  | present ht => simp [EndsStatement, ahead, ht]

theorem endsStatement_of_mem {closing : List TokenKind} (hclosing : closing ⊆ closings)
    (h : ahead rest ∈ closing) : EndsStatement rest :=
  List.mem_append_right _ (hclosing h)

theorem ne_semi_of_mem {closing : List TokenKind} (hclosing : closing ⊆ closings)
    (h : ahead rest ∈ closing) : ahead rest ≠ .semi := by
  intro hk
  have hmem := hclosing h
  simp [hk, closings] at hmem

theorem endsStatement_of_steps {s : Steps} (h : StepsText systemF ts s rest) :
    EndsStatement ts := by
  have hmem := StepsText.ahead_mem h
  unfold EndsStatement
  revert hmem
  generalize ahead ts = kind
  cases kind <;> simp

theorem endsProposition_of_proof {p : Proof} (h : ProofText systemF ts p rest) :
    EndsProposition ts := by
  cases h with
  | steps h => exact (endsStatement_of_steps h).endsProposition

/-- Where a closing class is ahead there are no steps. -/
theorem steps_of_closing {closing : List TokenKind} (hstop : stop.kind = .eof)
    (h : ahead ts ∈ closing) :
    steps systemF closing (n + 1) (ofTokens stop ts) = .ok (none, ofTokens stop ts) := by
  obtain ⟨u, hu, hkind⟩ := peek_ofTokens hstop ts 0
  rw [steps, bind_of_ok hu, if_pos (by rw [hkind]; exact h)]
  rfl

/-- A statement is read, and then the steps behind it. -/
theorem steps_of_statement {closing : List TokenKind} {mid : List Token} {s : Statement}
    {more : Option Steps} (hstop : stop.kind = .eof) (hclosing : closing ⊆ closings)
    (h : ahead ts ∈ [.assumeKeyword, .haveKeyword, .forallKeyword])
    (hs : statement systemF closing n (ofTokens stop ts) = .ok (s, ofTokens stop mid))
    (hsemi : ∃ b, accept .semi (ofTokens stop mid) = .ok (b, ofTokens stop rest))
    {after : List Token}
    (hmore : steps systemF closing n (ofTokens stop rest) = .ok (more, ofTokens stop after)) :
    steps systemF closing (n + 1) (ofTokens stop ts) =
      .ok (some (more.elim (.last s) (.more s)), ofTokens stop after) := by
  obtain ⟨u, hu, hkind⟩ := peek_ofTokens hstop ts 0
  obtain ⟨b, hb⟩ := hsemi
  have hkind : u.kind ∈ [.assumeKeyword, .haveKeyword, .forallKeyword] := hkind ▸ h
  have hopen : u.kind ∉ closing := by
    intro hmem
    have hmem := hclosing hmem
    revert hkind hmem
    generalize u.kind = kind
    cases kind <;> simp [closings]
  have hby : u.kind ≠ .byKeyword := by
    intro hk
    simp [hk] at hkind
  rw [steps, bind_of_ok hu, if_neg hopen, if_neg hby, bind_of_ok hs, bind_of_ok hb,
    bind_of_ok hmore]
  cases more <;> rfl

/-- A proof in braces is read where the proof is. -/
theorem braced_of_proof {p : Proof} {opening closing : Token} (hopen : opening.kind = .lbrace)
    (hclose : closing.kind = .rbrace)
    (h : Yields stop (proof systemF [.rbrace] n) Proof.erase ts p (closing :: rest)) :
    Yields stop (braced systemF (n + 1)) Proof.erase (opening :: ts) p rest := by
  obtain ⟨p', hp', herase⟩ := h
  refine ⟨p', ?_, herase⟩
  rw [braced, bind_of_ok (expect_ofTokens (by simp [hopen])), bind_of_ok hp',
    bind_of_ok (expect_ofTokens (by simp [hclose]))]
  rfl

mutual

theorem proof_complete {n : Nat} {ts rest : List Token} {p : Proof} (closing : List TokenKind)
    (hstop : stop.kind = .eof) (hclosing : closing ⊆ closings) (hafter : ahead rest ∈ closing)
    (hn : 16 * ts.length + 11 ≤ n) :
    ProofText systemF ts p rest → Yields stop (proof systemF closing n) Proof.erase ts p rest
  | .steps h => by
    obtain ⟨n, rfl⟩ : ∃ m, n = m + 1 := ⟨n - 1, by omega⟩
    obtain ⟨u, hu, -⟩ := peek_ofTokens hstop ts 0
    obtain ⟨s', herase, hs'⟩ := steps_complete hstop hclosing hafter (n := n) (by omega) h
    refine ⟨.mk s' u.loc, ?_, by simp [Proof.erase, herase]⟩
    rw [proof, bind_of_ok hu, bind_of_ok hs']
    rfl

theorem steps_complete {n : Nat} {ts rest : List Token} {s : Steps} {closing : List TokenKind}
    (hstop : stop.kind = .eof) (hclosing : closing ⊆ closings) (hafter : ahead rest ∈ closing)
    (hn : 16 * ts.length + 10 ≤ n) :
    StepsText systemF ts s rest → ∃ s', s'.erase = s.erase ∧
      steps systemF closing n (ofTokens stop ts) = .ok (some s', ofTokens stop rest)
  | .last h hsemi => by
    obtain ⟨n, rfl⟩ : ∃ m, n = m + 2 := ⟨n - 2, by omega⟩
    have hends := semicolon_endsStatement hsemi (endsStatement_of_mem hclosing hafter)
    obtain ⟨s', hs', herase⟩ :=
      statement_complete closing hstop hends (n := n + 1) (by omega) h
    refine ⟨.last s', by simp [Steps.erase, herase], ?_⟩
    exact steps_of_statement hstop hclosing (StatementText.ahead_mem h) hs'
      (accept_semicolon hstop hsemi (ne_semi_of_mem hclosing hafter))
      (steps_of_closing hstop hafter)
  | @StepsText.conclude _ ts _ _ keyword _ loc hby h hsemi => by
    obtain ⟨n, rfl⟩ : ∃ m, n = m + 1 := ⟨n - 1, by omega⟩
    have hends := semicolon_endsStatement hsemi (endsStatement_of_mem hclosing hafter)
    simp only [List.length_cons] at hn
    obtain ⟨j', hj', herase⟩ := justification_complete hstop hends (n := n) (by omega) h
    obtain ⟨b, hb⟩ := accept_semicolon hstop hsemi (ne_semi_of_mem hclosing hafter)
    obtain ⟨u, hu, hkind⟩ := peek_ofTokens hstop rest 0
    have hopen : keyword.kind ∉ closing := by
      intro hmem
      have hmem := hclosing hmem
      simp [hby, closings] at hmem
    refine ⟨.conclude j' keyword.loc, by simp [Steps.erase, herase], ?_⟩
    rw [steps, bind_of_ok peek_zero_ofTokens_cons, if_neg hopen, if_pos hby,
      bind_of_ok next_ofTokens_eq, bind_of_ok hj', bind_of_ok hb, bind_of_ok hu,
      if_pos (by rw [hkind]; exact hafter)]
    rfl
  | .more h hsemi hmore => by
    obtain ⟨n, rfl⟩ : ∃ m, n = m + 1 := ⟨n - 1, by omega⟩
    have hnext := StepsText.ahead_mem hmore
    have hends := semicolon_endsStatement hsemi (endsStatement_of_steps hmore)
    have hlen := (h.takes.to_suffix hsemi.suffix).length_lt
    obtain ⟨s', hs', herase⟩ :=
      statement_complete closing hstop hends (n := n) (by omega) h
    obtain ⟨more', hmoreErase, hmore'⟩ :=
      steps_complete hstop hclosing hafter (n := n) (by omega) hmore
    refine ⟨.more s' more', by simp [Steps.erase, herase, hmoreErase], ?_⟩
    have hsemi' := accept_semicolon hstop hsemi (by intro hk; simp [hk] at hnext)
    exact steps_of_statement hstop hclosing (StatementText.ahead_mem h) hs' hsemi' hmore'

theorem statement_complete {n : Nat} {ts rest : List Token} {s : Statement}
    (closing : List TokenKind) (hstop : stop.kind = .eof) (hafter : EndsStatement rest)
    (hn : 16 * ts.length + 9 ≤ n) :
    StatementText systemF ts s rest →
      Yields stop (statement systemF closing n) Statement.erase ts s rest
  | @StatementText.step _ ts ts' _ keyword by_ c j loc hhave hclaim hby h => by
    obtain ⟨n, rfl⟩ : ∃ m, n = m + 2 := ⟨n - 2, by omega⟩
    have hlen := hclaim.takes.length_lt
    simp only [List.length_cons] at hn hlen
    obtain ⟨c', hc', herasec⟩ :=
      claimOrHole_complete hstop hclaim (by simp [ahead, hby]) (n := n) (by omega)
    obtain ⟨j', hj', herasej⟩ := justification_complete hstop hafter (n := n) (by omega) h
    refine ⟨.step c' j' keyword.loc, ?_, by simp [Statement.erase, herasec, herasej]⟩
    rw [statement, bind_of_ok peek_zero_ofTokens_cons, hhave]
    simp only
    rw [step, bind_of_ok (expect_ofTokens (by simp [hhave])), bind_of_ok hc',
      bind_of_ok (expect_ofTokens (by simp [hby])), bind_of_ok hj']
    rfl
  | .block h => by
    obtain ⟨n, rfl⟩ : ∃ m, n = m + 1 := ⟨n - 1, by omega⟩
    obtain ⟨u, hu, hkind⟩ := peek_ofTokens hstop ts 0
    rw [List.drop_zero] at hkind
    obtain ⟨hassume, b', hb', herase⟩ | ⟨hsf, hforall, b', hb', herase⟩ :=
      block_complete hstop (n := n) (by omega) h
    · refine ⟨.block b', ?_, by simp [Statement.erase, herase]⟩
      rw [statement, bind_of_ok hu, hkind, hassume]
      simp only
      rw [bind_of_ok hb']
      rfl
    · refine ⟨.block b', ?_, by simp [Statement.erase, herase]⟩
      rw [statement, bind_of_ok hu, hkind, hforall]
      simp only
      rw [bind_of_ok (require_of hsf), bind_of_ok hb']
      rfl

theorem justification_complete {n : Nat} {ts rest : List Token} {j : Justification}
    (hstop : stop.kind = .eof) (hafter : EndsStatement rest) (hn : 16 * ts.length + 9 ≤ n) :
    JustificationText systemF ts j rest →
      Yields stop (justification systemF n) Justification.erase ts j rest
  | .application h => by
    obtain ⟨n, rfl⟩ : ∃ m, n = m + 1 := ⟨n - 1, by omega⟩
    obtain ⟨j', hj', herase⟩ := application_complete hstop h hafter.endsProposition hafter.ne_comma
      (n := n) (by omega)
    obtain ⟨u, hu, hkind⟩ := peek_ofTokens hstop ts 0
    have hname : ahead ts = .identifier := by
      cases h with
      | bare ht => exact ht
      | applied ht => exact ht
    refine ⟨j', ?_, herase⟩
    rw [justification, bind_of_ok hu, hkind, List.drop_zero, hname]
    exact hj'
  | .block h => by
    obtain ⟨n, rfl⟩ : ∃ m, n = m + 1 := ⟨n - 1, by omega⟩
    obtain ⟨u, hu, hkind⟩ := peek_ofTokens hstop ts 0
    rw [List.drop_zero] at hkind
    obtain ⟨hassume, b', hb', herase⟩ | ⟨hsf, hforall, b', hb', herase⟩ :=
      block_complete hstop (n := n) (by omega) h
    · refine ⟨.block b', ?_, by simp [Justification.erase, herase]⟩
      rw [justification, bind_of_ok hu, hkind, hassume]
      simp only
      rw [bind_of_ok hb']
      rfl
    · refine ⟨.block b', ?_, by simp [Justification.erase, herase]⟩
      rw [justification, bind_of_ok hu, hkind, hforall]
      simp only
      rw [bind_of_ok (require_of hsf), bind_of_ok hb']
      rfl

/-- What reads a block is told by its first token. -/
theorem block_complete {n : Nat} {ts rest : List Token} {b : Block}
    (hstop : stop.kind = .eof) (hn : 16 * ts.length + 8 ≤ n) :
    BlockText systemF ts b rest →
      ahead ts = .assumeKeyword ∧ Yields stop (assumption systemF n) Block.erase ts b rest ∨
      systemF = true ∧ ahead ts = .forallKeyword ∧
        Yields stop (generalization systemF n) Block.erase ts b rest
  | @BlockText.assume _ ts ts' _ keyword opening closing hyps p loc hassume hhyps hopen h hclose => by
    obtain ⟨n, rfl⟩ : ∃ m, n = m + 2 := ⟨n - 2, by omega⟩
    have hlen := (hhyps.takes fun _ _ _ => Named.takes).length_lt
    simp only [List.length_cons] at hn hlen
    obtain ⟨hyps', hhyps', eraseh⟩ := claims_complete hstop hhyps
      (by simp [EndsProposition, ahead, hopen]) (by simp [ahead, hopen]) (n := n + 1) (by omega)
    have hproof := proof_complete [.rbrace] hstop (by simp [closings])
      (by simp [ahead, hclose]) (n := n) (by omega) h
    obtain ⟨p', hp', erasep⟩ := braced_of_proof hopen hclose hproof
    refine .inl ⟨hassume, .assume hyps' p' keyword.loc, ?_, by simp [Block.erase, eraseh, erasep]⟩
    rw [assumption, bind_of_ok (expect_ofTokens (by simp [hassume])), bind_of_ok hhyps',
      bind_of_ok hp']
    rfl
  | @BlockText.generalize _ ts ts' _ keyword opening closing vars p loc hsf hforall hvars hopen h
      hclose => by
    obtain ⟨n, rfl⟩ : ∃ m, n = m + 2 := ⟨n - 2, by omega⟩
    have hlen := (typeVars_takes hvars).length_lt
    simp only [List.length_cons] at hn hlen
    have hvars' := typeVars_complete hstop hvars (by simp [ahead, hopen]) (n := n + 1) (by omega)
    have hproof := proof_complete [.rbrace] hstop (by simp [closings])
      (by simp [ahead, hclose]) (n := n) (by omega) h
    obtain ⟨p', hp', erasep⟩ := braced_of_proof hopen hclose hproof
    refine .inr ⟨hsf, hforall, .generalize vars p' keyword.loc, ?_, by simp [Block.erase, erasep]⟩
    rw [generalization, bind_of_ok (expect_ofTokens (by simp [hforall])), bind_of_ok hvars',
      bind_of_ok hp']
    rfl

end

/-! ## Documents -/

theorem TheoremsText.ahead_eq {thms : List Theorem} (h : TheoremsText systemF ts thms rest) :
    ahead ts = .theoremKeyword := by
  cases h with
  | one h =>
    cases h with
    | proved hkeyword => exact hkeyword
  | more h =>
    cases h with
    | proved hkeyword => exact hkeyword

/-- A theorem is read, and then the theorems behind it. -/
theorem theorems_of_theorem {thm : Theorem} {thms : List Theorem} (hstop : stop.kind = .eof)
    (h : TheoremText systemF ts thm rest) (hafter : ahead rest ∈ [.theoremKeyword, .eof])
    (hn : 16 * ts.length ≤ n)
    (hrest : Yields stop (theorems systemF n) (List.map Theorem.erase) rest thms []) :
    Yields stop (theorems systemF (n + 1)) (List.map Theorem.erase) ts (thm :: thms) [] := by
  cases h with
  | @proved ts ts' _ keyword c p loc hkeyword hclaim hproof =>
    have hlen := hclaim.takes.length_lt
    simp only [List.length_cons] at hn
    obtain ⟨c', hc', erasec⟩ :=
      claim_complete hstop hclaim (endsProposition_of_proof hproof) (n := n) (by omega)
    obtain ⟨p', hp', erasep⟩ := proof_complete [.theoremKeyword, .eof] hstop
      (by simp [closings]) hafter (n := n) (by omega) hproof
    obtain ⟨thms', hthms', eraset⟩ := hrest
    refine ⟨⟨c', p', keyword.loc⟩ :: thms', ?_, by simp [Theorem.erase, erasec, erasep, eraset]⟩
    rw [theorems, bind_of_ok peek_zero_ofTokens_cons, if_pos hkeyword, bind_of_ok next_ofTokens_eq,
      bind_of_ok hc', bind_of_ok hp', bind_of_ok hthms']
    rfl

theorem theorems_of_ne (hstop : stop.kind = .eof) (h : ahead ts ≠ .theoremKeyword) :
    theorems systemF (n + 1) (ofTokens stop ts) = .ok ([], ofTokens stop ts) := by
  obtain ⟨u, hu, hkind⟩ := peek_ofTokens hstop ts 0
  rw [theorems, bind_of_ok hu, if_neg (by rw [hkind]; exact h)]
  rfl

theorem theorems_complete {thms : List Theorem} (hstop : stop.kind = .eof)
    (h : TheoremsText systemF ts thms rest) (hrest : rest = []) (hn : 16 * ts.length + 1 ≤ n) :
    Yields stop (theorems systemF n) (List.map Theorem.erase) ts thms [] := by
  induction h generalizing n with
  | @one ts rest thm h =>
    subst hrest
    obtain ⟨n, rfl⟩ : ∃ m, n = m + 1 := ⟨n - 1, by omega⟩
    refine theorems_of_theorem hstop h (by simp [ahead]) (by omega) ⟨[], ?_, rfl⟩
    have hlen := h.takes.length_lt
    obtain ⟨n, rfl⟩ : ∃ m, n = m + 1 := ⟨n - 1, by simp at hlen; omega⟩
    exact theorems_of_ne hstop (by simp [ahead])
  | @more ts ts' rest thm thms h hmore ih =>
    obtain ⟨n, rfl⟩ : ∃ m, n = m + 1 := ⟨n - 1, by omega⟩
    have hlen := h.takes.length_lt
    exact theorems_of_theorem hstop h (by simp [TheoremsText.ahead_eq hmore]) (by omega)
      (ih hrest (by omega))

theorem document_complete {d : Document} (hstop : stop.kind = .eof)
    (h : TheoremsText systemF ts d.theorems []) (hn : 16 * ts.length + 1 ≤ n) :
    Yields stop (document systemF n) Document.erase ts d [] := by
  obtain ⟨u, hu, -⟩ := peek_ofTokens hstop ts 0
  obtain ⟨thms, hthms, herase⟩ := theorems_complete hstop h rfl hn
  have hne : thms.isEmpty = false := by
    cases thms with
    | nil =>
      have hnil : d.theorems = [] := by simpa using herase.symm
      rw [hnil] at h
      cases h
    | cons => rfl
  have hexpect : expect [.theoremKeyword, .eof] (ofTokens stop []) =
      .ok (stop, ofTokens stop []) := expect_eq_ok.mpr ⟨rfl, by simp [hstop], rfl⟩
  refine ⟨⟨thms, u.loc⟩, ?_, by simp [Document.erase, herase]⟩
  simp only [document]
  rw [bind_of_ok hu, bind_of_ok hthms, hne]
  simp only [Bool.false_eq_true, if_false]
  rw [bind_of_ok hexpect]
  rfl

end ProofScript.Parser
