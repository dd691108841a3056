import ProofScript.Document
import ProofScript.Token

/-!
# The grammar of scripts

One relation for each production: `R ts x rest` says that the tokens of `ts` in front of `rest` are
a phrase with tree `x`. The lists hold the tokens before the end token, and behind the last of them
stands the end. Trees carry any places, so that a phrase has the trees of one shape. Where a
production of the grammar repeats an operator, the relation nests to the left or to the right, as
the operator groups.
-/

namespace ProofScript.Grammar

/-- The class of the next token. -/
def ahead : List Token → TokenKind
  | [] => .eof
  | t :: _ => t.kind

/-- A phrase category: tokens, the tree of the phrase in front, and the tokens behind it. -/
abbrev Category (α : Type) := List Token → α → List Token → Prop

/-- Phrases separated by commas, at least one. -/
inductive Separated {α : Type} (item : Category α) : Category (List α)
  | one {ts rest : List Token} {a : α} : item ts a rest → Separated item ts [a] rest
  | more {ts ts' rest : List Token} {comma : Token} {a : α} {as : List α} :
      item ts a (comma :: ts') → comma.kind = .comma → Separated item ts' as rest →
      Separated item ts (a :: as) rest

/-- A type variable. -/
inductive TypeVar : Category String
  | word {rest : List Token} (t : Token) : t.kind = .typeVar → TypeVar (t :: rest) t.value rest

/-- How loosely a proposition may be written, from the loosest to the tightest. -/
inductive Level where
  | quantified
  | implication
  | disjunction
  | conjunction
  | negation
  | atom
deriving DecidableEq, Repr

/-- Propositions at a level. Quantifiers and predicate arguments belong to System F mode. -/
inductive Proposition (systemF : Bool) : Level → Category Formula
  | quantifier {ts ts' rest : List Token} {q dot : Token} {vars : List String} {f : Formula}
      {loc : Location} :
      systemF = true → q.kind = .forallKeyword → Separated TypeVar ts vars (dot :: ts') →
      dot.kind = .dot → Proposition systemF .implication ts' f rest →
      Proposition systemF .quantified (q :: ts) (.all vars f loc) rest
  | ofImplication {ts rest : List Token} {f : Formula} :
      Proposition systemF .implication ts f rest → Proposition systemF .quantified ts f rest
  | arrow {ts ts' rest : List Token} {op : Token} {a b : Formula} {loc : Location} :
      Proposition systemF .disjunction ts a (op :: ts') → op.kind = .implies →
      Proposition systemF .implication ts' b rest →
      Proposition systemF .implication ts (.impl a b loc) rest
  | ofDisjunction {ts rest : List Token} {f : Formula} :
      Proposition systemF .disjunction ts f rest → Proposition systemF .implication ts f rest
  | bar {ts ts' rest : List Token} {op : Token} {a b : Formula} {loc : Location} :
      Proposition systemF .disjunction ts a (op :: ts') → op.kind = .or →
      Proposition systemF .conjunction ts' b rest →
      Proposition systemF .disjunction ts (.disj a b loc) rest
  | ofConjunction {ts rest : List Token} {f : Formula} :
      Proposition systemF .conjunction ts f rest → Proposition systemF .disjunction ts f rest
  | ampersand {ts ts' rest : List Token} {op : Token} {a b : Formula} {loc : Location} :
      Proposition systemF .conjunction ts a (op :: ts') → op.kind = .and →
      Proposition systemF .negation ts' b rest →
      Proposition systemF .conjunction ts (.conj a b loc) rest
  | ofNegation {ts rest : List Token} {f : Formula} :
      Proposition systemF .negation ts f rest → Proposition systemF .conjunction ts f rest
  | tilde {ts rest : List Token} {op : Token} {f : Formula} {loc : Location} :
      op.kind = .not → Proposition systemF .negation ts f rest →
      Proposition systemF .negation (op :: ts) (.neg f loc) rest
  | ofAtom {ts rest : List Token} {f : Formula} :
      Proposition systemF .atom ts f rest → Proposition systemF .negation ts f rest
  | var {rest : List Token} {t : Token} {loc : Location} :
      t.kind = .typeVar → Proposition systemF .atom (t :: rest) (.atom t.value [] loc) rest
  | predicate {ts rest : List Token} {t opening closing : Token} {args : List String}
      {loc : Location} :
      systemF = true → t.kind = .typeVar → opening.kind = .lbracket →
      Separated TypeVar ts args (closing :: rest) → closing.kind = .rbracket →
      Proposition systemF .atom (t :: opening :: ts) (.atom t.value args loc) rest
  | parentheses {ts rest : List Token} {opening closing : Token} {f : Formula} :
      opening.kind = .lparen → Proposition systemF .quantified ts f (closing :: rest) →
      closing.kind = .rparen → Proposition systemF .atom (opening :: ts) f rest

/-- An optional name with its colon. -/
inductive Label : Category (Option String)
  | absent {ts : List Token} : Label ts none ts
  | name {rest : List Token} {t colon : Token} :
      t.kind = .identifier → colon.kind = .colon → Label (t :: colon :: rest) (some t.value) rest

/-- A proposition with an optional name. -/
inductive Named (systemF : Bool) : Category Claim
  | claim {ts ts' rest : List Token} {name : Option String} {f : Formula} {loc : Location} :
      Label ts name ts' → Proposition systemF .quantified ts' f rest →
      Named systemF ts ⟨name, f, loc⟩ rest

/-- The claim of a step: a proposition or a hole, with an optional name. -/
inductive Claimed (systemF : Bool) : Category Claim
  | stated {ts rest : List Token} {c : Claim} : Named systemF ts c rest → Claimed systemF ts c rest
  | hole {ts rest : List Token} {name : Option String} {t : Token} {loc : Location} :
      Label ts name (t :: rest) → t.kind = .identifier → t.value = "_" →
      Claimed systemF ts ⟨name, .hole, loc⟩ rest

/-- An argument of a rule: a name or a proposition. -/
inductive Operand (systemF : Bool) : Category Argument
  | fact {rest : List Token} {t : Token} {loc : Location} :
      t.kind = .identifier → Operand systemF (t :: rest) (.fact t.value loc) rest
  | proposition {ts rest : List Token} {f : Formula} :
      Proposition systemF .quantified ts f rest → Operand systemF ts (.prop f) rest

/-- Are the tokens type variables followed by a brace? -/
def OpensBlock (ts : List Token) : Prop :=
  ∃ vars brace rest, Separated TypeVar ts vars (brace :: rest) ∧ brace.kind = .lbrace

theorem opensBlock_iff {ts : List Token} :
    OpensBlock ts ↔ ahead ts = .typeVar ∧
      (ahead ts.tail = .lbrace ∨ ahead ts.tail = .comma ∧ OpensBlock ts.tail.tail) := by
  constructor
  · rintro ⟨vars, brace, after, hvars, hbrace⟩
    cases hvars with
    | one hvar =>
      cases hvar with
      | word _ ht => exact ⟨ht, .inl hbrace⟩
    | more hvar hcomma hrest =>
      cases hvar with
      | word _ ht => exact ⟨ht, .inr ⟨hcomma, _, brace, after, hrest, hbrace⟩⟩
  · match ts with
    | [] => simp [ahead]
    | [t] => simp [ahead]
    | t :: u :: rest =>
      rintro ⟨ht, hbrace | ⟨hcomma, vars, brace, after, hvars, hbrace⟩⟩
      · exact ⟨[t.value], u, rest, .one (.word t ht), hbrace⟩
      · exact ⟨t.value :: vars, brace, after, .more (.word t ht) hcomma hvars, hbrace⟩

/-- Can the next token start an argument? A quantifier starts one unless its variables are followed
by a brace; then it opens a block. -/
def StartsArgument (systemF : Bool) (ts : List Token) : Prop :=
  ahead ts ∈ [.identifier, .typeVar, .lparen, .not] ∨
    systemF = true ∧ ahead ts = .forallKeyword ∧ ¬ OpensBlock ts.tail

/-- A rule with its arguments. There are arguments exactly when the token behind the rule can start
one. -/
inductive Application (systemF : Bool) : Category Justification
  | bare {rest : List Token} {t : Token} {loc : Location} :
      t.kind = .identifier → ¬ StartsArgument systemF rest →
      Application systemF (t :: rest) (.apply t.value [] loc) rest
  | applied {ts rest : List Token} {t : Token} {args : List Argument} {loc : Location} :
      t.kind = .identifier → StartsArgument systemF ts → Separated (Operand systemF) ts args rest →
      Application systemF (t :: ts) (.apply t.value args loc) rest

/-- An optional semicolon. -/
inductive Semicolon : List Token → List Token → Prop
  | absent {ts : List Token} : Semicolon ts ts
  | present {rest : List Token} {t : Token} : t.kind = .semi → Semicolon (t :: rest) rest

mutual

/-- The steps of a proof. -/
inductive ProofText (systemF : Bool) : Category Proof
  | steps {ts rest : List Token} {s : Steps} {loc : Location} :
      StepsText systemF ts s rest → ProofText systemF ts (.mk s loc) rest

/-- Statements, and the statement or the conclusion that closes them. -/
inductive StepsText (systemF : Bool) : Category Steps
  | last {ts ts' rest : List Token} {s : Statement} :
      StatementText systemF ts s ts' → Semicolon ts' rest → StepsText systemF ts (.last s) rest
  | conclude {ts ts' rest : List Token} {keyword : Token} {j : Justification} {loc : Location} :
      keyword.kind = .byKeyword → JustificationText systemF ts j ts' → Semicolon ts' rest →
      StepsText systemF (keyword :: ts) (.conclude j loc) rest
  | more {ts ts' ts'' rest : List Token} {s : Statement} {more : Steps} :
      StatementText systemF ts s ts' → Semicolon ts' ts'' → StepsText systemF ts'' more rest →
      StepsText systemF ts (.more s more) rest

/-- A step or a block. -/
inductive StatementText (systemF : Bool) : Category Statement
  | step {ts ts' rest : List Token} {keyword by_ : Token} {c : Claim} {j : Justification}
      {loc : Location} :
      keyword.kind = .haveKeyword → Claimed systemF ts c (by_ :: ts') → by_.kind = .byKeyword →
      JustificationText systemF ts' j rest →
      StatementText systemF (keyword :: ts) (.step c j loc) rest
  | block {ts rest : List Token} {b : Block} :
      BlockText systemF ts b rest → StatementText systemF ts (.block b) rest

/-- A rule with its arguments, or a block. -/
inductive JustificationText (systemF : Bool) : Category Justification
  | application {ts rest : List Token} {j : Justification} :
      Application systemF ts j rest → JustificationText systemF ts j rest
  | block {ts rest : List Token} {b : Block} :
      BlockText systemF ts b rest → JustificationText systemF ts (.block b) rest

/-- Hypotheses or, in System F mode, variables, with a proof in braces. -/
inductive BlockText (systemF : Bool) : Category Block
  | assume {ts ts' rest : List Token} {keyword opening closing : Token} {hyps : List Claim}
      {p : Proof} {loc : Location} :
      keyword.kind = .assumeKeyword → Separated (Named systemF) ts hyps (opening :: ts') →
      opening.kind = .lbrace → ProofText systemF ts' p (closing :: rest) →
      closing.kind = .rbrace → BlockText systemF (keyword :: ts) (.assume hyps p loc) rest
  | generalize {ts ts' rest : List Token} {keyword opening closing : Token} {vars : List String}
      {p : Proof} {loc : Location} :
      systemF = true → keyword.kind = .forallKeyword →
      Separated TypeVar ts vars (opening :: ts') → opening.kind = .lbrace →
      ProofText systemF ts' p (closing :: rest) → closing.kind = .rbrace →
      BlockText systemF (keyword :: ts) (.generalize vars p loc) rest

end

/-- A claim with its proof. -/
inductive TheoremText (systemF : Bool) : Category Theorem
  | proved {ts ts' rest : List Token} {keyword : Token} {c : Claim} {p : Proof} {loc : Location} :
      keyword.kind = .theoremKeyword → Named systemF ts c ts' → ProofText systemF ts' p rest →
      TheoremText systemF (keyword :: ts) ⟨c, p, loc⟩ rest

/-- Theorems one after the other, at least one. -/
inductive TheoremsText (systemF : Bool) : Category (List Theorem)
  | one {ts rest : List Token} {t : Theorem} :
      TheoremText systemF ts t rest → TheoremsText systemF ts [t] rest
  | more {ts ts' rest : List Token} {t : Theorem} {more : List Theorem} :
      TheoremText systemF ts t ts' → TheoremsText systemF ts' more rest →
      TheoremsText systemF ts (t :: more) rest

/-- The tokens of a whole script, the end token included, with the tree of its document. -/
inductive DocumentText (systemF : Bool) : List Token → Document → Prop
  | theorems {ts : List Token} {stop : Token} {d : Document} :
      TheoremsText systemF ts d.theorems [] → stop.kind = .eof →
      DocumentText systemF (ts ++ [stop]) d

/-! ## Phrases take tokens -/

/-- The rest stands behind at least one token. -/
def Takes (ts rest : List Token) : Prop := ∃ t used, ts = t :: used ++ rest

theorem takes_cons (t : Token) (rest : List Token) : Takes (t :: rest) rest := ⟨t, [], rfl⟩

theorem Takes.suffix {ts rest : List Token} (h : Takes ts rest) : rest <:+ ts := by
  obtain ⟨t, used, rfl⟩ := h
  exact ⟨t :: used, rfl⟩

theorem Takes.length_lt {ts rest : List Token} (h : Takes ts rest) : rest.length < ts.length := by
  obtain ⟨t, used, rfl⟩ := h
  simp only [List.cons_append, List.length_cons, List.length_append]
  omega

theorem Takes.of_suffix {ts mid rest : List Token} (h : mid <:+ ts) (h' : Takes mid rest) :
    Takes ts rest := by
  obtain ⟨front, rfl⟩ := h
  obtain ⟨t, used, rfl⟩ := h'
  cases front with
  | nil => exact ⟨t, used, rfl⟩
  | cons u front => exact ⟨u, front ++ t :: used, by simp⟩

theorem Takes.to_suffix {ts mid rest : List Token} (h : Takes ts mid) (h' : rest <:+ mid) :
    Takes ts rest := by
  obtain ⟨front, rfl⟩ := h'
  obtain ⟨t, used, rfl⟩ := h
  exact ⟨t, used ++ front, by simp⟩

theorem Takes.trans {ts mid rest : List Token} (h : Takes ts mid) (h' : Takes mid rest) :
    Takes ts rest :=
  h.to_suffix h'.suffix

theorem Takes.of_cons {t : Token} {ts rest : List Token} (h : Takes ts rest) :
    Takes (t :: ts) rest :=
  (takes_cons t ts).trans h

theorem Takes.tail {t : Token} {ts rest : List Token} (h : Takes ts (t :: rest)) : Takes ts rest :=
  h.trans (takes_cons t rest)

theorem Separated.takes {α : Type} {item : Category α}
    (hitem : ∀ ts a rest, item ts a rest → Takes ts rest) {ts rest : List Token} {as : List α}
    (h : Separated item ts as rest) : Takes ts rest := by
  induction h with
  | one h => exact hitem _ _ _ h
  | more h _ _ ih => exact (hitem _ _ _ h).tail.trans ih

theorem TypeVar.takes {ts rest : List Token} {v : String} (h : TypeVar ts v rest) :
    Takes ts rest := by
  cases h with
  | word t => exact takes_cons t rest

theorem typeVars_takes {ts rest : List Token} {vars : List String}
    (h : Separated TypeVar ts vars rest) : Takes ts rest :=
  h.takes fun _ _ _ => TypeVar.takes

theorem Proposition.takes {systemF : Bool} {level : Level} {ts rest : List Token} {f : Formula}
    (h : Proposition systemF level ts f rest) : Takes ts rest := by
  induction h with
  | quantifier _ _ hvars _ _ ih => exact ((typeVars_takes hvars).tail.trans ih).of_cons
  | ofImplication _ ih => exact ih
  | arrow _ _ _ iha ihb => exact iha.tail.trans ihb
  | ofDisjunction _ ih => exact ih
  | bar _ _ _ iha ihb => exact iha.tail.trans ihb
  | ofConjunction _ ih => exact ih
  | ampersand _ _ _ iha ihb => exact iha.tail.trans ihb
  | ofNegation _ ih => exact ih
  | tilde _ _ ih => exact ih.of_cons
  | ofAtom _ ih => exact ih
  | var => exact takes_cons _ _
  | predicate _ _ _ hargs => exact (typeVars_takes hargs).tail.of_cons.of_cons
  | parentheses _ _ _ ih => exact ih.tail.of_cons

theorem Label.suffix {ts rest : List Token} {name : Option String} (h : Label ts name rest) :
    rest <:+ ts := by
  cases h with
  | absent => exact List.suffix_rfl
  | name => exact ((takes_cons _ _).trans (takes_cons _ _)).suffix

theorem Named.takes {systemF : Bool} {ts rest : List Token} {c : Claim}
    (h : Named systemF ts c rest) : Takes ts rest := by
  cases h with
  | claim hname hf => exact hf.takes.of_suffix hname.suffix

theorem Claimed.takes {systemF : Bool} {ts rest : List Token} {c : Claim}
    (h : Claimed systemF ts c rest) : Takes ts rest := by
  cases h with
  | stated h => exact h.takes
  | hole hname => exact (takes_cons _ _).of_suffix hname.suffix

theorem Operand.takes {systemF : Bool} {ts rest : List Token} {a : Argument}
    (h : Operand systemF ts a rest) : Takes ts rest := by
  cases h with
  | fact => exact takes_cons _ _
  | proposition h => exact h.takes

theorem Application.takes {systemF : Bool} {ts rest : List Token} {j : Justification}
    (h : Application systemF ts j rest) : Takes ts rest := by
  cases h with
  | bare => exact takes_cons _ _
  | applied _ _ hargs => exact (hargs.takes fun _ _ _ => Operand.takes).of_cons

theorem Semicolon.suffix {ts rest : List Token} (h : Semicolon ts rest) : rest <:+ ts := by
  cases h with
  | absent => exact List.suffix_rfl
  | present => exact (takes_cons _ _).suffix

mutual

theorem ProofText.takes {systemF : Bool} {ts rest : List Token} {p : Proof} :
    ProofText systemF ts p rest → Takes ts rest
  | .steps h => h.takes

theorem StepsText.takes {systemF : Bool} {ts rest : List Token} {s : Steps} :
    StepsText systemF ts s rest → Takes ts rest
  | .last h hsemi => h.takes.to_suffix hsemi.suffix
  | .conclude _ h hsemi => (h.takes.to_suffix hsemi.suffix).of_cons
  | .more h hsemi hmore => (h.takes.to_suffix hsemi.suffix).trans hmore.takes

theorem StatementText.takes {systemF : Bool} {ts rest : List Token} {s : Statement} :
    StatementText systemF ts s rest → Takes ts rest
  | .step _ hclaim _ h => (hclaim.takes.tail.trans h.takes).of_cons
  | .block h => h.takes

theorem JustificationText.takes {systemF : Bool} {ts rest : List Token} {j : Justification} :
    JustificationText systemF ts j rest → Takes ts rest
  | .application h => h.takes
  | .block h => h.takes

theorem BlockText.takes {systemF : Bool} {ts rest : List Token} {b : Block} :
    BlockText systemF ts b rest → Takes ts rest
  | .assume _ hhyps _ h _ =>
    ((hhyps.takes fun _ _ _ => Named.takes).tail.trans h.takes.tail).of_cons
  | .generalize _ _ hvars _ h _ => ((typeVars_takes hvars).tail.trans h.takes.tail).of_cons

end

theorem TheoremText.takes {systemF : Bool} {ts rest : List Token} {t : Theorem}
    (h : TheoremText systemF ts t rest) : Takes ts rest := by
  cases h with
  | proved _ hclaim hproof => exact (hclaim.takes.trans hproof.takes).of_cons

theorem TheoremsText.takes {systemF : Bool} {ts rest : List Token} {thms : List Theorem}
    (h : TheoremsText systemF ts thms rest) : Takes ts rest := by
  induction h with
  | one h => exact h.takes
  | more h _ ih => exact h.takes.trans ih

end ProofScript.Grammar
