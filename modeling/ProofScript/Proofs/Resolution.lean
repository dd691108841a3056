import Mathlib.Data.List.Forall2
import ProofScript.Proofs.Naming
import ProofScript.Proofs.Scoping

/-!
# What references resolve to

A script refers to a fact by its name or, if the fact has none, by its proposition. Generation keeps
the names of the program only, where a reserved word gets an underscore and a fact without a name is
named after its proposition. So a reference finds the declaration it means exactly if the innermost
declaration with its name in the program is the one of the fact, which holds of all references but
those where a reserved word or a name that ends in an underscore is around.
-/

namespace ProofScript

open Program

/-! ## Facts and their uses -/

/-- What a script refers to a fact by: its name or, if it has none, its proposition without places and
predicate arguments that have no effect. -/
inductive FactKey where
  | named (name : String)
  | stated (f : Formula)
deriving DecidableEq, Repr, Inhabited

/-- The name of the fact in the program. -/
def FactKey.binding : FactKey → String
  | .named name => escapeIdent name
  | .stated f => f.factName

/-- What a script refers to a claim by. -/
def Claim.key (c : Claim) : FactKey := c.name.elim (.stated c.formula.bare) .named

/-- What an argument refers to. -/
def Argument.key : Argument → FactKey
  | .fact name _ => .named name
  | .prop f => .stated f.bare

/-- The facts of one scope, with the places of their declarations. -/
abbrev Facts := List (FactKey × Location)

/-- A use of a fact, and the facts of the scopes around it, innermost scope first. The theorems so far
are in the outermost scope. -/
structure FactUse where
  key : FactKey
  scopes : List Facts
deriving DecidableEq, Repr, Inhabited

/-- The facts of hypotheses. -/
def factsOf (hyps : List Claim) : Facts := hyps.map fun h => (h.key, h.loc)

/-- The scopes behind a claim that was proved. -/
def bindFact (c : Claim) : List Facts → List Facts
  | [] => []
  | top :: rest => (top ++ [(c.key, c.loc)]) :: rest

/-- The scopes behind a statement. Only a step has a claim. -/
def Statement.bindFacts : Statement → List Facts → List Facts
  | .step c _ _, scopes => bindFact c scopes
  | _, scopes => scopes

mutual

/-- The uses of facts in a proof, in order. -/
def Proof.factUses (systemF : Bool) (scopes : List Facts) : Proof → List FactUse
  | .mk s _ => s.factUses systemF scopes

/-- The uses of facts in steps. -/
def Steps.factUses (systemF : Bool) (scopes : List Facts) : Steps → List FactUse
  | .last s => s.factUses systemF scopes
  | .conclude j _ => j.factUses systemF scopes
  | .more s rest => s.factUses systemF scopes ++ rest.factUses systemF (s.bindFacts scopes)

/-- The uses of facts in a statement. -/
def Statement.factUses (systemF : Bool) (scopes : List Facts) : Statement → List FactUse
  | .missing => []
  | .step _ j _ => j.factUses systemF scopes
  | .block b => b.factUses systemF scopes

/-- The uses of facts in a justification: the rule and its arguments. An instance of a quantified fact
is a use of the fact alone. -/
def Justification.factUses (systemF : Bool) (scopes : List Facts) : Justification → List FactUse
  | .missing => []
  | .apply rule args _ =>
    if systemF ∧ rule = Generate.instantiationRule then
      args.filterMap fun
        | .fact name _ => some ⟨.named name, scopes⟩
        | .prop _ => none
    else ⟨.named rule, scopes⟩ :: args.map fun a => ⟨a.key, scopes⟩
  | .block b => b.factUses systemF scopes

/-- The uses of facts in a block, which has a scope of its own. -/
def Block.factUses (systemF : Bool) (scopes : List Facts) : Block → List FactUse
  | .assume hyps p _ => p.factUses systemF (factsOf hyps :: scopes)
  | .generalize _ p _ => p.factUses systemF ([] :: scopes)

end

/-- The uses of facts in a theorem, behind the given theorems. -/
def Theorem.factUses (systemF : Bool) (theorems : Facts) (t : Theorem) : List FactUse :=
  match Generate.sequent? t with
  | some (hyps, p) => p.factUses systemF [factsOf hyps, theorems]
  | none => t.proof.factUses systemF [[], theorems]

/-- The fact that a theorem with a name is. -/
def Theorem.fact? (t : Theorem) : Option (FactKey × Location) :=
  t.claim.name.map fun name => (.named name, t.claim.loc)

/-- The uses of facts in theorems, behind the given ones. -/
def theoremsFactUses (systemF : Bool) (theorems : Facts) : List Theorem → List FactUse
  | [] => []
  | t :: rest =>
    t.factUses systemF theorems ++ theoremsFactUses systemF (theorems ++ t.fact?.toList) rest

/-- The uses of facts in a document. -/
def Document.factUses (d : Document) (systemF : Bool) : List FactUse :=
  theoremsFactUses systemF [] d.theorems

namespace FactUse

/-- The declaration that the use means: the innermost one of the fact, by its position. -/
def meant? (u : FactUse) : Option Nat := u.scopes.flatten.findIdx? (·.1 = u.key)

/-- Is the innermost declaration with the name of the fact one of the fact? -/
def clear (u : FactUse) : Bool :=
  (u.scopes.flatten.find? (·.1.binding = u.key.binding)).all (·.1 = u.key)

end FactUse

/-- A name that is no reserved word and does not end in an underscore, or a proposition. -/
def FactKey.plain : FactKey → Bool
  | .named name => name ∉ reservedWords && name.toList.getLast? ≠ some '_'
  | .stated f => !f.isHole

/-- Are the fact and all facts around plain? -/
def FactUse.plain (u : FactUse) : Bool := u.key.plain && u.scopes.flatten.all (·.1.plain)

/-! ## Lookups -/

/-- The name that an argument has in the program. -/
def Argument.target : Argument → String
  | .fact name _ => escapeIdent name
  | .prop f => f.factName

namespace Generate

/-- A name that generation emits for a use of a fact, and the state it does so in. -/
structure Lookup where
  name : String
  state : State

/-- The declarations of the scopes around, innermost scope first, and of the theorems so far. -/
def State.stack (s : State) : List (String × Location) := s.scopes.flatten ++ s.declared

/-- The declaration that the name resolves to: the innermost one with the name, by its position. -/
def Lookup.found? (l : Lookup) : Option Nat := l.state.stack.findIdx? (·.1 = l.name)

/-- The lookups of arguments. -/
def argumentLookups (c : Context) (s : State) : List Argument → List Lookup
  | [] => []
  | a :: rest => ⟨a.target, s⟩ :: argumentLookups c (argument a c s).2 rest

/-- The lookups of a rule with its arguments. -/
def applicationLookups (rule : String) (args : List Argument) (loc : Location) (c : Context)
    (s : State) : List Lookup :=
  if c.systemF ∧ rule = instantiationRule then
    args.filterMap fun
      | .fact name _ => some ⟨escapeIdent name, s⟩
      | .prop _ => none
  else ⟨escapeIdent rule, s⟩ :: argumentLookups c (reference rule loc c s).2 args

/-! What is gathered in a document where a rule is applied, each in the state that generation is in
there. -/

section Gather

variable {α : Type} (gather : String → List Argument → Location → Context → State → List α)

mutual

/-- What is gathered in a proof. -/
def gatherProof (declared : Bool) (c : Context) (s : State) : Proof → List α
  | .mk st _ => gatherSteps declared c (recordSteps st c s).2 st

/-- What is gathered in steps. -/
def gatherSteps (declared : Bool) (c : Context) (s : State) : Steps → List α
  | .last st => gatherFinal declared c s st
  | .conclude j _ => gatherJustification c s j
  | .more st rest => gatherStatement c s st ++ gatherSteps declared c (statement st c s).2 rest

/-- What is gathered in a final statement. -/
def gatherFinal (declared : Bool) (c : Context) (s : State) : Statement → List α
  | .missing => []
  | .block b => gatherBlock c s b
  | .step claim j _ =>
    if claim.formula.isHole then gatherJustification c s j
    else if declared then gatherJustification c (stepHead claim c s).2 j
    else gatherJustification c (typeOf claim.formula c s).2 j

/-- What is gathered in a statement that is not the final one. -/
def gatherStatement (c : Context) (s : State) : Statement → List α
  | .missing => []
  | .block b => gatherBlock c s b
  | .step claim j _ => gatherJustification c (stepHead claim c s).2 j

/-- What is gathered in a justification. -/
def gatherJustification (c : Context) (s : State) : Justification → List α
  | .missing => []
  | .apply rule args loc => gather rule args loc c s
  | .block b => gatherBlock c s b

/-- What is gathered in a block. -/
def gatherBlock (c : Context) (s : State) : Block → List α
  | .assume hyps p _ => gatherProof false c (hypotheses hyps c (pushScope c s).2).2 p
  | .generalize vars p _ => gatherProof false c (bindNames vars c (pushScope c s).2).2 p

end

/-- What is gathered in a theorem. -/
def gatherTheorem (c : Context) (s : State) (t : Theorem) : List α :=
  match sequent? t with
  | some (hyps, p) => gatherProof gather true c (typeOf t.claim.formula c (hypotheses hyps c s).2).2 p
  | none => gatherProof gather true c (typeOf t.claim.formula c (enter c s).2).2 t.proof

/-- What is gathered in theorems. -/
def gatherTheorems (c : Context) (s : State) : List Theorem → List α
  | [] => []
  | t :: rest =>
    gatherTheorem gather c (pushScope c s).2 t ++ gatherTheorems c (theoremDecl t c s).2 rest

end Gather

end Generate

/-- What is gathered in a document where a rule is applied. -/
def Document.gather {α : Type}
    (gather : String → List Argument → Location → Generate.Context → Generate.State → List α)
    (d : Document) (systemF : Bool) : List α :=
  let names := d.theorems.filterMap fun t => t.claim.name.map escapeIdent
  Generate.gatherTheorems gather ⟨systemF, names⟩ .empty d.theorems

/-- The lookups of a document. -/
def Document.lookups (d : Document) (systemF : Bool) : List Generate.Lookup :=
  d.gather Generate.applicationLookups systemF

/-! ## Positions -/

/-- The declarations of facts as generation keeps them. -/
def Facts.emitted (fs : Facts) : List (String × Location) := fs.map fun b => (b.1.binding, b.2)

/-- The position of a name is that of the fact exactly if the first declaration with the name is one
of the fact. -/
theorem findIdx?_emitted_eq_iff (fs : Facts) (key : FactKey) :
    fs.emitted.findIdx? (·.1 = key.binding) = fs.findIdx? (·.1 = key) ↔
      (fs.find? (·.1.binding = key.binding)).all (·.1 = key) = true := by
  induction fs with
  | nil => simp [Facts.emitted]
  | cons b rest ih =>
    by_cases hbinding : b.1.binding = key.binding
    · by_cases hkey : b.1 = key
      · simp [Facts.emitted, List.findIdx?_cons, hkey]
      · simp [Facts.emitted, List.findIdx?_cons, hbinding, hkey]
    · have hkey : b.1 ≠ key := fun heq => hbinding (heq ▸ rfl)
      have hinj : Function.Injective (Option.map fun i : Nat => i + 1) :=
        Option.map_injective fun _ _ => Nat.succ.inj
      simp only [Facts.emitted, List.map_cons, List.findIdx?_cons, List.find?_cons, hbinding, hkey,
        decide_false, Bool.false_eq_true, if_false]
      rw [hinj.eq_iff]
      exact ih

/-! ## Generation -/

/-- The declared name of the rule that a reference by name takes. -/
def FactKey.rule? : FactKey → Option String
  | .named name => (Library.findRule? (escapeIdent name)).map Primitive.name
  | .stated _ => none

namespace FactUse

/-- Has no fact around the name of the fact? -/
def unbound (u : FactUse) : Bool := u.scopes.flatten.all (·.1.binding ≠ u.key.binding)

/-- The rule of the library that the use takes. -/
def rule? (u : FactUse) : Option String := if u.unbound then u.key.rule? else none

/-- The name of the fact and the declarations around. -/
def seen (u : FactUse) : String × List (String × Location) :=
  (u.key.binding, Facts.emitted u.scopes.flatten)

end FactUse

theorem Claim.binding_key (c : Claim) : c.key.binding = c.binding := by
  unfold Claim.key Claim.binding
  cases c.name with
  | none => exact c.formula.factName_bare
  | some name => rfl

theorem Argument.binding_key (a : Argument) : a.key.binding = a.target := by
  cases a with
  | fact name loc => rfl
  | prop f => exact f.factName_bare

namespace Generate

variable {c : Context} {s s' : State} {scopes : List Facts}

/-- The name of the lookup and the declarations around. -/
def Lookup.seen (l : Lookup) : String × List (String × Location) := (l.name, l.state.stack)

/-- The scopes and the theorems so far hold the declarations of the facts. -/
def Stacked (s : State) (scopes : List Facts) : Prop :=
  s.scopes ++ [s.declared] = scopes.map Facts.emitted

theorem Stacked.of_same (h : Stacked s scopes) (hs : SameScopes s s') : Stacked s' scopes := by
  rwa [Stacked, hs.1, hs.2]

theorem Stacked.stack (h : Stacked s scopes) : s.stack = Facts.emitted scopes.flatten := by
  have hflatten : s.stack = (s.scopes ++ [s.declared]).flatten := by simp [State.stack]
  rw [hflatten, h, Facts.emitted, List.map_flatten]
  rfl

theorem Stacked.push (h : Stacked s scopes) :
    Stacked { s with scopes := [] :: s.scopes } ([] :: scopes) :=
  congrArg (List.cons []) h

/-- Inside a function, the facts of its scope are those on top. -/
theorem Stacked.exists_top (h : Stacked s scopes) (hs : s.scopes ≠ []) :
    ∃ top rest, scopes = top :: rest ∧ ∃ below, s.scopes = top.emitted :: below ∧
      below ++ [s.declared] = rest.map Facts.emitted := by
  obtain ⟨first, below, hfirst⟩ := List.exists_cons_of_ne_nil hs
  rw [Stacked, hfirst, List.cons_append] at h
  cases scopes with
  | nil => cases h
  | cons top rest =>
    obtain ⟨rfl, hrest⟩ := List.cons.inj h
    exact ⟨top, rest, rfl, below, hfirst, hrest⟩

theorem Stacked.declare {claim : Claim} {u : Unit} (h : Stacked s scopes) (hs : s.scopes ≠ [])
    (hdeclare : declare claim.binding claim.loc c s = (.ok u, s')) :
    Stacked s' (bindFact claim scopes) := by
  obtain ⟨top, rest, rfl, below, htop, hrest⟩ := h.exists_top hs
  obtain rfl := declare_eq_ok htop hdeclare
  have hnew : top.emitted ++ [(claim.binding, claim.loc)] =
      Facts.emitted (top ++ [(claim.key, claim.loc)]) := by
    simp [Facts.emitted, claim.binding_key]
  simp [Stacked, bindFact, hnew, hrest]

/-- The scopes, the theorems and the used rules stay what they are. -/
def Quiet (s s' : State) : Prop := SameScopes s s' ∧ s'.used = s.used

theorem quiet_calm : Calm Quiet where
  refl _ := ⟨⟨rfl, rfl⟩, rfl⟩
  trans h h' := ⟨sameScopes_motion.trans h.1 h'.1, h'.2.trans h.2⟩
  frames _ _ := ⟨⟨rfl, rfl⟩, rfl⟩
  warn loc message := by
    intro c s u s' h
    refine ⟨sameScopes_motion.warn loc message c s u s' h, ?_⟩
    obtain rfl := modify_eq_ok.mp h
    dsimp only
    split
    · rfl
    · rfl

theorem declare_used {name : String} {loc : Location} {u : Unit}
    (h : declare name loc c s = (.ok u, s')) : s'.used = s.used := by
  cases hscopes : s.scopes with
  | nil => rw [declare_eq_ok_of_nil hscopes h]
  | cons top rest => rw [declare_eq_ok hscopes h]

/-- Hypotheses declare their facts in the scope on top. -/
theorem hypotheses_stacked {hyps : List Claim} {hs : List Hypothesis} {top : Facts}
    (h : Stacked s (top :: scopes)) (hne : s.scopes ≠ [])
    (hrun : hypotheses hyps c s = (.ok hs, s')) :
    Stacked s' ((top ++ factsOf hyps) :: scopes) ∧ s'.scopes ≠ [] ∧ s'.used = s.used := by
  induction hyps generalizing s hs top with
  | nil =>
    obtain ⟨-, rfl⟩ := pure_eq_ok.mp hrun
    exact ⟨by simpa [factsOf] using h, hne, rfl⟩
  | cons hyp rest ih =>
    simp only [hypotheses, bind_eq_ok] at hrun
    obtain ⟨_, s₁, henter, t, s₂, htype, _, s₃, hdeclare, more, s₄, hmore, hrun⟩ := hrun
    obtain ⟨-, rfl⟩ := pure_eq_ok.mp hrun
    obtain ⟨hsame, hused⟩ := quiet_calm.trans (quiet_calm.onFrames _ _ _ _ _ henter)
      (quiet_calm.typeOf _ _ _ _ _ htype)
    have hne₂ : s₂.scopes ≠ [] := by rwa [hsame.1]
    obtain ⟨hstacked, hne', hused'⟩ := ih ((h.of_same hsame).declare hne₂ hdeclare)
      ((declare_extends hne₂ hdeclare).nonempty hne₂) hmore
    refine ⟨by simpa [factsOf] using hstacked, hne', ?_⟩
    rw [hused', declare_used hdeclare, hused]

/-! ## References -/

/-- What was looked up are the uses of facts, and the rules they take are used. -/
structure Accounts (s s' : State) (looked : List Lookup) (uses : List FactUse) : Prop where
  seen : looked.map Lookup.seen = uses.map FactUse.seen
  used : ∀ name, name ∈ s'.used ↔ name ∈ s.used ∨ name ∈ uses.filterMap FactUse.rule?

theorem Accounts.of_used (h : s'.used = s.used) : Accounts s s' [] [] :=
  ⟨rfl, by simp [h]⟩

theorem Accounts.trans {mid : State} {looked looked' : List Lookup} {uses uses' : List FactUse}
    (h : Accounts s mid looked uses) (h' : Accounts mid s' looked' uses') :
    Accounts s s' (looked ++ looked') (uses ++ uses') where
  seen := by rw [List.map_append, List.map_append, h.seen, h'.seen]
  used name := by rw [h'.used, h.used, List.filterMap_append, List.mem_append, or_assoc]

/-- Steps before and after that use no rule. -/
theorem Accounts.of_states {a a' : State} {looked : List Lookup} {uses : List FactUse}
    (h : Accounts s s' looked uses) (hs : s.used = a.used) (hs' : a'.used = s'.used) :
    Accounts a a' looked uses :=
  ⟨h.seen, by rw [hs', ← hs]; exact h.used⟩

theorem useRule_used {p : Primitive} {loc : Location} {u : Unit}
    (h : useRule p loc c s = (.ok u, s')) (name : String) :
    name ∈ s'.used ↔ name ∈ s.used ∨ name = p.name := by
  simp only [useRule, bind_eq_ok] at h
  obtain ⟨_, mid, huse, h⟩ := h
  have hmid : name ∈ mid.used ↔ name ∈ s.used ∨ name = p.name := by
    obtain rfl := modify_eq_ok.mp huse
    split
    · rename_i hmem
      exact ⟨.inl, fun h => h.elim id fun heq => heq ▸ hmem⟩
    · simp
  have hsame : s'.used = mid.used := by
    cases hwarning : p.warning with
    | none =>
      simp only [hwarning] at h
      obtain rfl := modify_eq_ok.mp h
      rfl
    | some message =>
      simp only [hwarning] at h
      obtain ⟨_, mid', hwarn, h⟩ := bind_eq_ok.mp h
      obtain rfl := modify_eq_ok.mp h
      exact (quiet_calm.warn _ _ _ _ _ _ hwarn).2
  rw [hsame, hmid]

theorem find?_isSome_iff {sc : Scope} {name : String} :
    (Scope.find? sc name).isSome = true ↔ ∃ b ∈ sc, b.1 = name := by
  unfold Scope.find?
  induction sc with
  | nil => simp
  | cons b rest ih =>
    obtain ⟨n, loc⟩ := b
    by_cases hn : name = n
    · simp [hn]
    · have hne : (name == n) = false := by simpa using hn
      simp [List.lookup_cons, hne, ih, Ne.symm hn]

theorem Stacked.unbound_iff (h : Stacked s scopes) (key : FactKey) :
    (FactUse.mk key scopes).unbound = true ↔ s.binds key.binding = false ∧
      (Scope.find? s.declared key.binding).isSome = false := by
  have hstack : (FactUse.mk key scopes).unbound = true ↔ ∀ b ∈ s.stack, b.1 ≠ key.binding := by
    rw [h.stack, FactUse.unbound, List.all_eq_true, Facts.emitted, List.forall_mem_map]
    simp only [decide_eq_true_eq]
  rw [hstack, State.stack, List.forall_mem_append, State.binds, Bool.eq_false_iff, Bool.eq_false_iff]
  simp only [ne_eq, find?_isSome_iff, List.any_eq_true, List.mem_flatten, not_exists, not_and,
    forall_exists_index, and_imp]
  exact and_congr_left' ⟨fun h sc hsc b hb => h b sc hsc hb, fun h b sc hsc hb => h sc hsc b hb⟩

theorem reference_accounts {name : String} {loc : Location} {e : Expr} (h : Stacked s scopes)
    (hrun : reference name loc c s = (.ok e, s')) :
    Accounts s s' [⟨escapeIdent name, s⟩] [⟨.named name, scopes⟩] := by
  have hunbound := h.unbound_iff (.named name)
  refine ⟨by simp [Lookup.seen, FactUse.seen, h.stack, FactKey.binding], ?_⟩
  have hrule : ∀ n, n ∈ [FactUse.mk (.named name) scopes].filterMap FactUse.rule? ↔
      (FactUse.mk (.named name) scopes).unbound = true ∧
        (FactKey.named name).rule? = some n := by
    intro n
    simp [FactUse.rule?, Option.ite_none_right_eq_some]
  intro n
  rw [hrule, hunbound]
  simp only [reference, bind_eq_ok] at hrun
  obtain ⟨_, _, hget, hrun⟩ := hrun
  obtain ⟨rfl, rfl⟩ := get_eq_ok.mp hget
  split at hrun
  · rename_i hbinds
    obtain ⟨-, rfl⟩ := pure_eq_ok.mp hrun
    have : s.binds (FactKey.named name).binding = true := hbinds
    simp [this]
  rename_i hbinds
  split at hrun
  · rename_i hdeclared
    have hs' : s' = s := by
      split at hrun
      · exact (pure_eq_ok.mp hrun).2.symm
      · exact (pure_eq_ok.mp hrun).2.symm
    have : (Scope.find? s.declared (FactKey.named name).binding).isSome = true := hdeclared
    simp [hs', this]
  rename_i hdeclared
  obtain ⟨_, _, hread, hrun⟩ := bind_eq_ok.mp hrun
  obtain ⟨rfl, rfl⟩ := read_eq_ok.mp hread
  split at hrun
  · exact absurd hrun fail_ne_ok
  have hfree : s.binds (FactKey.named name).binding = false ∧
      (Scope.find? s.declared (FactKey.named name).binding).isSome = false :=
    ⟨Bool.eq_false_iff.mpr hbinds, Bool.eq_false_iff.mpr hdeclared⟩
  cases hfind : Library.findRule? (escapeIdent name) with
  | none =>
    simp only [hfind] at hrun
    obtain ⟨-, rfl⟩ := pure_eq_ok.mp hrun
    simp [FactKey.rule?, hfind]
  | some p =>
    simp only [hfind] at hrun
    obtain ⟨_, mid, huse, hrun⟩ := bind_eq_ok.mp hrun
    obtain ⟨-, rfl⟩ := pure_eq_ok.mp hrun
    rw [useRule_used huse]
    simp [FactKey.rule?, hfind, hfree, eq_comm]

theorem argument_accounts {a : Argument} {e : Expr} (h : Stacked s scopes)
    (hrun : argument a c s = (.ok e, s')) : Accounts s s' [⟨a.target, s⟩] [⟨a.key, scopes⟩] := by
  cases a with
  | fact name loc => exact reference_accounts h hrun
  | prop f =>
    have hused : s'.used = s.used := by
      cases f with
      | hole => exact absurd hrun broken_ne_ok
      | _ =>
        obtain ⟨_, _, htype, hrun⟩ := bind_eq_ok.mp hrun
        obtain ⟨-, rfl⟩ := pure_eq_ok.mp hrun
        exact (quiet_calm.typeOf _ _ _ _ _ htype).2
    refine ⟨?_, ?_⟩
    · simp [Lookup.seen, FactUse.seen, h.stack, Argument.binding_key]
    · simp [hused, FactUse.rule?, Argument.key, FactKey.rule?]

theorem applyAll_accounts {fn e : Expr} {args : List Argument} (h : Stacked s scopes)
    (hrun : applyAll fn args c s = (.ok e, s')) :
    Accounts s s' (argumentLookups c s args) (args.map fun a => ⟨a.key, scopes⟩) := by
  induction args generalizing fn s with
  | nil =>
    obtain ⟨-, rfl⟩ := pure_eq_ok.mp hrun
    exact .of_used rfl
  | cons a rest ih =>
    obtain ⟨x, mid, hx, hrun⟩ := bind_eq_ok.mp hrun
    have hrest := ih (h.of_same (sameScopes_motion.argument a _ _ _ _ hx)) hrun
    rw [argumentLookups, hx]
    exact (argument_accounts h hx).trans hrest

theorem application_accounts {rule : String} {args : List Argument} {loc : Location} {e : Expr}
    (h : Stacked s scopes) (hrun : application rule args loc c s = (.ok e, s')) :
    Accounts s s' (applicationLookups rule args loc c s)
      ((Justification.apply rule args loc).factUses c.systemF scopes) := by
  obtain ⟨_, _, hread, hrun⟩ := bind_eq_ok.mp hrun
  obtain ⟨rfl, rfl⟩ := read_eq_ok.mp hread
  unfold applicationLookups Justification.factUses
  split at hrun
  · rename_i hrule
    rw [if_pos hrule, if_pos hrule]
    obtain ⟨f, name, at_, fn, mid, t, rfl, hfn, ht, -⟩ := instantiate_eq_ok hrun
    exact (reference_accounts h hfn).of_states rfl (quiet_calm.typeOf _ _ _ _ _ ht).2
  · rename_i hrule
    rw [if_neg hrule, if_neg hrule]
    obtain ⟨fn, mid, hfn, hrun⟩ := bind_eq_ok.mp hrun
    rw [hfn]
    have hmid := h.of_same (sameScopes_motion.reference _ _ _ _ _ _ hfn)
    exact (reference_accounts h hfn).trans (applyAll_accounts hmid hrun)

/-! ## Proofs -/

/-- The names of the scopes are declared around. -/
theorem tracks_scopes (c : Context) (s : State) :
    Tracks c s [] (s.scopes.flatten.map fun b => (b.1, true)) where
  scopes name hname := by
    rw [State.binds, List.any_eq_true] at hname
    obtain ⟨sc, hsc, hname⟩ := hname
    obtain ⟨b, hb, rfl⟩ := find?_isSome_iff.mp hname
    simp only [Visible.names, List.map_map, List.mem_map, List.mem_flatten]
    exact ⟨b, ⟨sc, hsc, hb⟩, rfl⟩
  tops name hname := by cases hname

/-- The facts behind a statement. -/
theorem statement_stacked {st : Statement} {stmt : Stmt} (h : Stacked s scopes)
    (hne : s.scopes ≠ []) (hrun : statement st c s = (.ok stmt, s')) :
    Stacked s' (st.bindFacts scopes) ∧ s'.scopes ≠ [] := by
  cases st with
  | missing => exact absurd hrun broken_ne_ok
  | block b =>
    obtain ⟨-, -, hextends⟩ := statement_settled (tracks_scopes c s) hne _ hrun
    simp only [statement, bind_eq_ok] at hrun
    obtain ⟨value, _, hb, hrun⟩ := hrun
    obtain ⟨-, rfl⟩ := pure_eq_ok.mp hrun
    exact ⟨h.of_same (block_settled (tracks_scopes c s) b hb).2, hextends.nonempty hne⟩
  | step claim j loc =>
    obtain ⟨-, -, hextends⟩ := statement_settled (tracks_scopes c s) hne _ hrun
    refine ⟨?_, hextends.nonempty hne⟩
    simp only [statement, bind_eq_ok] at hrun
    obtain ⟨⟨name, t⟩, s₁, hhead, value, s₂, hj, _, s₃, hdeclare, hrun⟩ := hrun
    obtain ⟨-, rfl⟩ := pure_eq_ok.mp hrun
    obtain ⟨rfl, -⟩ := stepHead_eq_ok hhead
    have hsame := sameScopes_motion.trans (sameScopes_motion.stepHead claim _ _ _ _ hhead)
      (justification_settled (tracks_scopes c s₁) j hj).2
    exact (h.of_same hsame).declare (by rwa [hsame.1]) hdeclare

mutual

theorem proof_accounts {c : Context} {s s' : State} {scopes : List Facts} {declared : Bool}
    {body : Body} {ret : Option TypeExpr} (h : Stacked s scopes) (hne : s.scopes ≠ []) :
    (p : Proof) → proof declared p c s = (.ok (body, ret), s') →
      Accounts s s' (gatherProof applicationLookups declared c s p) (p.factUses c.systemF scopes)
  | .mk st loc, hrun => by
    simp only [proof, bind_eq_ok] at hrun
    obtain ⟨_, mid, hrecord, ⟨stmts, value, ret'⟩, s₂, hsteps, hrun⟩ := hrun
    obtain ⟨-, rfl⟩ := pure_eq_ok.mp hrun
    obtain ⟨hsame, hused⟩ := quiet_calm.recordSteps st _ _ _ _ hrecord
    rw [gatherProof, hrecord]
    exact (steps_accounts (h.of_same hsame) (by rwa [hsame.1]) st hsteps).of_states hused rfl

theorem steps_accounts {c : Context} {s s' : State} {scopes : List Facts} {declared : Bool}
    {stmts : List Stmt} {value : Expr} {ret : Option TypeExpr} (h : Stacked s scopes)
    (hne : s.scopes ≠ []) :
    (st : Steps) → steps declared st c s = (.ok (stmts, value, ret), s') →
      Accounts s s' (gatherSteps applicationLookups declared c s st) (st.factUses c.systemF scopes)
  | .last st, hrun => final_accounts h st hrun
  | .conclude j loc, hrun => by
    simp only [steps, bind_eq_ok] at hrun
    obtain ⟨value', mid, hj, hrun⟩ := hrun
    obtain ⟨-, rfl⟩ := pure_eq_ok.mp hrun
    exact justification_accounts h j hj
  | .more st rest, hrun => by
    simp only [steps, bind_eq_ok] at hrun
    obtain ⟨stmt, mid, hst, ⟨stmts', value', ret'⟩, s₂, hrest, hrun⟩ := hrun
    obtain ⟨-, rfl⟩ := pure_eq_ok.mp hrun
    obtain ⟨hmid, hne'⟩ := statement_stacked h hne hst
    rw [gatherSteps, hst]
    exact (statement_accounts h st hst).trans (steps_accounts hmid hne' rest hrest)

theorem final_accounts {c : Context} {s s' : State} {scopes : List Facts} {declared : Bool}
    {stmts : List Stmt} {value : Expr} {ret : Option TypeExpr} (h : Stacked s scopes) :
    (st : Statement) → final declared st c s = (.ok (stmts, value, ret), s') →
      Accounts s s' (gatherFinal applicationLookups declared c s st) (st.factUses c.systemF scopes)
  | .missing, hrun => absurd hrun broken_ne_ok
  | .block b, hrun => by
    simp only [final, bind_eq_ok] at hrun
    obtain ⟨value', mid, hb, hrun⟩ := hrun
    obtain ⟨-, rfl⟩ := pure_eq_ok.mp hrun
    exact block_accounts h b hb
  | .step claim j loc, hrun => by
    rw [gatherFinal]
    cases hhole : claim.formula.isHole with
    | true =>
      simp only [final, hhole, if_true, bind_eq_ok] at hrun
      obtain ⟨value', mid, hj, hrun⟩ := hrun
      obtain ⟨-, rfl⟩ := pure_eq_ok.mp hrun
      exact justification_accounts h j hj
    | false =>
      cases declared with
      | true =>
        simp only [final, hhole, Bool.false_eq_true, if_false, if_true, bind_eq_ok] at hrun
        obtain ⟨⟨name, t⟩, s₁, hhead, value', s₂, hj, _, s₃, hdeclare, hrun⟩ := hrun
        obtain ⟨-, rfl⟩ := pure_eq_ok.mp hrun
        obtain ⟨hsame, hused⟩ := quiet_calm.stepHead claim _ _ _ _ hhead
        have hvalue := justification_accounts (h.of_same hsame) j hj
        simp only [Bool.false_eq_true, if_false, if_true, hhead]
        exact hvalue.of_states hused (declare_used hdeclare)
      | false =>
        simp only [final, hhole, Bool.false_eq_true, if_false, bind_eq_ok] at hrun
        obtain ⟨t, s₁, htype, value', s₂, hj, hrun⟩ := hrun
        obtain ⟨-, rfl⟩ := pure_eq_ok.mp hrun
        obtain ⟨hsame, hused⟩ := quiet_calm.typeOf _ _ _ _ _ htype
        simp only [Bool.false_eq_true, if_false, htype]
        exact (justification_accounts (h.of_same hsame) j hj).of_states hused rfl

theorem statement_accounts {c : Context} {s s' : State} {scopes : List Facts} {stmt : Stmt}
    (h : Stacked s scopes) :
    (st : Statement) → statement st c s = (.ok stmt, s') →
      Accounts s s' (gatherStatement applicationLookups c s st) (st.factUses c.systemF scopes)
  | .missing, hrun => absurd hrun broken_ne_ok
  | .block b, hrun => by
    simp only [statement, bind_eq_ok] at hrun
    obtain ⟨value, mid, hb, hrun⟩ := hrun
    obtain ⟨-, rfl⟩ := pure_eq_ok.mp hrun
    exact block_accounts h b hb
  | .step claim j loc, hrun => by
    simp only [statement, bind_eq_ok] at hrun
    obtain ⟨⟨name, t⟩, s₁, hhead, value, s₂, hj, _, s₃, hdeclare, hrun⟩ := hrun
    obtain ⟨-, rfl⟩ := pure_eq_ok.mp hrun
    obtain ⟨hsame, hused⟩ := quiet_calm.stepHead claim _ _ _ _ hhead
    rw [gatherStatement, hhead]
    exact (justification_accounts (h.of_same hsame) j hj).of_states hused (declare_used hdeclare)

theorem justification_accounts {c : Context} {s s' : State} {scopes : List Facts} {e : Expr}
    (h : Stacked s scopes) :
    (j : Justification) → justification j c s = (.ok e, s') →
      Accounts s s' (gatherJustification applicationLookups c s j) (j.factUses c.systemF scopes)
  | .missing, hrun => absurd hrun broken_ne_ok
  | .apply _ _ _, hrun => application_accounts h hrun
  | .block b, hrun => block_accounts h b hrun

theorem block_accounts {c : Context} {s s' : State} {scopes : List Facts} {e : Expr}
    (h : Stacked s scopes) :
    (b : Block) → block b c s = (.ok e, s') →
      Accounts s s' (gatherBlock applicationLookups c s b) (b.factUses c.systemF scopes)
  | .assume hyps p loc, hrun => by
    simp only [block, bind_eq_ok] at hrun
    obtain ⟨_, s₁, hpush, hs, s₂, hhyps, ⟨body, ret⟩, s₃, hp, value, s₄, hclose, _, s₅, hpop,
      hrun⟩ := hrun
    obtain ⟨-, rfl⟩ := pure_eq_ok.mp hrun
    rw [gatherBlock, hpush, hhyps]
    obtain rfl := modify_eq_ok.mp hpush
    obtain rfl := modify_eq_ok.mp hpop
    obtain ⟨hstacked, hne, hused⟩ := hypotheses_stacked h.push (by simp) hhyps
    exact (proof_accounts hstacked hne p hp).of_states hused
      (quiet_calm.closeHypotheses ret body hs _ _ _ _ hclose).2
  | .generalize vars p loc, hrun => by
    simp only [block, bind_eq_ok] at hrun
    obtain ⟨_, s₁, hpush, _, s₂, hbind, ⟨body, ret⟩, s₃, hp, _, s₄, hunbind, value, s₅, hclose, _, s₆,
      hpop, hrun⟩ := hrun
    obtain ⟨-, rfl⟩ := pure_eq_ok.mp hrun
    rw [gatherBlock, hpush, hbind]
    obtain rfl := modify_eq_ok.mp hpush
    obtain rfl := modify_eq_ok.mp hpop
    obtain ⟨hsame, hused⟩ := quiet_calm.onFrames _ _ _ _ _ hbind
    have hclosed := quiet_calm.trans (quiet_calm.onFrames _ _ _ _ _ hunbind)
      (quiet_calm.closeVariables ret body loc vars _ _ _ _ hclose)
    exact (proof_accounts (h.push.of_same hsame) (by simp [hsame.1]) p hp).of_states hused hclosed.2

end

/-! ## Theorems -/

theorem theoremArrow_accounts {t : Theorem} {e : Expr} {isThunk : Bool} {theorems : Facts}
    (h : Stacked s [[], theorems]) (hne : s.scopes ≠ [])
    (hrun : theoremArrow t c s = (.ok (e, isThunk), s')) :
    Accounts s s' (gatherTheorem applicationLookups c s t) (t.factUses c.systemF theorems) := by
  unfold theoremArrow at hrun
  unfold gatherTheorem Theorem.factUses
  cases hsequent : sequent? t with
  | some hp =>
    obtain ⟨hyps, p⟩ := hp
    simp only [hsequent, bind_eq_ok] at hrun
    obtain ⟨hs, s₁, hhyps, claim, s₂, hclaim, ⟨body, ret⟩, s₃, hp, arrow, s₄, hclose, hrun⟩ := hrun
    obtain ⟨-, rfl⟩ := pure_eq_ok.mp hrun
    obtain ⟨hstacked, hne₁, hused₁⟩ := hypotheses_stacked h hne hhyps
    obtain ⟨hsame, hused₂⟩ := quiet_calm.typeOf _ _ _ _ _ hclaim
    have hproof := proof_accounts (hstacked.of_same hsame) (by rwa [hsame.1]) p hp
    dsimp only
    rw [hhyps, hclaim]
    exact hproof.of_states (hused₂.trans hused₁)
      (quiet_calm.closeHypotheses (some claim) body hs _ _ _ _ hclose).2
  | none =>
    simp only [hsequent, bind_eq_ok] at hrun
    obtain ⟨_, s₁, henter, claim, s₂, hclaim, ⟨body, ret⟩, s₃, hp, tparams, s₄, hexit, hrun⟩ := hrun
    obtain ⟨-, rfl⟩ := pure_eq_ok.mp hrun
    obtain ⟨hsame, hused⟩ := quiet_calm.trans (quiet_calm.onFrames _ _ _ _ _ henter)
      (quiet_calm.typeOf _ _ _ _ _ hclaim)
    have hproof := proof_accounts (h.of_same hsame) (by rwa [hsame.1]) t.proof hp
    dsimp only
    rw [henter, hclaim]
    exact hproof.of_states hused (quiet_calm.exit _ _ _ _ hexit).2

/-- A theorem is a fact behind its proof. -/
theorem theoremDecl_accounts {t : Theorem} {decl : Stmt} {theorems : Facts}
    (h : Stacked s [theorems]) (hs : s.scopes = []) (hrun : theoremDecl t c s = (.ok decl, s')) :
    Accounts s s' (gatherTheorem applicationLookups c (pushScope c s).2 t)
      (t.factUses c.systemF theorems) ∧
      Stacked s' [theorems ++ t.fact?.toList] ∧ s'.scopes = [] := by
  have htracks : Tracks c s [] [] :=
    ⟨by simp [State.binds, hs], fun name hname => by cases hname⟩
  have hdeclared : s.declared = theorems.emitted := by
    simpa [Stacked, hs] using h
  unfold Theorem.fact?
  simp only [theoremDecl] at hrun
  cases hname : t.claim.name with
  | none =>
    simp only [hname, Option.map_none, bind_eq_ok] at hrun
    obtain ⟨_, s₂, hpush, ⟨arrow, isThunk⟩, s₃, harrow, _, s₄, hpop, hrun⟩ := hrun
    obtain ⟨-, rfl⟩ := pure_eq_ok.mp hrun
    rw [hpush]
    obtain rfl := modify_eq_ok.mp hpush
    obtain rfl := modify_eq_ok.mp hpop
    obtain ⟨-, hsame, hscopes⟩ := theoremArrow_settled htracks.push (by simp) harrow
    have hempty : s₃.scopes.tail = [] := by simpa [hs] using hscopes
    have haccounts := theoremArrow_accounts h.push (by simp) harrow
    refine ⟨haccounts.of_states rfl rfl, ?_, hempty⟩
    simp [Stacked, hempty, hsame, hdeclared]
  | some name =>
    simp only [hname, Option.map_some, bind_eq_ok] at hrun
    obtain ⟨_, s₁, hcheck, _, s₂, hpush, ⟨arrow, isThunk⟩, s₃, harrow, _, s₄, hpop, _, s₅, hdeclare,
      hrun⟩ := hrun
    obtain ⟨-, rfl⟩ := checkTheoremName_eq_ok hcheck
    rw [hpush]
    obtain rfl := modify_eq_ok.mp hpush
    obtain rfl := modify_eq_ok.mp hpop
    obtain ⟨-, hsame, hscopes⟩ := theoremArrow_settled htracks.push (by simp) harrow
    have hempty : s₃.scopes.tail = [] := by simpa [hs] using hscopes
    have haccounts := theoremArrow_accounts h.push (by simp) harrow
    obtain rfl := declare_eq_ok_of_nil hempty hdeclare
    have hfinal : s'.scopes = [] ∧ s'.used = s₃.used ∧
        s'.declared = s.declared ++ [(escapeIdent name, t.claim.loc)] := by
      split at hrun
      · obtain ⟨_, _, hthunk, hrun⟩ := bind_eq_ok.mp hrun
        obtain rfl := modify_eq_ok.mp hthunk
        obtain ⟨-, rfl⟩ := pure_eq_ok.mp hrun
        exact ⟨hempty, rfl, congrArg (· ++ _) hsame⟩
      · obtain ⟨-, rfl⟩ := pure_eq_ok.mp hrun
        exact ⟨hempty, rfl, congrArg (· ++ _) hsame⟩
    obtain ⟨hscopes', hused, hdeclared'⟩ := hfinal
    refine ⟨haccounts.of_states rfl hused, ?_, hscopes'⟩
    simp [Stacked, hscopes', hdeclared', hdeclared, Facts.emitted, FactKey.binding]

theorem theoremDecls_accounts {ts : List Theorem} {decls : List Stmt} {theorems : Facts}
    (h : Stacked s [theorems]) (hs : s.scopes = [])
    (hrun : theoremDecls ts c s = (.ok decls, s')) :
    Accounts s s' (gatherTheorems applicationLookups c s ts)
      (theoremsFactUses c.systemF theorems ts) := by
  induction ts generalizing s decls theorems with
  | nil =>
    obtain ⟨-, rfl⟩ := pure_eq_ok.mp hrun
    exact .of_used rfl
  | cons t rest ih =>
    simp only [theoremDecls, bind_eq_ok] at hrun
    obtain ⟨decl, s₁, hdecl, _, _, hget, hrun⟩ := hrun
    obtain ⟨rfl, rfl⟩ := get_eq_ok.mp hget
    split at hrun
    · exact absurd hrun broken_ne_ok
    obtain ⟨more, s₂, hmore, hrun⟩ := bind_eq_ok.mp hrun
    obtain ⟨-, rfl⟩ := pure_eq_ok.mp hrun
    obtain ⟨haccounts, hstacked, hs₁⟩ := theoremDecl_accounts h hs hdecl
    rw [gatherTheorems, hdecl]
    exact haccounts.trans (ih hstacked hs₁ hmore)

end Generate

/-! ## Plain names -/

/-- The proposition is left out, or is one of a script without its places. -/
def FactKey.Written : FactKey → Prop
  | .named _ => True
  | .stated f => f.isHole = true ∨ ∃ g : Formula, g.Spelled ∧ f = g.bare

/-- The facts around are written. -/
def Written (scopes : List Facts) : Prop := ∀ b ∈ scopes.flatten, b.1.Written

theorem Claim.written_key {c : Claim} (h : c.formula.isHole = true ∨ c.formula.Spelled) :
    c.key.Written := by
  unfold Claim.key
  cases c.name with
  | some name => trivial
  | none =>
    refine h.imp (fun hhole => ?_) fun hspelled => ⟨c.formula, hspelled, rfl⟩
    cases hformula : c.formula with
    | hole => rfl
    | _ => simp [hformula, Formula.isHole] at hhole

theorem Written.push {scopes : List Facts} (h : Written scopes) {top : Facts}
    (htop : ∀ b ∈ top, b.1.Written) : Written (top :: scopes) := by
  rw [Written, List.flatten_cons]
  exact List.forall_mem_append.mpr ⟨htop, h⟩

theorem written_factsOf {hyps : List Claim} {systemF : Bool}
    (h : ∀ c ∈ hyps, c.formula.SpelledIn systemF) : ∀ b ∈ factsOf hyps, b.1.Written := by
  rw [factsOf, List.forall_mem_map]
  exact fun c hc => c.written_key (.inr (h c hc).1)

theorem Written.bindFacts {scopes : List Facts} {systemF : Bool} (h : Written scopes)
    {st : Statement} (hst : st.Spelled systemF) : Written (st.bindFacts scopes) := by
  cases st with
  | step claim j loc =>
    cases scopes with
    | nil => exact h
    | cons top rest =>
      rw [Written, List.flatten_cons, List.forall_mem_append] at h
      refine Written.push h.2 (List.forall_mem_append.mpr ⟨h.1, ?_⟩)
      rw [List.forall_mem_singleton]
      exact claim.written_key (hst.1.imp_right And.left)
  | _ => exact h

mutual

theorem Proof.Spelled.factUses {systemF : Bool} {scopes : List Facts} (hscopes : Written scopes) :
    (p : Proof) → p.Spelled systemF →
      ∀ u ∈ p.factUses systemF scopes, u.key.Written ∧ Written u.scopes
  | .mk s _, h => Steps.Spelled.factUses hscopes s h

theorem Steps.Spelled.factUses {systemF : Bool} {scopes : List Facts} (hscopes : Written scopes) :
    (st : Steps) → st.Spelled systemF →
      ∀ u ∈ st.factUses systemF scopes, u.key.Written ∧ Written u.scopes
  | .last s, h => Statement.Spelled.factUses hscopes s h
  | .conclude j _, h => Justification.Spelled.factUses hscopes j h
  | .more s rest, h =>
    List.forall_mem_append.mpr ⟨Statement.Spelled.factUses hscopes s h.1,
      Steps.Spelled.factUses (hscopes.bindFacts h.1) rest h.2⟩

theorem Statement.Spelled.factUses {systemF : Bool} {scopes : List Facts}
    (hscopes : Written scopes) :
    (s : Statement) → s.Spelled systemF →
      ∀ u ∈ s.factUses systemF scopes, u.key.Written ∧ Written u.scopes
  | .missing, _ => by simp [Statement.factUses]
  | .step _ j _, h => Justification.Spelled.factUses hscopes j h.2
  | .block b, h => Block.Spelled.factUses hscopes b h

theorem Justification.Spelled.factUses {systemF : Bool} {scopes : List Facts}
    (hscopes : Written scopes) :
    (j : Justification) → j.Spelled systemF →
      ∀ u ∈ j.factUses systemF scopes, u.key.Written ∧ Written u.scopes
  | .missing, _ => by simp [Justification.factUses]
  | .apply rule args _, h => by
    unfold Justification.factUses
    split
    · intro u hu
      rcases List.mem_filterMap.mp hu with ⟨a, -, heq⟩
      cases a with
      | fact name loc =>
        obtain rfl := Option.some.inj heq
        exact ⟨trivial, hscopes⟩
      | prop f => cases heq
    · refine List.forall_mem_cons.mpr ⟨⟨trivial, hscopes⟩, ?_⟩
      rw [List.forall_mem_map]
      intro a ha
      have hspelled := h a ha
      cases a with
      | fact name loc => exact ⟨trivial, hscopes⟩
      | prop f => exact ⟨.inr ⟨f, hspelled.1, rfl⟩, hscopes⟩
  | .block b, h => Block.Spelled.factUses hscopes b h

theorem Block.Spelled.factUses {systemF : Bool} {scopes : List Facts} (hscopes : Written scopes) :
    (b : Block) → b.Spelled systemF →
      ∀ u ∈ b.factUses systemF scopes, u.key.Written ∧ Written u.scopes
  | .assume _ p _, h => Proof.Spelled.factUses (hscopes.push (written_factsOf h.1)) p h.2
  | .generalize _ p _, h => Proof.Spelled.factUses (hscopes.push (by simp)) p h.2

end

theorem Theorem.Spelled.factUses {systemF : Bool} {t : Theorem} (h : t.Spelled systemF)
    {theorems : Facts} (htheorems : Written [theorems]) :
    ∀ u ∈ t.factUses systemF theorems, u.key.Written ∧ Written u.scopes := by
  unfold Theorem.factUses
  split
  · rename_i hyps p hsequent
    obtain ⟨hhyps, hp⟩ := h.sequent hsequent
    exact Proof.Spelled.factUses (htheorems.push (written_factsOf hhyps)) p hp
  · exact Proof.Spelled.factUses (htheorems.push (by simp)) t.proof h.2

theorem written_theoremsFactUses {systemF : Bool} {ts : List Theorem}
    (h : ∀ t ∈ ts, t.Spelled systemF) {theorems : Facts} (htheorems : Written [theorems]) :
    ∀ u ∈ theoremsFactUses systemF theorems ts, u.key.Written ∧ Written u.scopes := by
  induction ts generalizing theorems with
  | nil => simp [theoremsFactUses]
  | cons t rest ih =>
    refine List.forall_mem_append.mpr ⟨(h t (by simp)).factUses htheorems, ?_⟩
    refine ih (fun u hu => h u (by simp [hu])) ?_
    have hfact : ∀ b ∈ t.fact?.toList, b.1.Written := by
      intro b hb
      obtain ⟨name, -, rfl⟩ := Option.map_eq_some_iff.mp (Option.mem_toList.mp hb)
      trivial
    simpa [Written] using List.forall_mem_append.mpr ⟨by simpa [Written] using htheorems, hfact⟩

theorem Formula.getLast?_factName {f : Formula} (h : f.isHole = false) :
    f.factName.toList.getLast? = some '_' := by
  have hlast : ∀ s : String, (s ++ "_").toList.getLast? = some '_' := by
    intro s
    simp
  cases f with
  | hole => cases h
  | atom name args loc =>
    cases args with
    | nil => exact hlast _
    | cons arg rest => exact hlast _
  | _ => exact hlast _

/-- Plain facts with the same name in the program are the same. -/
theorem FactKey.eq_of_binding_eq {a b : FactKey} (ha : a.Written) (hb : b.Written)
    (hplain : a.plain = true) (hplain' : b.plain = true) (h : a.binding = b.binding) : a = b := by
  have hnamed : ∀ {name : String}, (FactKey.named name).plain = true →
      escapeIdent name = name ∧ name.toList.getLast? ≠ some '_' := by
    intro name hname
    simp only [FactKey.plain, Bool.and_eq_true, decide_eq_true_eq] at hname
    exact ⟨if_neg hname.1, hname.2⟩
  have hstated : ∀ {f : Formula}, (FactKey.stated f).plain = true → f.isHole = false := by
    intro f hf
    simpa [FactKey.plain] using hf
  cases a with
  | named x =>
    obtain ⟨hx, hlast⟩ := hnamed hplain
    cases b with
    | named y => rw [FactKey.binding, FactKey.binding, hx, (hnamed hplain').1] at h; rw [h]
    | stated g =>
      rw [FactKey.binding, FactKey.binding, hx] at h
      exact absurd (h ▸ Formula.getLast?_factName (hstated hplain')) hlast
  | stated f =>
    have hf := hstated hplain
    cases b with
    | named y =>
      obtain ⟨hy, hlast⟩ := hnamed hplain'
      rw [FactKey.binding, FactKey.binding, hy] at h
      exact absurd (h ▸ Formula.getLast?_factName hf) hlast
    | stated g =>
      obtain ⟨f, hspelled, rfl⟩ := ha.resolve_left (by simp [hf])
      obtain ⟨g, hspelled', rfl⟩ := hb.resolve_left (by simp [hstated hplain'])
      rw [FactKey.binding, FactKey.binding, Formula.factName_bare, Formula.factName_bare] at h
      rw [bare_eq_of_factName_eq hspelled hspelled' h]

theorem FactUse.clear_of_plain {u : FactUse} (hkey : u.key.Written) (hscopes : Written u.scopes)
    (h : u.plain = true) : u.clear = true := by
  rw [FactUse.plain, Bool.and_eq_true, List.all_eq_true] at h
  rw [FactUse.clear, Option.all_eq_true]
  intro b hb
  have hmem := List.mem_of_find?_eq_some hb
  have hbinding : b.1.binding = u.key.binding := by simpa using List.find?_some hb
  exact decide_eq_true (FactKey.eq_of_binding_eq (hscopes b hmem) hkey (h.2 b hmem) h.1 hbinding)

/-! ## Scripts -/

/-- Where a script compiles, each use of a fact becomes a name that resolves to the declaration of the
fact that the use means exactly if it is clear, that is, if the innermost declaration with this name
is one of this fact. This holds of all uses where neither the name of the fact nor one of a fact
around is a reserved word or ends in an underscore. -/
theorem compile_resolves {src : List UInt8} {systemF : Bool} {c : Compilation}
    (h : (compile src systemF).1 = .ok c) :
    List.Forall₂ (fun l u => l.name = u.key.binding ∧ (l.found? = u.meant? ↔ u.clear = true))
      (c.document.lookups systemF) (c.document.factUses systemF) ∧
    ∀ u ∈ c.document.factUses systemF, u.plain = true → u.clear = true := by
  obtain ⟨s, hparse, hgenerate, -⟩ := compile_eq_ok h
  refine ⟨?_, ?_⟩
  · have hstacked : Generate.Stacked .empty [[]] := rfl
    have hseen := (Generate.theoremDecls_accounts hstacked rfl hgenerate).seen
    rw [← List.forall₂_eq_eq_eq, List.forall₂_map_left_iff, List.forall₂_map_right_iff] at hseen
    refine hseen.imp fun l u heq => ?_
    obtain ⟨hname, hstack⟩ := Prod.mk.inj heq
    refine ⟨hname, ?_⟩
    rw [Generate.Lookup.found?, hname, hstack, FactUse.meant?, FactUse.clear]
    exact findIdx?_emitted_eq_iff u.scopes.flatten u.key
  · intro u hu hplain
    have hempty : Written [[]] := by simp [Written]
    obtain ⟨hkey, hscopes⟩ := written_theoremsFactUses (theorems_spelled hparse) hempty u hu
    exact u.clear_of_plain hkey hscopes hplain

/-- The fact `true` stands as `true_` in the program, where the fact `true_` hides it. -/
theorem compile_resolves_captured :
    ∃ c, (compile (Text.bytes "theorem t : P => (Q => P)
      assume true : P \x7b
        by assume true_ : Q \x7b by id true; \x7d
      \x7d") false).1 = .ok c ∧
    ∃ l ∈ c.document.lookups false, ∃ u ∈ c.document.factUses false,
      u.key = .named "true" ∧ l.name = "true_" ∧ l.found? ≠ u.meant? := by
  generalize hsrc : Text.bytes _ = src
  have huses : (compile src false).1.toOption.any (fun c => (c.document.factUses false).any fun u =>
      u.key = .named "true" && !u.clear) = true := by
    rw [← hsrc]
    decide +kernel
  obtain ⟨c, h, hused⟩ := exists_ok_of_any huses
  refine ⟨c, h, ?_⟩
  obtain ⟨hresolves, -⟩ := compile_resolves h
  obtain ⟨u, hu, hkey, hclear⟩ : ∃ u ∈ c.document.factUses false,
      u.key = .named "true" ∧ u.clear = false := by
    simpa using hused
  obtain ⟨⟨i, hi⟩, rfl⟩ := List.get_of_mem hu
  have hi' : i < (c.document.lookups false).length := hresolves.length_eq ▸ hi
  obtain ⟨hname, hfound⟩ := hresolves.get hi' hi
  refine ⟨_, List.get_mem _ ⟨i, hi'⟩, _, hu, hkey, ?_, ?_⟩
  · rw [hname, hkey]
    decide
  · intro heq
    have hclear' := hfound.mp heq
    rw [hclear] at hclear'
    cases hclear'

end ProofScript
