import ProofScript.Proofs.Claims
import ProofScript.Proofs.Entries
import ProofScript.Proofs.Formation
import ProofScript.Proofs.Resolution

/-!
# Symbol tables resolve names as generation does

Building a symbol table and generating a program go through a document side by side, each with scopes
of its own. As long as no name is a reserved word or ends in an underscore, the scopes of both hold the
same declarations (`Agrees`): the facts without a name, which only generation declares, have names that
end in an underscore. So every use of a name finds in the table what generation finds for it.
-/

namespace ProofScript

open Program

/-! ## Names of a document -/

/-- No reserved word, and no underscore at the end. -/
def PlainName (name : String) : Prop := name ∉ reservedWords ∧ name.toList.getLast? ≠ some '_'

instance (name : String) : Decidable (PlainName name) := inferInstanceAs (Decidable (_ ∧ _))

/-- The name that an argument is. -/
def Argument.identifiers : Argument → List String
  | .fact name _ => [name]
  | .prop _ => []

mutual

/-- The names in a proof, those of claims, of rules and of arguments. -/
def Proof.identifiers : Proof → List String
  | .mk s _ => s.identifiers

/-- The names in steps. -/
def Steps.identifiers : Steps → List String
  | .last s => s.identifiers
  | .conclude j _ => j.identifiers
  | .more s rest => s.identifiers ++ rest.identifiers

/-- The names in a statement. -/
def Statement.identifiers : Statement → List String
  | .missing => []
  | .step c j _ => c.name.toList ++ j.identifiers
  | .block b => b.identifiers

/-- The names in a justification. -/
def Justification.identifiers : Justification → List String
  | .missing => []
  | .apply rule args _ => rule :: args.flatMap Argument.identifiers
  | .block b => b.identifiers

/-- The names in a block. -/
def Block.identifiers : Block → List String
  | .assume hyps p _ => hyps.flatMap (·.name.toList) ++ p.identifiers
  | .generalize _ p _ => p.identifiers

end

/-- The names in a document. -/
def Document.identifiers (d : Document) : List String :=
  d.theorems.flatMap fun t => t.claim.name.toList ++ t.proof.identifiers

/-- All names are plain. -/
def PlainNames (names : List String) : Prop := ∀ n ∈ names, PlainName n

instance (names : List String) : Decidable (PlainNames names) :=
  inferInstanceAs (Decidable (∀ n ∈ names, _))

@[simp]
theorem plainNames_append {names more : List String} :
    PlainNames (names ++ more) ↔ PlainNames names ∧ PlainNames more := List.forall_mem_append

@[simp]
theorem plainNames_cons {name : String} {names : List String} :
    PlainNames (name :: names) ↔ PlainName name ∧ PlainNames names := List.forall_mem_cons

theorem PlainName.escapeIdent {name : String} (h : PlainName name) : escapeIdent name = name :=
  if_neg h.1

/-- A fact without a name has no plain name. -/
theorem PlainName.ne_factName {name : String} (h : PlainName name) {f : Formula}
    (hf : f.isHole = false) : name ≠ f.factName := by
  rintro rfl
  exact h.2 (Formula.getLast?_factName hf)

/-! ## Uses of names -/

namespace Generate

/-- Where the scopes around or the theorems so far declare a name, innermost scope first. -/
def State.declaration? (s : State) (name : String) : Option Location :=
  (s.scopes ++ [s.declared]).findSome? (Scope.find? · name)

theorem State.declaration?_eq_none {s : State} {name : String} :
    s.declaration? name = none ↔ s.binds name = false ∧ Scope.find? s.declared name = none := by
  simp [State.declaration?, State.binds]

/-- Generation takes a name for what declares it. Where nothing does, it uses the rule of this name,
and where there is none either it leaves the name as it is. -/
theorem reference_resolved {c : Context} {s s' : State} {name : String} {loc : Location} {e : Expr}
    (h : reference name loc c s = (.ok e, s')) :
    ((s.declaration? (escapeIdent name)).isSome = true ∧ s' = s) ∨
      s.declaration? (escapeIdent name) = none ∧
        ((∃ p, Library.findRule? (escapeIdent name) = some p ∧ useRule p loc c s = (.ok (), s')) ∨
          Library.findRule? (escapeIdent name) = none ∧ s' = s) := by
  simp only [reference, bind_eq_ok] at h
  obtain ⟨_, _, hget, h⟩ := h
  obtain ⟨rfl, rfl⟩ := get_eq_ok.mp hget
  split at h
  · rename_i hbinds
    refine .inl ⟨Option.isSome_iff_ne_none.mpr fun hnone => ?_, (pure_eq_ok.mp h).2.symm⟩
    exact Bool.false_ne_true ((State.declaration?_eq_none.mp hnone).1.symm.trans hbinds)
  rename_i hbinds
  split at h
  · rename_i hdeclared
    refine .inl ⟨Option.isSome_iff_ne_none.mpr fun hnone => ?_, ?_⟩
    · simp [(State.declaration?_eq_none.mp hnone).2] at hdeclared
    · split at h <;> exact (pure_eq_ok.mp h).2.symm
  rename_i hdeclared
  refine .inr ⟨State.declaration?_eq_none.mpr ⟨Bool.eq_false_of_not_eq_true hbinds,
    Option.not_isSome_iff_eq_none.mp hdeclared⟩, ?_⟩
  obtain ⟨_, _, hread, h⟩ := bind_eq_ok.mp h
  obtain ⟨rfl, rfl⟩ := read_eq_ok.mp hread
  split at h
  · exact absurd h fail_ne_ok
  cases hrule : Library.findRule? (escapeIdent name) with
  | some p =>
    simp only [hrule] at h
    obtain ⟨_, _, huse, h⟩ := bind_eq_ok.mp h
    obtain ⟨-, rfl⟩ := pure_eq_ok.mp h
    exact .inl ⟨p, rfl, huse⟩
  | none =>
    simp only [hrule] at h
    exact .inr ⟨rfl, (pure_eq_ok.mp h).2.symm⟩

/-- A use of a name, and the state that generation looks it up in. The rule that instantiates a
quantified fact is not looked up. -/
structure NameUse where
  name : String
  loc : Location
  state : Option State

/-- The use that an argument is. -/
def nameUse? (s : State) : Argument → Option NameUse
  | .fact name loc => some ⟨name, loc, some s⟩
  | .prop _ => none

/-- The uses of names among arguments. -/
def argumentNames (c : Context) (s : State) : List Argument → List NameUse
  | [] => []
  | a :: rest => (nameUse? s a).toList ++ argumentNames c (argument a c s).2 rest

/-- The uses of names in a rule with its arguments. -/
def applicationNames (rule : String) (args : List Argument) (loc : Location) (c : Context)
    (s : State) : List NameUse :=
  if c.systemF ∧ rule = instantiationRule then ⟨rule, loc, none⟩ :: args.filterMap (nameUse? s)
  else ⟨rule, loc, some s⟩ :: argumentNames c (reference rule loc c s).2 args

end Generate

/-- The uses of names in a document, each in the state that generation meets it in. -/
def Document.nameUses (d : Document) (systemF : Bool) : List Generate.NameUse :=
  d.gather Generate.applicationNames systemF

namespace SymbolTable

open Generate (NameUse)

/-! ## Scopes of a builder -/

variable {b b' : Builder}

/-- The binding of a name that is visible. -/
def Builder.find? (b : Builder) (name : String) : Option Nat := b.scopes.findSome? (·.lookup name)

/-- The bindings so far stay, and so do the scopes below the innermost. -/
structure Kept (b b' : Builder) : Prop where
  bindings : b.table.bindings <+: b'.table.bindings
  below : b'.scopes.tail = b.scopes.tail

/-- The bindings so far stay, and so do the scopes. -/
structure Restored (b b' : Builder) : Prop where
  bindings : b.table.bindings <+: b'.table.bindings
  scopes : b'.scopes = b.scopes

theorem Restored.kept (h : Restored b b') : Kept b b' := ⟨h.bindings, by rw [h.scopes]⟩

theorem Kept.trans {mid : Builder} (h : Kept b mid) (h' : Kept mid b') : Kept b b' :=
  ⟨h.bindings.trans h'.bindings, h'.below.trans h.below⟩

theorem Restored.trans {mid : Builder} (h : Restored b mid) (h' : Restored mid b') :
    Restored b b' :=
  ⟨h.bindings.trans h'.bindings, h'.scopes.trans h.scopes⟩

/-- The builder in a new scope. -/
def Builder.push (b : Builder) : Builder := { b with scopes := [] :: b.scopes }

/-- A scope that is opened and closed again leaves the others as they are. -/
theorem inScope_restored {act : Build Unit} (h : Kept b.push (act b.push).2) :
    Restored b (inScope act b).2 :=
  ⟨h.bindings, h.below⟩

theorem bind_unnamed {c : Claim} (hname : c.name = none) (kind : BindingKind) (b : Builder) :
    (bind c kind b).2 = b := by
  unfold bind
  rw [hname]
  rfl

/-- A name is bound in the innermost scope, and where there is none in a new one. -/
theorem bind_scopes {c : Claim} {name : String} (hname : c.name = some name) (kind : BindingKind)
    (b : Builder) : (bind c kind b).2.scopes =
      ((name, b.table.bindings.length) :: b.scopes.headD []) :: b.scopes.tail := by
  obtain ⟨table, scopes, container⟩ := b
  unfold bind
  rw [hname]
  cases scopes <;> rfl

theorem bind_bindings (c : Claim) (kind : BindingKind) (b : Builder) :
    b.table.bindings <+: (bind c kind b).2.table.bindings := by
  unfold bind
  cases c.name with
  | none => exact List.prefix_rfl
  | some name => exact List.prefix_append _ _

theorem bind_kept (c : Claim) (kind : BindingKind) (b : Builder) : Kept b (bind c kind b).2 := by
  refine ⟨bind_bindings c kind b, ?_⟩
  cases hname : c.name with
  | none => rw [bind_unnamed hname]
  | some name => rw [bind_scopes hname, List.tail_cons]

theorem bindAll_kept (hyps : List Claim) (b : Builder) : Kept b (bindAll hyps b).2 := by
  induction hyps generalizing b with
  | nil => exact ⟨List.prefix_rfl, rfl⟩
  | cons h rest ih => exact (bind_kept h .hypothesis b).trans (ih _)

theorem bind_references (c : Claim) (kind : BindingKind) (b : Builder) :
    (bind c kind b).2.table.references = b.table.references := by
  unfold bind
  cases c.name <;> rfl

theorem bindAll_references (hyps : List Claim) (b : Builder) :
    (bindAll hyps b).2.table.references = b.table.references := by
  induction hyps generalizing b with
  | nil => rfl
  | cons h rest ih => exact (ih _).trans (bind_references h .hypothesis b)

theorem refer_restored (name : String) (loc : Location) (b : Builder) :
    Restored b (refer name loc b).2 := ⟨List.prefix_rfl, rfl⟩

theorem referAll_restored (args : List Argument) (b : Builder) :
    Restored b (referAll args b).2 := by
  induction args generalizing b with
  | nil => exact ⟨List.prefix_rfl, rfl⟩
  | cons a rest ih =>
    cases a with
    | fact name loc => exact (refer_restored name loc b).trans (ih _)
    | prop f => exact ih b

mutual

theorem proof_restored : (p : Proof) → (b : Builder) → Restored b (proof p b).2
  | .mk s _, b => inScope_restored (steps_kept s b.push)

theorem steps_kept : (st : Steps) → (b : Builder) → Kept b (steps st b).2
  | .last s, b => statement_kept s b
  | .conclude j _, b => (justification_restored j b).kept
  | .more s rest, b => (statement_kept s b).trans (steps_kept rest _)

theorem statement_kept : (st : Statement) → (b : Builder) → Kept b (statement st b).2
  | .missing, _ => ⟨List.prefix_rfl, rfl⟩
  | .step c j _, b => (justification_restored j b).kept.trans (bind_kept c .step _)
  | .block bl, b => (block_restored bl b).kept

theorem justification_restored : (j : Justification) → (b : Builder) →
    Restored b (justification j b).2
  | .missing, _ => ⟨List.prefix_rfl, rfl⟩
  | .apply rule args loc, b => (refer_restored rule loc b).trans (referAll_restored args _)
  | .block bl, b => block_restored bl b

theorem block_restored : (bl : Block) → (b : Builder) → Restored b (block bl b).2
  | .assume hyps p _, b =>
    inScope_restored ((bindAll_kept hyps b.push).trans (proof_restored p _).kept)
  | .generalize _ p _, b => proof_restored p b

end

/-! ## What is found -/

/-- The builder holds the declaration of a name: a binding of it at its place, or none. -/
def Builder.Holds (b : Builder) (name : String) : Option Location → Prop
  | some loc => ∃ i binding, b.find? name = some i ∧ b.table.bindings[i]? = some binding ∧
      binding.name = name ∧ binding.range = loc.nameRange name
  | none => b.find? name = none

/-- The scopes of the builder hold the same declarations of plain names as those of generation. -/
def Agrees (b : Builder) (s : Generate.State) : Prop :=
  ∀ name, PlainName name → b.Holds name (s.declaration? name)

theorem getElem?_of_prefix {α : Type} {xs ys : List α} (h : xs <+: ys) {i : Nat} {x : α}
    (hx : xs[i]? = some x) : ys[i]? = some x := by
  obtain ⟨rest, rfl⟩ := h
  rw [List.getElem?_append_left (List.getElem?_eq_some_iff.mp hx).1, hx]

theorem Builder.Holds.of_restored {name : String} {o : Option Location} (h : b.Holds name o)
    (hb : Restored b b') : b'.Holds name o := by
  have hfind : b'.find? name = b.find? name := by rw [Builder.find?, hb.scopes, Builder.find?]
  cases o with
  | none => exact hfind.trans h
  | some loc =>
    obtain ⟨i, binding, hi, hbinding, hname, hrange⟩ := h
    exact ⟨i, binding, hfind.trans hi, getElem?_of_prefix hb.bindings hbinding, hname, hrange⟩

theorem Agrees.of_restored {s : Generate.State} (h : Agrees b s) (hb : Restored b b') :
    Agrees b' s :=
  fun name hname => (h name hname).of_restored hb

theorem Agrees.of_same {s s' : Generate.State} (h : Agrees b s) (hs : Generate.SameScopes s s') :
    Agrees b s' := by
  intro name hname
  have hsame : s'.declaration? name = s.declaration? name := by
    rw [Generate.State.declaration?, hs.1, hs.2, Generate.State.declaration?]
  rw [hsame]
  exact h name hname

/-- A new scope of the builder declares nothing. -/
theorem Agrees.push {s : Generate.State} (h : Agrees b s) : Agrees b.push s := by
  intro name hname
  have hheld := h name hname
  cases hdeclared : s.declaration? name with
  | none =>
    rw [hdeclared] at hheld
    exact hheld
  | some loc =>
    rw [hdeclared] at hheld
    exact hheld

/-- A new scope of generation declares nothing. -/
theorem Agrees.pushScope {s : Generate.State} (h : Agrees b s) :
    Agrees b { s with scopes := [] :: s.scopes } := h

/-! ## Declarations -/

section Declarations

variable {c : Generate.Context} {s s' : Generate.State}

/-- A name that is declared goes to the first of the scopes, which does not hold it yet. -/
theorem declare_stack {name : String} {loc : Location} {u : Unit}
    (h : Generate.declare name loc c s = (.ok u, s')) :
    ∃ top rest, s.scopes ++ [s.declared] = top :: rest ∧ Generate.Scope.find? top name = none ∧
      s'.scopes ++ [s'.declared] = (top ++ [(name, loc)]) :: rest := by
  have hnew := lookup_eq_none_iff_not_mem.mpr (Generate.not_mem_taken_of_declare h)
  cases hscopes : s.scopes with
  | nil =>
    obtain rfl := Generate.declare_eq_ok_of_nil hscopes h
    rw [Generate.State.taken, hscopes] at hnew
    exact ⟨s.declared, [], rfl, hnew, by simp [hscopes]⟩
  | cons top rest =>
    obtain rfl := Generate.declare_eq_ok hscopes h
    rw [Generate.State.taken, hscopes] at hnew
    exact ⟨top, rest ++ [s.declared], rfl, hnew, rfl⟩

theorem declaration?_of_declare {name : String} {loc : Location} {u : Unit}
    (h : Generate.declare name loc c s = (.ok u, s')) (n : String) :
    s'.declaration? n = if n = name then some loc else s.declaration? n := by
  obtain ⟨top, rest, hs, hnew, hs'⟩ := declare_stack h
  have hfind : Generate.Scope.find? (top ++ [(name, loc)]) n =
      (Generate.Scope.find? top n).or (if n = name then some loc else none) := by
    rw [Generate.Scope.find?, List.lookup_append, Generate.Scope.find?]
    by_cases hn : n = name
    · simp [hn]
    · have hbeq : (n == name) = false := by simpa using hn
      simp [List.lookup_cons, hbeq, hn]
  rw [Generate.State.declaration?, hs', List.findSome?_cons, hfind, Generate.State.declaration?, hs,
    List.findSome?_cons]
  by_cases hn : n = name
  · simp [hn, hnew]
  · simp [hn]

/-- The claim that is bound is the one that is found. -/
theorem find?_of_bind {claim : Claim} {name : String} (hname : claim.name = some name)
    (kind : BindingKind) (b : Builder) (n : String) :
    (bind claim kind b).2.find? n =
      if n = name then some b.table.bindings.length else b.find? n := by
  rw [Builder.find?, bind_scopes hname, Builder.find?]
  by_cases hn : n = name
  · cases b.scopes <;> simp [hn]
  · have hbeq : (n == name) = false := by simpa using hn
    cases b.scopes <;> simp [List.findSome?_cons, List.lookup_cons, hbeq, hn]

theorem getElem?_of_bind {claim : Claim} {name : String} (hname : claim.name = some name)
    (kind : BindingKind) (b : Builder) :
    ∃ binding, (bind claim kind b).2.table.bindings[b.table.bindings.length]? = some binding ∧
      binding.name = name ∧ binding.range = claim.loc.nameRange name := by
  unfold bind
  rw [hname]
  exact ⟨_, List.getElem?_concat_length, rfl, rfl⟩

/-- Binding a claim keeps up with declaring it. -/
theorem Agrees.bind {claim : Claim} {u : Unit} (h : Agrees b s)
    (hdeclare : Generate.declare claim.binding claim.loc c s = (.ok u, s'))
    (hplain : PlainNames claim.name.toList)
    (hhole : claim.name = none → claim.formula.isHole = false) (kind : BindingKind) :
    Agrees (SymbolTable.bind claim kind b).2 s' := by
  intro n hn
  rw [declaration?_of_declare hdeclare]
  have hkept := bind_kept claim kind b
  cases hname : claim.name with
  | none =>
    have hne : n ≠ claim.binding := by
      simpa [Claim.binding, hname] using hn.ne_factName (hhole hname)
    rw [bind_unnamed hname, if_neg hne]
    exact h n hn
  | some name =>
    have hbinding : claim.binding = name := by
      rw [hname] at hplain
      simpa [Claim.binding, hname] using PlainName.escapeIdent (hplain name (by simp))
    rw [hbinding]
    have hfind := find?_of_bind hname kind b n
    by_cases heq : n = name
    · rw [if_pos heq] at hfind ⊢
      obtain ⟨binding, hget, hbname, hrange⟩ := getElem?_of_bind hname kind b
      exact ⟨_, binding, hfind, hget, heq ▸ hbname, heq ▸ hrange⟩
    · rw [if_neg heq] at hfind ⊢
      have hheld := h n hn
      cases hdeclared : s.declaration? n with
      | none =>
        rw [hdeclared] at hheld
        exact hfind.trans hheld
      | some loc =>
        rw [hdeclared] at hheld
        obtain ⟨i, binding, hi, hget, hrest⟩ := hheld
        exact ⟨i, binding, hfind.trans hi, getElem?_of_prefix hkept.bindings hget, hrest⟩

theorem Agrees.hypotheses {hyps : List Claim} {hs : List Generate.Hypothesis} (h : Agrees b s)
    (hrun : Generate.hypotheses hyps c s = (.ok hs, s'))
    (hplain : PlainNames (hyps.flatMap (·.name.toList))) : Agrees (bindAll hyps b).2 s' := by
  induction hyps generalizing b s hs with
  | nil =>
    obtain ⟨-, rfl⟩ := Generate.pure_eq_ok.mp hrun
    exact h
  | cons hyp rest ih =>
    rw [List.flatMap_cons, plainNames_append] at hplain
    simp only [Generate.hypotheses, Generate.bind_eq_ok] at hrun
    obtain ⟨_, s₁, henter, t, s₂, htype, _, s₃, hdeclare, more, s₄, hmore, hrun⟩ := hrun
    obtain ⟨-, rfl⟩ := Generate.pure_eq_ok.mp hrun
    have hsame := Generate.sameScopes_motion.trans
      (Generate.sameScopes_motion.onFrames _ _ _ _ _ henter)
      (Generate.sameScopes_motion.typeOf _ _ _ _ _ htype)
    have hhole : hyp.formula.isHole = false := Generate.isHole_of_typeOf htype
    exact ih ((h.of_same hsame).bind hdeclare hplain.1 (fun _ => hhole) .hypothesis) hmore hplain.2

end Declarations

/-! ## References -/

/-- What the referent of a name says of its declaration. -/
def Means (bindings : List Binding) (name : String) (declaration? : Option Location) :
    Referent → Prop
  | .binding i => ∃ loc binding, declaration? = some loc ∧ bindings[i]? = some binding ∧
      binding.name = name ∧ binding.range = loc.nameRange name
  | .primitive p => declaration? = none ∧ Library.findRule? (escapeIdent name) = some p
  | .unknown => declaration? = none ∧ Library.findRule? (escapeIdent name) = none

/-- The reference stands at the use of the name and, where generation looks the name up, refers to
what generation finds. -/
structure Resolves (bindings : List Binding) (u : NameUse) (r : Reference) : Prop where
  name : r.name = u.name
  range : r.range = u.loc.nameRange u.name
  referent : ∀ s ∈ u.state, Means bindings u.name (s.declaration? (escapeIdent u.name)) r.referent

theorem Resolves.mono {bindings more : List Binding} {u : NameUse} {r : Reference}
    (h : Resolves bindings u r) (hmore : bindings <+: more) : Resolves more u r := by
  refine ⟨h.name, h.range, fun s hs => ?_⟩
  have hmeans := h.referent s hs
  cases hr : r.referent with
  | binding i =>
    rw [hr] at hmeans
    obtain ⟨loc, binding, hloc, hget, hrest⟩ := hmeans
    exact ⟨loc, binding, hloc, getElem?_of_prefix hmore hget, hrest⟩
  | primitive p =>
    rw [hr] at hmeans
    exact hmeans
  | unknown =>
    rw [hr] at hmeans
    exact hmeans

/-- The references that are noted follow the uses of names. -/
structure Follows (b b' : Builder) (uses : List NameUse) : Prop where
  bindings : b.table.bindings <+: b'.table.bindings
  references : ∃ refs, b'.table.references = b.table.references ++ refs ∧
    List.Forall₂ (Resolves b'.table.bindings) uses refs

theorem Follows.trans {mid : Builder} {uses more : List NameUse} (h : Follows b mid uses)
    (h' : Follows mid b' more) : Follows b b' (uses ++ more) := by
  obtain ⟨refs, hrefs, huses⟩ := h.references
  obtain ⟨refs', hrefs', hmore⟩ := h'.references
  refine ⟨h.bindings.trans h'.bindings, refs ++ refs', ?_, ?_⟩
  · rw [hrefs', hrefs, List.append_assoc]
  · exact List.rel_append (huses.imp fun u r hr => hr.mono h'.bindings) hmore

theorem follows_nil (h : Kept b b') (hrefs : b'.table.references = b.table.references) :
    Follows b b' [] :=
  ⟨h.bindings, [], by rw [hrefs, List.append_nil], .nil⟩

theorem refer_references (name : String) (loc : Location) (b : Builder) :
    (refer name loc b).2.table.references = b.table.references ++ [⟨name, loc.nameRange name,
      (b.find? name).elim ((Library.findRule? name).elim .unknown .primitive) .binding⟩] := by
  rw [Builder.find?]
  unfold refer
  cases hfind : b.scopes.findSome? (·.lookup name) <;>
    simp [modify, modifyGet, MonadStateOf.modifyGet, StateT.modifyGet, Pure.pure, hfind]

theorem refer_follows {name : String} {loc : Location} {state : Option Generate.State}
    (hplain : PlainName name) (h : ∀ s ∈ state, Agrees b s) :
    Follows b (refer name loc b).2 [⟨name, loc, state⟩] := by
  refine ⟨(refer_restored name loc b).bindings, [_], refer_references name loc b,
    .cons ⟨rfl, rfl, ?_⟩ .nil⟩
  intro s hs
  have hheld := h s hs name hplain
  rw [hplain.escapeIdent]
  cases hdeclared : s.declaration? name with
  | some at_ =>
    rw [hdeclared] at hheld
    obtain ⟨i, binding, hi, hget, hrest⟩ := hheld
    rw [hi]
    exact ⟨at_, binding, rfl, hget, hrest⟩
  | none =>
    rw [hdeclared] at hheld
    rw [show b.find? name = none from hheld]
    cases hrule : Library.findRule? name with
    | none => exact ⟨rfl, by rw [hplain.escapeIdent, hrule]⟩
    | some p => exact ⟨rfl, by rw [hplain.escapeIdent, hrule]⟩

/-! ## Applications -/

section Proofs

open Generate

variable {c : Context} {s s' : State}

theorem referAll_follows {fn e : Expr} {args : List Argument} (h : Agrees b s)
    (hplain : PlainNames (args.flatMap Argument.identifiers))
    (hrun : applyAll fn args c s = (.ok e, s')) :
    Follows b (referAll args b).2 (argumentNames c s args) := by
  induction args generalizing fn b s with
  | nil => exact follows_nil ⟨List.prefix_rfl, rfl⟩ rfl
  | cons a rest ih =>
    rw [List.flatMap_cons, plainNames_append] at hplain
    obtain ⟨x, mid, hx, hrun⟩ := Generate.bind_eq_ok.mp hrun
    have hmid := h.of_same (sameScopes_motion.argument a _ _ _ _ hx)
    rw [argumentNames, hx]
    cases a with
    | fact name loc =>
      have hname : PlainName name := hplain.1 name (by simp [Argument.identifiers])
      have hrefer := refer_restored name loc b
      exact (refer_follows hname fun _ hs => Option.some.inj hs ▸ h).trans
        (ih (hmid.of_restored hrefer) hplain.2 hrun)
    | prop f => exact ih hmid hplain.2 hrun

theorem application_follows {rule : String} {args : List Argument} {loc : Location} {e : Expr}
    (h : Agrees b s) (hplain : PlainNames (Justification.apply rule args loc).identifiers)
    (hrun : application rule args loc c s = (.ok e, s')) :
    Follows b (justification (.apply rule args loc) b).2 (applicationNames rule args loc c s) := by
  rw [Justification.identifiers, plainNames_cons] at hplain
  have hrefer := refer_restored rule loc b
  obtain ⟨_, _, hread, hrun⟩ := Generate.bind_eq_ok.mp hrun
  obtain ⟨rfl, rfl⟩ := read_eq_ok.mp hread
  unfold applicationNames
  split at hrun
  · rename_i hrule
    rw [if_pos hrule]
    obtain ⟨f, name, at_, fn, mid, t, rfl, -, -, -⟩ := instantiate_eq_ok hrun
    have hname : PlainName name := hplain.2 name (by simp [Argument.identifiers])
    exact (refer_follows hplain.1 (by simp)).trans
      (refer_follows hname fun _ hs => Option.some.inj hs ▸ h.of_restored hrefer)
  · rename_i hrule
    rw [if_neg hrule]
    obtain ⟨fn, mid, hfn, hrun⟩ := Generate.bind_eq_ok.mp hrun
    have hmid := h.of_same (sameScopes_motion.reference _ _ _ _ _ _ hfn)
    rw [hfn]
    exact (refer_follows hplain.1 fun _ hs => Option.some.inj hs ▸ h).trans
      (referAll_follows (hmid.of_restored hrefer) hplain.2 hrun)

/-! ## Proofs -/

/-- A step without a name states something. -/
theorem stepHead_unnamed {claim : Claim} {name : String} {t : Option TypeExpr}
    (h : stepHead claim c s = (.ok (name, t), s')) (hname : claim.name = none) :
    claim.formula.isHole = false := by
  cases hhole : claim.formula.isHole with
  | false => rfl
  | true =>
    simp only [stepHead, hname, hhole, if_true] at h
    obtain ⟨_, _, hfail, -⟩ := Generate.bind_eq_ok.mp h
    exact absurd hfail fail_ne_ok

/-- The builder keeps up with a statement. -/
theorem Agrees.statement {st : Statement} {stmt : Stmt} (h : Agrees b s)
    (hplain : PlainNames st.identifiers) (hrun : Generate.statement st c s = (.ok stmt, s')) :
    Agrees (SymbolTable.statement st b).2 s' := by
  cases st with
  | missing => exact absurd hrun broken_ne_ok
  | block bl =>
    simp only [Generate.statement, Generate.bind_eq_ok] at hrun
    obtain ⟨value, _, hblock, hrun⟩ := hrun
    obtain ⟨-, rfl⟩ := Generate.pure_eq_ok.mp hrun
    exact (h.of_same (block_settled (tracks_scopes c s) bl hblock).2).of_restored
      (block_restored bl b)
  | step claim j loc =>
    rw [Statement.identifiers, plainNames_append] at hplain
    simp only [Generate.statement, Generate.bind_eq_ok] at hrun
    obtain ⟨⟨name, t⟩, s₁, hhead, value, s₂, hj, _, s₃, hdeclare, hrun⟩ := hrun
    obtain ⟨-, rfl⟩ := Generate.pure_eq_ok.mp hrun
    have hsame := sameScopes_motion.trans (sameScopes_motion.stepHead claim _ _ _ _ hhead)
      (justification_settled (tracks_scopes c s₁) j hj).2
    have hhole := stepHead_unnamed hhead
    obtain ⟨rfl, -⟩ := stepHead_eq_ok hhead
    exact ((h.of_same hsame).of_restored (justification_restored j b)).bind hdeclare hplain.1 hhole
      .step

/-- Binding a claim behind what justifies it notes no reference. -/
theorem bind_follows {mid : Builder} {uses : List NameUse} (claim : Claim) (kind : BindingKind)
    (h : Follows b mid uses) : Follows b (SymbolTable.bind claim kind mid).2 uses := by
  simpa using h.trans (follows_nil (bind_kept claim kind mid) (bind_references claim kind mid))

/-- Binding hypotheses notes no reference. -/
theorem assumed_follows {uses : List NameUse} (hyps : List Claim)
    (h : Follows (bindAll hyps b).2 b' uses) : Follows b b' uses :=
  (follows_nil (bindAll_kept hyps b) (bindAll_references hyps b)).trans h

/-- What stands in a scope of its own follows what stands in it. -/
theorem inScope_follows {act : Build Unit} {uses : List NameUse}
    (h : Follows b.push (act b.push).2 uses) : Follows b (inScope act b).2 uses :=
  ⟨h.bindings, h.references⟩

mutual

theorem proof_follows {c : Context} {s s' : State} {b : Builder} {declared : Bool} {body : Body}
    {ret : Option TypeExpr} (h : Agrees b s) :
    (p : Proof) → PlainNames p.identifiers → Generate.proof declared p c s = (.ok (body, ret), s') →
      Follows b (proof p b).2 (gatherProof applicationNames declared c s p)
  | .mk st loc, hplain, hrun => by
    simp only [Generate.proof, Generate.bind_eq_ok] at hrun
    obtain ⟨_, mid, hrecord, ⟨stmts, value, ret'⟩, s₂, hsteps, hrun⟩ := hrun
    have hsame := sameScopes_motion.recordSteps st _ _ _ _ hrecord
    rw [gatherProof, hrecord]
    exact inScope_follows (steps_follows (h.of_same hsame).push st hplain hsteps)

theorem steps_follows {c : Context} {s s' : State} {b : Builder} {declared : Bool}
    {stmts : List Stmt} {value : Expr} {ret : Option TypeExpr} (h : Agrees b s) :
    (st : Steps) → PlainNames st.identifiers →
      Generate.steps declared st c s = (.ok (stmts, value, ret), s') →
      Follows b (steps st b).2 (gatherSteps applicationNames declared c s st)
  | .last st, hplain, hrun => final_follows h st hplain hrun
  | .conclude j loc, hplain, hrun => by
    simp only [Generate.steps, Generate.bind_eq_ok] at hrun
    obtain ⟨value', mid, hj, hrun⟩ := hrun
    exact justification_follows h j hplain hj
  | .more st rest, hplain, hrun => by
    rw [Steps.identifiers, plainNames_append] at hplain
    simp only [Generate.steps, Generate.bind_eq_ok] at hrun
    obtain ⟨stmt, mid, hst, ⟨stmts', value', ret'⟩, s₂, hrest, hrun⟩ := hrun
    rw [gatherSteps, hst]
    exact (statement_follows h st hplain.1 hst).trans
      (steps_follows (h.statement hplain.1 hst) rest hplain.2 hrest)

theorem final_follows {c : Context} {s s' : State} {b : Builder} {declared : Bool}
    {stmts : List Stmt} {value : Expr} {ret : Option TypeExpr} (h : Agrees b s) :
    (st : Statement) → PlainNames st.identifiers →
      Generate.final declared st c s = (.ok (stmts, value, ret), s') →
      Follows b (statement st b).2 (gatherFinal applicationNames declared c s st)
  | .missing, _, hrun => absurd hrun broken_ne_ok
  | .block bl, hplain, hrun => by
    simp only [Generate.final, Generate.bind_eq_ok] at hrun
    obtain ⟨value', mid, hblock, hrun⟩ := hrun
    exact block_follows h bl hplain hblock
  | .step claim j loc, hplain, hrun => by
    rw [Statement.identifiers, plainNames_append] at hplain
    rw [gatherFinal]
    cases hhole : claim.formula.isHole with
    | true =>
      simp only [Generate.final, hhole, if_true, Generate.bind_eq_ok] at hrun
      obtain ⟨value', mid, hj, hrun⟩ := hrun
      exact bind_follows claim .step (justification_follows h j hplain.2 hj)
    | false =>
      cases declared with
      | true =>
        simp only [Generate.final, hhole, Bool.false_eq_true, if_false, if_true,
          Generate.bind_eq_ok] at hrun
        obtain ⟨⟨name, t⟩, s₁, hhead, value', s₂, hj, _, s₃, hdeclare, hrun⟩ := hrun
        have hsame := sameScopes_motion.stepHead claim _ _ _ _ hhead
        simp only [Bool.false_eq_true, if_false, if_true, hhead]
        exact bind_follows claim .step (justification_follows (h.of_same hsame) j hplain.2 hj)
      | false =>
        simp only [Generate.final, hhole, Bool.false_eq_true, if_false, Generate.bind_eq_ok] at hrun
        obtain ⟨t, s₁, htype, value', s₂, hj, hrun⟩ := hrun
        have hsame := sameScopes_motion.typeOf _ _ _ _ _ htype
        simp only [Bool.false_eq_true, if_false, htype]
        exact bind_follows claim .step (justification_follows (h.of_same hsame) j hplain.2 hj)

theorem statement_follows {c : Context} {s s' : State} {b : Builder} {stmt : Stmt}
    (h : Agrees b s) :
    (st : Statement) → PlainNames st.identifiers → Generate.statement st c s = (.ok stmt, s') →
      Follows b (statement st b).2 (gatherStatement applicationNames c s st)
  | .missing, _, hrun => absurd hrun broken_ne_ok
  | .block bl, hplain, hrun => by
    simp only [Generate.statement, Generate.bind_eq_ok] at hrun
    obtain ⟨value, mid, hblock, hrun⟩ := hrun
    exact block_follows h bl hplain hblock
  | .step claim j loc, hplain, hrun => by
    rw [Statement.identifiers, plainNames_append] at hplain
    simp only [Generate.statement, Generate.bind_eq_ok] at hrun
    obtain ⟨⟨name, t⟩, s₁, hhead, value, s₂, hj, hrun⟩ := hrun
    have hsame := sameScopes_motion.stepHead claim _ _ _ _ hhead
    rw [gatherStatement, hhead]
    exact bind_follows claim .step (justification_follows (h.of_same hsame) j hplain.2 hj)

theorem justification_follows {c : Context} {s s' : State} {b : Builder} {e : Expr}
    (h : Agrees b s) :
    (j : Justification) → PlainNames j.identifiers → Generate.justification j c s = (.ok e, s') →
      Follows b (justification j b).2 (gatherJustification applicationNames c s j)
  | .missing, _, hrun => absurd hrun broken_ne_ok
  | .apply _ _ _, hplain, hrun => application_follows h hplain hrun
  | .block bl, hplain, hrun => block_follows h bl hplain hrun

theorem block_follows {c : Context} {s s' : State} {b : Builder} {e : Expr} (h : Agrees b s) :
    (bl : Block) → PlainNames bl.identifiers → Generate.block bl c s = (.ok e, s') →
      Follows b (block bl b).2 (gatherBlock applicationNames c s bl)
  | .assume hyps p loc, hplain, hrun => by
    rw [Block.identifiers, plainNames_append] at hplain
    simp only [Generate.block, Generate.bind_eq_ok] at hrun
    obtain ⟨_, s₁, hpush, hs, s₂, hhyps, ⟨body, ret⟩, s₃, hp, hrun⟩ := hrun
    rw [gatherBlock, hpush, hhyps]
    obtain rfl := modify_eq_ok.mp hpush
    have hagrees := h.push.pushScope.hypotheses hhyps hplain.1
    exact inScope_follows (assumed_follows hyps (proof_follows hagrees p hplain.2 hp))
  | .generalize vars p loc, hplain, hrun => by
    simp only [Generate.block, Generate.bind_eq_ok] at hrun
    obtain ⟨_, s₁, hpush, _, s₂, hbind, ⟨body, ret⟩, s₃, hp, hrun⟩ := hrun
    rw [gatherBlock, hpush, hbind]
    obtain rfl := modify_eq_ok.mp hpush
    have hsame := sameScopes_motion.onFrames _ _ _ _ _ hbind
    exact proof_follows (h.pushScope.of_same hsame) p hplain hp

end

/-! ## Theorems -/

/-- The proof of a theorem that takes hypotheses stands in a scope more than in the program. -/
theorem theoremArrow_follows {t : Theorem} {e : Expr} {isThunk : Bool} (h : Agrees b s)
    (hplain : PlainNames t.proof.identifiers)
    (hrun : theoremArrow t c s = (.ok (e, isThunk), s')) :
    Follows b (proof t.proof b).2 (gatherTheorem applicationNames c s t) := by
  unfold theoremArrow at hrun
  unfold gatherTheorem
  cases hsequent : sequent? t with
  | some hp =>
    obtain ⟨hyps, p⟩ := hp
    simp only [hsequent, Generate.bind_eq_ok] at hrun
    obtain ⟨hs, s₁, hhyps, claim, s₂, hclaim, ⟨body, ret⟩, s₃, hp, hrun⟩ := hrun
    obtain ⟨loc, loc', hproof⟩ := sequent?_eq_some hsequent
    rw [hproof] at hplain ⊢
    obtain ⟨hplain, hplain'⟩ := plainNames_append.mp hplain
    have hagrees := (h.push.push.hypotheses hhyps hplain).of_same
      (sameScopes_motion.typeOf _ _ _ _ _ hclaim)
    dsimp only
    rw [hhyps, hclaim]
    exact inScope_follows (inScope_follows
      (assumed_follows hyps (proof_follows hagrees p hplain' hp)))
  | none =>
    simp only [hsequent, Generate.bind_eq_ok] at hrun
    obtain ⟨_, s₁, henter, claim, s₂, hclaim, ⟨body, ret⟩, s₃, hp, hrun⟩ := hrun
    have hsame := sameScopes_motion.trans (sameScopes_motion.onFrames _ _ _ _ _ henter)
      (sameScopes_motion.typeOf _ _ _ _ _ hclaim)
    dsimp only
    rw [henter, hclaim]
    exact proof_follows (h.of_same hsame) t.proof hplain hp

/-- The theorem around has no say in what names refer to. -/
theorem restored_container (b : Builder) (container : Option String) :
    Restored b { b with container := container } := ⟨List.prefix_rfl, rfl⟩

/-- Visiting one theorem. -/
def visit (t : Theorem) : Build Unit := do
  modify fun b => { b with container := t.claim.name }
  proof t.proof
  modify fun b => { b with container := none }
  SymbolTable.bind t.claim .theorem_

/-- The builder behind the proof of a theorem, where the name of the theorem is bound. -/
def Builder.behind (t : Theorem) (b : Builder) : Builder :=
  { (proof t.proof { b with container := t.claim.name }).2 with container := none }

theorem behind_restored (t : Theorem) (b : Builder) : Restored b (b.behind t) :=
  ((restored_container b t.claim.name).trans (proof_restored t.proof _)).trans
    (restored_container _ none)

theorem visit_eq (t : Theorem) (b : Builder) :
    (visit t b).2 = (SymbolTable.bind t.claim .theorem_ (b.behind t)).2 := rfl

/-- Visiting a theorem follows its arrow, which leaves the scopes as they were. -/
theorem visit_follows {t : Theorem} {e : Expr} {isThunk : Bool} (h : Agrees b s) (hs : s.scopes = [])
    (hplain : PlainNames t.proof.identifiers)
    (harrow : theoremArrow t c (pushScope c s).2 = (.ok (e, isThunk), s')) :
    Follows b (visit t b).2 (gatherTheorem applicationNames c (pushScope c s).2 t) ∧
      SameScopes s { s' with scopes := s'.scopes.tail } := by
  have htracks : Tracks c s [] [] :=
    ⟨by simp [State.binds, hs], fun name hname => by cases hname⟩
  have hinside := theoremArrow_follows
    (h.of_restored (restored_container b t.claim.name)).pushScope hplain harrow
  have hfollows : Follows b (b.behind t) (gatherTheorem applicationNames c (pushScope c s).2 t) :=
    ⟨hinside.bindings, hinside.references⟩
  obtain ⟨-, hsame, hscopes⟩ := theoremArrow_settled htracks.push (by simp) harrow
  exact ⟨bind_follows t.claim .theorem_ hfollows, by simpa [hs] using hscopes, hsame⟩

/-- A theorem is visible in both behind its proof. -/
theorem theoremDecl_follows {t : Theorem} {decl : Stmt} (h : Agrees b s) (hs : s.scopes = [])
    (hplain : PlainNames (t.claim.name.toList ++ t.proof.identifiers))
    (hrun : theoremDecl t c s = (.ok decl, s')) :
    Follows b (visit t b).2 (gatherTheorem applicationNames c (pushScope c s).2 t) ∧
      Agrees (visit t b).2 s' ∧
      s'.scopes = [] := by
  obtain ⟨hname, hplain⟩ := plainNames_append.mp hplain
  simp only [theoremDecl] at hrun
  cases hclaim : t.claim.name with
  | none =>
    simp only [hclaim, Option.map_none, Generate.bind_eq_ok] at hrun
    obtain ⟨_, s₂, hpush, ⟨arrow, isThunk⟩, s₃, harrow, _, s₄, hpop, hrun⟩ := hrun
    obtain ⟨-, rfl⟩ := Generate.pure_eq_ok.mp hrun
    obtain rfl := modify_eq_ok.mp hpush
    obtain rfl := modify_eq_ok.mp hpop
    obtain ⟨hfollows, hsame⟩ := visit_follows h hs hplain harrow
    refine ⟨hfollows, ?_, hsame.1.trans hs⟩
    rw [visit_eq, bind_unnamed hclaim]
    exact (h.of_same hsame).of_restored (behind_restored t b)
  | some name =>
    simp only [hclaim, Option.map_some, Generate.bind_eq_ok] at hrun
    obtain ⟨_, s₁, hcheck, _, s₂, hpush, ⟨arrow, isThunk⟩, s₃, harrow, _, s₄, hpop, _, s₅, hdeclare,
      hrun⟩ := hrun
    obtain ⟨-, rfl⟩ := checkTheoremName_eq_ok hcheck
    obtain rfl := modify_eq_ok.mp hpush
    obtain rfl := modify_eq_ok.mp hpop
    obtain ⟨hfollows, hsame⟩ := visit_follows h hs hplain harrow
    have hbinding : t.claim.binding = escapeIdent name := by simp [Claim.binding, hclaim]
    have hagrees : Agrees (visit t b).2 s₅ :=
      ((h.of_same hsame).of_restored (behind_restored t b)).bind (hbinding ▸ hdeclare) hname
        (by simp [hclaim]) .theorem_
    obtain rfl := declare_eq_ok_of_nil (hsame.1.trans hs) hdeclare
    refine ⟨hfollows, ?_⟩
    split at hrun
    · obtain ⟨_, _, hthunk, hrun⟩ := Generate.bind_eq_ok.mp hrun
      obtain rfl := modify_eq_ok.mp hthunk
      obtain ⟨-, rfl⟩ := Generate.pure_eq_ok.mp hrun
      exact ⟨hagrees.of_same ⟨rfl, rfl⟩, hsame.1.trans hs⟩
    · obtain ⟨-, rfl⟩ := Generate.pure_eq_ok.mp hrun
      exact ⟨hagrees, hsame.1.trans hs⟩

theorem theorems_follows {ts : List Theorem} {decls : List Stmt} (h : Agrees b s)
    (hs : s.scopes = [])
    (hplain : PlainNames (ts.flatMap fun t => t.claim.name.toList ++ t.proof.identifiers))
    (hrun : theoremDecls ts c s = (.ok decls, s')) :
    Follows b (theorems ts b).2 (gatherTheorems applicationNames c s ts) := by
  induction ts generalizing b s decls with
  | nil => exact follows_nil ⟨List.prefix_rfl, rfl⟩ rfl
  | cons t rest ih =>
    rw [List.flatMap_cons, plainNames_append] at hplain
    simp only [theoremDecls, Generate.bind_eq_ok] at hrun
    obtain ⟨decl, s₁, hdecl, _, _, hget, hrun⟩ := hrun
    obtain ⟨rfl, rfl⟩ := get_eq_ok.mp hget
    split at hrun
    · exact absurd hrun broken_ne_ok
    obtain ⟨more, s₂, hmore, hrun⟩ := Generate.bind_eq_ok.mp hrun
    obtain ⟨-, rfl⟩ := Generate.pure_eq_ok.mp hrun
    obtain ⟨hfollows, hagrees, hs₁⟩ := theoremDecl_follows h hs hplain.1 hdecl
    rw [gatherTheorems, hdecl]
    exact hfollows.trans (ih hagrees hs₁ hplain.2 hmore)

end Proofs

/-- No two bindings of a script stand at one place. -/
theorem ranges_nodup {src : List UInt8} {systemF : Bool} {d : Document}
    (h : parse src systemF = .ok d) : ((ofDocument d).bindings.map Binding.range).Nodup := by
  have hstarts := (ofDocument_passes d).binders.map (·.range.start)
  rw [List.map_nil, List.nil_append, entriesOf, List.map_map, List.map_map] at hstarts
  have hbinders := (List.filter_sublist (p := fun o => decide (o.role = .binder))
    (l := d.occurrences)).map (·.loc.toPosition)
  have hnodup := hstarts.nodup_iff.mpr ((parse_places_nodup h).sublist hbinders)
  refine List.pairwise_map.mpr ((List.pairwise_map.mp hnodup).imp fun hne heq => hne ?_)
  exact congrArg TextRange.start heq

/-! ## Scripts -/

/-- The table of a script resolves names as generation does. Where no name is a reserved word or ends
in an underscore, the references of the table are the uses of names in order, and a use that
generation looks up refers to the theorem, hypothesis or step whose declaration is found, to a rule
of the library if none is found and there is a rule of this name, and to nothing else. A
declaration is told by its place, and no two bindings share theirs. -/
theorem references_resolve {src : List UInt8} {systemF : Bool} {d : Document} {decls : List Stmt}
    {s : Generate.State} (hparse : parse src systemF = .ok d)
    (hgenerate : d.generate systemF = (.ok decls, s)) (hplain : PlainNames d.identifiers) :
    List.Forall₂ (Resolves (ofDocument d).bindings) (d.nameUses systemF) (ofDocument d).references ∧
      ((ofDocument d).bindings.map Binding.range).Nodup := by
  refine ⟨?_, ranges_nodup hparse⟩
  have hagrees : Agrees ⟨⟨[], []⟩, [[]], none⟩ .empty := fun name _ => rfl
  obtain ⟨refs, hrefs, huses⟩ := (theorems_follows hagrees rfl hplain hgenerate).references
  obtain rfl : (ofDocument d).references = refs := hrefs
  exact huses

/-- The inner of two hypotheses of one name hides the outer one. -/
theorem references_resolve_shadowed :
    ∃ d decls s, parse (Text.bytes
        "theorem t : P => Q => Q assume p : P \x7b assume p : Q \x7b by p \x7d \x7d") false = .ok d ∧
      d.generate false = (.ok decls, s) ∧ PlainNames d.identifiers ∧
      List.Forall₂ (Resolves (ofDocument d).bindings) (d.nameUses false)
        (ofDocument d).references ∧
      ((ofDocument d).bindings.map Binding.range).Nodup := by
  generalize hsrc : Text.bytes _ = src
  have hchecked : (parse src false).toOption.any (fun d =>
      (d.generate false).1.toOption.isSome && decide (PlainNames d.identifiers)) = true := by
    rw [← hsrc]
    decide +kernel
  obtain ⟨d, hparse, hd⟩ := exists_ok_of_any hchecked
  simp only [Bool.and_eq_true, decide_eq_true_eq] at hd
  obtain ⟨hdecls, hplain⟩ := hd
  cases hgenerate : d.generate false with
  | mk r s =>
    cases r with
    | error e => simp [hgenerate, Except.toOption] at hdecls
    | ok decls =>
      exact ⟨d, decls, s, hparse, hgenerate, hplain, references_resolve hparse hgenerate hplain⟩

end SymbolTable

end ProofScript
