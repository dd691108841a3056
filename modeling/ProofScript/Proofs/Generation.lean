import ProofScript.Compilation
import ProofScript.Proofs.Stateful

/-!
# What generation steps do

A generation step either fails or yields a value and a new state. The lemmas say when the single
steps succeed, and which of them leave the scopes and the declared theorems alone.
-/

namespace ProofScript

/-- The name of the binding that a claim becomes. -/
def Claim.binding (c : Claim) : String := c.name.elim c.formula.factName escapeIdent

namespace Generate

open Program

variable {α β : Type} {c : Context} {s s' : State}

theorem bind_eq_ok {f : Generate α} {g : α → Generate β} {b : β} :
    (f >>= g) c s = (.ok b, s') ↔
      ∃ a mid, f c s = (.ok a, mid) ∧ g a c mid = (.ok b, s') :=
  Stateful.bind_eq_ok

theorem pure_eq_ok {a b : α} : (pure a : Generate α) c s = (.ok b, s') ↔ a = b ∧ s = s' :=
  Stateful.pure_eq_ok

theorem get_eq_ok {a : State} : (get : Generate State) c s = (.ok a, s') ↔ s = a ∧ s = s' :=
  Stateful.get_eq_ok

theorem set_eq_ok {t : State} {u : PUnit} :
    (set t : Generate PUnit) c s = (.ok u, s') ↔ t = s' :=
  Stateful.set_eq_ok (s := s)

theorem modify_eq_ok {f : State → State} {u : PUnit} :
    (modify f : Generate PUnit) c s = (.ok u, s') ↔ f s = s' :=
  Stateful.modify_eq_ok

theorem read_eq_ok {a : Context} : (read : Generate Context) c s = (.ok a, s') ↔ c = a ∧ s = s' := by
  change (Except.ok c, s) = (.ok a, s') ↔ _
  simp

theorem fail_ne_ok {loc : Location} {cause : GenerateCause} {a : α} :
    (fail loc cause : Generate α) c s ≠ (.ok a, s') := by
  intro h
  cases h

theorem broken_ne_ok {f : Fault} {a : α} : (broken f : Generate α) c s ≠ (.ok a, s') := by
  intro h
  cases h

/-! ## References -/

/-- Does a scope of a function around bind the name? -/
def State.binds (s : State) (name : String) : Bool :=
  s.scopes.any fun sc => (Scope.find? sc name).isSome

/-- A reference is an identifier or a call without arguments. A name that no scope binds and no
theorem so far declares is not the name of a theorem. -/
theorem reference_eq_ok {name : String} {loc : Location} {e : Expr}
    (h : reference name loc c s = (.ok e, s')) :
    (e = .ident (escapeIdent name) (some loc) ∨
      e = .call (.ident (escapeIdent name) (some loc)) [] [] (some loc)) ∧
    (s.binds (escapeIdent name) = true ∨ (Scope.find? s.declared (escapeIdent name)).isSome = true ∨
      escapeIdent name ∉ c.theorems) := by
  simp only [reference, bind_eq_ok] at h
  obtain ⟨_, _, hget, h⟩ := h
  obtain ⟨rfl, rfl⟩ := get_eq_ok.mp hget
  split at h
  · rename_i hbinds
    obtain ⟨rfl, -⟩ := pure_eq_ok.mp h
    exact ⟨.inl rfl, .inl hbinds⟩
  split at h
  · rename_i hdeclared
    refine ⟨?_, .inr (.inl hdeclared)⟩
    split at h
    · obtain ⟨rfl, -⟩ := pure_eq_ok.mp h
      exact .inr rfl
    · obtain ⟨rfl, -⟩ := pure_eq_ok.mp h
      exact .inl rfl
  obtain ⟨_, _, hread, h⟩ := bind_eq_ok.mp h
  obtain ⟨rfl, rfl⟩ := read_eq_ok.mp hread
  split at h
  · exact absurd h fail_ne_ok
  rename_i htheorem
  refine ⟨.inl ?_, .inr (.inr htheorem)⟩
  cases hrule : Library.findRule? (escapeIdent name) with
  | some p =>
    simp only [hrule] at h
    obtain ⟨_, _, -, h⟩ := bind_eq_ok.mp h
    obtain ⟨rfl, -⟩ := pure_eq_ok.mp h
    rfl
  | none =>
    simp only [hrule] at h
    obtain ⟨rfl, -⟩ := pure_eq_ok.mp h
    rfl

/-- An instance is taken at a proposition, of a fact with a name. -/
theorem instantiate_eq_ok {args : List Argument} {loc : Location} {e : Expr}
    (h : instantiate args loc c s = (.ok e, s')) :
    ∃ f name at_ fn mid t, args = [.prop f, .fact name at_] ∧
      reference name at_ c s = (.ok fn, mid) ∧ typeOf f c mid = (.ok t, s') ∧
      e = .call fn [t] [] (some loc) := by
  generalize hcomp : instantiate args loc = comp at h
  unfold instantiate at hcomp
  split at hcomp
  · subst hcomp
    exact absurd h fail_ne_ok
  · rename_i f name at_ _
    subst hcomp
    obtain ⟨fn, mid, hfn, h⟩ := bind_eq_ok.mp h
    obtain ⟨t, mid', ht, h⟩ := bind_eq_ok.mp h
    obtain ⟨rfl, rfl⟩ := pure_eq_ok.mp h
    exact ⟨f, name, at_, fn, mid, t, rfl, hfn, ht, rfl⟩
  · subst hcomp
    exact absurd h fail_ne_ok
  · subst hcomp
    exact absurd h fail_ne_ok

/-! ## Heads of steps -/

/-- A step has the name of its claim, and the type of its proposition unless that is left out. -/
theorem stepHead_eq_ok {claim : Claim} {name : String} {t : Option TypeExpr}
    (h : stepHead claim c s = (.ok (name, t), s')) :
    name = claim.binding ∧
      (claim.formula.isHole = true ∧ t = none ∧ s' = s ∨
        ∃ u, claim.formula.isHole = false ∧ typeOf claim.formula c s = (.ok u, s') ∧ t = some u) := by
  obtain ⟨name?, f, loc⟩ := claim
  unfold stepHead at h
  cases hhole : f.isHole with
  | true =>
    cases name? with
    | none =>
      simp only [hhole, if_true] at h
      obtain ⟨_, _, hfail, -⟩ := bind_eq_ok.mp h
      exact absurd hfail fail_ne_ok
    | some n =>
      simp only [hhole, if_true] at h
      obtain ⟨_, _, hname, h⟩ := bind_eq_ok.mp h
      obtain ⟨rfl, rfl⟩ := pure_eq_ok.mp hname
      obtain ⟨heq, rfl⟩ := pure_eq_ok.mp h
      obtain ⟨rfl, rfl⟩ := Prod.mk.inj heq
      exact ⟨rfl, .inl ⟨rfl, rfl, rfl⟩⟩
  | false =>
    have htyped : ∀ n, (do
        let t ← typeOf f
        return (n, some t) : Generate (String × Option TypeExpr)) c s = (.ok (name, t), s') →
        name = n ∧ ∃ u, typeOf f c s = (.ok u, s') ∧ t = some u := by
      intro n h
      obtain ⟨u, _, hu, h⟩ := bind_eq_ok.mp h
      obtain ⟨heq, rfl⟩ := pure_eq_ok.mp h
      obtain ⟨rfl, rfl⟩ := Prod.mk.inj heq
      exact ⟨rfl, u, hu, rfl⟩
    cases name? with
    | none =>
      simp only [hhole] at h
      obtain ⟨_, _, hname, h⟩ := bind_eq_ok.mp h
      obtain ⟨rfl, rfl⟩ := pure_eq_ok.mp hname
      obtain ⟨rfl, u, hu, rfl⟩ := htyped _ h
      exact ⟨rfl, .inr ⟨u, rfl, hu, rfl⟩⟩
    | some n =>
      simp only [hhole] at h
      obtain ⟨_, _, hname, h⟩ := bind_eq_ok.mp h
      obtain ⟨rfl, rfl⟩ := pure_eq_ok.mp hname
      obtain ⟨rfl, u, hu, rfl⟩ := htyped _ h
      exact ⟨rfl, .inr ⟨u, rfl, hu, rfl⟩⟩

/-! ## Scopes -/

/-- Inside a function, a name is declared in its scope. -/
theorem declare_eq_ok {name : String} {loc : Location} {top : Scope} {rest : List Scope} {u : Unit}
    (hs : s.scopes = top :: rest) (h : declare name loc c s = (.ok u, s')) :
    s' = { s with scopes := (top ++ [(name, loc)]) :: rest } := by
  simp only [declare, bind_eq_ok] at h
  obtain ⟨_, _, hget, h⟩ := h
  obtain ⟨rfl, rfl⟩ := get_eq_ok.mp hget
  cases hfind : Scope.find? top name with
  | some first =>
    simp only [hs, hfind] at h
    exact absurd h fail_ne_ok
  | none =>
    simp only [hs, hfind] at h
    exact (set_eq_ok.mp h).symm

/-- Outside all functions, a name is declared as a theorem. -/
theorem declare_eq_ok_of_nil {name : String} {loc : Location} {u : Unit}
    (hs : s.scopes = []) (h : declare name loc c s = (.ok u, s')) :
    s' = { s with declared := s.declared ++ [(name, loc)] } := by
  simp only [declare, bind_eq_ok] at h
  obtain ⟨_, _, hget, h⟩ := h
  obtain ⟨rfl, rfl⟩ := get_eq_ok.mp hget
  cases hfind : Scope.find? s.declared name with
  | some first =>
    simp only [hs, hfind] at h
    exact absurd h fail_ne_ok
  | none =>
    simp only [hs, hfind] at h
    rw [← set_eq_ok.mp h, hs]

/-- A name in a longer scope is one of the shorter scope or the new one. -/
theorem find?_append_singleton {sc : Scope} {name n : String} {loc : Location}
    (h : (Scope.find? (sc ++ [(name, loc)]) n).isSome = true) :
    (Scope.find? sc n).isSome = true ∨ n ∈ [name] := by
  simp only [Scope.find?, List.lookup_append, Option.isSome_or, Bool.or_eq_true] at h
  rcases h with h | h
  · exact .inl h
  · right
    by_cases hne : n = name
    · simp [hne]
    · have hbeq : (n == name) = false := by simpa using hne
      simp [List.lookup_cons, hbeq] at h

theorem checkTheoremName_eq_ok {c : Context} {s s' : State} {name : String} {loc : Location}
    {u : Unit} (h : checkTheoremName name loc c s = (.ok u, s')) :
    Library.findRule? name = none ∧ s = s' := by
  unfold checkTheoremName at h
  split at h
  · exact absurd h fail_ne_ok
  rename_i hrule
  obtain ⟨_, _, hget, h⟩ := bind_eq_ok.mp h
  obtain ⟨rfl, rfl⟩ := get_eq_ok.mp hget
  refine ⟨by simpa using hrule, ?_⟩
  cases hfind : Scope.find? s.declared name with
  | some first =>
    simp only [hfind] at h
    exact absurd h fail_ne_ok
  | none =>
    simp only [hfind] at h
    exact (pure_eq_ok.mp h).2

/-! ## Reports -/

/-- What reports change: a rule may become used, and warnings are kept. -/
structure Reported (used : List String) (raised : List Warning) (s s' : State) : Prop where
  scopes : s'.scopes = s.scopes
  declared : s'.declared = s.declared
  used : ∀ name ∈ s'.used, name ∈ s.used ∨ name ∈ used
  kept : s.warnings ⊆ s'.warnings
  raised : raised ⊆ s'.warnings

theorem warn_reported {loc : Location} {message : String} {u : Unit}
    (h : warn loc message c s = (.ok u, s')) : Reported [] [⟨loc, message⟩] s s' := by
  obtain rfl := modify_eq_ok.mp h
  dsimp only
  split
  · rename_i hmem
    exact ⟨rfl, rfl, fun _ => .inl, fun _ => id, by simpa using hmem⟩
  · exact ⟨rfl, rfl, fun _ => .inl, by simp, by simp⟩

theorem Reported.trans {mid : State} {used used' : List String} {raised raised' : List Warning}
    (h : Reported used raised s mid) (h' : Reported used' raised' mid s') :
    Reported (used ++ used') (raised ++ raised') s s' where
  scopes := h'.scopes.trans h.scopes
  declared := h'.declared.trans h.declared
  used := by
    intro name hname
    rcases h'.used name hname with hname | hname
    · rcases h.used name hname with hname | hname
      · exact .inl hname
      · exact .inr (List.mem_append_left _ hname)
    · exact .inr (List.mem_append_right _ hname)
  kept := fun _ hw => h'.kept (h.kept hw)
  raised := by
    intro w hw
    rcases List.mem_append.mp hw with hw | hw
    · exact h'.kept (h.raised hw)
    · exact h'.raised hw

/-- A rule that is used raises its warning. -/
theorem useRule_reported {p : Primitive} {loc : Location} {u : Unit}
    (h : useRule p loc c s = (.ok u, s')) :
    Reported [p.name] (p.warning.toList.map (Warning.mk loc)) s s' := by
  simp only [useRule, bind_eq_ok] at h
  obtain ⟨_, mid, huse, h⟩ := h
  have hused : Reported [p.name] [] s mid := by
    obtain rfl := modify_eq_ok.mp huse
    split
    · exact ⟨rfl, rfl, fun _ => .inl, fun _ => id, by simp⟩
    · exact ⟨rfl, rfl, by simp, fun _ => id, by simp⟩
  have hevent : ∀ {mid : State}, (modify fun s =>
      { s with events := s.events ++ [.reference p.name p.kind] } : Generate PUnit) c mid =
        (.ok u, s') → Reported [] [] mid s' := by
    intro mid h
    obtain rfl := modify_eq_ok.mp h
    exact ⟨rfl, rfl, fun _ => .inl, fun _ => id, by simp⟩
  cases hwarning : p.warning with
  | none =>
    simp only [hwarning] at h
    exact hused.trans (hevent h)
  | some message =>
    simp only [hwarning] at h
    obtain ⟨_, mid', hwarn, h⟩ := bind_eq_ok.mp h
    exact (hused.trans (warn_reported hwarn)).trans (hevent h)

/-! ## How the state moves -/

/-- Where the step succeeds, the states before and after it are related. -/
def Moves (R : State → State → Prop) (f : Generate α) : Prop :=
  ∀ c s a s', f c s = (.ok a, s') → R s s'

/-- A relation that holds across everything but work on the scopes and uses of rules. -/
structure Calm (R : State → State → Prop) : Prop where
  refl : ∀ s, R s s
  trans : ∀ {s₁ s₂ s₃}, R s₁ s₂ → R s₂ s₃ → R s₁ s₃
  frames : ∀ s f, R s { s with frames := f }
  warn : ∀ loc message, Moves R (warn loc message)

namespace Calm

variable {R : State → State → Prop} (hR : Calm R)

include hR

theorem pure (a : α) : Moves R (pure a : Generate α) := by
  intro c s b s' h
  obtain ⟨-, rfl⟩ := pure_eq_ok.mp h
  exact hR.refl s

theorem bind {f : Generate α} {g : α → Generate β} (hf : Moves R f) (hg : ∀ a, Moves R (g a)) :
    Moves R (f >>= g) := by
  intro c s b s' h
  obtain ⟨a, mid, ha, hb⟩ := bind_eq_ok.mp h
  exact hR.trans (hf _ _ _ _ ha) (hg a _ _ _ _ hb)

theorem bind_pure {f : Generate α} {g : α → β} (hf : Moves R f) :
    Moves R (f >>= fun a => Pure.pure (g a)) :=
  hR.bind hf fun _ => hR.pure _

theorem get : Moves R (get : Generate State) := by
  intro c s a s' h
  obtain ⟨-, rfl⟩ := get_eq_ok.mp h
  exact hR.refl s

theorem read : Moves R (read : Generate Context) := by
  intro c s a s' h
  obtain ⟨-, rfl⟩ := read_eq_ok.mp h
  exact hR.refl s

omit hR in
theorem fail (loc : Location) (cause : GenerateCause) :
    Moves R (Generate.fail loc cause : Generate α) :=
  fun _ _ _ _ h => absurd h fail_ne_ok

omit hR in
theorem broken (f : Fault) : Moves R (Generate.broken f : Generate α) :=
  fun _ _ _ _ h => absurd h broken_ne_ok

theorem onFrames (f : Frames → Except FrameMisuse (α × Frames)) : Moves R (onFrames f) := by
  refine hR.bind hR.get fun s => ?_
  split
  · refine hR.bind_pure ?_
    intro c s u s' h
    obtain rfl := modify_eq_ok.mp h
    exact hR.frames s _
  · exact broken _

theorem exit : Moves R exit := hR.bind_pure (hR.onFrames _)

theorem typeOf (f : Formula) : Moves R (typeOf f) := by
  induction f with
  | hole => exact broken _
  | atom name args loc =>
    refine hR.bind (hR.onFrames _) fun _ => ?_
    cases args with
    | nil => exact hR.pure _
    | cons arg rest =>
      dsimp only
      split
      · exact hR.bind_pure (hR.onFrames _)
      · exact hR.bind (hR.warn _ _) fun _ => hR.bind_pure (hR.onFrames _)
  | neg a _ ih => exact hR.bind_pure ih
  | conj a b _ iha ihb => exact hR.bind iha fun _ => hR.bind_pure ihb
  | disj a b _ iha ihb => exact hR.bind iha fun _ => hR.bind_pure ihb
  | impl a b _ iha ihb => exact hR.bind iha fun _ => hR.bind_pure ihb
  | all vars a _ ih =>
    exact hR.bind (hR.onFrames _) fun _ => hR.bind ih fun _ => hR.bind_pure (hR.onFrames _)

theorem recordArguments (args : List Argument) : Moves R (recordArguments args) := by
  induction args with
  | nil => exact hR.pure _
  | cons a rest ih =>
    cases a with
    | fact => exact ih
    | prop f =>
      cases f with
      | hole => exact ih
      | _ => exact hR.bind (hR.typeOf _) fun _ => ih

theorem recordJustification (j : Justification) : Moves R (recordJustification j) := by
  cases j with
  | apply rule args loc => exact hR.recordArguments args
  | _ => exact hR.pure _

theorem recordStatement (st : Statement) : Moves R (recordStatement st) := by
  cases st with
  | step claim j loc =>
    unfold Generate.recordStatement
    dsimp only
    split
    · exact hR.recordJustification j
    · exact hR.bind (hR.typeOf _) fun _ => hR.recordJustification j
  | _ => exact hR.pure _

theorem recordSteps (st : Steps) : Moves R (recordSteps st) := by
  cases st with
  | last s => exact hR.recordStatement s
  | conclude j _ => exact hR.recordJustification j
  | more s rest => exact hR.bind (hR.recordStatement s) fun _ => recordSteps rest

theorem stepHead (claim : Claim) : Moves R (stepHead claim) := by
  unfold Generate.stepHead
  dsimp only
  by_cases hhole : claim.formula.isHole = true
  · simp only [hhole, if_true]
    split
    · exact hR.bind_pure (hR.pure _)
    · exact hR.bind_pure (fail _ _)
  · simp only [hhole]
    split
    · exact hR.bind (hR.pure _) fun _ => hR.bind_pure (hR.typeOf _)
    · exact hR.bind (hR.pure _) fun _ => hR.bind_pure (hR.typeOf _)

theorem closeHypotheses (ret : Option TypeExpr) (body : Body) (hs : List Hypothesis) :
    Moves R (closeHypotheses ret body hs) := by
  fun_induction Generate.closeHypotheses ret body hs with
  | case1 => exact broken _
  | case2 => exact hR.bind_pure hR.exit
  | case3 => exact hR.bind ‹_› fun _ => hR.bind_pure hR.exit

theorem closeVariables (ret : Option TypeExpr) (body : Body) (loc : Location)
    (vars : List String) : Moves R (closeVariables ret body loc vars) := by
  fun_induction Generate.closeVariables ret body loc vars with
  | case1 => exact broken _
  | case2 => exact hR.pure _
  | case3 => exact hR.bind_pure ‹_›

end Calm

/-- A relation that holds across everything but work on the scopes. -/
structure Motion (R : State → State → Prop) : Prop extends Calm R where
  useRule : ∀ name p loc, Library.findRule? name = some p → Moves R (useRule p loc)

namespace Motion

variable {R : State → State → Prop} (hR : Motion R)

include hR

theorem reference (name : String) (loc : Location) : Moves R (reference name loc) := by
  unfold Generate.reference
  refine hR.bind hR.get fun s => ?_
  dsimp only
  split
  · exact hR.pure _
  split
  · split
    · exact hR.pure _
    · exact hR.pure _
  refine hR.bind hR.read fun c => ?_
  split
  · exact Calm.fail _ _
  split
  · rename_i p hp
    exact hR.bind_pure (hR.useRule _ p _ hp)
  · exact hR.pure _

theorem argument (a : Argument) : Moves R (argument a) := by
  cases a with
  | fact name loc => exact hR.reference name loc
  | prop f =>
    cases f with
    | hole => exact Calm.broken _
    | _ => exact hR.bind_pure (hR.typeOf _)

theorem applyAll (fn : Expr) (args : List Argument) : Moves R (applyAll fn args) := by
  induction args generalizing fn with
  | nil => exact hR.pure _
  | cons a rest ih => exact hR.bind (hR.argument a) fun _ => ih _

theorem instantiate (args : List Argument) (loc : Location) : Moves R (instantiate args loc) := by
  unfold Generate.instantiate
  split
  · exact Calm.fail _ _
  · exact hR.bind (hR.reference _ _) fun _ => hR.bind_pure (hR.typeOf _)
  · exact Calm.fail _ _
  · exact Calm.fail _ _

theorem application (rule : String) (args : List Argument) (loc : Location) :
    Moves R (application rule args loc) := by
  refine hR.bind hR.read fun c => ?_
  split
  · exact hR.instantiate args loc
  · exact hR.bind (hR.reference _ _) fun fn => hR.applyAll fn args

end Motion

/-- The scopes and the declared theorems stay what they are. -/
def SameScopes (s s' : State) : Prop := s'.scopes = s.scopes ∧ s'.declared = s.declared

theorem sameScopes_motion : Motion SameScopes where
  refl _ := ⟨rfl, rfl⟩
  trans h h' := ⟨h'.1.trans h.1, h'.2.trans h.2⟩
  frames _ _ := ⟨rfl, rfl⟩
  warn loc message := by
    intro c s u s' h
    have hreported := warn_reported h
    exact ⟨hreported.scopes, hreported.declared⟩
  useRule name p loc _ := by
    intro c s u s' h
    have hreported := useRule_reported h
    exact ⟨hreported.scopes, hreported.declared⟩

end Generate

/-- A program holds the declarations that are emitted. -/
theorem emit_stmts {primitives : List Primitive} {decls : List Program.Stmt}
    {program : Program.Printed} (h : emit primitives decls = .ok program) :
    program.stmts = primitives.map Primitive.decl ++ decls := by
  unfold emit Program.print at h
  generalize Program.textOf _ = text at h
  cases text with
  | error g => cases h
  | ok text =>
    cases h
    rfl

/-- The program of a compilation is what is emitted. -/
theorem emit_of_compile {src : List UInt8} {systemF : Bool} {c : Compilation}
    (h : (compile src systemF).1 = .ok c) : emit c.primitives c.decls = .ok c.program := by
  unfold compile at h
  split at h
  · cases h
  dsimp only [Document.compile] at h
  split at h
  · cases h
  split at h
  · cases h
  rename_i program hemit
  obtain rfl := Except.ok.inj h
  exact hemit

/-- The stages of a compilation that succeeds. -/
theorem compile_eq_ok {src : List UInt8} {systemF : Bool} {c : Compilation}
    (h : (compile src systemF).1 = .ok c) :
    ∃ s, parse src systemF = .ok c.document ∧
      Generate.theoremDecls c.document.theorems
        ⟨systemF, c.document.theorems.filterMap fun t => t.claim.name.map escapeIdent⟩ .empty =
          (.ok c.decls, s) ∧
      c.used = s.used ∧ c.warnings = s.warnings ∧
      c.primitives = Library.select s.used systemF ∧
      c.program.stmts = c.primitives.map Primitive.decl ++ c.decls := by
  unfold compile at h
  split at h
  · cases h
  rename_i d hparse
  dsimp only [Document.compile] at h
  split at h
  · cases h
  rename_i decls s hgenerate
  split at h
  · cases h
  rename_i program hemit
  obtain rfl := Except.ok.inj h
  exact ⟨s, hparse, hgenerate, rfl, rfl, rfl, emit_stmts hemit⟩

end ProofScript
