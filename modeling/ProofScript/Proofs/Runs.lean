import ProofScript.Proofs.Emission
import ProofScript.Proofs.Walk

/-!
# Runs of generation

The runs of generation that succeed: relations between a part of a document, the state before, what
is generated, and the state after. The frame of a hypothesis is open while everything below the
hypothesis is generated. So the arrows of a block are nested runs, although generation opens all
frames of a block before the proof and closes them behind it.
-/

namespace ProofScript

open Program

/-- The proposition that a claim states, unless it is left out. -/
def Claim.stated? (c : Claim) : Option Formula := if c.formula.isHole then none else some c.formula

/-- The annotation of a claim. -/
def Claim.annotation (c : Claim) : Option TypeExpr := c.stated?.map Formula.typeExpr

/-- The parameter that a hypothesis becomes. -/
def Claim.param (c : Claim) : Param := (c.binding, c.formula.typeExpr)

namespace Generate

/-- Arrows for bound variables around a body. -/
def quantify (ret : Option TypeExpr) (body : Body) (o : Option Location) : List String → Expr
  | [] => .missing
  | [v] => .arrow [escapeTypeVar v] [] ret body o
  | v :: rest => .arrow [escapeTypeVar v] [] none (.expr (quantify ret body o rest)) o

/-- A walk that passes arrows without parameters by makes of nested ones what it makes of the body. -/
theorem walk_quantify {ε μ : Type} {w : Walk ε μ} {mind : ε}
    (hinside : ∀ tparams, w.inside mind tparams [] = mind)
    (harrow : ∀ tparams ret o x, w.arrow mind tparams [] ret o x = x) {vars : List String}
    (hvars : vars ≠ []) (ret : Option TypeExpr) (body : Body) (o : Option Location) :
    w.expr mind (quantify ret body o vars) = w.body mind body := by
  fun_induction quantify ret body o vars with
  | case1 => contradiction
  | case2 v => simp [Walk.expr, hinside, harrow]
  | case3 v rest hrest ih => simpa [Walk.expr, Walk.body, hinside, harrow] using ih hrest

/-- The type of the goal is recorded, if there is one. -/
def GoalRun (c : Context) (goal : Option Formula) (s s' : State) : Prop :=
  match goal with
  | none => s' = s
  | some g => typeOf g c s = (.ok g.typeExpr, s')

mutual

/-- A proof becomes a body, and a return type for the function around it. -/
inductive ProofRun (c : Context) : Bool → Proof → State → Body → Option TypeExpr → State → Prop
  | steps {declared : Bool} {st : Steps} {loc : Location} {s mid s' : State} {stmts : List Stmt}
      {value : Expr} {ret : Option TypeExpr} :
      recordSteps st c s = (.ok (), mid) → StepsRun c declared st mid stmts value ret s' →
      ProofRun c declared (.mk st loc) s (bodyOf stmts value) ret s'

/-- Steps become statements and a value. -/
inductive StepsRun (c : Context) :
    Bool → Steps → State → List Stmt → Expr → Option TypeExpr → State → Prop
  | last {declared : Bool} {st : Statement} {s s' : State} {stmts : List Stmt} {value : Expr}
      {ret : Option TypeExpr} :
      FinalRun c declared st s stmts value ret s' →
      StepsRun c declared (.last st) s stmts value ret s'
  | conclude {declared : Bool} {j : Justification} {loc : Location} {s s' : State} {value : Expr} :
      JustificationRun c j s value s' →
      StepsRun c declared (.conclude j loc) s [] value none s'
  | more {declared : Bool} {st : Statement} {rest : Steps} {s mid s' : State} {stmt : Stmt}
      {stmts : List Stmt} {value : Expr} {ret : Option TypeExpr} :
      StatementRun c st s stmt mid → StepsRun c declared rest mid stmts value ret s' →
      StepsRun c declared (.more st rest) s (stmt :: stmts) value ret s'

/-- A final statement becomes a value, a constant for its claim, or a return type. -/
inductive FinalRun (c : Context) :
    Bool → Statement → State → List Stmt → Expr → Option TypeExpr → State → Prop
  | block {declared : Bool} {b : Block} {s s' : State} {value : Expr} :
      BlockRun c b s value s' → FinalRun c declared (.block b) s [] value none s'
  | hole {declared : Bool} {claim : Claim} {j : Justification} {loc : Location} {s s' : State}
      {value : Expr} :
      claim.formula.isHole = true → JustificationRun c j s value s' →
      FinalRun c declared (.step claim j loc) s [] value none s'
  | bound {claim : Claim} {j : Justification} {loc : Location} {s s' : State} {stmt : Stmt} :
      claim.formula.isHole = false → StatementRun c (.step claim j loc) s stmt s' →
      FinalRun c true (.step claim j loc) s [stmt] (.ident claim.binding (some loc)) none s'
  | returned {claim : Claim} {j : Justification} {loc : Location} {s mid s' : State} {value : Expr} :
      claim.formula.isHole = false →
      typeOf claim.formula c s = (.ok claim.formula.typeExpr, mid) →
      JustificationRun c j mid value s' →
      FinalRun c false (.step claim j loc) s [] value (some claim.formula.typeExpr) s'

/-- A statement that is not the final one becomes a statement. -/
inductive StatementRun (c : Context) : Statement → State → Stmt → State → Prop
  | block {b : Block} {s s' : State} {value : Expr} :
      BlockRun c b s value s' →
      StatementRun c (.block b) s (.expr (.paren value) (some b.loc)) s'
  | step {claim : Claim} {j : Justification} {loc : Location} {s s₁ s₂ s' : State} {value : Expr} :
      stepHead claim c s = (.ok (claim.binding, claim.annotation), s₁) →
      JustificationRun c j s₁ value s₂ → declare claim.binding claim.loc c s₂ = (.ok (), s') →
      StatementRun c (.step claim j loc) s
        (.const claim.binding claim.annotation value false false none (some loc)) s'

/-- A justification becomes a value. -/
inductive JustificationRun (c : Context) : Justification → State → Expr → State → Prop
  | apply {rule : String} {args : List Argument} {loc : Location} {s s' : State} {value : Expr} :
      application rule args loc c s = (.ok value, s') →
      JustificationRun c (.apply rule args loc) s value s'
  | block {b : Block} {s s' : State} {value : Expr} :
      BlockRun c b s value s' → JustificationRun c (.block b) s value s'

/-- A block becomes an arrow. -/
inductive BlockRun (c : Context) : Block → State → Expr → State → Prop
  | assume {hyps : List Claim} {p : Proof} {loc : Location} {s s' : State} {value : Expr} :
      NestRun c none p hyps { s with scopes := [] :: s.scopes } value s' →
      BlockRun c (.assume hyps p loc) s value { s' with scopes := s'.scopes.tail }
  | generalize {vars : List String} {p : Proof} {loc : Location} {s mid s' : State} {body : Body}
      {ret : Option TypeExpr} :
      vars ≠ [] →
      ProofRun c false p { s with scopes := [] :: s.scopes, frames := s.frames.bind vars } body ret
        mid →
      unbindNames vars.length c mid = (.ok (), s') →
      BlockRun c (.generalize vars p loc) s (quantify ret body (some loc) vars)
        { s' with scopes := s'.scopes.tail }

/-- Hypotheses and the proof below them become nested arrows. The innermost one returns the goal, if
there is one. -/
inductive NestRun (c : Context) :
    Option Formula → Proof → List Claim → State → Expr → State → Prop
  | last {goal : Option Formula} {p : Proof} {h : Claim} {s s₁ s₂ s₃ s₄ s' : State} {body : Body}
      {ret : Option TypeExpr} {tparams : List String} :
      typeOf h.formula c { s with frames := s.frames.enter } = (.ok h.formula.typeExpr, s₁) →
      declare h.binding h.loc c s₁ = (.ok (), s₂) → GoalRun c goal s₂ s₃ →
      ProofRun c goal.isSome p s₃ body ret s₄ → exit c s₄ = (.ok tparams, s') →
      NestRun c goal p [h] s
        (.arrow tparams [h.param] (goal.elim ret fun g => some g.typeExpr) body (some h.loc)) s'
  | more {goal : Option Formula} {p : Proof} {h h' : Claim} {rest : List Claim}
      {s s₁ s₂ s₃ s' : State} {inner : Expr} {tparams : List String} :
      typeOf h.formula c { s with frames := s.frames.enter } = (.ok h.formula.typeExpr, s₁) →
      declare h.binding h.loc c s₁ = (.ok (), s₂) → NestRun c goal p (h' :: rest) s₂ inner s₃ →
      exit c s₃ = (.ok tparams, s') →
      NestRun c goal p (h :: h' :: rest) s
        (.arrow tparams [h.param] none (.expr inner) (some h.loc)) s'

end

/-- A theorem becomes an arrow. -/
inductive TheoremRun (c : Context) (t : Theorem) : State → Expr → State → Prop
  | sequent {hyps : List Claim} {p : Proof} {s s' : State} {arrow : Expr} :
      sequent? t = some (hyps, p) → NestRun c (some t.claim.formula) p hyps s arrow s' →
      TheoremRun c t s arrow s'
  | implication {s s₁ s₂ s' : State} {body : Body} {ret : Option TypeExpr} {tparams : List String} :
      sequent? t = none →
      typeOf t.claim.formula c { s with frames := s.frames.enter } =
        (.ok t.claim.formula.typeExpr, s₁) →
      ProofRun c true t.proof s₁ body ret s₂ → exit c s₂ = (.ok tparams, s') →
      TheoremRun c t s (.arrow tparams [] (some t.claim.formula.typeExpr) body (some t.loc)) s'

/-! ## Steps that succeed are runs -/

variable {c : Context} {s s' : State}

theorem onFrames_eq_ok {α : Type} {f : Frames → Except FrameMisuse (α × Frames)} {a : α}
    (h : onFrames f c s = (.ok a, s')) :
    ∃ g, f s.frames = .ok (a, g) ∧ s' = { s with frames := g } := by
  obtain ⟨_, _, hget, h⟩ := bind_eq_ok.mp h
  obtain ⟨rfl, rfl⟩ := get_eq_ok.mp hget
  cases hf : f s.frames with
  | error m =>
    simp only [hf] at h
    exact absurd h broken_ne_ok
  | ok r =>
    obtain ⟨b, g⟩ := r
    simp only [hf] at h
    obtain ⟨_, mid, hmodify, h⟩ := bind_eq_ok.mp h
    obtain ⟨rfl, rfl⟩ := pure_eq_ok.mp h
    obtain rfl := modify_eq_ok.mp hmodify
    exact ⟨g, rfl, rfl⟩

theorem enter_eq_ok {u : Unit} (h : enter c s = (.ok u, s')) :
    s' = { s with frames := s.frames.enter } := by
  obtain ⟨g, hg, rfl⟩ := onFrames_eq_ok h
  cases hg
  rfl

theorem bindNames_eq_ok {names : List String} {u : Unit} (h : bindNames names c s = (.ok u, s')) :
    s' = { s with frames := s.frames.bind names } := by
  obtain ⟨g, hg, rfl⟩ := onFrames_eq_ok h
  cases hg
  rfl

theorem typeOf_eq_ok {f : Formula} {t : TypeExpr} (h : typeOf f c s = (.ok t, s')) :
    t = f.typeExpr :=
  (typeOf_emits f c s t s' h).1

theorem stepHead_annotation {claim : Claim} {name : String} {t : Option TypeExpr}
    (h : stepHead claim c s = (.ok (name, t), s')) :
    name = claim.binding ∧ t = claim.annotation := by
  obtain ⟨rfl, ⟨hhole, rfl, -⟩ | ⟨u, hhole, hu, rfl⟩⟩ := stepHead_eq_ok h
  · simp [Claim.annotation, Claim.stated?, hhole]
  · simp [Claim.annotation, Claim.stated?, hhole, typeOf_eq_ok hu]

theorem closeVariables_eq_ok {ret : Option TypeExpr} {body : Body} {loc : Location}
    {vars : List String} {e : Expr} (h : closeVariables ret body loc vars c s = (.ok e, s')) :
    vars ≠ [] ∧ e = quantify ret body (some loc) vars ∧ s' = s := by
  induction vars generalizing e s' with
  | nil => exact absurd h broken_ne_ok
  | cons v rest ih =>
    cases rest with
    | nil =>
      obtain ⟨rfl, rfl⟩ := pure_eq_ok.mp h
      exact ⟨by simp, rfl, rfl⟩
    | cons w rest =>
      obtain ⟨inner, _, hinner, h⟩ := bind_eq_ok.mp h
      obtain ⟨rfl, rfl⟩ := pure_eq_ok.mp h
      obtain ⟨-, rfl, rfl⟩ := ih hinner
      exact ⟨by simp, rfl, rfl⟩

/-! ## Rules applied to arguments -/

/-- An identifier, or a call of one with such arguments. The type arguments are among the given types,
and all nodes stem from the given places. -/
inductive Applied (types : List TypeExpr) (places : List Location) : Expr → Prop
  | ident {name : String} {loc : Location} :
      loc ∈ places → Applied types places (.ident name (some loc))
  | call {fn : Expr} {targs : List TypeExpr} {args : List Expr} {loc : Location} :
      Applied types places fn → targs ⊆ types → (∀ x ∈ args, Applied types places x) →
      loc ∈ places → Applied types places (.call fn targs args (some loc))

/-- The type of an argument that is a proposition. -/
def argumentType? : Argument → Option TypeExpr
  | .fact _ _ => none
  | .prop f => some f.typeExpr

theorem reference_applied {types : List TypeExpr} {places : List Location} {name : String}
    {loc : Location} {e : Expr} (h : reference name loc c s = (.ok e, s')) (hloc : loc ∈ places) :
    Applied types places e := by
  rcases (reference_eq_ok h).1 with rfl | rfl
  · exact .ident hloc
  · exact .call (.ident hloc) (by simp) (by simp) hloc

theorem argument_applied {types : List TypeExpr} {places : List Location} {a : Argument} {e : Expr}
    (h : argument a c s = (.ok e, s')) (hloc : a.loc ∈ places) : Applied types places e := by
  cases a with
  | fact name loc => exact reference_applied h hloc
  | prop f =>
    cases f with
    | hole => exact absurd h broken_ne_ok
    | _ =>
      obtain ⟨_, _, -, h⟩ := bind_eq_ok.mp h
      obtain ⟨rfl, -⟩ := pure_eq_ok.mp h
      exact .ident hloc

theorem applyAll_applied {types : List TypeExpr} {places : List Location} {fn e : Expr}
    {args : List Argument} (hfn : Applied types places fn) (hargs : ∀ a ∈ args, a.loc ∈ places)
    (h : applyAll fn args c s = (.ok e, s')) : Applied types places e := by
  induction args generalizing fn s with
  | nil =>
    obtain ⟨rfl, -⟩ := pure_eq_ok.mp h
    exact hfn
  | cons a rest ih =>
    obtain ⟨x, _, hx, h⟩ := bind_eq_ok.mp h
    have hloc := hargs a (by simp)
    refine ih (.call hfn (by simp) ?_ hloc) (fun b hb => hargs b (by simp [hb])) h
    simpa using argument_applied hx hloc

theorem application_applied {rule : String} {args : List Argument} {loc : Location} {e : Expr}
    (h : application rule args loc c s = (.ok e, s')) :
    Applied (args.filterMap argumentType?) (loc :: args.map Argument.loc) e := by
  obtain ⟨_, _, hread, h⟩ := bind_eq_ok.mp h
  obtain ⟨rfl, rfl⟩ := read_eq_ok.mp hread
  split at h
  · obtain ⟨f, name, at_, fn, mid, t, rfl, hfn, ht, rfl⟩ := instantiate_eq_ok h
    obtain rfl := typeOf_eq_ok ht
    refine .call (reference_applied hfn ?_) ?_ (by simp) (by simp)
    · simp [Argument.loc]
    · simp [argumentType?]
  · obtain ⟨fn, mid, hfn, h⟩ := bind_eq_ok.mp h
    refine applyAll_applied (reference_applied hfn (by simp)) ?_ h
    exact fun a ha => List.mem_cons_of_mem _ (List.mem_map_of_mem ha)

/-! ## Proofs -/

/-- Frames that are opened before a proof and closed behind it are nested around it. -/
theorem nestRun_of_hypotheses (goal : Option Formula) {p : Proof} {hyps : List Claim}
    {hs : List Hypothesis} {s₁ s₂ s₃ : State} {body : Body} {ret : Option TypeExpr} {e : Expr}
    (hopen : hypotheses hyps c s = (.ok hs, s₁)) (hgoal : GoalRun c goal s₁ s₂)
    (hproof : ProofRun c goal.isSome p s₂ body ret s₃)
    (hclose : closeHypotheses (goal.elim ret fun g => some g.typeExpr) body hs c s₃ = (.ok e, s')) :
    NestRun c goal p hyps s e s' := by
  induction hyps generalizing s hs e s' with
  | nil =>
    obtain ⟨rfl, -⟩ := pure_eq_ok.mp hopen
    exact absurd hclose broken_ne_ok
  | cons h rest ih =>
    simp only [hypotheses, bind_eq_ok] at hopen
    obtain ⟨_, a₁, henter, t, a₂, htype, _, a₃, hdeclare, more, a₄, hmore, hopen⟩ := hopen
    obtain ⟨rfl, rfl⟩ := pure_eq_ok.mp hopen
    obtain rfl := enter_eq_ok henter
    obtain rfl := typeOf_eq_ok htype
    cases rest with
    | nil =>
      obtain ⟨rfl, rfl⟩ := pure_eq_ok.mp hmore
      obtain ⟨tparams, _, hexit, hclose⟩ := bind_eq_ok.mp hclose
      obtain ⟨rfl, rfl⟩ := pure_eq_ok.mp hclose
      exact .last htype hdeclare hgoal hproof hexit
    | cons h' rest =>
      -- The hypotheses further in are not empty either, so their arrows come first.
      obtain ⟨next, more', rfl⟩ : ∃ next more', more = next :: more' := by
        simp only [hypotheses, bind_eq_ok] at hmore
        obtain ⟨_, _, -, _, _, -, _, _, -, _, _, -, hmore⟩ := hmore
        obtain ⟨rfl, -⟩ := pure_eq_ok.mp hmore
        exact ⟨_, _, rfl⟩
      obtain ⟨inner, _, hinner, hclose⟩ := bind_eq_ok.mp hclose
      obtain ⟨tparams, _, hexit, hclose⟩ := bind_eq_ok.mp hclose
      obtain ⟨rfl, rfl⟩ := pure_eq_ok.mp hclose
      exact .more htype hdeclare (ih hmore hinner) hexit

mutual

theorem proof_run {c : Context} {s s' : State} {declared : Bool} {body : Body}
    {ret : Option TypeExpr} : (p : Proof) → proof declared p c s = (.ok (body, ret), s') →
      ProofRun c declared p s body ret s'
  | .mk st loc, h => by
    simp only [proof, bind_eq_ok] at h
    obtain ⟨_, mid, hrecord, ⟨stmts, value, ret'⟩, _, hsteps, h⟩ := h
    obtain ⟨heq, rfl⟩ := pure_eq_ok.mp h
    obtain ⟨rfl, rfl⟩ := Prod.mk.inj heq
    exact .steps hrecord (steps_run st hsteps)

theorem steps_run {c : Context} {s s' : State} {declared : Bool} {stmts : List Stmt} {value : Expr}
    {ret : Option TypeExpr} :
    (st : Steps) → steps declared st c s = (.ok (stmts, value, ret), s') →
      StepsRun c declared st s stmts value ret s'
  | .last st, h => .last (final_run st h)
  | .conclude j loc, h => by
    simp only [steps, bind_eq_ok] at h
    obtain ⟨value', _, hj, h⟩ := h
    obtain ⟨heq, rfl⟩ := pure_eq_ok.mp h
    obtain ⟨rfl, rfl, rfl⟩ : _ ∧ _ ∧ _ := by simpa using heq
    exact .conclude (justification_run j hj)
  | .more st rest, h => by
    simp only [steps, bind_eq_ok] at h
    obtain ⟨stmt, mid, hst, ⟨stmts', value', ret'⟩, _, hrest, h⟩ := h
    obtain ⟨heq, rfl⟩ := pure_eq_ok.mp h
    obtain ⟨rfl, rfl, rfl⟩ : _ ∧ _ ∧ _ := by simpa using heq
    exact .more (statement_run st hst) (steps_run rest hrest)

theorem final_run {c : Context} {s s' : State} {declared : Bool} {stmts : List Stmt} {value : Expr}
    {ret : Option TypeExpr} :
    (st : Statement) → final declared st c s = (.ok (stmts, value, ret), s') →
      FinalRun c declared st s stmts value ret s'
  | .missing, h => absurd h broken_ne_ok
  | .block b, h => by
    simp only [final, bind_eq_ok] at h
    obtain ⟨value', _, hb, h⟩ := h
    obtain ⟨heq, rfl⟩ := pure_eq_ok.mp h
    obtain ⟨rfl, rfl, rfl⟩ : _ ∧ _ ∧ _ := by simpa using heq
    exact .block (block_run b hb)
  | .step claim j loc, h => by
    cases hhole : claim.formula.isHole with
    | true =>
      simp only [final, hhole, if_true, bind_eq_ok] at h
      obtain ⟨value', _, hj, h⟩ := h
      obtain ⟨heq, rfl⟩ := pure_eq_ok.mp h
      obtain ⟨rfl, rfl, rfl⟩ : _ ∧ _ ∧ _ := by simpa using heq
      exact .hole hhole (justification_run j hj)
    | false =>
      cases declared with
      | true =>
        simp only [final, hhole, Bool.false_eq_true, if_false, if_true, bind_eq_ok] at h
        obtain ⟨⟨name, t⟩, s₁, hhead, value', s₂, hj, _, s₃, hdeclare, h⟩ := h
        obtain ⟨heq, rfl⟩ := pure_eq_ok.mp h
        obtain ⟨rfl, rfl, rfl⟩ : _ ∧ _ ∧ _ := by simpa using heq
        obtain ⟨rfl, rfl⟩ := stepHead_annotation hhead
        exact .bound hhole (.step hhead (justification_run j hj) hdeclare)
      | false =>
        simp only [final, hhole, Bool.false_eq_true, if_false, bind_eq_ok] at h
        obtain ⟨t, s₁, htype, value', s₂, hj, h⟩ := h
        obtain ⟨heq, rfl⟩ := pure_eq_ok.mp h
        obtain ⟨rfl, rfl, rfl⟩ : _ ∧ _ ∧ _ := by simpa using heq
        obtain rfl := typeOf_eq_ok htype
        exact .returned hhole htype (justification_run j hj)

theorem statement_run {c : Context} {s s' : State} {stmt : Stmt} :
    (st : Statement) → statement st c s = (.ok stmt, s') → StatementRun c st s stmt s'
  | .missing, h => absurd h broken_ne_ok
  | .block b, h => by
    simp only [statement, bind_eq_ok] at h
    obtain ⟨value, _, hb, h⟩ := h
    obtain ⟨rfl, rfl⟩ := pure_eq_ok.mp h
    exact .block (block_run b hb)
  | .step claim j loc, h => by
    simp only [statement, bind_eq_ok] at h
    obtain ⟨⟨name, t⟩, s₁, hhead, value, s₂, hj, _, s₃, hdeclare, h⟩ := h
    obtain ⟨rfl, rfl⟩ := pure_eq_ok.mp h
    obtain ⟨rfl, rfl⟩ := stepHead_annotation hhead
    exact .step hhead (justification_run j hj) hdeclare

theorem justification_run {c : Context} {s s' : State} {value : Expr} :
    (j : Justification) → justification j c s = (.ok value, s') →
      JustificationRun c j s value s'
  | .missing, h => absurd h broken_ne_ok
  | .apply _ _ _, h => .apply h
  | .block b, h => .block (block_run b h)

theorem block_run {c : Context} {s s' : State} {value : Expr} :
    (b : Block) → block b c s = (.ok value, s') → BlockRun c b s value s'
  | .assume hyps p loc, h => by
    simp only [block, bind_eq_ok] at h
    obtain ⟨_, s₁, hpush, hs, s₂, hhyps, ⟨body, ret⟩, s₃, hp, value, s₄, hclose, _, s₅, hpop, h⟩ := h
    obtain ⟨rfl, rfl⟩ := pure_eq_ok.mp h
    obtain rfl := modify_eq_ok.mp hpush
    obtain rfl := modify_eq_ok.mp hpop
    exact .assume (nestRun_of_hypotheses none hhyps rfl (proof_run p hp) hclose)
  | .generalize vars p loc, h => by
    simp only [block, bind_eq_ok] at h
    obtain ⟨_, s₁, hpush, _, s₂, hbind, ⟨body, ret⟩, s₃, hp, _, s₄, hunbind, value, s₅, hclose, _, s₆,
      hpop, h⟩ := h
    obtain ⟨rfl, rfl⟩ := pure_eq_ok.mp h
    obtain rfl := modify_eq_ok.mp hpush
    obtain rfl := modify_eq_ok.mp hpop
    obtain rfl := bindNames_eq_ok hbind
    obtain ⟨hvars, rfl, rfl⟩ := closeVariables_eq_ok hclose
    exact .generalize hvars (proof_run p hp) hunbind

end

theorem theoremArrow_run {t : Theorem} {e : Expr} {isThunk : Bool}
    (h : theoremArrow t c s = (.ok (e, isThunk), s')) : TheoremRun c t s e s' := by
  unfold theoremArrow at h
  cases hsequent : sequent? t with
  | some hp =>
    obtain ⟨hyps, p⟩ := hp
    simp only [hsequent, bind_eq_ok] at h
    obtain ⟨hs, s₁, hhyps, claim, s₂, hclaim, ⟨body, ret⟩, s₃, hp, arrow, s₄, hclose, h⟩ := h
    obtain ⟨heq, rfl⟩ := pure_eq_ok.mp h
    obtain ⟨rfl, -⟩ := Prod.mk.inj heq
    obtain rfl := typeOf_eq_ok hclaim
    exact .sequent hsequent
      (nestRun_of_hypotheses (some t.claim.formula) hhyps hclaim (proof_run p hp) hclose)
  | none =>
    simp only [hsequent, bind_eq_ok] at h
    obtain ⟨_, s₁, henter, claim, s₂, hclaim, ⟨body, ret⟩, s₃, hp, tparams, s₄, hexit, h⟩ := h
    obtain ⟨heq, rfl⟩ := pure_eq_ok.mp h
    obtain ⟨rfl, -⟩ := Prod.mk.inj heq
    obtain rfl := enter_eq_ok henter
    obtain rfl := typeOf_eq_ok hclaim
    exact .implication hsequent hclaim (proof_run t.proof hp) hexit

end Generate

/-- The declaration of a theorem with a given arrow. -/
def Theorem.decl (t : Theorem) (arrow : Expr) : Stmt :=
  match t.claim.name.map escapeIdent with
  | none => .expr (.paren arrow) (some t.loc)
  | some name => .const name none arrow false false none (some t.loc)

namespace Generate

variable {c : Context} {s s' : State}

theorem declare_frames {name : String} {loc : Location} {u : Unit}
    (h : declare name loc c s = (.ok u, s')) : s'.frames = s.frames := by
  cases hscopes : s.scopes with
  | nil => rw [declare_eq_ok_of_nil hscopes h]
  | cons top rest => rw [declare_eq_ok hscopes h]

/-- The name of a theorem is declared, if it has one. No rule of the library has this name. -/
inductive NameRun (c : Context) (t : Theorem) (s : State) : State → Prop
  | anonymous : t.claim.name.map escapeIdent = none → NameRun c t s s
  | named {name : String} {s' : State} (thunks : List String) :
      t.claim.name.map escapeIdent = some name → Library.findRule? name = none →
      declare name t.claim.loc c s = (.ok (), s') → NameRun c t s { s' with thunks := thunks }

theorem NameRun.frames {t : Theorem} (h : NameRun c t s s') : s'.frames = s.frames := by
  cases h with
  | anonymous => rfl
  | named _ _ _ hdeclare =>
    have hframes := declare_frames hdeclare
    exact hframes

/-- A theorem is generated in a scope of its own, and its name is declared behind it. -/
theorem theoremDecl_eq_ok {t : Theorem} {decl : Stmt} (h : theoremDecl t c s = (.ok decl, s')) :
    ∃ arrow mid, TheoremRun c t { s with scopes := [] :: s.scopes } arrow mid ∧
      decl = t.decl arrow ∧ NameRun c t { mid with scopes := mid.scopes.tail } s' := by
  simp only [theoremDecl] at h
  unfold Theorem.decl
  cases hname : t.claim.name.map escapeIdent with
  | none =>
    simp only [hname, bind_eq_ok] at h
    obtain ⟨_, s₂, hpush, ⟨arrow, isThunk⟩, s₃, harrow, _, s₄, hpop, h⟩ := h
    obtain ⟨rfl, rfl⟩ := pure_eq_ok.mp h
    obtain rfl := modify_eq_ok.mp hpush
    obtain rfl := modify_eq_ok.mp hpop
    exact ⟨arrow, s₃, theoremArrow_run harrow, rfl, .anonymous hname⟩
  | some name =>
    simp only [hname, bind_eq_ok] at h
    obtain ⟨_, s₁, hcheck, _, s₂, hpush, ⟨arrow, isThunk⟩, s₃, harrow, _, s₄, hpop, _, s₅, hdeclare,
      h⟩ := h
    obtain ⟨hrule, rfl⟩ := checkTheoremName_eq_ok hcheck
    obtain rfl := modify_eq_ok.mp hpush
    obtain rfl := modify_eq_ok.mp hpop
    refine ⟨arrow, s₃, theoremArrow_run harrow, ?_⟩
    split at h
    · obtain ⟨_, _, hthunk, h⟩ := bind_eq_ok.mp h
      obtain rfl := modify_eq_ok.mp hthunk
      obtain ⟨rfl, rfl⟩ := pure_eq_ok.mp h
      exact ⟨rfl, .named _ hname hrule hdeclare⟩
    · obtain ⟨rfl, rfl⟩ := pure_eq_ok.mp h
      exact ⟨rfl, .named s₅.thunks hname hrule hdeclare⟩

theorem theoremDecls_cons_eq_ok {t : Theorem} {rest : List Theorem} {decls : List Stmt}
    (h : theoremDecls (t :: rest) c s = (.ok decls, s')) :
    ∃ decl more mid, decls = decl :: more ∧ theoremDecl t c s = (.ok decl, mid) ∧
      mid.frames.depth = 0 ∧ theoremDecls rest c mid = (.ok more, s') := by
  simp only [theoremDecls, bind_eq_ok] at h
  obtain ⟨decl, mid, hdecl, _, _, hget, h⟩ := h
  obtain ⟨rfl, rfl⟩ := get_eq_ok.mp hget
  split at h
  · exact absurd h broken_ne_ok
  rename_i hdepth
  obtain ⟨more, _, hmore, h⟩ := bind_eq_ok.mp h
  obtain ⟨rfl, rfl⟩ := pure_eq_ok.mp h
  exact ⟨decl, more, mid, rfl, hdecl, Decidable.not_not.mp hdepth, hmore⟩

end Generate

end ProofScript
