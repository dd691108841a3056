import ProofScript.Proofs.Recording
import ProofScript.Proofs.Scoping

/-!
# The form of generated programs

Generated programs use a small part of the language: arrows with at most one parameter, blocks whose
constants are distinct and whose last statement returns, annotations that stem from propositions, and
nodes that know where in the document they stem from.
-/

namespace ProofScript

open Program

/-! ## Programs -/

/-- A place that is known and one of the given. -/
def Placed (places : List Location) (o : Option Location) : Prop := ∃ loc ∈ places, o = some loc

/-- The annotation of a proposition that a script of the mode can state. -/
def Annotates (systemF : Bool) (t : TypeExpr) : Prop :=
  ∃ f : Formula, f.SpelledIn systemF ∧ t = f.typeExpr

namespace Program

mutual

/-- An expression of the form that is generated, whose nodes stem from the given places. -/
def Expr.Formed (systemF : Bool) (places : List Location) : Expr → Prop
  | .ident _ o => Placed places o
  | .call fn targs args o =>
    Placed places o ∧ fn.Formed systemF places ∧ (∀ t ∈ targs, Annotates systemF t) ∧
      exprsFormed systemF places args
  | .arrow tparams params ret body o =>
    Placed places o ∧ (∀ n ∈ tparams, ∃ a, n = escapeTypeVar a) ∧ params.length ≤ 1 ∧
      (∀ p ∈ params, Annotates systemF p.2) ∧ (∀ t ∈ ret, Annotates systemF t) ∧
      body.Formed systemF places
  | _ => False

/-- The same for expressions. -/
def exprsFormed (systemF : Bool) (places : List Location) : List Expr → Prop
  | [] => True
  | e :: rest => e.Formed systemF places ∧ exprsFormed systemF places rest

/-- The same for a body. The constants of a block are distinct. -/
def Body.Formed (systemF : Bool) (places : List Location) : Body → Prop
  | .missing => False
  | .expr e => e.Formed systemF places
  | .block stmts => (constants stmts).Nodup ∧ blockFormed systemF places stmts

/-- The same for the statements of a block, the last of which returns. -/
def blockFormed (systemF : Bool) (places : List Location) : List Stmt → Prop
  | [] => False
  | .ret e :: rest => rest = [] ∧ e.Formed systemF places
  | s :: rest => s.Formed systemF places ∧ blockFormed systemF places rest

/-- The same for a statement that does not return. -/
def Stmt.Formed (systemF : Bool) (places : List Location) : Stmt → Prop
  | .const _ type value declare trusted _ _ =>
    declare = false ∧ trusted = false ∧ (∀ t ∈ type, Annotates systemF t) ∧
      value.Formed systemF places
  | .expr (.paren e) _ => e.Formed systemF places
  | _ => False

end

theorem constants_cons (st : Stmt) (rest : List Stmt) :
    constants (st :: rest) = st.constant?.toList ++ constants rest := by
  unfold constants
  rw [List.filterMap_cons]
  cases st.constant? with
  | none => rfl
  | some name => rfl

end Program

/-! ## Places of a document -/

/-- The places of a proposition and its parts. -/
def Formula.places (f : Formula) : List Location := f.subformulas.map Formula.loc

/-- The places of a claim. -/
def Claim.places (c : Claim) : List Location := c.loc :: c.formula.places

/-- The places of an argument. -/
def Argument.places : Argument → List Location
  | .fact _ loc => [loc]
  | .prop f => f.places

mutual

/-- The places of the nodes of a proof. -/
def Proof.places : Proof → List Location
  | .mk s loc => loc :: s.places

/-- The places of the nodes of steps. -/
def Steps.places : Steps → List Location
  | .last s => s.places
  | .conclude j loc => loc :: j.places
  | .more s rest => s.places ++ rest.places

/-- The places of the nodes of a statement. -/
def Statement.places : Statement → List Location
  | .missing => []
  | .step c j loc => loc :: (c.places ++ j.places)
  | .block b => b.places

/-- The places of the nodes of a justification. -/
def Justification.places : Justification → List Location
  | .missing => []
  | .apply _ args loc => loc :: args.flatMap Argument.places
  | .block b => b.places

/-- The places of the nodes of a block. -/
def Block.places : Block → List Location
  | .assume hyps p loc => loc :: (hyps.flatMap Claim.places ++ p.places)
  | .generalize _ p loc => loc :: p.places

end

/-- The places of the nodes of a theorem. -/
def Theorem.places (t : Theorem) : List Location := t.loc :: (t.claim.places ++ t.proof.places)

/-- The places of the nodes of a document. -/
def Document.places (d : Document) : List Location := d.loc :: d.theorems.flatMap Theorem.places

theorem Formula.loc_mem_places {f : Formula} (h : f.isHole = false) : f.loc ∈ f.places := by
  cases f with
  | hole => cases h
  | _ => simp [Formula.places, Formula.subformulas, Formula.loc]

/-- The place of an argument is one of its places. -/
theorem Argument.loc_mem_places {systemF : Bool} {a : Argument} (h : a.Spelled systemF) :
    a.loc ∈ a.places := by
  cases a with
  | fact name loc => simp [Argument.loc, Argument.places]
  | prop f =>
    refine Formula.loc_mem_places ?_
    cases f with
    | hole => exact h.1.elim
    | _ => rfl

namespace Generate

variable {c : Context} {s s' : State}

/-! ## Names of a scope -/

/-- The innermost scope gets these names, which are new to it, and no theorem is declared. -/
def Declared (names : List String) (s s' : State) : Prop :=
  ∀ top rest, s.scopes = top :: rest → (top.map Prod.fst).Nodup →
    ∃ top', s'.scopes = top' :: rest ∧ top'.map Prod.fst = top.map Prod.fst ++ names ∧
      (top'.map Prod.fst).Nodup ∧ s'.declared = s.declared

theorem SameScopes.declares (h : SameScopes s s') : Declared [] s s' := by
  intro top rest hs hnodup
  exact ⟨top, by rw [h.1, hs], by simp, hnodup, h.2⟩

theorem Declared.trans {names more : List String} {mid : State} (h : Declared names s mid)
    (h' : Declared more mid s') : Declared (names ++ more) s s' := by
  intro top rest hs hnodup
  obtain ⟨top', hmid, hnames, hnodup', hdeclared⟩ := h top rest hs hnodup
  obtain ⟨top'', hs', hmore, hnodup'', hdeclared'⟩ := h' top' rest hmid hnodup'
  exact ⟨top'', hs', by rw [hmore, hnames, List.append_assoc], hnodup'', hdeclared'.trans hdeclared⟩

/-- The names that a new name must differ from: those of the innermost scope, or the theorems. -/
def State.taken (s : State) : Scope := s.scopes.head?.getD s.declared

theorem not_mem_taken_of_declare {name : String} {loc : Location} {u : Unit}
    (h : declare name loc c s = (.ok u, s')) : name ∉ s.taken.map Prod.fst := by
  simp only [declare, bind_eq_ok] at h
  obtain ⟨_, _, hget, h⟩ := h
  obtain ⟨rfl, rfl⟩ := get_eq_ok.mp hget
  rw [← lookup_eq_none_iff_not_mem]
  cases hfind : s.taken.lookup name with
  | none => rfl
  | some first =>
    cases hscopes : s.scopes with
    | nil =>
      have hfind' : s.declared.lookup name = some first := by simpa [State.taken, hscopes] using hfind
      simp only [hscopes, Scope.find?, hfind'] at h
      exact absurd h fail_ne_ok
    | cons top rest =>
      have hfind' : top.lookup name = some first := by simpa [State.taken, hscopes] using hfind
      simp only [hscopes, Scope.find?, hfind'] at h
      exact absurd h fail_ne_ok

theorem nodup_append_name {scope : Scope} {name : String} (loc : Location)
    (hnodup : (scope.map Prod.fst).Nodup) (hnew : name ∉ scope.map Prod.fst) :
    ((scope ++ [(name, loc)]).map Prod.fst).Nodup := by
  rw [List.map_append, List.nodup_append]
  refine ⟨hnodup, by simp, ?_⟩
  rintro a ha b hb rfl
  rw [List.map_singleton, List.mem_singleton] at hb
  rw [hb] at ha
  exact hnew ha

theorem declare_declared {name : String} {loc : Location} {u : Unit}
    (h : declare name loc c s = (.ok u, s')) : Declared [name] s s' := by
  intro top rest hs hnodup
  have hnew : name ∉ top.map Prod.fst := by
    simpa [State.taken, hs] using not_mem_taken_of_declare h
  obtain rfl := declare_eq_ok hs h
  exact ⟨top ++ [(name, loc)], rfl, by simp, nodup_append_name loc hnodup hnew, rfl⟩

/-- There is a scope, and its names are distinct. -/
def Ready (s : State) : Prop := ∃ top rest, s.scopes = top :: rest ∧ (top.map Prod.fst).Nodup

theorem Declared.ready {names : List String} (h : Declared names s s') (hs : Ready s) :
    Ready s' ∧ names.Nodup := by
  obtain ⟨top, rest, hscopes, hnodup⟩ := hs
  obtain ⟨top', hs', hnames, hnodup', -⟩ := h top rest hscopes hnodup
  refine ⟨⟨top', rest, hs', hnodup'⟩, ?_⟩
  rw [hnames] at hnodup'
  exact (List.nodup_append.mp hnodup').2.1

theorem ready_of_push {scopes : List Scope} (h : s.scopes = [] :: scopes) : Ready s :=
  ⟨[], scopes, h, List.nodup_nil⟩

/-- A scope that is opened and closed again leaves no names behind. -/
theorem Declared.pop {names : List String} {inner : State} {scopes : List Scope}
    (h : Declared names inner s') (hpush : inner.scopes = [] :: scopes) :
    s'.scopes.tail = scopes ∧ s'.declared = inner.declared := by
  obtain ⟨top, hs', -, -, hdeclared⟩ := h [] scopes hpush List.nodup_nil
  exact ⟨by rw [hs', List.tail_cons], hdeclared⟩

theorem typeOf_declared {f : Formula} {t : TypeExpr} (h : typeOf f c s = (.ok t, s')) :
    Declared [] s s' :=
  (sameScopes_motion.typeOf _ _ _ _ _ h).declares

/-- A frame that is opened changes no scope. -/
theorem typeOf_enter_declared {f : Formula} {t : TypeExpr}
    (h : typeOf f c { s with frames := s.frames.enter } = (.ok t, s')) : Declared [] s s' := by
  have hdeclared := typeOf_declared h
  exact hdeclared

theorem GoalRun.declared {goal : Option Formula} (h : GoalRun c goal s s') : Declared [] s s' := by
  cases goal with
  | none =>
    obtain rfl : s' = s := h
    exact SameScopes.declares ⟨rfl, rfl⟩
  | some g => exact typeOf_declared h

theorem exit_declared {tparams : List String} (h : exit c s = (.ok tparams, s')) :
    Declared [] s s' := by
  obtain ⟨_, _, _, _, rfl⟩ := exit_eq_ok h
  exact SameScopes.declares ⟨rfl, rfl⟩

theorem escaped_of_exit {tparams : List String} (h : exit c s = (.ok tparams, s')) :
    ∀ n ∈ tparams, ∃ a, n = escapeTypeVar a := by
  obtain ⟨top, rest, -, rfl, -⟩ := exit_eq_ok h
  intro n hn
  rcases List.mem_map.mp hn with ⟨a, -, rfl⟩
  exact ⟨a, rfl⟩

/-! ## Values -/

variable {systemF : Bool} {places : List Location}

theorem exprsFormed_iff {args : List Expr} :
    exprsFormed systemF places args ↔ ∀ x ∈ args, x.Formed systemF places := by
  induction args with
  | nil => simp [exprsFormed]
  | cons x rest ih => simp [exprsFormed, ih]

theorem Applied.formed {types : List TypeExpr} {ps : List Location} {e : Expr}
    (h : Applied types ps e) (htypes : ∀ t ∈ types, Annotates systemF t) (hps : ps ⊆ places) :
    e.Formed systemF places := by
  induction h with
  | ident hloc => exact ⟨_, hps hloc, rfl⟩
  | call _ hsubset _ hloc ihfn ihargs =>
    exact ⟨⟨_, hps hloc, rfl⟩, ihfn, fun t ht => htypes t (hsubset ht), exprsFormed_iff.mpr ihargs⟩

theorem application_formed {rule : String} {args : List Argument} {loc : Location} {e : Expr}
    (h : application rule args loc c s = (.ok e, s')) (hargs : ∀ a ∈ args, a.Spelled systemF)
    (hplaces : (Justification.apply rule args loc).places ⊆ places) : e.Formed systemF places := by
  refine (application_applied h).formed ?_ ?_
  · intro t ht
    rcases List.mem_filterMap.mp ht with ⟨a, ha, hat⟩
    cases a with
    | fact => cases hat
    | prop f => exact ⟨f, hargs _ ha, (Option.some.inj hat).symm⟩
  · refine List.Subset.trans ?_ hplaces
    refine List.cons_subset_cons _ ?_
    intro x hx
    rcases List.mem_map.mp hx with ⟨a, ha, rfl⟩
    exact List.mem_flatMap.mpr ⟨a, ha, Argument.loc_mem_places (hargs a ha)⟩

theorem formed_quantify {ret : Option TypeExpr} {body : Body} {loc : Location}
    {vars : List String} (hvars : vars ≠ []) (hloc : loc ∈ places)
    (hbody : body.Formed systemF places) (hret : ∀ t ∈ ret, Annotates systemF t) :
    (quantify ret body (some loc) vars).Formed systemF places := by
  induction vars with
  | nil => contradiction
  | cons v rest ih =>
    have hplaced : Placed places (some loc) := ⟨loc, hloc, rfl⟩
    have hname : ∀ n ∈ [escapeTypeVar v], ∃ a, n = escapeTypeVar a := by simp
    cases rest with
    | nil => exact ⟨hplaced, hname, by simp, by simp, hret, hbody⟩
    | cons w rest => exact ⟨hplaced, hname, by simp, by simp, by simp, ih (by simp)⟩

/-! ## Proofs -/

theorem blockFormed_returning {stmts : List Stmt} {value : Expr}
    (hstmts : ∀ st ∈ stmts, st.Formed systemF places) (hvalue : value.Formed systemF places) :
    blockFormed systemF places (stmts ++ [.ret value]) := by
  induction stmts with
  | nil => exact ⟨rfl, hvalue⟩
  | cons st rest ih =>
    have hst := hstmts st (by simp)
    have hrest := ih fun st hst => hstmts st (by simp [hst])
    cases st with
    | const => exact ⟨hst, hrest⟩
    | expr => exact ⟨hst, hrest⟩
    | _ => exact hst.elim

theorem formed_bodyOf {stmts : List Stmt} {value : Expr}
    (hstmts : ∀ st ∈ stmts, st.Formed systemF places) (hnodup : (constants stmts).Nodup)
    (hvalue : value.Formed systemF places) : (bodyOf stmts value).Formed systemF places := by
  unfold bodyOf
  split
  · exact hvalue
  · exact ⟨by rwa [constants_returning], blockFormed_returning hstmts hvalue⟩

/-- A proof becomes a body of the form that is generated, and declares names in its scope. -/
def FormsProof (systemF : Bool) (places : List Location) (s s' : State) (body : Body)
    (ret : Option TypeExpr) : Prop :=
  (∃ names, Declared names s s') ∧ body.Formed systemF places ∧ ∀ t ∈ ret, Annotates systemF t

theorem NestRun.formed {goal : Option Formula} {p : Proof} {hyps : List Claim} {e : Expr}
    (h : NestRun c goal p hyps s e s') (hs : Ready s)
    (hhyps : ∀ h ∈ hyps, h.formula.SpelledIn systemF ∧ h.loc ∈ places)
    (hgoal : ∀ g ∈ goal, g.SpelledIn systemF)
    (hproof : ∀ {s s' body ret}, Ready s → ProofRun c goal.isSome p s body ret s' →
      FormsProof systemF places s s' body ret) :
    (∃ names, Declared names s s') ∧ e.Formed systemF places := by
  induction hyps generalizing s s' e with
  | nil => cases h
  | cons h₀ rest ih =>
    obtain ⟨hspelled, hloc⟩ := hhyps h₀ (by simp)
    have hplaced : Placed places (some h₀.loc) := ⟨_, hloc, rfl⟩
    have hparam : ∀ p ∈ [h₀.param], Annotates systemF p.2 := by
      simpa using ⟨h₀.formula, hspelled, rfl⟩
    cases h with
    | @last _ _ _ _ s₁ s₂ s₃ s₄ _ body ret tparams htype hdeclare hrun hbody hexit =>
      have hopen : Declared _ s s₃ :=
        (typeOf_enter_declared htype).trans ((declare_declared hdeclare).trans hrun.declared)
      obtain ⟨⟨names, hnames⟩, hformed, hret⟩ := hproof (hopen.ready hs).1 hbody
      refine ⟨⟨_, (hopen.trans hnames).trans (exit_declared hexit)⟩, ?_⟩
      refine ⟨hplaced, escaped_of_exit hexit, by simp, hparam, ?_, hformed⟩
      cases goal with
      | none => exact hret
      | some g => simpa using ⟨g, hgoal g rfl, rfl⟩
    | @more _ _ _ h₁ more _ _ s₂ _ _ inner tparams htype hdeclare hinner hexit =>
      have hopen : Declared _ s s₂ :=
        (typeOf_enter_declared htype).trans (declare_declared hdeclare)
      obtain ⟨⟨names, hnames⟩, hformed⟩ :=
        ih hinner (hopen.ready hs).1 fun h hh => hhyps h (List.mem_cons_of_mem _ hh)
      refine ⟨⟨_, (hopen.trans hnames).trans (exit_declared hexit)⟩, ?_⟩
      exact ⟨hplaced, escaped_of_exit hexit, by simp, hparam, by simp, hformed⟩

/-- A step becomes a constant. -/
theorem constant_formed {claim : Claim} (loc : Location) {s₁ s₂ : State} {value : Expr}
    (hhead : stepHead claim c s = (.ok (claim.binding, claim.annotation), s₁))
    (hclaim : claim.formula.isHole = true ∨ claim.formula.SpelledIn systemF)
    (hvalue : Declared [] s₁ s₂ ∧ value.Formed systemF places)
    (hdeclare : declare claim.binding claim.loc c s₂ = (.ok (), s')) :
    Declared [claim.binding] s s' ∧
      (Stmt.const claim.binding claim.annotation value false false none (some loc)).Formed systemF
        places := by
  have hopen : Declared [] s s₁ := (sameScopes_motion.stepHead _ _ _ _ _ hhead).declares
  refine ⟨(hopen.trans hvalue.1).trans (declare_declared hdeclare), rfl, rfl, ?_, hvalue.2⟩
  intro t ht
  cases hhole : claim.formula.isHole with
  | true => simp [Claim.annotation, Claim.stated?, hhole] at ht
  | false =>
    obtain rfl : claim.formula.typeExpr = t := by
      simpa [Claim.annotation, Claim.stated?, hhole] using ht
    exact ⟨claim.formula, hclaim.resolve_left (by simp [hhole]), rfl⟩

mutual

theorem ProofRun.formed {c : Context} {s s' : State} {systemF declared : Bool}
    {places : List Location} {body : Body} {ret : Option TypeExpr} (hs : Ready s) :
    (p : Proof) → p.Spelled systemF → p.places ⊆ places → ProofRun c declared p s body ret s' →
      FormsProof systemF places s s' body ret
  | .mk st _, hp, hplaces, .steps hrecord hsteps => by
    have hopen : Declared [] s _ := (sameScopes_motion.recordSteps _ _ _ _ _ hrecord).declares
    obtain ⟨hnames, hstmts, hvalue, hret⟩ :=
      StepsRun.formed st hp (List.subset_of_cons_subset hplaces) hsteps
    have hnodup := (hnames.ready (hopen.ready hs).1).2
    exact ⟨⟨_, hopen.trans hnames⟩, formed_bodyOf hstmts hnodup hvalue, hret⟩

theorem StepsRun.formed {c : Context} {s s' : State} {systemF declared : Bool}
    {places : List Location} {stmts : List Stmt} {value : Expr} {ret : Option TypeExpr} :
    (st : Steps) → st.Spelled systemF → st.places ⊆ places →
      StepsRun c declared st s stmts value ret s' →
      Declared (constants stmts) s s' ∧ (∀ st ∈ stmts, st.Formed systemF places) ∧
        value.Formed systemF places ∧ ∀ t ∈ ret, Annotates systemF t
  | .last st, hst, hplaces, .last hfinal => FinalRun.formed st hst hplaces hfinal
  | .conclude j _, hj, hplaces, .conclude hrun => by
    obtain ⟨hnames, hvalue⟩ := JustificationRun.formed j hj (List.subset_of_cons_subset hplaces) hrun
    exact ⟨hnames, by simp, hvalue, by simp⟩
  | .more st rest, hst, hplaces, .more hrun hrest => by
    rw [Steps.places, List.append_subset] at hplaces
    obtain ⟨hnames, hstmt⟩ := StatementRun.formed st hst.1 hplaces.1 hrun
    obtain ⟨hmore, hstmts, hvalue, hret⟩ := StepsRun.formed rest hst.2 hplaces.2 hrest
    refine ⟨?_, List.forall_mem_cons.mpr ⟨hstmt, hstmts⟩, hvalue, hret⟩
    rw [constants_cons]
    exact hnames.trans hmore

theorem FinalRun.formed {c : Context} {s s' : State} {systemF declared : Bool}
    {places : List Location} {stmts : List Stmt} {value : Expr} {ret : Option TypeExpr} :
    (st : Statement) → st.Spelled systemF → st.places ⊆ places →
      FinalRun c declared st s stmts value ret s' →
      Declared (constants stmts) s s' ∧ (∀ st ∈ stmts, st.Formed systemF places) ∧
        value.Formed systemF places ∧ ∀ t ∈ ret, Annotates systemF t
  | .block b, hb, hplaces, .block hrun => by
    obtain ⟨hnames, hvalue⟩ := BlockRun.formed b hb hplaces hrun
    exact ⟨hnames, by simp, hvalue, by simp⟩
  | .step claim j loc, hst, hplaces, .hole _ hrun => by
    rw [Statement.places, List.cons_subset, List.append_subset] at hplaces
    obtain ⟨hnames, hvalue⟩ := JustificationRun.formed j hst.2 hplaces.2.2 hrun
    exact ⟨hnames, by simp, hvalue, by simp⟩
  | .step claim j loc, hst, hplaces, .bound _ (.step hhead hrun hdeclare) => by
    rw [Statement.places, List.cons_subset, List.append_subset] at hplaces
    have hvalue := JustificationRun.formed j hst.2 hplaces.2.2 hrun
    obtain ⟨hnames, hstmt⟩ := constant_formed loc hhead hst.1 hvalue hdeclare
    exact ⟨hnames, by simpa using hstmt, ⟨loc, hplaces.1, rfl⟩, by simp⟩
  | .step claim j loc, hst, hplaces, .returned hhole htype hrun => by
    rw [Statement.places, List.cons_subset, List.append_subset] at hplaces
    have hopen := typeOf_declared htype
    obtain ⟨hnames, hvalue⟩ := JustificationRun.formed j hst.2 hplaces.2.2 hrun
    refine ⟨hopen.trans hnames, by simp, hvalue, ?_⟩
    simpa using ⟨claim.formula, hst.1.resolve_left (by simp [hhole]), rfl⟩

theorem StatementRun.formed {c : Context} {s s' : State} {systemF : Bool}
    {places : List Location} {stmt : Stmt} :
    (st : Statement) → st.Spelled systemF → st.places ⊆ places → StatementRun c st s stmt s' →
      Declared stmt.constant?.toList s s' ∧ stmt.Formed systemF places
  | .block b, hb, hplaces, .block hrun => BlockRun.formed b hb hplaces hrun
  | .step claim j loc, hst, hplaces, .step hhead hrun hdeclare => by
    rw [Statement.places, List.cons_subset, List.append_subset] at hplaces
    have hvalue := JustificationRun.formed j hst.2 hplaces.2.2 hrun
    exact constant_formed _ hhead hst.1 hvalue hdeclare

theorem JustificationRun.formed {c : Context} {s s' : State} {systemF : Bool}
    {places : List Location} {value : Expr} :
    (j : Justification) → j.Spelled systemF → j.places ⊆ places → JustificationRun c j s value s' →
      Declared [] s s' ∧ value.Formed systemF places
  | .apply _ _ _, hj, hplaces, .apply h =>
    ⟨(sameScopes_motion.application _ _ _ _ _ _ _ h).declares, application_formed h hj hplaces⟩
  | .block b, hb, hplaces, .block hrun => BlockRun.formed b hb hplaces hrun

theorem BlockRun.formed {c : Context} {s s' : State} {systemF : Bool} {places : List Location}
    {value : Expr} :
    (b : Block) → b.Spelled systemF → b.places ⊆ places → BlockRun c b s value s' →
      Declared [] s s' ∧ value.Formed systemF places
  | .assume hyps p loc, hb, hplaces, .assume hnest => by
    rw [Block.places, List.cons_subset, List.append_subset] at hplaces
    have hhyps : ∀ h ∈ hyps, h.formula.SpelledIn systemF ∧ h.loc ∈ places := fun h hh =>
      ⟨hb.1 h hh, hplaces.2.1 (List.mem_flatMap.mpr ⟨h, hh, by simp [Claim.places]⟩)⟩
    obtain ⟨⟨names, hnames⟩, hformed⟩ := hnest.formed (ready_of_push rfl) hhyps (by simp)
      fun hs => ProofRun.formed hs p hb.2 hplaces.2.2
    exact ⟨SameScopes.declares (hnames.pop rfl), hformed⟩
  | .generalize vars p loc, hb, hplaces, .generalize hvars hp hunbind => by
    rw [Block.places, List.cons_subset] at hplaces
    obtain ⟨⟨names, hnames⟩, hformed, hret⟩ := ProofRun.formed (ready_of_push rfl) p hb.2 hplaces.2 hp
    obtain rfl := unbindNames_eq_ok hunbind
    exact ⟨SameScopes.declares (hnames.pop rfl), formed_quantify hvars hplaces.1 hformed hret⟩

end

/-! ## Theorems -/

theorem TheoremRun.formed {t : Theorem} {e : Expr} (h : TheoremRun c t s e s') (hs : Ready s)
    (ht : t.Spelled systemF) (hplaces : t.places ⊆ places) :
    (∃ names, Declared names s s') ∧ e.Formed systemF places := by
  rw [Theorem.places, List.cons_subset, List.append_subset] at hplaces
  obtain ⟨hloc, -, hproof⟩ := hplaces
  cases h with
  | @sequent hyps p _ _ _ hsequent hnest =>
    obtain ⟨hhyps, hp⟩ := ht.sequent hsequent
    obtain ⟨_, _, hform⟩ := sequent?_eq_some hsequent
    rw [hform, Proof.places, List.cons_subset, Steps.places, Statement.places, Block.places,
      List.cons_subset, List.append_subset] at hproof
    obtain ⟨-, -, hhypsPlaces, hpPlaces⟩ := hproof
    refine hnest.formed hs ?_ (by simpa using ht.1) fun hs => ProofRun.formed hs p hp hpPlaces
    exact fun h hh => ⟨hhyps h hh, hhypsPlaces (List.mem_flatMap.mpr ⟨h, hh, by simp [Claim.places]⟩)⟩
  | @implication _ s₁ _ _ body ret tparams _ htype hrun hexit =>
    have hopen := typeOf_enter_declared htype
    obtain ⟨⟨names, hnames⟩, hbody, -⟩ := ProofRun.formed (hopen.ready hs).1 t.proof ht.2 hproof hrun
    refine ⟨⟨_, (hopen.trans hnames).trans (exit_declared hexit)⟩, ?_⟩
    refine ⟨⟨_, hloc, rfl⟩, escaped_of_exit hexit, by simp, by simp, ?_, hbody⟩
    simpa using ⟨t.claim.formula, ht.1, rfl⟩

theorem formed_decl {t : Theorem} {arrow : Expr} (h : arrow.Formed systemF places) :
    (t.decl arrow).Formed systemF places := by
  unfold Theorem.decl
  split
  · exact h
  · exact ⟨rfl, rfl, by simp, h⟩

/-- A theorem declares its name, which is new and no rule of the library. -/
theorem NameRun.declared {t : Theorem} (h : NameRun c t s s') (hs : s.scopes = []) (arrow : Expr) :
    s'.scopes = [] ∧
      s'.declared.map Prod.fst = s.declared.map Prod.fst ++ (t.decl arrow).constant?.toList ∧
      ((s.declared.map Prod.fst).Nodup → (s'.declared.map Prod.fst).Nodup) ∧
      ∀ name ∈ (t.decl arrow).constant?, Library.findRule? name = none := by
  cases h with
  | anonymous hname => simp [Theorem.decl, hname, Stmt.constant?, hs]
  | @named name mid thunks hname hrule hdeclare =>
    have hnew : name ∉ s.declared.map Prod.fst := by
      simpa [State.taken, hs] using not_mem_taken_of_declare hdeclare
    obtain rfl := declare_eq_ok_of_nil hs hdeclare
    refine ⟨hs, ?_, fun hnodup => nodup_append_name _ hnodup hnew, ?_⟩
    · simp [Theorem.decl, hname, Stmt.constant?]
    · simpa [Theorem.decl, hname, Stmt.constant?] using hrule

/-- The declarations of theorems have the form that is generated. Their names are distinct, and none
is a rule of the library. -/
theorem formed_theoremDecls {ts : List Theorem} {decls : List Stmt}
    (hts : ∀ t ∈ ts, t.Spelled systemF) (hplaces : ts.flatMap Theorem.places ⊆ places)
    (hs : s.scopes = []) (hnodup : (s.declared.map Prod.fst).Nodup)
    (h : theoremDecls ts c s = (.ok decls, s')) :
    (∀ st ∈ decls, st.Formed systemF places) ∧
      (s.declared.map Prod.fst ++ constants decls).Nodup ∧
      ∀ name ∈ constants decls, Library.findRule? name = none := by
  induction ts generalizing s decls with
  | nil =>
    obtain ⟨rfl, -⟩ := pure_eq_ok.mp h
    simpa [constants] using hnodup
  | cons t rest ih =>
    rw [List.flatMap_cons, List.append_subset] at hplaces
    obtain ⟨decl, more, mid, rfl, hdecl, -, hmore⟩ := theoremDecls_cons_eq_ok h
    obtain ⟨arrow, last, hrun, rfl, hname⟩ := theoremDecl_eq_ok hdecl
    obtain ⟨⟨names, hnames⟩, harrow⟩ := hrun.formed (ready_of_push rfl) (hts t (by simp)) hplaces.1
    obtain ⟨hscopes, hdeclared⟩ := hnames.pop rfl
    obtain ⟨hmid, hmidDeclared, hmidNodup, hrule⟩ := hname.declared (hscopes.trans hs) arrow
    dsimp only at hdeclared hmidDeclared hmidNodup
    rw [hdeclared] at hmidDeclared hmidNodup
    obtain ⟨hformed, hdistinct, hrules⟩ :=
      ih (fun u hu => hts u (by simp [hu])) hplaces.2 hmid (hmidNodup hnodup) hmore
    rw [hmidDeclared, List.append_assoc, ← constants_cons] at hdistinct
    refine ⟨List.forall_mem_cons.mpr ⟨formed_decl harrow, hformed⟩, hdistinct, ?_⟩
    intro name hmem
    rw [constants_cons, List.mem_append, Option.mem_toList] at hmem
    rcases hmem with hmem | hmem
    · exact hrule name hmem
    · exact hrules name hmem

end Generate

end ProofScript
