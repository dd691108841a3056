import ProofScript.Proofs.Formation

/-!
# Names that are bound twice

A scope of a document is the list of its theorems, the proof of a theorem or of a generalization, or
the proof of an assumption together with the hypotheses. It binds a name for each hypothesis, for each
step before the final one, and for a final step with a name of its own. Generation refuses to declare
a name twice in a scope, but it declares a final step only where the claim of the step becomes a
constant. So a scope binds a name twice exactly if a final step that becomes no constant has the name
of another binding.
-/

namespace ProofScript

open Program

/-! ## Scopes of a document -/

/-- What a proof binds: the names of its hypotheses and of the steps before the final one, the name
that the script gives to the final step, and whether this step becomes a constant. -/
structure BindingScope where
  names : List String
  final : Option String
  keeps : Bool
deriving DecidableEq, Repr

/-- Is no name bound twice? -/
def BindingScope.once (sc : BindingScope) : Bool := (sc.names ++ sc.final.toList).Nodup

/-- Is the final step a constant, or its name not bound before? -/
def BindingScope.endsFresh (sc : BindingScope) : Bool :=
  sc.keeps || sc.final.all (· ∉ sc.names)

/-- The names of the steps before the final one. -/
def Steps.leading : Steps → List String
  | .last _ => []
  | .conclude _ _ => []
  | .more s rest => s.binding?.toList ++ rest.leading

/-- The claim of the final step, if it is a step. -/
def Steps.finalClaim? : Steps → Option Claim
  | .last (.step c _ _) => some c
  | .last _ => none
  | .conclude _ _ => none
  | .more _ rest => rest.finalClaim?

/-- Does the final step become a constant? It does if it states a proposition and the function around
has a return type already. -/
def Steps.keepsFinal (typed : Bool) (st : Steps) : Bool :=
  typed && st.finalClaim?.any fun c => !c.formula.isHole

/-- The scope of steps under hypotheses. -/
def Steps.scope (typed : Bool) (hyps : List String) (st : Steps) : BindingScope where
  names := hyps ++ st.leading
  final := st.finalClaim?.bind fun c => c.name.map escapeIdent
  keeps := st.keepsFinal typed

mutual

/-- The scopes of a proof under hypotheses, its own first. -/
def Proof.scopes (typed : Bool) (hyps : List String) : Proof → List BindingScope
  | .mk st _ => st.scope typed hyps :: st.innerScopes

/-- The scopes of the blocks in steps. -/
def Steps.innerScopes : Steps → List BindingScope
  | .last s => s.innerScopes
  | .conclude j _ => j.innerScopes
  | .more s rest => s.innerScopes ++ rest.innerScopes

/-- The scopes of the blocks in a statement. -/
def Statement.innerScopes : Statement → List BindingScope
  | .missing => []
  | .step _ j _ => j.innerScopes
  | .block b => b.scopes

/-- The scopes of the blocks in a justification. -/
def Justification.innerScopes : Justification → List BindingScope
  | .missing => []
  | .apply .. => []
  | .block b => b.scopes

/-- The scopes of a block. The function that it becomes has no return type of its own. -/
def Block.scopes : Block → List BindingScope
  | .assume hyps p _ => p.scopes false (hyps.map Claim.binding)
  | .generalize _ p _ => p.scopes false []

end

/-- The scopes of a theorem. Where its hypotheses are parameters, they are bound in the scope of the
proof below them. -/
def Theorem.scopes (t : Theorem) : List BindingScope :=
  match Generate.sequent? t with
  | some (hyps, p) => p.scopes true (hyps.map Claim.binding)
  | none => t.proof.scopes true []

/-- The scopes of a document but for the list of its theorems. -/
def Document.scopes (d : Document) : List BindingScope := d.theorems.flatMap Theorem.scopes

/-- The names of the theorems of a document. -/
def Document.theoremNames (d : Document) : List String := d.theorems.filterMap Theorem.binding?

/-- Does no scope of the document bind a name twice? -/
def Document.bindsOnce (d : Document) : Bool :=
  decide d.theoremNames.Nodup && d.scopes.all BindingScope.once

/-- Does no final step that becomes no constant have the name of another binding of its scope? -/
def Document.endsFresh (d : Document) : Bool := d.scopes.all BindingScope.endsFresh

/-- A scope declares no name twice: that of the final step counts if this becomes a constant. -/
def BindingScope.Distinct (sc : BindingScope) : Prop :=
  sc.names.Nodup ∧ (sc.keeps = true → sc.once = true)

/-- A scope that declares no name twice binds one twice only by a final step that is no constant. -/
theorem BindingScope.Distinct.once_eq {sc : BindingScope} (h : sc.Distinct) :
    sc.once = sc.endsFresh := by
  obtain ⟨names, final, keeps⟩ := sc
  obtain ⟨hnames, hkeeps⟩ := h
  cases keeps with
  | true => exact hkeeps rfl
  | false =>
    have hnodup : names.Nodup := hnames
    cases final with
    | none => simp [once, endsFresh, hnodup]
    | some name =>
      have hperm : (names ++ [name]).Perm (name :: names) := List.perm_append_singleton name names
      simp [once, endsFresh, hperm.nodup_iff, hnodup]

/-- Steps declare the names of those before the final one, and the final one where it is a constant. -/
theorem Steps.bindings_eq (typed : Bool) : (st : Steps) → st.bindings typed = st.leading ++
    if st.keepsFinal typed then st.finalClaim?.toList.map Claim.binding else []
  | .last .missing => by cases typed <;> rfl
  | .last (.block b) => by cases typed <;> rfl
  | .last (.step claim j loc) => by simp [bindings, leading, keepsFinal, finalClaim?]
  | .conclude j loc => by cases typed <;> rfl
  | .more s rest => by
    rw [bindings, bindings_eq typed rest, leading, keepsFinal, finalClaim?, List.append_assoc]
    rfl

/-- Where the names that steps declare are distinct, the scope of the steps is. -/
theorem Steps.distinct_scope {typed : Bool} {hyps : List String} {st : Steps}
    (h : (hyps ++ st.bindings typed).Nodup) : (st.scope typed hyps).Distinct := by
  rw [bindings_eq, ← List.append_assoc] at h
  refine ⟨(List.nodup_append.mp h).1, fun hkeeps => decide_eq_true ?_⟩
  have hkeeps : st.keepsFinal typed = true := hkeeps
  rw [if_pos hkeeps] at h
  refine h.sublist (List.Sublist.append_left ?_ _)
  cases hfinal : st.finalClaim? with
  | none => simp [scope, hfinal]
  | some claim =>
    obtain ⟨name, f, loc⟩ := claim
    cases name <;> simp [scope, hfinal, Claim.binding]

namespace Generate

variable {c : Context} {s s' : State}

/-! ## Scopes are declared -/

/-- Nested arrows declare their hypotheses, and behind them what the proof declares. -/
theorem NestRun.declared {goal : Option Formula} {p : Proof} {hyps : List Claim} {e : Expr}
    {names : List String} {Q : Prop} (h : NestRun c goal p hyps s e s')
    (hproof : ∀ {s s' body ret}, ProofRun c goal.isSome p s body ret s' →
      Declared names s s' ∧ Q) :
    Declared (hyps.map Claim.binding ++ names) s s' ∧ Q := by
  induction hyps generalizing s s' e with
  | nil => cases h
  | cons h₀ rest ih =>
    cases h with
    | last htype hdeclare hrun hbody hexit =>
      have hopen := (typeOf_enter_declared htype).trans ((declare_declared hdeclare).trans hrun.declared)
      obtain ⟨hnames, hq⟩ := hproof hbody
      have hall := (hopen.trans hnames).trans (exit_declared hexit)
      exact ⟨by simpa using hall, hq⟩
    | more htype hdeclare hinner hexit =>
      have hopen := (typeOf_enter_declared htype).trans (declare_declared hdeclare)
      obtain ⟨hnames, hq⟩ := ih hinner
      have hall := (hopen.trans hnames).trans (exit_declared hexit)
      exact ⟨by simpa using hall, hq⟩

/-- A step declares its name behind its justification. -/
theorem step_declared {claim : Claim} {t : Option TypeExpr} {s₁ s₂ : State}
    (hhead : stepHead claim c s = (.ok (claim.binding, t), s₁)) (hvalue : Declared [] s₁ s₂)
    (hdeclare : declare claim.binding claim.loc c s₂ = (.ok (), s')) :
    Declared [claim.binding] s s' :=
  ((sameScopes_motion.stepHead _ _ _ _ _ hhead).declares.trans hvalue).trans
    (declare_declared hdeclare)

/-- The scope that a proof is generated in, and those inside it, declare no name twice. -/
theorem Declared.scopes {typed : Bool} {hyps : List String} {p : Proof} {scopes : List Scope}
    (h : Declared (hyps ++ p.steps.bindings typed) s s') (hs : s.scopes = [] :: scopes)
    (hinner : ∀ sc ∈ p.steps.innerScopes, sc.Distinct) :
    ∀ sc ∈ p.scopes typed hyps, sc.Distinct := by
  obtain ⟨st, loc⟩ := p
  have hnodup := (h.ready (ready_of_push hs)).2
  exact List.forall_mem_cons.mpr ⟨Steps.distinct_scope hnodup, hinner⟩

mutual

/-- A proof declares the names of its steps, and no scope inside it declares a name twice. -/
theorem ProofRun.distinct {c : Context} {s s' : State} {typed : Bool} {body : Body}
    {ret : Option TypeExpr} : (p : Proof) → ProofRun c typed p s body ret s' →
      Declared (p.steps.bindings typed) s s' ∧ ∀ sc ∈ p.steps.innerScopes, sc.Distinct
  | .mk st _, .steps hrecord hsteps => by
    have hopen := (sameScopes_motion.recordSteps _ _ _ _ _ hrecord).declares
    obtain ⟨hnames, hinner⟩ := StepsRun.distinct st hsteps
    exact ⟨hopen.trans hnames, hinner⟩

theorem StepsRun.distinct {c : Context} {s s' : State} {typed : Bool} {stmts : List Stmt}
    {value : Expr} {ret : Option TypeExpr} :
    (st : Steps) → StepsRun c typed st s stmts value ret s' →
      Declared (st.bindings typed) s s' ∧ ∀ sc ∈ st.innerScopes, sc.Distinct
  | .last st, .last hfinal => FinalRun.distinct st hfinal
  | .conclude j _, .conclude hrun => JustificationRun.distinct j hrun
  | .more st rest, .more hrun hrest => by
    obtain ⟨hname, hinner⟩ := StatementRun.distinct st hrun
    obtain ⟨hnames, hinners⟩ := StepsRun.distinct rest hrest
    exact ⟨hname.trans hnames, List.forall_mem_append.mpr ⟨hinner, hinners⟩⟩

theorem FinalRun.distinct {c : Context} {s s' : State} {typed : Bool} {stmts : List Stmt}
    {value : Expr} {ret : Option TypeExpr} :
    (st : Statement) → FinalRun c typed st s stmts value ret s' →
      Declared ((Steps.last st).bindings typed) s s' ∧ ∀ sc ∈ st.innerScopes, sc.Distinct
  | .block b, .block hrun => BlockRun.distinct b hrun
  | .step claim j _, .hole hhole hrun => by
    have hinner := JustificationRun.distinct j hrun
    rwa [Steps.bindings, hhole, Bool.not_true, Bool.and_false, if_neg Bool.false_ne_true]
  | .step claim j loc, .bound hhole (.step hhead hrun hdeclare) => by
    have hinner := JustificationRun.distinct j hrun
    rw [Steps.bindings, hhole, Bool.not_false, Bool.and_true, if_pos rfl]
    exact ⟨step_declared hhead hinner.1 hdeclare, hinner.2⟩
  | .step claim j _, .returned _ htype hrun => by
    obtain ⟨hnames, hinner⟩ := JustificationRun.distinct j hrun
    exact ⟨(typeOf_declared htype).trans hnames, hinner⟩

theorem StatementRun.distinct {c : Context} {s s' : State} {stmt : Stmt} :
    (st : Statement) → StatementRun c st s stmt s' →
      Declared st.binding?.toList s s' ∧ ∀ sc ∈ st.innerScopes, sc.Distinct
  | .block b, .block hrun => BlockRun.distinct b hrun
  | .step claim j _, .step hhead hrun hdeclare => by
    have hinner := JustificationRun.distinct j hrun
    exact ⟨step_declared hhead hinner.1 hdeclare, hinner.2⟩

theorem JustificationRun.distinct {c : Context} {s s' : State} {value : Expr} :
    (j : Justification) → JustificationRun c j s value s' →
      Declared [] s s' ∧ ∀ sc ∈ j.innerScopes, sc.Distinct
  | .apply _ _ _, .apply h =>
    ⟨(sameScopes_motion.application _ _ _ _ _ _ _ h).declares, by simp [Justification.innerScopes]⟩
  | .block b, .block hrun => BlockRun.distinct b hrun

theorem BlockRun.distinct {c : Context} {s s' : State} {value : Expr} :
    (b : Block) → BlockRun c b s value s' → Declared [] s s' ∧ ∀ sc ∈ b.scopes, sc.Distinct
  | .assume hyps p _, .assume hnest => by
    obtain ⟨hnames, hinner⟩ := hnest.declared (ProofRun.distinct p)
    exact ⟨SameScopes.declares (hnames.pop rfl), hnames.scopes rfl hinner⟩
  | .generalize vars p _, .generalize hvars hp hunbind => by
    obtain ⟨hnames, hinner⟩ := ProofRun.distinct p hp
    obtain rfl := unbindNames_eq_ok hunbind
    exact ⟨SameScopes.declares (hnames.pop rfl), hnames.scopes rfl hinner⟩

end

/-! ## Theorems -/

/-- The function of a theorem declares its names in a scope of its own. -/
theorem TheoremRun.distinct {t : Theorem} {e : Expr} {scopes : List Scope}
    (h : TheoremRun c t s e s') (hs : s.scopes = [] :: scopes) :
    (∃ names, Declared names s s') ∧ ∀ sc ∈ t.scopes, sc.Distinct := by
  cases h with
  | sequent hsequent hnest =>
    obtain ⟨hnames, hinner⟩ := hnest.declared (ProofRun.distinct _)
    rw [Theorem.scopes, hsequent]
    exact ⟨⟨_, hnames⟩, hnames.scopes hs hinner⟩
  | implication hsequent htype hrun hexit =>
    obtain ⟨hnames, hinner⟩ := ProofRun.distinct t.proof hrun
    have hall := (typeOf_enter_declared htype).trans (hnames.trans (exit_declared hexit))
    rw [List.nil_append, List.append_nil] at hall
    rw [Theorem.scopes, hsequent]
    exact ⟨⟨_, hall⟩, hall.scopes hs hinner⟩

theorem distinct_theoremDecls {ts : List Theorem} {decls : List Stmt} (hs : s.scopes = [])
    (hnodup : (s.declared.map Prod.fst).Nodup) (h : theoremDecls ts c s = (.ok decls, s')) :
    (s.declared.map Prod.fst ++ ts.filterMap Theorem.binding?).Nodup ∧
      ∀ sc ∈ ts.flatMap Theorem.scopes, sc.Distinct := by
  induction ts generalizing s decls with
  | nil => simpa using hnodup
  | cons t rest ih =>
    obtain ⟨decl, more, mid, rfl, hdecl, -, hmore⟩ := theoremDecls_cons_eq_ok h
    obtain ⟨arrow, last, hrun, rfl, hname⟩ := theoremDecl_eq_ok hdecl
    obtain ⟨⟨names, hnames⟩, hscopes⟩ := hrun.distinct rfl
    obtain ⟨houter, hdeclared⟩ := hnames.pop rfl
    obtain ⟨hmid, hmidDeclared, hmidNodup, -⟩ := hname.declared (houter.trans hs) arrow
    dsimp only at hdeclared hmidDeclared hmidNodup
    rw [hdeclared] at hmidDeclared hmidNodup
    obtain ⟨hdistinct, hinner⟩ := ih hmid (hmidNodup hnodup) hmore
    have hbinding : (t.decl arrow).constant? = t.binding? := by
      unfold Theorem.decl Theorem.binding?
      cases t.claim.name <;> rfl
    have hcons : (t :: rest).filterMap Theorem.binding? =
        t.binding?.toList ++ rest.filterMap Theorem.binding? := by
      cases hb : t.binding? <;> simp [hb]
    rw [hmidDeclared, hbinding, List.append_assoc, ← hcons] at hdistinct
    rw [List.flatMap_cons, List.forall_mem_append]
    exact ⟨hdistinct, hscopes, hinner⟩

end Generate

/-- A document that a program is generated for declares no name twice in a scope: neither the names of
theorems, hypotheses and steps before the final one, nor that of a final step that becomes a constant.
So a scope binds a name twice exactly if a final step that becomes none has the name of another
binding. -/
theorem Document.generate_bindsOnce {d : Document} {systemF : Bool} {decls : List Stmt}
    {s : Generate.State} (h : d.generate systemF = (.ok decls, s)) :
    d.theoremNames.Nodup ∧ (∀ sc ∈ d.scopes, sc.Distinct) ∧ d.bindsOnce = d.endsFresh := by
  have hempty : (Generate.State.empty.declared.map Prod.fst).Nodup := List.nodup_nil
  obtain ⟨hnames, hscopes⟩ := Generate.distinct_theoremDecls rfl hempty h
  have hnames : d.theoremNames.Nodup := hnames
  have honce : d.scopes.all BindingScope.once = d.scopes.all BindingScope.endsFresh := by
    rw [Bool.eq_iff_iff, List.all_eq_true, List.all_eq_true]
    exact forall₂_congr fun sc hsc => by rw [(hscopes sc hsc).once_eq]
  refine ⟨hnames, hscopes, ?_⟩
  rw [bindsOnce, decide_eq_true hnames, Bool.true_and, endsFresh, honce]

/-- The final step of the block, which becomes the value of a function, is named like the hypothesis
of the block. -/
theorem Document.generate_bindsOnce_final :
    ∃ d decls s, parse (Text.bytes "theorem t : P => P
      assume p : P \x7b have p : P by id p; \x7d") false = .ok d ∧
      d.generate false = (.ok decls, s) ∧ d.bindsOnce = false := by
  generalize hsrc : Text.bytes _ = src
  have hgenerates : (parse src false).toOption.any
      (fun d => (d.generate false).1.isOk && !d.endsFresh) = true := by
    rw [← hsrc]
    decide +kernel
  obtain ⟨d, hparse, hd⟩ := exists_ok_of_any hgenerates
  cases hrun : d.generate false with
  | mk result s =>
    cases result with
    | error e => simp [hrun, Except.isOk, Except.toBool] at hd
    | ok decls =>
      refine ⟨d, decls, s, hparse, hrun, ?_⟩
      rw [(Document.generate_bindsOnce hrun).2.2]
      simpa [hrun, Except.isOk, Except.toBool] using hd

end ProofScript
