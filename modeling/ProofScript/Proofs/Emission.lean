import ProofScript.Proofs.Checking.Steps
import ProofScript.Proofs.Generation
import ProofScript.Proofs.Translation

/-!
# What is generated

No part of a generated declaration fits everywhere or is trusted. The declaration of a theorem nests
arrows, one for each of its hypotheses, around a body that returns the type of its claim. A rule
that was used raised its warning.
-/

namespace ProofScript

open Program

namespace Generate

variable {α β : Type} {c : Context} {s s' : State}

/-- Every rule that was used raised its warning. -/
def Candid (s : State) : Prop :=
  ∀ name ∈ s.used, ∀ p, Library.find? name = some p → ∀ message ∈ p.warning,
    ∃ w ∈ s.warnings, w.message = message

theorem Candid.of_subset (h : Candid s) (hused : s'.used ⊆ s.used)
    (hwarnings : s.warnings ⊆ s'.warnings) : Candid s' := by
  intro name hname p hp message hmessage
  rcases h name (hused hname) p hp message hmessage with ⟨w, hw, heq⟩
  exact ⟨w, hwarnings hw, heq⟩

theorem candid_motion : Motion fun s s' => Candid s → Candid s' where
  refl _ := id
  trans h h' := fun hs => h' (h hs)
  frames _ _ := fun hs => hs.of_subset (fun _ => id) fun _ => id
  warn loc message := by
    intro c s u s' h hs
    have hreported := warn_reported h
    refine hs.of_subset ?_ hreported.kept
    intro name hname
    exact (hreported.used name hname).resolve_right (by simp)
  useRule name p loc hp := by
    intro c s u s' h hs
    have hreported := useRule_reported h
    intro n hn q hq message hmessage
    rcases hreported.used n hn with hn | hn
    · rcases hs n hn q hq message hmessage with ⟨w, hw, heq⟩
      exact ⟨w, hreported.kept hw, heq⟩
    · have hfind : Library.find? name = some p := (Option.filter_eq_some_iff.mp hp).1
      have hname : p.name = name := by simpa using List.find?_some hfind
      obtain rfl : p = q := by
        rw [List.mem_singleton.mp hn, hname, hfind] at hq
        exact Option.some.inj hq
      exact ⟨⟨loc, message⟩, hreported.raised (by simpa using hmessage), rfl⟩

/-- Where the step succeeds, its value has the property, and rules that were used raised their
warnings if they did before. -/
def Emits (P : α → Prop) (f : Generate α) : Prop :=
  ∀ c s a s', f c s = (.ok a, s') → P a ∧ (Candid s → Candid s')

namespace Emits

variable {P : α → Prop} {Q : β → Prop}

theorem of_moves {f : Generate α} (hf : Moves (fun s s' => Candid s → Candid s') f)
    (hP : ∀ c s a s', f c s = (.ok a, s') → P a) : Emits P f :=
  fun c s a s' h => ⟨hP c s a s' h, hf c s a s' h⟩

theorem pure {a : α} (h : P a) : Emits P (pure a : Generate α) := by
  intro c s b s' hrun
  obtain ⟨rfl, rfl⟩ := pure_eq_ok.mp hrun
  exact ⟨h, id⟩

theorem bind {f : Generate α} {g : α → Generate β} (hf : Emits P f)
    (hg : ∀ a, P a → Emits Q (g a)) : Emits Q (f >>= g) := by
  intro c s b s' hrun
  obtain ⟨a, mid, ha, hb⟩ := bind_eq_ok.mp hrun
  rcases hf c s a mid ha with ⟨hP, hfirst⟩
  rcases hg a hP c mid b s' hb with ⟨hQ, hsecond⟩
  exact ⟨hQ, fun hs => hsecond (hfirst hs)⟩

theorem bind_pure {f : Generate α} {g : α → β} (hf : Emits P f) (hg : ∀ a, P a → Q (g a)) :
    Emits Q (f >>= fun a => Pure.pure (g a)) :=
  hf.bind fun a ha => pure (hg a ha)

theorem fail (loc : Location) (cause : GenerateCause) :
    Emits P (Generate.fail loc cause : Generate α) :=
  fun _ _ _ _ h => absurd h fail_ne_ok

theorem broken (f : Fault) : Emits P (Generate.broken f : Generate α) :=
  fun _ _ _ _ h => absurd h broken_ne_ok

/-- A step whose value does not matter. -/
theorem then_ {f : Generate α} {g : α → Generate β}
    (hf : Moves (fun s s' => Candid s → Candid s') f) (hg : ∀ a, Emits Q (g a)) :
    Emits Q (f >>= g) :=
  bind (P := fun _ => True) (of_moves hf fun _ _ _ _ _ => trivial) fun a _ => hg a

end Emits

/-- A step that changes neither the used rules nor the warnings. -/
theorem moves_modify {f : State → State} (hused : ∀ s, (f s).used = s.used)
    (hwarnings : ∀ s, (f s).warnings = s.warnings) :
    Moves (fun s s' => Candid s → Candid s') (modify f : Generate PUnit) := by
  intro c s u s' h hs
  obtain rfl := modify_eq_ok.mp h
  exact hs.of_subset (by rw [hused]; exact fun _ => id) (by rw [hwarnings]; exact fun _ => id)

theorem moves_declare (name : String) (loc : Location) :
    Moves (fun s s' => Candid s → Candid s') (declare name loc) := by
  intro c s u s' h hs
  cases hscopes : s.scopes with
  | nil =>
    rw [declare_eq_ok_of_nil hscopes h]
    exact hs.of_subset (fun _ => id) fun _ => id
  | cons top rest =>
    rw [declare_eq_ok hscopes h]
    exact hs.of_subset (fun _ => id) fun _ => id

/-! ## Propositions and rules -/

theorem typeOf_emits (f : Formula) : Emits (· = f.typeExpr) (typeOf f) := by
  induction f with
  | hole => exact .broken _
  | atom name args loc =>
    refine .then_ (candid_motion.onFrames _) fun _ => ?_
    cases args with
    | nil => exact .pure rfl
    | cons arg rest =>
      dsimp only
      split
      · exact .then_ (candid_motion.onFrames _) fun _ => .pure rfl
      · refine .then_ (candid_motion.warn _ _) fun _ => ?_
        exact .then_ (candid_motion.onFrames _) fun _ => .pure rfl
  | neg a _ ih => exact ih.bind_pure fun t ht => by rw [ht, Formula.typeExpr]
  | conj a b _ iha ihb =>
    exact iha.bind fun ta ha => ihb.bind_pure fun tb hb => by rw [ha, hb, Formula.typeExpr]
  | disj a b _ iha ihb =>
    exact iha.bind fun ta ha => ihb.bind_pure fun tb hb => by rw [ha, hb, Formula.typeExpr]
  | impl a b _ iha ihb =>
    exact iha.bind fun ta ha => ihb.bind_pure fun tb hb => by rw [ha, hb, Formula.typeExpr]
  | all vars a _ ih =>
    refine .then_ (candid_motion.onFrames _) fun _ => ih.bind fun t ht => ?_
    refine .then_ (candid_motion.onFrames _) fun _ => .pure ?_
    rw [ht, Formula.typeExpr]

theorem plain_typeExpr (f : Formula) : f.typeExpr.plain = true := by
  induction f with
  | hole => rfl
  | atom name args loc =>
    cases args with
    | nil => rfl
    | cons arg rest => rfl
  | neg a _ ih => simp [Formula.typeExpr, TypeExpr.plain, TypeExpr.plainAll, ih]
  | conj a b _ iha ihb => simp [Formula.typeExpr, TypeExpr.plain, TypeExpr.plainAll, iha, ihb]
  | disj a b _ iha ihb => simp [Formula.typeExpr, TypeExpr.plain, TypeExpr.plainAll, iha, ihb]
  | impl a b _ iha ihb => simp [Formula.typeExpr, TypeExpr.plain, TypeExpr.plainAll, iha, ihb]
  | all vars a _ ih =>
    rw [Formula.typeExpr]
    induction vars with
    | nil => exact ih
    | cons x xs hxs => simpa [TypeExpr.plain, TypeExpr.plainParams] using hxs

theorem reference_emits (name : String) (loc : Location) :
    Emits (fun e => e.plain = true) (reference name loc) := by
  refine .of_moves (candid_motion.reference name loc) ?_
  intro c s e s' h
  rcases (reference_eq_ok h).1 with rfl | rfl
  · rfl
  · rfl

theorem argument_emits (a : Argument) : Emits (fun e => e.plain = true) (argument a) := by
  cases a with
  | fact name loc => exact reference_emits name loc
  | prop f =>
    cases f with
    | hole => exact .broken _
    | _ => exact .then_ (candid_motion.typeOf _) fun _ => .pure rfl

theorem applyAll_emits {fn : Expr} (hfn : fn.plain = true) (args : List Argument) :
    Emits (fun e => e.plain = true) (applyAll fn args) := by
  induction args generalizing fn with
  | nil => exact .pure hfn
  | cons a rest ih =>
    refine (argument_emits a).bind fun x hx => ih ?_
    simp [Expr.plain, Expr.plainAll, TypeExpr.plainAll, hfn, hx]

theorem application_emits (rule : String) (args : List Argument) (loc : Location) :
    Emits (fun e => e.plain = true) (application rule args loc) := by
  refine .then_ candid_motion.read fun _ => ?_
  split
  · unfold Generate.instantiate
    split
    · exact .fail _ _
    · refine (reference_emits _ _).bind fun fn hfn => (typeOf_emits _).bind_pure fun t ht => ?_
      simp [Expr.plain, Expr.plainAll, TypeExpr.plainAll, hfn, ht, plain_typeExpr]
    · exact .fail _ _
    · exact .fail _ _
  · exact (reference_emits rule loc).bind fun fn hfn => applyAll_emits hfn args

theorem stepHead_emits (claim : Claim) :
    Emits (fun r => r.2.all TypeExpr.plain = true) (stepHead claim) := by
  refine .of_moves (candid_motion.stepHead claim) ?_
  rintro c s ⟨name, t⟩ s' h
  rcases (stepHead_eq_ok h).2 with ⟨-, rfl, -⟩ | ⟨u, -, hu, rfl⟩
  · rfl
  · rw [(typeOf_emits _ _ _ _ _ hu).1]
    exact plain_typeExpr _

/-! ## Arrows -/

theorem exit_emits : Emits (fun names => ∀ n ∈ names, ∃ a, n = escapeTypeVar a) exit := by
  refine .then_ (candid_motion.onFrames _) fun names => .pure ?_
  intro n hn
  rcases List.mem_map.mp hn with ⟨a, -, rfl⟩
  exact ⟨a, rfl⟩

theorem hypotheses_emits (hyps : List Claim) :
    Emits (fun hs => hs.map (·.1.2) = hyps.map (·.formula.typeExpr)) (hypotheses hyps) := by
  induction hyps with
  | nil => exact .pure rfl
  | cons h rest ih =>
    refine .then_ (candid_motion.onFrames _) fun _ => (typeOf_emits _).bind fun t ht => ?_
    refine .then_ (moves_declare _ _) fun _ => ih.bind_pure fun hs hhs => ?_
    simp [ht, hhs]

theorem plain_of_hypotheses {hyps : List Claim} {hs : List Hypothesis}
    (h : hs.map (·.1.2) = hyps.map (·.formula.typeExpr)) : ∀ h ∈ hs, h.1.2.plain = true := by
  intro hyp hmem
  have htype : hyp.1.2 ∈ hyps.map (·.formula.typeExpr) := by
    rw [← h]
    exact List.mem_map_of_mem (f := fun h : Hypothesis => h.1.2) hmem
  rcases List.mem_map.mp htype with ⟨claim, -, heq⟩
  rw [← heq]
  exact plain_typeExpr _

/-- Arrows around a body that returns the type of a claim, one for each hypothesis. Without
hypotheses there is one arrow without parameters. Type parameters stand for atoms. -/
inductive Curried (claim : TypeExpr) : List TypeExpr → Expr → Prop
  | thunk {tparams body o} (hnames : ∀ n ∈ tparams, ∃ a, n = escapeTypeVar a) :
      Curried claim [] (.arrow tparams [] (some claim) body o)
  | last {tparams p body o} (hnames : ∀ n ∈ tparams, ∃ a, n = escapeTypeVar a) :
      Curried claim [p.2] (.arrow tparams [p] (some claim) body o)
  | more {tparams p hyps inner o} (hnames : ∀ n ∈ tparams, ∃ a, n = escapeTypeVar a)
      (hinner : Curried claim hyps inner) :
      Curried claim (p.2 :: hyps) (.arrow tparams [p] none (.expr inner) o)

theorem closeHypotheses_emits {ret : Option TypeExpr} {body : Body}
    (hret : ret.all TypeExpr.plain = true) (hbody : body.plain = true) {hs : List Hypothesis}
    (hhs : ∀ h ∈ hs, h.1.2.plain = true) :
    Emits (fun e => e.plain = true ∧ ∀ claim ∈ ret, Curried claim (hs.map (·.1.2)) e)
      (closeHypotheses ret body hs) := by
  fun_induction Generate.closeHypotheses ret body hs with
  | case1 => exact .broken _
  | case2 p loc =>
    refine exit_emits.bind_pure fun tparams hnames => ⟨?_, ?_⟩
    · simp [Expr.plain, TypeExpr.plainParams, hhs _ (List.mem_singleton_self _), hret, hbody]
    · rintro claim rfl
      exact .last hnames
  | case3 p loc rest hrest ih =>
    refine (ih fun h hh => hhs h (by simp [hh])).bind fun inner hinner => ?_
    refine exit_emits.bind_pure fun tparams hnames => ⟨?_, ?_⟩
    · simp [Expr.plain, Body.plain, TypeExpr.plainParams, hhs _ (List.mem_cons_self ..), hinner.1]
    · intro claim hclaim
      exact .more hnames (hinner.2 claim hclaim)

theorem closeVariables_emits {ret : Option TypeExpr} {body : Body} {loc : Location}
    (hret : ret.all TypeExpr.plain = true) (hbody : body.plain = true) (vars : List String) :
    Emits (fun e => e.plain = true) (closeVariables ret body loc vars) := by
  fun_induction Generate.closeVariables ret body loc vars with
  | case1 => exact .broken _
  | case2 => exact .pure (by simp [Expr.plain, TypeExpr.plainParams, hret, hbody])
  | case3 _ _ _ ih =>
    exact ih.bind_pure fun inner hinner => by
      simp [Expr.plain, Body.plain, TypeExpr.plainParams, hinner]

/-! ## Proofs -/

theorem plainAll_append (stmts more : List Stmt) :
    Stmt.plainAll (stmts ++ more) = (Stmt.plainAll stmts && Stmt.plainAll more) := by
  induction stmts with
  | nil => rfl
  | cons st rest ih => rw [List.cons_append, Stmt.plainAll, Stmt.plainAll, ih, Bool.and_assoc]

theorem plain_bodyOf {stmts : List Stmt} {value : Expr} (hstmts : Stmt.plainAll stmts = true)
    (hvalue : value.plain = true) : (bodyOf stmts value).plain = true := by
  unfold bodyOf
  split
  · exact hvalue
  · simp [Body.plain, plainAll_append, Stmt.plainAll, Stmt.plain, hstmts, hvalue]

/-- The statements, the value and the return type of steps are plain. -/
def PlainSteps (r : List Stmt × Expr × Option TypeExpr) : Prop :=
  Stmt.plainAll r.1 = true ∧ r.2.1.plain = true ∧ r.2.2.all TypeExpr.plain = true

mutual

theorem proof_emits (declared : Bool) : (p : Proof) →
    Emits (fun r => r.1.plain = true ∧ r.2.all TypeExpr.plain = true) (proof declared p)
  | .mk st _ => by
    rw [proof]
    refine .then_ (candid_motion.recordSteps st) fun _ => ?_
    refine (steps_emits declared st).bind_pure ?_
    rintro ⟨stmts, value, ret⟩ ⟨hstmts, hvalue, hret⟩
    exact ⟨plain_bodyOf hstmts hvalue, hret⟩

theorem steps_emits (declared : Bool) : (st : Steps) → Emits PlainSteps (steps declared st)
  | .last s => final_emits declared s
  | .conclude j _ => by
    rw [steps]
    exact (justification_emits j).bind_pure fun value hvalue => ⟨rfl, hvalue, rfl⟩
  | .more s rest => by
    rw [steps]
    refine (statement_emits s).bind fun stmt hstmt => ?_
    refine (steps_emits declared rest).bind_pure ?_
    rintro ⟨stmts, value, ret⟩ ⟨hstmts, hvalue, hret⟩
    exact ⟨by simp [Stmt.plainAll, hstmt, hstmts], hvalue, hret⟩

theorem final_emits (declared : Bool) : (s : Statement) → Emits PlainSteps (final declared s)
  | .missing => .broken _
  | .block b => by
    rw [final]
    exact (block_emits b).bind_pure fun value hvalue => ⟨rfl, hvalue, rfl⟩
  | .step claim j loc => by
    rw [final]
    split
    · exact (justification_emits j).bind_pure fun value hvalue => ⟨rfl, hvalue, rfl⟩
    split
    · refine (stepHead_emits claim).bind ?_
      rintro ⟨name, t⟩ ht
      refine (justification_emits j).bind fun value hvalue => ?_
      refine .then_ (moves_declare _ _) fun _ => .pure ⟨?_, rfl, rfl⟩
      simpa [Stmt.plainAll, Stmt.plain, hvalue] using ht
    · refine (typeOf_emits _).bind fun t ht => ?_
      refine (justification_emits j).bind_pure fun value hvalue => ⟨rfl, hvalue, ?_⟩
      simp [ht, plain_typeExpr]

theorem statement_emits : (s : Statement) → Emits (fun st => st.plain = true) (statement s)
  | .missing => .broken _
  | .block b => by
    rw [statement]
    exact (block_emits b).bind_pure fun value hvalue => by simp [Stmt.plain, Expr.plain, hvalue]
  | .step claim j loc => by
    rw [statement]
    refine (stepHead_emits claim).bind ?_
    rintro ⟨name, t⟩ ht
    refine (justification_emits j).bind fun value hvalue => ?_
    refine .then_ (moves_declare _ _) fun _ => .pure ?_
    simpa [Stmt.plain, hvalue] using ht

theorem justification_emits : (j : Justification) →
    Emits (fun e => e.plain = true) (justification j)
  | .missing => .broken _
  | .apply rule args loc => application_emits rule args loc
  | .block b => block_emits b

theorem block_emits : (b : Block) → Emits (fun e => e.plain = true) (block b)
  | .assume hyps p _ => by
    rw [block]
    refine .then_ (moves_modify (fun _ => rfl) fun _ => rfl) fun _ => ?_
    refine (hypotheses_emits hyps).bind fun hs hhs => ?_
    refine (proof_emits false p).bind ?_
    rintro ⟨body, ret⟩ ⟨hbody, hret⟩
    refine (closeHypotheses_emits hret hbody (plain_of_hypotheses hhs)).bind fun value hvalue => ?_
    exact .then_ (moves_modify (fun _ => rfl) fun _ => rfl) fun _ => .pure hvalue.1
  | .generalize vars p loc => by
    rw [block]
    refine .then_ (moves_modify (fun _ => rfl) fun _ => rfl) fun _ => ?_
    refine .then_ (candid_motion.onFrames _) fun _ => ?_
    refine (proof_emits false p).bind ?_
    rintro ⟨body, ret⟩ ⟨hbody, hret⟩
    refine .then_ (candid_motion.onFrames _) fun _ => ?_
    refine (closeVariables_emits hret hbody vars).bind fun value hvalue => ?_
    exact .then_ (moves_modify (fun _ => rfl) fun _ => rfl) fun _ => .pure hvalue

end

/-! ## Theorems -/

theorem theoremArrow_emits (t : Theorem) :
    Emits (fun r => r.1.plain = true ∧
      Curried t.claim.formula.typeExpr (t.hypotheses.map Formula.typeExpr) r.1) (theoremArrow t) := by
  unfold theoremArrow Theorem.hypotheses
  split
  · rename_i hyps p hsequent
    refine (hypotheses_emits hyps).bind fun hs hhs => (typeOf_emits _).bind fun claim hclaim => ?_
    refine (proof_emits true p).bind ?_
    rintro ⟨body, ret⟩ ⟨hbody, -⟩
    have hret : (some claim).all TypeExpr.plain = true := by
      rw [hclaim]
      exact plain_typeExpr _
    refine (closeHypotheses_emits hret hbody (plain_of_hypotheses hhs)).bind_pure ?_
    rintro e ⟨hplain, hcurried⟩
    refine ⟨hplain, ?_⟩
    have hcurried := hcurried claim rfl
    rw [hhs, hclaim] at hcurried
    simp only [hsequent, Option.elim_some, List.map_map]
    exact hcurried
  · rename_i hsequent
    refine .then_ (candid_motion.onFrames _) fun _ => (typeOf_emits _).bind fun claim hclaim => ?_
    refine (proof_emits true t.proof).bind ?_
    rintro ⟨body, ret⟩ ⟨hbody, -⟩
    refine exit_emits.bind_pure fun tparams hnames => ⟨?_, ?_⟩
    · simp [Expr.plain, TypeExpr.plainParams, hclaim, plain_typeExpr, hbody]
    · rw [hclaim]
      simpa [hsequent] using Curried.thunk hnames

/-- The statement is plain and declares the arrow of the theorem. -/
def Declares (t : Theorem) (st : Stmt) : Prop :=
  st.plain = true ∧ ∃ e o,
    Curried t.claim.formula.typeExpr (t.hypotheses.map Formula.typeExpr) e ∧
    (st = .expr (.paren e) o ∨ ∃ name, st = .const name none e false false none o)

theorem theoremDecl_emits (t : Theorem) : Emits (Declares t) (theoremDecl t) := by
  have hcheck : ∀ name, Moves (fun s s' => Candid s → Candid s')
      (checkTheoremName name t.claim.loc) := by
    intro name c s u s' h hs
    rwa [← (checkTheoremName_eq_ok h).2]
  have hpush : Moves (fun s s' => Candid s → Candid s') pushScope :=
    moves_modify (fun _ => rfl) fun _ => rfl
  have hpop : Moves (fun s s' => Candid s → Candid s') popScope :=
    moves_modify (fun _ => rfl) fun _ => rfl
  unfold theoremDecl
  dsimp only
  cases t.claim.name.map escapeIdent with
  | none =>
    refine .then_ hpush fun _ => (theoremArrow_emits t).bind ?_
    rintro ⟨arrow, isThunk⟩ ⟨hplain, hcurried⟩
    exact .then_ hpop fun _ => .pure ⟨hplain, arrow, _, hcurried, .inl rfl⟩
  | some name =>
    refine .then_ (hcheck name) fun _ => .then_ hpush fun _ => (theoremArrow_emits t).bind ?_
    rintro ⟨arrow, isThunk⟩ ⟨hplain, hcurried⟩
    refine .then_ hpop fun _ => .then_ (moves_declare _ _) fun _ => ?_
    have hdeclares : Declares t (.const name none arrow false false none (some t.loc)) :=
      ⟨by simpa [Stmt.plain] using hplain, arrow, _, hcurried, .inr ⟨name, rfl⟩⟩
    dsimp only
    split
    · exact .then_ (moves_modify (fun _ => rfl) fun _ => rfl) fun _ => .pure hdeclares
    · exact .pure hdeclares

theorem theoremDecls_emits (ts : List Theorem) :
    Emits (fun decls => (∀ st ∈ decls, st.plain = true) ∧ ∀ t ∈ ts, ∃ st ∈ decls, Declares t st)
      (theoremDecls ts) := by
  induction ts with
  | nil => exact .pure (by simp)
  | cons t rest ih =>
    refine (theoremDecl_emits t).bind fun decl hdecl => ?_
    refine .then_ candid_motion.get fun _ => ?_
    dsimp only
    split
    · exact .broken _
    · refine ih.bind_pure fun more hmore => ⟨?_, ?_⟩
      · exact List.forall_mem_cons.mpr ⟨hdecl.1, hmore.1⟩
      · refine List.forall_mem_cons.mpr ⟨⟨decl, by simp, hdecl⟩, ?_⟩
        intro u hu
        rcases hmore.2 u hu with ⟨st, hst, hdeclares⟩
        exact ⟨st, by simp [hst], hdeclares⟩

end Generate

end ProofScript
