import ProofScript.Proofs.Generation
import ProofScript.Proofs.Meaning

/-!
# Generation in both modes

The mode has a say in a single decision: in System F mode one rule instantiates quantified facts. So a
document that never uses this rule becomes the same program in both modes, with the same reports.
-/

namespace ProofScript

open Program

/-! ## Rules of a document -/

mutual

/-- The rules that a proof uses. -/
def Proof.rules : Proof → List String
  | .mk s _ => s.rules

/-- The rules that steps use. -/
def Steps.rules : Steps → List String
  | .last s => s.rules
  | .conclude j _ => j.rules
  | .more s rest => s.rules ++ rest.rules

/-- The rules that a statement uses. -/
def Statement.rules : Statement → List String
  | .missing => []
  | .step _ j _ => j.rules
  | .block b => b.rules

/-- The rules that a justification uses. -/
def Justification.rules : Justification → List String
  | .missing => []
  | .apply rule _ _ => [rule]
  | .block b => b.rules

/-- The rules that a block uses. -/
def Block.rules : Block → List String
  | .assume _ p _ => p.rules
  | .generalize _ p _ => p.rules

end

/-- The rules that a document uses. -/
def Document.rules (d : Document) : List String := d.theorems.flatMap (·.proof.rules)

namespace Generate

variable {α β : Type}

/-- The step runs alike in both modes. -/
def Neutral (x : Generate α) : Prop := ∀ names, x ⟨true, names⟩ = x ⟨false, names⟩

namespace Neutral

theorem pure (a : α) : Neutral (pure a) := fun _ => rfl

theorem get : Neutral (get : Generate State) := fun _ => rfl

theorem set (s : State) : Neutral (set s : Generate PUnit) := fun _ => rfl

theorem modify (f : State → State) : Neutral (modify f : Generate PUnit) := fun _ => rfl

theorem fail (loc : Location) (cause : GenerateCause) : Neutral (fail loc cause : Generate α) :=
  fun _ => rfl

theorem broken (f : Fault) : Neutral (broken f : Generate α) := fun _ => rfl

theorem bind {x : Generate α} {g : α → Generate β} (hx : Neutral x) (hg : ∀ a, Neutral (g a)) :
    Neutral (x >>= g) := by
  intro names
  change (x ⟨true, names⟩ >>= fun a => g a ⟨true, names⟩) = _
  rw [hx names, funext fun a => hg a names]
  rfl

theorem bind_pure {x : Generate α} {f : α → β} (hx : Neutral x) :
    Neutral (x >>= fun a => Pure.pure (f a)) := hx.bind fun _ => .pure _

/-- A step may look up the names of the theorems. -/
theorem read {g : Context → Generate α} (hg : ∀ names, g ⟨true, names⟩ = g ⟨false, names⟩)
    (hneutral : ∀ c, Neutral (g c)) : Neutral (read >>= g) := by
  intro names
  change g ⟨true, names⟩ ⟨true, names⟩ = g ⟨false, names⟩ ⟨false, names⟩
  rw [hg names]
  exact hneutral _ names

theorem ite {p : Prop} [Decidable p] {x y : Generate α} (hx : Neutral x) (hy : Neutral y) :
    Neutral (if p then x else y) := by
  split
  · exact hx
  · exact hy

end Neutral

/-! ## Frames, scopes and names -/

theorem onFrames_neutral (f : Frames → Except FrameMisuse (α × Frames)) : Neutral (onFrames f) := by
  refine .bind .get fun s => ?_
  cases f s.frames with
  | ok r => exact .bind (.modify _) fun _ => .pure _
  | error m => exact .broken _

theorem exit_neutral : Neutral exit := .bind (onFrames_neutral _) fun _ => .pure _

theorem warn_neutral (loc : Location) (message : String) : Neutral (warn loc message) := .modify _

theorem declare_neutral (name : String) (loc : Location) : Neutral (declare name loc) := by
  refine .bind .get fun s => ?_
  cases s.scopes with
  | nil =>
    cases Scope.find? s.declared name with
    | some first => exact .fail _ _
    | none => exact .set _
  | cons top rest =>
    dsimp only
    cases Scope.find? top name with
    | some first => exact .fail _ _
    | none => exact .set _

theorem useRule_neutral (p : Primitive) (loc : Location) : Neutral (useRule p loc) := by
  refine .bind (.modify _) fun _ => ?_
  dsimp only
  cases p.warning with
  | some message => exact .bind (warn_neutral _ _) fun _ => .modify _
  | none => exact .modify _

theorem reference_neutral (name : String) (loc : Location) : Neutral (reference name loc) := by
  unfold reference
  refine .bind .get fun s => .ite (.pure _) (.ite (.ite (.pure _) (.pure _)) ?_)
  refine .read (fun _ => rfl) fun c => .ite (.fail _ _) ?_
  cases Library.findRule? (escapeIdent name) with
  | some p => exact (useRule_neutral p loc).bind_pure
  | none => exact .pure _

/-! ## Propositions and arguments -/

theorem typeOf_neutral (f : Formula) : Neutral (typeOf f) := by
  induction f with
  | hole => exact .broken _
  | atom name args loc =>
    refine .bind (onFrames_neutral _) fun _ => ?_
    cases args with
    | nil => exact .pure _
    | cons arg rest =>
      dsimp only
      split
      · exact (onFrames_neutral _).bind_pure
      · exact .bind (warn_neutral _ _) fun _ => (onFrames_neutral _).bind_pure
  | neg a loc ih => exact .bind ih fun _ => .pure _
  | conj a b loc iha ihb | disj a b loc iha ihb | impl a b loc iha ihb =>
    exact .bind iha fun _ => .bind ihb fun _ => .pure _
  | all vars a loc ih =>
    exact .bind (onFrames_neutral _) fun _ => .bind ih fun _ => .bind (onFrames_neutral _) fun _ =>
      .pure _

theorem argument_neutral (a : Argument) : Neutral (argument a) := by
  cases a with
  | fact name loc => exact reference_neutral name loc
  | prop f =>
    cases f with
    | hole => exact .broken _
    | _ => exact .bind (typeOf_neutral _) fun _ => .pure _

theorem applyAll_neutral (fn : Expr) (args : List Argument) : Neutral (applyAll fn args) := by
  induction args generalizing fn with
  | nil => exact .pure _
  | cons a rest ih => exact .bind (argument_neutral a) fun x => ih _

/-- A rule other than the one that instantiates. -/
theorem application_neutral {rule : String} (h : rule ≠ instantiationRule) (args : List Argument)
    (loc : Location) : Neutral (application rule args loc) := by
  have hother : ∀ systemF : Bool, ¬(systemF = true ∧ rule = instantiationRule) := fun _ hrule =>
    h hrule.2
  refine .read (fun names => ?_) fun c => ?_
  · rw [if_neg (hother _), if_neg (hother _)]
  · rw [if_neg (hother _)]
    exact .bind (reference_neutral rule loc) fun fn => applyAll_neutral fn args

theorem hypotheses_neutral (hyps : List Claim) : Neutral (hypotheses hyps) := by
  induction hyps with
  | nil => exact .pure _
  | cons h rest ih =>
    exact .bind (onFrames_neutral _) fun _ => .bind (typeOf_neutral _) fun _ =>
      .bind (declare_neutral _ _) fun _ => .bind ih fun _ => .pure _

theorem closeHypotheses_neutral (ret : Option TypeExpr) (body : Body) (hs : List Hypothesis) :
    Neutral (closeHypotheses ret body hs) := by
  fun_induction closeHypotheses ret body hs with
  | case1 => exact .broken _
  | case2 => exact .bind exit_neutral fun _ => .pure _
  | case3 _ _ _ _ ih => exact .bind ih fun _ => .bind exit_neutral fun _ => .pure _

theorem closeVariables_neutral (ret : Option TypeExpr) (body : Body) (loc : Location)
    (vars : List String) : Neutral (closeVariables ret body loc vars) := by
  fun_induction closeVariables ret body loc vars with
  | case1 => exact .broken _
  | case2 => exact .pure _
  | case3 _ _ _ ih => exact .bind ih fun _ => .pure _

/-! ## Recording -/

theorem recordArguments_neutral (args : List Argument) : Neutral (recordArguments args) := by
  fun_induction recordArguments args with
  | case1 => exact .pure _
  | case2 _ _ _ ih => exact ih
  | case3 _ ih => exact ih
  | case4 _ _ _ ih => exact .bind (typeOf_neutral _) fun _ => ih

theorem recordJustification_neutral (j : Justification) : Neutral (recordJustification j) := by
  cases j with
  | apply rule args loc => exact recordArguments_neutral args
  | _ => exact .pure _

theorem recordStatement_neutral (s : Statement) : Neutral (recordStatement s) := by
  cases s with
  | step c j loc =>
    unfold recordStatement
    dsimp only
    split
    · exact recordJustification_neutral j
    · exact .bind (typeOf_neutral _) fun _ => recordJustification_neutral j
  | _ => exact .pure _

theorem recordSteps_neutral (st : Steps) : Neutral (recordSteps st) := by
  cases st with
  | last s => exact recordStatement_neutral s
  | conclude j _ => exact recordJustification_neutral j
  | more s rest => exact .bind (recordStatement_neutral s) fun _ => recordSteps_neutral rest

theorem stepHead_neutral (c : Claim) : Neutral (stepHead c) := by
  unfold stepHead
  dsimp only
  split
  · exact .bind (.pure _) fun _ => .ite (.pure _) (typeOf_neutral _).bind_pure
  split
  · exact .bind (.fail _ _) fun _ => .pure _
  · exact .bind (.pure _) fun _ => (typeOf_neutral _).bind_pure

/-! ## Proofs -/

mutual

theorem proof_neutral {declared : Bool} : (p : Proof) → instantiationRule ∉ p.rules →
    Neutral (proof declared p)
  | .mk s _, h => .bind (recordSteps_neutral s) fun _ => (steps_neutral s h).bind_pure

theorem steps_neutral {declared : Bool} : (st : Steps) → instantiationRule ∉ st.rules →
    Neutral (steps declared st)
  | .last s, h => final_neutral s h
  | .conclude j _, h => (justification_neutral j h).bind_pure
  | .more s rest, h => by
    rw [Steps.rules, List.mem_append, not_or] at h
    exact .bind (statement_neutral s h.1) fun _ => (steps_neutral rest h.2).bind_pure

theorem final_neutral {declared : Bool} : (st : Statement) → instantiationRule ∉ st.rules →
    Neutral (final declared st)
  | .missing, _ => .broken _
  | .block b, h => (block_neutral b h).bind_pure
  | .step c j loc, h => by
    have hj := justification_neutral j h
    refine .ite hj.bind_pure (.ite ?_ ?_)
    · exact .bind (stepHead_neutral c) fun _ => hj.bind fun _ => (declare_neutral _ _).bind_pure
    · exact .bind (typeOf_neutral _) fun _ => hj.bind_pure

theorem statement_neutral : (st : Statement) → instantiationRule ∉ st.rules →
    Neutral (statement st)
  | .missing, _ => .broken _
  | .block b, h => (block_neutral b h).bind_pure
  | .step c j _, h =>
    .bind (stepHead_neutral c) fun _ => .bind (justification_neutral j h) fun _ =>
      (declare_neutral _ _).bind_pure

theorem justification_neutral : (j : Justification) → instantiationRule ∉ j.rules →
    Neutral (justification j)
  | .missing, _ => .broken _
  | .apply _ args loc, h =>
    application_neutral (fun heq => h (by simp [Justification.rules, heq])) args loc
  | .block b, h => block_neutral b h

theorem block_neutral : (b : Block) → instantiationRule ∉ b.rules → Neutral (block b)
  | .assume hyps p _, h =>
    .bind (.modify _) fun _ => .bind (hypotheses_neutral hyps) fun hs => .bind (proof_neutral p h)
      fun _ => .bind (closeHypotheses_neutral _ _ hs) fun _ => (Neutral.modify _).bind_pure
  | .generalize _ p _, h =>
    .bind (.modify _) fun _ => .bind (onFrames_neutral _) fun _ => .bind (proof_neutral p h) fun _ =>
      .bind (onFrames_neutral _) fun _ => .bind (closeVariables_neutral _ _ _ _) fun _ =>
        (Neutral.modify _).bind_pure

end

/-! ## Theorems -/

end Generate

end ProofScript
