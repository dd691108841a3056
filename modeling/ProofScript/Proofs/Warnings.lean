import Mathlib.Data.List.Nodup
import ProofScript.Proofs.Referents

/-!
# Warnings

A compilation warns of every name that generation takes for the rule `sorry`, and of every atom that
is given more than one argument. Generation encodes a proposition once or twice, since a proof
records the atoms of its own level first. All names and atoms of a script stand at places of their
own, so a warning that was raised before is one of the same name or atom.
-/

namespace ProofScript

open Program

/-! ## What is warned of -/

/-- The warning of an atom that is given more than one argument. -/
def Formula.arityWarning? : Formula → Option Warning
  | .atom name args loc =>
    if 1 < args.length then
      some ⟨loc, "predicate " ++ name ++ " has " ++ toString args.length
        ++ " arguments; only the first is used"⟩
    else none
  | _ => none

/-- The warnings of the atoms among propositions. -/
def arityWarnings (fs : List Formula) : List Warning := fs.filterMap Formula.arityWarning?

theorem Formula.subformulas_of_isHole {f : Formula} (h : f.isHole = true) : f.subformulas = [] := by
  cases f <;> simp_all [Formula.isHole, Formula.subformulas]

namespace Generate

/-- Does generation take the name for the rule `sorry` of the library? -/
def NameUse.trusts (u : NameUse) : Bool :=
  u.state.any fun s => (s.declaration? (escapeIdent u.name)).isNone &&
    (Library.findRule? (escapeIdent u.name)).any (·.name = "sorry")

/-- The warnings of the uses of `sorry`. -/
def sorryWarnings (uses : List NameUse) : List Warning :=
  (uses.filter NameUse.trusts).map fun u => ⟨u.loc, "proof uses sorry"⟩

theorem mem_sorryWarnings_append {uses more : List NameUse} {w : Warning} :
    w ∈ sorryWarnings (uses ++ more) ↔ w ∈ sorryWarnings uses ∨ w ∈ sorryWarnings more := by
  simp [sorryWarnings]

theorem mem_arityWarnings_append {fs gs : List Formula} {w : Warning} :
    w ∈ arityWarnings (fs ++ gs) ↔ w ∈ arityWarnings fs ∨ w ∈ arityWarnings gs := by
  simp [arityWarnings]

/-- Between the lists exactly the warnings of these uses and propositions are raised, and none is
repeated. -/
structure Warns (ws ws' : List Warning) (uses : List NameUse) (fs : List Formula) : Prop where
  nodup : ws.Nodup → ws'.Nodup
  mem : ∀ w, w ∈ ws' ↔ w ∈ ws ∨ w ∈ sorryWarnings uses ∨ w ∈ arityWarnings fs

namespace Warns

variable {ws mid ws' : List Warning} {uses uses' : List NameUse} {fs fs' : List Formula}

theorem of_eq (h : ws' = ws) : Warns ws ws' [] [] :=
  ⟨fun hs => h ▸ hs, fun w => by simp [h, sorryWarnings, arityWarnings]⟩

theorem trans (h : Warns ws mid uses fs) (h' : Warns mid ws' uses' fs') :
    Warns ws ws' (uses ++ uses') (fs ++ fs') := by
  refine ⟨h'.nodup ∘ h.nodup, fun w => ?_⟩
  rw [h'.mem, h.mem, mem_sorryWarnings_append, mem_arityWarnings_append]
  tauto

theorem perm (h : Warns ws ws' uses fs) (hfs : fs.Perm fs') : Warns ws ws' uses fs' := by
  refine ⟨h.nodup, fun w => ?_⟩
  rw [h.mem, arityWarnings, arityWarnings, (hfs.filterMap _).mem_iff]

/-- A proposition that is no atom with arguments raises no warning of its own. -/
theorem silent {f : Formula} (h : Warns ws ws' uses fs) (hf : f.arityWarning? = none) :
    Warns ws ws' uses (f :: fs) := by
  refine ⟨h.nodup, fun w => ?_⟩
  rw [h.mem, arityWarnings, arityWarnings, List.filterMap_cons_none hf]

/-- A rule that generation does not look up raises no warning. -/
theorem unresolved (h : Warns ws ws' uses fs) (name : String) (loc : Location) :
    Warns ws ws' (⟨name, loc, none⟩ :: uses) fs := by
  refine ⟨h.nodup, fun w => ?_⟩
  rw [h.mem, sorryWarnings, sorryWarnings, List.filter_cons_of_neg]
  simp [NameUse.trusts]

/-- Propositions that are encoded again raise no warning that was not raised before. -/
theorem again (h : Warns ws mid [] fs) (h' : Warns mid ws' uses fs') (hfs : fs ⊆ fs') :
    Warns ws ws' uses fs' := by
  have hsubset : arityWarnings fs ⊆ arityWarnings fs' := List.filterMap_subset _ hfs
  refine ⟨h'.nodup ∘ h.nodup, fun w => ?_⟩
  have hw : w ∈ arityWarnings fs → w ∈ arityWarnings fs' := fun hw => hsubset hw
  have hnil : w ∉ sorryWarnings [] := by simp [sorryWarnings]
  rw [h'.mem, h.mem]
  tauto

end Warns

variable {c : Context} {s s' : State}

theorem warnings_of_declare {name : String} {loc : Location} {u : Unit}
    (h : declare name loc c s = (.ok u, s')) : s'.warnings = s.warnings := by
  cases hscopes : s.scopes with
  | nil => rw [declare_eq_ok_of_nil hscopes h]
  | cons top rest => rw [declare_eq_ok hscopes h]

theorem warnings_of_onFrames {α : Type} {f : Frames → Except FrameMisuse (α × Frames)} {a : α}
    (h : onFrames f c s = (.ok a, s')) : s'.warnings = s.warnings := by
  obtain ⟨g, -, rfl⟩ := onFrames_eq_ok h
  rfl

theorem warnings_of_exit {names : List String} (h : exit c s = (.ok names, s')) :
    s'.warnings = s.warnings := by
  obtain ⟨_, _, hframes, h⟩ := bind_eq_ok.mp h
  obtain ⟨-, rfl⟩ := pure_eq_ok.mp h
  exact warnings_of_onFrames hframes

theorem warnings_of_closeHypotheses {ret : Option TypeExpr} {body : Body} {hs : List Hypothesis}
    {e : Expr} (h : closeHypotheses ret body hs c s = (.ok e, s')) : s'.warnings = s.warnings := by
  fun_induction closeHypotheses ret body hs generalizing e s' with
  | case1 => exact absurd h broken_ne_ok
  | case2 p loc =>
    obtain ⟨_, _, hexit, h⟩ := bind_eq_ok.mp h
    obtain ⟨-, rfl⟩ := pure_eq_ok.mp h
    exact warnings_of_exit hexit
  | case3 p loc rest hrest ih =>
    obtain ⟨_, _, hinner, h⟩ := bind_eq_ok.mp h
    obtain ⟨_, _, hexit, h⟩ := bind_eq_ok.mp h
    obtain ⟨-, rfl⟩ := pure_eq_ok.mp h
    exact (warnings_of_exit hexit).trans (ih hinner)

/-- A warning is kept unless it was raised before. -/
theorem warn_keeps {loc : Location} {message : String} {u : Unit}
    (h : warn loc message c s = (.ok u, s')) :
    (s.warnings.Nodup → s'.warnings.Nodup) ∧
      ∀ w, w ∈ s'.warnings ↔ w ∈ s.warnings ∨ w = ⟨loc, message⟩ := by
  obtain rfl := modify_eq_ok.mp h
  dsimp only
  split
  · rename_i hmem
    refine ⟨id, fun w => ⟨.inl, ?_⟩⟩
    rintro (hw | rfl)
    · exact hw
    · exact hmem
  · rename_i hnew
    exact ⟨fun hs => by simpa using List.Nodup.concat hnew hs, by simp⟩

/-- The only rule with a warning is `sorry`. -/
theorem warning_of_findRule? {name : String} {p : Primitive} (h : Library.findRule? name = some p) :
    p.warning = if p.name = "sorry" then some "proof uses sorry" else none := by
  have hall : ∀ p ∈ Library.all,
      p.warning = if p.name = "sorry" then some "proof uses sorry" else none := by decide
  exact hall p (List.mem_of_find?_eq_some (Option.filter_eq_some_iff.mp h).1)

/-- A rule that is used for a name raises its warning at the name. -/
theorem useRule_warns {name : String} {p : Primitive} {loc : Location} {u : Unit}
    (hdeclared : s.declaration? (escapeIdent name) = none)
    (hrule : Library.findRule? (escapeIdent name) = some p)
    (h : useRule p loc c s = (.ok u, s')) :
    Warns s.warnings s'.warnings [⟨name, loc, some s⟩] [] := by
  have hwarning := warning_of_findRule? hrule
  have htrusts : NameUse.trusts ⟨name, loc, some s⟩ = decide (p.name = "sorry") := by
    simp [NameUse.trusts, hdeclared, hrule]
  simp only [useRule, bind_eq_ok] at h
  obtain ⟨_, s₁, huse, h⟩ := h
  have hused : s₁.warnings = s.warnings := by
    obtain rfl := modify_eq_ok.mp huse
    split <;> rfl
  by_cases hname : p.name = "sorry"
  · rw [if_pos hname] at hwarning
    simp only [hwarning, bind_eq_ok] at h
    obtain ⟨_, s₂, hwarn, h⟩ := h
    obtain rfl := modify_eq_ok.mp h
    obtain ⟨hnodup, hmem⟩ := warn_keeps hwarn
    refine ⟨fun hs => hnodup (hused ▸ hs), fun w => ?_⟩
    simp [hmem, hused, sorryWarnings, arityWarnings, htrusts, hname]
  · rw [if_neg hname] at hwarning
    simp only [hwarning] at h
    obtain rfl := modify_eq_ok.mp h
    refine ⟨fun hs => hused ▸ hs, fun w => ?_⟩
    simp [hused, sorryWarnings, arityWarnings, htrusts, hname]

theorem reference_warns {name : String} {loc : Location} {e : Expr}
    (h : reference name loc c s = (.ok e, s')) :
    Warns s.warnings s'.warnings [⟨name, loc, some s⟩] [] := by
  have hsilent : NameUse.trusts ⟨name, loc, some s⟩ = false →
      Warns s.warnings s.warnings [⟨name, loc, some s⟩] [] :=
    fun htrusts => ⟨id, fun w => by simp [sorryWarnings, arityWarnings, htrusts]⟩
  rcases reference_resolved h with ⟨hdeclared, rfl⟩ | ⟨hdeclared, ⟨p, hrule, huse⟩ | ⟨hrule, rfl⟩⟩
  · refine hsilent ?_
    simp [NameUse.trusts, Option.isNone_eq_false_iff.mpr hdeclared]
  · exact useRule_warns hdeclared hrule huse
  · refine hsilent ?_
    simp [NameUse.trusts, hrule]

/-- The type of a proposition raises the warnings of its atoms. -/
theorem typeOf_warns {f : Formula} {t : TypeExpr} (h : typeOf f c s = (.ok t, s')) :
    Warns s.warnings s'.warnings [] f.subformulas := by
  induction f generalizing s s' t with
  | hole => exact absurd h broken_ne_ok
  | atom name args loc =>
    obtain ⟨_, s₁, hmention, h⟩ := bind_eq_ok.mp h
    rw [← warnings_of_onFrames hmention]
    cases args with
    | nil =>
      obtain ⟨-, rfl⟩ := pure_eq_ok.mp h
      exact (Warns.of_eq rfl).silent rfl
    | cons arg rest =>
      dsimp only at h
      split at h
      · rename_i hrest
        obtain ⟨_, s₂, harg, h⟩ := bind_eq_ok.mp h
        obtain ⟨-, rfl⟩ := pure_eq_ok.mp h
        refine (Warns.of_eq (warnings_of_onFrames harg)).silent ?_
        simp [Formula.arityWarning?, List.isEmpty_iff.mp hrest]
      · rename_i hrest
        obtain ⟨_, s₂, hwarn, h⟩ := bind_eq_ok.mp h
        obtain ⟨_, s₃, harg, h⟩ := bind_eq_ok.mp h
        obtain ⟨-, rfl⟩ := pure_eq_ok.mp h
        rw [warnings_of_onFrames harg]
        have hlength : 0 < rest.length := by simpa [List.length_pos_iff] using hrest
        obtain ⟨hnodup, hmem⟩ := warn_keeps hwarn
        refine ⟨hnodup, fun w => ?_⟩
        simp [hmem, sorryWarnings, arityWarnings, Formula.subformulas, Formula.arityWarning?,
          hlength]
  | neg a _ ih =>
    obtain ⟨_, _, ha, h⟩ := bind_eq_ok.mp h
    obtain ⟨-, rfl⟩ := pure_eq_ok.mp h
    exact (ih ha).silent rfl
  | conj a b _ iha ihb | disj a b _ iha ihb | impl a b _ iha ihb =>
    obtain ⟨_, _, ha, h⟩ := bind_eq_ok.mp h
    obtain ⟨_, _, hb, h⟩ := bind_eq_ok.mp h
    obtain ⟨-, rfl⟩ := pure_eq_ok.mp h
    exact ((iha ha).trans (ihb hb)).silent rfl
  | all vars a _ ih =>
    obtain ⟨_, _, hbind, h⟩ := bind_eq_ok.mp h
    obtain ⟨_, _, ha, h⟩ := bind_eq_ok.mp h
    obtain ⟨_, _, hunbind, h⟩ := bind_eq_ok.mp h
    obtain ⟨-, rfl⟩ := pure_eq_ok.mp h
    rw [← warnings_of_onFrames hbind, warnings_of_onFrames hunbind]
    exact (ih ha).silent rfl

/-! ## Rules and arguments -/

theorem argument_warns {a : Argument} {e : Expr} (h : argument a c s = (.ok e, s')) :
    Warns s.warnings s'.warnings (nameUse? s a).toList a.formulas := by
  cases a with
  | fact name loc => exact reference_warns h
  | prop f =>
    cases f with
    | hole => exact absurd h broken_ne_ok
    | _ =>
      obtain ⟨_, _, htype, h⟩ := bind_eq_ok.mp h
      obtain ⟨-, rfl⟩ := pure_eq_ok.mp h
      exact typeOf_warns htype

theorem applyAll_warns {fn e : Expr} {args : List Argument}
    (h : applyAll fn args c s = (.ok e, s')) :
    Warns s.warnings s'.warnings (argumentNames c s args) (args.flatMap Argument.formulas) := by
  induction args generalizing fn s with
  | nil =>
    obtain ⟨-, rfl⟩ := pure_eq_ok.mp h
    exact Warns.of_eq rfl
  | cons a rest ih =>
    obtain ⟨x, mid, hx, h⟩ := bind_eq_ok.mp h
    rw [argumentNames, hx]
    exact (argument_warns hx).trans (ih h)

theorem application_warns {rule : String} {args : List Argument} {loc : Location} {e : Expr}
    (h : application rule args loc c s = (.ok e, s')) :
    Warns s.warnings s'.warnings (applicationNames rule args loc c s)
      (args.flatMap Argument.formulas) := by
  obtain ⟨_, _, hread, h⟩ := bind_eq_ok.mp h
  obtain ⟨rfl, rfl⟩ := read_eq_ok.mp hread
  unfold applicationNames
  split at h
  · rename_i hrule
    rw [if_pos hrule]
    obtain ⟨f, name, at_, fn, mid, t, rfl, hfn, ht, -⟩ := instantiate_eq_ok h
    simpa [Argument.formulas, nameUse?, List.filterMap_cons] using
      ((reference_warns hfn).trans (typeOf_warns ht)).unresolved rule loc
  · rename_i hrule
    rw [if_neg hrule]
    obtain ⟨fn, mid, hfn, h⟩ := bind_eq_ok.mp h
    rw [hfn]
    exact (reference_warns hfn).trans (applyAll_warns h)

/-! ## What proofs record first -/

/-- Some of the propositions raise their warnings. -/
def Records (s s' : State) (fs : List Formula) : Prop :=
  ∃ gs ⊆ fs, Warns s.warnings s'.warnings [] gs

theorem Records.nil (h : s'.warnings = s.warnings) (fs : List Formula) : Records s s' fs :=
  ⟨[], List.nil_subset _, .of_eq h⟩

theorem Records.append {mid : State} {fs fs' : List Formula} (h : Records s mid fs)
    (h' : Records mid s' fs') : Records s s' (fs ++ fs') := by
  obtain ⟨gs, hgs, hwarns⟩ := h
  obtain ⟨gs', hgs', hwarns'⟩ := h'
  exact ⟨gs ++ gs', List.append_subset.mpr ⟨List.subset_append_of_subset_left _ hgs,
    List.subset_append_of_subset_right _ hgs'⟩, hwarns.trans hwarns'⟩

theorem recordArguments_records {args : List Argument} {u : Unit}
    (h : recordArguments args c s = (.ok u, s')) :
    Records s s' (args.flatMap Argument.formulas) := by
  induction args generalizing s with
  | nil =>
    obtain ⟨-, rfl⟩ := pure_eq_ok.mp h
    exact .nil rfl _
  | cons a rest ih =>
    cases a with
    | fact => exact ih h
    | prop f =>
      cases f with
      | hole => exact ih h
      | _ =>
        obtain ⟨_, _, htype, h⟩ := bind_eq_ok.mp h
        exact Records.append ⟨_, List.Subset.refl _, typeOf_warns htype⟩ (ih h)

theorem recordJustification_records {j : Justification} {u : Unit}
    (h : recordJustification j c s = (.ok u, s')) : Records s s' j.formulas := by
  cases j with
  | apply rule args loc => exact recordArguments_records h
  | missing | block =>
    obtain ⟨-, rfl⟩ := pure_eq_ok.mp h
    exact .nil rfl _

theorem recordStatement_records {st : Statement} {u : Unit}
    (h : recordStatement st c s = (.ok u, s')) : Records s s' st.formulas := by
  cases st with
  | step claim j loc =>
    unfold recordStatement at h
    dsimp only at h
    split at h
    · exact (Records.nil rfl claim.formula.subformulas).append (recordJustification_records h)
    · obtain ⟨_, _, htype, h⟩ := bind_eq_ok.mp h
      exact Records.append ⟨_, List.Subset.refl _, typeOf_warns htype⟩
        (recordJustification_records h)
  | missing | block =>
    obtain ⟨-, rfl⟩ := pure_eq_ok.mp h
    exact .nil rfl _

theorem recordSteps_records (st : Steps) {s : State} {u : Unit}
    (h : recordSteps st c s = (.ok u, s')) : Records s s' st.formulas := by
  cases st with
  | last st => exact recordStatement_records h
  | conclude j loc => exact recordJustification_records h
  | more st rest =>
    obtain ⟨_, _, hst, h⟩ := bind_eq_ok.mp h
    exact (recordStatement_records hst).append (recordSteps_records rest h)

/-! ## Proofs -/

theorem stepHead_warns {claim : Claim} {name : String} {t : Option TypeExpr}
    (h : stepHead claim c s = (.ok (name, t), s')) :
    Warns s.warnings s'.warnings [] claim.formula.subformulas := by
  obtain ⟨-, ⟨hhole, -, rfl⟩ | ⟨u, -, hu, -⟩⟩ := stepHead_eq_ok h
  · rw [Formula.subformulas_of_isHole hhole]
    exact .of_eq rfl
  · exact typeOf_warns hu

theorem hypotheses_warns {hyps : List Claim} {hs : List Hypothesis}
    (h : hypotheses hyps c s = (.ok hs, s')) :
    Warns s.warnings s'.warnings [] (hyps.flatMap (·.formula.subformulas)) := by
  induction hyps generalizing s hs with
  | nil =>
    obtain ⟨-, rfl⟩ := pure_eq_ok.mp h
    exact .of_eq rfl
  | cons hyp rest ih =>
    simp only [hypotheses, bind_eq_ok] at h
    obtain ⟨_, s₁, henter, t, s₂, htype, _, s₃, hdeclare, more, s₄, hmore, h⟩ := h
    obtain ⟨-, rfl⟩ := pure_eq_ok.mp h
    have hfirst := typeOf_warns htype
    rw [warnings_of_onFrames henter, ← warnings_of_declare hdeclare] at hfirst
    exact hfirst.trans (ih hmore)

mutual

theorem proof_warns {c : Context} {s s' : State} {declared : Bool} {body : Body}
    {ret : Option TypeExpr} :
    (p : Proof) → proof declared p c s = (.ok (body, ret), s') →
      Warns s.warnings s'.warnings (gatherProof applicationNames declared c s p) p.formulas
  | .mk st loc, h => by
    simp only [proof, bind_eq_ok] at h
    obtain ⟨_, mid, hrecord, ⟨stmts, value, ret'⟩, s₂, hsteps, h⟩ := h
    obtain ⟨-, rfl⟩ := pure_eq_ok.mp h
    rw [gatherProof, hrecord]
    -- What is recorded first is a part of what the steps encode.
    obtain ⟨gs, hgs, hfirst⟩ := recordSteps_records st hrecord
    exact hfirst.again (steps_warns st hsteps) hgs

theorem steps_warns {c : Context} {s s' : State} {declared : Bool} {stmts : List Stmt}
    {value : Expr} {ret : Option TypeExpr} :
    (st : Steps) → steps declared st c s = (.ok (stmts, value, ret), s') →
      Warns s.warnings s'.warnings (gatherSteps applicationNames declared c s st) st.formulas
  | .last st, h => final_warns st h
  | .conclude j loc, h => by
    simp only [steps, bind_eq_ok] at h
    obtain ⟨value', mid, hj, h⟩ := h
    obtain ⟨-, rfl⟩ := pure_eq_ok.mp h
    exact justification_warns j hj
  | .more st rest, h => by
    simp only [steps, bind_eq_ok] at h
    obtain ⟨stmt, mid, hst, ⟨stmts', value', ret'⟩, s₂, hrest, h⟩ := h
    obtain ⟨-, rfl⟩ := pure_eq_ok.mp h
    rw [gatherSteps, hst]
    exact (statement_warns st hst).trans (steps_warns rest hrest)

theorem final_warns {c : Context} {s s' : State} {declared : Bool} {stmts : List Stmt}
    {value : Expr} {ret : Option TypeExpr} :
    (st : Statement) → final declared st c s = (.ok (stmts, value, ret), s') →
      Warns s.warnings s'.warnings (gatherFinal applicationNames declared c s st) st.formulas
  | .missing, h => absurd h broken_ne_ok
  | .block bl, h => by
    simp only [final, bind_eq_ok] at h
    obtain ⟨value', mid, hblock, h⟩ := h
    obtain ⟨-, rfl⟩ := pure_eq_ok.mp h
    exact block_warns bl hblock
  | .step claim j loc, h => by
    rw [gatherFinal]
    cases hhole : claim.formula.isHole with
    | true =>
      simp only [final, hhole, if_true, bind_eq_ok] at h
      obtain ⟨value', mid, hj, h⟩ := h
      obtain ⟨-, rfl⟩ := pure_eq_ok.mp h
      rw [Statement.formulas, Formula.subformulas_of_isHole hhole]
      exact justification_warns j hj
    | false =>
      cases declared with
      | true =>
        simp only [final, hhole, Bool.false_eq_true, if_false, if_true, bind_eq_ok] at h
        obtain ⟨⟨name, t⟩, s₁, hhead, value', s₂, hj, _, s₃, hdeclare, h⟩ := h
        obtain ⟨-, rfl⟩ := pure_eq_ok.mp h
        simp only [Bool.false_eq_true, if_false, if_true, hhead]
        rw [warnings_of_declare hdeclare]
        exact (stepHead_warns hhead).trans (justification_warns j hj)
      | false =>
        simp only [final, hhole, Bool.false_eq_true, if_false, bind_eq_ok] at h
        obtain ⟨t, s₁, htype, value', s₂, hj, h⟩ := h
        obtain ⟨-, rfl⟩ := pure_eq_ok.mp h
        simp only [Bool.false_eq_true, if_false, htype]
        exact (typeOf_warns htype).trans (justification_warns j hj)

theorem statement_warns {c : Context} {s s' : State} {stmt : Stmt} :
    (st : Statement) → statement st c s = (.ok stmt, s') →
      Warns s.warnings s'.warnings (gatherStatement applicationNames c s st) st.formulas
  | .missing, h => absurd h broken_ne_ok
  | .block bl, h => by
    simp only [statement, bind_eq_ok] at h
    obtain ⟨value, mid, hblock, h⟩ := h
    obtain ⟨-, rfl⟩ := pure_eq_ok.mp h
    exact block_warns bl hblock
  | .step claim j loc, h => by
    simp only [statement, bind_eq_ok] at h
    obtain ⟨⟨name, t⟩, s₁, hhead, value, s₂, hj, _, s₃, hdeclare, h⟩ := h
    obtain ⟨-, rfl⟩ := pure_eq_ok.mp h
    rw [gatherStatement, hhead, warnings_of_declare hdeclare]
    exact (stepHead_warns hhead).trans (justification_warns j hj)

theorem justification_warns {c : Context} {s s' : State} {e : Expr} :
    (j : Justification) → justification j c s = (.ok e, s') →
      Warns s.warnings s'.warnings (gatherJustification applicationNames c s j) j.formulas
  | .missing, h => absurd h broken_ne_ok
  | .apply _ _ _, h => application_warns h
  | .block bl, h => block_warns bl h

theorem block_warns {c : Context} {s s' : State} {e : Expr} :
    (bl : Block) → block bl c s = (.ok e, s') →
      Warns s.warnings s'.warnings (gatherBlock applicationNames c s bl) bl.formulas
  | .assume hyps p loc, h => by
    simp only [block, bind_eq_ok] at h
    obtain ⟨_, s₁, hpush, hs, s₂, hhyps, ⟨body, ret⟩, s₃, hp, value, s₄, hclose, _, s₅, hpop, h⟩ :=
      h
    obtain ⟨-, rfl⟩ := pure_eq_ok.mp h
    rw [gatherBlock, hpush, hhyps]
    obtain rfl := modify_eq_ok.mp hpush
    obtain rfl := modify_eq_ok.mp hpop
    have hinside := (hypotheses_warns hhyps).trans (proof_warns p hp)
    rw [← warnings_of_closeHypotheses hclose] at hinside
    exact hinside
  | .generalize vars p loc, h => by
    simp only [block, bind_eq_ok] at h
    obtain ⟨_, s₁, hpush, _, s₂, hbind, ⟨body, ret⟩, s₃, hp, _, s₄, hunbind, value, s₅, hclose, _,
      s₆, hpop, h⟩ := h
    obtain ⟨-, rfl⟩ := pure_eq_ok.mp h
    rw [gatherBlock, hpush, hbind]
    obtain rfl := modify_eq_ok.mp hpush
    obtain rfl := modify_eq_ok.mp hpop
    obtain ⟨-, -, rfl⟩ := closeVariables_eq_ok hclose
    have hinside := proof_warns p hp
    rw [warnings_of_onFrames hbind, ← warnings_of_onFrames hunbind] at hinside
    exact hinside

end

/-! ## Theorems -/

theorem theoremArrow_warns {t : Theorem} {e : Expr} {isThunk : Bool}
    (h : theoremArrow t c s = (.ok (e, isThunk), s')) :
    Warns s.warnings s'.warnings (gatherTheorem applicationNames c s t)
      (t.claim.formula.subformulas ++ t.proof.formulas) := by
  unfold theoremArrow at h
  unfold gatherTheorem
  cases hsequent : sequent? t with
  | some hp =>
    obtain ⟨hyps, p⟩ := hp
    simp only [hsequent, bind_eq_ok] at h
    obtain ⟨hs, s₁, hhyps, claim, s₂, hclaim, ⟨body, ret⟩, s₃, hp, arrow, s₄, hclose, h⟩ := h
    obtain ⟨-, rfl⟩ := pure_eq_ok.mp h
    obtain ⟨loc, loc', hproof⟩ := sequent?_eq_some hsequent
    dsimp only
    rw [hhyps, hclaim, hproof]
    -- The hypotheses are encoded in front of the claim.
    have hinside := ((hypotheses_warns hhyps).trans (typeOf_warns hclaim)).trans (proof_warns p hp)
    rw [warnings_of_closeHypotheses hclose]
    refine hinside.perm ?_
    rw [List.append_assoc]
    exact List.perm_append_comm_assoc _ _ _
  | none =>
    simp only [hsequent, bind_eq_ok] at h
    obtain ⟨_, s₁, henter, claim, s₂, hclaim, ⟨body, ret⟩, s₃, hp, tparams, s₄, hexit, h⟩ := h
    obtain ⟨-, rfl⟩ := pure_eq_ok.mp h
    dsimp only
    rw [henter, hclaim]
    rw [← warnings_of_onFrames henter, warnings_of_exit hexit]
    exact (typeOf_warns hclaim).trans (proof_warns t.proof hp)

theorem theoremDecl_warns {t : Theorem} {decl : Stmt} (h : theoremDecl t c s = (.ok decl, s')) :
    Warns s.warnings s'.warnings (gatherTheorem applicationNames c (pushScope c s).2 t)
      (t.claim.formula.subformulas ++ t.proof.formulas) := by
  simp only [theoremDecl] at h
  cases hname : t.claim.name.map escapeIdent with
  | none =>
    simp only [hname, bind_eq_ok] at h
    obtain ⟨_, s₂, hpush, ⟨arrow, isThunk⟩, s₃, harrow, _, s₄, hpop, h⟩ := h
    obtain ⟨-, rfl⟩ := pure_eq_ok.mp h
    obtain rfl := modify_eq_ok.mp hpush
    obtain rfl := modify_eq_ok.mp hpop
    exact theoremArrow_warns harrow
  | some name =>
    simp only [hname, bind_eq_ok] at h
    obtain ⟨_, s₁, hcheck, _, s₂, hpush, ⟨arrow, isThunk⟩, s₃, harrow, _, s₄, hpop, _, s₅, hdeclare,
      h⟩ := h
    obtain ⟨-, rfl⟩ := checkTheoremName_eq_ok hcheck
    obtain rfl := modify_eq_ok.mp hpush
    obtain rfl := modify_eq_ok.mp hpop
    have hinside := theoremArrow_warns harrow
    have hdeclared := warnings_of_declare hdeclare
    dsimp only at hdeclared
    rw [← hdeclared] at hinside
    split at h
    · obtain ⟨_, _, hthunk, h⟩ := bind_eq_ok.mp h
      obtain rfl := modify_eq_ok.mp hthunk
      obtain ⟨-, rfl⟩ := pure_eq_ok.mp h
      exact hinside
    · obtain ⟨-, rfl⟩ := pure_eq_ok.mp h
      exact hinside

theorem theoremDecls_warns {ts : List Theorem} {decls : List Stmt}
    (h : theoremDecls ts c s = (.ok decls, s')) :
    Warns s.warnings s'.warnings (gatherTheorems applicationNames c s ts)
      (ts.flatMap fun t => t.claim.formula.subformulas ++ t.proof.formulas) := by
  induction ts generalizing s decls with
  | nil =>
    obtain ⟨-, rfl⟩ := pure_eq_ok.mp h
    exact .of_eq rfl
  | cons t rest ih =>
    obtain ⟨decl, more, mid, -, hdecl, -, hmore⟩ := theoremDecls_cons_eq_ok h
    rw [gatherTheorems, hdecl]
    exact (theoremDecl_warns hdecl).trans (ih hmore)

end Generate

/-! ## Names and atoms -/

/-- The name of a use at its place. -/
def Generate.NameUse.occurrence (u : Generate.NameUse) : Occurrence := ⟨.use, u.name, u.loc⟩

namespace Generate

variable (c : Context)

theorem nameUse?_occurrences (s : State) (a : Argument) :
    (nameUse? s a).toList.map NameUse.occurrence = occurrencesOf .use a.occurrences := by
  cases a with
  | fact => rfl
  | prop f => simp [nameUse?, Argument.occurrences]

theorem argumentNames_occurrences (s : State) (args : List Argument) :
    (argumentNames c s args).map NameUse.occurrence =
      occurrencesOf .use (args.flatMap Argument.occurrences) := by
  induction args generalizing s with
  | nil => rfl
  | cons a rest ih =>
    rw [argumentNames, List.map_append, nameUse?_occurrences, ih, List.flatMap_cons,
      occurrencesOf_append]

theorem applicationNames_occurrences (rule : String) (args : List Argument) (loc : Location)
    (s : State) : (applicationNames rule args loc c s).map NameUse.occurrence =
      occurrencesOf .use (Justification.apply rule args loc).occurrences := by
  have hargs : occurrencesOf .use (Justification.apply rule args loc).occurrences =
      ⟨.use, rule, loc⟩ :: occurrencesOf .use (args.flatMap Argument.occurrences) := rfl
  rw [applicationNames, hargs]
  split
  · rw [List.map_cons, List.filterMap_eq_flatMap_toList, List.map_flatMap, occurrencesOf_flatMap]
    simp only [nameUse?_occurrences]
    rfl
  · rw [List.map_cons, argumentNames_occurrences]
    rfl

mutual

theorem gatherProof_occurrences (declared : Bool) (s : State) : (p : Proof) →
    (gatherProof applicationNames declared c s p).map NameUse.occurrence =
      occurrencesOf .use p.occurrences
  | .mk st _ => gatherSteps_occurrences declared _ st

theorem gatherSteps_occurrences (declared : Bool) (s : State) : (st : Steps) →
    (gatherSteps applicationNames declared c s st).map NameUse.occurrence =
      occurrencesOf .use st.occurrences
  | .last st => gatherFinal_occurrences declared s st
  | .conclude j _ => gatherJustification_occurrences s j
  | .more st rest => by
    rw [gatherSteps, List.map_append, gatherStatement_occurrences s st,
      gatherSteps_occurrences declared _ rest, Steps.occurrences, occurrencesOf_append]

theorem gatherFinal_occurrences (declared : Bool) (s : State) : (st : Statement) →
    (gatherFinal applicationNames declared c s st).map NameUse.occurrence =
      occurrencesOf .use st.occurrences
  | .missing => rfl
  | .block b => gatherBlock_occurrences s b
  | .step claim j _ => by
    have hj : ∀ s, (gatherJustification applicationNames c s j).map NameUse.occurrence =
        occurrencesOf .use (claim.occurrences ++ j.occurrences) := by
      intro s
      simp [gatherJustification_occurrences s j, Claim.occurrences]
    rw [gatherFinal]
    split
    · exact hj _
    · split
      · exact hj _
      · exact hj _

theorem gatherStatement_occurrences (s : State) : (st : Statement) →
    (gatherStatement applicationNames c s st).map NameUse.occurrence =
      occurrencesOf .use st.occurrences
  | .missing => rfl
  | .block b => gatherBlock_occurrences s b
  | .step claim j _ => by
    simp [gatherStatement, gatherJustification_occurrences _ j, Statement.occurrences,
      Claim.occurrences]

theorem gatherJustification_occurrences (s : State) : (j : Justification) →
    (gatherJustification applicationNames c s j).map NameUse.occurrence =
      occurrencesOf .use j.occurrences
  | .missing => rfl
  | .apply rule args loc => applicationNames_occurrences c rule args loc s
  | .block b => gatherBlock_occurrences s b

theorem gatherBlock_occurrences (s : State) : (b : Block) →
    (gatherBlock applicationNames c s b).map NameUse.occurrence = occurrencesOf .use b.occurrences
  | .assume hyps p _ => by
    simp [gatherBlock, gatherProof_occurrences false _ p, Block.occurrences, Claim.occurrences]
  | .generalize _ p _ => gatherProof_occurrences false _ p

end

theorem gatherTheorems_occurrences (s : State) (ts : List Theorem) :
    (gatherTheorems applicationNames c s ts).map NameUse.occurrence =
      occurrencesOf .use (ts.flatMap Theorem.occurrences) := by
  induction ts generalizing s with
  | nil => rfl
  | cons t rest ih =>
    have hproof : (gatherTheorem applicationNames c (pushScope c s).2 t).map NameUse.occurrence =
        occurrencesOf .use t.proof.occurrences := by
      unfold gatherTheorem
      split
      · rename_i hyps p hsequent
        obtain ⟨loc, loc', hproof⟩ := sequent?_eq_some hsequent
        rw [gatherProof_occurrences, hproof]
        simp [Proof.occurrences, Steps.occurrences, Statement.occurrences, Block.occurrences,
          Claim.occurrences]
      · exact gatherProof_occurrences c true _ t.proof
    rw [gatherTheorems, List.map_append, ih, hproof, List.flatMap_cons, occurrencesOf_append]
    simp [Theorem.occurrences, Claim.occurrences]

end Generate

/-- The uses of names are all the names in a document that are used, in order. -/
theorem Document.nameUses_occurrences (d : Document) (systemF : Bool) :
    (d.nameUses systemF).map Generate.NameUse.occurrence = occurrencesOf .use d.occurrences :=
  Generate.gatherTheorems_occurrences _ _ d.theorems

theorem Argument.formulas_occurrences (a : Argument) :
    a.formulas.filterMap Formula.atom? = occurrencesOf .atom a.occurrences := by
  cases a with
  | fact => rfl
  | prop f => simp [Argument.formulas, Argument.occurrences, ← f.occurrences_eq]

theorem Claim.formulas_occurrences (c : Claim) :
    c.formula.subformulas.filterMap Formula.atom? = occurrencesOf .atom c.occurrences := by
  simp [Claim.occurrences, ← c.formula.occurrences_eq]

mutual

theorem Proof.formulas_occurrences : (p : Proof) →
    p.formulas.filterMap Formula.atom? = occurrencesOf .atom p.occurrences
  | .mk st _ => st.formulas_occurrences

theorem Steps.formulas_occurrences : (st : Steps) →
    st.formulas.filterMap Formula.atom? = occurrencesOf .atom st.occurrences
  | .last st => st.formulas_occurrences
  | .conclude j _ => j.formulas_occurrences
  | .more st rest => by
    rw [Steps.formulas, List.filterMap_append, st.formulas_occurrences, rest.formulas_occurrences,
      Steps.occurrences, occurrencesOf_append]

theorem Statement.formulas_occurrences : (st : Statement) →
    st.formulas.filterMap Formula.atom? = occurrencesOf .atom st.occurrences
  | .missing => rfl
  | .step c j _ => by
    rw [Statement.formulas, List.filterMap_append, c.formulas_occurrences, j.formulas_occurrences,
      Statement.occurrences, occurrencesOf_append]
  | .block b => b.formulas_occurrences

theorem Justification.formulas_occurrences : (j : Justification) →
    j.formulas.filterMap Formula.atom? = occurrencesOf .atom j.occurrences
  | .missing => rfl
  | .apply rule args loc => by
    simp only [Justification.formulas, List.filterMap_flatMap, Argument.formulas_occurrences]
    rw [← occurrencesOf_flatMap]
    rfl
  | .block b => b.formulas_occurrences

theorem Block.formulas_occurrences : (b : Block) →
    b.formulas.filterMap Formula.atom? = occurrencesOf .atom b.occurrences
  | .assume hyps p _ => by
    simp [Block.formulas, Block.occurrences, List.filterMap_flatMap, Claim.formulas_occurrences,
      p.formulas_occurrences]
  | .generalize _ p _ => p.formulas_occurrences

end

/-- The atoms among the propositions are all atoms in a document, in order. -/
theorem Document.formulas_occurrences (d : Document) :
    d.formulas.filterMap Formula.atom? = occurrencesOf .atom d.occurrences := by
  simp [Document.formulas, Document.occurrences, List.filterMap_flatMap, Theorem.occurrences,
    Claim.formulas_occurrences, Proof.formulas_occurrences]

/-! ## Scripts -/

section Scripts

variable {src : List UInt8} {systemF : Bool} {d : Document}

/-- The warning of an atom stands at its place. -/
theorem Formula.arityWarning?_eq_some {f : Formula} {w : Warning} (h : f.arityWarning? = some w) :
    ∃ o, f.atom? = some o ∧ o.loc = w.loc := by
  unfold arityWarning? at h
  split at h
  · obtain ⟨-, h⟩ := Option.ite_none_right_eq_some.mp h
    exact ⟨_, rfl, congrArg Warning.loc (Option.some.inj h)⟩
  · cases h

/-- Two names of a document at one place are the same. -/
theorem occurrence_eq_of_loc_eq (h : parse src systemF = .ok d) {o o' : Occurrence}
    (ho : o ∈ d.occurrences) (ho' : o' ∈ d.occurrences) (hloc : o.loc = o'.loc) : o = o' :=
  List.inj_on_of_nodup_map (parse_places_nodup h) ho ho' (congrArg Location.toPosition hloc)

/-- No two uses of `sorry` or atoms of a script have the same warning. -/
theorem warnings_nodup (h : parse src systemF = .ok d) :
    (Generate.sorryWarnings (d.nameUses systemF) ++ arityWarnings d.formulas).Nodup := by
  have hplaces : (d.occurrences.map (·.loc)).Nodup := by
    refine List.Nodup.of_map Location.toPosition ?_
    rw [List.map_map]
    exact parse_places_nodup h
  have hof (role : NameRole) : ((occurrencesOf role d.occurrences).map (·.loc)).Nodup :=
    hplaces.sublist (List.filter_sublist.map _)
  refine List.nodup_append.mpr ⟨?_, ?_, ?_⟩
  · have huses := hof .use
    rw [← d.nameUses_occurrences systemF, List.map_map] at huses
    refine List.Nodup.of_map Warning.loc ?_
    rw [Generate.sorryWarnings, List.map_map]
    exact huses.sublist (List.filter_sublist.map _)
  · have hatoms := hof .atom
    rw [← d.formulas_occurrences, List.Nodup, List.pairwise_map, List.pairwise_filterMap] at hatoms
    rw [arityWarnings, List.Nodup, List.pairwise_filterMap]
    refine hatoms.imp fun {f g} hapart w hw w' hw' heq => ?_
    obtain ⟨o, ho, hloc⟩ := Formula.arityWarning?_eq_some hw
    obtain ⟨o', ho', hloc'⟩ := Formula.arityWarning?_eq_some hw'
    exact hapart o ho o' ho' (by rw [hloc, hloc', heq])
  · intro w hw w' hw' heq
    obtain ⟨u, hu, rfl⟩ := List.mem_map.mp hw
    obtain ⟨f, hf, hf'⟩ := List.mem_filterMap.mp hw'
    obtain ⟨o, ho, hloc⟩ := Formula.arityWarning?_eq_some hf'
    have huse : u.occurrence ∈ occurrencesOf .use d.occurrences :=
      d.nameUses_occurrences systemF ▸ List.mem_map_of_mem (List.mem_filter.mp hu).1
    have hatom : o ∈ occurrencesOf .atom d.occurrences :=
      d.formulas_occurrences ▸ List.mem_filterMap.mpr ⟨f, hf, ho⟩
    obtain ⟨huse, -⟩ := List.mem_filter.mp huse
    obtain ⟨hatom, hrole⟩ := List.mem_filter.mp hatom
    obtain rfl := occurrence_eq_of_loc_eq h huse hatom (by rw [hloc, ← heq]; rfl)
    simp [Generate.NameUse.occurrence] at hrole

end Scripts

/-- The warnings of a compilation are, each once, those of the names that generation takes for the
rule `sorry` of the library and those of the atoms with more than one argument, wherever a
proposition stands. The names that are looked at are all rules and all arguments by name. -/
theorem compile_warns {src : List UInt8} {systemF : Bool} {c : Compilation}
    (h : (compile src systemF).1 = .ok c) :
    c.warnings.Nodup ∧
      c.warnings.Perm (Generate.sorryWarnings (c.document.nameUses systemF) ++
        arityWarnings c.document.formulas) ∧
      (c.document.nameUses systemF).map Generate.NameUse.occurrence =
        occurrencesOf .use c.document.occurrences := by
  obtain ⟨s, hparse, hgenerate, -, hwarnings, -⟩ := compile_eq_ok h
  have hwarns := Generate.theoremDecls_warns hgenerate
  rw [← hwarnings] at hwarns
  have hnodup := hwarns.nodup List.nodup_nil
  refine ⟨hnodup, ?_, c.document.nameUses_occurrences systemF⟩
  refine (List.perm_ext_iff_of_nodup hnodup (warnings_nodup hparse)).mpr fun w => ?_
  rw [hwarns.mem, List.mem_append]
  simp [Generate.State.empty, Document.nameUses, Document.gather, Document.formulas]

/-- A rule is warned of, a hypothesis of the same name is not. An atom is warned of once, although
its proposition is encoded twice. -/
theorem compile_warns_shadowed :
    ∃ c, (compile (Text.bytes "theorem s : P[X, Y] by id sorry
      theorem t : Q => Q
      assume sorry : Q \x7b have r : P[X, Y] by s; by sorry \x7d") true).1 = .ok c ∧
    c.warnings.length = 3 ∧ c.warnings.Nodup ∧
      c.warnings.Perm (Generate.sorryWarnings (c.document.nameUses true) ++
        arityWarnings c.document.formulas) ∧
      (c.document.nameUses true).map Generate.NameUse.occurrence =
        occurrencesOf .use c.document.occurrences := by
  generalize hsrc : Text.bytes _ = src
  have hchecked : (compile src true).1.toOption.any (fun c => c.warnings.length = 3) = true := by
    rw [← hsrc]
    decide +kernel
  obtain ⟨c, h, hlength⟩ := exists_ok_of_any hchecked
  exact ⟨c, h, of_decide_eq_true hlength, compile_warns h⟩

end ProofScript
