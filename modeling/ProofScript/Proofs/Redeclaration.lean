import ProofScript.Proofs.TypeParameters

/-!
# Type parameters that are declared again

A generalization opens no frame, so what its proof mentions is recorded in the frame around it, and
only when the generalization is reached. A block that was closed before may have declared the same
atom. A document is timely if no generalization records an atom that a closed block had to declare.
In the program of a document, no arrow of a theorem or a hypothesis declares what such an arrow around
it declares exactly if the document is timely.
-/

namespace ProofScript

open Program

/-! ## Programs -/

namespace Program

/-- Does no arrow with a parameter declare one of the given types, or one that an arrow with a
parameter around it declares? Arrows without parameters bind the variables of a generalization. -/
@[simps]
def Walk.once : Walk (List String) Bool where
  empty := true
  append := and
  inside types tparams params := if params.isEmpty then types else tparams ++ types
  arrow types tparams params _ _ body := (params.isEmpty || tparams.all (· ∉ types)) && body

instance Walk.lawful_once : Walk.once.Lawful where
  empty_append := Bool.true_and
  append_empty := Bool.and_true
  append_assoc := Bool.and_assoc
  within_nil _ := rfl

/-- Does no arrow inside this one declare again what it declares? The arrow of a theorem counts,
whether it has a parameter or not. -/
def Expr.declaresOnce : Expr → Bool
  | .arrow tparams _ _ body _ => Walk.once.body tparams body
  | .paren e => e.declaresOnce
  | e => Walk.once.expr [] e

/-- Does no arrow in the declaration of a theorem declare again what an arrow around it declares? -/
def Stmt.declaresOnce : Stmt → Bool
  | .const _ _ value _ _ _ _ => value.declaresOnce
  | .expr e _ => e.declaresOnce
  | s => Walk.once.stmt [] s

theorem Walk.flat_once : Walk.once.Flat := fun _ _ _ => rfl

theorem Walk.once_arrow_param (types tparams : List String) (param : Param) (ret : Option TypeExpr)
    (body : Body) (o : Option Location) :
    Walk.once.expr types (.arrow tparams [param] ret body o) =
      (tparams.all (· ∉ types) && Walk.once.body (tparams ++ types) body) := by
  simp [Walk.expr]

end Program

/-! ## Documents -/

mutual

/-- The atoms that a proof records in the frame around it. -/
def Proof.level (bound : List String) : Proof → List String
  | .mk s _ => s.atoms bound ++ s.late bound

/-- The atoms that the generalizations among steps record. -/
def Steps.late (bound : List String) : Steps → List String
  | .last s => s.late bound
  | .conclude j _ => j.late bound
  | .more s rest => s.late bound ++ rest.late bound

/-- The atoms that the generalizations in a statement record. -/
def Statement.late (bound : List String) : Statement → List String
  | .missing => []
  | .step _ j _ => j.late bound
  | .block b => b.late bound

/-- The atoms that the generalizations in a justification record. -/
def Justification.late (bound : List String) : Justification → List String
  | .missing => []
  | .apply .. => []
  | .block b => b.late bound

/-- The atoms that a generalization records. Other blocks have a frame of their own. -/
def Block.late (bound : List String) : Block → List String
  | .assume .. => []
  | .generalize vars p _ => p.level (vars.reverse ++ bound)

end

/-- The atom is not recorded after a block declares it: it is recorded already, it needs no
declaration, or it is not recorded later. -/
def inTime (known future : List String) (a : String) : Bool :=
  a ∈ known || a ∈ Frames.constants || a ∉ future

/-- What an outer frame records in time is in time further in. -/
theorem all_inTime_append (names more known future : List String) :
    (names ++ more).all (inTime known future) =
      (names.all (inTime known future) && more.all (inTime (names ++ known) future)) := by
  have hsplit : ∀ a, inTime (names ++ known) future a = (decide (a ∈ names) || inTime known future a) := by
    intro a
    simp [inTime, Bool.or_assoc]
  rw [List.all_append, Bool.eq_iff_iff]
  simp only [Bool.and_eq_true, List.all_eq_true, hsplit, Bool.or_eq_true, decide_eq_true_eq]
  constructor
  · rintro ⟨hnames, hmore⟩
    exact ⟨hnames, fun a ha => .inr (hmore a ha)⟩
  · rintro ⟨hnames, hmore⟩
    exact ⟨hnames, fun a ha => (hmore a ha).elim (hnames a) id⟩

mutual

/-- Does no block in the proof declare an atom that is recorded later in a frame around it? The frames
around record the atoms `known` already, and the atoms `future` behind the proof. -/
def Proof.timely (bound known future : List String) : Proof → Bool
  | .mk s _ => s.timely bound (s.atoms bound ++ known) future

/-- The same for steps whose own atoms are recorded. -/
def Steps.timely (bound known future : List String) : Steps → Bool
  | .last s => s.timely bound known future
  | .conclude j _ => j.timely bound known future
  | .more s rest =>
    s.timely bound known (rest.late bound ++ future) &&
      rest.timely bound (s.late bound ++ known) future

/-- The same for a statement. -/
def Statement.timely (bound known future : List String) : Statement → Bool
  | .missing => true
  | .step _ j _ => j.timely bound known future
  | .block b => b.timely bound known future

/-- The same for a justification. -/
def Justification.timely (bound known future : List String) : Justification → Bool
  | .missing => true
  | .apply .. => true
  | .block b => b.timely bound known future

/-- The same for a block. -/
def Block.timely (bound known future : List String) : Block → Bool
  | .assume hyps p _ =>
    let own := hyps.flatMap (·.formula.atoms bound)
    (own ++ p.level bound).all (inTime known future) && p.timely bound (own ++ known) future
  | .generalize vars p _ => p.timely (vars.reverse ++ bound) known future

end

/-- Does no block in the theorem declare an atom that is recorded later in a frame around it? -/
def Theorem.timely (t : Theorem) : Bool :=
  match Generate.sequent? t with
  | some (hyps, p) =>
    p.timely [] (hyps.flatMap (·.formula.atoms []) ++ t.claim.formula.atoms []) []
  | none => t.proof.timely [] (t.claim.formula.atoms []) []

/-- Does no block in the document declare an atom that is recorded later in a frame around it? -/
def Document.timely (d : Document) : Bool := d.theorems.all Theorem.timely

mutual

theorem Proof.Spelled.level {systemF : Bool} {bound : List String} :
    (p : Proof) → p.Spelled systemF → ∀ a ∈ p.level bound, IsTypeVar a
  | .mk s _, h => List.forall_mem_append.mpr ⟨Steps.Spelled.atoms s h, Steps.Spelled.late s h⟩

theorem Steps.Spelled.late {systemF : Bool} {bound : List String} :
    (st : Steps) → st.Spelled systemF → ∀ a ∈ st.late bound, IsTypeVar a
  | .last s, h => Statement.Spelled.late s h
  | .conclude j _, h => Justification.Spelled.late j h
  | .more s rest, h =>
    List.forall_mem_append.mpr ⟨Statement.Spelled.late s h.1, Steps.Spelled.late rest h.2⟩

theorem Statement.Spelled.late {systemF : Bool} {bound : List String} :
    (s : Statement) → s.Spelled systemF → ∀ a ∈ s.late bound, IsTypeVar a
  | .missing, _ => by simp [Statement.late]
  | .step _ j _, h => Justification.Spelled.late j h.2
  | .block b, h => Block.Spelled.late b h

theorem Justification.Spelled.late {systemF : Bool} {bound : List String} :
    (j : Justification) → j.Spelled systemF → ∀ a ∈ j.late bound, IsTypeVar a
  | .missing, _ => by simp [Justification.late]
  | .apply .., _ => by simp [Justification.late]
  | .block b, h => Block.Spelled.late b h

theorem Block.Spelled.late {systemF : Bool} {bound : List String} :
    (b : Block) → b.Spelled systemF → ∀ a ∈ b.late bound, IsTypeVar a
  | .assume .., _ => by simp [Block.late]
  | .generalize _ p _, h => Proof.Spelled.level p h.2

end

/-! ## Frames -/

namespace Frames

/-- Is the atom recorded in an open frame? -/
def Recorded (f : Frames) (a : String) : Prop := ∃ top ∈ f.frames, a ∈ top

/-- The listed atoms are those that open frames record. -/
def Knows (f : Frames) (known : List String) : Prop := ∀ a, a ∈ known ↔ f.Recorded a

/-- The arrows around declare what the open frames record and what is recorded later. -/
def Aligned (f : Frames) (types future : List String) : Prop :=
  ∀ a, IsTypeVar a → a ∉ constants → (escapeTypeVar a ∈ types ↔ f.Recorded a ∨ a ∈ future)

variable {f : Frames} {names known types future : List String} {a : String}

theorem recorded_record (hf : f.frames ≠ []) :
    (f.record names).Recorded a ↔ f.Recorded a ∨ a ∈ names := by
  obtain ⟨frames, bound⟩ := f
  cases frames with
  | nil => contradiction
  | cons top rest =>
    simp only [Recorded, record, List.modifyHead_cons, List.exists_mem_cons_iff, mem_foldl_note]
    exact or_right_comm

@[simp]
theorem recorded_enter : f.enter.Recorded a ↔ f.Recorded a := by
  simp [Recorded, enter]

theorem enter_ne_nil (f : Frames) : f.enter.frames ≠ [] := by
  simp [enter]

theorem Covers.record (h : f.Covers names) (more : List String) : (f.record more).Covers names := by
  obtain ⟨frames, bound⟩ := f
  cases frames with
  | nil => exact h
  | cons top rest =>
    intro top' htop a ha
    obtain rfl : more.foldl note top = top' := by simpa [Frames.record] using htop
    exact mem_foldl_note.mpr (.inl (h top (by simp) ha))

theorem record_ne_nil (hf : f.frames ≠ []) : (f.record names).frames ≠ [] := by
  obtain ⟨frames, bound⟩ := f
  cases frames with
  | nil => contradiction
  | cons top rest => simp [record]

theorem Knows.record (h : f.Knows known) (hf : f.frames ≠ []) :
    (f.record names).Knows (names ++ known) := by
  intro a
  rw [recorded_record hf, List.mem_append, h a, Or.comm]

/-- What is recorded from here on is declared as well. -/
theorem Aligned.of_record (h : (f.record names).Aligned types future) (hf : f.frames ≠ []) :
    f.Aligned types (names ++ future) := by
  intro a ha hconst
  rw [h a ha hconst, recorded_record hf, List.mem_append, or_assoc]

theorem mem_own {top : List String} :
    a ∈ own top f.frames ↔ a ∈ top ∧ a ∉ constants ∧ ¬ f.Recorded a := by
  simp [own, Recorded]

/-- The arrow of the frame on top declares what no frame below records. -/
theorem Aligned.exit (h : f.Aligned types future) {top : List String}
    (htop : ∀ a ∈ top, IsTypeVar a) :
    ({ f with frames := top :: f.frames } : Frames).Aligned
      ((own top f.frames).map escapeTypeVar ++ types) future := by
  intro a ha hconst
  have hown : escapeTypeVar a ∈ (own top f.frames).map escapeTypeVar ↔ a ∈ top ∧ ¬ f.Recorded a := by
    constructor
    · intro hmem
      rcases List.mem_map.mp hmem with ⟨b, hb, heq⟩
      obtain ⟨hbtop, -, hbnew⟩ := mem_own.mp hb
      obtain rfl := escapeTypeVar_inj (htop b hbtop) ha heq
      exact ⟨hbtop, hbnew⟩
    · rintro ⟨hatop, hanew⟩
      exact List.mem_map_of_mem (mem_own.mpr ⟨hatop, hconst, hanew⟩)
  have hrecorded : ({ f with frames := top :: f.frames } : Frames).Recorded a ↔
      a ∈ top ∨ f.Recorded a := by
    simp [Recorded]
  rw [List.mem_append, hown, h a ha hconst, hrecorded]
  tauto

/-- The arrow declares nothing that an arrow around it declares exactly if all its atoms are in
time. -/
theorem Aligned.all_own (h : f.Aligned types future) (hknown : f.Knows known) {top : List String}
    (htop : ∀ a ∈ top, IsTypeVar a) :
    ((own top f.frames).map escapeTypeVar).all (· ∉ types) = top.all (inTime known future) := by
  rw [Bool.eq_iff_iff, List.all_eq_true, List.all_eq_true]
  constructor
  · intro hall a ha
    by_cases hconst : a ∈ constants
    · simp [inTime, hconst]
    by_cases hrecorded : f.Recorded a
    · simp [inTime, (hknown a).mpr hrecorded]
    have hnot := hall (escapeTypeVar a) (List.mem_map_of_mem (mem_own.mpr ⟨ha, hconst, hrecorded⟩))
    have hfuture : a ∉ future := by
      intro hmem
      have := (h a (htop a ha) hconst).mpr (.inr hmem)
      simp [this] at hnot
    simp [inTime, hfuture]
  · intro hall n hn
    rcases List.mem_map.mp hn with ⟨a, ha, rfl⟩
    obtain ⟨hatop, hconst, hrecorded⟩ := mem_own.mp ha
    have hfuture : a ∉ future := by
      have := hall a hatop
      simpa [inTime, hconst, mt (hknown a).mp hrecorded] using this
    have hnot : escapeTypeVar a ∉ types := by
      rw [h a (htop a hatop) hconst]
      simp [hrecorded, hfuture]
    simpa using hnot

end Frames

/-! ## Runs -/

namespace Generate

variable {c : Context} {s s' : State}

/-- The step records the atoms `late`, and declares nothing again exactly if it is in time: `once`
tells the one for given types around, `timely` the other for what is recorded before and behind. -/
def Schedules (s s' : State) (late : List String) (once : List String → Bool)
    (timely : List String → List String → Bool) : Prop :=
  s'.frames = s.frames.record late ∧
    ∀ known types future, s.frames.frames ≠ [] → s.frames.Knows known →
      s'.frames.Aligned types future → once types = timely known future

/-- A step that records nothing new and contains no arrow. -/
theorem Schedules.of_covers {names : List String} (h : s'.frames = s.frames.record names)
    (hcovers : s.frames.Covers names) {once : List String → Bool} (honce : ∀ types, once types = true) :
    Schedules s s' [] once fun _ _ => true := by
  refine ⟨?_, fun _ types _ _ _ _ => honce types⟩
  rw [h, hcovers.record_eq, Frames.record_nil]

theorem Schedules.of_frames {late : List String} {once : List String → Bool}
    {timely : List String → List String → Bool} {a a' : State} (h : Schedules s s' late once timely)
    (hs : s.frames = a.frames) (hs' : a'.frames = s'.frames) : Schedules a a' late once timely := by
  unfold Schedules at h ⊢
  rwa [← hs, hs']

theorem Schedules.congr {late : List String} {once once' : List String → Bool}
    {timely : List String → List String → Bool} (h : Schedules s s' late once timely)
    (honce : ∀ types, once' types = once types) : Schedules s s' late once' timely := by
  refine ⟨h.1, fun known types future hne hknown htypes => ?_⟩
  rw [honce, h.2 known types future hne hknown htypes]

/-- What the second step records comes behind the first step, and what the first one records comes
before the second. -/
theorem Schedules.trans {mid : State} {late late' : List String} {once once' : List String → Bool}
    {timely timely' : List String → List String → Bool} (h : Schedules s mid late once timely)
    (h' : Schedules mid s' late' once' timely') :
    Schedules s s' (late ++ late') (fun types => once types && once' types)
      fun known future => timely known (late' ++ future) && timely' (late ++ known) future := by
  obtain ⟨hmid, htimely⟩ := h
  obtain ⟨hs', htimely'⟩ := h'
  refine ⟨by rw [hs', hmid, Frames.record_append], ?_⟩
  intro known types future hne hknown htypes
  have hmidne : mid.frames.frames ≠ [] := hmid ▸ Frames.record_ne_nil hne
  have hmidknown : mid.frames.Knows (late ++ known) := hmid ▸ hknown.record hne
  have hmidtypes : mid.frames.Aligned types (late' ++ future) := (hs' ▸ htypes).of_record hmidne
  dsimp only
  rw [htimely known types _ hne hknown hmidtypes, htimely' _ types future hmidne hmidknown htypes]

theorem Applied.once {ts : List TypeExpr} {places : List Location} {e : Expr}
    (h : Applied ts places e) (types : List String) : Walk.once.expr types e = true := by
  induction h with
  | ident => rfl
  | call _ _ _ _ ihfn ihargs => simp [Walk.expr, ihfn, Walk.exprs_eq_empty ihargs]

/-- A frame that was opened is closed again. Its arrow declares nothing again exactly if its atoms are
in time. -/
theorem exit_inTime {f : Frames} {names tparams : List String}
    (hs : s.frames = f.enter.record names) (hnames : ∀ a ∈ names, IsTypeVar a)
    (hexit : exit c s = (.ok tparams, s')) :
    s'.frames = f ∧ ∀ known types future, f.Knows known → f.Aligned types future →
      s.frames.Aligned (tparams ++ types) future ∧
        tparams.all (· ∉ types) = names.all (inTime known future) := by
  obtain ⟨hs', top, htop, rfl⟩ := exit_of_grows ⟨names, hs⟩ hexit
  obtain rfl : names.foldl Frames.note [] = top := by
    have heq := hs.symm.trans htop
    simpa [Frames.record, Frames.enter] using heq
  have hmem : ∀ a, a ∈ names.foldl Frames.note [] ↔ a ∈ names := by
    intro a
    simp [Frames.mem_foldl_note]
  have hspelled : ∀ a ∈ names.foldl Frames.note [], IsTypeVar a :=
    fun a ha => hnames a ((hmem a).mp ha)
  refine ⟨hs', ?_⟩
  intro known types future hknown htypes
  refine ⟨htop ▸ htypes.exit hspelled, ?_⟩
  rw [htypes.all_own hknown hspelled, Bool.eq_iff_iff, List.all_eq_true, List.all_eq_true]
  simp only [hmem]

/-- Hypotheses, the goal and the proof below them are in time if all their atoms are, and the proof
is where these are recorded. -/
theorem NestRun.once {goal : Option Formula} {p : Proof} {hyps : List Claim} {e : Expr}
    {systemF : Bool} (h : NestRun c goal p hyps s e s')
    (hhyps : ∀ h ∈ hyps, h.formula.SpelledIn systemF) (hgoal : ∀ g ∈ goal, g.SpelledIn systemF)
    (hp : p.Spelled systemF)
    (hproof : ∀ {s s' body ret}, ProofRun c goal.isSome p s body ret s' →
      Schedules s s' (p.level s.frames.bound) (Walk.once.body · body) (p.timely s.frames.bound)) :
    s'.frames = s.frames ∧ ∀ known around types future, s.frames.Knows known →
      s.frames.Aligned types future →
      (∀ a, a ∈ around ↔ a ∈ hyps.flatMap (·.formula.atoms s.frames.bound) ++
        goal.elim [] (Formula.atoms s.frames.bound) ++ known) →
      Walk.once.expr types e = ((hyps.flatMap (·.formula.atoms s.frames.bound) ++
        goal.elim [] (Formula.atoms s.frames.bound) ++ p.level s.frames.bound).all
          (inTime known future) && p.timely s.frames.bound around future) := by
  induction hyps generalizing s s' e with
  | nil => cases h
  | cons h₀ rest ih =>
    have hhead : ∀ a ∈ h₀.formula.atoms s.frames.bound, IsTypeVar a := (hhyps h₀ (by simp)).1.atoms
    cases h with
    | @last _ _ _ _ s₁ s₂ s₃ s₄ _ body ret tparams htype hdeclare hrun hbody hexit =>
      have hs₂ : s₂.frames = s.frames.enter.record (h₀.formula.atoms s.frames.bound) :=
        (declare_frames hdeclare).trans (typeOf_frames htype).2
      have hs₃ : s₃.frames = s.frames.enter.record (h₀.formula.atoms s.frames.bound ++
          goal.elim [] (Formula.atoms s.frames.bound)) := by
        rw [hrun.frames, hs₂, Frames.record_append]
        rfl
      have hbound : s₃.frames.bound = s.frames.bound := by rw [hs₃]; rfl
      obtain ⟨hs₄, honce⟩ := hproof hbody
      rw [hs₃, ← Frames.record_append, ← hs₃, hbound] at hs₄
      have hnames : ∀ a ∈ h₀.formula.atoms s.frames.bound ++
          goal.elim [] (Formula.atoms s.frames.bound) ++ p.level s.frames.bound, IsTypeVar a := by
        refine List.forall_mem_append.mpr
          ⟨List.forall_mem_append.mpr ⟨hhead, ?_⟩, Proof.Spelled.level p hp⟩
        cases goal with
        | none => simp
        | some g => exact (hgoal g rfl).1.atoms
      obtain ⟨hs', htparams⟩ := exit_inTime hs₄ hnames hexit
      refine ⟨hs', ?_⟩
      intro known around types future hknown htypes haround
      obtain ⟨halign, hall⟩ := htparams known types future hknown htypes
      have hknows : s₃.frames.Knows around := by
        intro a
        rw [hs₃, Frames.recorded_record s.frames.enter_ne_nil, Frames.recorded_enter, haround a,
          List.mem_append, ← hknown a]
        simp [or_comm]
      have hne : s₃.frames.frames ≠ [] := hs₃ ▸ Frames.record_ne_nil s.frames.enter_ne_nil
      have hbodyOnce : Walk.once.body (tparams ++ types) body = p.timely s₃.frames.bound around future :=
        honce around (tparams ++ types) future hne hknows halign
      rw [Walk.once_arrow_param, hall, hbodyOnce, hbound]
      simp
    | @more _ _ _ h₁ rest _ s₁ s₂ s₃ _ inner tparams htype hdeclare hinner hexit =>
      have hs₂ : s₂.frames = s.frames.enter.record (h₀.formula.atoms s.frames.bound) :=
        (declare_frames hdeclare).trans (typeOf_frames htype).2
      have hbound : s₂.frames.bound = s.frames.bound := by rw [hs₂]; rfl
      obtain ⟨hs₃, honce⟩ := ih hinner fun h hh => hhyps h (List.mem_cons_of_mem _ hh)
      obtain ⟨hs', htparams⟩ := exit_inTime (hs₃.trans hs₂) hhead hexit
      refine ⟨hs', ?_⟩
      intro known around types future hknown htypes haround
      obtain ⟨halign, hall⟩ := htparams known types future hknown htypes
      have hknows : s₂.frames.Knows (h₀.formula.atoms s.frames.bound ++ known) := by
        intro a
        rw [hs₂, Frames.recorded_record s.frames.enter_ne_nil, Frames.recorded_enter,
          List.mem_append, ← hknown a, or_comm]
      rw [hbound] at honce
      have hinnerOnce := honce (h₀.formula.atoms s.frames.bound ++ known) around (tparams ++ types)
        future hknows (hs₃ ▸ halign) (by grind)
      have hsplit : ∀ own more : List String,
          ((h₀ :: h₁ :: rest).flatMap (·.formula.atoms s.frames.bound) ++ own ++ more).all
            (inTime known future) =
          ((h₀.formula.atoms s.frames.bound).all (inTime known future) &&
            ((h₁ :: rest).flatMap (·.formula.atoms s.frames.bound) ++ own ++ more).all
              (inTime (h₀.formula.atoms s.frames.bound ++ known) future)) := by
        intro own more
        rw [List.flatMap_cons, List.append_assoc, List.append_assoc, all_inTime_append,
          ← List.append_assoc]
      rw [Walk.once_arrow_param, hall, Walk.body, hinnerOnce, hsplit, Bool.and_assoc]

/-- An arrow with a parameter counts as the one of a theorem. -/
theorem NestRun.declaresOnce {goal : Option Formula} {p : Proof} {hyps : List Claim} {e : Expr}
    (h : NestRun c goal p hyps s e s') : e.declaresOnce = Walk.once.expr [] e := by
  cases h with
  | last => simp [Expr.declaresOnce, Walk.expr]
  | more => simp [Expr.declaresOnce, Walk.expr]

/-- The annotation of a constant is recorded already. -/
theorem constant_schedules {claim : Claim} (loc : Location) {s₁ s₂ : State} {value : Expr}
    {j : Justification}
    (hhead : stepHead claim c s = (.ok (claim.binding, claim.annotation), s₁))
    (hcovers : s.frames.Covers (claim.formula.atoms s.frames.bound))
    (hvalue : Schedules s₁ s₂ (j.late s₁.frames.bound) (Walk.once.expr · value) (j.timely s₁.frames.bound))
    (hdeclare : declare claim.binding claim.loc c s₂ = (.ok (), s')) :
    Schedules s s' (j.late s.frames.bound)
      (Walk.once.stmt · (.const claim.binding claim.annotation value false false none (some loc)))
      (j.timely s.frames.bound) := by
  have hs₁ := (stepHead_frames hhead).trans hcovers.record_eq
  rw [hs₁] at hvalue
  refine (hvalue.of_frames hs₁ (declare_frames hdeclare)).congr fun types => ?_
  rw [Walk.stmt, Walk.once_const]

mutual

theorem ProofRun.schedules {c : Context} {s s' : State} {systemF declared : Bool} {body : Body}
    {ret : Option TypeExpr} : (p : Proof) → p.Spelled systemF → ProofRun c declared p s body ret s' →
      Schedules s s' (p.level s.frames.bound) (Walk.once.body · body) (p.timely s.frames.bound)
  | .mk st _, hp, @ProofRun.steps _ _ _ _ _ mid _ stmts value _ hrecord hsteps => by
    have hmid := recordSteps_frames st hrecord
    have hbound : mid.frames.bound = s.frames.bound := by rw [hmid]; rfl
    -- From here on, everything on this level is recorded, but for what generalizations record.
    have hcovers : mid.frames.Covers (st.atoms mid.frames.bound) := by
      rw [hbound, hmid]
      exact Frames.covers_record _ _
    obtain ⟨hs', honce⟩ := StepsRun.schedules st hp hcovers hsteps
    rw [hbound] at hs' honce
    refine ⟨by rw [hs', hmid, ← Frames.record_append]; rfl, ?_⟩
    intro known types future hne hknown htypes
    have hmidne : mid.frames.frames ≠ [] := hmid ▸ Frames.record_ne_nil hne
    have hsteps := honce _ types future hmidne (hmid ▸ hknown.record hne) htypes
    exact (Walk.flat_once.body_bodyOf types stmts value).trans hsteps

theorem StepsRun.schedules {c : Context} {s s' : State} {systemF declared : Bool}
    {stmts : List Stmt} {value : Expr} {ret : Option TypeExpr} :
    (st : Steps) → st.Spelled systemF → s.frames.Covers (st.atoms s.frames.bound) →
      StepsRun c declared st s stmts value ret s' →
      Schedules s s' (st.late s.frames.bound)
        (fun types => Walk.once.stmts types [] stmts && Walk.once.expr types value)
        (st.timely s.frames.bound)
  | .last st, hst, hcovers, .last hfinal => FinalRun.schedules st hst hcovers hfinal
  | .conclude j _, hj, hcovers, .conclude hrun => JustificationRun.schedules j hj hcovers hrun
  | .more st rest, hst, hcovers, @StepsRun.more _ _ _ _ _ mid _ _ _ _ _ hrun hrest => by
    have hfirst := StatementRun.schedules st hst.1 hcovers.append.1 hrun
    have hbound : mid.frames.bound = s.frames.bound := by rw [hfirst.1]; rfl
    have hcovers' : mid.frames.Covers (rest.atoms mid.frames.bound) := by
      rw [hbound, hfirst.1]
      exact hcovers.append.2.record _
    have hmore := StepsRun.schedules rest hst.2 hcovers' hrest
    rw [hbound] at hmore
    refine (hfirst.trans hmore).congr fun types => ?_
    rw [Walk.flat_once.stmts_cons, Walk.once_append, Bool.and_assoc]

theorem FinalRun.schedules {c : Context} {s s' : State} {systemF declared : Bool}
    {stmts : List Stmt} {value : Expr} {ret : Option TypeExpr} :
    (st : Statement) → st.Spelled systemF → s.frames.Covers (st.atoms s.frames.bound) →
      FinalRun c declared st s stmts value ret s' →
      Schedules s s' (st.late s.frames.bound)
        (fun types => Walk.once.stmts types [] stmts && Walk.once.expr types value)
        (st.timely s.frames.bound)
  | .block b, hb, _, .block hrun => BlockRun.schedules b hb hrun
  | .step claim j loc, hst, hcovers, .hole _ hrun =>
    JustificationRun.schedules j hst.2 hcovers.append.2 hrun
  | .step claim j loc, hst, hcovers, .bound _ (.step hhead hrun hdeclare) => by
    have hs₁ := (stepHead_frames hhead).trans hcovers.append.1.record_eq
    have hvalue := JustificationRun.schedules j hst.2 (hs₁ ▸ hcovers.append.2) hrun
    refine (constant_schedules loc hhead hcovers.append.1 hvalue hdeclare).congr fun types => ?_
    simp [Walk.flat_once.stmts_cons, Walk.expr]
  | .step claim j loc, hst, hcovers, .returned _ htype hrun => by
    have hs₁ := (typeOf_frames htype).2.trans hcovers.append.1.record_eq
    have hvalue := JustificationRun.schedules j hst.2 (hs₁ ▸ hcovers.append.2) hrun
    rw [hs₁] at hvalue
    exact hvalue.of_frames hs₁ rfl

theorem StatementRun.schedules {c : Context} {s s' : State} {systemF : Bool} {stmt : Stmt} :
    (st : Statement) → st.Spelled systemF → s.frames.Covers (st.atoms s.frames.bound) →
      StatementRun c st s stmt s' →
      Schedules s s' (st.late s.frames.bound) (Walk.once.stmt · stmt) (st.timely s.frames.bound)
  | .block b, hb, _, .block hrun => by
    refine (BlockRun.schedules b hb hrun).congr fun types => ?_
    rw [Walk.stmt, Walk.expr]
  | .step _ j loc, hst, hcovers, .step hhead hrun hdeclare => by
    have hs₁ := (stepHead_frames hhead).trans hcovers.append.1.record_eq
    have hvalue := JustificationRun.schedules j hst.2 (hs₁ ▸ hcovers.append.2) hrun
    exact constant_schedules loc hhead hcovers.append.1 hvalue hdeclare

theorem JustificationRun.schedules {c : Context} {s s' : State} {systemF : Bool} {value : Expr} :
    (j : Justification) → j.Spelled systemF → s.frames.Covers (j.atoms s.frames.bound) →
      JustificationRun c j s value s' →
      Schedules s s' (j.late s.frames.bound) (Walk.once.expr · value) (j.timely s.frames.bound)
  | .apply _ _ _, _, hcovers, .apply h =>
    .of_covers (application_frames h) hcovers (application_applied h).once
  | .block b, hb, _, .block hrun => BlockRun.schedules b hb hrun

theorem BlockRun.schedules {c : Context} {s s' : State} {systemF : Bool} {value : Expr} :
    (b : Block) → b.Spelled systemF → BlockRun c b s value s' →
      Schedules s s' (b.late s.frames.bound) (Walk.once.expr · value) (b.timely s.frames.bound)
  | .assume hyps p loc, hb, .assume hnest => by
    obtain ⟨hs', honce⟩ := hnest.once hb.1 (by simp) hb.2 (ProofRun.schedules p hb.2)
    refine ⟨by simpa [Block.late] using hs', ?_⟩
    intro known types future _ hknown htypes
    have hblock := honce known _ types future hknown (hs' ▸ htypes) fun a => Iff.rfl
    simpa [Block.timely] using hblock
  | .generalize vars p loc, hb, .generalize hvars hp hunbind => by
    obtain ⟨hmid, honce⟩ := ProofRun.schedules p hb.2 hp
    rw [Frames.record_bind] at hmid
    obtain rfl := unbindNames_eq_ok hunbind
    have hframes : _ = s.frames.record _ := Frames.unbind_bind hmid
    refine ⟨hframes, ?_⟩
    intro known types future hne hknown htypes
    rw [hmid] at honce
    have hbody := honce known types future hne hknown (hframes ▸ htypes)
    exact (walk_quantify (fun _ => rfl) (fun _ _ _ _ => rfl) hvars _ _ _).trans hbody

end

theorem TheoremRun.declaresOnce {t : Theorem} {e : Expr} {systemF : Bool}
    (h : TheoremRun c t s e s') (ht : t.Spelled systemF) (hs : s.frames = .empty) :
    s'.frames = .empty ∧ e.declaresOnce = t.timely := by
  have hknows : Frames.empty.Knows [] := by simp [Frames.Knows, Frames.Recorded, Frames.empty]
  have haligned : Frames.empty.Aligned [] [] := by
    simp [Frames.Aligned, Frames.Recorded, Frames.empty]
  unfold Theorem.timely
  cases h with
  | @sequent hyps p _ _ _ hsequent hnest =>
    obtain ⟨hhyps, hp⟩ := ht.sequent hsequent
    obtain ⟨hs', honce⟩ := hnest.once hhyps (by simpa using ht.1) hp (ProofRun.schedules p hp)
    rw [hs] at hs' honce
    refine ⟨hs', ?_⟩
    have harrow := honce [] _ [] [] hknows haligned fun a => Iff.rfl
    rw [hnest.declaresOnce, harrow, hsequent]
    simp [inTime, Frames.empty]
  | @implication _ s₁ s₂ _ body ret tparams hsequent htype hproof hexit =>
    have hs₁ : s₁.frames = Frames.empty.enter.record (t.claim.formula.atoms []) := by
      rw [(typeOf_frames htype).2, hs]
      rfl
    obtain ⟨hs₂, honce⟩ := ProofRun.schedules t.proof ht.2 hproof
    have hbound : s₁.frames.bound = [] := by rw [hs₁]; rfl
    rw [hbound] at hs₂ honce
    rw [hs₁, ← Frames.record_append] at hs₂
    obtain ⟨hs', htparams⟩ := exit_inTime hs₂
      (List.forall_mem_append.mpr ⟨ht.1.1.atoms, Proof.Spelled.level t.proof ht.2⟩) hexit
    obtain ⟨halign, -⟩ := htparams [] [] [] hknows haligned
    refine ⟨hs', ?_⟩
    have hne : s₁.frames.frames ≠ [] := hs₁ ▸ Frames.record_ne_nil Frames.empty.enter_ne_nil
    have hknown : s₁.frames.Knows (t.claim.formula.atoms []) := by
      intro a
      rw [hs₁, Frames.recorded_record Frames.empty.enter_ne_nil, Frames.recorded_enter, ← hknows a]
      simp
    have hbody := honce _ tparams [] hne hknown (by simpa using halign)
    simpa [hsequent, Expr.declaresOnce] using hbody

theorem declaresOnce_decl (t : Theorem) (arrow : Expr) :
    (t.decl arrow).declaresOnce = arrow.declaresOnce := by
  unfold Theorem.decl
  split
  · rfl
  · rfl

theorem declaresOnce_theoremDecls {ts : List Theorem} {decls : List Stmt} {systemF : Bool}
    (hts : ∀ t ∈ ts, t.Spelled systemF) (hs : s.frames = .empty)
    (h : theoremDecls ts c s = (.ok decls, s')) :
    decls.all Stmt.declaresOnce = ts.all Theorem.timely := by
  induction ts generalizing s decls with
  | nil =>
    obtain ⟨rfl, -⟩ := pure_eq_ok.mp h
    rfl
  | cons t rest ih =>
    obtain ⟨decl, more, mid, rfl, hdecl, -, hmore⟩ := theoremDecls_cons_eq_ok h
    obtain ⟨arrow, last, hrun, rfl, hmid⟩ := theoremDecl_eq_ok hdecl
    obtain ⟨hlast, honce⟩ := hrun.declaresOnce (hts t (by simp)) hs
    have hmore := ih (fun u hu => hts u (by simp [hu])) (hmid.frames.trans hlast) hmore
    rw [List.all_cons, List.all_cons, declaresOnce_decl, honce, hmore]

end Generate

/-- Where a script compiles, no arrow of a theorem or a hypothesis declares a type parameter that such
an arrow around it declares exactly if the document is timely. -/
theorem compile_declaresOnce {src : List UInt8} {systemF : Bool} {c : Compilation}
    (h : (compile src systemF).1 = .ok c) :
    c.decls.all Stmt.declaresOnce = c.document.timely := by
  obtain ⟨s, hparse, hgenerate, -⟩ := compile_eq_ok h
  exact Generate.declaresOnce_theoremDecls (theorems_spelled hparse) rfl hgenerate

/-- The generalization mentions `X` behind a block that declares it. -/
theorem compile_declaresOnce_late :
    ∃ c, (compile (Text.bytes "theorem t : True
      have a : _ by assume x : X \x7b by x; \x7d
      have b : _ by forall Y \x7b
        have c : X => X by assume z : X \x7b by z; \x7d
        by c;
      \x7d
      by trueIntro;") true).1 = .ok c ∧
    c.decls.all Stmt.declaresOnce = false := by
  generalize hsrc : Text.bytes _ = src
  have htimely : (compile src true).1.toOption.any (fun c => !c.document.timely) = true := by
    rw [← hsrc]
    decide +kernel
  obtain ⟨c, h, hlate⟩ := exists_ok_of_any htimely
  refine ⟨c, h, ?_⟩
  rw [compile_declaresOnce h]
  simpa using hlate

end ProofScript
