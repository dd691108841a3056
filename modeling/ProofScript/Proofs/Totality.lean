import ProofScript.Proofs.Elimination
import ProofScript.Proofs.Reader.Depth
import ProofScript.Proofs.Wording

/-!
# Compilation never breaks

Whatever the bytes of a script, compiling it gives a program or an error of the script. Generation is
followed by its open frames and its bound names: `Leads` says that a step, taken with so many frames
open and these names bound, does not break the document, and how many frames and which names it
leaves. What it yields is of the kind that is generated, and such trees lack no node when they are
printed.
-/

namespace ProofScript

open Program

/-! ## Trees of ASCII words -/

namespace Program

/-- A type that is generated from ASCII words. -/
abbrev TypeExpr.Ascii (t : TypeExpr) : Prop := t.Generated AsciiWord

/-- An expression that is generated from ASCII words. -/
abbrev Expr.Ascii (e : Expr) : Prop := e.Generated AsciiWord

/-- A body that is generated from ASCII words. -/
abbrev Body.Ascii (b : Body) : Prop := b.Generated AsciiWord

/-- A statement that is generated from ASCII words. -/
abbrev Stmt.Ascii (st : Stmt) : Prop := st.Generated AsciiWord

theorem Stmt.Ascii.emittable {st : Stmt} (h : st.Ascii) : st.Emittable :=
  h.mono fun _ => AsciiWord.isWord

end Program

/-! ## Steps that do not break -/

/-- So many frames are open, these names are bound, and the atoms on record are those of a script. -/
structure Frames.At (depth : Nat) (bound : List String) (f : Frames) : Prop where
  depth_eq : f.frames.length = depth
  bound_eq : f.bound = bound
  atoms : ∀ frame ∈ f.frames, ∀ a ∈ frame, IsTypeVar a

theorem Frames.at_empty : Frames.empty.At 0 [] := ⟨rfl, rfl, by simp [Frames.empty]⟩

theorem Frames.At.eq_empty {f : Frames} (h : f.At 0 []) : f = .empty := by
  obtain ⟨frames, bound⟩ := f
  have hframes : frames = [] := List.length_eq_zero_iff.mp h.depth_eq
  have hbound : bound = [] := h.bound_eq
  rw [hframes, hbound]
  rfl

namespace Generate

variable {α β : Type} {d d' d'' : Nat} {b b' b'' : List String} {P : α → Prop} {Q : β → Prop}

/-- Taken with `d` frames open and the names `b` bound, the step does not break, and where it succeeds
it leaves `d'` frames open, the names `b'` bound and a value with a property. -/
def Leads (d : Nat) (b : List String) (m : Generate α) (d' : Nat) (b' : List String)
    (P : α → Prop) : Prop :=
  ∀ c s, s.frames.At d b →
    match m c s with
    | (.ok a, s') => s'.frames.At d' b' ∧ P a
    | (.error (.error _), _) => True
    | (.error (.fault _), _) => False

theorem Leads.bind {m : Generate α} {f : α → Generate β} (hm : Leads d b m d' b' P)
    (hf : ∀ a, P a → Leads d' b' (f a) d'' b'' Q) : Leads d b (m >>= f) d'' b'' Q := by
  intro c s hs
  have hrun := hm c s hs
  generalize hr : m c s = r at hrun
  obtain ⟨result, mid⟩ := r
  cases result with
  | ok a =>
    have hbind : (m >>= f) c s = f a c mid := Stateful.bind_of_ok hr
    rw [hbind]
    exact hf a hrun.2 c mid hrun.1
  | error e =>
    have hbind : (m >>= f) c s = (.error e, mid) := Stateful.bind_of_error hr
    rw [hbind]
    cases e with
    | error e => trivial
    | fault x => exact hrun

theorem leads_pure {a : α} (h : P a) : Leads d b (pure a) d b P := fun _ _ hs => ⟨hs, h⟩

theorem leads_fail (loc : Location) (cause : GenerateCause) :
    Leads d b (fail loc cause) d' b' P := fun _ _ _ => trivial

theorem leads_get {f : State → Generate α}
    (h : ∀ s, s.frames.At d b → Leads d b (f s) d' b' P) : Leads d b (get >>= f) d' b' P :=
  fun c s hs => h s hs c s hs

theorem leads_read {f : Context → Generate α} (h : ∀ c, Leads d b (f c) d' b' P) :
    Leads d b (read >>= f) d' b' P := fun c s hs => h c c s hs

theorem leads_set {s : State} (h : s.frames.At d' b') :
    Leads d b (set s : Generate PUnit) d' b' fun _ => True := fun _ _ _ => ⟨h, trivial⟩

theorem leads_modify {f : State → State} (h : ∀ s, (f s).frames = s.frames) :
    Leads d b (modify f : Generate PUnit) d b fun _ => True := by
  intro c s hs
  exact ⟨(h s).symm ▸ hs, trivial⟩

theorem Leads.imp {P' : α → Prop} {m : Generate α} (h : Leads d b m d' b' P)
    (hP : ∀ a, P a → P' a) : Leads d b m d' b' P' := by
  intro c s hs
  have hrun := h c s hs
  split at hrun
  · exact ⟨hrun.1, hP _ hrun.2⟩
  · trivial
  · exact hrun

/-! ## Frames -/

theorem leads_onFrames {f : Frames → Except FrameMisuse (α × Frames)}
    (h : ∀ g : Frames, g.At d b → ∃ a g', f g = .ok (a, g') ∧ g'.At d' b' ∧ P a) :
    Leads d b (onFrames f) d' b' P := by
  refine leads_get fun s hs => ?_
  obtain ⟨a, g', hf, hat, ha⟩ := h s.frames hs
  rw [hf]
  exact fun _ _ _ => ⟨hat, ha⟩

theorem enter_leads : Leads d b enter (d + 1) b fun _ => True := by
  refine leads_onFrames fun g hg => ⟨(), g.enter, rfl, ⟨?_, hg.bound_eq, ?_⟩, trivial⟩
  · simp [Frames.enter, hg.depth_eq]
  · simpa [Frames.enter] using hg.atoms

theorem mention_leads {name : String} (h : IsTypeVar name) :
    Leads (d + 1) b (mention name) (d + 1) b fun _ => True := by
  refine leads_onFrames fun g hg => ?_
  obtain ⟨frames, bound⟩ := g
  cases frames with
  | nil => cases hg.depth_eq
  | cons top rest =>
    by_cases hold : (Frames.isBound ⟨top :: rest, bound⟩ name || decide (name ∈ top)) = true
    · refine ⟨(), ⟨top :: rest, bound⟩, ?_, hg, trivial⟩
      simp [Frames.add, hold, Except.map]
    · refine ⟨(), ⟨(top ++ [name]) :: rest, bound⟩, ?_, ⟨hg.depth_eq, hg.bound_eq, ?_⟩, trivial⟩
      · simp [Frames.add, hold, Except.map]
      · have hatoms := List.forall_mem_cons.mp hg.atoms
        refine List.forall_mem_cons.mpr ⟨?_, hatoms.2⟩
        rw [List.forall_mem_append, List.forall_mem_singleton]
        exact ⟨hatoms.1, h⟩

theorem exit_leads : Leads (d + 1) b exit d b fun names => ∀ n ∈ names, AsciiWord n := by
  have hexit : Leads (d + 1) b (onFrames Frames.exit) d b fun names => ∀ n ∈ names, IsTypeVar n := by
    refine leads_onFrames fun g hg => ?_
    obtain ⟨frames, bound⟩ := g
    cases frames with
    | nil => cases hg.depth_eq
    | cons top rest =>
      have hatoms := List.forall_mem_cons.mp hg.atoms
      refine ⟨_, _, rfl, ⟨Nat.succ.inj hg.depth_eq, hg.bound_eq, hatoms.2⟩, ?_⟩
      exact fun n hn => hatoms.1 n (List.mem_filter.mp hn).1
  refine hexit.bind fun names hnames => leads_pure ?_
  intro n hn
  rcases List.mem_map.mp hn with ⟨a, ha, rfl⟩
  exact asciiWord_escapeTypeVar (hnames a ha).asciiWord

theorem bindNames_leads (names : List String) :
    Leads d b (bindNames names) d (names.reverse ++ b) fun _ => True :=
  leads_onFrames fun g hg =>
    ⟨(), g.bind names, rfl, ⟨hg.depth_eq, by simp [Frames.bind, hg.bound_eq], hg.atoms⟩, trivial⟩

theorem unbindNames_leads (names : List String) :
    Leads d (names.reverse ++ b) (unbindNames names.length) d b fun _ => True := by
  refine leads_onFrames fun g hg => ?_
  obtain ⟨frames, bound⟩ := g
  obtain rfl : bound = names.reverse ++ b := hg.bound_eq
  refine ⟨(), ⟨frames, b⟩, ?_, ⟨hg.depth_eq, rfl, hg.atoms⟩, trivial⟩
  have hdrop : (names.reverse ++ b).drop names.length = b := List.drop_left' (by simp)
  have hbottom : ¬ (names.reverse ++ b).length < names.length := by simp
  simp only [Frames.unbind, if_neg hbottom, hdrop, Except.map]

/-! ## Names -/

theorem warn_leads (loc : Location) (message : String) :
    Leads d b (warn loc message) d b fun _ => True := by
  refine leads_modify fun s => ?_
  dsimp only
  split <;> rfl

theorem pushScope_leads : Leads d b pushScope d b fun _ => True := leads_modify fun _ => rfl

theorem popScope_leads : Leads d b popScope d b fun _ => True := leads_modify fun _ => rfl

theorem declare_leads (name : String) (loc : Location) :
    Leads d b (declare name loc) d b fun _ => True := by
  refine leads_get fun s hs => ?_
  split
  · split
    · exact leads_fail _ _
    · exact leads_set hs
  · split
    · exact leads_fail _ _
    · exact leads_set hs

theorem useRule_leads (p : Primitive) (loc : Location) :
    Leads d b (useRule p loc) d b fun _ => True := by
  have hused : Leads d b (modify fun s =>
      if p.name ∈ s.used then s else { s with used := s.used ++ [p.name] } : Generate PUnit) d b
        fun _ => True := by
    refine leads_modify fun s => ?_
    split <;> rfl
  refine hused.bind fun _ _ => ?_
  have hevent : Leads d b (modify fun s =>
      { s with events := s.events ++ [.reference p.name p.kind] } : Generate PUnit) d b
        fun _ => True :=
    leads_modify fun _ => rfl
  cases hwarning : p.warning with
  | none => exact hevent
  | some message => exact (warn_leads loc message).bind fun _ _ => hevent

/-- An expression that can be called as it stands. -/
def Callable (e : Expr) : Prop := e.Ascii ∧ e.isArrow = false

theorem callable_ident {name : String} (h : AsciiWord name) (o : Option Location) :
    Callable (.ident name o) := ⟨.ident h, rfl⟩

theorem Callable.call {fn : Expr} (h : Callable fn) {targs : List TypeExpr} {args : List Expr}
    (htargs : ∀ t ∈ targs, t.Ascii) (hargs : ∀ x ∈ args, x.Ascii) (o : Option Location) :
    Callable (.call fn targs args o) := ⟨.call h.2 h.1 htargs hargs, rfl⟩

theorem reference_leads {name : String} (h : IsName name) (loc : Location) :
    Leads d b (reference name loc) d b Callable := by
  have hident := callable_ident (asciiWord_escapeIdent h.asciiWord) (some loc)
  refine leads_get fun s _ => ?_
  split
  · exact leads_pure hident
  split
  · split
    · exact leads_pure (hident.call (by simp) (by simp) _)
    · exact leads_pure hident
  refine leads_read fun c => ?_
  split
  · exact leads_fail _ _
  cases Library.findRule? (escapeIdent name) with
  | some p => exact (useRule_leads p loc).bind fun _ _ => leads_pure hident
  | none => exact leads_pure hident

/-! ## Propositions -/

theorem ascii_ref {name : String} (h : IsTypeVar name) :
    (TypeExpr.ref (escapeTypeVar name) []).Ascii :=
  .ref (asciiWord_escapeTypeVar h.asciiWord) (by simp)

theorem ascii_connective {name : String} {a b : TypeExpr} (hname : AsciiWord name) (ha : a.Ascii)
    (hb : b.Ascii) : (TypeExpr.ref name [a, b]).Ascii :=
  .ref hname (by simp [ha, hb])

theorem ascii_quantified {vars : List String} {t : TypeExpr} (hvars : ∀ v ∈ vars, IsTypeVar v)
    (ht : t.Ascii) :
    (vars.foldr (fun v t => TypeExpr.func [escapeTypeVar v] [] t) t).Ascii := by
  induction vars with
  | nil => exact ht
  | cons v rest ih =>
    rw [List.forall_mem_cons] at hvars
    refine .func ?_ (by simp) (by simp) (ih hvars.2)
    rw [List.forall_mem_singleton]
    exact asciiWord_escapeTypeVar hvars.1.asciiWord

theorem typeOf_leads {f : Formula} (h : f.Spelled) :
    Leads (d + 1) b (typeOf f) (d + 1) b TypeExpr.Ascii := by
  induction f generalizing b with
  | hole => exact h.elim
  | atom name args loc =>
    refine (mention_leads h.1).bind fun _ _ => ?_
    cases args with
    | nil => exact leads_pure (ascii_ref h.1)
    | cons arg rest =>
      have harg : IsTypeVar arg := h.2 arg (by simp)
      have happly : (TypeExpr.ref "Apply" [.ref (escapeTypeVar name) [],
          .ref (escapeTypeVar arg) []]).Ascii :=
        ascii_connective (by decide) (ascii_ref h.1) (ascii_ref harg)
      have hmention : Leads (d + 1) b (mention arg >>= fun _ => pure
          (.ref "Apply" [.ref (escapeTypeVar name) [], .ref (escapeTypeVar arg) []])) (d + 1) b
          TypeExpr.Ascii :=
        (mention_leads harg).bind fun _ _ => leads_pure happly
      dsimp only
      split
      · exact hmention
      · exact (warn_leads _ _).bind fun _ _ => hmention
  | neg a _ iha =>
    exact (iha h).bind fun t ht => leads_pure (.ref (by decide) (by simpa using ht))
  | conj a b _ iha ihb | disj a b _ iha ihb | impl a b _ iha ihb =>
    refine (iha h.1).bind fun t ht => (ihb h.2).bind fun u hu => ?_
    exact leads_pure (ascii_connective (by decide) ht hu)
  | all vars a _ iha =>
    refine (bindNames_leads vars).bind fun _ _ => (iha h.2).bind fun t ht => ?_
    exact (unbindNames_leads vars).bind fun _ _ => leads_pure (ascii_quantified h.1 ht)

/-! ## Applications -/

theorem argument_leads {a : Argument} (h : a.Worded) :
    Leads (d + 1) b (argument a) (d + 1) b Expr.Ascii := by
  cases a with
  | fact name loc => exact (reference_leads h loc).imp fun _ he => he.1
  | prop f =>
    have hfact : (Expr.ident f.factName (some f.loc)).Ascii := .ident (asciiWord_factName h)
    cases f with
    | hole => exact h.elim
    | _ => exact (typeOf_leads h).bind fun _ _ => leads_pure hfact

theorem applyAll_leads {args : List Argument} (h : ∀ a ∈ args, a.Worded) {fn : Expr}
    (hfn : Callable fn) : Leads (d + 1) b (applyAll fn args) (d + 1) b Callable := by
  induction args generalizing fn with
  | nil => exact leads_pure hfn
  | cons a rest ih =>
    rw [List.forall_mem_cons] at h
    refine (argument_leads h.1).bind fun x hx => ih h.2 ?_
    exact hfn.call (by simp) (by simpa using hx) _

theorem instantiate_leads {args : List Argument} (h : ∀ a ∈ args, a.Worded) (loc : Location) :
    Leads (d + 1) b (instantiate args loc) (d + 1) b Callable := by
  unfold instantiate
  split
  · exact leads_fail _ _
  · rename_i f name at_ _
    refine (reference_leads (h (.fact name at_) (by simp)) at_).bind fun fn hfn => ?_
    refine (typeOf_leads (h (.prop f) (by simp))).bind fun t ht => ?_
    exact leads_pure (hfn.call (by simpa using ht) (by simp) _)
  · exact leads_fail _ _
  · exact leads_fail _ _

theorem application_leads {rule : String} {args : List Argument} (hrule : IsName rule)
    (hargs : ∀ a ∈ args, a.Worded) (loc : Location) :
    Leads (d + 1) b (application rule args loc) (d + 1) b Callable := by
  refine leads_read fun c => ?_
  split
  · exact instantiate_leads hargs loc
  · exact (reference_leads hrule loc).bind fun fn hfn => applyAll_leads hargs hfn

/-! ## Records -/

theorem recordArguments_leads {args : List Argument} (h : ∀ a ∈ args, a.Worded) :
    Leads (d + 1) b (recordArguments args) (d + 1) b fun _ => True := by
  induction args with
  | nil => exact leads_pure trivial
  | cons a rest ih =>
    rw [List.forall_mem_cons] at h
    cases a with
    | fact => exact ih h.2
    | prop f =>
      cases f with
      | hole => exact h.1.elim
      | _ => exact (typeOf_leads h.1).bind fun _ _ => ih h.2

theorem recordJustification_leads {j : Justification} (h : j.Worded) :
    Leads (d + 1) b (recordJustification j) (d + 1) b fun _ => True := by
  cases j with
  | apply rule args loc => exact recordArguments_leads h.2
  | _ => exact leads_pure trivial

theorem recordStatement_leads {st : Statement} (h : st.Worded) :
    Leads (d + 1) b (recordStatement st) (d + 1) b fun _ => True := by
  cases st with
  | step claim j loc =>
    obtain ⟨-, hclaim, hj⟩ := h
    unfold recordStatement
    dsimp only
    split
    · exact recordJustification_leads hj
    · rename_i hhole
      exact (typeOf_leads (hclaim.resolve_left hhole)).bind fun _ _ => recordJustification_leads hj
  | _ => exact leads_pure trivial

theorem recordSteps_leads {st : Steps} (h : st.Worded) :
    Leads (d + 1) b (recordSteps st) (d + 1) b fun _ => True := by
  match st with
  | .last s => exact recordStatement_leads h
  | .conclude j _ => exact recordJustification_leads h
  | .more s rest => exact (recordStatement_leads h.1).bind fun _ _ => recordSteps_leads h.2

/-! ## Functions -/

/-- A parameter that is generated for a hypothesis. -/
def AsciiHypothesis (h : Hypothesis) : Prop := AsciiWord h.1.1 ∧ h.1.2.Ascii

theorem asciiWord_binding {name : Option String} {f : Formula} (hname : ∀ n ∈ name, IsName n)
    (hf : f.Spelled) : AsciiWord (name.elim f.factName escapeIdent) := by
  cases name with
  | none => exact asciiWord_factName hf
  | some n => exact asciiWord_escapeIdent (hname n rfl).asciiWord

theorem hypotheses_leads {hyps : List Claim} (h : ∀ x ∈ hyps, x.Worded) :
    Leads d b (hypotheses hyps) (d + hyps.length) b fun hs =>
      hs.length = hyps.length ∧ ∀ x ∈ hs, AsciiHypothesis x := by
  induction hyps generalizing d with
  | nil => exact leads_pure ⟨rfl, by simp⟩
  | cons x rest ih =>
    rw [List.forall_mem_cons] at h
    refine enter_leads.bind fun _ _ => (typeOf_leads h.1.2).bind fun t ht => ?_
    refine (declare_leads _ _).bind fun _ _ => ?_
    have hrest := ih (d := d + 1) h.2
    rw [show d + 1 + rest.length = d + (x :: rest).length by simp; omega] at hrest
    refine hrest.bind fun hs hhs => leads_pure ⟨by simp [hhs.1], ?_⟩
    exact List.forall_mem_cons.mpr ⟨⟨asciiWord_binding h.1.1 h.1.2, ht⟩, hhs.2⟩

/-- An arrow that is generated. -/
def AsciiArrow (e : Expr) : Prop := e.Ascii ∧ e.isArrow = true

theorem asciiArrow_of_hypothesis {tparams : List String} {h : Hypothesis} {ret : Option TypeExpr}
    {body : Body} (htparams : ∀ n ∈ tparams, AsciiWord n) (hemit : AsciiHypothesis h)
    (hret : ∀ t ∈ ret, t.Ascii) (hbody : body.Ascii) (o : Option Location) :
    AsciiArrow (.arrow tparams [h.1] ret body o) :=
  ⟨.arrow htparams (by simp) (by simpa using hemit.1) (by simpa using hemit.2) hret hbody, rfl⟩

theorem closeHypotheses_leads {d : Nat} {ret : Option TypeExpr} {body : Body}
    {hs : List Hypothesis} (hne : hs ≠ []) (hret : ∀ t ∈ ret, t.Ascii) (hbody : body.Ascii)
    (hhs : ∀ x ∈ hs, AsciiHypothesis x) :
    Leads (d + hs.length) b (closeHypotheses ret body hs) d b AsciiArrow := by
  match hs, hne with
  | [(p, loc)], _ =>
    refine exit_leads.bind fun tparams htparams => leads_pure ?_
    exact asciiArrow_of_hypothesis htparams (hhs (p, loc) (by simp)) hret hbody _
  | (p, loc) :: x :: rest, _ =>
    rw [List.forall_mem_cons] at hhs
    have hrest := closeHypotheses_leads (d := d + 1) (List.cons_ne_nil x rest) hret hbody hhs.2
    rw [show d + 1 + (x :: rest).length = d + ((p, loc) :: x :: rest).length by simp; omega] at hrest
    refine hrest.bind fun inner hinner => exit_leads.bind fun tparams htparams => leads_pure ?_
    exact asciiArrow_of_hypothesis htparams hhs.1 (by simp) (.expr hinner.1) _

theorem closeVariables_leads {ret : Option TypeExpr} {body : Body} {vars : List String}
    (hne : vars ≠ []) (hret : ∀ t ∈ ret, t.Ascii) (hbody : body.Ascii)
    (hvars : ∀ v ∈ vars, IsTypeVar v) (loc : Location) :
    Leads d b (closeVariables ret body loc vars) d b AsciiArrow := by
  have harrow : ∀ {v : String} {ret : Option TypeExpr} {body : Body}, IsTypeVar v →
      (∀ t ∈ ret, t.Ascii) → body.Ascii →
      AsciiArrow (.arrow [escapeTypeVar v] [] ret body (some loc)) := by
    intro v ret body hv hret hbody
    refine ⟨.arrow ?_ (by simp) (by simp) (by simp) hret hbody, rfl⟩
    simpa using asciiWord_escapeTypeVar hv.asciiWord
  match vars, hne with
  | [v], _ => exact leads_pure (harrow (hvars v (by simp)) hret hbody)
  | v :: w :: rest, _ =>
    rw [List.forall_mem_cons] at hvars
    refine (closeVariables_leads (List.cons_ne_nil w rest) hret hbody hvars.2 loc).bind
      fun inner hinner => ?_
    exact leads_pure (harrow hvars.1 (by simp) (.expr hinner.1))

/-- The head of a constant. -/
def AsciiHead (head : String × Option TypeExpr) : Prop :=
  AsciiWord head.1 ∧ ∀ t ∈ head.2, t.Ascii

theorem stepHead_leads {claim : Claim} (hname : ∀ n ∈ claim.name, IsName n)
    (hclaim : claim.formula.isHole = true ∨ claim.formula.Spelled) :
    Leads (d + 1) b (stepHead claim) (d + 1) b AsciiHead := by
  unfold stepHead
  dsimp only
  by_cases hhole : claim.formula.isHole = true
  · simp only [hhole, if_true]
    split
    · rename_i n hn
      exact leads_pure ⟨asciiWord_escapeIdent (hname n hn).asciiWord, by simp⟩
    · exact leads_fail _ _
  · have hspelled := hclaim.resolve_left hhole
    have hannotated : ∀ {name : String}, AsciiWord name → Leads (d + 1) b (do
        let t ← typeOf claim.formula
        return (name, some t)) (d + 1) b AsciiHead := by
      intro name hword
      refine (typeOf_leads hspelled).bind fun t ht => leads_pure ⟨hword, ?_⟩
      simpa using ht
    simp only [hhole]
    split
    · rename_i n hn
      exact hannotated (asciiWord_escapeIdent (hname n hn).asciiWord)
    · exact hannotated (asciiWord_factName hspelled)

theorem ascii_bodyOf {stmts : List Stmt} {value : Expr} (hstmts : ∀ st ∈ stmts, st.Ascii)
    (hvalue : value.Ascii) : (bodyOf stmts value).Ascii := by
  unfold bodyOf
  split
  · exact .expr hvalue
  · refine .block ?_
    rw [List.forall_mem_append, List.forall_mem_singleton]
    exact ⟨hstmts, .ret hvalue⟩

/-! ## Proofs -/

/-- The statements, the value and the return type of steps. -/
def AsciiSteps (r : List Stmt × Expr × Option TypeExpr) : Prop :=
  (∀ st ∈ r.1, st.Ascii) ∧ r.2.1.Ascii ∧ ∀ t ∈ r.2.2, t.Ascii

/-- The body and the return type of a proof. -/
def AsciiProof (r : Body × Option TypeExpr) : Prop := r.1.Ascii ∧ ∀ t ∈ r.2, t.Ascii

mutual

theorem proof_leads {d : Nat} {b : List String} (declared : Bool) {p : Proof} (h : p.Worded) :
    Leads (d + 1) b (proof declared p) (d + 1) b AsciiProof := by
  match p with
  | .mk s _ =>
    refine (recordSteps_leads h).bind fun _ _ => (steps_leads declared h).bind ?_
    rintro ⟨stmts, value, ret⟩ ⟨hstmts, hvalue, hret⟩
    exact leads_pure ⟨ascii_bodyOf hstmts hvalue, hret⟩

theorem steps_leads {d : Nat} {b : List String} (declared : Bool) {st : Steps} (h : st.Worded) :
    Leads (d + 1) b (steps declared st) (d + 1) b AsciiSteps := by
  match st with
  | .last s => exact final_leads declared h
  | .conclude j _ =>
    exact (justification_leads h).bind fun value hvalue => leads_pure ⟨by simp, hvalue, by simp⟩
  | .more s rest =>
    refine (statement_leads h.1).bind fun stmt hstmt => (steps_leads declared h.2).bind ?_
    rintro ⟨stmts, value, ret⟩ ⟨hstmts, hrest⟩
    exact leads_pure ⟨List.forall_mem_cons.mpr ⟨hstmt, hstmts⟩, hrest⟩

theorem final_leads {d : Nat} {b : List String} (declared : Bool) {st : Statement} (h : st.Worded) :
    Leads (d + 1) b (final declared st) (d + 1) b AsciiSteps := by
  match st with
  | .missing => exact h.elim
  | .block bl =>
    exact (block_leads h).bind fun value hvalue => leads_pure ⟨by simp, hvalue.1, by simp⟩
  | .step claim j loc =>
    obtain ⟨hname, hclaim, hj⟩ := h
    unfold final
    split
    · exact (justification_leads hj).bind fun value hvalue => leads_pure ⟨by simp, hvalue, by simp⟩
    rename_i hhole
    split
    · refine (stepHead_leads hname hclaim).bind ?_
      rintro ⟨name, t⟩ ⟨hword, ht⟩
      refine (justification_leads hj).bind fun value hvalue => (declare_leads _ _).bind fun _ _ => ?_
      exact leads_pure ⟨by simpa using .const hword ht hvalue, .ident hword, by simp⟩
    · refine (typeOf_leads (hclaim.resolve_left hhole)).bind fun t ht => ?_
      refine (justification_leads hj).bind fun value hvalue => leads_pure ⟨by simp, hvalue, ?_⟩
      simpa using ht

theorem statement_leads {d : Nat} {b : List String} {st : Statement} (h : st.Worded) :
    Leads (d + 1) b (statement st) (d + 1) b Stmt.Ascii := by
  match st with
  | .missing => exact h.elim
  | .block bl =>
    exact (block_leads h).bind fun value hvalue => leads_pure (.arrow hvalue.2 hvalue.1)
  | .step claim j loc =>
    obtain ⟨hname, hclaim, hj⟩ := h
    refine (stepHead_leads hname hclaim).bind ?_
    rintro ⟨name, t⟩ ⟨hword, ht⟩
    refine (justification_leads hj).bind fun value hvalue => (declare_leads _ _).bind fun _ _ => ?_
    exact leads_pure (.const hword ht hvalue)

theorem justification_leads {d : Nat} {b : List String} {j : Justification} (h : j.Worded) :
    Leads (d + 1) b (justification j) (d + 1) b Expr.Ascii := by
  match j with
  | .missing => exact h.elim
  | .apply rule args loc => exact (application_leads h.1 h.2 loc).imp fun _ he => he.1
  | .block bl => exact (block_leads h).imp fun _ he => he.1

theorem block_leads {d : Nat} {b : List String} {bl : Block} (h : bl.Worded) :
    Leads (d + 1) b (block bl) (d + 1) b AsciiArrow := by
  match bl with
  | .assume hyps p _ =>
    obtain ⟨hne, hhyps, hp⟩ := h
    refine pushScope_leads.bind fun _ _ => (hypotheses_leads hhyps).bind fun hs hhs => ?_
    have hlength : d + 1 + hyps.length = d + hyps.length + 1 := by omega
    rw [hlength]
    refine (proof_leads false hp).bind ?_
    rintro ⟨body, ret⟩ ⟨hbody, hret⟩
    have hne' : hs ≠ [] := fun hnil => hne (List.length_eq_zero_iff.mp (by simp [← hhs.1, hnil]))
    have hclose := closeHypotheses_leads (d := d + 1) (b := b) hne' hret hbody hhs.2
    rw [hhs.1, hlength] at hclose
    exact hclose.bind fun value hvalue => popScope_leads.bind fun _ _ => leads_pure hvalue
  | .generalize vars p loc =>
    obtain ⟨hne, hvars, hp⟩ := h
    refine pushScope_leads.bind fun _ _ => (bindNames_leads vars).bind fun _ _ => ?_
    refine (proof_leads false hp).bind ?_
    rintro ⟨body, ret⟩ ⟨hbody, hret⟩
    refine (unbindNames_leads vars).bind fun _ _ => ?_
    exact (closeVariables_leads hne hret hbody hvars loc).bind fun value hvalue =>
      popScope_leads.bind fun _ _ => leads_pure hvalue

end

/-! ## Theorems -/

theorem theoremArrow_leads {t : Theorem} (h : t.Worded) :
    Leads d b (theoremArrow t) d b fun r => AsciiArrow r.1 := by
  unfold theoremArrow
  split
  · rename_i hyps p hsequent
    obtain ⟨hne, hhyps, hp⟩ := h.sequent hsequent
    obtain ⟨n, hn⟩ : ∃ n, hyps.length = n + 1 :=
      Nat.exists_eq_succ_of_ne_zero fun hzero => hne (List.length_eq_zero_iff.mp hzero)
    refine (hypotheses_leads hhyps).bind fun hs hhs => ?_
    rw [hn, ← Nat.add_assoc]
    refine (typeOf_leads h.1.2).bind fun claim hclaim => (proof_leads true hp).bind ?_
    rintro ⟨body, ret⟩ ⟨hbody, -⟩
    have hne' : hs ≠ [] := fun hnil => hne (List.length_eq_zero_iff.mp (by simp [← hhs.1, hnil]))
    have hret : ∀ t ∈ some claim, t.Ascii := by simpa using hclaim
    have hclose := closeHypotheses_leads (d := d) (b := b) hne' hret hbody hhs.2
    rw [hhs.1, hn, ← Nat.add_assoc] at hclose
    exact hclose.bind fun arrow harrow => leads_pure harrow
  · refine enter_leads.bind fun _ _ => (typeOf_leads h.1.2).bind fun claim hclaim => ?_
    refine (proof_leads true h.2).bind ?_
    rintro ⟨body, ret⟩ ⟨hbody, -⟩
    refine exit_leads.bind fun tparams htparams => leads_pure ⟨?_, rfl⟩
    exact .arrow htparams (by simp) (by simp) (by simp) (by simpa using hclaim) hbody

theorem checkTheoremName_leads (name : String) (loc : Location) :
    Leads d b (checkTheoremName name loc) d b fun _ => True := by
  unfold checkTheoremName
  split
  · exact leads_fail _ _
  refine leads_get fun s _ => ?_
  split
  · exact leads_fail _ _
  · exact leads_pure trivial

theorem theoremDecl_leads {t : Theorem} (h : t.Worded) :
    Leads d b (theoremDecl t) d b Stmt.Ascii := by
  unfold theoremDecl
  cases hname : t.claim.name with
  | none =>
    refine pushScope_leads.bind fun _ _ => (theoremArrow_leads h).bind ?_
    rintro ⟨arrow, isThunk⟩ harrow
    exact popScope_leads.bind fun _ _ => leads_pure (.arrow harrow.2 harrow.1)
  | some name =>
    refine (checkTheoremName_leads _ _).bind fun _ _ => ?_
    refine pushScope_leads.bind fun _ _ => (theoremArrow_leads h).bind ?_
    rintro ⟨arrow, isThunk⟩ harrow
    refine popScope_leads.bind fun _ _ => (declare_leads _ _).bind fun _ _ => ?_
    have hword : AsciiWord (escapeIdent name) := asciiWord_escapeIdent (h.1.1 name hname).asciiWord
    have hdecl : ∀ o, (Stmt.const (escapeIdent name) none arrow false false none o).Ascii :=
      fun o => .const hword (by simp) harrow.1
    cases isThunk with
    | false => exact leads_pure (hdecl _)
    | true => exact (leads_modify fun _ => rfl).bind fun _ _ => leads_pure (hdecl _)

theorem theoremDecls_leads {thms : List Theorem} (h : ∀ t ∈ thms, t.Worded) :
    Leads 0 [] (theoremDecls thms) 0 [] fun decls => ∀ st ∈ decls, st.Ascii := by
  induction thms with
  | nil => exact leads_pure (by simp)
  | cons t rest ih =>
    rw [List.forall_mem_cons] at h
    refine (theoremDecl_leads h.1).bind fun decl hdecl => leads_get fun s hs => ?_
    have hdepth : s.frames.depth = 0 := hs.depth_eq
    rw [hdepth]
    refine (ih h.2).bind fun decls hdecls => leads_pure ?_
    exact List.forall_mem_cons.mpr ⟨hdecl, hdecls⟩

/-- What a run over theorems that were read generates has names of ASCII words. -/
theorem theoremDecls_ascii {thms : List Theorem} (h : ∀ t ∈ thms, t.Worded) {c : Context} {s : State}
    {decls : List Stmt} (hrun : theoremDecls thms c .empty = (.ok decls, s)) :
    ∀ st ∈ decls, st.Ascii := by
  have hleads := theoremDecls_leads h c .empty Frames.at_empty
  rw [hrun] at hleads
  exact hleads.2

/-- A run over theorems that were read gets through, or stops at an error of the script. -/
theorem theoremDecls_run {thms : List Theorem} (h : ∀ t ∈ thms, t.Worded) (c : Context) :
    (∃ decls s, theoremDecls thms c .empty = (.ok decls, s) ∧ s.frames = .empty ∧
      ∀ st ∈ decls, st.Emittable) ∨
    ∃ e s, theoremDecls thms c .empty = (.error (.error e), s) := by
  have hrun := theoremDecls_leads h c .empty Frames.at_empty
  generalize hr : theoremDecls thms c .empty = r at hrun
  obtain ⟨result, s⟩ := r
  cases result with
  | ok decls =>
    exact .inl ⟨decls, s, rfl, hrun.1.eq_empty, fun st hst => (hrun.2 st hst).emittable⟩
  | error e =>
    cases e with
    | error e => exact .inr ⟨e, s, rfl⟩
    | fault x => exact hrun.elim

end Generate

/-! ## Printing -/

namespace Program

/-- No part of a layout lacks a node. -/
def Solid (parts : List Layout) : Prop := Layout.gapAll? parts = none

@[simp]
theorem solid_nil : Solid [] := rfl

@[simp]
theorem solid_text {s : String} {rest : List Layout} : Solid (.text s :: rest) ↔ Solid rest := by
  simp [Solid, Layout.gapAll?, Layout.gap?]

@[simp]
theorem solid_node {tag : NodeTag} {parts rest : List Layout} :
    Solid (.node tag parts :: rest) ↔ Solid parts ∧ Solid rest := by
  simp [Solid, Layout.gapAll?, Layout.gap?]

@[simp]
theorem solid_append {parts rest : List Layout} : Solid (parts ++ rest) ↔ Solid parts ∧ Solid rest := by
  rw [Solid, Layout.gapAll?_append, Option.or_eq_none_iff]
  rfl

theorem solid_cons_cons {part next : Layout} {rest : List Layout} :
    Solid (part :: next :: rest) ↔ Solid [part] ∧ Solid (next :: rest) := by
  rw [← List.singleton_append, solid_append]

theorem solid_wrapped {wrap : Bool} {parts : List Layout} (h : Solid parts) :
    Solid (wrapped wrap parts) := by
  cases wrap with
  | true => simp [wrapped, h]
  | false => exact h

theorem solid_separated {sep : String} {parts : List (List Layout)} (h : ∀ p ∈ parts, Solid p) :
    Solid (separated sep parts) := by
  induction parts with
  | nil => exact solid_nil
  | cons p parts ih =>
    rw [List.forall_mem_cons] at h
    cases parts with
    | nil => exact h.1
    | cons q parts => simp [separated, h.1, ih h.2]

theorem solid_nestedLayouts (sep : String) {args : List TypeExpr}
    (h : ∀ t ∈ args, Solid t.layout) : Solid (separated sep (TypeExpr.nestedLayouts args)) := by
  refine solid_separated ?_
  induction args with
  | nil => simp [TypeExpr.nestedLayouts]
  | cons t args ih =>
    rw [List.forall_mem_cons] at h
    exact List.forall_mem_cons.mpr ⟨solid_wrapped h.1, ih h.2⟩

theorem solid_fieldLayouts {params : List Param} (h : ∀ p ∈ params, Solid p.2.layout) :
    Solid (separated ", " (TypeExpr.fieldLayouts params)) := by
  refine solid_separated ?_
  induction params with
  | nil => simp [TypeExpr.fieldLayouts]
  | cons p params ih =>
    rw [List.forall_mem_cons] at h
    exact List.forall_mem_cons.mpr ⟨solid_text.mpr h.1, ih h.2⟩

theorem TypeExpr.Generated.solid {W : String → Prop} {t : TypeExpr} (h : t.Generated W) :
    Solid t.layout := by
  induction h with
  | @ref name args _ _ ih =>
    rw [TypeExpr.layout]
    split
    · simp
    · simp [solid_nestedLayouts ", " ih]
  | @func tparams params ret _ _ _ _ ihparams ihret =>
    simp [TypeExpr.layout, solid_fieldLayouts ihparams, ihret]

theorem solid_ascription {type : Option TypeExpr} (h : ∀ t ∈ type, Solid t.layout) :
    Solid (ascription type) := by
  cases type with
  | none => exact solid_nil
  | some t => exact solid_text.mpr (h t rfl)

theorem solid_layouts {depth : Nat} {args : List Expr} (h : ∀ x ∈ args, Solid [x.layout depth]) :
    Solid (separated ", " (Expr.layouts depth args)) := by
  refine solid_separated ?_
  induction args with
  | nil => simp [Expr.layouts]
  | cons x args ih =>
    rw [List.forall_mem_cons] at h
    exact List.forall_mem_cons.mpr ⟨h.1, ih h.2⟩

theorem solid_blockLayout {depth : Nat} {stmts : List Stmt}
    (h : ∀ st ∈ stmts, Solid [st.layout depth]) : Solid (Stmt.blockLayout depth stmts) := by
  induction stmts with
  | nil => exact solid_nil
  | cons st rest ih =>
    rw [List.forall_mem_cons] at h
    rw [Stmt.blockLayout, solid_text, solid_cons_cons, solid_text]
    exact ⟨h.1, ih h.2⟩

mutual

theorem Expr.Generated.solid {W : String → Prop} {e : Expr} (depth : Nat) :
    e.Generated W → Solid [e.layout depth]
  | .ident _ => by simp [Expr.layout]
  | .call hfn hemit htargs hargs => by
    have hcallee := Expr.Generated.solid depth hemit
    have htypes := solid_nestedLayouts ", " fun t ht => (htargs t ht).solid
    have hvalues := solid_layouts fun x hx => Expr.Generated.solid depth (hargs x hx)
    rw [Expr.layout, hfn]
    split <;> simp [wrapped, solid_cons_cons, hcallee, htypes, hvalues]
  | .arrow _ _ _ htypes hret hbody => by
    have hparams := solid_fieldLayouts fun p hp => (htypes p hp).solid
    have hascribed := solid_ascription fun t ht => (hret t ht).solid
    simp [Expr.layout, hparams, hascribed, Body.Generated.solid depth hbody]

theorem Body.Generated.solid {W : String → Prop} {b : Body} (depth : Nat) :
    b.Generated W → Solid (b.layout depth)
  | .expr h => by
    have hexpr := Expr.Generated.solid depth h
    cases h <;> exact hexpr
  | .block h => by
    have hlines := solid_blockLayout fun st hst => Stmt.Generated.solid (depth + 1) (h st hst)
    simp [Body.layout, hlines]

theorem Stmt.Generated.solid {W : String → Prop} {st : Stmt} (depth : Nat) :
    st.Generated W → Solid [st.layout depth]
  | .const _ htype hvalue => by
    have hexpr := Expr.Generated.solid depth hvalue
    have hascribed := solid_ascription fun t ht => (htype t ht).solid
    simp [Stmt.layout, solid_cons_cons, hascribed, hexpr]
  | .arrow _ h => by
    have hexpr := Expr.Generated.solid depth h
    simp [Stmt.layout, Expr.layout, solid_cons_cons, hexpr]
  | .ret h => by
    have hexpr := Expr.Generated.solid depth h
    simp [Stmt.layout, solid_cons_cons, hexpr]

end

/-- What can be emitted can be printed. -/
theorem print_of_emittable {stmts : List Stmt} (h : ∀ st ∈ stmts, st.Emittable) :
    ∃ p, print stmts = .ok p :=
  print_eq_ok.mpr (solid_blockLayout fun st hst => (h st hst).solid 0)

end Program

/-- What can be emitted can be printed behind declarations of the library. -/
theorem emit_of_emittable {decls : List Stmt} (h : ∀ st ∈ decls, st.Emittable) (used : List String)
    (systemF : Bool) : ∃ p, emit (Library.select used systemF) decls = .ok p := by
  have hlibrary : ∀ p ∈ Library.all, Solid [p.decl.layout 0] := by
    unfold Solid
    decide
  refine print_eq_ok.mpr (solid_blockLayout (List.forall_mem_append.mpr ⟨?_, ?_⟩))
  · intro st hst
    rcases List.mem_map.mp hst with ⟨p, hp, rfl⟩
    exact hlibrary p (List.mem_filter.mp hp).1
  · exact fun st hst => (h st hst).solid 0

/-! ## Scripts -/

theorem emittable_of_compile {src : List UInt8} {systemF : Bool} {c : Compilation}
    (h : (compile src systemF).1 = .ok c) : ∀ st ∈ c.decls, st.Emittable := by
  obtain ⟨s, hparse, hdecls, -⟩ := compile_eq_ok h
  obtain ⟨decls, s', hrun, -, hemit⟩ | ⟨e, s', hrun⟩ :=
    Generate.theoremDecls_run (theorems_worded hparse) _
  · obtain rfl : decls = c.decls := Except.ok.inj (Prod.mk.inj (hrun.symm.trans hdecls)).1
    exact hemit
  · cases hrun.symm.trans hdecls

/-- The errors that a script can have. The depth of its nesting is none. -/
def ScriptError.Proper : ScriptError → Prop
  | .parse e => e.cause ≠ .tooDeep
  | _ => True

/-- Every script is compiled, or has an error. Where generation gets through some of its theorems, no
frame is left open and no name is left bound behind them. -/
theorem compile_total (src : List UInt8) (systemF : Bool) :
    ((∃ c, (compile src systemF).1 = .ok c) ∨
      ∃ e : ScriptError, (compile src systemF).1 = .error (.script e) ∧ e.Proper) ∧
    ∀ d thms names decls s, parse src systemF = .ok d → thms <+: d.theorems →
      Generate.theoremDecls thms ⟨systemF, names⟩ .empty = (.ok decls, s) → s.frames = .empty := by
  constructor
  · cases hparse : parse src systemF with
    | error e =>
      refine .inr ⟨e, by simp [compile, hparse], ?_⟩
      cases e with
      | parse e => exact parse_ne_tooDeep hparse
      | lex | generate => trivial
    | ok d =>
      obtain ⟨decls, s, hdecls, -, hemit⟩ | ⟨e, s, hfail⟩ :=
        Generate.theoremDecls_run (theorems_worded hparse)
          ⟨systemF, d.theorems.filterMap fun t => t.claim.name.map escapeIdent⟩
      · have hgenerate : d.generate systemF = (.ok decls, s) := hdecls
        obtain ⟨program, hprogram⟩ := emit_of_emittable hemit s.used systemF
        refine .inl ⟨⟨d, decls, s.used, s.warnings, Library.select s.used systemF, program⟩, ?_⟩
        simp [compile, hparse, Document.compile, hgenerate, hprogram]
      · have hgenerate : d.generate systemF = (.error (.error e), s) := hfail
        refine .inr ⟨.generate e, ?_, trivial⟩
        simp [compile, hparse, Document.compile, hgenerate, Generate.Failure.toCompile]
  · intro d thms names decls s hparse hthms hdecls
    have hworded : ∀ t ∈ thms, t.Worded := fun t ht => theorems_worded hparse t (hthms.subset ht)
    obtain ⟨decls', s', hrun, hframes, -⟩ | ⟨e, s', hrun⟩ :=
      Generate.theoremDecls_run hworded ⟨systemF, names⟩
    · obtain rfl : s' = s := (Prod.mk.inj (hrun.symm.trans hdecls)).2
      exact hframes
    · cases hrun.symm.trans hdecls

/-- A script that binds a variable and opens frames below it. -/
theorem compile_total_generalized :
    ∃ d decls s, parse (Text.bytes "theorem t : forall A . A => A
      forall A \x7b assume a : A \x7b by id a; \x7d \x7d") true = .ok d ∧
      Generate.theoremDecls d.theorems ⟨true, ["t"]⟩ .empty = (.ok decls, s) ∧
      s.frames = .empty := by
  generalize hsrc : Text.bytes _ = src
  have hgenerates : (parse src true).toOption.any (fun d =>
      (Generate.theoremDecls d.theorems ⟨true, ["t"]⟩ .empty).1.isOk) = true := by
    rw [← hsrc]
    decide +kernel
  obtain ⟨d, hparse, hok⟩ := exists_ok_of_any hgenerates
  cases hrun : Generate.theoremDecls d.theorems ⟨true, ["t"]⟩ .empty with
  | mk result s =>
    cases result with
    | error e => simp [hrun, Except.isOk, Except.toBool] at hok
    | ok decls =>
      have hframes := (compile_total src true).2 d d.theorems ["t"] decls s hparse
        List.prefix_rfl hrun
      exact ⟨d, decls, s, hparse, hrun, hframes⟩

end ProofScript
