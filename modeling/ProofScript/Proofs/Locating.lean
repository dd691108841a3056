import ProofScript.Proofs.Carets
import ProofScript.Proofs.Reader.Blame
import ProofScript.Proofs.Standing
import ProofScript.Proofs.Totality

/-!
# Errors point into the script

Every error of a compilation has the place of a byte of a line of the script, or the place behind the
last byte of a line. The character that a lexical error reports starts there, the token that a
grammatical error got stands there, and an error of generation stands at a token. So an excerpt
always shows the offending line.
-/

namespace ProofScript

open Program

namespace Generate

variable {α β : Type} {P : Location → Prop}

/-! ## Where generation stops -/

/-- Where the step stops with an error of the script, the place of the error passes a test. -/
def StopsAt (P : Location → Prop) (m : Generate α) : Prop :=
  ∀ c s e s', m c s = (.error (.error e), s') → P e.loc

theorem StopsAt.bind {m : Generate α} {f : α → Generate β} (hm : StopsAt P m)
    (hf : ∀ a, StopsAt P (f a)) : StopsAt P (m >>= f) := by
  intro c s e s' h
  generalize hr : m c s = r
  obtain ⟨result, mid⟩ := r
  cases result with
  | ok a =>
    have hbind : (m >>= f) c s = f a c mid := Stateful.bind_of_ok hr
    exact hf a c mid e s' (hbind ▸ h)
  | error x =>
    have hbind : (m >>= f) c s = (.error x, mid) := Stateful.bind_of_error hr
    obtain rfl : x = .error e := Except.error.inj (Prod.mk.inj (hbind.symm.trans h)).1
    exact hm c s e mid hr

theorem stopsAt_pure (a : α) : StopsAt P (pure a) := by
  intro c s e s' h
  cases h

theorem stopsAt_fail {loc : Location} (h : P loc) (cause : GenerateCause) :
    StopsAt P (fail loc cause : Generate α) := by
  intro c s e s' he
  obtain rfl : ⟨loc, cause⟩ = e := Failure.error.inj (Except.error.inj (Prod.mk.inj he).1)
  exact h

theorem stopsAt_broken (f : Fault) : StopsAt P (broken f : Generate α) := by
  intro c s e s' h
  cases h

theorem stopsAt_get {f : State → Generate α} (h : ∀ s, StopsAt P (f s)) :
    StopsAt P (get >>= f) := fun c s => h s c s

theorem stopsAt_read {f : Context → Generate α} (h : ∀ c, StopsAt P (f c)) :
    StopsAt P (read >>= f) := fun c s => h c c s

theorem stopsAt_set (s : State) : StopsAt P (set s : Generate PUnit) := by
  intro c s' e s'' h
  cases h

theorem stopsAt_modify (f : State → State) : StopsAt P (modify f : Generate PUnit) := by
  intro c s e s' h
  cases h

theorem stopsAt_onFrames (f : Frames → Except FrameMisuse (α × Frames)) :
    StopsAt P (onFrames f) := by
  refine stopsAt_get fun s => ?_
  split
  · exact (stopsAt_modify _).bind fun _ => stopsAt_pure _
  · exact stopsAt_broken _

theorem stopsAt_exit : StopsAt P exit := (stopsAt_onFrames _).bind fun _ => stopsAt_pure _

theorem stopsAt_declare {loc : Location} (h : P loc) (name : String) :
    StopsAt P (declare name loc) := by
  refine stopsAt_get fun s => ?_
  split
  · split
    · exact stopsAt_fail h _
    · exact stopsAt_set _
  · split
    · exact stopsAt_fail h _
    · exact stopsAt_set _

theorem stopsAt_useRule (p : Primitive) (loc : Location) : StopsAt P (useRule p loc) := by
  refine (stopsAt_modify _).bind fun _ => ?_
  cases p.warning with
  | none => exact stopsAt_modify _
  | some message => exact (stopsAt_modify _).bind fun _ => stopsAt_modify _

theorem stopsAt_reference {loc : Location} (h : P loc) (name : String) :
    StopsAt P (reference name loc) := by
  refine stopsAt_get fun s => ?_
  split
  · exact stopsAt_pure _
  split
  · split
    · exact stopsAt_pure _
    · exact stopsAt_pure _
  refine stopsAt_read fun c => ?_
  split
  · exact stopsAt_fail h _
  cases Library.findRule? (escapeIdent name) with
  | some p => exact (stopsAt_useRule p loc).bind fun _ => stopsAt_pure _
  | none => exact stopsAt_pure _

theorem stopsAt_typeOf (f : Formula) : StopsAt P (typeOf f) := by
  induction f with
  | hole => exact stopsAt_broken _
  | atom name args loc =>
    refine (stopsAt_onFrames _).bind fun _ => ?_
    cases args with
    | nil => exact stopsAt_pure _
    | cons arg rest =>
      dsimp only
      split
      · exact (stopsAt_onFrames _).bind fun _ => stopsAt_pure _
      · refine (stopsAt_modify _).bind fun _ => ?_
        exact (stopsAt_onFrames _).bind fun _ => stopsAt_pure _
  | neg a _ iha => exact iha.bind fun _ => stopsAt_pure _
  | conj a b _ iha ihb | disj a b _ iha ihb | impl a b _ iha ihb =>
    exact iha.bind fun _ => ihb.bind fun _ => stopsAt_pure _
  | all vars a _ iha =>
    refine (stopsAt_onFrames _).bind fun _ => iha.bind fun _ => ?_
    exact (stopsAt_onFrames _).bind fun _ => stopsAt_pure _

theorem stopsAt_argument {a : Argument} (h : a.Cites P) : StopsAt P (argument a) := by
  cases a with
  | fact name loc => exact stopsAt_reference h name
  | prop f =>
    cases f with
    | hole => exact stopsAt_broken _
    | _ => exact (stopsAt_typeOf _).bind fun _ => stopsAt_pure _

theorem stopsAt_applyAll {args : List Argument} (h : ∀ a ∈ args, a.Cites P) (fn : Expr) :
    StopsAt P (applyAll fn args) := by
  induction args generalizing fn with
  | nil => exact stopsAt_pure _
  | cons a rest ih =>
    rw [List.forall_mem_cons] at h
    exact (stopsAt_argument h.1).bind fun _ => ih h.2 _

theorem stopsAt_instantiate {args : List Argument} (h : ∀ a ∈ args, a.Cites P) {loc : Location}
    (hloc : P loc) : StopsAt P (instantiate args loc) := by
  unfold instantiate
  split
  · exact stopsAt_fail hloc _
  · next f name at_ _ =>
    have hat : P at_ := h (.fact name at_) (by simp)
    refine (stopsAt_reference hat name).bind fun _ => ?_
    exact (stopsAt_typeOf f).bind fun _ => stopsAt_pure _
  · exact stopsAt_fail hloc _
  · exact stopsAt_fail hloc _

theorem stopsAt_application {args : List Argument} (h : ∀ a ∈ args, a.Cites P) {loc : Location}
    (hloc : P loc) (rule : String) : StopsAt P (application rule args loc) := by
  refine stopsAt_read fun c => ?_
  split
  · exact stopsAt_instantiate h hloc
  · exact (stopsAt_reference hloc rule).bind fun fn => stopsAt_applyAll h fn

theorem stopsAt_hypotheses {hyps : List Claim} (h : ∀ x ∈ hyps, P x.loc) :
    StopsAt P (hypotheses hyps) := by
  induction hyps with
  | nil => exact stopsAt_pure _
  | cons x rest ih =>
    rw [List.forall_mem_cons] at h
    refine (stopsAt_onFrames _).bind fun _ => (stopsAt_typeOf _).bind fun _ => ?_
    exact (stopsAt_declare h.1 _).bind fun _ => (ih h.2).bind fun _ => stopsAt_pure _

theorem stopsAt_closeHypotheses (ret : Option TypeExpr) (body : Body) (hs : List Hypothesis) :
    StopsAt P (closeHypotheses ret body hs) := by
  match hs with
  | [] => exact stopsAt_broken _
  | [(p, loc)] => exact stopsAt_exit.bind fun _ => stopsAt_pure _
  | (p, loc) :: x :: rest =>
    refine (stopsAt_closeHypotheses ret body (x :: rest)).bind fun _ => ?_
    exact stopsAt_exit.bind fun _ => stopsAt_pure _

theorem stopsAt_closeVariables (ret : Option TypeExpr) (body : Body) (loc : Location)
    (vars : List String) : StopsAt P (closeVariables ret body loc vars) := by
  match vars with
  | [] => exact stopsAt_broken _
  | [v] => exact stopsAt_pure _
  | v :: w :: rest =>
    exact (stopsAt_closeVariables ret body loc (w :: rest)).bind fun _ => stopsAt_pure _

theorem stopsAt_recordArguments (args : List Argument) : StopsAt P (recordArguments args) := by
  induction args with
  | nil => exact stopsAt_pure _
  | cons a rest ih =>
    cases a with
    | fact => exact ih
    | prop f =>
      cases f with
      | hole => exact ih
      | _ => exact (stopsAt_typeOf _).bind fun _ => ih

theorem stopsAt_recordJustification (j : Justification) : StopsAt P (recordJustification j) := by
  cases j with
  | apply rule args loc => exact stopsAt_recordArguments args
  | _ => exact stopsAt_pure _

theorem stopsAt_recordStatement (st : Statement) : StopsAt P (recordStatement st) := by
  cases st with
  | step claim j loc =>
    unfold recordStatement
    dsimp only
    split
    · exact stopsAt_recordJustification j
    · exact (stopsAt_typeOf _).bind fun _ => stopsAt_recordJustification j
  | _ => exact stopsAt_pure _

theorem stopsAt_recordSteps (st : Steps) : StopsAt P (recordSteps st) := by
  cases st with
  | last s => exact stopsAt_recordStatement s
  | conclude j => exact stopsAt_recordJustification j
  | more s rest => exact (stopsAt_recordStatement s).bind fun _ => stopsAt_recordSteps rest

theorem stopsAt_stepHead {c : Claim} (h : P c.loc) : StopsAt P (stepHead c) := by
  have hannotated (name : String) : StopsAt P (do
      let t ← typeOf c.formula
      return (name, some t) : Generate (String × Option TypeExpr)) :=
    (stopsAt_typeOf _).bind fun _ => stopsAt_pure _
  unfold stepHead
  dsimp only
  by_cases hhole : c.formula.isHole = true
  · simp only [hhole, if_true]
    split
    · exact stopsAt_pure _
    · exact (stopsAt_fail h _).bind fun _ => stopsAt_pure _
  · simp only [hhole]
    split
    · exact hannotated _
    · exact hannotated _

/-! ## Proofs -/

mutual

theorem stopsAt_proof (declared : Bool) {p : Proof} (h : p.Cites P) :
    StopsAt P (proof declared p) := by
  match p with
  | .mk s _ =>
    refine (stopsAt_recordSteps s).bind fun _ => (stopsAt_steps declared h).bind ?_
    exact fun _ => stopsAt_pure _

theorem stopsAt_steps (declared : Bool) {st : Steps} (h : st.Cites P) :
    StopsAt P (steps declared st) := by
  match st with
  | .last s => exact stopsAt_final declared h
  | .conclude j _ => exact (stopsAt_justification h).bind fun _ => stopsAt_pure _
  | .more s rest =>
    refine (stopsAt_statement h.1).bind fun _ => (stopsAt_steps declared h.2).bind ?_
    exact fun _ => stopsAt_pure _

theorem stopsAt_final (declared : Bool) {st : Statement} (h : st.Cites P) :
    StopsAt P (final declared st) := by
  match st with
  | .missing => exact stopsAt_broken _
  | .block bl => exact (stopsAt_block h).bind fun _ => stopsAt_pure _
  | .step claim j loc =>
    unfold final
    split
    · exact (stopsAt_justification h.2).bind fun _ => stopsAt_pure _
    split
    · refine (stopsAt_stepHead h.1).bind fun _ => (stopsAt_justification h.2).bind fun _ => ?_
      exact (stopsAt_declare h.1 _).bind fun _ => stopsAt_pure _
    · refine (stopsAt_typeOf _).bind fun _ => ?_
      exact (stopsAt_justification h.2).bind fun _ => stopsAt_pure _

theorem stopsAt_statement {st : Statement} (h : st.Cites P) : StopsAt P (statement st) := by
  match st with
  | .missing => exact stopsAt_broken _
  | .block bl => exact (stopsAt_block h).bind fun _ => stopsAt_pure _
  | .step claim j loc =>
    refine (stopsAt_stepHead h.1).bind fun _ => (stopsAt_justification h.2).bind fun _ => ?_
    exact (stopsAt_declare h.1 _).bind fun _ => stopsAt_pure _

theorem stopsAt_justification {j : Justification} (h : j.Cites P) :
    StopsAt P (justification j) := by
  match j with
  | .missing => exact stopsAt_broken _
  | .apply rule args loc => exact stopsAt_application h.2 h.1 rule
  | .block bl => exact stopsAt_block h

theorem stopsAt_block {bl : Block} (h : bl.Cites P) : StopsAt P (block bl) := by
  match bl with
  | .assume hyps p _ =>
    refine (stopsAt_modify _).bind fun _ => (stopsAt_hypotheses h.1).bind fun hs => ?_
    refine (stopsAt_proof false h.2).bind fun r => (stopsAt_closeHypotheses _ _ hs).bind fun _ => ?_
    exact (stopsAt_modify _).bind fun _ => stopsAt_pure _
  | .generalize vars p loc =>
    refine (stopsAt_modify _).bind fun _ => (stopsAt_onFrames _).bind fun _ => ?_
    refine (stopsAt_proof false h).bind fun r => (stopsAt_onFrames _).bind fun _ => ?_
    refine (stopsAt_closeVariables _ _ loc vars).bind fun _ => ?_
    exact (stopsAt_modify _).bind fun _ => stopsAt_pure _

end

/-! ## Theorems -/

theorem cites_of_sequent {t : Theorem} {hyps : List Claim} {p : Proof} (h : t.Cites P)
    (hsequent : sequent? t = some (hyps, p)) : (∀ x ∈ hyps, P x.loc) ∧ p.Cites P := by
  obtain ⟨claim, proof, loc⟩ := t
  obtain ⟨steps, start⟩ := proof
  have hsteps : steps.Cites P := h.2
  unfold sequent? at hsequent
  split at hsequent
  · cases hsequent
  · cases hsequent
  split at hsequent
  · next hyps' p' loc' hlast =>
    obtain ⟨rfl, rfl⟩ := Prod.mk.inj (Option.some.inj hsequent)
    obtain rfl : steps = _ := hlast
    exact hsteps
  · cases hsequent

theorem stopsAt_theoremArrow {t : Theorem} (h : t.Cites P) : StopsAt P (theoremArrow t) := by
  unfold theoremArrow
  split
  · next hyps p hsequent =>
    obtain ⟨hhyps, hp⟩ := cites_of_sequent h hsequent
    refine (stopsAt_hypotheses hhyps).bind fun hs => (stopsAt_typeOf _).bind fun _ => ?_
    refine (stopsAt_proof true hp).bind fun r => ?_
    exact (stopsAt_closeHypotheses _ _ hs).bind fun _ => stopsAt_pure _
  · refine (stopsAt_onFrames _).bind fun _ => (stopsAt_typeOf _).bind fun _ => ?_
    exact (stopsAt_proof true h.2).bind fun r => stopsAt_exit.bind fun _ => stopsAt_pure _

theorem stopsAt_checkTheoremName {loc : Location} (h : P loc) (name : String) :
    StopsAt P (checkTheoremName name loc) := by
  unfold checkTheoremName
  split
  · exact stopsAt_fail h _
  refine stopsAt_get fun s => ?_
  split
  · exact stopsAt_fail h _
  · exact stopsAt_pure _

theorem stopsAt_theoremDecl {t : Theorem} (h : t.Cites P) : StopsAt P (theoremDecl t) := by
  unfold theoremDecl
  cases t.claim.name with
  | none =>
    refine (stopsAt_modify _).bind fun _ => (stopsAt_theoremArrow h).bind fun r => ?_
    exact (stopsAt_modify _).bind fun _ => stopsAt_pure _
  | some name =>
    refine (stopsAt_checkTheoremName h.1 _).bind fun _ => (stopsAt_modify _).bind fun _ => ?_
    refine (stopsAt_theoremArrow h).bind ?_
    rintro ⟨arrow, isThunk⟩
    refine (stopsAt_modify _).bind fun _ => (stopsAt_declare h.1 _).bind fun _ => ?_
    cases isThunk with
    | false => exact stopsAt_pure _
    | true => exact (stopsAt_modify _).bind fun _ => stopsAt_pure _

theorem stopsAt_theoremDecls {thms : List Theorem} (h : ∀ t ∈ thms, t.Cites P) :
    StopsAt P (theoremDecls thms) := by
  induction thms with
  | nil => exact stopsAt_pure _
  | cons t rest ih =>
    rw [List.forall_mem_cons] at h
    refine (stopsAt_theoremDecl h.1).bind fun decl => stopsAt_get fun s => ?_
    dsimp only
    split
    · exact stopsAt_broken _
    · exact (ih h.2).bind fun _ => stopsAt_pure _

end Generate

/-! ## Excerpts -/

namespace Excerpt

/-- The lines that are shown hold the offending one. -/
theorem text_shows {x : Excerpt} {i : Nat} {line : String} (hloc : x.loc.line = i + 1)
    (hline : (Text.lines x.source)[i]? = some line) :
    x.hasLine = true ∧ ∃ before after, x.text = before ++ x.line (i + 1) line ++ after := by
  obtain ⟨hhas, front, back, -, htext⟩ := textIn_shows .terminal hloc hline
  exact ⟨hhas, front, back, (text_eq x).trans htext⟩

end Excerpt

/-! ## Errors -/

/-- What an error reports starts with these bytes of a line of the script: the character of a lexical
error, a token of the class that a grammatical error got, or a token for an error of generation. The
end is got on the last line only. -/
def ScriptError.Shows (src : List UInt8) (number : Nat) (bs : List UInt8) : ScriptError → Prop
  | .lex e => e.Shows bs
  | .parse e => ∃ t, (TokenStream.ofSource src).Shows t ∧ t.loc = e.loc ∧ t.kind = e.got ∧
      t.Starts bs ∧ (e.got = .eof → number = (Text.byteLines src).length)
  | .generate e => ∃ t ∈ (TokenStream.ofSource src).tokens, t.loc = e.loc ∧ t.Starts bs

/-- The error has the place of a byte of a line of the script, or the place behind the last one; what
it reports starts there; and every excerpt of the script about it shows the line. -/
def ScriptError.Located (src : List UInt8) (e : ScriptError) : Prop :=
  ∃ (i j : Nat) (line : List UInt8), e.loc = ⟨i + 1, j + 1⟩ ∧
    (Text.byteLines src)[i]? = some line ∧ j ≤ line.length ∧
    e.Shows src (i + 1) (line.drop j) ∧
    ∀ message filename length,
      let x : Excerpt := ⟨message, filename, e.loc, length, Text.ofBytes src⟩
      x.hasLine = true ∧
        ∃ before after, x.text = before ++ x.line (i + 1) (Text.ofBytes line) ++ after

theorem ScriptError.located_of_stands {src : List UInt8} {e : ScriptError}
    {line : List UInt8} {ls : List (List UInt8)} (h : Stands src e.loc (line :: ls))
    (hshows : ∀ number : Nat, (ls = [] → number = (Text.byteLines src).length) →
      e.Shows src number line) : e.Located src := by
  obtain ⟨i, j, whole, hloc, hwhole, hj, hahead⟩ := h
  obtain ⟨rfl, rfl⟩ := List.cons.inj hahead
  refine ⟨i, j, whole, hloc, hwhole, hj, hshows _ fun hlast => ?_, fun message filename length => ?_⟩
  · have hi := (List.getElem?_eq_some_iff.mp hwhole).1
    have hle := List.drop_eq_nil_iff.mp hlast
    omega
  · refine Excerpt.text_shows (by simp only [hloc]) ?_
    rw [Text.lines_ofBytes, List.getElem?_map, hwhole]
    rfl

/-- Every shown token stands at its place. -/
theorem TokenStream.Shows.seen {src : List UInt8} {t : Token}
    (h : (TokenStream.ofSource src).Shows t) : t.Seen src := by
  obtain ⟨htokens, hstop⟩ := TokenStream.ofSource_seen src
  rcases h with h | h
  · exact htokens t h
  · rw [h] at hstop
    exact hstop

theorem ScriptError.located_of_blamed {src : List UInt8} {e : ScriptError}
    (h : (TokenStream.ofSource src).Blamed e) : e.Located src := by
  cases e with
  | lex e =>
    have hstop := (TokenStream.ofSource_seen src).2
    rw [show (TokenStream.ofSource src).stop = .error e from h] at hstop
    obtain ⟨line, ls, hstands, hshows⟩ := hstop
    exact located_of_stands hstands fun _ _ => hshows
  | parse e =>
    obtain ⟨t, ht, hloc, hkind⟩ := h
    obtain ⟨line, ls, hstands, hstarts, hend⟩ := ht.seen
    refine located_of_stands (hloc ▸ hstands) fun number hlast => ?_
    exact ⟨t, ht, hloc, hkind, hstarts, fun hgot => hlast (hend (hkind.trans hgot))⟩
  | generate e => exact h.elim

theorem ScriptError.located_of_hasPlace {src : List UInt8} {e : GenerateError}
    (h : (TokenStream.ofSource src).HasPlace e.loc) : (ScriptError.generate e).Located src := by
  obtain ⟨t, ht, hloc⟩ := h
  obtain ⟨line, ls, hstands, hstarts, -⟩ := (TokenStream.ofSource_seen src).1 t ht
  exact located_of_stands (e := .generate e) (hloc ▸ hstands) fun _ _ => ⟨t, ht, hloc, hstarts⟩

/-- A compilation that fails has an error of the script, and the error points into it. Excerpts break
the script into the same lines. -/
theorem compile_located {src : List UInt8} {systemF : Bool} {f : CompileFailure}
    (h : (compile src systemF).1 = .error f) :
    Text.lines (Text.ofBytes src) = (Text.byteLines src).map Text.ofBytes ∧
      ∃ e, f = .script e ∧ e.Located src := by
  refine ⟨Text.lines_ofBytes src, ?_⟩
  have hblames := parse_blames src systemF
  cases hparse : parse src systemF with
  | error e =>
    rw [hparse] at hblames
    have hfails : (compile src systemF).1 = .error (.script e) := by simp [compile, hparse]
    exact ⟨e, (Except.error.inj (hfails.symm.trans h)).symm,
      ScriptError.located_of_blamed hblames⟩
  | ok d =>
    rw [hparse] at hblames
    obtain ⟨decls, s, hdecls, -, hemit⟩ | ⟨e, s, hfail⟩ :=
      Generate.theoremDecls_run (theorems_worded hparse)
        ⟨systemF, d.theorems.filterMap fun t => t.claim.name.map escapeIdent⟩
    · have hgenerate : d.generate systemF = (.ok decls, s) := hdecls
      obtain ⟨program, hprogram⟩ := emit_of_emittable hemit s.used systemF
      simp [compile, hparse, Document.compile, hgenerate, hprogram] at h
    · have hgenerate : d.generate systemF = (.error (.error e), s) := hfail
      have hfails : (compile src systemF).1 = .error (.script (.generate e)) := by
        simp [compile, hparse, Document.compile, hgenerate, Generate.Failure.toCompile]
      refine ⟨.generate e, (Except.error.inj (hfails.symm.trans h)).symm, ?_⟩
      exact ScriptError.located_of_hasPlace (Generate.stopsAt_theoremDecls hblames _ _ _ _ hfail)

/-- A stray byte on the third line, behind line ends of two kinds and a comment. -/
theorem compile_located_stray :
    let src := Text.bytes "theorem t : P\r\n// é\r  " ++ [0xC3, 0x28]
    let e : ScriptError := .lex ⟨⟨3, 3⟩, Text.replacement⟩
    (compile src false).1 = .error (.script e) ∧ e.Located src := by
  intro src e
  have hfails : (match (compile src false).1 with
      | .ok _ => false
      | .error f => decide (f = .script e)) = true := by decide +kernel
  cases h : (compile src false).1 with
  | ok c => simp [h] at hfails
  | error f =>
    obtain rfl : f = .script e := by simpa [h] using hfails
    obtain ⟨-, e', he, hlocated⟩ := compile_located h
    exact ⟨rfl, CompileFailure.script.inj he ▸ hlocated⟩

end ProofScript
