import ProofScript.Proofs.Runs

/-!
# What generation records

Generation records the atoms that a document mentions in the frame on top, and closes a frame behind
the binder that it opened it for. The lemmas say which atoms the single steps record.
-/

namespace ProofScript

open Program

namespace Frames

/-- A frame with one more atom, unless it has it already. -/
def note (top : List String) (name : String) : List String :=
  if name ∈ top then top else top ++ [name]

/-- The frames with atoms recorded in the one on top. -/
def record (f : Frames) (names : List String) : Frames :=
  { f with frames := f.frames.modifyHead (names.foldl note) }

theorem mem_foldl_note {names top : List String} {a : String} :
    a ∈ names.foldl note top ↔ a ∈ top ∨ a ∈ names := by
  induction names generalizing top with
  | nil => simp
  | cons name rest ih =>
    rw [List.foldl_cons, ih, note]
    split
    · grind
    · grind

theorem nodup_foldl_note {names top : List String} (h : top.Nodup) :
    (names.foldl note top).Nodup := by
  induction names generalizing top with
  | nil => exact h
  | cons name rest ih =>
    refine ih ?_
    unfold note
    split
    · exact h
    · rename_i hmem
      rw [List.nodup_append]
      refine ⟨h, by simp, ?_⟩
      rintro a ha b hb rfl
      rw [List.mem_singleton.mp hb] at ha
      exact hmem ha

theorem foldl_note_of_subset {names top : List String} (h : names ⊆ top) :
    names.foldl note top = top := by
  induction names with
  | nil => rfl
  | cons name rest ih =>
    have hname : name ∈ top := h (by simp)
    rw [List.foldl_cons, note, if_pos hname]
    exact ih fun a ha => h (by simp [ha])

@[simp]
theorem record_bound (f : Frames) (names : List String) : (f.record names).bound = f.bound := rfl

@[simp]
theorem record_nil (f : Frames) : f.record [] = f := by
  obtain ⟨frames, bound⟩ := f
  cases frames with
  | nil => rfl
  | cons top rest => rfl

theorem record_append (f : Frames) (names more : List String) :
    f.record (names ++ more) = (f.record names).record more := by
  obtain ⟨frames, bound⟩ := f
  cases frames with
  | nil => rfl
  | cons top rest => simp [record]

theorem add_eq_ok {f g : Frames} {name : String} (h : f.add name = .ok g) :
    f.frames ≠ [] ∧ g = f.record ([name].filter (· ∉ f.bound)) := by
  obtain ⟨frames, bound⟩ := f
  cases frames with
  | nil => cases h
  | cons top rest =>
    refine ⟨by simp, ?_⟩
    simp only [add, isBound] at h
    by_cases hbound : name ∈ bound
    · obtain rfl : _ = g := by simpa [hbound] using h
      simp [hbound]
    · by_cases htop : name ∈ top
      · obtain rfl : _ = g := by simpa [htop] using h
        simp [hbound, record, note, htop]
      · obtain rfl : _ = g := by simpa [hbound, htop] using h
        simp [hbound, record, note, htop]

/-- What is recorded while the bound atoms are others. -/
theorem record_bind (f : Frames) (vars names : List String) :
    (f.bind vars).record names = (f.record names).bind vars := rfl

theorem unbind_bind {f g : Frames} {vars : List String} (h : g = f.bind vars) :
    { g with bound := g.bound.drop vars.length } = f := by
  simp [h, bind]

/-- Atoms may become recorded in the frame on top. -/
def Grows (f g : Frames) : Prop := ∃ names, g = f.record names

theorem Grows.trans {f g h : Frames} (hfg : Grows f g) (hgh : Grows g h) : Grows f h := by
  obtain ⟨names, rfl⟩ := hfg
  obtain ⟨more, rfl⟩ := hgh
  exact ⟨names ++ more, (f.record_append names more).symm⟩

/-- A frame that was opened and filled, on top of the others. -/
theorem Grows.of_enter {f g : Frames} (h : Grows f.enter g) :
    ∃ top, g = { f with frames := top :: f.frames } := by
  obtain ⟨names, rfl⟩ := h
  exact ⟨names.foldl note [], rfl⟩

/-- The atoms that the frame on top declares. -/
def own (top : List String) (rest : List (List String)) : List String :=
  top.filter fun name => !(name ∈ constants || rest.any (name ∈ ·))

end Frames

/-! ## What a document mentions on its own level -/

/-- The atoms of a proposition that are not bound, in order. -/
def Formula.atoms (bound : List String) : Formula → List String
  | .hole => []
  | .atom name args _ => (name :: args.head?.toList).filter (· ∉ bound)
  | .neg a _ => a.atoms bound
  | .conj a b _ => a.atoms bound ++ b.atoms bound
  | .disj a b _ => a.atoms bound ++ b.atoms bound
  | .impl a b _ => a.atoms bound ++ b.atoms bound
  | .all vars a _ => a.atoms (vars.reverse ++ bound)

/-- The atoms of an argument. -/
def Argument.atoms (bound : List String) : Argument → List String
  | .fact _ _ => []
  | .prop f => f.atoms bound

/-- The atoms of a justification, without those of a block. -/
def Justification.atoms (bound : List String) : Justification → List String
  | .apply _ args _ => args.flatMap (Argument.atoms bound)
  | _ => []

/-- The atoms of a statement, without those of blocks. -/
def Statement.atoms (bound : List String) : Statement → List String
  | .step c j _ => c.formula.atoms bound ++ j.atoms bound
  | _ => []

/-- The atoms of steps, without those of blocks. -/
def Steps.atoms (bound : List String) : Steps → List String
  | .last s => s.atoms bound
  | .conclude j _ => j.atoms bound
  | .more s rest => s.atoms bound ++ rest.atoms bound

namespace Generate

variable {c : Context} {s s' : State}

/-! ## What generation records -/

theorem warn_frames {loc : Location} {message : String} {u : Unit}
    (h : warn loc message c s = (.ok u, s')) : s'.frames = s.frames := by
  obtain rfl := modify_eq_ok.mp h
  dsimp only
  split
  · rfl
  · rfl

theorem useRule_frames {p : Primitive} {loc : Location} {u : Unit}
    (h : useRule p loc c s = (.ok u, s')) : s'.frames = s.frames := by
  simp only [useRule, bind_eq_ok] at h
  obtain ⟨_, mid, huse, h⟩ := h
  have hmid : mid.frames = s.frames := by
    obtain rfl := modify_eq_ok.mp huse
    split
    · rfl
    · rfl
  cases hwarning : p.warning with
  | none =>
    simp only [hwarning] at h
    obtain rfl := modify_eq_ok.mp h
    exact hmid
  | some message =>
    simp only [hwarning] at h
    obtain ⟨_, mid', hwarn, h⟩ := bind_eq_ok.mp h
    obtain rfl := modify_eq_ok.mp h
    exact (warn_frames hwarn).trans hmid

theorem reference_frames {name : String} {loc : Location} {e : Expr}
    (h : reference name loc c s = (.ok e, s')) : s'.frames = s.frames := by
  simp only [reference, bind_eq_ok] at h
  obtain ⟨_, _, hget, h⟩ := h
  obtain ⟨rfl, rfl⟩ := get_eq_ok.mp hget
  split at h
  · rw [(pure_eq_ok.mp h).2]
  split at h
  · split at h
    · rw [(pure_eq_ok.mp h).2]
    · rw [(pure_eq_ok.mp h).2]
  obtain ⟨_, _, hread, h⟩ := bind_eq_ok.mp h
  obtain ⟨rfl, rfl⟩ := read_eq_ok.mp hread
  split at h
  · exact absurd h fail_ne_ok
  cases hrule : Library.findRule? (escapeIdent name) with
  | some p =>
    simp only [hrule] at h
    obtain ⟨_, _, huse, h⟩ := bind_eq_ok.mp h
    rw [← (pure_eq_ok.mp h).2, useRule_frames huse]
  | none =>
    simp only [hrule] at h
    rw [(pure_eq_ok.mp h).2]

theorem mention_frames {name : String} {u : Unit} (h : mention name c s = (.ok u, s')) :
    s.frames.frames ≠ [] ∧
      s'.frames = s.frames.record ([name].filter (· ∉ s.frames.bound)) := by
  obtain ⟨g, hg, rfl⟩ := onFrames_eq_ok h
  cases hadd : s.frames.add name with
  | error m => simp [hadd, Except.map] at hg
  | ok g' =>
    obtain rfl : g' = g := by simpa [hadd, Except.map] using hg
    exact Frames.add_eq_ok hadd

theorem unbindNames_eq_ok {n : Nat} {u : Unit} (h : unbindNames n c s = (.ok u, s')) :
    s' = { s with frames := { s.frames with bound := s.frames.bound.drop n } } := by
  obtain ⟨g, hg, rfl⟩ := onFrames_eq_ok h
  unfold Frames.unbind at hg
  split at hg
  · cases hg
  · obtain ⟨-, rfl⟩ := Prod.mk.inj (Except.ok.inj hg)
    rfl

/-- The type of a proposition records its atoms. There is always a frame for them. -/
theorem typeOf_frames {f : Formula} {t : TypeExpr} (h : typeOf f c s = (.ok t, s')) :
    s.frames.frames ≠ [] ∧ s'.frames = s.frames.record (f.atoms s.frames.bound) := by
  induction f generalizing t s s' with
  | hole => exact absurd h broken_ne_ok
  | atom name args loc =>
    simp only [typeOf, bind_eq_ok] at h
    obtain ⟨_, mid, hname, h⟩ := h
    obtain ⟨hne, hmid⟩ := mention_frames hname
    refine ⟨hne, ?_⟩
    cases args with
    | nil =>
      obtain ⟨-, rfl⟩ := pure_eq_ok.mp h
      exact hmid
    | cons arg rest =>
      -- A warning about further arguments leaves the frames alone.
      obtain ⟨mid', hwarned, h⟩ : ∃ mid' : State, mid'.frames = mid.frames ∧
          (do mention arg
              return .ref "Apply" [.ref (escapeTypeVar name) [], .ref (escapeTypeVar arg) []] :
            Generate TypeExpr) c mid' = (.ok t, s') := by
        dsimp only at h
        split at h
        · exact ⟨mid, rfl, h⟩
        · obtain ⟨_, mid', hwarn, h⟩ := bind_eq_ok.mp h
          exact ⟨mid', warn_frames hwarn, h⟩
      obtain ⟨_, _, harg, h⟩ := bind_eq_ok.mp h
      obtain ⟨-, rfl⟩ := pure_eq_ok.mp h
      rw [(mention_frames harg).2, hwarned, hmid, Frames.record_bound, ← Frames.record_append,
        ← List.filter_append]
      rfl
  | neg a _ ih =>
    obtain ⟨ta, mid, ha, h⟩ := bind_eq_ok.mp h
    obtain ⟨-, rfl⟩ := pure_eq_ok.mp h
    exact ih ha
  | conj a b _ iha ihb | disj a b _ iha ihb | impl a b _ iha ihb =>
    simp only [typeOf, bind_eq_ok] at h
    obtain ⟨ta, mid, ha, tb, mid', hb, h⟩ := h
    obtain ⟨-, rfl⟩ := pure_eq_ok.mp h
    obtain ⟨hne, hmid⟩ := iha ha
    refine ⟨hne, ?_⟩
    rw [(ihb hb).2, hmid, Frames.record_bound, ← Frames.record_append, Formula.atoms]
  | all vars a _ ih =>
    simp only [typeOf, bind_eq_ok] at h
    obtain ⟨_, mid, hbind, ta, mid', ha, _, mid'', hunbind, h⟩ := h
    obtain ⟨-, rfl⟩ := pure_eq_ok.mp h
    obtain rfl := bindNames_eq_ok hbind
    obtain ⟨hne, hmid⟩ := ih ha
    refine ⟨hne, ?_⟩
    rw [unbindNames_eq_ok hunbind, hmid]
    simp [Formula.atoms, Frames.record, Frames.bind]

/-- A proposition that is left out has no atoms, so its head records nothing. -/
theorem stepHead_frames {claim : Claim} {r : String × Option TypeExpr}
    (h : stepHead claim c s = (.ok r, s')) :
    s'.frames = s.frames.record (claim.formula.atoms s.frames.bound) := by
  obtain ⟨name, t⟩ := r
  obtain ⟨-, ⟨hhole, -, rfl⟩ | ⟨u, -, hu, -⟩⟩ := stepHead_eq_ok h
  · obtain ⟨_, f, _⟩ := claim
    cases f with
    | hole => simp [Formula.atoms]
    | _ => cases hhole
  · exact (typeOf_frames hu).2

theorem argument_frames {a : Argument} {e : Expr} (h : argument a c s = (.ok e, s')) :
    s'.frames = s.frames.record (a.atoms s.frames.bound) := by
  cases a with
  | fact name loc => simpa [Argument.atoms] using reference_frames h
  | prop f =>
    cases f with
    | hole => exact absurd h broken_ne_ok
    | _ =>
      obtain ⟨_, _, htype, h⟩ := bind_eq_ok.mp h
      obtain ⟨-, rfl⟩ := pure_eq_ok.mp h
      exact (typeOf_frames htype).2

theorem applyAll_frames {fn e : Expr} {args : List Argument}
    (h : applyAll fn args c s = (.ok e, s')) :
    s'.frames = s.frames.record (args.flatMap (Argument.atoms s.frames.bound)) := by
  induction args generalizing fn s with
  | nil =>
    obtain ⟨-, rfl⟩ := pure_eq_ok.mp h
    simp
  | cons a rest ih =>
    obtain ⟨x, mid, hx, h⟩ := bind_eq_ok.mp h
    rw [ih h, argument_frames hx, Frames.record_bound, ← Frames.record_append, List.flatMap_cons]

theorem application_frames {rule : String} {args : List Argument} {loc : Location} {e : Expr}
    (h : application rule args loc c s = (.ok e, s')) :
    s'.frames = s.frames.record (args.flatMap (Argument.atoms s.frames.bound)) := by
  obtain ⟨_, _, hread, h⟩ := bind_eq_ok.mp h
  obtain ⟨rfl, rfl⟩ := read_eq_ok.mp hread
  split at h
  · obtain ⟨f, name, at_, fn, mid, t, rfl, hfn, ht, -⟩ := instantiate_eq_ok h
    rw [(typeOf_frames ht).2, reference_frames hfn]
    simp [Argument.atoms]
  · obtain ⟨fn, mid, hfn, h⟩ := bind_eq_ok.mp h
    rw [applyAll_frames h, reference_frames hfn]

theorem recordArguments_frames {args : List Argument} {u : Unit}
    (h : recordArguments args c s = (.ok u, s')) :
    s'.frames = s.frames.record (args.flatMap (Argument.atoms s.frames.bound)) := by
  induction args generalizing s with
  | nil =>
    obtain ⟨-, rfl⟩ := pure_eq_ok.mp h
    simp
  | cons a rest ih =>
    cases a with
    | fact => simpa [Argument.atoms] using ih h
    | prop f =>
      cases f with
      | hole => simpa [Argument.atoms, Formula.atoms] using ih h
      | _ =>
        obtain ⟨_, mid, htype, h⟩ := bind_eq_ok.mp h
        rw [ih h, (typeOf_frames htype).2, Frames.record_bound, ← Frames.record_append,
          List.flatMap_cons, Argument.atoms]

theorem recordJustification_frames {j : Justification} {u : Unit}
    (h : recordJustification j c s = (.ok u, s')) :
    s'.frames = s.frames.record (j.atoms s.frames.bound) := by
  cases j with
  | apply rule args loc => exact recordArguments_frames h
  | _ =>
    obtain ⟨-, rfl⟩ := pure_eq_ok.mp h
    simp [Justification.atoms]

theorem recordStatement_frames {st : Statement} {u : Unit}
    (h : recordStatement st c s = (.ok u, s')) :
    s'.frames = s.frames.record (st.atoms s.frames.bound) := by
  cases st with
  | step claim j loc =>
    obtain ⟨name, f, at_⟩ := claim
    cases f with
    | hole => exact recordJustification_frames h
    | _ =>
      obtain ⟨_, mid, htype, h⟩ := bind_eq_ok.mp h
      rw [recordJustification_frames h, (typeOf_frames htype).2, Frames.record_bound,
        ← Frames.record_append, Statement.atoms]
  | _ =>
    obtain ⟨-, rfl⟩ := pure_eq_ok.mp h
    simp [Statement.atoms]

theorem recordSteps_frames {c : Context} {s s' : State} {u : Unit} :
    (st : Steps) → recordSteps st c s = (.ok u, s') →
      s'.frames = s.frames.record (st.atoms s.frames.bound)
  | .last _, h => recordStatement_frames h
  | .conclude _ _, h => recordJustification_frames h
  | .more st rest, h => by
    obtain ⟨_, mid, hst, h⟩ := bind_eq_ok.mp h
    rw [recordSteps_frames rest h, recordStatement_frames hst, Frames.record_bound,
      ← Frames.record_append, Steps.atoms]

theorem exit_eq_ok {tparams : List String} (h : exit c s = (.ok tparams, s')) :
    ∃ top rest, s.frames.frames = top :: rest ∧
      tparams = (Frames.own top rest).map escapeTypeVar ∧
      s' = { s with frames := { s.frames with frames := rest } } := by
  obtain ⟨names, _, hexit, h⟩ := bind_eq_ok.mp h
  obtain ⟨rfl, rfl⟩ := pure_eq_ok.mp h
  obtain ⟨g, hg, rfl⟩ := onFrames_eq_ok hexit
  cases hframes : s.frames.frames with
  | nil => simp [Frames.exit, hframes] at hg
  | cons top rest =>
    simp only [Frames.exit, hframes] at hg
    obtain ⟨rfl, rfl⟩ := Prod.mk.inj (Except.ok.inj hg)
    exact ⟨top, rest, rfl, rfl, rfl⟩

/-- A frame that was opened is closed again, and everything else is as before. -/
theorem exit_of_grows {f : Frames} {tparams : List String} (hf : f.enter.Grows s.frames)
    (h : exit c s = (.ok tparams, s')) :
    s'.frames = f ∧ ∃ top, s.frames = { f with frames := top :: f.frames } ∧
      tparams = (Frames.own top f.frames).map escapeTypeVar := by
  obtain ⟨top, hs⟩ := hf.of_enter
  obtain ⟨top', rest, hframes, rfl, rfl⟩ := exit_eq_ok h
  rw [hs] at hframes
  obtain ⟨rfl, rfl⟩ := List.cons.inj hframes
  exact ⟨by rw [hs], top, hs, rfl⟩

theorem GoalRun.frames {goal : Option Formula} (h : GoalRun c goal s s') :
    s'.frames = s.frames.record (goal.elim [] (Formula.atoms s.frames.bound)) := by
  cases goal with
  | none =>
    obtain rfl : s' = s := h
    simp
  | some g => exact (typeOf_frames h).2

end Generate

end ProofScript
