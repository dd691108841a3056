import ProofScript.Proofs.Generation
import ProofScript.Proofs.Walk

/-!
# References to complete declarations

A constant is visible in the whole block that declares it, before its declaration as well. A program
is settled if every identifier refers to a declaration that is complete where the identifier stands.
A document is ordered if its steps refer to no step of a block around them that is not proved yet,
and its propositional arguments to no theorem that is not proved yet. The program of a document is
settled exactly if the document is ordered: generation rejects every other reference to a declaration
that is not complete.
-/

namespace ProofScript

/-- The declarations around a place, innermost first, and whether they are complete there. -/
abbrev Visible := List (String × Bool)

namespace Visible

/-- Is the innermost declaration of a name complete, if there is one? -/
def ready (v : Visible) (name : String) : Bool := (v.lookup name).getD true

/-- A block whose constants `done` are complete and whose constants `todo` are not. -/
def block (done todo : List String) (v : Visible) : Visible :=
  done.map (·, true) ++ todo.map (·, false) ++ v

/-- Parameters, which are complete. -/
def params (names : List String) (v : Visible) : Visible := names.reverse.map (·, true) ++ v

end Visible

/-! ## Programs -/

namespace Program

/-- Does every identifier refer to a complete declaration? -/
@[simps]
def Walk.settled : Walk Visible Bool where
  empty := true
  append := and
  ident := Visible.ready
  inside v _ params := v.params (params.map Prod.fst)
  within v done todo := v.block done todo

instance Walk.lawful_settled : Walk.settled.Lawful where
  empty_append := Bool.true_and
  append_empty := Bool.and_true
  append_assoc := Bool.and_assoc
  within_nil _ := rfl

theorem Walk.settled_cons (v : Visible) (done : List String) (s : Stmt) (rest : List Stmt) :
    Walk.settled.stmts v done (s :: rest) =
      (Walk.settled.stmt (v.block done (constants (s :: rest))) s &&
        Walk.settled.stmts v (s.constant?.toList ++ done) rest) := rfl

theorem Walk.settled_ret (v : Visible) (done : List String) (value : Expr) :
    Walk.settled.stmts v done [.ret value] = Walk.settled.expr (v.block done []) value :=
  stmts_ret v done value

end Program

/-! ## Documents -/

/-- Does the argument refer to nothing that is not proved yet? -/
def Argument.ordered (tops v : Visible) : Argument → Bool
  | .fact name _ => v.ready (escapeIdent name)
  | .prop f => Visible.ready (v ++ tops) f.factName

/-- The name that a statement declares where it is not the last. -/
def Statement.binding? : Statement → Option String
  | .step c _ _ => some c.binding
  | _ => none

/-- The names that steps declare. The last step declares one only where the function around has a
return type already. -/
def Steps.bindings (typed : Bool) : Steps → List String
  | .last (.step c _ _) => if typed && !c.formula.isHole then [c.binding] else []
  | .last _ => []
  | .conclude _ _ => []
  | .more s rest => s.binding?.toList ++ rest.bindings typed

mutual

/-- Does the proof refer to nothing that is not proved yet? -/
def Proof.ordered (systemF : Bool) (tops v : Visible) (typed : Bool) : Proof → Bool
  | .mk s _ => s.ordered systemF tops v typed []

/-- Do the steps behind those that declare `done` refer to nothing that is not proved yet? -/
def Steps.ordered (systemF : Bool) (tops v : Visible) (typed : Bool) (done : List String) :
    Steps → Bool
  | .last s => s.ordered systemF tops (v.block done ((Steps.last s).bindings typed))
  | .conclude j _ => j.ordered systemF tops (v.block done [])
  | .more s rest =>
    s.ordered systemF tops (v.block done ((Steps.more s rest).bindings typed)) &&
      rest.ordered systemF tops v typed (s.binding?.toList ++ done)

/-- Does the statement refer to nothing that is not proved yet? -/
def Statement.ordered (systemF : Bool) (tops v : Visible) : Statement → Bool
  | .missing => true
  | .step _ j _ => j.ordered systemF tops v
  | .block b => b.ordered systemF tops v

/-- Does the justification refer to nothing that is not proved yet? An instance of a quantified fact
refers to the fact alone. -/
def Justification.ordered (systemF : Bool) (tops v : Visible) : Justification → Bool
  | .missing => true
  | .apply rule args _ =>
    if systemF ∧ rule = Generate.instantiationRule then
      args.all fun
        | .fact name _ => v.ready (escapeIdent name)
        | .prop _ => true
    else v.ready (escapeIdent rule) && args.all (Argument.ordered tops v)
  | .block b => b.ordered systemF tops v

/-- Does the block refer to nothing that is not proved yet? -/
def Block.ordered (systemF : Bool) (tops v : Visible) : Block → Bool
  | .assume hyps p _ => p.ordered systemF tops (v.params (hyps.map Claim.binding)) false
  | .generalize _ p _ => p.ordered systemF tops v false

end

/-- Does the proof of the theorem refer to nothing that is not proved yet? -/
def Theorem.ordered (systemF : Bool) (tops : Visible) (t : Theorem) : Bool :=
  match Generate.sequent? t with
  | some (hyps, p) => p.ordered systemF tops (Visible.params (hyps.map Claim.binding) []) true
  | none => t.proof.ordered systemF tops [] true

/-- The name that a theorem declares. -/
def Theorem.binding? (t : Theorem) : Option String := t.claim.name.map escapeIdent

/-- Do the theorems behind those that declare `done` refer to nothing that is not proved yet? -/
def theoremsOrdered (systemF : Bool) (done : List String) : List Theorem → Bool
  | [] => true
  | t :: rest =>
    t.ordered systemF (Visible.block done ((t :: rest).filterMap Theorem.binding?) []) &&
      theoremsOrdered systemF (t.binding?.toList ++ done) rest

/-- Does every step refer to nothing that is not proved yet? -/
def Document.ordered (systemF : Bool) (d : Document) : Bool := theoremsOrdered systemF [] d.theorems

/-! ## Visibility -/

namespace Visible

variable {v w : Visible} {name : String}

/-- The names declared around a place. -/
def names (v : Visible) : List String := v.map Prod.fst

theorem ready_append_of_mem (h : name ∈ v.names) : Visible.ready (v ++ w) name = v.ready name := by
  induction v with
  | nil => simp [names] at h
  | cons d v ih =>
    obtain ⟨n, b⟩ := d
    by_cases hn : name = n
    · simp [ready, hn]
    · have hmem : name ∈ names v := by simpa [names, hn] using h
      have hne : (name == n) = false := by simpa using hn
      simpa [ready, List.lookup_cons, hne] using ih hmem

theorem ready_append_of_not_mem (h : name ∉ v.names) :
    Visible.ready (v ++ w) name = Visible.ready w name := by
  induction v with
  | nil => rfl
  | cons d v ih =>
    obtain ⟨n, b⟩ := d
    simp only [names, List.map_cons, List.mem_cons, not_or] at h
    have hne : (name == n) = false := by simpa using h.1
    simpa [ready, List.lookup_cons, hne] using ih h.2

theorem ready_of_not_mem (h : name ∉ v.names) : v.ready name = true := by
  rw [← List.append_nil v, ready_append_of_not_mem h]
  rfl

theorem block_append (done todo : List String) (v w : Visible) :
    block done todo (v ++ w) = block done todo v ++ w := by
  simp [block]

theorem params_append (ns : List String) (v w : Visible) : params ns (v ++ w) = params ns v ++ w := by
  simp [params]

theorem mem_names_block {done todo : List String} :
    name ∈ (block done todo v).names ↔ name ∈ done ∨ name ∈ todo ∨ name ∈ v.names := by
  simp [block, names, Function.comp_def]

theorem mem_names_params {ns : List String} :
    name ∈ (params ns v).names ↔ name ∈ ns ∨ name ∈ v.names := by
  simp [params, names, Function.comp_def]

theorem ready_append_congr {tops tops' : Visible} (h : ∀ name, tops.ready name = tops'.ready name)
    (v : Visible) (name : String) :
    Visible.ready (v ++ tops) name = Visible.ready (v ++ tops') name := by
  by_cases hv : name ∈ v.names
  · rw [ready_append_of_mem hv, ready_append_of_mem hv]
  · rw [ready_append_of_not_mem hv, ready_append_of_not_mem hv, h]

theorem ready_block_nil (done todo : List String) (name : String) :
    (block done todo []).ready name = decide (name ∈ done ∨ name ∉ todo) := by
  have hall : ∀ (b : Bool) (names : List String), name ∈ names →
      ready (names.map (·, b)) name = b := by
    intro b names hname
    induction names with
    | nil => simp at hname
    | cons n names ih =>
      by_cases hn : name = n
      · simp [ready, hn]
      · have hne : (name == n) = false := by simpa using hn
        simpa [ready, List.lookup_cons, hne] using ih (by simpa [hn] using hname)
  have hmem : ∀ (b : Bool) (names : List String), name ∈ Visible.names (names.map (·, b)) ↔
      name ∈ names := by
    intro b names
    simp [Visible.names, Function.comp_def]
  rw [block, List.append_nil]
  by_cases hdone : name ∈ done
  · rw [ready_append_of_mem ((hmem true done).mpr hdone), hall true done hdone]
    simp [hdone]
  rw [ready_append_of_not_mem (mt (hmem true done).mp hdone)]
  by_cases htodo : name ∈ todo
  · rw [hall false todo htodo]
    simp [hdone, htodo]
  · rw [ready_of_not_mem (mt (hmem false todo).mp htodo)]
    simp [htodo]

end Visible

/-! ## Tracking scopes -/

open Program

namespace Generate

variable {c : Context} {s s' : State} {tops v : Visible}

/-- The scopes hold only names declared around the place, and a theorem that is not complete is one
of the document and not declared yet. -/
structure Tracks (c : Context) (s : State) (tops v : Visible) : Prop where
  scopes : ∀ name, s.binds name = true → name ∈ v.names
  tops : ∀ name, tops.ready name = false →
    name ∈ c.theorems ∧ Scope.find? s.declared name = none

theorem Tracks.of_same (h : Tracks c s tops v) (hs : SameScopes s s') : Tracks c s' tops v where
  scopes name hname := by
    rw [State.binds, hs.1] at hname
    exact h.scopes name hname
  tops name hname := by
    rw [hs.2]
    exact h.tops name hname

theorem reference_settled {name : String} {loc : Location} {e : Expr} (h : Tracks c s tops v)
    (he : reference name loc c s = (.ok e, s')) :
    Walk.settled.expr (v ++ tops) e = v.ready (escapeIdent name) := by
  obtain ⟨hshape, hguard⟩ := reference_eq_ok he
  have hsettled : Walk.settled.expr (v ++ tops) e = Visible.ready (v ++ tops) (escapeIdent name) := by
    rcases hshape with rfl | rfl
    · rfl
    · simp [Walk.expr, Walk.exprs]
  rw [hsettled]
  by_cases hv : escapeIdent name ∈ v.names
  · exact Visible.ready_append_of_mem hv
  · rw [Visible.ready_append_of_not_mem hv, Visible.ready_of_not_mem hv]
    -- A theorem that is not complete would have been refused.
    cases htops : tops.ready (escapeIdent name) with
    | true => rfl
    | false =>
      obtain ⟨htheorem, hdeclared⟩ := h.tops _ htops
      rcases hguard with hbinds | hfound | hother
      · exact absurd (h.scopes _ hbinds) hv
      · simp [hdeclared] at hfound
      · exact absurd htheorem hother

theorem argument_settled {a : Argument} {e : Expr} (h : Tracks c s tops v)
    (he : argument a c s = (.ok e, s')) : Walk.settled.expr (v ++ tops) e = a.ordered tops v := by
  cases a with
  | fact name loc => exact reference_settled h he
  | prop f =>
    have hident : e = .ident f.factName (some f.loc) := by
      cases f with
      | hole => exact absurd he broken_ne_ok
      | _ =>
        obtain ⟨_, _, -, he⟩ := bind_eq_ok.mp he
        exact (pure_eq_ok.mp he).1.symm
    rw [hident]
    rfl

theorem applyAll_settled {fn e : Expr} {args : List Argument} (h : Tracks c s tops v)
    (he : applyAll fn args c s = (.ok e, s')) :
    Walk.settled.expr (v ++ tops) e =
      (Walk.settled.expr (v ++ tops) fn && args.all (Argument.ordered tops v)) := by
  induction args generalizing fn s with
  | nil =>
    obtain ⟨rfl, -⟩ := pure_eq_ok.mp he
    simp
  | cons a rest ih =>
    obtain ⟨x, mid, hx, he⟩ := bind_eq_ok.mp he
    have hmid := h.of_same (sameScopes_motion.argument a _ _ _ _ hx)
    rw [ih hmid he, List.all_cons, ← argument_settled h hx]
    simp [Walk.expr, Walk.exprs, Bool.and_assoc]

theorem application_settled {rule : String} {args : List Argument} {loc : Location} {e : Expr}
    (h : Tracks c s tops v) (he : application rule args loc c s = (.ok e, s')) :
    Walk.settled.expr (v ++ tops) e = (Justification.apply rule args loc).ordered c.systemF tops v := by
  obtain ⟨_, _, hread, he⟩ := bind_eq_ok.mp he
  obtain ⟨rfl, rfl⟩ := read_eq_ok.mp hread
  rw [Justification.ordered]
  split at he
  · rename_i hrule
    rw [if_pos hrule]
    obtain ⟨f, name, at_, fn, mid, t, rfl, hfn, -, rfl⟩ := instantiate_eq_ok he
    simp [Walk.expr, Walk.exprs, reference_settled h hfn]
  · rename_i hrule
    rw [if_neg hrule]
    obtain ⟨fn, mid, hfn, he⟩ := bind_eq_ok.mp he
    have hmid := h.of_same (sameScopes_motion.reference _ _ _ _ _ _ hfn)
    rw [applyAll_settled hmid he, reference_settled h hfn]

/-- A step binds at most these names, in the innermost scope. -/
structure Extends (names : List String) (s s' : State) : Prop where
  declared : s'.declared = s.declared
  tail : s'.scopes.tail = s.scopes.tail
  nonempty : s.scopes ≠ [] → s'.scopes ≠ []
  binds : ∀ name, s'.binds name = true → s.binds name = true ∨ name ∈ names

theorem SameScopes.extends (h : SameScopes s s') : Extends [] s s' where
  declared := h.2
  tail := by rw [h.1]
  nonempty := by
    rw [h.1]
    exact id
  binds name hname := by
    rw [State.binds, h.1] at hname
    exact .inl hname

theorem Extends.trans {mid : State} {names names' : List String} (h : Extends names s mid)
    (h' : Extends names' mid s') : Extends (names ++ names') s s' where
  declared := h'.declared.trans h.declared
  tail := h'.tail.trans h.tail
  nonempty hs := h'.nonempty (h.nonempty hs)
  binds name hname := by
    rcases h'.binds name hname with hname | hname
    · rcases h.binds name hname with hname | hname
      · exact .inl hname
      · exact .inr (List.mem_append_left _ hname)
    · exact .inr (List.mem_append_right _ hname)

theorem Tracks.mono {w : Visible} (h : Tracks c s tops v) (hvw : ∀ name ∈ v.names, name ∈ w.names) :
    Tracks c s tops w :=
  ⟨fun name hname => hvw name (h.scopes name hname), h.tops⟩

theorem Tracks.extend {w : Visible} {names : List String} (h : Tracks c s tops v)
    (hs : Extends names s s') (hvw : ∀ name ∈ v.names, name ∈ w.names)
    (hnames : ∀ name ∈ names, name ∈ w.names) : Tracks c s' tops w where
  scopes name hname := by
    rcases hs.binds name hname with hname | hname
    · exact hvw name (h.scopes name hname)
    · exact hnames name hname
  tops name hname := by
    rw [hs.declared]
    exact h.tops name hname

theorem declare_extends {name : String} {loc : Location} {u : Unit} (hs : s.scopes ≠ [])
    (h : declare name loc c s = (.ok u, s')) : Extends [name] s s' := by
  obtain ⟨top, rest, htop⟩ : ∃ top rest, s.scopes = top :: rest := List.exists_cons_of_ne_nil hs
  obtain rfl := declare_eq_ok htop h
  refine ⟨rfl, by simp [htop], by simp, ?_⟩
  intro n hn
  simp only [State.binds, htop, List.any_cons, Bool.or_eq_true] at hn ⊢
  rcases hn with hn | hn
  · rcases find?_append_singleton hn with hn | hn
    · exact .inl (.inl hn)
    · exact .inr hn
  · exact .inl (.inr hn)

theorem hypotheses_extends {hyps : List Claim} {hs : List Hypothesis} (hscopes : s.scopes ≠ [])
    (h : hypotheses hyps c s = (.ok hs, s')) :
    hs.map (·.1.1) = hyps.map Claim.binding ∧ Extends (hyps.map Claim.binding) s s' := by
  induction hyps generalizing s hs with
  | nil =>
    obtain ⟨rfl, rfl⟩ := pure_eq_ok.mp h
    exact ⟨rfl, (sameScopes_motion.refl s).extends⟩
  | cons hyp rest ih =>
    simp only [hypotheses, bind_eq_ok] at h
    obtain ⟨_, s₁, henter, t, s₂, htype, _, s₃, hdeclare, more, s₄, hmore, h⟩ := h
    obtain ⟨rfl, rfl⟩ := pure_eq_ok.mp h
    have hopen := sameScopes_motion.trans (sameScopes_motion.onFrames _ _ _ _ _ henter)
      (sameScopes_motion.typeOf _ _ _ _ _ htype)
    have hdeclared := hopen.extends.trans
      (declare_extends (hopen.extends.nonempty hscopes) hdeclare)
    obtain ⟨hnames, hextends⟩ := ih (hdeclared.nonempty hscopes) hmore
    exact ⟨by simp [hnames, Claim.binding], hdeclared.trans hextends⟩

theorem closeHypotheses_settled {ret : Option TypeExpr} {body : Body} {hs : List Hypothesis}
    {e : Expr} (h : closeHypotheses ret body hs c s = (.ok e, s')) (v : Visible) :
    Walk.settled.expr v e = Walk.settled.body (v.params (hs.map (·.1.1))) body := by
  induction hs generalizing e s' v with
  | nil => exact absurd h broken_ne_ok
  | cons hyp rest ih =>
    obtain ⟨⟨name, t⟩, loc⟩ := hyp
    cases rest with
    | nil =>
      obtain ⟨_, _, -, h⟩ := bind_eq_ok.mp h
      obtain ⟨rfl, -⟩ := pure_eq_ok.mp h
      rfl
    | cons next rest =>
      obtain ⟨inner, _, hinner, h⟩ := bind_eq_ok.mp h
      obtain ⟨_, _, -, h⟩ := bind_eq_ok.mp h
      obtain ⟨rfl, -⟩ := pure_eq_ok.mp h
      rw [Walk.expr, Walk.body, ih hinner]
      simp [Visible.params]

theorem closeVariables_settled {ret : Option TypeExpr} {body : Body} {loc : Location}
    {vars : List String} {e : Expr} (h : closeVariables ret body loc vars c s = (.ok e, s'))
    (v : Visible) : Walk.settled.expr v e = Walk.settled.body v body := by
  induction vars generalizing e s' with
  | nil => exact absurd h broken_ne_ok
  | cons var rest ih =>
    cases rest with
    | nil =>
      obtain ⟨rfl, -⟩ := pure_eq_ok.mp h
      rfl
    | cons next rest =>
      obtain ⟨inner, _, hinner, h⟩ := bind_eq_ok.mp h
      obtain ⟨rfl, -⟩ := pure_eq_ok.mp h
      rw [Walk.expr, Walk.body]
      exact ih hinner

/-- The scopes of the functions around stay what they are. -/
def SameOuter (s s' : State) : Prop :=
  s'.declared = s.declared ∧ s'.scopes.tail = s.scopes.tail

theorem Extends.sameOuter {names : List String} (h : Extends names s s') : SameOuter s s' :=
  ⟨h.declared, h.tail⟩

theorem SameOuter.trans {mid : State} (h : SameOuter s mid) (h' : SameOuter mid s') :
    SameOuter s s' :=
  ⟨h'.1.trans h.1, h'.2.trans h.2⟩

theorem constants_returning (stmts : List Stmt) (value : Expr) :
    constants (stmts ++ [.ret value]) = constants stmts := by
  rw [constants, List.filterMap_append]
  exact List.append_nil _

/-- What a function does in a scope of its own is gone when the scope is closed. -/
theorem sameScopes_of_scope {s₁ : State} (hpush : s₁ = { s with scopes := [] :: s.scopes })
    {s₂ s₃ : State} (h : SameOuter s₁ s₂) (hpop : s₃ = { s₂ with scopes := s₂.scopes.tail }) :
    SameScopes s s₃ := by
  subst hpush hpop
  exact ⟨h.2, h.1⟩

theorem Tracks.push (h : Tracks c s tops v) :
    Tracks c { s with scopes := [] :: s.scopes } tops v :=
  ⟨fun name hname => h.scopes name (by simpa [State.binds, Scope.find?] using hname), h.tops⟩

theorem Tracks.todo {done : List String} (h : Tracks c s tops (v.block done []))
    (todo : List String) : Tracks c s tops (v.block done todo) := by
  refine h.mono ?_
  intro name hname
  rw [Visible.mem_names_block] at hname ⊢
  rcases hname with hname | hname | hname
  · exact .inl hname
  · simp at hname
  · exact .inr (.inr hname)

/-- The names that a step binds are complete behind it. -/
theorem Tracks.complete {done names : List String} (h : Tracks c s tops (v.block done []))
    (hs : Extends names s s') : Tracks c s' tops (v.block (names ++ done) []) := by
  refine h.extend hs ?_ ?_
  · intro name hname
    rw [Visible.mem_names_block] at hname ⊢
    rcases hname with hname | hname
    · exact .inl (List.mem_append_right _ hname)
    · exact .inr hname
  · intro name hname
    exact Visible.mem_names_block.mpr (.inl (List.mem_append_left _ hname))

mutual

theorem proof_settled {c : Context} {s s' : State} {tops v : Visible} {typed : Bool} {body : Body}
    {ret : Option TypeExpr} (ht : Tracks c s tops v) (hs : s.scopes ≠ []) :
    (p : Proof) → proof typed p c s = (.ok (body, ret), s') →
      Walk.settled.body (v ++ tops) body = p.ordered c.systemF tops v typed ∧ SameOuter s s'
  | .mk st loc, h => by
    simp only [proof, bind_eq_ok] at h
    obtain ⟨_, mid, hrecord, ⟨stmts, value, ret'⟩, s₂, hsteps, h⟩ := h
    obtain ⟨heq, rfl⟩ := pure_eq_ok.mp h
    obtain ⟨rfl, rfl⟩ := Prod.mk.inj heq
    have hmid := (sameScopes_motion.recordSteps st _ _ _ _ hrecord).extends
    have ht' : Tracks c mid tops (v.block [] []) :=
      ht.extend hmid (fun name hname => Visible.mem_names_block.mpr (.inr (.inr hname))) (by simp)
    obtain ⟨-, hsettled, houter⟩ := steps_settled ht' (hmid.nonempty hs) st hsteps
    rw [Walk.body_bodyOf, Proof.ordered]
    exact ⟨hsettled, hmid.sameOuter.trans houter⟩

theorem steps_settled {c : Context} {s s' : State} {tops v : Visible} {typed : Bool}
    {done : List String} {stmts : List Stmt} {value : Expr} {ret : Option TypeExpr}
    (ht : Tracks c s tops (v.block done [])) (hs : s.scopes ≠ []) :
    (st : Steps) → steps typed st c s = (.ok (stmts, value, ret), s') →
      constants stmts = st.bindings typed ∧
      Walk.settled.stmts (v ++ tops) done (stmts ++ [.ret value]) =
        st.ordered c.systemF tops v typed done ∧ SameOuter s s'
  | .last st, h => by
    rw [Steps.ordered]
    exact final_settled ht hs st h
  | .conclude j loc, h => by
    simp only [steps, bind_eq_ok] at h
    obtain ⟨value', mid, hj, h⟩ := h
    obtain ⟨heq, rfl⟩ := pure_eq_ok.mp h
    obtain ⟨rfl, rfl, rfl⟩ : _ ∧ _ ∧ _ := by simpa using heq
    obtain ⟨hsettled, hsame⟩ := justification_settled ht j hj
    refine ⟨rfl, ?_, hsame.extends.sameOuter⟩
    rw [List.nil_append, Walk.settled_ret, Visible.block_append, Steps.ordered, hsettled]
  | .more st rest, h => by
    simp only [steps, bind_eq_ok] at h
    obtain ⟨stmt, mid, hst, ⟨stmts', value', ret'⟩, s₂, hrest, h⟩ := h
    obtain ⟨heq, rfl⟩ := pure_eq_ok.mp h
    obtain ⟨rfl, rfl, rfl⟩ : _ ∧ _ ∧ _ := by simpa using heq
    obtain ⟨hconstant, hsettled, hextends⟩ :=
      statement_settled (ht.todo ((Steps.more st rest).bindings typed)) hs st hst
    obtain ⟨hconstants, hsettled', houter⟩ :=
      steps_settled (ht.complete hextends) (hextends.nonempty hs) rest hrest
    have hall : constants (stmt :: (stmts' ++ [.ret value'])) =
        (Steps.more st rest).bindings typed := by
      rw [← List.cons_append, constants_returning, Steps.bindings, ← hconstants, ← hconstant]
      cases hc : stmt.constant? <;> simp [constants, hc]
    refine ⟨by rw [← hall, ← List.cons_append, constants_returning], ?_,
      hextends.sameOuter.trans houter⟩
    rw [List.cons_append, Walk.settled_cons, hall, Visible.block_append, hsettled, hconstant, hsettled',
      Steps.ordered]

theorem final_settled {c : Context} {s s' : State} {tops v : Visible} {typed : Bool}
    {done : List String} {stmts : List Stmt} {value : Expr} {ret : Option TypeExpr}
    (ht : Tracks c s tops (v.block done [])) (hs : s.scopes ≠ []) :
    (st : Statement) → final typed st c s = (.ok (stmts, value, ret), s') →
      constants stmts = (Steps.last st).bindings typed ∧
      Walk.settled.stmts (v ++ tops) done (stmts ++ [.ret value]) =
        st.ordered c.systemF tops (v.block done ((Steps.last st).bindings typed)) ∧ SameOuter s s'
  | .missing, h => absurd h broken_ne_ok
  | .block b, h => by
    simp only [final, bind_eq_ok] at h
    obtain ⟨value', mid, hb, h⟩ := h
    obtain ⟨heq, rfl⟩ := pure_eq_ok.mp h
    obtain ⟨rfl, rfl, rfl⟩ : _ ∧ _ ∧ _ := by simpa using heq
    obtain ⟨hsettled, hsame⟩ := block_settled ht b hb
    refine ⟨rfl, ?_, hsame.extends.sameOuter⟩
    rw [List.nil_append, Walk.settled_ret, Visible.block_append, Statement.ordered, hsettled]
    rfl
  | .step claim j loc, h => by
    cases hhole : claim.formula.isHole with
    | true =>
      simp only [final, hhole, if_true, bind_eq_ok] at h
      obtain ⟨value', mid, hj, h⟩ := h
      obtain ⟨heq, rfl⟩ := pure_eq_ok.mp h
      obtain ⟨rfl, rfl, rfl⟩ : _ ∧ _ ∧ _ := by simpa using heq
      obtain ⟨hsettled, hsame⟩ := justification_settled ht j hj
      refine ⟨by simp [Steps.bindings, hhole, constants], ?_, hsame.extends.sameOuter⟩
      rw [List.nil_append, Walk.settled_ret, Visible.block_append, Statement.ordered, hsettled]
      simp [Steps.bindings, hhole]
    | false =>
      cases typed with
      | true =>
        simp only [final, hhole, Bool.false_eq_true, if_false, if_true, bind_eq_ok] at h
        obtain ⟨⟨name, t⟩, s₁, hhead, value', s₂, hj, _, s₃, hdeclare, h⟩ := h
        obtain ⟨heq, rfl⟩ := pure_eq_ok.mp h
        obtain ⟨rfl, rfl, rfl⟩ : _ ∧ _ ∧ _ := by simpa using heq
        obtain ⟨rfl, -⟩ := stepHead_eq_ok hhead
        have hbindings : (Steps.last (.step claim j loc)).bindings true = [claim.binding] := by
          simp [Steps.bindings, hhole]
        have hsame := sameScopes_motion.stepHead claim _ _ _ _ hhead
        obtain ⟨hsettled, hsame'⟩ :=
          justification_settled ((ht.todo [claim.binding]).of_same hsame) j hj
        have hboth := (sameScopes_motion.trans hsame hsame').extends
        refine ⟨hbindings.symm, ?_,
          (hboth.trans (declare_extends (hboth.nonempty hs) hdeclare)).sameOuter⟩
        rw [hbindings, Statement.ordered, ← hsettled, ← Visible.block_append]
        -- The value of the block is the constant declared just before.
        have hready : Visible.ready ((v ++ tops).block (claim.binding :: done) []) claim.binding =
            true := by simp [Visible.ready, Visible.block]
        have hconst : ∀ o, constants [Stmt.const claim.binding t value' false false none o,
            .ret (.ident claim.binding o)] = [claim.binding] := fun _ => rfl
        rw [List.cons_append, List.nil_append, Walk.settled_cons, hconst, Walk.settled_ret, Walk.expr,
          Walk.stmt]
        exact (congrArg _ hready).trans (Bool.and_true _)
      | false =>
        simp only [final, hhole, Bool.false_eq_true, if_false, bind_eq_ok] at h
        obtain ⟨t, s₁, htype, value', s₂, hj, h⟩ := h
        obtain ⟨heq, rfl⟩ := pure_eq_ok.mp h
        obtain ⟨rfl, rfl, rfl⟩ : _ ∧ _ ∧ _ := by simpa using heq
        have hsame := sameScopes_motion.typeOf claim.formula _ _ _ _ htype
        obtain ⟨hsettled, hsame'⟩ := justification_settled (ht.of_same hsame) j hj
        refine ⟨rfl, ?_, (sameScopes_motion.trans hsame hsame').extends.sameOuter⟩
        rw [List.nil_append, Walk.settled_ret, Visible.block_append, Statement.ordered, hsettled]
        rfl

theorem statement_settled {c : Context} {s s' : State} {tops v : Visible} {stmt : Stmt}
    (ht : Tracks c s tops v) (hs : s.scopes ≠ []) :
    (st : Statement) → statement st c s = (.ok stmt, s') →
      stmt.constant? = st.binding? ∧ Walk.settled.stmt (v ++ tops) stmt = st.ordered c.systemF tops v ∧
        Extends st.binding?.toList s s'
  | .missing, h => absurd h broken_ne_ok
  | .block b, h => by
    simp only [statement, bind_eq_ok] at h
    obtain ⟨value, mid, hb, h⟩ := h
    obtain ⟨rfl, rfl⟩ := pure_eq_ok.mp h
    obtain ⟨hsettled, hsame⟩ := block_settled ht b hb
    exact ⟨rfl, by simpa [Walk.stmt, Walk.expr, Statement.ordered] using hsettled,
      hsame.extends⟩
  | .step claim j loc, h => by
    simp only [statement, bind_eq_ok] at h
    obtain ⟨⟨name, t⟩, s₁, hhead, value, s₂, hj, _, s₃, hdeclare, h⟩ := h
    obtain ⟨rfl, rfl⟩ := pure_eq_ok.mp h
    obtain ⟨rfl, -⟩ := stepHead_eq_ok hhead
    have hsame := sameScopes_motion.stepHead claim _ _ _ _ hhead
    obtain ⟨hsettled, hsame'⟩ := justification_settled (ht.of_same hsame) j hj
    have hboth := (sameScopes_motion.trans hsame hsame').extends
    refine ⟨rfl, by simpa [Walk.stmt, Statement.ordered] using hsettled, ?_⟩
    exact hboth.trans (declare_extends (hboth.nonempty hs) hdeclare)

theorem justification_settled {c : Context} {s s' : State} {tops v : Visible} {e : Expr}
    (ht : Tracks c s tops v) :
    (j : Justification) → justification j c s = (.ok e, s') →
      Walk.settled.expr (v ++ tops) e = j.ordered c.systemF tops v ∧ SameScopes s s'
  | .missing, h => absurd h broken_ne_ok
  | .apply rule args loc, h =>
    ⟨application_settled ht h, sameScopes_motion.application rule args loc _ _ _ _ h⟩
  | .block b, h => by
    rw [Justification.ordered]
    exact block_settled ht b h

theorem block_settled {c : Context} {s s' : State} {tops v : Visible} {e : Expr}
    (ht : Tracks c s tops v) :
    (b : Block) → block b c s = (.ok e, s') →
      Walk.settled.expr (v ++ tops) e = b.ordered c.systemF tops v ∧ SameScopes s s'
  | .assume hyps p loc, h => by
    simp only [block, bind_eq_ok] at h
    obtain ⟨_, s₁, hpush, hs, s₂, hhyps, ⟨body, ret⟩, s₃, hp, value, s₄, hclose, _, s₅, hpop, h⟩ := h
    obtain ⟨rfl, rfl⟩ := pure_eq_ok.mp h
    obtain rfl := modify_eq_ok.mp hpush
    obtain ⟨hnames, hextends⟩ := hypotheses_extends (by simp) hhyps
    have ht₂ : Tracks c s₂ tops (v.params (hyps.map Claim.binding)) := by
      refine ht.push.extend hextends ?_ ?_
      · intro name hname
        exact Visible.mem_names_params.mpr (.inr hname)
      · intro name hname
        exact Visible.mem_names_params.mpr (.inl hname)
    obtain ⟨hsettled, houter⟩ := proof_settled ht₂ (hextends.nonempty (by simp)) p hp
    have houter' := (sameScopes_motion.closeHypotheses ret body hs _ _ _ _ hclose).extends.sameOuter
    refine ⟨?_, sameScopes_of_scope rfl ((hextends.sameOuter.trans houter).trans houter')
      (modify_eq_ok.mp hpop).symm⟩
    rw [closeHypotheses_settled hclose, hnames, Visible.params_append, Block.ordered, hsettled]
  | .generalize vars p loc, h => by
    simp only [block, bind_eq_ok] at h
    obtain ⟨_, s₁, hpush, _, s₂, hbind, ⟨body, ret⟩, s₃, hp, _, s₄, hunbind, value, s₅, hclose, _, s₆,
      hpop, h⟩ := h
    obtain ⟨rfl, rfl⟩ := pure_eq_ok.mp h
    obtain rfl := modify_eq_ok.mp hpush
    have hbound := sameScopes_motion.onFrames _ _ _ _ _ hbind
    obtain ⟨hsettled, houter⟩ := proof_settled (ht.push.of_same hbound)
      (hbound.extends.nonempty (by simp)) p hp
    have hunbound := sameScopes_motion.trans (sameScopes_motion.onFrames _ _ _ _ _ hunbind)
      (sameScopes_motion.closeVariables ret body loc vars _ _ _ _ hclose)
    refine ⟨?_, sameScopes_of_scope rfl
      ((hbound.extends.sameOuter.trans houter).trans hunbound.extends.sameOuter)
      (modify_eq_ok.mp hpop).symm⟩
    rw [closeVariables_settled hclose, Block.ordered, hsettled]

end

/-! ## Theorems -/

theorem theoremArrow_settled {c : Context} {s s' : State} {tops : Visible} {t : Theorem} {e : Expr}
    {isThunk : Bool} (ht : Tracks c s tops []) (hs : s.scopes ≠ [])
    (h : theoremArrow t c s = (.ok (e, isThunk), s')) :
    Walk.settled.expr tops e = t.ordered c.systemF tops ∧ SameOuter s s' := by
  rw [Theorem.ordered]
  unfold theoremArrow at h
  cases hsequent : sequent? t with
  | some hp =>
    obtain ⟨hyps, p⟩ := hp
    simp only [hsequent, bind_eq_ok] at h
    obtain ⟨hs', s₁, hhyps, claim, s₂, hclaim, ⟨body, ret⟩, s₃, hp, arrow, s₄, hclose, h⟩ := h
    obtain ⟨heq, rfl⟩ := pure_eq_ok.mp h
    obtain ⟨rfl, -⟩ := Prod.mk.inj heq
    obtain ⟨hnames, hextends⟩ := hypotheses_extends hs hhyps
    have htyped := hextends.trans (sameScopes_motion.typeOf _ _ _ _ _ hclaim).extends
    have ht₂ : Tracks c s₂ tops (Visible.params (hyps.map Claim.binding) []) := by
      refine ht.extend htyped (by simp [Visible.names]) ?_
      intro name hname
      exact Visible.mem_names_params.mpr (.inl (by simpa using hname))
    obtain ⟨hsettled, houter⟩ := proof_settled ht₂ (htyped.nonempty hs) p hp
    have hclosed := sameScopes_motion.closeHypotheses (some claim) body hs' _ _ _ _ hclose
    refine ⟨?_, (htyped.sameOuter.trans houter).trans hclosed.extends.sameOuter⟩
    rw [closeHypotheses_settled hclose, hnames]
    rw [← Visible.params_append, List.nil_append] at hsettled
    exact hsettled
  | none =>
    simp only [hsequent, bind_eq_ok] at h
    obtain ⟨_, s₁, henter, claim, s₂, hclaim, ⟨body, ret⟩, s₃, hp, tparams, s₄, hexit, h⟩ := h
    obtain ⟨heq, rfl⟩ := pure_eq_ok.mp h
    obtain ⟨rfl, -⟩ := Prod.mk.inj heq
    have htyped := sameScopes_motion.trans (sameScopes_motion.onFrames _ _ _ _ _ henter)
      (sameScopes_motion.typeOf _ _ _ _ _ hclaim)
    obtain ⟨hsettled, houter⟩ :=
      proof_settled (ht.of_same htyped) (htyped.extends.nonempty hs) t.proof hp
    have hexited := sameScopes_motion.exit _ _ _ _ hexit
    refine ⟨?_, (htyped.extends.sameOuter.trans houter).trans hexited.extends.sameOuter⟩
    rw [Walk.expr]
    exact hsettled

/-- A theorem declares its name, which no rule of the library has, and opens no scope. -/
theorem theoremDecl_settled {c : Context} {s s' : State} {tops : Visible} {t : Theorem} {decl : Stmt}
    (ht : Tracks c s tops []) (hs : s.scopes = []) (h : theoremDecl t c s = (.ok decl, s')) :
    decl.constant? = t.binding? ∧ Walk.settled.stmt tops decl = t.ordered c.systemF tops ∧
      s'.scopes = [] ∧ (∀ name, (Scope.find? s'.declared name).isSome = true →
        (Scope.find? s.declared name).isSome = true ∨ name ∈ t.binding?.toList) ∧
      ∀ name ∈ t.binding?, Library.findRule? name = none := by
  have hbinding : t.binding? = t.claim.name.map escapeIdent := rfl
  simp only [theoremDecl, ← hbinding] at h
  cases hname : t.binding? with
  | none =>
    simp only [hname, bind_eq_ok] at h
    obtain ⟨_, s₂, hpush, ⟨arrow, isThunk⟩, s₃, harrow, _, s₄, hpop, h⟩ := h
    obtain ⟨rfl, rfl⟩ := pure_eq_ok.mp h
    obtain rfl := modify_eq_ok.mp hpush
    obtain rfl := modify_eq_ok.mp hpop
    obtain ⟨hsettled, hdeclared, hscopes⟩ := theoremArrow_settled ht.push (by simp) harrow
    refine ⟨rfl, ?_, by simpa [hs] using hscopes, ?_, by simp⟩
    · rw [Walk.stmt, Walk.expr, hsettled]
    · intro name hfind
      rw [hdeclared] at hfind
      exact .inl hfind
  | some name =>
    simp only [hname, bind_eq_ok] at h
    obtain ⟨_, s₁, hcheck, _, s₂, hpush, ⟨arrow, isThunk⟩, s₃, harrow, _, s₄, hpop, _, s₅, hdeclare,
      h⟩ := h
    obtain ⟨hrule, rfl⟩ := checkTheoremName_eq_ok hcheck
    obtain rfl := modify_eq_ok.mp hpush
    obtain rfl := modify_eq_ok.mp hpop
    obtain ⟨hsettled, hdeclared, hscopes⟩ := theoremArrow_settled ht.push (by simp) harrow
    have hempty : s₃.scopes.tail = [] := by simpa [hs] using hscopes
    obtain rfl := declare_eq_ok_of_nil hempty hdeclare
    have hfinal : decl = .const name none arrow false false none (some t.loc) ∧
        s'.scopes = [] ∧ s'.declared = s.declared ++ [(name, t.claim.loc)] := by
      split at h
      · obtain ⟨_, _, hthunk, h⟩ := bind_eq_ok.mp h
        obtain rfl := modify_eq_ok.mp hthunk
        obtain ⟨rfl, rfl⟩ := pure_eq_ok.mp h
        exact ⟨rfl, hempty, congrArg (· ++ _) hdeclared⟩
      · obtain ⟨rfl, rfl⟩ := pure_eq_ok.mp h
        exact ⟨rfl, hempty, congrArg (· ++ _) hdeclared⟩
    obtain ⟨rfl, hscopes', hdeclared'⟩ := hfinal
    refine ⟨rfl, hsettled, hscopes', ?_, by simpa using hrule⟩
    intro n hfind
    rw [hdeclared'] at hfind
    exact find?_append_singleton hfind

/-- The theorems behind those that declare `done` are settled exactly if they are ordered. -/
theorem theoremDecls_settled {c : Context} {s s' : State} {done : List String} {ts : List Theorem}
    {decls : List Stmt} (hs : s.scopes = [])
    (hdone : ∀ name, (Scope.find? s.declared name).isSome = true → name ∈ done)
    (hts : ∀ name ∈ ts.filterMap Theorem.binding?, name ∈ c.theorems)
    (h : theoremDecls ts c s = (.ok decls, s')) :
    constants decls = ts.filterMap Theorem.binding? ∧
      Walk.settled.stmts [] done decls = theoremsOrdered c.systemF done ts ∧
      ∀ name ∈ ts.filterMap Theorem.binding?, Library.findRule? name = none := by
  induction ts generalizing s done decls with
  | nil =>
    obtain ⟨rfl, -⟩ := pure_eq_ok.mp h
    exact ⟨rfl, rfl, by simp⟩
  | cons t rest ih =>
    simp only [theoremDecls, bind_eq_ok] at h
    obtain ⟨decl, s₁, hdecl, _, _, hget, h⟩ := h
    obtain ⟨rfl, rfl⟩ := get_eq_ok.mp hget
    split at h
    · exact absurd h broken_ne_ok
    obtain ⟨more, s₂, hmore, h⟩ := bind_eq_ok.mp h
    obtain ⟨rfl, rfl⟩ := pure_eq_ok.mp h
    have hnames : (t :: rest).filterMap Theorem.binding? =
        t.binding?.toList ++ rest.filterMap Theorem.binding? := by
      cases hb : t.binding? <;> simp [hb]
    have ht : Tracks c s (Visible.block done ((t :: rest).filterMap Theorem.binding?) []) [] := by
      refine ⟨by simp [State.binds, hs], ?_⟩
      intro name hname
      obtain ⟨hdone', htodo⟩ : name ∉ done ∧ name ∈ (t :: rest).filterMap Theorem.binding? := by
        rwa [Visible.ready_block_nil, decide_eq_false_iff_not, not_or, Decidable.not_not] at hname
      refine ⟨hts name htodo, ?_⟩
      rw [← Option.not_isSome_iff_eq_none]
      exact fun hfind => hdone' (hdone name hfind)
    obtain ⟨hconstant, hsettled, hs₁, hdeclared, hrule⟩ := theoremDecl_settled ht hs hdecl
    have hdone₁ : ∀ name, (Scope.find? s₁.declared name).isSome = true →
        name ∈ t.binding?.toList ++ done := by
      intro name hname
      rcases hdeclared name hname with hname | hname
      · exact List.mem_append_right _ (hdone name hname)
      · exact List.mem_append_left _ hname
    have hrest : ∀ name ∈ rest.filterMap Theorem.binding?, name ∈ c.theorems := by
      intro name hname
      exact hts name (hnames ▸ List.mem_append_right _ hname)
    obtain ⟨hconstants, hsettled', hrules⟩ := ih hs₁ hdone₁ hrest hmore
    have hall : constants (decl :: more) = (t :: rest).filterMap Theorem.binding? := by
      rw [hnames, ← hconstants, ← hconstant]
      cases hc : decl.constant? <;> simp [constants, hc]
    refine ⟨hall, ?_, ?_⟩
    · rw [Walk.settled_cons, theoremsOrdered, hall, hsettled, hconstant, hsettled']
    · intro name hname
      rw [hnames, List.mem_append, Option.mem_toList] at hname
      rcases hname with hname | hname
      · exact hrule name hname
      · exact hrules name hname

end Generate

/-! ## Rules of the library -/

theorem Argument.ordered_congr {tops tops' : Visible}
    (h : ∀ name, tops.ready name = tops'.ready name) (v : Visible) :
    Argument.ordered tops v = Argument.ordered tops' v := by
  funext a
  cases a with
  | fact => rfl
  | prop f => exact Visible.ready_append_congr h v f.factName

mutual

theorem Proof.ordered_congr {systemF : Bool} {tops tops' : Visible}
    (h : ∀ name, tops.ready name = tops'.ready name) (v : Visible) (typed : Bool) :
    (p : Proof) → p.ordered systemF tops v typed = p.ordered systemF tops' v typed
  | .mk s _ => Steps.ordered_congr h v typed [] s

theorem Steps.ordered_congr {systemF : Bool} {tops tops' : Visible}
    (h : ∀ name, tops.ready name = tops'.ready name) (v : Visible) (typed : Bool)
    (done : List String) :
    (st : Steps) → st.ordered systemF tops v typed done = st.ordered systemF tops' v typed done
  | .last s => Statement.ordered_congr h _ s
  | .conclude j _ => Justification.ordered_congr h _ j
  | .more s rest => by
    rw [Steps.ordered, Steps.ordered, Statement.ordered_congr h _ s, Steps.ordered_congr h v typed _ rest]

theorem Statement.ordered_congr {systemF : Bool} {tops tops' : Visible}
    (h : ∀ name, tops.ready name = tops'.ready name) (v : Visible) :
    (s : Statement) → s.ordered systemF tops v = s.ordered systemF tops' v
  | .missing => rfl
  | .step _ j _ => Justification.ordered_congr h v j
  | .block b => Block.ordered_congr h v b

theorem Justification.ordered_congr {systemF : Bool} {tops tops' : Visible}
    (h : ∀ name, tops.ready name = tops'.ready name) (v : Visible) :
    (j : Justification) → j.ordered systemF tops v = j.ordered systemF tops' v
  | .missing => rfl
  | .apply rule args _ => by
    rw [Justification.ordered, Justification.ordered, Argument.ordered_congr h]
  | .block b => Block.ordered_congr h v b

theorem Block.ordered_congr {systemF : Bool} {tops tops' : Visible}
    (h : ∀ name, tops.ready name = tops'.ready name) (v : Visible) :
    (b : Block) → b.ordered systemF tops v = b.ordered systemF tops' v
  | .assume _ p _ => Proof.ordered_congr h _ false p
  | .generalize _ p _ => Proof.ordered_congr h v false p

end

theorem Theorem.ordered_congr {systemF : Bool} {tops tops' : Visible}
    (h : ∀ name, tops.ready name = tops'.ready name) (t : Theorem) :
    t.ordered systemF tops = t.ordered systemF tops' := by
  unfold Theorem.ordered
  split
  · exact Proof.ordered_congr h _ true _
  · exact Proof.ordered_congr h [] true t.proof

/-- Names that no theorem has may count as complete. -/
theorem theoremsOrdered_append {systemF : Bool} {rules : List String} {ts : List Theorem}
    (h : ∀ name ∈ ts.filterMap Theorem.binding?, name ∉ rules) (done : List String) :
    theoremsOrdered systemF (done ++ rules) ts = theoremsOrdered systemF done ts := by
  induction ts generalizing done with
  | nil => rfl
  | cons t rest ih =>
    have hrest : ∀ name ∈ rest.filterMap Theorem.binding?, name ∉ rules := by
      intro name hname
      refine h name ?_
      rw [List.filterMap_cons]
      split
      · exact hname
      · exact List.mem_cons_of_mem _ hname
    rw [theoremsOrdered, theoremsOrdered, ← List.append_assoc, ih hrest]
    congr 1
    refine Theorem.ordered_congr ?_ t
    intro name
    rw [Visible.ready_block_nil, Visible.ready_block_nil, decide_eq_decide, List.mem_append]
    constructor
    · rintro ((hdone | hrule) | htodo)
      · exact .inl hdone
      · exact .inr fun htodo => h name htodo hrule
      · exact .inr htodo
    · rintro (hdone | htodo)
      · exact .inl (.inl hdone)
      · exact .inr htodo

/-- The constants of the library are its rules. -/
theorem Library.findRule?_of_mem_constants {used : List String} {systemF : Bool} {name : String}
    (h : name ∈ constants ((Library.select used systemF).map Primitive.decl)) :
    Library.findRule? name ≠ none := by
  have hall : Library.all.all (fun p => p.decl.constant?.all fun n =>
      (Library.findRule? n).isSome) = true := by
    decide +kernel
  simp only [constants, List.mem_filterMap, List.mem_map] at h
  obtain ⟨_, ⟨p, hp, rfl⟩, hname⟩ := h
  have hrule := List.all_eq_true.mp hall p ((List.mem_filter.mp hp).1)
  rw [hname] at hrule
  intro hnone
  simp [hnone] at hrule

/-- Where a script compiles, every identifier of its theorems refers to a complete declaration
exactly if its document is ordered. -/
theorem compile_settled {src : List UInt8} {systemF : Bool} {c : Compilation}
    (h : (compile src systemF).1 = .ok c) :
    Walk.settled.stmts [] (constants (c.primitives.map Primitive.decl)) c.decls =
      c.document.ordered systemF := by
  obtain ⟨s, -, hgenerate, -, -, hprimitives, -⟩ := compile_eq_ok h
  have hall : ∀ name ∈ c.document.theorems.filterMap Theorem.binding?, name ∈
      c.document.theorems.filterMap Theorem.binding? := fun _ => id
  have hnone : ∀ name, (Generate.Scope.find? Generate.State.empty.declared name).isSome = true →
      name ∈ constants (c.primitives.map Primitive.decl) := by
    intro name hname
    cases hname
  obtain ⟨-, hsettled, hrules⟩ := Generate.theoremDecls_settled rfl hnone hall hgenerate
  rw [hsettled]
  refine theoremsOrdered_append ?_ []
  intro name hname hrule
  rw [hprimitives] at hrule
  exact Library.findRule?_of_mem_constants hrule (hrules name hname)

/-- A step whose proof refers to the step itself compiles. -/
theorem compile_settled_circular :
    ∃ c, (compile (Text.bytes "theorem t : P => Q
      have a : P => Q by assume p : P \x7b by a p; \x7d
      by a;") false).1 = .ok c ∧
    Walk.settled.stmts [] (constants (c.primitives.map Primitive.decl)) c.decls = false := by
  generalize hsrc : Text.bytes _ = src
  have hordered : (compile src false).1.toOption.any (fun c => !c.document.ordered false) = true := by
    rw [← hsrc]
    decide +kernel
  obtain ⟨c, h, hcircular⟩ := exists_ok_of_any hordered
  refine ⟨c, h, ?_⟩
  rw [compile_settled h]
  simpa using hcircular

end ProofScript
