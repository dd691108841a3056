import ProofScript.Proofs.Runs

/-!
# Claims and annotations

Every proposition that a document states becomes one annotation of the generated program, and every
annotation stems from one. Both sides are seen as trees of binders: the arrows and constants of a
program with the types on them, and those of a document with the propositions on them. Generation
encodes the one tree into the other, and the propositions on the document's tree are those that the
document states.
-/

namespace ProofScript

open Program

/-- An arrow or a constant: what stands on its parameters and on its result, where it stems from, and
the binders inside it. -/
inductive Binder (α : Type) where
  | arrow (params : List (String × α)) (ret : Option α) (origin : Option Location)
      (inner : List (Binder α))
  | const (name : String) (type : Option α) (origin : Option Location) (inner : List (Binder α))
deriving Repr

namespace Binder

variable {α β : Type}

mutual

/-- The binder with everything that stands on it changed. -/
def map (f : α → β) : Binder α → Binder β
  | arrow params ret o inner =>
    arrow (params.map fun p => (p.1, f p.2)) (ret.map f) o (mapAll f inner)
  | const name type o inner => const name (type.map f) o (mapAll f inner)

/-- The binders with everything that stands on them changed. -/
def mapAll (f : α → β) : List (Binder α) → List (Binder β)
  | [] => []
  | b :: rest => b.map f :: mapAll f rest

end

mutual

/-- What stands on a binder and on those inside it. -/
def marks : Binder α → List α
  | arrow params ret _ inner => params.map Prod.snd ++ ret.toList ++ marksAll inner
  | const _ type _ inner => type.toList ++ marksAll inner

/-- What stands on binders and on those inside them. -/
def marksAll : List (Binder α) → List α
  | [] => []
  | b :: rest => b.marks ++ marksAll rest

end

@[simp]
theorem mapAll_append (f : α → β) (bs cs : List (Binder α)) :
    mapAll f (bs ++ cs) = mapAll f bs ++ mapAll f cs := by
  induction bs with
  | nil => rfl
  | cons b rest ih => simp only [List.cons_append, mapAll, ih]

@[simp]
theorem marksAll_append (bs cs : List (Binder α)) :
    marksAll (bs ++ cs) = marksAll bs ++ marksAll cs := by
  induction bs with
  | nil => rfl
  | cons b rest ih => simp only [List.cons_append, marksAll, ih, List.append_assoc]

end Binder

/-! ## The binders of a program -/

/-- The binders of a program. -/
@[simps]
def Program.Walk.binders : Walk Unit (List (Binder TypeExpr)) where
  empty := []
  append := (· ++ ·)
  arrow _ _ params ret o inner := [.arrow params ret o inner]
  const _ name type _ o inner := [.const name type o inner]

instance Program.Walk.lawful_binders : Walk.binders.Lawful where
  empty_append := List.nil_append
  append_empty := List.append_nil
  append_assoc := List.append_assoc
  within_nil _ := rfl

theorem Program.Walk.flat_binders : Walk.binders.Flat := fun _ _ _ => rfl

/-! ## The binders of a document -/

/-- Nested arrows, one for each hypothesis. The innermost one returns a proposition, if there is
one. -/
def assumed (ret : Option Formula) (inner : List (Binder Formula)) :
    List Claim → List (Binder Formula)
  | [] => inner
  | [h] => [.arrow [(h.binding, h.formula)] ret (some h.loc) inner]
  | h :: rest => [.arrow [(h.binding, h.formula)] none (some h.loc) (assumed ret inner rest)]

/-- Nested arrows, one for each variable. -/
def generalized (ret : Option Formula) (inner : List (Binder Formula)) (loc : Location) :
    List String → List (Binder Formula)
  | [] => inner
  | [_] => [.arrow [] ret (some loc) inner]
  | _ :: rest => [.arrow [] none (some loc) (generalized ret inner loc rest)]

/-- The proposition that the final step leaves to the function around the proof. If that has a
result already, then there is none. -/
def Steps.returned? (declared : Bool) : Steps → Option Formula
  | .last (.step c _ _) => if declared then none else c.stated?
  | .last _ => none
  | .conclude _ _ => none
  | .more _ rest => rest.returned? declared

/-- The proposition that a proof leaves to the function around it. -/
def Proof.returned? (declared : Bool) (p : Proof) : Option Formula := p.steps.returned? declared

theorem Steps.returned?_true : (st : Steps) → st.returned? true = none
  | .last (.step ..) => rfl
  | .last .missing => rfl
  | .last (.block _) => rfl
  | .conclude .. => rfl
  | .more _ rest => rest.returned?_true

theorem Proof.returned?_true (p : Proof) : p.returned? true = none := p.steps.returned?_true

/-- The binder of a step. -/
def Claim.constant (c : Claim) (loc : Location) (inner : List (Binder Formula)) : Binder Formula :=
  .const c.binding c.stated? (some loc) inner

mutual

/-- The binders of a proof. -/
def Proof.binders (declared : Bool) : Proof → List (Binder Formula)
  | .mk s _ => s.binders declared

/-- The binders of steps. -/
def Steps.binders (declared : Bool) : Steps → List (Binder Formula)
  | .last s => s.finalBinders declared
  | .conclude j _ => j.binders
  | .more s rest => s.binders ++ rest.binders declared

/-- The binders of a final statement. Its claim has a binder of its own if the function around it
has a result already. -/
def Statement.finalBinders (declared : Bool) : Statement → List (Binder Formula)
  | .missing => []
  | .step c j loc =>
    if declared ∧ ¬ c.formula.isHole then [c.constant loc j.binders] else j.binders
  | .block b => b.binders

/-- The binders of a statement that is not the final one. -/
def Statement.binders : Statement → List (Binder Formula)
  | .missing => []
  | .step c j loc => [c.constant loc j.binders]
  | .block b => b.binders

/-- The binders of a justification. -/
def Justification.binders : Justification → List (Binder Formula)
  | .missing => []
  | .apply .. => []
  | .block b => b.binders

/-- The binders of a block. -/
def Block.binders : Block → List (Binder Formula)
  | .assume hyps p _ => assumed (p.returned? false) (p.binders false) hyps
  | .generalize vars p loc => generalized (p.returned? false) (p.binders false) loc vars

end

/-- The arrows of a theorem. The claim is the result of the innermost one. -/
def Theorem.arrows (t : Theorem) : List (Binder Formula) :=
  match Generate.sequent? t with
  | some (hyps, p) => assumed (some t.claim.formula) (p.binders true) hyps
  | none => [.arrow [] (some t.claim.formula) (some t.loc) (t.proof.binders true)]

/-- The binders of a theorem. -/
def Theorem.binders (t : Theorem) : List (Binder Formula) :=
  match t.claim.name.map escapeIdent with
  | none => t.arrows
  | some name => [.const name none (some t.loc) t.arrows]

/-- The binders of a document. -/
def Document.binders (d : Document) : List (Binder Formula) := d.theorems.flatMap Theorem.binders

/-! ## The propositions that a document states -/

mutual

/-- The propositions that a proof states. -/
def Proof.stated : Proof → List Formula
  | .mk s _ => s.stated

/-- The propositions that steps state. -/
def Steps.stated : Steps → List Formula
  | .last s => s.stated
  | .conclude j _ => j.stated
  | .more s rest => s.stated ++ rest.stated

/-- The propositions that a statement states. -/
def Statement.stated : Statement → List Formula
  | .missing => []
  | .step c j _ => c.stated?.toList ++ j.stated
  | .block b => b.stated

/-- The propositions that a justification states. -/
def Justification.stated : Justification → List Formula
  | .missing => []
  | .apply .. => []
  | .block b => b.stated

/-- The propositions that a block states. -/
def Block.stated : Block → List Formula
  | .assume hyps p _ => hyps.filterMap Claim.stated? ++ p.stated
  | .generalize _ p _ => p.stated

end

/-- The propositions that a document states. -/
def Document.stated (d : Document) : List Formula :=
  d.theorems.flatMap fun t => t.claim.stated?.toList ++ t.proof.stated

/-- A theorem that takes hypotheses states those and what is proved under them. -/
theorem stated_of_sequent {t : Theorem} {hyps : List Claim} {p : Proof}
    (h : Generate.sequent? t = some (hyps, p)) :
    t.proof.stated = hyps.filterMap Claim.stated? ++ p.stated := by
  obtain ⟨loc, loc', hproof⟩ := Generate.sequent?_eq_some h
  rw [hproof]
  rfl

/-! ## Nothing is lost on nested arrows -/

theorem marksAll_assumed {ret : Option Formula} {inner : List (Binder Formula)} {hyps : List Claim}
    (h : hyps ≠ []) :
    Binder.marksAll (assumed ret inner hyps) =
      hyps.map Claim.formula ++ (ret.toList ++ Binder.marksAll inner) := by
  fun_induction assumed ret inner hyps with
  | case1 => contradiction
  | case2 h => simp [Binder.marksAll, Binder.marks]
  | case3 h rest hrest ih =>
    have hrest : rest ≠ [] := by simpa using hrest
    simp [Binder.marksAll, Binder.marks, ih hrest]

theorem marksAll_generalized {ret : Option Formula} {inner : List (Binder Formula)} {loc : Location}
    {vars : List String} (h : vars ≠ []) :
    Binder.marksAll (generalized ret inner loc vars) = ret.toList ++ Binder.marksAll inner := by
  fun_induction generalized ret inner loc vars with
  | case1 => contradiction
  | case2 => simp [Binder.marksAll, Binder.marks]
  | case3 v rest hrest ih =>
    have hrest : rest ≠ [] := by simpa using hrest
    simp [Binder.marksAll, Binder.marks, ih hrest]

namespace Generate

variable {c : Context} {s s' : State}

/-- Binders of a program encode those of a document, on which stand the given propositions. -/
def Encodes (bs : List (Binder TypeExpr)) (ds : List (Binder Formula)) (stated : List Formula) :
    Prop :=
  bs = Binder.mapAll Formula.typeExpr ds ∧ (Binder.marksAll ds).Perm stated

/-- The same for the binders of a proof, whose result stands on the function around it. -/
def EncodesProof (bs : List (Binder TypeExpr)) (ret : Option TypeExpr) (ds : List (Binder Formula))
    (returned : Option Formula) (stated : List Formula) : Prop :=
  bs = Binder.mapAll Formula.typeExpr ds ∧ ret = returned.map Formula.typeExpr ∧
    (returned.toList ++ Binder.marksAll ds).Perm stated

/-! ## Proofs -/

theorem Applied.binders {types : List TypeExpr} {places : List Location} {e : Expr}
    (h : Applied types places e) : Walk.binders.expr () e = [] := by
  induction h with
  | ident => rfl
  | call _ _ _ _ ihfn ihargs => simp [Walk.expr, ihfn, Walk.exprs_eq_empty ihargs]

theorem isHole_of_typeOf {f : Formula} {t : TypeExpr} (h : typeOf f c s = (.ok t, s')) :
    f.isHole = false := by
  cases f with
  | hole => exact absurd h broken_ne_ok
  | _ => rfl

theorem encodes_quantify {ret : Option TypeExpr} {body : Body} {loc : Location}
    {vars : List String} {ds : List (Binder Formula)} {returned : Option Formula}
    {stated : List Formula} (hvars : vars ≠ [])
    (h : EncodesProof (Walk.binders.body () body) ret ds returned stated) :
    Encodes (Walk.binders.expr () (quantify ret body (some loc) vars))
      (generalized returned ds loc vars) stated := by
  obtain ⟨hbody, rfl, hstated⟩ := h
  refine ⟨?_, by rwa [marksAll_generalized hvars]⟩
  fun_induction generalized returned ds loc vars with
  | case1 => contradiction
  | case2 => simp [quantify, Walk.expr, Binder.mapAll, Binder.map, hbody]
  | case3 v rest hrest ih =>
    have hrest : rest ≠ [] := by simpa using hrest
    simp [quantify, Walk.expr, Walk.body, Binder.mapAll, Binder.map, ih hrest]

/-- What the hypotheses and the proof of a run state, and what stands on their arrows. -/
structure EncodesNest (goal : Option Formula) (p : Proof) (hyps : List Claim) (e : Expr) : Prop where
  binders : Walk.binders.expr () e = Binder.mapAll Formula.typeExpr
    (assumed (goal <|> p.returned? goal.isSome) (p.binders goal.isSome) hyps)
  nonempty : hyps ≠ []
  stated : hyps.filterMap Claim.stated? = hyps.map Claim.formula
  rest : ((p.returned? goal.isSome).toList ++ Binder.marksAll (p.binders goal.isSome)).Perm p.stated

/-- Hypotheses stand on their own arrows. The goal, or else the result of the proof, stands on the
innermost one. -/
theorem NestRun.encodes {goal : Option Formula} {p : Proof} {hyps : List Claim} {e : Expr}
    (h : NestRun c goal p hyps s e s')
    (hproof : ∀ {s s' body ret}, ProofRun c goal.isSome p s body ret s' →
      EncodesProof (Walk.binders.body () body) ret (p.binders goal.isSome)
        (p.returned? goal.isSome) p.stated) :
    EncodesNest goal p hyps e := by
  induction hyps generalizing s s' e with
  | nil => cases h
  | cons h₀ rest ih =>
    cases h with
    | @last _ _ _ _ _ _ _ _ _ body ret tparams htype hdeclare hgoal hp hexit =>
      obtain ⟨hbody, rfl, hrest⟩ := hproof hp
      have hhole := isHole_of_typeOf htype
      refine ⟨?_, by simp, by simp [Claim.stated?, hhole], hrest⟩
      cases goal with
      | none => simp [Walk.expr, assumed, Binder.mapAll, Binder.map, Claim.param, hbody]
      | some g => simp [Walk.expr, assumed, Binder.mapAll, Binder.map, Claim.param, hbody]
    | @more _ _ _ h₁ more _ _ _ _ _ inner tparams htype hdeclare hinner hexit =>
      have hnest := ih hinner
      have hhole := isHole_of_typeOf htype
      refine ⟨?_, by simp, ?_, hnest.rest⟩
      · simp [Walk.expr, Walk.body, assumed, Binder.mapAll, Binder.map, Claim.param,
          hnest.binders]
      · rw [List.filterMap_cons, List.map_cons, hnest.stated]
        simp [Claim.stated?, hhole]

/-- The claim of a step stands on its constant. -/
theorem encodes_constant {claim : Claim} {j : Justification} {loc : Location} {value : Expr}
    (h : Encodes (Walk.binders.expr () value) j.binders j.stated) :
    Encodes (Walk.binders.stmt ()
        (.const claim.binding claim.annotation value false false none (some loc)))
      [claim.constant loc j.binders] (claim.stated?.toList ++ j.stated) := by
  refine ⟨?_, ?_⟩
  · simp [Walk.stmt, Claim.constant, Claim.annotation, Binder.mapAll, Binder.map, h.1]
  · simpa [Claim.constant, Binder.marksAll, Binder.marks] using h.2.append_left _

/-- A goal is no hole. -/
theorem NestRun.goal_stated {claim : Claim} {p : Proof} {hyps : List Claim} {e : Expr}
    (h : NestRun c (some claim.formula) p hyps s e s') : claim.stated? = some claim.formula := by
  induction hyps generalizing s s' e with
  | nil => cases h
  | cons h₀ rest ih =>
    cases h with
    | last _ _ hgoal => simp [Claim.stated?, isHole_of_typeOf hgoal]
    | more _ _ hinner => exact ih hinner

mutual

theorem ProofRun.encodes {c : Context} {s s' : State} {declared : Bool} {body : Body}
    {ret : Option TypeExpr} : (p : Proof) → ProofRun c declared p s body ret s' →
      EncodesProof (Walk.binders.body () body) ret (p.binders declared) (p.returned? declared)
        p.stated
  | .mk st _, .steps _ hsteps => by
    rw [Walk.flat_binders.body_bodyOf]
    exact StepsRun.encodes st hsteps

theorem StepsRun.encodes {c : Context} {s s' : State} {declared : Bool} {stmts : List Stmt}
    {value : Expr} {ret : Option TypeExpr} :
    (st : Steps) → StepsRun c declared st s stmts value ret s' →
      EncodesProof (Walk.binders.stmts () [] stmts ++ Walk.binders.expr () value) ret
        (st.binders declared) (st.returned? declared) st.stated
  | .last st, .last hfinal => FinalRun.encodes st hfinal
  | .conclude j _, .conclude hj => by
    obtain ⟨hbinders, hstated⟩ := JustificationRun.encodes j hj
    exact ⟨hbinders, rfl, hstated⟩
  | .more st rest, .more hst hrest => by
    obtain ⟨hbinders, hstated⟩ := StatementRun.encodes st hst
    obtain ⟨hbinders', hret, hstated'⟩ := StepsRun.encodes rest hrest
    refine ⟨?_, hret, ?_⟩
    · rw [Walk.flat_binders.stmts_cons, Walk.binders_append, List.append_assoc, hbinders, hbinders',
        Steps.binders, Binder.mapAll_append]
    · -- The result of the proof comes before the binders of this statement.
      rw [Steps.binders, Steps.stated, Steps.returned?, Binder.marksAll_append, ← List.append_assoc]
      exact (List.perm_append_comm.append_right _).trans
        (by simpa using hstated.append hstated')

theorem FinalRun.encodes {c : Context} {s s' : State} {declared : Bool} {stmts : List Stmt}
    {value : Expr} {ret : Option TypeExpr} :
    (st : Statement) → FinalRun c declared st s stmts value ret s' →
      EncodesProof (Walk.binders.stmts () [] stmts ++ Walk.binders.expr () value) ret
        (st.finalBinders declared) ((Steps.last st).returned? declared) st.stated
  | .block b, .block hb => by
    obtain ⟨hbinders, hstated⟩ := BlockRun.encodes b hb
    exact ⟨hbinders, rfl, hstated⟩
  | .step claim j loc, .hole hhole hj => by
    obtain ⟨hbinders, hstated⟩ := JustificationRun.encodes j hj
    have hnone : claim.stated? = none := by simp [Claim.stated?, hhole]
    simpa [EncodesProof, Statement.finalBinders, Statement.stated, Steps.returned?,
      Walk.flat_binders.stmts_cons, hhole, hnone] using ⟨hbinders, hstated⟩
  | .step claim j loc, .bound hhole (.step _ hj _) => by
    obtain ⟨hbinders, hstated⟩ := encodes_constant (JustificationRun.encodes j hj)
    simpa [EncodesProof, Statement.finalBinders, Statement.stated, Steps.returned?,
      Walk.flat_binders.stmts_cons, Walk.expr, hhole] using ⟨hbinders, hstated⟩
  | .step claim j loc, .returned hhole _ hj => by
    obtain ⟨hbinders, hstated⟩ := JustificationRun.encodes j hj
    have hsome : claim.stated? = some claim.formula := by simp [Claim.stated?, hhole]
    simpa [EncodesProof, Statement.finalBinders, Statement.stated, Steps.returned?,
      Walk.flat_binders.stmts_cons, hhole, hsome] using ⟨hbinders, hstated⟩

theorem StatementRun.encodes {c : Context} {s s' : State} {stmt : Stmt} :
    (st : Statement) → StatementRun c st s stmt s' →
      Encodes (Walk.binders.stmt () stmt) st.binders st.stated
  | .block b, .block hb => by
    rw [Walk.stmt, Walk.expr]
    exact BlockRun.encodes b hb
  | .step claim j loc, .step _ hj _ => encodes_constant (JustificationRun.encodes j hj)

theorem JustificationRun.encodes {c : Context} {s s' : State} {value : Expr} :
    (j : Justification) → JustificationRun c j s value s' →
      Encodes (Walk.binders.expr () value) j.binders j.stated
  | .apply _ _ _, .apply h => ⟨(application_applied h).binders, .refl _⟩
  | .block b, .block hb => BlockRun.encodes b hb

theorem BlockRun.encodes {c : Context} {s s' : State} {value : Expr} :
    (b : Block) → BlockRun c b s value s' → Encodes (Walk.binders.expr () value) b.binders b.stated
  | .assume hyps p loc, .assume hnest => by
    obtain ⟨hbinders, hnonempty, hhyps, hrest⟩ := hnest.encodes (ProofRun.encodes p)
    refine ⟨hbinders, ?_⟩
    rw [Block.binders, Block.stated, marksAll_assumed hnonempty, hhyps]
    exact hrest.append_left _
  | .generalize vars p loc, .generalize hvars hp _ => encodes_quantify hvars (ProofRun.encodes p hp)

end

/-! ## Theorems -/

theorem TheoremRun.encodes {t : Theorem} {e : Expr} (h : TheoremRun c t s e s') :
    Encodes (Walk.binders.expr () e) t.arrows (t.claim.stated?.toList ++ t.proof.stated) := by
  cases h with
  | @sequent hyps p _ _ _ hsequent hnest =>
    have hclaim := hnest.goal_stated
    obtain ⟨hbinders, hnonempty, hhyps, hrest⟩ := hnest.encodes (ProofRun.encodes p)
    unfold Theorem.arrows
    rw [hsequent, hclaim, stated_of_sequent hsequent, hhyps]
    refine ⟨hbinders, ?_⟩
    rw [marksAll_assumed hnonempty]
    -- The claim comes behind the hypotheses.
    have hrest : (Binder.marksAll (p.binders true)).Perm p.stated := by
      simpa [Proof.returned?_true] using hrest
    exact List.perm_middle.trans ((hrest.append_left _).cons _)
  | @implication _ _ _ _ body ret tparams hsequent htype hproof hexit =>
    obtain ⟨hbinders, -, hrest⟩ := ProofRun.encodes t.proof hproof
    have hclaim : t.claim.stated? = some t.claim.formula := by
      simp [Claim.stated?, isHole_of_typeOf htype]
    unfold Theorem.arrows
    rw [hsequent, hclaim]
    refine ⟨?_, ?_⟩
    · simp [Walk.expr, Binder.mapAll, Binder.map, hbinders]
    · simpa [Binder.marksAll, Binder.marks, Proof.returned?_true] using hrest

theorem binders_decl {t : Theorem} {arrow : Expr}
    (h : Encodes (Walk.binders.expr () arrow) t.arrows (t.claim.stated?.toList ++ t.proof.stated)) :
    Encodes (Walk.binders.stmt () (t.decl arrow)) t.binders
      (t.claim.stated?.toList ++ t.proof.stated) := by
  unfold Theorem.decl Theorem.binders
  cases t.claim.name.map escapeIdent with
  | none => exact h
  | some name =>
    refine ⟨?_, ?_⟩
    · simp [Walk.stmt, Binder.mapAll, Binder.map, h.1]
    · simpa [Binder.marksAll, Binder.marks] using h.2

theorem encodes_theoremDecls {ts : List Theorem} {decls : List Stmt}
    (h : theoremDecls ts c s = (.ok decls, s')) :
    Encodes (Walk.binders.stmts () [] decls) (ts.flatMap Theorem.binders)
      (ts.flatMap fun t => t.claim.stated?.toList ++ t.proof.stated) := by
  induction ts generalizing s decls with
  | nil =>
    obtain ⟨rfl, -⟩ := pure_eq_ok.mp h
    exact ⟨rfl, .refl _⟩
  | cons t rest ih =>
    obtain ⟨decl, more, mid, rfl, hdecl, -, hmore⟩ := theoremDecls_cons_eq_ok h
    obtain ⟨arrow, _, hrun, rfl, -⟩ := theoremDecl_eq_ok hdecl
    have hfirst := binders_decl hrun.encodes
    have hrest := ih hmore
    refine ⟨?_, ?_⟩
    · rw [Walk.flat_binders.stmts_cons, Walk.binders_append, List.flatMap_cons, Binder.mapAll_append,
        hfirst.1, hrest.1]
    · rw [List.flatMap_cons, List.flatMap_cons, Binder.marksAll_append]
      exact hfirst.2.append hrest.2

end Generate

/-- Every proposition that a document states is one annotation of its program, on the binder that the
proposition has in the document, and there are no others. The annotation is the type that generation
gives the proposition. -/
theorem binders_of_generate {d : Document} {systemF : Bool} {decls : List Stmt}
    (h : (d.generate systemF).1 = .ok decls) :
    Walk.binders.stmts () [] decls = Binder.mapAll Formula.typeExpr d.binders ∧
      (Binder.marksAll d.binders).Perm d.stated ∧
      ∀ f c s t s', Generate.typeOf f c s = (.ok t, s') → t = f.typeExpr := by
  have hrun : Generate.theoremDecls d.theorems
      ⟨systemF, d.theorems.filterMap fun t => t.claim.name.map escapeIdent⟩ .empty =
        (.ok decls, (d.generate systemF).2) := Prod.ext h rfl
  have hencodes := Generate.encodes_theoremDecls hrun
  exact ⟨hencodes.1, hencodes.2, fun f c s t s' => Generate.typeOf_eq_ok⟩

/-- A theorem with a hypothesis whose final step has a constant, around a block whose final step has
none. -/
theorem binders_of_generate_nested :
    ∃ d decls, parse (Text.bytes "theorem t : Q
      assume h : P & Q \x7b
        have k : _ by assume p : P \x7b have Q by andElimRight h; \x7d
        have q : Q by andElimRight h;
      \x7d") false = .ok d ∧ (d.generate false).1 = .ok decls ∧ d.stated.length = 5 ∧
    Walk.binders.stmts () [] decls = Binder.mapAll Formula.typeExpr d.binders ∧
    (Binder.marksAll d.binders).Perm d.stated := by
  generalize hsrc : Text.bytes _ = src
  have hread : (parse src false).toOption.any (fun d =>
      (d.generate false).1.toOption.any fun _ => d.stated.length = 5) = true := by
    rw [← hsrc]
    decide +kernel
  obtain ⟨d, hparse, hwritten⟩ := exists_ok_of_any hread
  obtain ⟨decls, hgenerate, hlength⟩ := exists_ok_of_any hwritten
  have h := binders_of_generate hgenerate
  exact ⟨d, decls, hparse, hgenerate, of_decide_eq_true hlength, h.1, h.2.1⟩

end ProofScript
