import Mathlib.Data.List.Nodup
import ProofScript.Proofs.Recording
import ProofScript.Proofs.Walk

/-!
# Type parameters

Every type that a generated program mentions is a type of the library or a type parameter of a
binder around. What a part of a document mentions is recorded in the frame on top, and the binder
that closes a frame declares what no frame below records. In propositional mode a frame records
everything it ever will before the first frame above it opens, so that no binder declares what one
around it declares.
-/

namespace ProofScript

/-! ## Programs -/

namespace Program

/-- The types that the library declares. -/
def aliasNames : List String := Frames.constants ++ libraryTypeNames

mutual

/-- Is every type that the type mentions one of the given ones, one of the library, or declared by
a function type around? -/
def TypeExpr.scoped (types : List String) : TypeExpr → Bool
  | .missing => true
  | .ref name args => (name ∈ types || name ∈ aliasNames) && TypeExpr.scopedAll types args
  | .func tparams params ret =>
    TypeExpr.scopedParams (tparams ++ types) params && ret.scoped (tparams ++ types)
  | .tuple elems => TypeExpr.scopedAll types elems
  | .union members => TypeExpr.scopedAll types members
  | .object props => TypeExpr.scopedParams types props
  | .str _ => true
  | .bool _ => true
  | .keyword _ => true

/-- The same for types. -/
def TypeExpr.scopedAll (types : List String) : List TypeExpr → Bool
  | [] => true
  | t :: rest => t.scoped types && TypeExpr.scopedAll types rest

/-- The same for the types of parameters. -/
def TypeExpr.scopedParams (types : List String) : List (String × TypeExpr) → Bool
  | [] => true
  | p :: rest => p.2.scoped types && TypeExpr.scopedParams types rest

end

/-- Is every type that is mentioned one of the given ones, one of the library, or declared by an arrow or
a function type around? -/
@[simps]
def Walk.scoped : Walk (List String) Bool where
  empty := true
  append := and
  call types targs fn args := fn && TypeExpr.scopedAll types targs && args
  cast types t value := value && t.scoped types
  inside types tparams _ := tparams ++ types
  arrow types tparams params ret _ body :=
    TypeExpr.scopedParams (tparams ++ types) params &&
      ret.all (TypeExpr.scoped (tparams ++ types)) && body
  typeAlias types tparams t := t.scoped (tparams ++ types)
  const types _ type signature _ value :=
    type.all (TypeExpr.scoped types) && value && signature.all (TypeExpr.scoped types)

/-- Does every arrow declare its type parameters once, and none that an arrow around it or one of the
given declares? -/
@[simps]
def Walk.fresh : Walk (List String) Bool where
  empty := true
  append := and
  inside types tparams _ := tparams ++ types
  arrow types tparams _ _ _ body := tparams.Nodup && tparams.all (· ∉ types) && body

instance Walk.lawful_scoped : Walk.scoped.Lawful where
  empty_append := Bool.true_and
  append_empty := Bool.and_true
  append_assoc := Bool.and_assoc
  within_nil _ := rfl

instance Walk.lawful_fresh : Walk.fresh.Lawful where
  empty_append := Bool.true_and
  append_empty := Bool.and_true
  append_assoc := Bool.and_assoc
  within_nil _ := rfl

theorem Walk.flat_scoped : Walk.scoped.Flat := fun _ _ _ => rfl

theorem Walk.flat_fresh : Walk.fresh.Flat := fun _ _ _ => rfl

theorem TypeExpr.scoped_alias {types : List String} {name : String} {args : List TypeExpr}
    (h : name ∈ aliasNames) : (TypeExpr.ref name args).scoped types = scopedAll types args := by
  simp [TypeExpr.scoped, h]

end Program

open Program

/-! ## Frames -/

/-- The type parameter of an atom is one of the given, or the atom is a constant. -/
def Supplied (types : List String) (a : String) : Prop :=
  escapeTypeVar a ∈ types ∨ a ∈ Frames.constants

theorem Supplied.mono {types more : List String} {a : String} (h : Supplied types a)
    (hmore : types ⊆ more) : Supplied more a :=
  h.imp_left fun hmem => hmore hmem

theorem Supplied.scoped {types : List String} {a : String} (h : Supplied types a) :
    (TypeExpr.ref (escapeTypeVar a) []).scoped types = true := by
  have hmem : escapeTypeVar a ∈ types ∨ escapeTypeVar a ∈ aliasNames := by
    refine h.imp_right fun hconst => ?_
    simp only [Frames.constants, List.mem_cons, List.not_mem_nil, or_false] at hconst
    rcases hconst with rfl | rfl
    · decide
    · decide
  simpa [TypeExpr.scoped, TypeExpr.scopedAll] using hmem

namespace Frames

/-- Is the atom recorded in an open frame, or bound? -/
def Mentions (f : Frames) (a : String) : Prop := a ∈ f.bound ∨ ∃ top ∈ f.frames, a ∈ top

/-- Type parameters for everything that is recorded or bound. -/
def Supplies (f : Frames) (types : List String) : Prop := ∀ a, f.Mentions a → Supplied types a

/-- Bound atoms need type parameters too. -/
theorem Supplies.bind {f : Frames} (vars : List String) {types : List String} (h : f.Supplies types) :
    (f.bind vars).Supplies ((vars.map escapeTypeVar).reverse ++ types) := by
  have hbelow : ∀ {a}, f.Mentions a → Supplied ((vars.map escapeTypeVar).reverse ++ types) a :=
    fun {a} hm => (h a hm).mono (List.subset_append_right _ _)
  rintro a (ha | ha)
  · rcases List.mem_append.mp ha with ha | ha
    · refine .inl (List.mem_append_left _ ?_)
      exact List.mem_reverse.mpr (List.mem_map_of_mem (List.mem_reverse.mp ha))
    · exact hbelow (.inl ha)
  · exact hbelow (.inr ha)

theorem mentions_record_of_mentions {f : Frames} {names : List String} {a : String}
    (h : f.Mentions a) : (f.record names).Mentions a := by
  obtain ⟨frames, bound⟩ := f
  refine h.imp id ?_
  rintro ⟨top, htop, ha⟩
  cases frames with
  | nil => cases htop
  | cons first rest =>
    rcases List.mem_cons.mp htop with rfl | htop
    · exact ⟨names.foldl note top, by simp [record], mem_foldl_note.mpr (.inl ha)⟩
    · exact ⟨top, by simp [record, htop], ha⟩

theorem mentions_record {f : Frames} {names : List String} {a : String} (hf : f.frames ≠ [])
    (h : a ∈ names) : (f.record names).Mentions a := by
  obtain ⟨frames, bound⟩ := f
  cases frames with
  | nil => contradiction
  | cons top rest => exact .inr ⟨names.foldl note top, by simp [record], mem_foldl_note.mpr (.inr h)⟩

theorem Grows.supplies {f g : Frames} {types : List String} (h : Grows f g)
    (hg : g.Supplies types) : f.Supplies types := by
  obtain ⟨names, rfl⟩ := h
  exact fun a ha => hg a (mentions_record_of_mentions ha)

/-- What the frame on top mentions is declared by it or by the frames below. -/
theorem Supplies.exit {f : Frames} {types : List String} (h : f.Supplies types) (top : List String) :
    ({ f with frames := top :: f.frames } : Frames).Supplies
      ((own top f.frames).map escapeTypeVar ++ types) := by
  intro a ha
  have hbelow : f.Mentions a → Supplied ((own top f.frames).map escapeTypeVar ++ types) a :=
    fun hm => (h a hm).mono (List.subset_append_right _ _)
  rcases ha with ha | ⟨frame, hframe, ha⟩
  · exact hbelow (.inl ha)
  rcases List.mem_cons.mp hframe with rfl | hframe
  · by_cases hconst : a ∈ constants
    · exact .inr hconst
    by_cases hrest : ∃ fr ∈ f.frames, a ∈ fr
    · exact hbelow (.inr hrest)
    · left
      refine List.mem_append_left _ (List.mem_map_of_mem (f := escapeTypeVar) ?_)
      have hnone : ∀ fr ∈ f.frames, a ∉ fr := fun fr hfr hmem => hrest ⟨fr, hfr, hmem⟩
      simpa [own, ha, hconst] using hnone
  · exact hbelow (.inr ⟨frame, hframe, ha⟩)

end Frames

theorem scoped_foldr {types vars : List String} {t : TypeExpr}
    (h : t.scoped ((vars.map escapeTypeVar).reverse ++ types) = true) :
    (vars.foldr (fun v t => TypeExpr.func [escapeTypeVar v] [] t) t).scoped types = true := by
  induction vars generalizing types with
  | nil => exact h
  | cons v rest ih =>
    simp only [List.foldr_cons, TypeExpr.scoped, TypeExpr.scopedParams, Bool.true_and]
    exact ih (by simpa using h)

/-- The type of a proposition needs type parameters for its atoms. -/
theorem Formula.scoped_typeExpr {f : Formula} {bound types : List String}
    (hbound : ∀ a ∈ bound, Supplied types a) (hatoms : ∀ a ∈ f.atoms bound, Supplied types a) :
    f.typeExpr.scoped types = true := by
  induction f generalizing bound types with
  | hole => rfl
  | atom name args loc =>
    have hall : ∀ a ∈ name :: args.head?.toList, Supplied types a := by
      intro a ha
      by_cases hmem : a ∈ bound
      · exact hbound a hmem
      · exact hatoms a (by simpa [Formula.atoms, hmem] using ha)
    have hname := (hall name (by simp)).scoped
    cases args with
    | nil => exact hname
    | cons arg rest =>
      have harg := (hall arg (by simp)).scoped
      rw [Formula.typeExpr, TypeExpr.scoped_alias (by decide)]
      simp [TypeExpr.scopedAll, hname, harg]
  | neg a _ ih =>
    rw [Formula.typeExpr, TypeExpr.scoped_alias (by decide)]
    simp [TypeExpr.scopedAll, ih hbound hatoms]
  | conj a b _ iha ihb | disj a b _ iha ihb | impl a b _ iha ihb =>
    have ha := iha hbound fun x hx => hatoms x (List.mem_append_left _ hx)
    have hb := ihb hbound fun x hx => hatoms x (List.mem_append_right _ hx)
    rw [Formula.typeExpr, TypeExpr.scoped_alias (by decide)]
    simp [TypeExpr.scopedAll, ha, hb]
  | all vars a _ ih =>
    have hvars : ∀ x ∈ vars.reverse ++ bound,
        Supplied ((vars.map escapeTypeVar).reverse ++ types) x := by
      intro x hx
      rcases List.mem_append.mp hx with hx | hx
      · left
        simpa using .inl ⟨x, by simpa using hx, rfl⟩
      · exact (hbound x hx).mono (List.subset_append_right _ _)
    exact scoped_foldr
      (ih hvars fun x hx => (hatoms x hx).mono (List.subset_append_right _ _))

namespace Generate

variable {c : Context} {s s' : State}

/-! ## Every type is declared -/

/-- The frames grow, and what holds of all type parameters that supply the frames behind. -/
def Finds (s s' : State) (P : List String → Prop) : Prop :=
  s.frames.Grows s'.frames ∧ ∀ types, s'.frames.Supplies types → P types

theorem Finds.trans {mid : State} {P Q : List String → Prop} (h : Finds s mid P)
    (h' : Finds mid s' Q) : Finds s s' fun types => P types ∧ Q types :=
  ⟨h.1.trans h'.1, fun types htypes => ⟨h.2 types (h'.1.supplies htypes), h'.2 types htypes⟩⟩

theorem Finds.mono {P Q : List String → Prop} (h : Finds s s' P) (hPQ : ∀ types, P types → Q types) :
    Finds s s' Q :=
  ⟨h.1, fun types htypes => hPQ types (h.2 types htypes)⟩

/-- A step that records atoms. -/
theorem Finds.of_record {names : List String} {P : List String → Prop}
    (h : s'.frames = s.frames.record names) (hP : ∀ types, P types) : Finds s s' P :=
  ⟨⟨names, h⟩, fun types _ => hP types⟩

theorem Finds.of_frames {P : List String → Prop} {a a' : State} (h : Finds s s' P)
    (hs : s.frames = a.frames) (hs' : a'.frames = s'.frames) : Finds a a' P := by
  unfold Finds at h ⊢
  rwa [← hs, hs']

theorem typeOf_finds {f : Formula} {t : TypeExpr} (h : typeOf f c s = (.ok t, s')) :
    Finds s s' fun types => f.typeExpr.scoped types = true := by
  obtain ⟨hne, hframes⟩ := typeOf_frames h
  refine ⟨⟨_, hframes⟩, ?_⟩
  intro types htypes
  rw [hframes] at htypes
  exact Formula.scoped_typeExpr (fun a ha => htypes a (.inl ha))
    fun a ha => htypes a (Frames.mentions_record hne ha)

theorem stepHead_finds {claim : Claim} {r : String × Option TypeExpr}
    (h : stepHead claim c s = (.ok r, s')) :
    Finds s s' fun types => r.2.all (TypeExpr.scoped types) = true := by
  obtain ⟨name, t⟩ := r
  obtain ⟨-, ⟨-, hnone, -⟩ | ⟨u, -, hu, hsome⟩⟩ := stepHead_eq_ok h
  · exact .of_record (stepHead_frames h) (by simp [hnone])
  · refine (typeOf_finds hu).mono fun types htypes => ?_
    rw [hsome, typeOf_eq_ok hu]
    exact htypes

theorem Applied.scoped {ts : List TypeExpr} {places : List Location} {e : Expr}
    (h : Applied ts places e) {types : List String} (hts : ∀ t ∈ ts, t.scoped types = true) :
    Walk.scoped.expr types e = true := by
  have htargs : ∀ {targs : List TypeExpr}, targs ⊆ ts → TypeExpr.scopedAll types targs = true := by
    intro targs htargs
    induction targs with
    | nil => rfl
    | cons t rest ih =>
      rw [List.cons_subset] at htargs
      simp [TypeExpr.scopedAll, hts t htargs.1, ih htargs.2]
  induction h with
  | ident => rfl
  | call _ hsubset _ _ ihfn ihargs => simp [Walk.expr, ihfn, htargs hsubset, Walk.exprs_eq_empty ihargs]

/-- An instance mentions the types of its proposition. -/
theorem application_finds {rule : String} {args : List Argument} {loc : Location} {e : Expr}
    (h : application rule args loc c s = (.ok e, s')) :
    Finds s s' fun types => Walk.scoped.expr types e = true := by
  have hframes := application_frames h
  have happlied := application_applied h
  obtain ⟨_, _, hread, h⟩ := bind_eq_ok.mp h
  obtain ⟨rfl, rfl⟩ := read_eq_ok.mp hread
  split at h
  · obtain ⟨f, name, at_, fn, mid, t, rfl, hfn, ht, -⟩ := instantiate_eq_ok h
    refine ((typeOf_finds ht).of_frames (reference_frames hfn) rfl).mono fun types htypes => ?_
    exact happlied.scoped (by simpa [argumentType?] using htypes)
  · obtain ⟨fn, mid, hfn, h⟩ := bind_eq_ok.mp h
    refine .of_record hframes fun types => ?_
    have hall : ∀ a ∈ args, a.loc ∈ loc :: args.map Argument.loc :=
      fun a ha => List.mem_cons_of_mem _ (List.mem_map_of_mem ha)
    have hrule : Applied [] (loc :: args.map Argument.loc) fn := reference_applied hfn (by simp)
    exact (applyAll_applied hrule hall h).scoped (by simp)

theorem GoalRun.finds {goal : Option Formula} (h : GoalRun c goal s s') :
    Finds s s' fun types => ∀ g ∈ goal, g.typeExpr.scoped types = true := by
  cases goal with
  | none =>
    obtain rfl : s' = s := h
    have hframes : s'.frames = s'.frames.record [] := by simp
    exact .of_record hframes (by simp)
  | some g =>
    refine (typeOf_finds h).mono fun types htypes => ?_
    simpa using htypes

theorem scoped_quantify {ret : Option TypeExpr} {body : Body} {o : Option Location}
    {vars types : List String}
    (hret : ret.all (TypeExpr.scoped ((vars.map escapeTypeVar).reverse ++ types)) = true)
    (hbody : Walk.scoped.body ((vars.map escapeTypeVar).reverse ++ types) body = true) :
    Walk.scoped.expr types (quantify ret body o vars) = true := by
  fun_induction quantify ret body o vars generalizing types with
  | case1 => rfl
  | case2 v => simp_all [Walk.expr, TypeExpr.scopedParams]
  | case3 v rest hrest ih =>
    have hinner : Walk.scoped.expr (escapeTypeVar v :: types) (quantify ret body o rest) = true :=
      ih (by simpa using hret) (by simpa using hbody)
    simp [Walk.expr, Walk.body, TypeExpr.scopedParams, hinner]

/-- The frame of a hypothesis is closed behind its arrow, which declares what it needs. -/
theorem NestRun.scoped {goal : Option Formula} {p : Proof} {hyps : List Claim} {e : Expr}
    (h : NestRun c goal p hyps s e s')
    (hproof : ∀ {s s' body ret}, ProofRun c goal.isSome p s body ret s' →
      Finds s s' fun types =>
        Walk.scoped.body types body = true ∧ ret.all (TypeExpr.scoped types) = true) :
    s'.frames = s.frames ∧ ∀ types, s.frames.Supplies types → Walk.scoped.expr types e = true := by
  induction hyps generalizing s s' e with
  | nil => cases h
  | cons h₀ rest ih =>
    cases h with
    | @last _ _ _ _ _ _ _ _ _ body ret tparams htype hdeclare hgoal hp hexit =>
      have hhead := (typeOf_finds htype).of_frames rfl (declare_frames hdeclare)
      obtain ⟨hgrows, hfinds⟩ := (hhead.trans hgoal.finds).trans (hproof hp)
      obtain ⟨hs', top, hs, rfl⟩ := exit_of_grows hgrows hexit
      refine ⟨hs', ?_⟩
      intro types htypes
      obtain ⟨⟨hparam, hgoals⟩, hbody, hret⟩ := hfinds _ (hs ▸ htypes.exit top)
      cases goal with
      | none => simp [Walk.expr, Claim.param, TypeExpr.scopedParams, hparam, hbody, hret]
      | some g =>
        simp [Walk.expr, Claim.param, TypeExpr.scopedParams, hparam, hbody, hgoals g rfl]
    | @more _ _ _ h₁ more _ _ _ _ _ inner tparams htype hdeclare hinner hexit =>
      obtain ⟨hgrows, hparam⟩ := (typeOf_finds htype).of_frames rfl (declare_frames hdeclare)
      obtain ⟨hframes, hscoped⟩ := ih hinner
      rw [← hframes] at hgrows hparam hscoped
      obtain ⟨hs', top, hs, rfl⟩ := exit_of_grows hgrows hexit
      refine ⟨hs', ?_⟩
      intro types htypes
      have htypes := hs ▸ htypes.exit top
      simp [Walk.expr, Walk.body, Claim.param, TypeExpr.scopedParams, hparam _ htypes,
        hscoped _ htypes]

/-- A constant mentions the types of its annotation and of its value. -/
theorem constant_finds {claim : Claim} (loc : Location) {s₁ s₂ : State} {value : Expr}
    (hhead : stepHead claim c s = (.ok (claim.binding, claim.annotation), s₁))
    (hvalue : Finds s₁ s₂ fun types => Walk.scoped.expr types value = true)
    (hdeclare : declare claim.binding claim.loc c s₂ = (.ok (), s')) :
    Finds s s' fun types => Walk.scoped.stmt types
      (.const claim.binding claim.annotation value false false none (some loc)) = true := by
  refine (((stepHead_finds hhead).trans hvalue).of_frames rfl (declare_frames hdeclare)).mono ?_
  rintro types ⟨htype, hvalue⟩
  simpa [Walk.stmt, hvalue] using htype

mutual

theorem ProofRun.finds {c : Context} {s s' : State} {declared : Bool} {body : Body}
    {ret : Option TypeExpr} : (p : Proof) → ProofRun c declared p s body ret s' →
      Finds s s' fun types =>
        Walk.scoped.body types body = true ∧ ret.all (TypeExpr.scoped types) = true
  | .mk st _, .steps hrecord hsteps => by
    obtain ⟨hgrows, hfinds⟩ := StepsRun.finds st hsteps
    refine ⟨.trans ⟨_, recordSteps_frames st hrecord⟩ hgrows, ?_⟩
    intro types htypes
    obtain ⟨hstmts, hvalue, hret⟩ := hfinds types htypes
    exact ⟨by simp [Walk.flat_scoped.body_bodyOf, hstmts, hvalue], hret⟩

theorem StepsRun.finds {c : Context} {s s' : State} {declared : Bool} {stmts : List Stmt}
    {value : Expr} {ret : Option TypeExpr} :
    (st : Steps) → StepsRun c declared st s stmts value ret s' →
      Finds s s' fun types => Walk.scoped.stmts types [] stmts = true ∧
        Walk.scoped.expr types value = true ∧ ret.all (TypeExpr.scoped types) = true
  | .last st, .last hfinal => FinalRun.finds st hfinal
  | .conclude j _, .conclude hj => (JustificationRun.finds j hj).mono fun _ h => ⟨rfl, h, rfl⟩
  | .more st rest, .more hst hrest => by
    refine ((StatementRun.finds st hst).trans (StepsRun.finds rest hrest)).mono ?_
    rintro types ⟨hstmt, hstmts, hvalue, hret⟩
    exact ⟨by simp [Walk.flat_scoped.stmts_cons, hstmt, hstmts], hvalue, hret⟩

theorem FinalRun.finds {c : Context} {s s' : State} {declared : Bool} {stmts : List Stmt}
    {value : Expr} {ret : Option TypeExpr} :
    (st : Statement) → FinalRun c declared st s stmts value ret s' →
      Finds s s' fun types => Walk.scoped.stmts types [] stmts = true ∧
        Walk.scoped.expr types value = true ∧ ret.all (TypeExpr.scoped types) = true
  | .block b, .block hb => (BlockRun.finds b hb).mono fun _ h => ⟨rfl, h, rfl⟩
  | .step claim j loc, .hole _ hj => (JustificationRun.finds j hj).mono fun _ h => ⟨rfl, h, rfl⟩
  | .step claim j loc, .bound _ (.step hhead hj hdeclare) =>
    (constant_finds loc hhead (JustificationRun.finds j hj) hdeclare).mono
      fun _ h => ⟨by simp [Walk.flat_scoped.stmts_cons, h], rfl, rfl⟩
  | .step claim j loc, .returned _ htype hj =>
    ((typeOf_finds htype).trans (JustificationRun.finds j hj)).mono
      fun _ h => ⟨rfl, h.2, by simpa using h.1⟩

theorem StatementRun.finds {c : Context} {s s' : State} {stmt : Stmt} :
    (st : Statement) → StatementRun c st s stmt s' →
      Finds s s' fun types => Walk.scoped.stmt types stmt = true
  | .block b, .block hb => (BlockRun.finds b hb).mono fun _ h => by simpa [Walk.stmt, Walk.expr]
  | .step _ j loc, .step hhead hj hdeclare =>
    constant_finds loc hhead (JustificationRun.finds j hj) hdeclare

theorem JustificationRun.finds {c : Context} {s s' : State} {value : Expr} :
    (j : Justification) → JustificationRun c j s value s' →
      Finds s s' fun types => Walk.scoped.expr types value = true
  | .apply _ _ _, .apply h => application_finds h
  | .block b, .block hb => BlockRun.finds b hb

theorem BlockRun.finds {c : Context} {s s' : State} {value : Expr} :
    (b : Block) → BlockRun c b s value s' → Finds s s' fun types => Walk.scoped.expr types value = true
  | .assume hyps p loc, .assume hnest => by
    obtain ⟨hframes, hscoped⟩ := hnest.scoped (ProofRun.finds p)
    refine ⟨⟨[], by simpa using hframes⟩, ?_⟩
    intro types htypes
    exact hscoped types (hframes ▸ htypes)
  | .generalize vars p loc, .generalize _ hp hunbind => by
    obtain ⟨⟨names, hnames⟩, hfinds⟩ := ProofRun.finds p hp
    rw [Frames.record_bind] at hnames
    obtain rfl := unbindNames_eq_ok hunbind
    have hframes : _ = s.frames.record names := Frames.unbind_bind hnames
    refine ⟨⟨names, hframes⟩, ?_⟩
    intro types htypes
    have hsupplies := Frames.Supplies.bind vars (hframes ▸ htypes)
    obtain ⟨hbody, hret⟩ := hfinds _ (hnames ▸ hsupplies)
    exact scoped_quantify hret hbody

end

theorem TheoremRun.scoped {t : Theorem} {e : Expr} (h : TheoremRun c t s e s') :
    s'.frames = s.frames ∧ ∀ types, s.frames.Supplies types → Walk.scoped.expr types e = true := by
  cases h with
  | @sequent hyps p _ _ _ _ hnest => exact hnest.scoped (ProofRun.finds p)
  | @implication _ _ _ _ body ret tparams _ htype hproof hexit =>
    obtain ⟨hgrows, hfinds⟩ := (typeOf_finds htype).trans (ProofRun.finds t.proof hproof)
    obtain ⟨hs', top, hs, rfl⟩ := exit_of_grows hgrows hexit
    refine ⟨hs', ?_⟩
    intro types htypes
    obtain ⟨hclaim, hbody, -⟩ := hfinds _ (hs ▸ htypes.exit top)
    simp [Walk.expr, TypeExpr.scopedParams, hclaim, hbody]

end Generate

/-! ## Nothing is declared twice -/

/-- The atoms of a proposition that is spelled as it should be are. -/
theorem Formula.Spelled.atoms {f : Formula} (h : f.Spelled) {bound : List String} :
    ∀ a ∈ f.atoms bound, IsTypeVar a := by
  induction f generalizing bound with
  | hole => exact h.elim
  | atom name args loc =>
    intro a ha
    rcases List.mem_cons.mp (List.mem_filter.mp ha).1 with rfl | ha
    · exact h.1
    · exact h.2 a (List.mem_of_head? (by simpa using ha))
  | neg a _ ih => exact ih h
  | conj a b _ iha ihb | disj a b _ iha ihb | impl a b _ iha ihb =>
    intro x hx
    rcases List.mem_append.mp hx with hx | hx
    · exact iha h.1 x hx
    · exact ihb h.2 x hx
  | all vars a _ ih => exact ih h.2

theorem Justification.Spelled.atoms {systemF : Bool} {j : Justification} (h : j.Spelled systemF)
    {bound : List String} : ∀ a ∈ j.atoms bound, IsTypeVar a := by
  cases j with
  | apply rule args loc =>
    intro a ha
    rcases List.mem_flatMap.mp ha with ⟨arg, harg, ha⟩
    have hspelled := h arg harg
    cases arg with
    | fact => cases ha
    | prop f => exact Formula.Spelled.atoms hspelled.1 a ha
  | _ =>
    intro a ha
    cases ha

theorem Statement.Spelled.atoms {systemF : Bool} {st : Statement} (h : st.Spelled systemF)
    {bound : List String} : ∀ a ∈ st.atoms bound, IsTypeVar a := by
  cases st with
  | step claim j loc =>
    intro a ha
    rcases List.mem_append.mp ha with ha | ha
    · rcases h.1 with hhole | hspelled
      · obtain ⟨_, f, _⟩ := claim
        cases f with
        | hole => cases ha
        | _ => cases hhole
      · exact hspelled.1.atoms a ha
    · exact h.2.atoms a ha
  | _ =>
    intro a ha
    cases ha

theorem Steps.Spelled.atoms {systemF : Bool} {bound : List String} (st : Steps)
    (h : st.Spelled systemF) : ∀ a ∈ st.atoms bound, IsTypeVar a := by
  cases st with
  | last _ => exact Statement.Spelled.atoms h
  | conclude _ _ => exact Justification.Spelled.atoms h
  | more _ rest =>
    intro a ha
    rcases List.mem_append.mp ha with ha | ha
    · exact Statement.Spelled.atoms h.1 a ha
    · exact Steps.Spelled.atoms rest h.2 a ha

namespace Frames

/-- The frame on top records the atoms already. -/
def Covers (f : Frames) (names : List String) : Prop := ∀ top ∈ f.frames.head?, names ⊆ top

theorem covers_record (f : Frames) (names : List String) : (f.record names).Covers names := by
  obtain ⟨frames, bound⟩ := f
  cases frames with
  | nil => simp [Covers, record]
  | cons top rest =>
    intro top' htop a ha
    obtain rfl : names.foldl note top = top' := by simpa [record] using htop
    exact mem_foldl_note.mpr (.inr ha)

theorem Covers.append {f : Frames} {names more : List String} (h : f.Covers (names ++ more)) :
    f.Covers names ∧ f.Covers more :=
  ⟨fun top htop _ ha => h top htop (List.mem_append_left _ ha),
    fun top htop _ ha => h top htop (List.mem_append_right _ ha)⟩

theorem Covers.record_eq {f : Frames} {names : List String} (h : f.Covers names) :
    f.record names = f := by
  obtain ⟨frames, bound⟩ := f
  cases frames with
  | nil => rfl
  | cons top rest =>
    have htop : names ⊆ top := h top (by simp)
    simp [record, foldl_note_of_subset htop]

/-- No frame records an atom twice, and all atoms are spelled as they should be. -/
def Tidy (f : Frames) : Prop := ∀ top ∈ f.frames, top.Nodup ∧ ∀ a ∈ top, IsTypeVar a

theorem Tidy.enter {f : Frames} (h : f.Tidy) : f.enter.Tidy := by
  intro top htop
  rcases List.mem_cons.mp htop with rfl | htop
  · simp
  · exact h top htop

theorem Tidy.record {f : Frames} {names : List String} (h : f.Tidy)
    (hnames : ∀ a ∈ names, IsTypeVar a) : (f.record names).Tidy := by
  obtain ⟨frames, bound⟩ := f
  cases frames with
  | nil => exact h
  | cons first rest =>
    intro top htop
    obtain ⟨hnodup, hspelled⟩ := h first (by simp)
    rcases List.mem_cons.mp htop with rfl | htop
    · refine ⟨nodup_foldl_note hnodup, ?_⟩
      intro a ha
      rcases mem_foldl_note.mp ha with ha | ha
      · exact hspelled a ha
      · exact hnames a ha
    · exact h top (by simp [htop])

/-- The type parameters stand for atoms that open frames record. -/
def Only (f : Frames) (types : List String) : Prop :=
  ∀ n ∈ types, ∃ top ∈ f.frames, ∃ a ∈ top, n = escapeTypeVar a

/-- The frame on top declares each of its atoms once, and none that a frame below declares. -/
theorem Tidy.exit {f : Frames} {top types : List String}
    (h : ({ f with frames := top :: f.frames } : Frames).Tidy) (honly : f.Only types) :
    ((own top f.frames).map escapeTypeVar).Nodup ∧
      (∀ n ∈ (own top f.frames).map escapeTypeVar, n ∉ types) ∧
      ({ f with frames := top :: f.frames } : Frames).Only
        ((own top f.frames).map escapeTypeVar ++ types) := by
  obtain ⟨hnodup, hspelled⟩ := h top (by simp)
  have hown : ∀ a ∈ own top f.frames, a ∈ top ∧ ∀ frame ∈ f.frames, a ∉ frame := by
    intro a ha
    simp only [own, List.mem_filter, Bool.not_eq_true', Bool.or_eq_false_iff, decide_eq_false_iff_not,
      List.any_eq_false, decide_eq_true_eq] at ha
    exact ⟨ha.1, ha.2.2⟩
  refine ⟨?_, ?_, ?_⟩
  · refine List.Nodup.map_on ?_ (hnodup.filter _)
    intro a ha b hb heq
    exact escapeTypeVar_inj (hspelled a (hown a ha).1) (hspelled b (hown b hb).1) heq
  · intro n hn hmem
    rcases List.mem_map.mp hn with ⟨a, ha, rfl⟩
    obtain ⟨frame, hframe, b, hb, heq⟩ := honly _ hmem
    obtain rfl := escapeTypeVar_inj (hspelled a (hown a ha).1)
      ((h frame (by simp [hframe])).2 b hb) heq
    exact (hown a ha).2 frame hframe hb
  · intro n hn
    rcases List.mem_append.mp hn with hn | hn
    · rcases List.mem_map.mp hn with ⟨a, ha, rfl⟩
      exact ⟨top, by simp, a, (hown a ha).1, rfl⟩
    · obtain ⟨frame, hframe, ha⟩ := honly n hn
      exact ⟨frame, by simp [hframe], ha⟩

end Frames

namespace Generate

variable {c : Context} {s s' : State}

/-- The frames stay what they are, and what holds of all type parameters that they declare. -/
def Keeps (s s' : State) (P : List String → Prop) : Prop :=
  s'.frames = s.frames ∧ (s.frames.Tidy → ∀ types, s.frames.Only types → P types)

theorem Keeps.trans {mid : State} {P Q : List String → Prop} (h : Keeps s mid P)
    (h' : Keeps mid s' Q) : Keeps s s' fun types => P types ∧ Q types := by
  obtain ⟨hs, hP⟩ := h
  obtain ⟨hs', hQ⟩ := h'
  rw [hs] at hQ
  exact ⟨hs'.trans hs, fun htidy types htypes => ⟨hP htidy types htypes, hQ htidy types htypes⟩⟩

theorem Keeps.mono {P Q : List String → Prop} (h : Keeps s s' P) (hPQ : ∀ types, P types → Q types) :
    Keeps s s' Q :=
  ⟨h.1, fun htidy types htypes => hPQ types (h.2 htidy types htypes)⟩

/-- A step that records what is recorded already. -/
theorem Keeps.of_record {names : List String} {P : List String → Prop}
    (h : s'.frames = s.frames.record names) (hcovers : s.frames.Covers names)
    (hP : ∀ types, P types) : Keeps s s' P :=
  ⟨h.trans hcovers.record_eq, fun _ types _ => hP types⟩

theorem Applied.fresh {ts : List TypeExpr} {places : List Location} {e : Expr}
    (h : Applied ts places e) (types : List String) : Walk.fresh.expr types e = true := by
  induction h with
  | ident => rfl
  | call _ _ _ _ ihfn ihargs => simp [Walk.expr, ihfn, Walk.exprs_eq_empty ihargs]

/-- The arrow of a frame that was opened is fresh if its body is. -/
theorem fresh_arrow {f : Frames} {names tparams : List String} {params : List Param}
    {ret : Option TypeExpr} {body : Body} {o : Option Location}
    (hs : s.frames = f.enter.record names) (hnames : ∀ a ∈ names, IsTypeVar a)
    (hexit : exit c s = (.ok tparams, s'))
    (hbody : s.frames.Tidy → ∀ types, s.frames.Only types → Walk.fresh.body types body = true) :
    s'.frames = f ∧ (f.Tidy → ∀ types, f.Only types →
      Walk.fresh.expr types (Expr.arrow tparams params ret body o) = true) := by
  obtain ⟨hs', top, htop, rfl⟩ := exit_of_grows ⟨names, hs⟩ hexit
  refine ⟨hs', ?_⟩
  intro htidy types hown
  have htidy : s.frames.Tidy := hs ▸ htidy.enter.record hnames
  rw [htop] at htidy hbody
  obtain ⟨hnodup, hdisjoint, honly⟩ := htidy.exit hown
  simpa [Walk.expr, hnodup, hbody htidy _ honly] using hdisjoint

/-- What the hypotheses, the goal and the proof record is spelled as it should be, and nothing is
recorded in the frames below. -/
theorem NestRun.keeps {goal : Option Formula} {p : Proof} {hyps : List Claim} {e : Expr}
    (h : NestRun c goal p hyps s e s') (hhyps : ∀ h ∈ hyps, h.formula.SpelledIn false)
    (hgoal : ∀ g ∈ goal, g.SpelledIn false) (hp : p.Spelled false)
    (hproof : ∀ {s s' body ret}, ProofRun c goal.isSome p s body ret s' →
      s'.frames = s.frames.record (p.steps.atoms s.frames.bound) ∧
      (s'.frames.Tidy → ∀ types, s'.frames.Only types → Walk.fresh.body types body = true)) :
    Keeps s s' fun types => Walk.fresh.expr types e = true := by
  induction hyps generalizing s s' e with
  | nil => cases h
  | cons h₀ rest ih =>
    have hhead : ∀ a ∈ h₀.formula.atoms s.frames.bound, IsTypeVar a := (hhyps h₀ (by simp)).1.atoms
    cases h with
    | @last _ _ _ _ s₁ s₂ s₃ s₄ _ body ret tparams htype hdeclare hrun hbody hexit =>
      obtain ⟨hs₄, hfresh⟩ := hproof hbody
      have hs₂ := (declare_frames hdeclare).trans (typeOf_frames htype).2
      rw [hrun.frames, hs₂, ← Frames.record_append, Frames.record_bound, ← Frames.record_append] at hs₄
      refine fresh_arrow hs₄ ?_ hexit hfresh
      intro a ha
      rw [List.mem_append, List.mem_append] at ha
      rcases ha with ha | ha | ha
      · exact hhead a ha
      · cases goal with
        | none => cases ha
        | some g => exact (hgoal g rfl).1.atoms a ha
      · obtain ⟨st, loc⟩ := p
        exact Steps.Spelled.atoms st hp a ha
    | @more _ _ _ h₁ more _ _ _ _ _ inner tparams htype hdeclare hinner hexit =>
      obtain ⟨hframes, hfresh⟩ := ih hinner fun h hh => hhyps h (List.mem_cons_of_mem _ hh)
      have hs₂ := (declare_frames hdeclare).trans (typeOf_frames htype).2
      rw [← hframes] at hs₂ hfresh
      exact fresh_arrow hs₂ hhead hexit hfresh

/-- A constant is fresh if its value is, and its annotation is recorded already. -/
theorem constant_keeps {claim : Claim} (loc : Location) {s₁ s₂ : State} {value : Expr}
    (hhead : stepHead claim c s = (.ok (claim.binding, claim.annotation), s₁))
    (hcovers : s.frames.Covers (claim.formula.atoms s.frames.bound))
    (hvalue : Keeps s₁ s₂ fun types => Walk.fresh.expr types value = true)
    (hdeclare : declare claim.binding claim.loc c s₂ = (.ok (), s')) :
    Keeps s s' fun types => Walk.fresh.stmt types
      (.const claim.binding claim.annotation value false false none (some loc)) = true := by
  have hs₁ := (stepHead_frames hhead).trans hcovers.record_eq
  obtain ⟨hs₂, hfresh⟩ := hvalue
  rw [hs₁] at hfresh
  refine ⟨(declare_frames hdeclare).trans (hs₂.trans hs₁), ?_⟩
  intro htidy types htypes
  rw [Walk.stmt]
  exact hfresh htidy types htypes

mutual

theorem ProofRun.keeps {c : Context} {s s' : State} {declared : Bool} {body : Body}
    {ret : Option TypeExpr} : (p : Proof) → p.Spelled false → ProofRun c declared p s body ret s' →
      s'.frames = s.frames.record (p.steps.atoms s.frames.bound) ∧
      (s'.frames.Tidy → ∀ types, s'.frames.Only types → Walk.fresh.body types body = true)
  | .mk st _, hp, .steps hrecord hsteps => by
    have hmid := recordSteps_frames st hrecord
    -- From here on, everything on this level is recorded.
    obtain ⟨hs', hfresh⟩ := StepsRun.keeps st hp (hmid ▸ Frames.covers_record _ _) hsteps
    rw [← hs'] at hfresh hmid
    refine ⟨hmid, ?_⟩
    intro htidy types htypes
    obtain ⟨hstmts, hvalue⟩ := hfresh htidy types htypes
    simp [Walk.flat_fresh.body_bodyOf, hstmts, hvalue]

theorem StepsRun.keeps {c : Context} {s s' : State} {declared : Bool} {stmts : List Stmt}
    {value : Expr} {ret : Option TypeExpr} :
    (st : Steps) → st.Spelled false → s.frames.Covers (st.atoms s.frames.bound) →
      StepsRun c declared st s stmts value ret s' →
      Keeps s s' fun types =>
        Walk.fresh.stmts types [] stmts = true ∧ Walk.fresh.expr types value = true
  | .last st, hst, hcovers, .last hfinal => FinalRun.keeps st hst hcovers hfinal
  | .conclude j _, hj, hcovers, .conclude hrun =>
    (JustificationRun.keeps j hj hcovers hrun).mono fun _ h => ⟨rfl, h⟩
  | .more st rest, hst, hcovers, .more hrun hrest => by
    have hfirst := StatementRun.keeps st hst.1 hcovers.append.1 hrun
    have hmore := StepsRun.keeps rest hst.2 (hfirst.1 ▸ hcovers.append.2) hrest
    refine (hfirst.trans hmore).mono ?_
    rintro types ⟨hstmt, hstmts, hvalue⟩
    exact ⟨by simp [Walk.flat_fresh.stmts_cons, hstmt, hstmts], hvalue⟩

theorem FinalRun.keeps {c : Context} {s s' : State} {declared : Bool} {stmts : List Stmt}
    {value : Expr} {ret : Option TypeExpr} :
    (st : Statement) → st.Spelled false → s.frames.Covers (st.atoms s.frames.bound) →
      FinalRun c declared st s stmts value ret s' →
      Keeps s s' fun types =>
        Walk.fresh.stmts types [] stmts = true ∧ Walk.fresh.expr types value = true
  | .block b, hb, _, .block hrun => (BlockRun.keeps b hb hrun).mono fun _ h => ⟨rfl, h⟩
  | .step claim j loc, hst, hcovers, .hole _ hrun =>
    (JustificationRun.keeps j hst.2 hcovers.append.2 hrun).mono fun _ h => ⟨rfl, h⟩
  | .step claim j loc, hst, hcovers, .bound _ (.step hhead hrun hdeclare) => by
    have hs₁ := (stepHead_frames hhead).trans hcovers.append.1.record_eq
    have hvalue := JustificationRun.keeps j hst.2 (hs₁ ▸ hcovers.append.2) hrun
    exact (constant_keeps loc hhead hcovers.append.1 hvalue hdeclare).mono
      fun _ h => ⟨by simp [Walk.flat_fresh.stmts_cons, h], rfl⟩
  | .step claim j loc, hst, hcovers, .returned _ htype hrun => by
    have hs₁ := (typeOf_frames htype).2.trans hcovers.append.1.record_eq
    obtain ⟨hs', hfresh⟩ := JustificationRun.keeps j hst.2 (hs₁ ▸ hcovers.append.2) hrun
    rw [hs₁] at hfresh
    exact ⟨hs'.trans hs₁, fun htidy types htypes => ⟨rfl, hfresh htidy types htypes⟩⟩

theorem StatementRun.keeps {c : Context} {s s' : State} {stmt : Stmt} :
    (st : Statement) → st.Spelled false → s.frames.Covers (st.atoms s.frames.bound) →
      StatementRun c st s stmt s' → Keeps s s' fun types => Walk.fresh.stmt types stmt = true
  | .block b, hb, _, .block hrun =>
    (BlockRun.keeps b hb hrun).mono fun _ h => by simpa [Walk.stmt, Walk.expr]
  | .step _ j _, hst, hcovers, .step hhead hrun hdeclare => by
    have hs₁ := (stepHead_frames hhead).trans hcovers.append.1.record_eq
    have hvalue := JustificationRun.keeps j hst.2 (hs₁ ▸ hcovers.append.2) hrun
    exact constant_keeps _ hhead hcovers.append.1 hvalue hdeclare

theorem JustificationRun.keeps {c : Context} {s s' : State} {value : Expr} :
    (j : Justification) → j.Spelled false → s.frames.Covers (j.atoms s.frames.bound) →
      JustificationRun c j s value s' → Keeps s s' fun types => Walk.fresh.expr types value = true
  | .apply _ _ _, _, hcovers, .apply h =>
    .of_record (application_frames h) hcovers (application_applied h).fresh
  | .block b, hb, _, .block hrun => BlockRun.keeps b hb hrun

theorem BlockRun.keeps {c : Context} {s s' : State} {value : Expr} :
    (b : Block) → b.Spelled false → BlockRun c b s value s' →
      Keeps s s' fun types => Walk.fresh.expr types value = true
  | .assume hyps p loc, hb, .assume hnest =>
    hnest.keeps hb.1 (by simp) hb.2 (ProofRun.keeps p hb.2)
  | .generalize vars p loc, hb, _ => absurd hb.1 Bool.false_ne_true

end

theorem TheoremRun.keeps {t : Theorem} {e : Expr} (ht : t.Spelled false)
    (h : TheoremRun c t s e s') : Keeps s s' fun types => Walk.fresh.expr types e = true := by
  cases h with
  | @sequent hyps p _ _ _ hsequent hnest =>
    obtain ⟨hhyps, hp⟩ := ht.sequent hsequent
    exact hnest.keeps hhyps (by simpa using ht.1) hp (ProofRun.keeps p hp)
  | @implication _ _ _ _ body ret tparams _ htype hproof hexit =>
    obtain ⟨hs₂, hfresh⟩ := ProofRun.keeps t.proof ht.2 hproof
    rw [(typeOf_frames htype).2, ← Frames.record_append] at hs₂
    refine fresh_arrow hs₂ ?_ hexit hfresh
    intro a ha
    rcases List.mem_append.mp ha with ha | ha
    · exact ht.1.1.atoms a ha
    · obtain ⟨claim, ⟨st, loc⟩, at_⟩ := t
      exact Steps.Spelled.atoms st ht.2 a ha

/-! ## Theorems -/

theorem scoped_decl {t : Theorem} {arrow : Expr} {types : List String}
    (h : Walk.scoped.expr types arrow = true) : Walk.scoped.stmt types (t.decl arrow) = true := by
  unfold Theorem.decl
  split
  · exact h
  · simpa [Walk.stmt] using h

theorem fresh_decl {t : Theorem} {arrow : Expr} {types : List String}
    (h : Walk.fresh.expr types arrow = true) : Walk.fresh.stmt types (t.decl arrow) = true := by
  unfold Theorem.decl
  split
  · exact h
  · exact h

/-- The declarations of theorems mention no type that is not declared, and declare none twice where
there are no generalizations. -/
theorem scoped_theoremDecls {ts : List Theorem} {decls : List Stmt} {systemF : Bool}
    (hts : ∀ t ∈ ts, t.Spelled systemF) (hs : s.frames = .empty)
    (h : theoremDecls ts c s = (.ok decls, s')) :
    ∀ st ∈ decls, Walk.scoped.stmt [] st = true ∧ (systemF = false → Walk.fresh.stmt [] st = true) := by
  induction ts generalizing s decls with
  | nil =>
    obtain ⟨rfl, -⟩ := pure_eq_ok.mp h
    simp
  | cons t rest ih =>
    obtain ⟨decl, more, mid, rfl, hdecl, -, hmore⟩ := theoremDecls_cons_eq_ok h
    obtain ⟨arrow, last, hrun, rfl, hmid⟩ := theoremDecl_eq_ok hdecl
    obtain ⟨hlast, hscoped⟩ := hrun.scoped
    refine List.forall_mem_cons.mpr ⟨⟨?_, ?_⟩, ?_⟩
    · have hsupplies : Frames.empty.Supplies [] := by
        rintro a (ha | ⟨_, ha, -⟩)
        · cases ha
        · cases ha
      exact scoped_decl (hscoped [] (hs ▸ hsupplies))
    · intro hpropositional
      have htidy : Frames.empty.Tidy := fun _ htop => by cases htop
      have honly : Frames.empty.Only [] := fun _ hn => by cases hn
      have hfresh := (hrun.keeps (hpropositional ▸ hts t (by simp))).2
      exact fresh_decl (hfresh (hs ▸ htidy) [] (hs ▸ honly))
    · exact ih (fun u hu => hts u (by simp [hu])) (hmid.frames.trans (hlast.trans hs)) hmore

end Generate

/-- Where a script compiles, every type that its theorems mention is a type of the library or a type
parameter of a binder around. In propositional mode, no arrow declares a type parameter twice, nor
one that an arrow around it declares. -/
theorem compile_scoped {src : List UInt8} {systemF : Bool} {c : Compilation}
    (h : (compile src systemF).1 = .ok c) :
    ∀ st ∈ c.decls, Walk.scoped.stmt [] st = true ∧
      (systemF = false → Walk.fresh.stmt [] st = true) := by
  obtain ⟨s, hparse, hgenerate, -⟩ := compile_eq_ok h
  exact Generate.scoped_theoremDecls (theorems_spelled hparse) rfl hgenerate

/-- A block with two hypotheses inside another one, and a block with an atom of its own. -/
theorem compile_scoped_blocks :
    ∃ c, (compile (Text.bytes "theorem t : P => (Q => R & P)
      assume p : P \x7b
        have k : _ by assume q : Q, r : R \x7b have R & P by andIntro r, p; \x7d
        have m : _ by assume s : S \x7b have S by s; \x7d
        by k;
      \x7d") false).1 = .ok c ∧
    ∃ st ∈ c.decls, Walk.scoped.stmt [] st = true ∧ Walk.fresh.stmt [] st = true := by
  generalize hsrc : Text.bytes _ = src
  have hdecls : (compile src false).1.toOption.any (fun c => !c.decls.isEmpty) = true := by
    rw [← hsrc]
    decide +kernel
  obtain ⟨c, h, hne⟩ := exists_ok_of_any hdecls
  have hne : c.decls ≠ [] := by simpa using hne
  obtain ⟨st, rest, hst⟩ := List.exists_cons_of_ne_nil hne
  have hmem : st ∈ c.decls := by simp [hst]
  have hscoped := compile_scoped h st hmem
  exact ⟨c, h, st, hmem, hscoped.1, hscoped.2 rfl⟩

end ProofScript
