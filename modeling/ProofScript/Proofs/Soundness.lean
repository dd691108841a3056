import ProofScript.Proofs.Checking.Sound
import ProofScript.Proofs.Emission

/-!
# Checked theorems are valid

The arrow of a theorem is checked where its hypotheses are assumed and its atoms are constants. So
what an assignment says of the atoms gives an interpretation in which the claim follows from the
hypotheses. Trusted rules of the library are valid at their signatures, derived rules are checked.

Predicates may be read in any way that respects implication. The checker takes this for granted: a
type may be put in the place of another one below a predicate, too.
-/

namespace ProofScript

open Program Stateful

/-! ## Arrows of theorems -/

namespace Checker

variable {Γ : List Ty} {k : Roles} {s s' : State}

/-- The interpretation makes the hypotheses true, and its constants are what an assignment says of
their atoms. -/
structure Reading (Γ : List Ty) (v : String → Sense) (ρ : Valuation) : Prop where
  truth : (v "True").1
  falsity : v "False" = ⊥
  consts : ρ.consts = (Valuation.ofAssignment v).consts
  hyps : ∀ h ∈ Γ, h.holds ρ

theorem Reading.assume {v : String → Sense} {ρ : Valuation} {t : Ty} (h : Reading Γ v ρ)
    (ht : t.holds ρ) : Reading (t :: Γ) v ρ where
  truth := h.truth
  falsity := h.falsity
  consts := h.consts
  hyps := by
    intro u hu
    rcases List.mem_cons.mp hu with rfl | hu
    · exact ht
    · exact h.hyps u hu

/-- The type of an annotated proposition says what the assignment says of the proposition. -/
theorem Reading.holds {v : String → Sense} {ρ : Valuation} (h : Reading Γ v ρ) {Δ : List Ty}
    {sc : Scope} (hsc : Scoped Δ k s sc) (hnames : ∀ b ∈ sc.types, ∃ a, b.1 = escapeTypeVar a)
    {f : Formula} (hf : f.Spelled) {t : Ty} (ht : Reads sc.types f.typeExpr k s t) :
    t.holds ρ ↔ f.holdsIn v := by
  have hagrees : Agrees ρ.truth (reading sc.types ρ) v := by
    refine agrees_reading ?_ h.consts h.truth h.falsity
    intro b hb
    rcases hsc.types b hb with ⟨i, hi, -⟩
    exact ⟨hnames b hb, i, hi⟩
  have hfst : (reading sc.types ρ).map Prod.fst = sc.types.map Prod.fst := by
    rw [reading, List.map_map]
    rfl
  rw [Ty.holds, ht.sense]
  refine sense_typeExpr hf hagrees ?_
  rw [hfst]
  exact ht.known

theorem Opened.names_escaped {sc inner : Scope} {tparams : List String} {params : List Param}
    {ret : Option TypeExpr} {gs : List Generic} {args : List Ty} {expected : Option Ty} {k' : Roles}
    (h : Opened Γ k s sc tparams params ret gs args expected k' s' inner)
    (htparams : ∀ n ∈ tparams, ∃ a, n = escapeTypeVar a)
    (hnames : ∀ b ∈ sc.types, ∃ a, b.1 = escapeTypeVar a) :
    ∀ b ∈ inner.types, ∃ a, b.1 = escapeTypeVar a := by
  intro b hb
  rw [h.types] at hb
  rcases List.mem_append.mp hb with hb | hb
  · rcases List.mem_map.mp (List.mem_reverse.mp hb) with ⟨g, hg, rfl⟩
    refine htparams g.1 ?_
    rw [← h.names]
    exact List.mem_map_of_mem (f := Prod.fst) hg
  · exact hnames b hb

/-- Where the body of an arrow returns the type of a claim, the claim follows from the types of the
parameters. -/
theorem Opened.claim {sc inner : Scope} {tparams : List String} {params : List Param}
    {claim : Formula} {gs : List Generic} {args : List Ty} {expected : Option Ty} {k₁ k₂ : Roles}
    {s₁ : State} {r : Ty}
    (h : Opened Γ k s sc tparams params (some claim.typeExpr) gs args expected k₁ s₁ inner)
    (hnames : ∀ b ∈ inner.types, ∃ a, b.1 = escapeTypeVar a) (hclaim : claim.Spelled)
    (hresult : Proves (args ++ Γ) k₂ s' (expected.getD r)) {v : String → Sense} {ρ : Valuation}
    (hρ : s'.unifier.subst.Solves ρ) (hreading : Reading (args ++ Γ) v ρ) : claim.holdsIn v := by
  rcases h.ret.exists_cons with ⟨want, rest, hexpected, hreads, hrest⟩
  obtain rfl : rest = [] := List.length_eq_zero_iff.mp hrest.length
  have hwant : expected = some want := by
    cases expected with
    | none => cases hexpected
    | some u =>
      cases hexpected
      rfl
  rw [hwant, Option.getD_some] at hresult
  rw [← hreading.holds h.inScope hnames hclaim hreads]
  exact hresult.holds ρ hρ hreading.hyps

/-- The type of a parameter may be assumed where its proposition holds. -/
theorem Opened.assume {sc inner : Scope} {tparams : List String} {p : Param}
    {ret : Option TypeExpr} {f : Formula} {gs : List Generic} {args : List Ty}
    {expected : Option Ty} {k' : Roles}
    (h : Opened Γ k s sc tparams [p] ret gs args expected k' s' inner)
    (hnames : ∀ b ∈ inner.types, ∃ a, b.1 = escapeTypeVar a) (hp : p.2 = f.typeExpr)
    (hf : f.Spelled) {v : String → Sense} {ρ : Valuation} (hreading : Reading Γ v ρ)
    (hholds : f.holdsIn v) : Reading (args ++ Γ) v ρ := by
  rcases h.params.exists_cons with ⟨a, rest, rfl, hreads, hrest⟩
  obtain rfl : rest = [] := List.length_eq_zero_iff.mp hrest.length
  rw [hp] at hreads
  refine hreading.assume ?_
  rw [hreading.holds h.inScope hnames hf hreads]
  exact hholds

open Generate in
/-- The arrow of a theorem that is accepted proves its claim from its hypotheses. -/
theorem curried_sound {claim : Formula} {ts : List TypeExpr} {e : Expr}
    (hcurried : Curried claim.typeExpr ts e) (hclaim : claim.Spelled) {hyps : List Formula}
    (hts : ts = hyps.map Formula.typeExpr) (hhyps : ∀ f ∈ hyps, f.Spelled)
    (hplain : e.plain = true) {sc : Scope} {n : Nat} {t : Ty} (h : s.unifier.Regular k)
    (hsc : Scoped Γ k s sc) (hnames : ∀ b ∈ sc.types, ∃ a, b.1 = escapeTypeVar a)
    (hrun : infer sc n e s = (.ok t, s')) (haccepted : Accepted s') {v : String → Sense}
    {ρ : Valuation} (hρ : s'.unifier.subst.Solves ρ) (hreading : Reading Γ v ρ)
    (hholds : ∀ f ∈ hyps, f.holdsIn v) : claim.holdsIn v := by
  induction hcurried generalizing Γ k s sc n t hyps with
  | @thunk tparams body o htparams =>
    simp only [Expr.plain, Bool.and_eq_true] at hplain
    rcases infer_arrow h hsc hplain.1.1 hplain.1.2 hrun haccepted.clean with
      ⟨gs, args, expected, k₁, s₁, inner, r, hopened, hbody, -⟩
    rcases body_sound hopened.progress.regular hopened.inScope haccepted hopened.expected body
      hplain.2 hbody with ⟨k₂, -, hresult⟩
    obtain rfl : args = [] := List.length_eq_zero_iff.mp hopened.params.length
    exact hopened.claim (hopened.names_escaped htparams hnames) hclaim hresult hρ hreading
  | @last tparams p body o htparams =>
    simp only [Expr.plain, Bool.and_eq_true] at hplain
    rcases infer_arrow h hsc hplain.1.1 hplain.1.2 hrun haccepted.clean with
      ⟨gs, args, expected, k₁, s₁, inner, r, hopened, hbody, -⟩
    rcases body_sound hopened.progress.regular hopened.inScope haccepted hopened.expected body
      hplain.2 hbody with ⟨k₂, -, hresult⟩
    have hinner := hopened.names_escaped htparams hnames
    obtain ⟨f, rfl⟩ : ∃ f, hyps = [f] :=
      List.length_eq_one_iff.mp (by simpa using (congrArg List.length hts).symm)
    have hassumed := hopened.assume hinner (List.cons.inj hts).1 (hhyps f (by simp)) hreading
      (hholds f (by simp))
    exact hopened.claim hinner hclaim hresult hρ hassumed
  | @more tparams p ts e o htparams _ ih =>
    simp only [Expr.plain, Bool.and_eq_true] at hplain
    rcases infer_arrow h hsc hplain.1.1 hplain.1.2 hrun haccepted.clean with
      ⟨gs, args, expected, k₁, s₁, inner, r, hopened, hbody, -⟩
    have hinner := hopened.names_escaped htparams hnames
    obtain rfl : expected = none := by
      cases expected with
      | none => rfl
      | some want => cases hopened.ret.length
    obtain ⟨u, s₂, hu, hbody⟩ := bind_eq_ok.mp hbody
    obtain ⟨rfl, rfl⟩ := pure_eq_ok.mp hbody
    match hyps, hts with
    | f :: rest, hts =>
      have hassumed := hopened.assume hinner (List.cons.inj hts).1 (hhyps f (by simp)) hreading
        (hholds f (by simp))
      exact ih (List.cons.inj hts).2 (fun g hg => hhyps g (by simp [hg])) hplain.2
        hopened.progress.regular hopened.inScope hinner hu hassumed fun g hg =>
          hholds g (by simp [hg])

/-! ## Files -/

/-- The statement is checked, or trusted at a signature that is valid. -/
inductive Warranted : Stmt → Prop
  | checked {st} (hplain : st.plain = true) : Warranted st
  | trusted {name type value declare sig o} (hplain : sig.plain = true)
      (hvalid : ∀ truth : Sense, truth.1 → (sig.sense truth []).1) :
      Warranted (.const name type value declare true (some sig) o)

/-- A statement of a file that is accepted leaves a scope whose types hold. -/
theorem warranted_sound {sc sc' : Scope} {n : Nat} {st : Stmt} (h : s.unifier.Regular k)
    (hsc : Scoped [] k s sc) (htypes : sc.types = []) (hst : Warranted st)
    (hrun : stmt sc n st s = (.ok sc', s')) (haccepted : Accepted s') :
    ∃ k', Progress k s k' s' ∧ Scoped [] k' s' sc' ∧ sc'.types = [] := by
  cases hst with
  | checked hplain =>
    rw [← htypes]
    exact stmt_sound h hsc haccepted st hplain hrun
  | @trusted name type value declare sig o hplain hvalid =>
    obtain ⟨t, s₁, ht, hrun⟩ := bind_eq_ok.mp hrun
    obtain ⟨rfl, rfl⟩ := declare_eq_ok hrun haccepted.clean
    rcases toType_sound h hsc.supported haccepted.clean sig hplain ht with ⟨k₁, hprogress, hreads⟩
    refine ⟨k₁, hprogress, (hprogress.scoped hsc).declare ⟨⟨hreads.shaped, ?_⟩, ?_⟩, htypes⟩
    · simp [hsc.closed hreads.free]
    · intro ρ _ _
      rw [Ty.holds, hreads.sense, htypes]
      exact hvalid _ (.inl ⟨rfl, rfl⟩)

/-- A declaration of a theorem that is accepted proves it. -/
theorem declares_sound {sc sc' : Scope} {n : Nat} {st : Stmt} {t : Theorem}
    (h : s.unifier.Regular k) (hsc : Scoped [] k s sc) (htypes : sc.types = [])
    (hst : Generate.Declares t st) (hclaim : t.claim.formula.Spelled)
    (hhyps : ∀ f ∈ t.hypotheses, f.Spelled) (hrun : stmt sc n st s = (.ok sc', s'))
    (haccepted : Accepted s') : t.ValidFor Monotone := by
  rcases hst with ⟨hplain, e, o, hcurried, hst⟩
  obtain ⟨m, u, hinfer, heplain⟩ : ∃ m u, infer sc m e s = (.ok u, s') ∧ e.plain = true := by
    rcases hst with rfl | ⟨name, rfl⟩
    · obtain ⟨u, s₁, hu, hrun⟩ := bind_eq_ok.mp hrun
      obtain ⟨-, rfl⟩ := pure_eq_ok.mp hrun
      exact ⟨_, u, hu, hplain⟩
    · obtain ⟨u, s₁, hu, hrun⟩ := bind_eq_ok.mp hrun
      obtain ⟨_, s₂, hresolve, hrun⟩ := bind_eq_ok.mp hrun
      obtain ⟨-, rfl⟩ := resolve_eq_ok hresolve
      obtain ⟨-, rfl⟩ := declare_eq_ok hrun haccepted.clean
      exact ⟨_, u, hu, by simpa [Stmt.plain] using hplain⟩
  rcases infer_sound h hsc haccepted e heplain hinfer with ⟨k₁, hprogress, -⟩
  intro v P hP htrue hfalse hempty hholds
  let w : String → Sense := fun a => (v a, ⟨P a, hP a⟩)
  have hw : w "False" = ⊥ := by
    refine Prod.ext (propext ⟨hfalse, False.elim⟩) (OrderHom.ext _ _ (funext fun p => ?_))
    exact propext ⟨hempty p, False.elim⟩
  rcases hprogress.regular.subst.acyclic.exists_solution (.ofAssignment w) with
    ⟨ρ, hρ, hconsts, -⟩
  have hreading : Reading [] w ρ := ⟨htrue, hw, hconsts, by simp⟩
  exact curried_sound hcurried hclaim rfl hhyps heplain h hsc (by simp [htypes]) hinfer haccepted hρ
    hreading hholds

/-- A type declaration changes no binding, and any other statement is checked. -/
theorem file_cons_eq_ok {sc : Scope} {n : Nat} {st : Stmt} {rest : List Stmt} {u : Unit}
    (hrun : file sc n (st :: rest) s = (.ok u, s')) (hclean : s'.findings = []) :
    (∃ name tparams te aliases, st = .typeAlias name tparams te ∧
      file sc (n + 1) rest { s with aliases := aliases } = (.ok u, s')) ∨
    ∃ after mid, stmt sc n st s = (.ok after, mid) ∧
      file after (n + st.count) rest mid = (.ok u, s') := by
  cases st with
  | typeAlias name tparams te =>
    refine .inl ⟨name, tparams, te, ?_⟩
    rw [file] at hrun
    cases harity : aliasArity? name with
    | none =>
      simp only [harity] at hrun
      obtain ⟨_, mid, hobject, hrun⟩ := bind_eq_ok.mp hrun
      have hmid : mid.findings = [] := clean_before (file_grows _ _ rest) hrun hclean
      exact absurd hmid (object_not_clean hobject)
    | some arity =>
      simp only [harity] at hrun
      obtain ⟨_, mid, hmodify, hrun⟩ := bind_eq_ok.mp hrun
      obtain rfl := modify_eq_ok.mp hmodify
      exact ⟨_, rfl, hrun⟩
  | missing => exact .inr (bind_eq_ok.mp hrun)
  | const => exact .inr (bind_eq_ok.mp hrun)
  | expr => exact .inr (bind_eq_ok.mp hrun)
  | ret => exact .inr (bind_eq_ok.mp hrun)

/-- Every theorem that a file declares is valid, if the file is accepted and all its statements are
checked or valid. -/
theorem file_sound {sc : Scope} {n : Nat} {stmts : List Stmt} (h : s.unifier.Regular k)
    (hsc : Scoped [] k s sc) (htypes : sc.types = []) (hstmts : ∀ st ∈ stmts, Warranted st)
    (hrun : file sc n stmts s = (.ok (), s')) (haccepted : Accepted s') {st : Stmt}
    (hst : st ∈ stmts) {t : Theorem} (hdeclares : Generate.Declares t st) (hclaim : t.claim.formula.Spelled)
    (hhyps : ∀ f ∈ t.hypotheses, f.Spelled) : t.ValidFor Monotone := by
  induction stmts generalizing k s sc n with
  | nil => cases hst
  | cons first rest ih =>
    have hrest : ∀ st ∈ rest, Warranted st := fun st hst => hstmts st (by simp [hst])
    rcases file_cons_eq_ok hrun haccepted.clean with
      ⟨name, tparams, te, aliases, rfl, hfile⟩ | ⟨after, mid, hstmt, hfile⟩
    · rcases List.mem_cons.mp hst with rfl | hst
      · rcases hdeclares with ⟨-, e, o, -, hst | ⟨name, hst⟩⟩
        · cases hst
        · cases hst
      · have hprogress : Progress k s k { s with aliases := aliases } :=
          ⟨fun _ _ => rfl, .refl _, h⟩
        exact ih hprogress.regular (hprogress.scoped hsc) htypes hrest hfile hst
    · have hmid := accepted_before (file_grows _ _ rest) hfile haccepted
      rcases List.mem_cons.mp hst with rfl | hst
      · exact declares_sound h hsc htypes hdeclares hclaim hhyps hstmt hmid
      · rcases warranted_sound h hsc htypes (hstmts first (by simp)) hstmt hmid with
          ⟨k', hprogress, hafter, htypes'⟩
        exact ih hprogress.regular hafter htypes' hrest hfile hst

end Checker

namespace Library

open Checker

/-! ## Rules of the library -/

theorem sense_fnType_nil (p : Param) (ret : TypeExpr) (truth : Sense)
    (env : List (String × Sense)) : (fnType [] p ret).sense truth env =
      .ofProp ((p.2.sense truth env).1 → (ret.sense truth env).1) := by
  rw [fnType, TypeExpr.sense]
  refine congrArg Sense.ofProp (propext ⟨?_, ?_⟩)
  · intro h hp
    refine h [] rfl ?_
    intro q hq
    rw [List.mem_singleton.mp hq]
    exact hp
  · intro h ps hps
    obtain rfl : ps = [] := List.length_eq_zero_iff.mp hps
    intro inner hparams
    exact h (hparams _ (by simp [TypeExpr.paramSenses, inner]))

theorem sense_fnType_cons (x : String) (tparams : List String) (p : Param) (ret : TypeExpr)
    (truth : Sense) (env : List (String × Sense)) : (fnType (x :: tparams) p ret).sense truth env =
      .ofProp (∀ a : Sense, ((fnType tparams p ret).sense truth ((x, a) :: env)).1) := by
  rw [fnType, TypeExpr.sense]
  refine congrArg Sense.ofProp (propext ⟨?_, ?_⟩)
  · intro h a
    rw [fnType, TypeExpr.sense]
    intro ps hps
    have ha := h (a :: ps) (by simp [hps])
    simpa using ha
  · intro h ps hps
    match ps, hps with
    | a :: ps, hps =>
      have ha := h a
      rw [fnType, TypeExpr.sense] at ha
      have hps' := ha ps (Nat.succ.inj hps)
      simpa using hps'

/-- Every rule but the one that proves anything is checked, or trusted at a signature that is
valid. -/
theorem warranted_all : ∀ p ∈ all, p.name = "sorry" ∨ Warranted p.decl := by
  have hchecked : ∀ p ∈ types ++ derivedRules ++ aliases, p.decl.plain = true := by
    decide
  have htrusted : ∀ p ∈ trustedRules, p.name = "sorry" ∨ Warranted p.decl := by
    simp only [trustedRules, List.forall_mem_cons]
    refine ⟨.inr (.trusted rfl ?_), .inr (.trusted rfl ?_), .inr (.trusted rfl ?_),
      .inr (.trusted rfl ?_), .inr (.trusted rfl ?_), .inr (.trusted rfl ?_), .inr (.trusted rfl ?_),
      .inr (.trusted rfl ?_), .inr (.trusted rfl ?_), .inr (.trusted rfl ?_), .inl trivial, by simp⟩
    all_goals
      intro truth htruth
      simp only [sense_fnType_nil, sense_fnType_cons, ty, andType, orType, implType, TypeExpr.sense,
        TypeExpr.senses, List.lookup_cons, List.lookup_nil, String.reduceBEq, Option.getD_some,
        Option.getD_none, aliasSense_true, aliasSense_false, aliasSense_and, aliasSense_or, aliasSense_impl,
        Sense.ofProp_fst, Prod.fst_bot]
    all_goals tauto
  intro p hp
  simp only [all, List.mem_append] at hp
  rcases hp with ((hp | hp) | hp) | hp
  · exact .inr (.checked (hchecked p (by simp [hp])))
  · exact htrusted p hp
  · exact .inr (.checked (hchecked p (by simp [hp])))
  · exact .inr (.checked (hchecked p (by simp [hp])))

/-- No rule requires the one that proves anything. -/
theorem unproved_of_reach {depth : Nat} {name : String} (h : "sorry" ∈ reach depth name) :
    name = "sorry" := by
  have hrequires : ∀ p ∈ all, "sorry" ∉ p.requires := by decide
  induction depth generalizing name with
  | zero => exact (List.mem_singleton.mp h).symm
  | succ depth ih =>
    rw [reach] at h
    rcases List.mem_cons.mp h with h | h
    · exact h.symm
    · rcases List.mem_flatMap.mp h with ⟨required, hmem, hreach⟩
      obtain rfl := ih hreach
      cases hfind : find? name with
      | none => simp [hfind] at hmem
      | some p =>
        rw [hfind] at hmem
        exact absurd hmem (hrequires p (List.mem_of_find?_eq_some hfind))

/-- The declarations of a program that uses no rule that proves anything are checked or valid. -/
theorem warranted_select {used : List String} {systemF : Bool} (hused : "sorry" ∉ used) :
    ∀ st ∈ (select used systemF).map Primitive.decl, Warranted st := by
  intro st hst
  rcases List.mem_map.mp hst with ⟨p, hp, rfl⟩
  rcases List.mem_filter.mp hp with ⟨hall, hkeep⟩
  rcases warranted_all p hall with hname | hwarranted
  · have hkind : ∀ p ∈ all, p.name = "sorry" → p.kind ≠ .typeDecl := by decide
    have hreached : p.name ∈ used.flatMap (reach all.length) := by
      simpa [hkind p hall hname] using (Bool.and_eq_true_iff.mp hkeep).2
    rcases List.mem_flatMap.mp hreached with ⟨name, hmem, hreach⟩
    rw [hname] at hreach
    rw [unproved_of_reach hreach] at hmem
    exact absurd hmem hused
  · exact hwarranted

end Library

/-! ## Scripts -/

/-- The start of a file is regular, and nothing is in scope. -/
theorem Checker.regular_empty : Unifier.empty.Regular fun _ => .flexible where
  subst :=
    { acyclic := ⟨[], Nat.le_refl _, fun _ h => absurd rfl h, trivial⟩
      fits := fun _ _ h => by cases h }
  fresh _ _ := rfl
  nonneg := Int.le_refl _

theorem Checker.scoped_empty {n : Nat} : Scoped [] (fun _ => .flexible) (.empty n) .empty where
  hyps := by simp
  values := by simp [Scope.empty, TyEnv.empty]
  types := by simp [Scope.empty]

/-- A program without diagnostics is checked to its end and without objections. -/
theorem Checker.outcome_of_check {p : Printed} {n : Nat} (h : p.check? n = some (.ok [])) :
    ∃ s, outcome n p.stmts = (.ok (), s) ∧ s.findings = [] := by
  obtain ⟨r, hfound, hr⟩ := Option.map_eq_some_iff.mp h
  cases r with
  | error g => cases hr
  | ok fs =>
    obtain rfl := List.map_eq_nil_iff.mp (Except.ok.inj hr)
    exact findings?_eq_ok.mp hfound

/-- A rule that raises a warning is used only where the warning is raised. -/
theorem unproved_not_mem_used {src : List UInt8} {systemF : Bool} {c : Compilation}
    (h : (compile src systemF).1 = .ok c)
    (hwarnings : ∀ w ∈ c.warnings, w.message ≠ "proof uses sorry") : "sorry" ∉ c.used := by
  rcases compile_eq_ok h with ⟨s, -, hgenerate, hused, hkept, -⟩
  intro hmem
  have hcandid : Generate.Candid s :=
    (Generate.theoremDecls_emits _ _ _ _ _ hgenerate).2 fun _ hname => by cases hname
  rw [hused] at hmem
  rw [hkept] at hwarnings
  obtain ⟨p, hfind, hmessage⟩ : ∃ p, Library.find? "sorry" = some p ∧
      p.warning = some "proof uses sorry" := ⟨_, rfl, rfl⟩
  rcases hcandid _ hmem p hfind _ hmessage with ⟨w, hw, heq⟩
  exact hwarnings w hw heq

/-- All statements of a program that leaves no proof out are checked or valid, and the program
declares every theorem of its document. -/
theorem warranted_of_compile {src : List UInt8} {systemF : Bool} {c : Compilation}
    (h : (compile src systemF).1 = .ok c)
    (hwarnings : ∀ w ∈ c.warnings, w.message ≠ "proof uses sorry") :
    (∀ st ∈ c.program.stmts, Checker.Warranted st) ∧
      ∀ t ∈ c.document.theorems, ∃ st ∈ c.program.stmts, Generate.Declares t st ∧
        t.claim.formula.Spelled ∧ ∀ f ∈ t.hypotheses, f.Spelled := by
  have hunproved := unproved_not_mem_used h hwarnings
  rcases compile_eq_ok h with ⟨s, hparse, hgenerate, hused, -, hprimitives, hstmts⟩
  rcases (Generate.theoremDecls_emits _ _ _ _ _ hgenerate).1 with ⟨hplain, hdeclared⟩
  rw [hstmts]
  refine ⟨?_, ?_⟩
  · intro st hst
    rcases List.mem_append.mp hst with hst | hst
    · rw [hprimitives, ← hused] at hst
      exact Library.warranted_select hunproved st hst
    · exact .checked (hplain st hst)
  · intro t ht
    rcases hdeclared t ht with ⟨st, hst, hdeclares⟩
    exact ⟨st, List.mem_append_right _ hst, hdeclares, spelled_of_parse hparse t ht⟩

/-- Every theorem of a script is valid if the script compiles, no proof is left out, its program is
accepted within some depth, and all types that the checker took for equal are equal up to bound variables.
Only the last condition is not checked. -/
theorem valid_of_check {src : List UInt8} {systemF : Bool} {c : Compilation} {n : Nat}
    (hcompile : (compile src systemF).1 = .ok c)
    (hwarnings : ∀ w ∈ c.warnings, w.message ≠ "proof uses sorry")
    (hcheck : c.program.check? n = some (.ok []))
    (hequal : ∀ p ∈ (Checker.outcome n c.program.stmts).2.unifier.equated, p.1.alphaEq [] p.2 = true)
    {t : Theorem} (ht : t ∈ c.document.theorems) (hclaim : t.claim.formula.propositional = true)
    (hhyps : ∀ f ∈ t.hypotheses, f.propositional = true) : t.Valid := by
  rcases warranted_of_compile hcompile hwarnings with ⟨hwarranted, hdeclared⟩
  rcases hdeclared t ht with ⟨st, hst, hdeclares, hspelled, hspelledHyps⟩
  rcases Checker.outcome_of_check hcheck with ⟨s', hrun, hclean⟩
  rw [hrun] at hequal
  have hvalid := Checker.file_sound Checker.regular_empty Checker.scoped_empty rfl hwarranted hrun
    ⟨hclean, hequal⟩ hst hdeclares hspelled hspelledHyps
  exact hvalid.valid monotone_const hclaim hhyps

/-- A conjunction that is taken apart and put together the other way round. -/
theorem valid_of_check_swap :
    ∃ c, (compile (Text.bytes "theorem t : Q & P
      assume h : P & Q \x7b
      have p : P by andElimLeft h;
      have q : Q by andElimRight h;
      by andIntro q, p; \x7d") false).1 = .ok c ∧
    ∃ t ∈ c.document.theorems, t.hypotheses ≠ [] ∧ t.Valid := by
  generalize hsrc : Text.bytes _ = src
  have haccepted : (compile src false).1.toOption.any (fun c =>
      c.warnings.isEmpty && ((c.program.check? 2).any fun r => r.toOption.any List.isEmpty) &&
      (Checker.outcome 2 c.program.stmts).2.unifier.equated.all (fun p => p.1.alphaEq [] p.2) &&
      c.document.theorems.any fun t => t.claim.formula.propositional &&
        t.hypotheses.all Formula.propositional && !t.hypotheses.isEmpty) = true := by
    rw [← hsrc]
    decide +kernel
  obtain ⟨c, h, hc⟩ := exists_ok_of_any haccepted
  simp only [Bool.and_eq_true, List.any_eq_true, List.all_eq_true, Bool.not_eq_true',
    List.isEmpty_iff, List.isEmpty_eq_false_iff] at hc
  obtain ⟨⟨⟨hwarnings, hcheck⟩, hequal⟩, t, ht, ⟨hclaim, hhyps⟩, hne⟩ := hc
  obtain ⟨ds, hcheck, hnil⟩ := exists_some_ok_of_any hcheck
  obtain rfl := List.isEmpty_iff.mp hnil
  exact ⟨c, h, t, ht, hne, valid_of_check h (by simp [hwarnings]) hcheck hequal ht hclaim hhyps⟩

end ProofScript
