import ProofScript.Proofs.Checking.Preamble
import ProofScript.Proofs.Resolution

/-!
# The rules that a program declares

A program declares the rules that its theorems need: those that the theorems mention without declaring
them, and whatever these require. Generation notes a rule where a fact is referred to by name. A
proposition that stands for a fact becomes a name as well, so it must not be the only reference to a
rule; of all rules, only `true_` has the name of a proposition.
-/

namespace ProofScript

open Program

/-! ## Programs -/

namespace Program

/-- The names that are not bound, in order. A constant is bound behind its declaration. -/
@[simps]
def Walk.free : Walk (List String) (List String) where
  empty := []
  append := (· ++ ·)
  ident bound name := if name ∈ bound then [] else [name]
  inside bound _ params := params.map Prod.fst ++ bound
  within bound done _ := done ++ bound

instance Walk.lawful_free : Walk.free.Lawful where
  empty_append := List.nil_append
  append_empty := List.append_nil
  append_assoc := List.append_assoc
  within_nil _ := rfl

theorem Walk.free_behind (bound done : List String) (block : List Stmt) :
    Walk.free.stmts bound done block = Walk.free.stmts (done ++ bound) [] block := by
  induction block generalizing bound done with
  | nil => rfl
  | cons s rest ih =>
    rw [stmts, stmts, ih, ih (done ++ bound), List.append_nil, List.append_assoc]
    rfl

theorem Walk.free_cons (bound : List String) (s : Stmt) (rest : List Stmt) :
    Walk.free.stmts bound [] (s :: rest) =
      Walk.free.stmt bound s ++ Walk.free.stmts (s.constant?.toList ++ bound) [] rest := by
  rw [stmts, free_behind, List.append_nil]
  rfl

end Program

/-! ## Documents -/

/-- The names of facts that nothing around binds. -/
def unboundNames (uses : List FactUse) : List String :=
  (uses.filter FactUse.unbound).map (·.key.binding)

/-- Is every rule that the document mentions referred to by name as well? -/
def Document.notesRules (d : Document) (systemF : Bool) : Bool :=
  (unboundNames (d.factUses systemF)).all fun name =>
    (Library.findRule? name).isNone || name ∈ (d.factUses systemF).filterMap FactUse.rule?

theorem unboundNames_append (uses more : List FactUse) :
    unboundNames (uses ++ more) = unboundNames uses ++ unboundNames more := by
  simp [unboundNames]

/-- The names are those of the facts around. -/
def Binds (bound : List String) (scopes : List Facts) : Prop :=
  ∀ name, name ∈ bound ↔ ∃ b ∈ scopes.flatten, b.1.binding = name

variable {bound : List String} {scopes : List Facts}

theorem Binds.push (h : Binds bound scopes) : Binds bound ([] :: scopes) := h

theorem Binds.declare {top : Facts} {claim : Claim} (h : Binds bound (top :: scopes)) :
    Binds (claim.binding :: bound) ((top ++ [(claim.key, claim.loc)]) :: scopes) := by
  intro name
  rw [List.mem_cons, h name]
  simp only [List.flatten_cons, List.mem_append, List.mem_singleton]
  have hbinding := claim.binding_key
  constructor
  · rintro (rfl | ⟨b, hb, rfl⟩)
    · exact ⟨_, .inl (.inr rfl), hbinding⟩
    · exact ⟨b, hb.imp_left .inl, rfl⟩
  · rintro ⟨b, (hb | rfl) | hb, rfl⟩
    · exact .inr ⟨b, .inl hb, rfl⟩
    · exact .inl hbinding
    · exact .inr ⟨b, .inr hb, rfl⟩

/-- A name is free exactly if no fact around has it. -/
theorem Binds.unboundNames_singleton (h : Binds bound scopes) (key : FactKey) :
    unboundNames [⟨key, scopes⟩] = if key.binding ∈ bound then [] else [key.binding] := by
  have hunbound : (FactUse.mk key scopes).unbound = true ↔ key.binding ∉ bound := by
    rw [h key.binding, FactUse.unbound, List.all_eq_true]
    simp only [ne_eq, decide_eq_true_eq, not_exists, not_and]
  by_cases hmem : key.binding ∈ bound
  · have hfalse : (FactUse.mk key scopes).unbound = false := by
      rw [Bool.eq_false_iff, ne_eq, hunbound]
      exact not_not_intro hmem
    simp [unboundNames, hfalse, hmem]
  · simp [unboundNames, hunbound.mpr hmem, hmem]

/-! ## Generation -/

namespace Generate

variable {c : Context} {s s' : State}

theorem reference_free {name : String} {loc : Location} {e : Expr} (h : Binds bound scopes)
    (hrun : reference name loc c s = (.ok e, s')) :
    Walk.free.expr bound e = unboundNames [⟨.named name, scopes⟩] := by
  rw [h.unboundNames_singleton]
  rcases (reference_eq_ok hrun).1 with rfl | rfl
  · rfl
  · simp [Walk.expr, Walk.exprs]
    rfl

theorem argument_free {a : Argument} {e : Expr} (h : Binds bound scopes)
    (hrun : argument a c s = (.ok e, s')) : Walk.free.expr bound e = unboundNames [⟨a.key, scopes⟩] := by
  cases a with
  | fact name loc => exact reference_free h hrun
  | prop f =>
    have hident : e = .ident f.factName (some f.loc) := by
      cases f with
      | hole => exact absurd hrun broken_ne_ok
      | _ =>
        obtain ⟨_, _, -, hrun⟩ := bind_eq_ok.mp hrun
        exact (pure_eq_ok.mp hrun).1.symm
    rw [h.unboundNames_singleton, hident, Argument.binding_key, Walk.expr]
    rfl

theorem applyAll_free {fn e : Expr} {args : List Argument} (h : Binds bound scopes)
    (hrun : applyAll fn args c s = (.ok e, s')) :
    Walk.free.expr bound e =
      Walk.free.expr bound fn ++ unboundNames (args.map fun a => ⟨a.key, scopes⟩) := by
  induction args generalizing fn s with
  | nil =>
    obtain ⟨rfl, -⟩ := pure_eq_ok.mp hrun
    simp [unboundNames]
  | cons a rest ih =>
    obtain ⟨x, mid, hx, hrun⟩ := bind_eq_ok.mp hrun
    have hcall : Walk.free.expr bound (.call fn [] [x] (some a.loc)) =
        Walk.free.expr bound fn ++ Walk.free.expr bound x := by
      simp [Walk.expr]
    rw [ih hrun, hcall, argument_free h hx, List.append_assoc, ← unboundNames_append]
    rfl

theorem application_free {rule : String} {args : List Argument} {loc : Location} {e : Expr}
    (h : Binds bound scopes) (hrun : application rule args loc c s = (.ok e, s')) :
    Walk.free.expr bound e =
      unboundNames ((Justification.apply rule args loc).factUses c.systemF scopes) := by
  obtain ⟨_, _, hread, hrun⟩ := bind_eq_ok.mp hrun
  obtain ⟨rfl, rfl⟩ := read_eq_ok.mp hread
  unfold Justification.factUses
  split at hrun
  · rename_i hrule
    rw [if_pos hrule]
    obtain ⟨f, name, at_, fn, mid, t, rfl, hfn, ht, rfl⟩ := instantiate_eq_ok hrun
    simpa [Walk.expr, Walk.exprs] using reference_free h hfn
  · rename_i hrule
    rw [if_neg hrule]
    obtain ⟨fn, mid, hfn, hrun⟩ := bind_eq_ok.mp hrun
    rw [applyAll_free h hrun, reference_free h hfn, ← unboundNames_append]
    rfl

/-- The parameters of nested arrows are the hypotheses. -/
theorem NestRun.free {goal : Option Formula} {p : Proof} {hyps : List Claim} {e : Expr}
    {top : Facts} (h : NestRun c goal p hyps s e s') (hbinds : Binds bound (top :: scopes))
    (hproof : ∀ {s s' body ret bound top}, ProofRun c goal.isSome p s body ret s' →
      Binds bound (top :: scopes) →
        Walk.free.body bound body = unboundNames (p.factUses c.systemF (top :: scopes))) :
    Walk.free.expr bound e =
      unboundNames (p.factUses c.systemF ((top ++ factsOf hyps) :: scopes)) := by
  induction hyps generalizing s s' e bound top with
  | nil => cases h
  | cons h₀ rest ih =>
    have hdeclared : Binds (h₀.binding :: bound) ((top ++ [(h₀.key, h₀.loc)]) :: scopes) :=
      hbinds.declare
    cases h with
    | last _ _ _ hbody _ => exact hproof hbody hdeclared
    | more _ _ hinner _ =>
      have hfree := ih hinner hdeclared
      rw [List.append_assoc] at hfree
      exact hfree

/-- A statement binds its claim for the statements behind it. -/
theorem StatementRun.binds {st : Statement} {stmt : Stmt} (h : StatementRun c st s stmt s')
    {top : Facts} (hbinds : Binds bound (top :: scopes)) :
    ∃ top', st.bindFacts (top :: scopes) = top' :: scopes ∧
      Binds (stmt.constant?.toList ++ bound) (top' :: scopes) := by
  cases h with
  | block => exact ⟨top, rfl, hbinds⟩
  | step => exact ⟨_, rfl, hbinds.declare⟩

mutual

theorem ProofRun.free {c : Context} {s s' : State} {declared : Bool} {body : Body}
    {ret : Option TypeExpr} {bound : List String} {scopes : List Facts} {top : Facts} :
    (p : Proof) → ProofRun c declared p s body ret s' → Binds bound (top :: scopes) →
      Walk.free.body bound body = unboundNames (p.factUses c.systemF (top :: scopes))
  | .mk st _, .steps _ hsteps, h => by
    rw [Walk.body_bodyOf]
    exact StepsRun.free st hsteps h

theorem StepsRun.free {c : Context} {s s' : State} {declared : Bool} {stmts : List Stmt}
    {value : Expr} {ret : Option TypeExpr} {bound : List String} {scopes : List Facts} {top : Facts} :
    (st : Steps) → StepsRun c declared st s stmts value ret s' → Binds bound (top :: scopes) →
      Walk.free.stmts bound [] (stmts ++ [.ret value]) =
        unboundNames (st.factUses c.systemF (top :: scopes))
  | .last st, .last hfinal, h => FinalRun.free st hfinal h
  | .conclude j _, .conclude hrun, h =>
    (Walk.stmts_ret bound [] value).trans (JustificationRun.free j hrun h)
  | .more st rest, .more hrun hrest, h => by
    obtain ⟨top', hfacts, hbinds⟩ := hrun.binds h
    rw [List.cons_append, Walk.free_cons, StatementRun.free st hrun h, StepsRun.free rest hrest hbinds,
      ← unboundNames_append, ← hfacts]
    rfl

theorem FinalRun.free {c : Context} {s s' : State} {declared : Bool} {stmts : List Stmt}
    {value : Expr} {ret : Option TypeExpr} {bound : List String} {scopes : List Facts} {top : Facts} :
    (st : Statement) → FinalRun c declared st s stmts value ret s' → Binds bound (top :: scopes) →
      Walk.free.stmts bound [] (stmts ++ [.ret value]) =
        unboundNames (st.factUses c.systemF (top :: scopes))
  | .block b, .block hrun, h => (Walk.stmts_ret bound [] value).trans (BlockRun.free b hrun h)
  | .step claim j loc, .hole _ hrun, h =>
    (Walk.stmts_ret bound [] value).trans (JustificationRun.free j hrun h)
  | .step claim j loc, .bound _ (.step _ hrun _), h => by
    rw [List.cons_append, List.nil_append, Walk.free_cons, Walk.stmt, Walk.stmts_ret, Walk.expr,
      Walk.free_const, Walk.free_ident, if_pos (by simp [Stmt.constant?]), List.append_nil]
    exact JustificationRun.free j hrun h
  | .step claim j loc, .returned _ _ hrun, h =>
    (Walk.stmts_ret bound [] value).trans (JustificationRun.free j hrun h)

theorem StatementRun.free {c : Context} {s s' : State} {stmt : Stmt} {bound : List String}
    {scopes : List Facts} {top : Facts} :
    (st : Statement) → StatementRun c st s stmt s' → Binds bound (top :: scopes) →
      Walk.free.stmt bound stmt = unboundNames (st.factUses c.systemF (top :: scopes))
  | .block b, .block hrun, h => by
    rw [Walk.stmt, Walk.expr]
    exact BlockRun.free b hrun h
  | .step _ j _, .step _ hrun _, h => by
    rw [Walk.stmt, Walk.free_const]
    exact JustificationRun.free j hrun h

theorem JustificationRun.free {c : Context} {s s' : State} {value : Expr} {bound : List String}
    {scopes : List Facts} {top : Facts} :
    (j : Justification) → JustificationRun c j s value s' → Binds bound (top :: scopes) →
      Walk.free.expr bound value = unboundNames (j.factUses c.systemF (top :: scopes))
  | .apply _ _ _, .apply hrun, h => application_free h hrun
  | .block b, .block hrun, h => BlockRun.free b hrun h

theorem BlockRun.free {c : Context} {s s' : State} {value : Expr} {bound : List String}
    {scopes : List Facts} {top : Facts} :
    (b : Block) → BlockRun c b s value s' → Binds bound (top :: scopes) →
      Walk.free.expr bound value = unboundNames (b.factUses c.systemF (top :: scopes))
  | .assume hyps p loc, .assume hnest, h => hnest.free h.push (ProofRun.free p)
  | .generalize vars p loc, .generalize hvars hrun _, h => by
    rw [walk_quantify (fun _ => rfl) (fun _ _ _ _ => rfl) hvars]
    exact ProofRun.free p hrun h.push

end

theorem TheoremRun.free {t : Theorem} {e : Expr} {theorems : Facts} (h : TheoremRun c t s e s')
    (hbinds : Binds bound [theorems]) :
    Walk.free.expr bound e = unboundNames (t.factUses c.systemF theorems) := by
  unfold Theorem.factUses
  cases h with
  | sequent hsequent hnest =>
    rw [hsequent]
    exact hnest.free hbinds.push (ProofRun.free _)
  | implication hsequent _ hproof _ =>
    rw [hsequent]
    exact ProofRun.free t.proof hproof hbinds.push

theorem free_decl (t : Theorem) (arrow : Expr) (bound : List String) :
    Walk.free.stmt bound (t.decl arrow) = Walk.free.expr bound arrow := by
  unfold Theorem.decl
  split
  · rw [Walk.stmt, Walk.expr]
  · rw [Walk.stmt, Walk.free_const]

theorem binds_decl {t : Theorem} {arrow : Expr} {theorems : Facts} (h : Binds bound [theorems]) :
    Binds ((t.decl arrow).constant?.toList ++ bound) [theorems ++ t.fact?.toList] := by
  unfold Theorem.decl Theorem.fact?
  cases t.claim.name with
  | none => simpa [Stmt.constant?] using h
  | some name =>
    have hclaim := @Binds.declare bound [] theorems ⟨some name, t.claim.formula, t.claim.loc⟩ h
    exact hclaim

theorem theoremDecls_free {ts : List Theorem} {decls : List Stmt} {theorems : Facts}
    (h : Binds bound [theorems]) (hrun : theoremDecls ts c s = (.ok decls, s')) :
    Walk.free.stmts bound [] decls = unboundNames (theoremsFactUses c.systemF theorems ts) := by
  induction ts generalizing s decls bound theorems with
  | nil =>
    obtain ⟨rfl, -⟩ := pure_eq_ok.mp hrun
    rfl
  | cons t rest ih =>
    obtain ⟨decl, more, mid, rfl, hdecl, -, hmore⟩ := theoremDecls_cons_eq_ok hrun
    obtain ⟨arrow, last, harrow, rfl, -⟩ := theoremDecl_eq_ok hdecl
    rw [Walk.free_cons, free_decl, harrow.free h, ih (binds_decl h) hmore, ← unboundNames_append]
    rfl

end Generate

/-! ## Libraries -/

namespace Library

/-- The rules with the given names, and what these require. -/
inductive Reached (names : List String) : String → Prop
  | named {name : String} : name ∈ names → (findRule? name).isSome = true → Reached names name
  | required {name r : String} {p : Primitive} :
      Reached names name → find? name = some p → r ∈ p.requires → Reached names r

theorem Reached.mono {names more : List String} {name : String} (h : Reached names name)
    (hsubset : ∀ n ∈ names, (findRule? n).isSome = true → n ∈ more) : Reached more name := by
  induction h with
  | named hname hrule => exact .named (hsubset _ hname hrule) hrule
  | required _ hfind hr ih => exact .required ih hfind hr

theorem Reached.of_reach {names : List String} {depth : Nat} {name reached : String}
    (hname : Reached names name) (h : reached ∈ reach depth name) : Reached names reached := by
  induction depth generalizing name with
  | zero => exact List.mem_singleton.mp h ▸ hname
  | succ depth ih =>
    rcases List.mem_cons.mp h with rfl | h
    · exact hname
    rcases List.mem_flatMap.mp h with ⟨next, hnext, h⟩
    cases hfind : find? name with
    | none => simp [hfind] at hnext
    | some p =>
      rw [hfind] at hnext
      exact ih (.required hname hfind hnext) h

/-- Rules that are used are found with what they require. -/
theorem reached_iff {used : List String} (hused : ∀ n ∈ used, (findRule? n).isSome = true)
    (name : String) : Reached used name ↔ name ∈ used.flatMap (reach all.length) := by
  constructor
  · intro h
    induction h with
    | named hname _ => exact List.mem_flatMap.mpr ⟨_, hname, mem_reach_self _ _⟩
    | @required name r p _ hfind hr ih =>
      rcases List.mem_flatMap.mp ih with ⟨root, hroot, hreach⟩
      have hname : p.name = name := by simpa using List.find?_some hfind
      have hall := List.mem_of_find?_eq_some hfind
      exact List.mem_flatMap.mpr ⟨root, hroot, reach_requires hall (hname ▸ hreach) hr⟩
  · intro h
    rcases List.mem_flatMap.mp h with ⟨root, hroot, hreach⟩
    exact .of_reach (.named hroot (hused root hroot)) hreach

theorem findRule?_of_reached {names : List String} {name : String} (h : Reached names name) :
    (findRule? name).isSome = true := by
  have hrules : ∀ p ∈ all, ∀ r ∈ p.requires, (findRule? r).isSome = true := by decide
  cases h with
  | named _ hrule => exact hrule
  | required _ hfind hr => exact hrules _ (List.mem_of_find?_eq_some hfind) _ hr

/-- The names of the rules among declarations. -/
def ruleNames (ps : List Primitive) : List String :=
  (ps.filter fun p => p.kind ≠ .typeDecl).map Primitive.name

/-- The rules that are declared for used ones are those that the used ones reach. -/
theorem mem_ruleNames_select {used : List String}
    (hused : ∀ n ∈ used, (findRule? n).isSome = true) (systemF : Bool) (name : String) :
    name ∈ ruleNames (select used systemF) ↔ Reached used name := by
  have htypes : ∀ p ∈ types, p.kind = .typeDecl := by decide
  have hrules : ∀ p ∈ rules, p.kind ≠ .typeDecl := by decide
  have hname : ∀ n, (findRule? n).isSome = true → n ∈ rules.map Primitive.name := by
    intro n hn
    obtain ⟨p, hp⟩ := Option.isSome_iff_exists.mp hn
    obtain ⟨hfind, hkind⟩ := Option.filter_eq_some_iff.mp hp
    have hmem : p ∈ types ++ rules := by
      simpa [all, rules] using List.mem_of_find?_eq_some hfind
    rcases List.mem_append.mp hmem with hmem | hmem
    · simp [htypes p hmem] at hkind
    · exact List.mem_map.mpr ⟨p, hmem, by simpa using List.find?_some hfind⟩
  have hsplit : ruleNames (select used systemF) = (selectRules used).map Primitive.name := by
    rw [ruleNames, select_eq, List.filter_append, List.filter_eq_nil_iff.mpr, List.nil_append,
      List.filter_eq_self.mpr]
    · intro p hp
      simpa using hrules p (List.mem_filter.mp hp).1
    · intro p hp
      simpa using htypes p (List.mem_filter.mp hp).1
  rw [hsplit, selectRules, List.mem_map]
  constructor
  · rintro ⟨p, hp, rfl⟩
    exact (reached_iff hused _).mpr (by simpa using (List.mem_filter.mp hp).2)
  · intro h
    obtain ⟨p, hp, rfl⟩ := List.mem_map.mp (hname name (findRule?_of_reached h))
    exact ⟨p, List.mem_filter.mpr ⟨hp, by simpa using (reached_iff hused _).mp h⟩, rfl⟩

theorem requiresBefore_mono {names more : List String} {ps : List Primitive} (h : names ⊆ more)
    (hps : Checker.requiresBefore names ps = true) : Checker.requiresBefore more ps = true := by
  induction ps generalizing names more with
  | nil => rfl
  | cons p rest ih =>
    simp only [Checker.requiresBefore, Bool.and_eq_true, List.all_eq_true, decide_eq_true_eq] at hps ⊢
    exact ⟨fun r hr => h (hps.1 r hr), ih (List.cons_subset_cons _ h) hps.2⟩

theorem requiresBefore_append {names : List String} {ts ps : List Primitive}
    (hts : ∀ p ∈ ts, p.requires = []) (hps : Checker.requiresBefore names ps = true) :
    Checker.requiresBefore names (ts ++ ps) = true := by
  induction ts generalizing names with
  | nil => exact hps
  | cons p rest ih =>
    rw [List.forall_mem_cons] at hts
    rw [List.cons_append, Checker.requiresBefore, hts.1]
    exact ih hts.2 (requiresBefore_mono (List.subset_cons_self _ _) hps)

/-- The declarations of a program stand in library order, each once and behind what it requires. -/
theorem select_ordered (used : List String) (systemF : Bool) :
    (select used systemF).Sublist all ∧ ((select used systemF).map Primitive.name).Nodup ∧
      Checker.requiresBefore [] (select used systemF) = true := by
  have hnames : (all.map Primitive.name).Nodup := by decide
  have htypes : ∀ p ∈ types, p.requires = [] := by decide
  have hsublist : (select used systemF).Sublist all := List.filter_sublist
  refine ⟨hsublist, (hsublist.map Primitive.name).nodup hnames, ?_⟩
  rw [select_eq]
  exact requiresBefore_append (fun p hp => htypes p (List.mem_filter.mp hp).1)
    (requiresBefore_selectRules used)

end Library

/-- The rules that the uses of facts take are among the names that nothing binds. -/
theorem mem_unboundNames_of_rule? {uses : List FactUse} {name : String}
    (h : name ∈ uses.filterMap FactUse.rule?) :
    name ∈ unboundNames uses ∧ (Library.findRule? name).isSome = true := by
  have hnamed : ∀ n p, Library.findRule? n = some p → p.name = n := by
    intro n p hp
    simpa using List.find?_some (Option.filter_eq_some_iff.mp hp).1
  rcases List.mem_filterMap.mp h with ⟨u, hu, hrule⟩
  rw [FactUse.rule?, Option.ite_none_right_eq_some] at hrule
  obtain ⟨hunbound, hrule⟩ := hrule
  cases hkey : u.key with
  | stated f => simp [hkey, FactKey.rule?] at hrule
  | named n =>
    rw [hkey, FactKey.rule?, Option.map_eq_some_iff] at hrule
    obtain ⟨p, hp, rfl⟩ := hrule
    have hname := hnamed _ p hp
    refine ⟨List.mem_map.mpr ⟨u, List.mem_filter.mpr ⟨hu, hunbound⟩, ?_⟩, ?_⟩
    · rw [hkey, hname]
      rfl
    · rw [hname, hp]
      rfl

/-- A rule that is mentioned and not noted has the name of a proposition, which nothing requires. -/
theorem not_reached_of_not_noted {uses : List FactUse} {name : String}
    (h : name ∈ unboundNames uses) (hrule : (Library.findRule? name).isSome = true)
    (hnoted : name ∉ uses.filterMap FactUse.rule?) :
    ¬ Library.Reached (uses.filterMap FactUse.rule?) name := by
  have hrequired : ∀ p ∈ Library.all, ∀ r ∈ p.requires, r.toList.getLast? ≠ some '_' := by decide
  rcases List.mem_map.mp h with ⟨u, hu, rfl⟩
  obtain ⟨hu, hunbound⟩ := List.mem_filter.mp hu
  have hlast : u.key.binding.toList.getLast? = some '_' := by
    cases hkey : u.key with
    | named n =>
      refine absurd (List.mem_filterMap.mpr ⟨u, hu, ?_⟩) hnoted
      obtain ⟨p, hp⟩ := Option.isSome_iff_exists.mp hrule
      rw [hkey] at hp
      have hname : p.name = u.key.binding := by
        simpa [hkey] using List.find?_some (Option.filter_eq_some_iff.mp hp).1
      rw [FactUse.rule?, if_pos hunbound, ← hname, hkey, FactKey.rule?]
      exact congrArg (Option.map Primitive.name) hp
    | stated f =>
      rw [FactKey.binding]
      refine Formula.getLast?_factName ?_
      cases f with
      | hole =>
        have hempty : (Library.findRule? "").isSome = false := by decide
        rw [hkey, FactKey.binding, Formula.factName, hempty] at hrule
        cases hrule
      | _ => rfl
  intro hreached
  cases hreached with
  | named hname _ => exact hnoted hname
  | required _ hfind hr => exact hrequired _ (List.mem_of_find?_eq_some hfind) _ hr hlast

/-- The rules that a compilation notes are those that the document refers to by name. -/
theorem mem_used_of_compile {src : List UInt8} {systemF : Bool} {c : Compilation}
    (h : (compile src systemF).1 = .ok c) (name : String) :
    name ∈ c.used ↔ name ∈ (c.document.factUses systemF).filterMap FactUse.rule? := by
  obtain ⟨s, -, hgenerate, hused, -⟩ := compile_eq_ok h
  have hstacked : Generate.Stacked .empty [[]] := rfl
  rw [hused, (Generate.theoremDecls_accounts hstacked rfl hgenerate).used]
  simp [Generate.State.empty, Document.factUses]

/-- The free names of the theorems are those of facts that nothing binds. -/
theorem free_of_compile {src : List UInt8} {systemF : Bool} {c : Compilation}
    (h : (compile src systemF).1 = .ok c) :
    Walk.free.stmts [] [] c.decls = unboundNames (c.document.factUses systemF) := by
  obtain ⟨s, -, hgenerate, -⟩ := compile_eq_ok h
  have hbinds : Binds [] [[]] := by simp [Binds]
  exact Generate.theoremDecls_free hbinds hgenerate

theorem primitives_of_compile {src : List UInt8} {systemF : Bool} {c : Compilation}
    (h : (compile src systemF).1 = .ok c) : c.primitives = Library.select c.used systemF := by
  obtain ⟨s, -, -, hused, -, hprimitives, -⟩ := compile_eq_ok h
  rw [hused, hprimitives]

theorem Document.notesRules_iff {d : Document} {systemF : Bool} :
    d.notesRules systemF = true ↔ ∀ name ∈ unboundNames (d.factUses systemF),
      (Library.findRule? name).isSome = true →
        name ∈ (d.factUses systemF).filterMap FactUse.rule? := by
  rw [Document.notesRules, List.all_eq_true]
  refine forall₂_congr fun name _ => ?_
  cases Library.findRule? name <;> simp

/-- A program declares exactly the rules that the free names of its theorems reach if and only if each
rule among these names is referred to by name. -/
theorem ruleNames_of_compile {src : List UInt8} {systemF : Bool} {c : Compilation}
    (h : (compile src systemF).1 = .ok c) :
    (∀ name, name ∈ Library.ruleNames c.primitives ↔
      Library.Reached (Walk.free.stmts [] [] c.decls) name) ↔ c.document.notesRules systemF = true := by
  have hused := mem_used_of_compile h
  have hrules : ∀ n ∈ c.used, (Library.findRule? n).isSome = true := fun n hn =>
    (mem_unboundNames_of_rule? ((hused n).mp hn)).2
  rw [primitives_of_compile h, free_of_compile h, Document.notesRules_iff]
  simp only [Library.mem_ruleNames_select hrules]
  constructor
  · intro hexact name hname hrule
    by_contra hmissed
    refine not_reached_of_not_noted hname hrule hmissed ?_
    exact ((hexact name).mpr (.named hname hrule)).mono fun n hn _ => (hused n).mp hn
  · intro hnotes name
    constructor
    · intro hreached
      exact hreached.mono fun n hn _ => (mem_unboundNames_of_rule? ((hused n).mp hn)).1
    · intro hreached
      exact hreached.mono fun n hn hrule => (hused n).mpr (hnotes n hn hrule)

end ProofScript
