import ProofScript.Proofs.Checking.Numbering
import ProofScript.Proofs.Formation
import ProofScript.Proofs.TypeParameters

/-!
# What is objected to in generated programs

Checking a program of the form that is generated comes to its end unless a comparison of types has to go
deeper, and it objects to unknown values, to calls and to types that do not fit. Every objection goes to
a node that knows where it stems from. No annotation is objected to: all its names are in scope, at the
right number of arguments.
-/

namespace ProofScript

open Program Stateful

/-! ## Annotations -/

namespace Program

mutual

/-- Does the checker read the annotation without objections where these aliases and these type
parameters are known? -/
def TypeExpr.converts (aliases types : List String) : TypeExpr → Bool
  | .ref name args =>
    if name ∈ types then args.isEmpty
    else name ∈ aliases && Checker.aliasArity? name = some args.length &&
      TypeExpr.convertsAll aliases types args
  | .func tparams params ret =>
    params.length ≤ 1 && TypeExpr.convertsParams aliases (tparams.reverse ++ types) params &&
      ret.converts aliases (tparams.reverse ++ types)
  | .keyword name => name = "never" || name = "any"
  | _ => false

/-- The same for annotations. -/
def TypeExpr.convertsAll (aliases types : List String) : List TypeExpr → Bool
  | [] => true
  | t :: rest => t.converts aliases types && TypeExpr.convertsAll aliases types rest

/-- The same for the annotations of parameters. -/
def TypeExpr.convertsParams (aliases types : List String) : List Param → Bool
  | [] => true
  | p :: rest => p.2.converts aliases types && TypeExpr.convertsParams aliases types rest

end

end Program

namespace Checker

/-- The aliases are declared where the property holds, and it holds on when a number is taken. -/
structure Stable (aliases : List String) (I : State → Prop) : Prop where
  aliases : ∀ s, I s → aliases ⊆ s.aliases
  fresh : ∀ s, I s → I { s with unifier := s.unifier.fresh.2 }

variable {aliases : List String} {E : Stop → Prop} {I : State → Prop}

theorem fresh_yields (h : Stable aliases I) : Yields E I (fun _ => True) fresh :=
  fun s hs => ⟨trivial, h.fresh s hs⟩

mutual

theorem toType_yields (h : Stable aliases I) (node : Node) (types : List (String × Ty)) :
    (t : TypeExpr) → t.converts aliases (types.map Prod.fst) = true →
      Yields E I (fun _ => True) (toType node types t)
  | .ref name args, ht => by
    rw [toType]
    rw [TypeExpr.converts] at ht
    cases hfind : types.lookup name with
    | some u =>
      have hmem : name ∈ types.map Prod.fst := by
        by_contra hnot
        rw [lookup_eq_none_iff_not_mem.mpr hnot] at hfind
        cases hfind
      rw [if_pos hmem] at ht
      simp only [ht, if_true]
      exact .pure trivial
    | none =>
      rw [if_neg (lookup_eq_none_iff_not_mem.mp hfind)] at ht
      simp only [Bool.and_eq_true, decide_eq_true_eq] at ht
      obtain ⟨⟨hname, harity⟩, hargs⟩ := ht
      simp only [harity]
      refine .bind .get fun s hs => ?_
      have hdeclared : name ∈ s.aliases := h.aliases s hs hname
      simp only [hdeclared, decide_true, Bool.not_true, Bool.false_eq_true, if_false, ne_eq,
        not_true_eq_false]
      exact .bind (toTypes_yields h node types args hargs) fun _ _ => .pure trivial
  | .func tparams params ret, ht => by
    rw [toType]
    simp only [TypeExpr.converts, Bool.and_eq_true, decide_eq_true_eq] at ht
    obtain ⟨⟨hlen, hparams⟩, hret⟩ := ht
    rw [if_neg (by omega)]
    refine .bind (.mapM (g := Prod.fst) (fun name => ?_) tparams) fun vars hvars => ?_
    · exact (fresh_yields h).bind fun _ _ => .pure rfl
    have hnames : (((vars.map fun ((name, v) : String × TyVar) => (name, Ty.var v)).reverse
        ++ types).map Prod.fst) = tparams.reverse ++ types.map Prod.fst := by
      rw [← hvars]
      simp [Function.comp_def]
    rw [← hnames] at hparams hret
    refine .bind (toParamTypes_yields h node _ params hparams) fun _ _ => ?_
    exact .bind (toType_yields h node _ ret hret) fun _ _ => .pure trivial
  | .keyword name, ht => by
    simp only [TypeExpr.converts, Bool.or_eq_true, decide_eq_true_eq] at ht
    rcases ht with rfl | rfl
    · exact .pure trivial
    · exact .pure trivial
  | .missing, ht => absurd ht Bool.false_ne_true
  | .tuple _, ht => absurd ht Bool.false_ne_true
  | .union _, ht => absurd ht Bool.false_ne_true
  | .object _, ht => absurd ht Bool.false_ne_true
  | .str _, ht => absurd ht Bool.false_ne_true
  | .bool _, ht => absurd ht Bool.false_ne_true

theorem toTypes_yields (h : Stable aliases I) (node : Node) (types : List (String × Ty)) :
    (ts : List TypeExpr) → TypeExpr.convertsAll aliases (types.map Prod.fst) ts = true →
      Yields E I (fun _ => True) (toTypes node types ts)
  | [], _ => .pure trivial
  | t :: rest, ht => by
    rw [TypeExpr.convertsAll, Bool.and_eq_true] at ht
    refine .bind (toType_yields h node types t ht.1) fun _ _ => ?_
    exact .bind (toTypes_yields h node types rest ht.2) fun _ _ => .pure trivial

theorem toParamTypes_yields (h : Stable aliases I) (node : Node) (types : List (String × Ty)) :
    (ps : List Param) → TypeExpr.convertsParams aliases (types.map Prod.fst) ps = true →
      Yields E I (fun _ => True) (toParamTypes node types ps)
  | [], _ => .pure trivial
  | (_, t) :: rest, ht => by
    rw [TypeExpr.convertsParams, Bool.and_eq_true] at ht
    refine .bind (toType_yields h node types t ht.1) fun _ _ => ?_
    exact .bind (toParamTypes_yields h node types rest ht.2) fun _ _ => .pure trivial

end

end Checker

/-- The types of the library that a program of the mode declares. -/
def Library.typeNames (systemF : Bool) : List String :=
  (Library.types.filter fun p => systemF || !p.systemF).map Primitive.name

section

variable {systemF : Bool} {types names : List String}

/-- A type parameter or a constant is read without objections. -/
theorem converts_atom {a : String}
    (hscoped : (TypeExpr.ref (escapeTypeVar a) []).scoped types = true) (htypes : types ⊆ names) :
    (TypeExpr.ref (escapeTypeVar a) []).converts (Library.typeNames systemF) names = true := by
  rw [TypeExpr.converts]
  split
  · rfl
  · rename_i hnot
    simp only [TypeExpr.scoped, Bool.and_eq_true, Bool.or_eq_true, decide_eq_true_eq] at hscoped
    have halias : escapeTypeVar a ∈ aliasNames :=
      hscoped.1.resolve_left fun hmem => hnot (htypes hmem)
    have hconstant : escapeTypeVar a ∈ Frames.constants :=
      (List.mem_append.mp halias).resolve_right (escapeTypeVar_not_mem a)
    have hall : ∀ name ∈ Frames.constants, name ∈ Library.typeNames systemF ∧
        Checker.aliasArity? name = some 0 := by
      cases systemF with
      | true => decide
      | false => decide
    simp [hall _ hconstant, TypeExpr.convertsAll]

/-- No type parameter hides a connective. -/
theorem converts_connective {name : String} {args : List TypeExpr}
    (hnames : ∀ n ∈ names, ∃ a, n = escapeTypeVar a) (hname : name ∈ libraryTypeNames)
    (hdeclared : name ∈ Library.typeNames systemF)
    (harity : Checker.aliasArity? name = some args.length)
    (hargs : TypeExpr.convertsAll (Library.typeNames systemF) names args = true) :
    (TypeExpr.ref name args).converts (Library.typeNames systemF) names = true := by
  have hfree : name ∉ names := by
    intro hmem
    obtain ⟨a, rfl⟩ := hnames name hmem
    exact escapeTypeVar_not_mem a hname
  simp [TypeExpr.converts, hfree, hdeclared, harity, hargs]

/-- Where all types of a proposition are in scope, its annotation is read without objections. -/
theorem Formula.converts_typeExpr {f : Formula} (hf : f.SpelledIn systemF)
    (hscoped : f.typeExpr.scoped types = true) (htypes : types ⊆ names)
    (hnames : ∀ n ∈ names, ∃ a, n = escapeTypeVar a) :
    f.typeExpr.converts (Library.typeNames systemF) names = true := by
  have hdeclared : ∀ name ∈ ["And", "Or", "Impl", "Not"], name ∈ Library.typeNames systemF := by
    cases systemF with
    | true => decide
    | false => decide
  obtain ⟨hspelled, hmode⟩ := hf
  induction f generalizing types names with
  | hole => exact hspelled.elim
  | atom name args _ =>
    cases args with
    | nil => exact converts_atom hscoped htypes
    | cons arg rest =>
      -- A predicate: the mode is System F, which has the type of applications.
      obtain rfl : systemF = true := by
        cases systemF with
        | true => rfl
        | false => cases hmode rfl
      rw [Formula.typeExpr, TypeExpr.scoped_alias (by decide), TypeExpr.scopedAll,
        TypeExpr.scopedAll, Bool.and_eq_true, Bool.and_eq_true] at hscoped
      refine converts_connective hnames (by decide) (by decide) rfl ?_
      simp [TypeExpr.convertsAll, converts_atom hscoped.1 htypes, converts_atom hscoped.2.1 htypes]
  | neg a _ ih =>
    rw [Formula.typeExpr, TypeExpr.scoped_alias (by decide), TypeExpr.scopedAll, Bool.and_eq_true]
      at hscoped
    refine converts_connective hnames (by decide) (hdeclared _ (by decide)) rfl ?_
    simp [TypeExpr.convertsAll, ih hscoped.1 htypes hnames hspelled hmode]
  | conj a b _ iha ihb | disj a b _ iha ihb | impl a b _ iha ihb =>
    simp only [Formula.propositional, Bool.and_eq_true] at hmode
    rw [Formula.typeExpr, TypeExpr.scoped_alias (by decide), TypeExpr.scopedAll, TypeExpr.scopedAll,
      Bool.and_eq_true, Bool.and_eq_true] at hscoped
    have ha := iha hscoped.1 htypes hnames hspelled.1 fun h => (hmode h).1
    have hb := ihb hscoped.2.1 htypes hnames hspelled.2 fun h => (hmode h).2
    refine converts_connective hnames (by decide) (hdeclared _ (by decide)) rfl ?_
    simp [TypeExpr.convertsAll, ha, hb]
  | all vars a _ ih =>
    rw [Formula.typeExpr] at hscoped ⊢
    clear hdeclared
    induction vars generalizing types names with
    | nil => exact ih hscoped htypes hnames hspelled.2 hmode
    | cons v rest ihvars =>
      simp only [List.foldr_cons, TypeExpr.scoped, TypeExpr.scopedParams, Bool.true_and] at hscoped
      simp only [List.foldr_cons, TypeExpr.converts, TypeExpr.convertsParams, List.length_nil,
        Nat.zero_le, decide_true, Bool.true_and]
      have hnames' : ∀ n ∈ escapeTypeVar v :: names, ∃ a, n = escapeTypeVar a :=
        List.forall_mem_cons.mpr ⟨⟨v, rfl⟩, hnames⟩
      exact ihvars hscoped (List.cons_subset_cons _ htypes) hnames'
        ⟨fun w hw => hspelled.1 w (by simp [hw]), hspelled.2⟩ hmode

end

/-! ## Nodes -/

/-- The nodes stand in the table from the number `k` on. -/
def Numbered (tags : List NodeTag) (k : Nat) (part : List NodeTag) : Prop := part <+: tags.drop k

namespace Numbered

variable {tags part more : List NodeTag} {k : Nat} {tag : NodeTag}

theorem left (h : Numbered tags k (part ++ more)) : Numbered tags k part :=
  (List.prefix_append part more).trans h

theorem right (h : Numbered tags k (part ++ more)) : Numbered tags (k + part.length) more := by
  obtain ⟨rest, hrest⟩ := h
  refine ⟨rest, ?_⟩
  rw [← List.drop_drop, ← hrest, List.append_assoc, List.drop_left]

theorem head (h : Numbered tags k (tag :: part)) : tags[k]? = some tag := by
  obtain ⟨rest, hrest⟩ := h
  have hget := congrArg (·[0]?) hrest
  simpa using hget.symm

theorem tail (h : Numbered tags k (tag :: part)) : Numbered tags (k + 1) part := by
  have hpart : Numbered tags k ([tag] ++ part) := h
  exact hpart.right

end Numbered

namespace Program

mutual

/-- The nodes of an expression of the form that is generated are counted as they are printed. -/
theorem Expr.Formed.length_tags {systemF : Bool} {places : List Location} :
    (e : Expr) → e.Formed systemF places → e.tags.length = e.count
  | .ident _ _, _ => rfl
  | .call fn _ args _, h => by
    simp only [Expr.tags, Expr.count, List.length_cons, List.length_append,
      Expr.Formed.length_tags fn h.2.1, exprsFormed.length_tags args h.2.2.2]
  | .arrow _ _ _ body _, h => by
    simp only [Expr.tags, Expr.count, List.length_cons,
      Body.Formed.length_tags body h.2.2.2.2.2]

theorem exprsFormed.length_tags {systemF : Bool} {places : List Location} :
    (es : List Expr) → exprsFormed systemF places es → (exprsTags es).length = Expr.countAll es
  | [], _ => rfl
  | e :: rest, h => by
    simp only [exprsTags, Expr.countAll, List.length_append, Expr.Formed.length_tags e h.1,
      exprsFormed.length_tags rest h.2]

theorem Body.Formed.length_tags {systemF : Bool} {places : List Location} :
    (b : Body) → b.Formed systemF places → b.tags.length = b.count
  | .expr e, h => by
    have he := Expr.Formed.length_tags e h
    cases e with
    | missing => exact h.elim
    | _ => exact he
  | .block stmts, h => blockFormed.length_tags stmts h.2

theorem blockFormed.length_tags {systemF : Bool} {places : List Location} :
    (stmts : List Stmt) → blockFormed systemF places stmts →
      (stmtsTags stmts).length = Stmt.countAll stmts
  | .ret e :: rest, h => by
    obtain ⟨rfl, he⟩ := h
    simp [stmtsTags, Stmt.tags, Stmt.countAll, Stmt.count, Expr.Formed.length_tags e he]
  | .const name type value declare trusted signature o :: rest, h => by
    simp only [stmtsTags, Stmt.countAll, List.length_append, Stmt.Formed.length_tags _ h.1,
      blockFormed.length_tags rest h.2]
  | .expr e o :: rest, h => by
    simp only [stmtsTags, Stmt.countAll, List.length_append, Stmt.Formed.length_tags _ h.1,
      blockFormed.length_tags rest h.2]

theorem Stmt.Formed.length_tags {systemF : Bool} {places : List Location} :
    (s : Stmt) → s.Formed systemF places → s.tags.length = s.count
  | .const _ _ value declare _ _ _, h => by
    obtain ⟨rfl, -, -, hvalue⟩ := h
    simp [Stmt.tags, Stmt.count, Expr.Formed.length_tags value hvalue]
  | .expr (.paren e) _, h => by
    simp [Stmt.tags, Stmt.count, Expr.tags, Expr.count, Expr.Formed.length_tags e h]

end

end Program

namespace Checker

/-! ## Objections -/

/-- The node stands in the table and stems from one of the places. -/
def Blamed (tags : List NodeTag) (places : List Location) (node : Node) (kind : NodeKind) : Prop :=
  Placed places node.origin ∧ tags[node.number]? = some ⟨kind, node.origin⟩

end Checker

theorem Program.Expr.Formed.blamed {systemF : Bool} {tags : List NodeTag}
    {places : List Location} {k : Nat} {e : Expr} (h : e.Formed systemF places)
    (hk : Numbered tags k e.tags) :
    Checker.Blamed tags places ⟨k, e.origin?⟩ e.kind := by
  cases e with
  | ident => exact ⟨h, hk.head⟩
  | call => exact ⟨h.1, hk.head⟩
  | arrow => exact ⟨h.1, hk.head⟩
  | _ => exact h.elim

/-- May the objection be raised to a node of a generated program? Only a value has an unknown
name. -/
def Objection.expectedAt (kind : NodeKind) : Objection → Bool
  | unknownName _ => kind = .ident
  | notAssignable _ => true
  | argumentType _ _ => true
  | argument _ => true
  | notCallable _ => true
  | argCount _ _ => true
  | callTypeArgCount _ _ => true
  | _ => false

namespace Checker

/-- The finding objects to a node of a generated program as it may. -/
def Apt (tags : List NodeTag) (places : List Location) (f : Finding) : Prop :=
  ∃ kind, Blamed tags places f.node kind ∧ f.objection.expectedAt kind = true

/-- The types of the library are declared, and nothing unexpected was objected to. -/
structure Keeping (systemF : Bool) (tags : List NodeTag) (places : List Location) (s : State) :
    Prop where
  aliases : Library.typeNames systemF ⊆ s.aliases
  findings : ∀ f ∈ s.findings, Apt tags places f

/-- The check comes to its end unless it has to go deeper, and objects to what it may only. -/
abbrev Reports (systemF : Bool) (tags : List NodeTag) (places : List Location) {α : Type}
    (f : Checker α) : Prop :=
  Yields (· = .deeper) (Keeping systemF tags places) (fun _ => True) f

section

variable {systemF : Bool} {tags : List NodeTag} {places : List Location}

theorem Keeping.unifier {s : State} (h : Keeping systemF tags places s) (u : Unifier) :
    Keeping systemF tags places { s with unifier := u } := ⟨h.aliases, h.findings⟩

theorem keeping_stable :
    Stable (Library.typeNames systemF) (Keeping systemF tags places) where
  aliases _ h := h.aliases
  fresh _ h := h.unifier _

theorem object_reports {node : Node} {kind : NodeKind} {o : Objection}
    (hnode : Blamed tags places node kind) (ho : o.expectedAt kind = true) :
    Reports systemF tags places (object node o) := by
  refine fun s hs => ⟨trivial, hs.aliases, ?_⟩
  intro f hf
  rcases List.mem_append.mp hf with hf | hf
  · exact hs.findings f hf
  · rw [List.mem_singleton.mp hf]
    exact ⟨kind, hnode, ho⟩

theorem resolve_reports (t : Ty) : Reports systemF tags places (resolve t) :=
  fun _ hs => ⟨trivial, hs⟩

theorem assign_reports (src dst : Ty) : Reports systemF tags places (assign src dst) := by
  intro s hs
  rcases assign_cases src dst s with ⟨-, hrun⟩ | ⟨r, u, -, hrun⟩
  · rw [hrun]
  · rw [hrun]
    exact ⟨trivial, hs.unifier u⟩

theorem fresh_reports : Reports systemF tags places fresh := fresh_yields keeping_stable

theorem expectType_reports {node : Node} {kind : NodeKind} (hnode : Blamed tags places node kind)
    (t expected : Ty) : Reports systemF tags places (expectType node t expected) := by
  refine .bind (assign_reports t expected) fun r _ => ?_
  cases r with
  | ok => exact .pure trivial
  | error e => exact .bind (object_reports hnode rfl) fun _ _ => .pure trivial

theorem instantiateUpTo_reports (n : Nat) (t : Ty) :
    Reports systemF tags places (instantiateUpTo n t) := by
  induction n generalizing t with
  | zero => exact .pure trivial
  | succ n ih =>
    cases t with
    | poly params body =>
      refine .bind .get fun s hs => ?_
      exact .bind (P := fun _ => True) (fun _ _ => ⟨trivial, hs.unifier _⟩) fun _ _ => ih _
    | _ => exact .pure trivial

theorem explicitInstance_reports {node : Node} {kind : NodeKind}
    (hnode : Blamed tags places node kind) {types : List (String × Ty)} (fnType : Ty)
    {targs : List TypeExpr}
    (htargs : TypeExpr.convertsAll (Library.typeNames systemF) (types.map Prod.fst) targs = true) :
    Reports systemF tags places (explicitInstance node types fnType targs) := by
  unfold explicitInstance
  split
  · exact .pure trivial
  · exact .pure trivial
  · split
    · exact .bind (toTypes_yields keeping_stable _ _ _ htargs) fun _ _ => .pure trivial
    · exact object_reports hnode rfl
  · exact object_reports hnode rfl

theorem freshSignature_reports (args : Nat) :
    Reports systemF tags places (freshSignature args) := by
  unfold freshSignature
  dsimp only
  split
  · exact .bind (P := fun _ => True) (.pure trivial) fun _ _ =>
      .bind fresh_reports fun _ _ => .pure trivial
  · refine .bind fresh_reports fun _ _ => .bind (P := fun _ => True) (.pure trivial) fun _ _ => ?_
    exact .bind fresh_reports fun _ _ => .pure trivial

/-- The node of the first argument is blamed only where there is one. -/
theorem callResult_reports {node argNode : Node} {kind : NodeKind}
    (hnode : Blamed tags places node kind) {args : List Ty}
    (harg : args ≠ [] → ∃ kind, Blamed tags places argNode kind) (param : Option Ty) (ret : Ty) :
    Reports systemF tags places (callResult node argNode param ret args) := by
  unfold callResult
  split
  · exact resolve_reports _
  · obtain ⟨argKind, hargNode⟩ := harg (by simp)
    refine .bind (assign_reports _ _) fun r _ => ?_
    split
    · exact resolve_reports _
    · refine .bind (resolve_reports _) fun _ _ => .bind (resolve_reports _) fun _ _ => ?_
      exact .bind (object_reports hargNode rfl) fun _ _ => resolve_reports _
    · exact .bind (object_reports hargNode rfl) fun _ _ => resolve_reports _
  · exact object_reports hnode rfl

/-! ## Programs -/

/-- The scope has the type parameters, and no others than those of atoms. -/
structure Serves (types : List String) (sc : Scope) : Prop where
  declared : types ⊆ sc.types.map Prod.fst
  escaped : ∀ n ∈ sc.types.map Prod.fst, ∃ a, n = escapeTypeVar a

variable {types : List String} {sc : Scope}

theorem Serves.converts (h : Serves types sc) {t : TypeExpr} (ht : Annotates systemF t)
    (hscoped : t.scoped types = true) :
    t.converts (Library.typeNames systemF) (sc.types.map Prod.fst) = true := by
  obtain ⟨f, hf, rfl⟩ := ht
  exact Formula.converts_typeExpr hf hscoped h.declared h.escaped

theorem Serves.convertsAll (h : Serves types sc) {ts : List TypeExpr}
    (hts : ∀ t ∈ ts, Annotates systemF t) (hscoped : TypeExpr.scopedAll types ts = true) :
    TypeExpr.convertsAll (Library.typeNames systemF) (sc.types.map Prod.fst) ts = true := by
  induction ts with
  | nil => rfl
  | cons t rest ih =>
    rw [TypeExpr.scopedAll, Bool.and_eq_true] at hscoped
    rw [TypeExpr.convertsAll, h.converts (hts t (by simp)) hscoped.1,
      ih (fun u hu => hts u (by simp [hu])) hscoped.2]
    rfl

theorem Serves.convertsParams (h : Serves types sc) {ps : List Param}
    (hps : ∀ p ∈ ps, Annotates systemF p.2) (hscoped : TypeExpr.scopedParams types ps = true) :
    TypeExpr.convertsParams (Library.typeNames systemF) (sc.types.map Prod.fst) ps = true := by
  induction ps with
  | nil => rfl
  | cons p rest ih =>
    rw [TypeExpr.scopedParams, Bool.and_eq_true] at hscoped
    rw [TypeExpr.convertsParams, h.converts (hps p (by simp)) hscoped.1,
      ih (fun u hu => hps u (by simp [hu])) hscoped.2]
    rfl

theorem Serves.of_types {sc' : Scope} (h : Serves types sc) (htypes : sc'.types = sc.types) :
    Serves types sc' where
  declared := htypes ▸ h.declared
  escaped := htypes ▸ h.escaped

/-- The scope inside an arrow has its type parameters too. -/
theorem Serves.extend (h : Serves types sc) {tparams : List String} {more : List (String × Ty)}
    (hmore : more.map Prod.fst = tparams) (htparams : ∀ n ∈ tparams, ∃ a, n = escapeTypeVar a) :
    Serves (tparams ++ types) (sc.extend more) := by
  have hnames : (sc.extend more).types.map Prod.fst = tparams.reverse ++ sc.types.map Prod.fst := by
    rw [Scope.extend, List.map_append, List.map_reverse, hmore]
  refine ⟨?_, ?_⟩
  · rw [hnames]
    intro n hn
    rcases List.mem_append.mp hn with hn | hn
    · exact List.mem_append_left _ (List.mem_reverse.mpr hn)
    · exact List.mem_append_right _ (h.declared hn)
  · rw [hnames]
    intro n hn
    rcases List.mem_append.mp hn with hn | hn
    · exact htparams n (List.mem_reverse.mp hn)
    · exact h.escaped n hn

theorem types_foldl_declare (bs : List (Param × Ty)) (sc : Scope) :
    (bs.foldl (fun sc (p, t) => sc.declare p.1 t) sc).types = sc.types := by
  induction bs generalizing sc with
  | nil => rfl
  | cons b rest ih => exact ih _

/-- The scope behind a statement has the constant of the statement. -/
structure Follows (st : Stmt) (sc sc' : Scope) : Prop where
  types : sc'.types = sc.types
  declared : sc'.declared = st.constant?.toList ++ sc.declared

/-- The names of further statements are new behind it too. -/
theorem Follows.nodup {st : Stmt} {sc' : Scope} {rest : List Stmt} (h : Follows st sc sc')
    (hnodup : (sc.declared ++ constants (st :: rest)).Nodup) :
    (sc'.declared ++ constants rest).Nodup := by
  rw [constants_cons, ← List.append_assoc] at hnodup
  rw [h.declared]
  exact (List.perm_append_comm.append_right _).nodup hnodup

theorem new_of_nodup {st : Stmt} {rest : List Stmt}
    (hnodup : (sc.declared ++ constants (st :: rest)).Nodup) :
    ∀ name ∈ st.constant?, name ∉ sc.declared := by
  intro name hname hmem
  rw [constants_cons] at hnodup
  refine (List.nodup_append.mp hnodup).2.2 name hmem name ?_ rfl
  exact List.mem_append_left _ (Option.mem_toList.mpr hname)

theorem applied_reports {node argNode : Node} {args : List Expr} {kind : NodeKind}
    (hnode : Blamed tags places node kind)
    (harg : args ≠ [] → ∃ kind, Blamed tags places argNode kind)
    (hargs : Yields (· = .deeper) (Keeping systemF tags places) (fun ts => ts.length = args.length)
      (inferAll sc argNode.number args)) (fnType : Ty) :
    Reports systemF tags places (applied sc node argNode args fnType) := by
  have hresult : ∀ param ret, Reports systemF tags places
      (inferAll sc argNode.number args >>= fun ts => callResult node argNode param ret ts) := by
    refine fun param ret => .bind hargs fun ts hts => callResult_reports hnode (fun hne => ?_) _ _
    refine harg fun hnil => hne (List.length_eq_zero_iff.mp ?_)
    rw [hts, hnil, List.length_nil]
  cases fnType with
  | any => exact .bind hargs fun _ _ => .pure trivial
  | var v =>
    refine .bind (freshSignature_reports _) fun _ _ => .bind (assign_reports _ _) fun r _ => ?_
    cases r with
    | error => exact object_reports hnode rfl
    | ok => exact hresult _ _
  | thunk ret => exact hresult _ _
  | fn param ret => exact hresult _ _
  | _ => exact object_reports hnode rfl

/-- A constant whose name is new is declared without objections. -/
theorem declared_yields {E : Stop → Prop} {I : State → Prop} {P : Scope → Prop} {name : String}
    (hname : name ∉ sc.declared) (node : Node) {t : Ty} (h : P (sc.declare name t)) :
    Yields E I P (declared sc node name t) := by
  unfold declared
  dsimp only
  rw [if_neg hname]
  exact .pure h

/-- What is returned is compared with what is expected, if anything is. -/
theorem returned_reports {node : Node} {kind : NodeKind} (hnode : Blamed tags places node kind)
    (t : Ty) (expected : Option Ty) : Reports systemF tags places (returned node expected t) := by
  cases expected with
  | none => exact .pure trivial
  | some want => exact .bind (expectType_reports hnode t want) fun _ _ => .pure trivial

end

mutual

theorem infer_reports {systemF : Bool} {tags : List NodeTag} {places : List Location}
    {types : List String} {sc : Scope} {k : Nat} (hsc : Serves types sc) :
    (e : Expr) → e.Formed systemF places → Walk.scoped.expr types e = true → Numbered tags k e.tags →
      Reports systemF tags places (infer sc k e)
  | .ident name o, he, _, hk => by
    rw [infer]
    split
    · exact .pure trivial
    · exact object_reports (Expr.Formed.blamed he hk) rfl
  | .arrow tparams params ret b o, he, hscoped, hk => by
    obtain ⟨-, htparams, hlen, hparams, hret, hbody⟩ := he
    simp only [Walk.expr, Walk.scoped_arrow, Walk.scoped_inside, Bool.and_eq_true] at hscoped
    obtain ⟨⟨hparamsScoped, hretScoped⟩, hbodyScoped⟩ := hscoped
    rw [infer]
    refine .bind (.mapM (g := Prod.fst) (fun name => ?_) tparams) fun vars hvars => ?_
    · exact .bind fresh_reports fun _ _ => .bind fresh_reports fun _ _ => .pure rfl
    dsimp only
    rw [if_neg (by omega)]
    have hinner : Serves (tparams ++ types)
        (sc.extend (vars.map fun (name, _, id) => (name, .rigid name id))) := by
      refine hsc.extend ?_ htparams
      rw [← hvars, List.map_map]
      rfl
    refine .bind (toParamTypes_yields keeping_stable _ _ _ (hinner.convertsParams hparams
      hparamsScoped)) fun args _ => ?_
    have hinner' := hinner.of_types (types_foldl_declare (params.zip args) _)
    cases ret with
    | some t =>
      refine .bind (toType_yields keeping_stable _ _ _ (hinner'.converts (hret t rfl) hretScoped))
        fun expected _ => ?_
      refine .bind (body_reports hinner' (some expected) b hbody hbodyScoped hk.tail) fun _ _ => ?_
      refine .bind (P := fun _ => True) (.pure trivial) fun _ _ => ?_
      exact .bind (resolve_reports _) fun _ _ => .pure trivial
    | none =>
      refine .bind (body_reports hinner' none b hbody hbodyScoped hk.tail) fun _ _ => ?_
      exact .bind (resolve_reports _) fun _ _ => .pure trivial
  | .call fn targs args o, he, hscoped, hk => by
    have hnode := Expr.Formed.blamed he hk
    obtain ⟨-, hfn, htargs, hargs⟩ := he
    simp only [Walk.expr, Walk.scoped_call, Bool.and_eq_true] at hscoped
    obtain ⟨⟨hfnScoped, htargsScoped⟩, hargsScoped⟩ := hscoped
    have hfirst : Numbered tags (k + 1 + fn.count) (exprsTags args) := by
      rw [← Expr.Formed.length_tags fn hfn]
      exact hk.tail.right
    have harg : args ≠ [] →
        ∃ kind, Blamed tags places ⟨k + 1 + fn.count, args.head?.bind Expr.origin?⟩ kind := by
      intro hne
      cases args with
      | nil => exact absurd rfl hne
      | cons a rest => exact ⟨_, Expr.Formed.blamed hargs.1 hfirst.left⟩
    rw [infer_call]
    refine .bind (infer_reports hsc fn hfn hfnScoped hk.tail.left) fun _ _ => ?_
    refine .bind (resolve_reports _) fun _ _ => ?_
    have hconverts := hsc.convertsAll htargs htargsScoped
    refine .bind (explicitInstance_reports hnode _ hconverts) fun _ _ => ?_
    refine .bind (instantiateUpTo_reports _ _) fun t _ => ?_
    exact applied_reports hnode harg (inferAll_reports hsc args hargs hargsScoped hfirst) t

theorem inferAll_reports {systemF : Bool} {tags : List NodeTag} {places : List Location}
    {types : List String} {sc : Scope} {k : Nat} (hsc : Serves types sc) :
    (es : List Expr) → exprsFormed systemF places es → Walk.scoped.exprs types es = true →
      Numbered tags k (exprsTags es) →
      Yields (· = .deeper) (Keeping systemF tags places) (fun ts => ts.length = es.length)
        (inferAll sc k es)
  | [], _, _, _ => .pure rfl
  | e :: rest, hes, hscoped, hk => by
    rw [Walk.exprs, Walk.scoped_append, Bool.and_eq_true] at hscoped
    have hrest : Numbered tags (k + e.count) (exprsTags rest) := by
      rw [← Expr.Formed.length_tags e hes.1]
      exact hk.right
    refine .bind (infer_reports hsc e hes.1 hscoped.1 hk.left) fun _ _ => ?_
    refine .bind (inferAll_reports hsc rest hes.2 hscoped.2 hrest) fun ts hts => .pure ?_
    rw [List.length_cons, hts, List.length_cons]

theorem body_reports {systemF : Bool} {tags : List NodeTag} {places : List Location}
    {types : List String} {sc : Scope} {k : Nat} {arrow : Node} (hsc : Serves types sc)
    (expected : Option Ty) :
    (b : Body) → b.Formed systemF places → Walk.scoped.body types b = true → Numbered tags k b.tags →
      Reports systemF tags places (body sc arrow expected k b)
  | .expr e, hb, hscoped, hk => by
    have htags : Numbered tags k e.tags := by
      cases e with
      | missing => exact hb.elim
      | _ => exact hk
    rw [body_expr]
    refine .bind (infer_reports hsc e hb hscoped htags) fun t _ => ?_
    exact returned_reports (Expr.Formed.blamed hb htags) t expected
  | .block stmts, hb, hscoped, hk =>
    blockBody_reports (hsc.extend List.map_nil (by simp)) expected stmts hb.1 hb.2 hscoped hk

theorem blockBody_reports {systemF : Bool} {tags : List NodeTag} {places : List Location}
    {types : List String} {sc : Scope} {k : Nat} {arrow : Node} (hsc : Serves types sc)
    (expected : Option Ty) :
    (stmts : List Stmt) → (sc.declared ++ constants stmts).Nodup → blockFormed systemF places stmts →
      Walk.scoped.stmts types [] stmts = true → Numbered tags k (stmtsTags stmts) →
      Reports systemF tags places (blockBody sc arrow expected k stmts)
  | st :: rest, hnodup, hstmts, hscoped, hk => by
    rw [Walk.flat_scoped.stmts_cons, Walk.scoped_append, Bool.and_eq_true] at hscoped
    have hnext : st.Formed systemF places → blockFormed systemF places rest →
        Reports systemF tags places
          (stmt sc k st >>= fun inner => blockBody inner arrow expected (k + st.count) rest) := by
      intro hst hrest
      have hbehind := hk.right
      rw [Stmt.Formed.length_tags st hst] at hbehind
      refine .bind (stmt_reports hsc st (new_of_nodup hnodup) hst hscoped.1 hk.left)
        fun inner hinner => ?_
      exact blockBody_reports (hsc.of_types hinner.types) expected rest (hinner.nodup hnodup) hrest
        hscoped.2 hbehind
    cases st with
    | const | expr => exact hnext hstmts.1 hstmts.2
    | ret e =>
      have htags := hk.left.tail
      rw [blockBody_ret]
      refine .bind (infer_reports hsc e hstmts.2 hscoped.1 htags) fun t _ => ?_
      exact returned_reports (Expr.Formed.blamed hstmts.2 htags) t expected
    | _ => exact hstmts.1.elim

theorem stmt_reports {systemF : Bool} {tags : List NodeTag} {places : List Location}
    {types : List String} {sc : Scope} {k : Nat} (hsc : Serves types sc) :
    (st : Stmt) → (∀ name ∈ st.constant?, name ∉ sc.declared) → st.Formed systemF places →
      Walk.scoped.stmt types st = true → Numbered tags k st.tags →
      Yields (· = .deeper) (Keeping systemF tags places) (Follows st sc) (stmt sc k st)
  | .const name type value declare trusted signature o, hnew, hst, hscoped, hk => by
    obtain ⟨rfl, rfl, htype, hvalue⟩ := hst
    simp only [Walk.stmt, Walk.scoped_const, Bool.and_eq_true] at hscoped
    obtain ⟨⟨htypeScoped, hvalueScoped⟩, -⟩ := hscoped
    have htags : Numbered tags (k + 1) value.tags := by simpa [Stmt.tags] using hk.tail
    have hinfer := infer_reports hsc value hvalue hvalueScoped htags
    rw [stmt_const]
    refine .bind (P := fun _ => True) ?_ fun t _ => declared_yields (hnew name rfl) _ ⟨rfl, rfl⟩
    cases type with
    | some annotated =>
      have hannotated := hsc.converts (htype annotated rfl) htypeScoped
      refine .bind (toType_yields keeping_stable _ _ _ hannotated) fun want _ => ?_
      refine .bind hinfer fun found _ => ?_
      have hblamed := Expr.Formed.blamed hvalue htags
      exact .bind (expectType_reports hblamed found want) fun _ _ => .pure trivial
    | none => exact .bind hinfer fun found _ => resolve_reports found
  | .expr (.paren e) o, _, hst, hscoped, hk => by
    refine .bind (P := fun _ => True) ?_ fun _ _ => .pure ⟨rfl, rfl⟩
    rw [infer]
    exact infer_reports hsc e hst hscoped hk.tail.tail

end

/-- Checking the declarations of theorems objects to what it may only. -/
theorem file_reports {systemF : Bool} {tags : List NodeTag} {places : List Location} {sc : Scope}
    {k : Nat} {stmts : List Stmt} (hsc : Serves [] sc)
    (hnodup : (sc.declared ++ constants stmts).Nodup)
    (hformed : ∀ st ∈ stmts, st.Formed systemF places)
    (hscoped : ∀ st ∈ stmts, Walk.scoped.stmt [] st = true) (hk : Numbered tags k (stmtsTags stmts)) :
    Reports systemF tags places (file sc k stmts) := by
  induction stmts generalizing sc k with
  | nil => exact .pure trivial
  | cons st rest ih =>
    rw [List.forall_mem_cons] at hformed hscoped
    have hrest := hk.right
    rw [Stmt.Formed.length_tags st hformed.1] at hrest
    have hstmt := stmt_reports hsc st (new_of_nodup hnodup) hformed.1 hscoped.1 hk.left
    cases st with
    | const | expr =>
      refine .bind hstmt fun after hafter => ?_
      exact ih (hsc.of_types hafter.types) (hafter.nodup hnodup) hformed.2 hscoped.2 hrest
    | _ => exact hformed.1.elim

end Checker

end ProofScript
