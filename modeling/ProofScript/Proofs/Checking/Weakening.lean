import ProofScript.Proofs.Checking.Renumbered
import ProofScript.Proofs.Checking.Sound
import ProofScript.Proofs.Selection

/-!
# Checking with more declarations

What a program does not mention may be declared in front of it: the checker finds the same things, with
other numbers, and has to go deeper in the same cases. How deep comparisons may go does not bear on what is
found, either.
-/

namespace ProofScript

open Program Stateful Function

namespace Checker

variable {f : TyVar → TyVar} {F F' : Set TyVar} {c : TyVar} {d : Nat} {s s' t t' : State}

/-! ## Scopes -/

/-- The types of a scope are apart, and no type parameter stands for a variable. -/
structure Scope.Apart (F : Set TyVar) (c : TyVar) (sc : Scope) : Prop where
  values : ∀ x a, sc.values.find? x = some a → a.Apart F c
  types : Closed F c sc.types

/-- The second scope has the types of the first one with other numbers, for the given names and for all
others that are not hidden. -/
structure Scope.Mirrors (f : TyVar → TyVar) (hidden bound : List String) (sc sc' : Scope) : Prop where
  values : ∀ x, x ∈ bound ∨ x ∉ hidden →
    sc'.values.find? x = (sc.values.find? x).map (Ty.renumber f)
  types : sc'.types = renumberTypes f sc.types

section

variable {sc sc' : Scope} {hidden bound more : List String}

theorem Scope.Apart.later (h : sc.Apart F s.unifier.counter)
    (hlater : s.unifier.Advances F F' t.unifier) : sc.Apart F' t.unifier.counter where
  values x a ha := hlater.type (h.values x a ha)
  types b hb := ⟨hlater.orderly (h.types b hb).1, (h.types b hb).2⟩

theorem Scope.Apart.declare (h : sc.Apart F c) {a : Ty} (ha : a.Apart F c) (name : String) :
    (sc.declare name a).Apart F c where
  values x b hb := by
    rw [Scope.declare, TyEnv.find?_add] at hb
    split at hb
    · cases hb
      exact ha
    · exact h.values x b hb
  types := h.types

theorem Scope.Apart.extend (h : sc.Apart F c) {types : List (String × Ty)} (htypes : Closed F c types) :
    (sc.extend types).Apart F c where
  values := h.values
  types b hb := by
    rcases List.mem_append.mp hb with hb | hb
    · exact htypes b (List.mem_reverse.mp hb)
    · exact h.types b hb

theorem Scope.Mirrors.mono (h : sc.Mirrors f hidden bound sc') (hmore : more ⊆ bound) :
    sc.Mirrors f hidden more sc' :=
  ⟨fun x hx => h.values x (hx.imp_left fun hmem => hmore hmem), h.types⟩

theorem Scope.Mirrors.declare (h : sc.Mirrors f hidden bound sc') (name : String) (a : Ty) :
    (sc.declare name a).Mirrors f hidden (name :: bound) (sc'.declare name (a.renumber f)) where
  values x hx := by
    rw [Scope.declare, Scope.declare, TyEnv.find?_add, TyEnv.find?_add]
    by_cases hname : x = name
    · rw [if_pos hname, if_pos hname]
      rfl
    · rw [if_neg hname, if_neg hname]
      exact h.values x (hx.imp_left fun hmem => (List.mem_cons.mp hmem).resolve_left hname)
  types := h.types

theorem Scope.Mirrors.extend (h : sc.Mirrors f hidden bound sc') (types : List (String × Ty)) :
    (sc.extend types).Mirrors f hidden bound (sc'.extend (renumberTypes f types)) where
  values := h.values
  types := by simp [Scope.extend, h.types, renumberTypes]

/-- The scopes with parameters. -/
theorem Scope.Mirrors.declareAll (h : sc.Mirrors f hidden bound sc') (hsc : sc.Apart F c)
    {params : List Param} {args : List Ty} (hlen : args.length = params.length)
    (hargs : ∀ a ∈ args, a.Apart F c) :
    (sc.declareAll (params.zip args)).Apart F c ∧
      (sc.declareAll (params.zip args)).Mirrors f hidden (params.map Prod.fst ++ bound)
        (sc'.declareAll (params.zip (args.map (Ty.renumber f)))) ∧
      (sc.declareAll (params.zip args)).types = sc.types := by
  induction params generalizing sc sc' args bound with
  | nil => exact ⟨hsc, h, rfl⟩
  | cons p params ih =>
    match args, hlen with
    | a :: args, hlen =>
      obtain ⟨ha, hargs⟩ := List.forall_mem_cons.mp hargs
      obtain ⟨hapart, hmirrors, htypes⟩ := ih (h.declare p.1 a) (hsc.declare ha p.1)
        (Nat.succ.inj hlen) hargs
      refine ⟨hapart, hmirrors.mono ?_, htypes⟩
      intro x hx
      simp only [List.map_cons, List.cons_append, List.mem_cons, List.mem_append] at hx ⊢
      tauto

end

/-! ## Arrows -/

/-- A type parameter gets two new numbers, the first of which is for a binder. -/
theorem generic_tracks (h : s.Mirrors f d F s') (name : String) :
    Tracks f d F s s' (do
      let v ← fresh
      let id ← fresh
      return (name, v, id) : Checker Generic) (do
      let v ← fresh
      let id ← fresh
      return (name, v, id)) fun g g' t F' => g' = Prod.map id (Prod.map f f) g ∧
        (g.2.1 ∉ F' ∧ g.2.1 ≤ t.unifier.counter) ∧ g.2.2 ≤ t.unifier.counter := by
  have hnew : ∀ v ∈ [s.unifier.counter + 1],
      s.unifier.counter < v ∧ v ≤ s.unifier.counter + 1 + 1 := by
    intro v hv
    rw [List.mem_singleton.mp hv]
    lia
  refine ⟨_, _, rfl, _, .of_unifier h (h.apart.take (by lia) hnew) h.unifier.advance.advance, ?_, ⟨?_, ?_⟩,
    Int.le_refl _⟩
  · exact congrArg₂ (fun v i => (name, v, i)) h.unifier.next.symm h.unifier.advance.next.symm
  · exact fun hF => hF.2 (List.mem_singleton_self _)
  · exact Int.le_of_lt (Int.lt_succ _)

/-- The type parameters of an arrow get two new numbers each, the first of which is for a binder. -/
theorem generics_tracks (h : s.Mirrors f d F s') (names : List String) :
    Tracks f d F s s' (names.mapM fun name => do
      let v ← fresh
      let id ← fresh
      return (name, v, id) : Checker (List Generic)) (names.mapM fun name => do
      let v ← fresh
      let id ← fresh
      return (name, v, id)) fun gs gs' t F' => gs' = gs.map (Prod.map id (Prod.map f f)) ∧
        ∀ g ∈ gs, (g.2.1 ∉ F' ∧ g.2.1 ≤ t.unifier.counter) ∧ g.2.2 ≤ t.unifier.counter := by
  induction names generalizing s s' F with
  | nil => exact .pure h ⟨rfl, by simp⟩
  | cons name rest ih =>
    rw [List.mapM_cons]
    refine (generic_tracks h name).bind fun g _ t t' F₁ honward hg => ?_
    obtain ⟨rfl, hnew, hid⟩ := hg
    refine (ih honward.mirrors).bind fun gs _ t₁ t₁' F₂ honward₁ hgs => ?_
    obtain ⟨rfl, hgs⟩ := hgs
    have hlater := honward₁.advances
    refine .pure honward₁.mirrors ⟨rfl, List.forall_mem_cons.mpr ⟨⟨?_, ?_⟩, hgs⟩⟩
    · exact hlater.unused hnew
    · exact Int.le_trans hid hlater.counter

/-- The type of an arrow: its type parameters are bound if there are any. -/
abbrev generalized (gs : List Generic) (a : Ty) : Ty :=
  if gs.isEmpty then a
  else .poly (gs.map fun g => (g.1, g.2.1)) (a.abstract (Generic.consts gs))

theorem generalized_renumber (hf : Renumbers f) (gs : List Generic) (a : Ty) :
    generalized (gs.map (Prod.map id (Prod.map f f))) (a.renumber f) =
      (generalized gs a).renumber f := by
  have hconsts : Generic.consts (gs.map (Prod.map id (Prod.map f f))) =
      (Generic.consts gs).map (Prod.map (Prod.map id f) f) := by
    simp [Generic.consts, comp_def]
  rw [generalized, generalized, List.isEmpty_map, hconsts, Ty.abstract_renumber hf.injective,
    apply_ite (Ty.renumber f), Ty.renumber]
  simp [comp_def]

theorem mem_freeVars_of_generalized {gs : List Generic} {a : Ty} {v : TyVar}
    (hv : v ∈ (generalized gs a).freeVars) : v ∈ a.freeVars := by
  rw [generalized] at hv
  split at hv
  · exact hv
  rw [Ty.freeVars, List.mem_filter] at hv
  rcases Ty.mem_freeVars_of_abstract a hv.1 with hfree | hmem
  · exact hfree
  · refine absurd ?_ (by simpa using hv.2 : v ∉ (gs.map fun g => (g.1, g.2.1)).map Prod.snd)
    simpa [Generic.consts, comp_def] using hmem

theorem generalized_apart {gs : List Generic} {a : Ty} (ha : a.Apart F c)
    (hgs : ∀ g ∈ gs, g.2.1 ∉ F ∧ g.2.1 ≤ c) : (generalized gs a).Apart F c := by
  refine ⟨?_, fun v hv => ha.free v (mem_freeVars_of_generalized hv)⟩
  rw [generalized]
  split
  · exact ha.orderly
  constructor
  · intro p hp
    rcases List.mem_map.mp hp with ⟨g, hg, rfl⟩
    exact hgs g hg
  · refine Ty.Orderly.abstract ?_ a ha.orderly
    intro b hb
    rcases List.mem_map.mp hb with ⟨g, hg, rfl⟩
    exact (hgs g hg).2

section

variable {sc sc' : Scope} {hidden bound : List String} {k k' : Nat}

/-- What is left of an arrow once the type of its result is known. -/
theorem close_tracks (hf : Renumbers f) (h : s.Mirrors f d F s') {gs : List Generic} {args : List Ty}
    {result : Ty} (hargs : ∀ a ∈ args, a.Apart F s.unifier.counter)
    (hresult : result.Apart F s.unifier.counter)
    (hgs : ∀ g ∈ gs, g.2.1 ∉ F ∧ g.2.1 ≤ s.unifier.counter) :
    Tracks f d F s s' (resolve (.func args.head? result) >>= fun a => pure (generalized gs a))
      (resolve (.func (args.map (Ty.renumber f)).head? (result.renumber f)) >>=
        fun a => pure (generalized (gs.map (Prod.map id (Prod.map f f))) a)) (Alike f) := by
  have hfunc : (Ty.func args.head? result).Apart F s.unifier.counter :=
    Ty.apart_func.mpr ⟨fun a ha => hargs a (List.mem_of_mem_head? ha), hresult⟩
  have hresolve := resolve_tracks hf h hfunc
  rw [Ty.renumber_func, ← List.head?_map] at hresolve
  refine hresolve.bind fun b _ t t' F₁ honward hb => ?_
  obtain ⟨rfl, hb⟩ := hb
  rw [generalized_renumber hf]
  exact .pure honward.mirrors
    ⟨rfl, generalized_apart hb fun g hg => honward.advances.unused (hgs g hg)⟩

/-- The type of an arrow whose body is checked alike. -/
theorem arrow_tracks (hf : Renumbers f) (h : s.Mirrors f d F s') {tparams : List String}
    {params : List Param} {ret : Option TypeExpr} {b : Body} {o : Option Location}
    (hsc : sc.Apart F s.unifier.counter) (hm : sc.Mirrors f hidden bound sc')
    (hbody : ∀ (expected : Option Ty) {F : Set TyVar} {s s' : State} {sc sc' : Scope},
      s.Mirrors f d F s' → sc.Apart F s.unifier.counter →
      sc.Mirrors f hidden (params.map Prod.fst ++ bound) sc' →
      (∀ want ∈ expected, want.Apart F s.unifier.counter) →
      Tracks f d F s s' (body sc ⟨k, o⟩ expected (k + 1) b)
        (body sc' ⟨k + d, o⟩ (expected.map (Ty.renumber f)) (k + d + 1) b) (Alike f)) :
    Tracks f d F s s' (infer sc k (.arrow tparams params ret b o))
      (infer sc' (k + d) (.arrow tparams params ret b o)) (Alike f) := by
  rw [infer, infer]
  refine (generics_tracks h tparams).bind fun gs _ s₁ s₁' F₁ honward hgs => ?_
  obtain ⟨rfl, hnew⟩ := hgs
  dsimp only
  split
  · exact object_tracks honward.mirrors rfl rfl
  have hconsts : ((gs.map (Prod.map id (Prod.map f f))).map fun g => (g.1, Ty.rigid g.1 g.2.2)) =
      renumberTypes f (gs.map fun g => (g.1, Ty.rigid g.1 g.2.2)) := by
    simp [renumberTypes, comp_def, Ty.renumber]
  simp only [hconsts]
  have hclosed : Closed F₁ s₁.unifier.counter (gs.map fun g => (g.1, Ty.rigid g.1 g.2.2)) := by
    intro b hb
    rcases List.mem_map.mp hb with ⟨g, hg, rfl⟩
    exact ⟨(hnew g hg).2, by simp [Ty.freeVars]⟩
  have hextended := (hsc.later honward.advances).extend hclosed
  have hmirrors := hm.extend (gs.map fun g => (g.1, Ty.rigid g.1 g.2.2))
  rw [hmirrors.types]
  refine (toParamTypes_tracks hf honward.mirrors (fun b hb => (hextended.types b hb).1) params).bind_run
    fun args _ s₂ s₂' F₂ hrun honward₂ hall => ?_
  obtain ⟨rfl, hlen, hall⟩ := hall
  have hargs : ∀ a ∈ args, a.Apart F₂ s₂.unifier.counter := fun a ha =>
    hextended.types.apart (hall a ha) (toParamTypes_over params hrun a ha)
  obtain ⟨hinner, hmirrors₂, htypes⟩ :=
    hmirrors.declareAll (hextended.later honward₂.advances) hlen hargs
  have hgenerics : ∀ {F : Set TyVar} {mid : State}, s₂.unifier.Advances F₂ F mid.unifier →
      ∀ g ∈ gs, g.2.1 ∉ F ∧ g.2.1 ≤ mid.unifier.counter := by
    intro F mid hlater g hg
    exact (honward₂.advances.trans hlater).unused (hnew g hg).1
  cases ret with
  | none =>
    refine (hbody none honward₂.mirrors hinner hmirrors₂ (by simp)).bind
      fun r _ s₃ s₃' F₃ honward₃ hr => ?_
    obtain ⟨rfl, hr⟩ := hr
    exact close_tracks hf honward₃.mirrors (fun a ha => honward₃.advances.type (hargs a ha)) hr
      (hgenerics honward₃.advances)
  | some te =>
    dsimp only
    rw [hmirrors₂.types]
    refine (toType_tracks hf honward₂.mirrors (fun b hb => (hinner.types b hb).1) te).bind_run
      fun want _ s₃ s₃' F₃ hrun honward₃ hread => ?_
    obtain ⟨rfl, hread⟩ := hread
    have hwant := hinner.types.apart hread (toType_over te hrun)
    refine (hbody (some want) honward₃.mirrors (hinner.later honward₃.advances) hmirrors₂
      (by simpa using hwant)).bind fun r _ s₄ s₄' F₄ honward₄ _ => ?_
    refine (Tracks.pure (Q := Alike f) honward₄.mirrors ⟨rfl, honward₄.advances.type hwant⟩).bind
      fun _ _ s₅ s₅' F₅ honward₅ hresult => ?_
    obtain ⟨rfl, hresult⟩ := hresult
    have hlater := (honward₃.advances.trans honward₄.advances).trans honward₅.advances
    exact close_tracks hf honward₅.mirrors (fun a ha => hlater.type (hargs a ha)) hresult
      (hgenerics hlater)

/-- The result of a call whose arguments are checked alike. -/
theorem applied_tracks (hf : Renumbers f) (h : s.Mirrors f d F s') {node node' argNode argNode' : Node}
    {args : List Expr} {a : Ty} (ha : a.Apart F s.unifier.counter)
    (hnode : node' = node.shift d) (hargNode : argNode' = argNode.shift d)
    (hargs : ∀ {F' : Set TyVar} {mid mid' : State}, Onward f d F F' s s' mid mid' →
      Tracks f d F' mid mid' (inferAll sc argNode.number args)
        (inferAll sc' (argNode.number + d) args) fun as bs t F' =>
          bs = as.map (Ty.renumber f) ∧ ∀ a ∈ as, a.Apart F' t.unifier.counter) :
    Tracks f d F s s' (applied sc node argNode args a) (applied sc' node' argNode' args (a.renumber f))
      (Alike f) := by
  subst hnode hargNode
  have hresult : ∀ {F' : Set TyVar} {mid mid' : State} (param : Option Ty) {ret : Ty},
      Onward f d F F' s s' mid mid' → (Ty.func param ret).Apart F' mid.unifier.counter →
      Tracks f d F' mid mid' (do
        let ts ← inferAll sc argNode.number args
        callResult node argNode param ret ts) (do
        let ts ← inferAll sc' (argNode.number + d) args
        callResult (node.shift d) (argNode.shift d) (param.map (Ty.renumber f)) (ret.renumber f) ts)
        (Alike f) := by
    intro F' mid mid' param ret honward hsignature
    refine (hargs honward).bind fun ts _ t t' F₁ honward₁ hts => ?_
    obtain ⟨rfl, hts⟩ := hts
    exact callResult_tracks hf honward₁.mirrors node argNode (honward₁.advances.type hsignature) hts
  cases a with
  | any =>
    refine (hargs (.refl h)).bind fun _ _ t t' F₁ honward _ => ?_
    exact .pure honward.mirrors ⟨rfl, apart_any rfl⟩
  | var v =>
    refine (freshSignature_tracks h args.length).bind fun (param, ret) _ s₁ s₁' F₁ honward hfresh => ?_
    obtain ⟨rfl, hfunc⟩ := hfresh
    have hassigned := assign_tracks hf honward.mirrors (honward.advances.type ha) hfunc
    rw [Ty.renumber, Ty.renumber_func] at hassigned
    refine hassigned.bind fun r _ s₂ s₂' F₂ honward₂ hr => ?_
    obtain ⟨rfl, -⟩ := hr
    cases r with
    | error e => exact object_tracks honward₂.mirrors rfl rfl
    | ok => exact hresult _ (honward.trans honward₂) (honward₂.advances.type hfunc)
  | thunk ret => exact hresult none (.refl h) ha
  | fn param ret => exact hresult (some param) (.refl h) ha
  | rigid => exact object_tracks h rfl rfl
  | con => exact object_tracks h rfl rfl
  | poly => exact object_tracks h rfl rfl
  | never => exact object_tracks h rfl rfl

/-! ## Expressions, bodies and statements -/

theorem unsupportedExpr_tracks (h : s.Mirrors f d F s') (hk : k' = k + d) (e : Expr) :
    Tracks f d F s s' (match e.print with
      | .ok shown => object ⟨k, e.origin?⟩ (.unsupportedExpr shown)
      | .error g => throw (.gap g) : Checker Ty) (match e.print with
      | .ok shown => object ⟨k', e.origin?⟩ (.unsupportedExpr shown)
      | .error g => throw (.gap g) : Checker Ty) (Alike f) := by
  cases e.print with
  | ok shown => exact object_tracks h (Node.mk_shift hk _) rfl
  | error g => exact .throw (.gap g)

theorem returned_tracks (hf : Renumbers f) (h : s.Mirrors f d F s') {node node' : Node}
    {expected : Option Ty} {a : Ty} (hnode : node' = node.shift d) (ha : a.Apart F s.unifier.counter)
    (hexpected : ∀ want ∈ expected, want.Apart F s.unifier.counter) :
    Tracks f d F s s' (returned node expected a)
      (returned node' (expected.map (Ty.renumber f)) (a.renumber f)) (Alike f) := by
  cases expected with
  | none => exact .pure h ⟨rfl, ha⟩
  | some want =>
    have hwant := hexpected want rfl
    refine (expectType_tracks hf h hnode ha hwant).bind fun _ _ t t' F₁ honward _ => ?_
    exact .pure honward.mirrors ⟨rfl, honward.advances.type hwant⟩

theorem Scope.Apart.toType_tracks (hf : Renumbers f) (h : s.Mirrors f d F s') {node node' : Node}
    (hnode : node' = node.shift d) (hsc : sc.Apart F s.unifier.counter)
    (hm : sc.Mirrors f hidden bound sc') (te : TypeExpr) :
    Tracks f d F s s' (toType node sc.types te) (toType node' sc'.types te) (Alike f) := by
  rw [hm.types, hnode]
  exact (Checker.toType_tracks hf h (fun b hb => (hsc.types b hb).1) te).imp
    fun a _ _ _ hrun hread => ⟨hread.1, hsc.types.apart hread.2 (toType_over te hrun)⟩

/-- The type of a constant whose value is checked alike. -/
theorem constType_tracks (hf : Renumbers f) (h : s.Mirrors f d F s') {node node' : Node} {k k' : Nat}
    {type signature : Option TypeExpr} {value : Expr} {declare trusted : Bool}
    (hsc : sc.Apart F s.unifier.counter) (hm : sc.Mirrors f hidden bound sc')
    (hnode : node' = node.shift d) (hk : k' = k + d)
    (hvalue : ∀ {F : Set TyVar} {s s' : State}, s.Mirrors f d F s' → sc.Apart F s.unifier.counter →
      Tracks f d F s s' (infer sc k value) (infer sc' k' value) (Alike f)) :
    Tracks f d F s s' (constType sc node k type value declare trusted signature)
      (constType sc' node' k' type value declare trusted signature) (Alike f) := by
  have hchecked : Tracks f d F s s' (constType sc node k type value declare false none)
      (constType sc' node' k' type value declare false none) (Alike f) := by
    cases declare with
    | true => exact hsc.toType_tracks hf h hnode hm _
    | false =>
      cases type with
      | none =>
        refine (hvalue h hsc).bind fun found _ t t' F₁ honward hfound => ?_
        obtain ⟨rfl, hfound⟩ := hfound
        exact resolve_tracks hf honward.mirrors hfound
      | some annotated =>
        refine (hsc.toType_tracks hf h hnode hm annotated).bind
          fun want _ s₁ s₁' F₁ honward hwant => ?_
        obtain ⟨rfl, hwant⟩ := hwant
        refine (hvalue honward.mirrors (hsc.later honward.advances)).bind
          fun found _ s₂ s₂' F₂ honward₂ hfound => ?_
        obtain ⟨rfl, hfound⟩ := hfound
        have hwant₂ := honward₂.advances.type hwant
        refine (expectType_tracks hf honward₂.mirrors (Node.mk_shift hk _) hfound hwant₂).bind
          fun _ _ s₃ s₃' F₃ honward₃ _ => ?_
        exact .pure honward₃.mirrors ⟨rfl, honward₃.advances.type hwant₂⟩
  cases trusted with
  | false => exact hchecked
  | true =>
    cases signature with
    | none => exact hchecked
    | some signature => exact hsc.toType_tracks hf h hnode hm signature

/-- The scopes behind a statement. -/
structure Behind (f : TyVar → TyVar) (hidden bound : List String) (constant : Option String)
    (sc sc' after after' : Scope) : Prop where
  mirrors : after.Mirrors f hidden (constant.toList ++ bound) after'
  declared : after.declared = constant.toList ++ sc.declared
  declared' : after'.declared = constant.toList ++ sc'.declared

/-- A statement that is not for the checker. -/
theorem unsupportedStmt_tracks (h : s.Mirrors f d F s') {node node' : Node}
    (hnode : node' = node.shift d) (hsc : sc.Apart F s.unifier.counter)
    (hm : sc.Mirrors f hidden bound sc') :
    Tracks f d F s s' (do
        let _ ← object node .unsupportedStatement
        return sc) (do
        let _ ← object node' .unsupportedStatement
        return sc') fun after after' t F' => Behind f hidden bound none sc sc' after after' ∧
          after.Apart F' t.unifier.counter :=
  (object_tracks h hnode rfl).bind fun _ _ _ _ _ honward _ =>
    .pure honward.mirrors ⟨⟨hm, rfl, rfl⟩, hsc.later honward.advances⟩

theorem declared_tracks (h : s.Mirrors f d F s') {node node' : Node} {name : String} {a : Ty}
    (hnode : node' = node.shift d) (hsc : sc.Apart F s.unifier.counter)
    (hm : sc.Mirrors f hidden bound sc') (ha : a.Apart F s.unifier.counter)
    (hdeclared : name ∈ sc'.declared ↔ name ∈ sc.declared) :
    Tracks f d F s s' (declared sc node name a) (declared sc' node' name (a.renumber f))
      fun after after' t F' => Behind f hidden bound (some name) sc sc' after after' ∧
        after.Apart F' t.unifier.counter := by
  have hbehind : Behind f hidden bound (some name) sc sc' (sc.declare name a)
      (sc'.declare name (a.renumber f)) := ⟨hm.declare name a, rfl, rfl⟩
  have hafter := hsc.declare ha name
  unfold declared
  dsimp only
  by_cases hname : name ∈ sc.declared
  · rw [if_pos hname, if_pos (hdeclared.mpr hname)]
    exact (object_tracks h hnode rfl).bind fun _ _ _ _ _ honward _ =>
      .pure honward.mirrors ⟨hbehind, hafter.later honward.advances⟩
  · rw [if_neg hname, if_neg fun hname' => hname (hdeclared.mp hname')]
    exact .pure h ⟨hbehind, hafter⟩

mutual

/-- The second run finds the same type where the expression mentions nothing that is hidden. -/
theorem infer_tracks (hf : Renumbers f) {F : Set TyVar} {s s' : State} {sc sc' : Scope}
    {hidden bound : List String} {k k' : Nat} (h : s.Mirrors f d F s')
    (hsc : sc.Apart F s.unifier.counter) (hm : sc.Mirrors f hidden bound sc') (hk : k' = k + d) :
    (e : Expr) → (∀ x ∈ Walk.free.expr bound e, x ∉ hidden) →
      Tracks f d F s s' (infer sc k e) (infer sc' k' e) (Alike f)
  | .ident name o, hfree => by
    have hname : name ∈ bound ∨ name ∉ hidden := by
      by_cases hmem : name ∈ bound
      · exact .inl hmem
      · exact .inr (hfree name (by simp [Walk.expr, hmem]))
    rw [infer, infer, hm.values name hname]
    cases hfind : sc.values.find? name with
    | none => exact object_tracks h (Node.mk_shift hk _) rfl
    | some u => exact .pure h ⟨rfl, hsc.values name u hfind⟩
  | .paren e, hfree => infer_tracks hf h hsc hm (by omega) e hfree
  | .arrow tparams params ret b o, hfree => by
    subst hk
    refine arrow_tracks hf h hsc hm fun expected F s s' sc sc' h hsc hm hexpected => ?_
    exact body_tracks hf h hsc hm rfl (by omega) hexpected b hfree
  | .call fn targs args o, hfree => by
    subst hk
    rw [Walk.expr, Walk.free_call, List.forall_mem_append] at hfree
    rw [infer_call, infer_call]
    refine (infer_tracks hf h hsc hm (by omega) fn hfree.1).bind
      fun a₁ _ s₁ s₁' F₁ honward₁ ha₁ => ?_
    obtain ⟨rfl, ha₁⟩ := ha₁
    refine (resolve_tracks hf honward₁.mirrors ha₁).bind fun a₂ _ s₂ s₂' F₂ honward₂ ha₂ => ?_
    obtain ⟨rfl, ha₂⟩ := ha₂
    have hlater₂ := honward₁.trans honward₂
    rw [hm.types]
    refine (explicitInstance_tracks hf honward₂.mirrors (hsc.later hlater₂.advances).types ha₂).bind
      fun a₃ _ s₃ s₃' F₃ honward₃ ha₃ => ?_
    obtain ⟨rfl, ha₃⟩ := ha₃
    rw [Ty.size_renumber]
    refine (instantiateUpTo_tracks hf honward₃.mirrors ha₃).bind
      fun a₄ _ s₄ s₄' F₄ honward₄ ha₄ => ?_
    obtain ⟨rfl, ha₄⟩ := ha₄
    have hlater₄ := (hlater₂.trans honward₃).trans honward₄
    refine applied_tracks hf honward₄.mirrors ha₄ rfl (Node.mk_shift (by omega) _) ?_
    intro F' mid mid' honward
    exact inferAll_tracks hf honward.mirrors (hsc.later (hlater₄.trans honward).advances) hm rfl args
      hfree.2
  | .missing, _ => unsupportedExpr_tracks h hk .missing
  | .str v, _ => unsupportedExpr_tracks h hk (.str v)
  | .bool b, _ => unsupportedExpr_tracks h hk (.bool b)
  | .array es, _ => unsupportedExpr_tracks h hk (.array es)
  | .object ps, _ => unsupportedExpr_tracks h hk (.object ps)
  | .index e i, _ => unsupportedExpr_tracks h hk (.index e i)
  | .prop e m, _ => unsupportedExpr_tracks h hk (.prop e m)
  | .cond x y z, _ => unsupportedExpr_tracks h hk (.cond x y z)
  | .cast e u, _ => unsupportedExpr_tracks h hk (.cast e u)

theorem inferAll_tracks (hf : Renumbers f) {F : Set TyVar} {s s' : State} {sc sc' : Scope}
    {hidden bound : List String} {k k' : Nat} (h : s.Mirrors f d F s')
    (hsc : sc.Apart F s.unifier.counter) (hm : sc.Mirrors f hidden bound sc') (hk : k' = k + d) :
    (es : List Expr) → (∀ x ∈ Walk.free.exprs bound es, x ∉ hidden) →
      Tracks f d F s s' (inferAll sc k es) (inferAll sc' k' es) fun as bs t F' =>
        bs = as.map (Ty.renumber f) ∧ ∀ a ∈ as, a.Apart F' t.unifier.counter
  | [], _ => .pure h ⟨rfl, by simp⟩
  | e :: rest, hfree => by
    rw [Walk.exprs, Walk.free_append, List.forall_mem_append] at hfree
    rw [inferAll, inferAll]
    refine (infer_tracks hf h hsc hm hk e hfree.1).bind fun a _ s₁ s₁' F₁ honward ha => ?_
    obtain ⟨rfl, ha⟩ := ha
    refine (inferAll_tracks hf honward.mirrors (hsc.later honward.advances) hm (by omega) rest
      hfree.2).bind fun as _ s₂ s₂' F₂ honward₂ has => ?_
    obtain ⟨rfl, has⟩ := has
    exact .pure honward₂.mirrors
      ⟨rfl, List.forall_mem_cons.mpr ⟨honward₂.advances.type ha, has⟩⟩

theorem body_tracks (hf : Renumbers f) {F : Set TyVar} {s s' : State} {sc sc' : Scope}
    {hidden bound : List String} {arrow arrow' : Node} {expected : Option Ty} {k k' : Nat}
    (h : s.Mirrors f d F s') (hsc : sc.Apart F s.unifier.counter) (hm : sc.Mirrors f hidden bound sc')
    (harrow : arrow' = arrow.shift d) (hk : k' = k + d)
    (hexpected : ∀ want ∈ expected, want.Apart F s.unifier.counter) :
    (b : Body) → (∀ x ∈ Walk.free.body bound b, x ∉ hidden) →
      Tracks f d F s s' (body sc arrow expected k b)
        (body sc' arrow' (expected.map (Ty.renumber f)) k' b) (Alike f)
  | .missing, _ => object_tracks h harrow rfl
  | .expr e, hfree => by
    rw [body_expr, body_expr]
    refine (infer_tracks hf h hsc hm hk e hfree).bind fun found _ t t' F₁ honward hfound => ?_
    obtain ⟨rfl, hfound⟩ := hfound
    exact returned_tracks hf honward.mirrors (Node.mk_shift hk _) hfound
      fun want hwant => honward.advances.type (hexpected want hwant)
  | .block stmts, hfree =>
    blockBody_tracks hf h (hsc.extend (by simp [Closed])) (hm.extend []) rfl harrow hk hexpected stmts
      hfree

theorem blockBody_tracks (hf : Renumbers f) {F : Set TyVar} {s s' : State} {sc sc' : Scope}
    {hidden bound : List String} {arrow arrow' : Node} {expected : Option Ty} {k k' : Nat}
    (h : s.Mirrors f d F s') (hsc : sc.Apart F s.unifier.counter) (hm : sc.Mirrors f hidden bound sc')
    (hdeclared : sc'.declared = sc.declared) (harrow : arrow' = arrow.shift d) (hk : k' = k + d)
    (hexpected : ∀ want ∈ expected, want.Apart F s.unifier.counter) :
    (stmts : List Stmt) → (∀ x ∈ Walk.free.stmts bound [] stmts, x ∉ hidden) →
      Tracks f d F s s' (blockBody sc arrow expected k stmts)
        (blockBody sc' arrow' (expected.map (Ty.renumber f)) k' stmts) (Alike f)
  | [], _ => by
    cases expected with
    | none => exact .pure h ⟨rfl, trivial, by simp [Ty.freeVars, Ty.freeVarsAll]⟩
    | some want => exact object_tracks h harrow rfl
  | st :: rest, hfree => by
    rw [Walk.free_cons, List.forall_mem_append] at hfree
    cases st with
    | ret e =>
      rw [blockBody_ret, blockBody_ret]
      refine (infer_tracks hf h hsc hm (by omega) e hfree.1).bind
        fun found _ t t' F₁ honward hfound => ?_
      obtain ⟨rfl, hfound⟩ := hfound
      exact returned_tracks hf honward.mirrors (Node.mk_shift (by omega) _) hfound
        fun want hwant => honward.advances.type (hexpected want hwant)
    | _ =>
      refine (stmt_tracks hf h hsc hm hk _ hfree.1 (by simp [hdeclared])).bind
        fun after after' t t' F₁ honward hafter => ?_
      obtain ⟨hbehind, hafter⟩ := hafter
      have hdeclared₁ : after'.declared = after.declared := by
        rw [hbehind.declared, hbehind.declared', hdeclared]
      exact blockBody_tracks hf honward.mirrors hafter hbehind.mirrors hdeclared₁ harrow (by omega)
        (fun want hwant => honward.advances.type (hexpected want hwant)) rest hfree.2

theorem stmt_tracks (hf : Renumbers f) {F : Set TyVar} {s s' : State} {sc sc' : Scope}
    {hidden bound : List String} {k k' : Nat} (h : s.Mirrors f d F s')
    (hsc : sc.Apart F s.unifier.counter) (hm : sc.Mirrors f hidden bound sc') (hk : k' = k + d) :
    (st : Stmt) → (∀ x ∈ Walk.free.stmt bound st, x ∉ hidden) →
      (∀ name ∈ st.constant?, name ∈ sc'.declared ↔ name ∈ sc.declared) →
      Tracks f d F s s' (stmt sc k st) (stmt sc' k' st) fun after after' t F' =>
        Behind f hidden bound st.constant? sc sc' after after' ∧ after.Apart F' t.unifier.counter
  | .const name type value declare trusted signature o, hfree, hdeclared => by
    rw [stmt_const, stmt_const]
    have hvalue : Tracks f d F s s'
        (constType sc ⟨k, o⟩ (k + 1) type value declare trusted signature)
        (constType sc' ⟨k', o⟩ (k' + 1) type value declare trusted signature) (Alike f) :=
      constType_tracks hf h hsc hm (Node.mk_shift hk _) (by omega)
        fun h hsc => infer_tracks hf h hsc hm (by omega) value hfree
    refine hvalue.bind fun a _ t t' F₁ honward ha => ?_
    obtain ⟨rfl, ha⟩ := ha
    exact declared_tracks honward.mirrors (Node.mk_shift hk _) (hsc.later honward.advances) hm ha
      (hdeclared name rfl)
  | .expr e o, hfree, _ => by
    rw [stmt, stmt]
    exact (infer_tracks hf h hsc hm (by omega) e hfree).bind fun _ _ _ _ _ honward _ =>
      .pure honward.mirrors ⟨⟨hm, rfl, rfl⟩, hsc.later honward.advances⟩
  | .missing, _, _ => unsupportedStmt_tracks h (Node.mk_shift hk _) hsc hm
  | .typeAlias _ _ _, _, _ => unsupportedStmt_tracks h (Node.mk_shift hk _) hsc hm
  | .ret _, _, _ => unsupportedStmt_tracks h (Node.mk_shift hk _) hsc hm

end

/-- The scope looks the same to a run with the same numbers. -/
theorem Scope.mirrors_id (sc : Scope) : sc.Mirrors id [] [] sc where
  values x _ := by
    have hid : Ty.renumber id = id := funext Ty.renumber_id
    rw [hid, Option.map_id, id_eq]
  types := by
    have hid : Ty.renumber id = id := funext Ty.renumber_id
    rw [renumberTypes, hid, Prod.map_id, List.map_id]

/-- Checking a statement only binds variables of the types around and new ones. -/
theorem stmt_advances {st : Stmt} {after : Scope} (hs : s.unifier.Apart F)
    (hsc : sc.Apart F s.unifier.counter) (hrun : stmt sc k st s = (.ok after, t)) :
    ∃ F', s.unifier.Advances F F' t.unifier ∧ s.Keeps t ∧ after.Apart F' t.unifier.counter := by
  -- The second run is the same one, up to what was found before.
  obtain ⟨_, _, -, F', honward, -, hafter⟩ := (stmt_tracks renumbers_id (State.mirrors_id hs) hsc
    sc.mirrors_id rfl st (by simp) (by simp)).of_ok hrun
  exact ⟨F', honward.advances, honward.keeps, hafter⟩

/-- A statement declares its constant only. -/
theorem stmt_values {st : Stmt} {after : Scope} (hrun : stmt sc k st s = (.ok after, t)) :
    after.types = sc.types ∧
      ∀ x, st.constant? ≠ some x → after.values.find? x = sc.values.find? x := by
  cases st with
  | const name type value declare trusted signature o =>
    rw [stmt_const] at hrun
    obtain ⟨a, s₁, -, hrun⟩ := bind_eq_ok.mp hrun
    obtain rfl := declared_eq_ok hrun
    refine ⟨rfl, fun x hx => ?_⟩
    rw [Scope.declare, TyEnv.find?_add, if_neg]
    rintro rfl
    exact hx rfl
  | _ =>
    obtain ⟨_, s₁, -, hrun⟩ := bind_eq_ok.mp hrun
    obtain ⟨rfl, -⟩ := pure_eq_ok.mp hrun
    exact ⟨rfl, fun _ _ => rfl⟩

/-- The constants of a file have the same standing in both scopes if none of them is hidden. -/
theorem Behind.agree {constant : Option String} {after after' : Scope}
    (h : Behind f hidden bound constant sc sc' after after')
    (hagree : ∀ name ∉ hidden, name ∈ sc'.declared ↔ name ∈ sc.declared) :
    ∀ name ∉ hidden, name ∈ after'.declared ↔ name ∈ after.declared := by
  intro name hname
  rw [h.declared, h.declared', List.mem_append, List.mem_append, hagree name hname]

/-- The second run objects to the same statements of a file that mentions and declares nothing that is
hidden, and has to go deeper in the same cases. -/
theorem file_parallel (hf : Renumbers f) {stmts : List Stmt} (h : s.Mirrors f d F s')
    (hsc : sc.Apart F s.unifier.counter) (hm : sc.Mirrors f hidden bound sc')
    (hagree : ∀ name ∉ hidden, name ∈ sc'.declared ↔ name ∈ sc.declared) (hk : k' = k + d)
    (hfree : ∀ x ∈ Walk.free.stmts bound [] stmts, x ∉ hidden)
    (hconstants : ∀ x ∈ constants stmts, x ∉ hidden) :
    Parallel s s' (file sc k stmts) (file sc' k' stmts)
      fun _ t _ t' => t'.findings = t.findings.map (Finding.renumber f d) := by
  induction stmts generalizing F s s' sc sc' bound k k' with
  | nil => exact ⟨(), s', rfl, h.findings⟩
  | cons st rest ih =>
    rw [Walk.free_cons, List.forall_mem_append] at hfree
    have hname : ∀ name ∈ st.constant?, name ∉ hidden := fun name hname =>
      hconstants name (List.mem_filterMap.mpr ⟨st, by simp, hname⟩)
    have hrest : ∀ x ∈ constants rest, x ∉ hidden := fun x hx =>
      hconstants x ((List.sublist_cons_self st rest).filterMap _ |>.subset hx)
    have hnext : k' + st.count = k + st.count + d := by rw [hk, Nat.add_right_comm]
    cases st with
    | typeAlias name tparams u =>
      rw [file, file]
      cases aliasArity? name with
      | none =>
        have hobject := object_tracks (o := .unsupportedAlias name) h (Node.mk_shift hk none) rfl
        refine Parallel.bind hobject fun _ t _ t' _ hmid => ?_
        obtain ⟨F', honward, -⟩ := hmid
        exact ⟨honward.keeps.depth, honward.keeps'.depth, ih honward.mirrors
          (hsc.later honward.advances) hm hagree hnext hfree.2 hrest⟩
      | some arity =>
        have halias : State.Mirrors f d F { s with aliases := name :: s.aliases }
            { s' with aliases := name :: s'.aliases } :=
          ⟨h.apart, h.depth, h.unifier, congrArg (name :: ·) h.aliases, h.findings⟩
        exact ih halias hsc hm hagree hnext hfree.2 hrest
    | _ =>
      have hstmt := stmt_tracks hf h hsc hm hk _ hfree.1 fun name hmem => hagree name (hname name hmem)
      refine Parallel.bind hstmt fun after t after' t' _ hmid => ?_
      obtain ⟨F', honward, hbehind, hafter⟩ := hmid
      exact ⟨honward.keeps.depth, honward.keeps'.depth, ih honward.mirrors hafter hbehind.mirrors
        (hbehind.agree hagree) hnext hfree.2 hrest⟩

end

/-! ## What is found -/

/-- Where checking two programs goes parallel, what is found corresponds. -/
theorem findings?_of_parallel {n n' : Nat} {stmts stmts' : List Stmt}
    {g : List Finding → List Finding}
    (h : Parallel (.empty n) (.empty n') (file .empty 0 stmts) (file .empty 0 stmts')
      fun _ t _ t' => t'.findings = g t.findings) :
    (findings? n stmts = none ∧ n < n') ∨
      findings? n' stmts' = (findings? n stmts).map fun r => r.map g := by
  obtain ⟨r, t, hrun⟩ : ∃ r t, file .empty 0 stmts (.empty n) = (r, t) := ⟨_, _, rfl⟩
  have hfirst : outcome n stmts = (r, t) := hrun
  rw [findings?, findings?, hfirst]
  cases r with
  | ok _ =>
    obtain ⟨_, t', hrun', hfound⟩ := h.of_ok hrun
    have hsecond : outcome n' stmts' = (.ok (), t') := hrun'
    rw [hsecond]
    exact .inr (congrArg (fun fs => some (Except.ok fs)) hfound)
  | error e =>
    rcases h.of_error hrun with ⟨rfl, hlt⟩ | ⟨t', hrun'⟩
    · exact .inl ⟨rfl, hlt⟩
    · have hsecond : outcome n' stmts' = (.error e, t') := hrun'
      rw [hsecond]
      cases e <;> exact .inr rfl

theorem apart_empty : Unifier.empty.Apart {v | 0 < v} where
  subst := ⟨⟨[], Nat.le_refl _, fun _ h => absurd rfl h, trivial⟩, fun _ _ h => (by cases h),
    fun _ _ _ h => (by cases h)⟩
  fresh _ hv := hv
  nonneg := Int.le_refl _

/-- What is found within a depth is found within every larger one. -/
theorem findings?_mono {n n' : Nat} (hn : n ≤ n') {stmts : List Stmt} {r : Except Gap (List Finding)}
    (h : findings? n stmts = some r) : findings? n' stmts = some r := by
  have hstart : (State.empty n).Mirrors id 0 {v | 0 < v} (.empty n') :=
    ⟨apart_empty, hn, Unifier.empty.mirrors_id, rfl, rfl⟩
  have hscope : Scope.empty.Apart {v | 0 < v} (State.empty n).unifier.counter :=
    ⟨fun _ _ h => (by cases h), by simp [Scope.empty, Closed]⟩
  have hruns : Parallel (.empty n) (.empty n') (file .empty 0 stmts) (file .empty 0 stmts)
      fun _ t _ t' => t'.findings = t.findings.map (Finding.renumber id 0) :=
    file_parallel renumbers_id hstart hscope Scope.empty.mirrors_id (by simp) rfl (by simp) (by simp)
  rcases findings?_of_parallel hruns with ⟨hnone, -⟩ | hsame
  · rw [h] at hnone
    cases hnone
  · rw [hsame, h]
    cases r with
    | error g => rfl
    | ok fs =>
      have hid : fs.map (Finding.renumber id 0) = fs :=
        (List.map_congr_left fun x _ => x.renumber_id).trans (List.map_id fs)
      rw [Option.map_some, Except.map, hid]

end Checker

/-- A program has the same diagnostics within every depth within which it has any. -/
theorem Program.Printed.check?_mono {p : Printed} {n n' : Nat} (hn : n ≤ n')
    {r : Except Gap (List Diagnostic)} (h : p.check? n = some r) : p.check? n' = some r := by
  obtain ⟨fs, hfs, rfl⟩ := Option.map_eq_some_iff.mp h
  rw [check?, Checker.findings?_mono hn hfs, Option.map_some]

/-- Whoever waits for the diagnostics of a program gets those within some depth, if there are any. -/
theorem Program.Printed.wait_check? {p : Printed} {r : Except Gap (List Diagnostic)} :
    (Waits.wait p.check? : Option (Except Gap (List Diagnostic))) = some r ↔ ∃ n, p.check? n = some r :=
  settle?_eq_some fun _ _ _ hn h => check?_mono hn h

end ProofScript
