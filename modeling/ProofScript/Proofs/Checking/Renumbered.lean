import ProofScript.Proofs.Checking.Annotations
import ProofScript.Proofs.Mirroring

/-!
# Checking with other numbers

Two runs of the checker that differ in the numbers they take, in the place of the program and in how deep
comparisons of types may go take the same steps. Where the first run has to go deeper, the second one has to
as well, unless it may go deeper than the first.
-/

namespace ProofScript

open Program Stateful Function

/-- New numbers, one for each, where the number of the constants of the library is kept. -/
structure Renumbers (f : TyVar → TyVar) : Prop where
  injective : Injective f
  zero : f 0 = 0

theorem renumbers_id : Renumbers id := ⟨injective_id, rfl⟩

variable {f : TyVar → TyVar} {F F' : Set TyVar} {c : TyVar} {d : Nat}

namespace Objection

/-- The objection with other numbers. -/
def renumber (f : TyVar → TyVar) : Objection → Objection
  | notAssignable e => notAssignable (e.renumber f)
  | argumentType arg param => argumentType (arg.renumber f) (param.renumber f)
  | argument e => argument (e.renumber f)
  | notCallable t => notCallable (t.map (Ty.renumber f))
  | o => o

theorem renumber_id (o : Objection) : o.renumber id = o := by
  cases o with
  | notAssignable e => exact congrArg notAssignable e.renumber_id
  | argument e => exact congrArg argument e.renumber_id
  | argumentType arg param => exact congrArg₂ argumentType (Ty.renumber_id arg) (Ty.renumber_id param)
  | notCallable t =>
    cases t with
    | none => rfl
    | some t => exact congrArg (fun t => notCallable (some t)) (Ty.renumber_id t)
  | _ => rfl

theorem code_renumber (o : Objection) : (o.renumber f).code = o.code := by
  cases o <;> rfl

/-- Messages do not show numbers. -/
theorem message_renumber (hf : Injective f) (o : Objection) :
    (o.renumber f).message = o.message := by
  cases o with
  | notAssignable e => exact e.message_renumber hf
  | argument e => exact e.message_renumber hf
  | argumentType arg param =>
    exact congrArg₂ (fun a p : String => (↑("Argument of type '" ++ a
      ++ "' is not assignable to parameter of type '" ++ p ++ "'.") : Wording))
      (Ty.text_renumber hf arg) (Ty.text_renumber hf param)
  | notCallable t =>
    cases t with
    | none => rfl
    | some t =>
      exact congrArg (fun s : String => (↑("This expression is not callable.\n  Type '" ++ s
        ++ "' has no call signatures.") : Wording)) (Ty.text_renumber hf t)
  | _ => rfl

end Objection

namespace Checker

/-- The node with so many nodes more in front of it. -/
def Node.shift (d : Nat) (n : Node) : Node := ⟨n.number + d, n.origin⟩

theorem Node.mk_shift {d k k' : Nat} (hk : k' = k + d) (o : Option Location) :
    Node.mk k' o = Node.shift d ⟨k, o⟩ := by
  rw [hk, Node.shift]

/-- The finding with other numbers. -/
def Finding.renumber (f : TyVar → TyVar) (d : Nat) (x : Finding) : Finding :=
  ⟨x.node.shift d, x.objection.renumber f⟩

theorem Finding.renumber_id (x : Finding) : x.renumber id 0 = x := by
  rw [Finding.renumber, Objection.renumber_id]
  rfl

variable {s s' t t' : State}

/-- The second state has the new numbers where the first one has the old ones, which are apart, and its
comparisons may go as deep at least. -/
structure State.Mirrors (f : TyVar → TyVar) (d : Nat) (F : Set TyVar) (s s' : State) : Prop where
  apart : s.unifier.Apart F
  depth : s.depth ≤ s'.depth
  unifier : s.unifier.Mirrors f s'.unifier
  aliases : s'.aliases = s.aliases
  findings : s'.findings = s.findings.map (Finding.renumber f d)

/-- The state with the numbers of its findings kept, which mirrors it. -/
theorem State.mirrors_id (hs : s.unifier.Apart F) :
    s.Mirrors id 0 F { s with findings := s.findings.map (Finding.renumber id 0) } :=
  ⟨hs, Nat.le_refl _, s.unifier.mirrors_id, rfl, rfl⟩

/-- The steps from one state to another keep the depth, and declare no type aliases. -/
structure State.Keeps (s t : State) : Prop where
  depth : t.depth = s.depth
  aliases : t.aliases = s.aliases

theorem State.Keeps.refl (s : State) : s.Keeps s := ⟨rfl, rfl⟩

theorem State.Keeps.trans {s₁ s₂ s₃ : State} (h : s₁.Keeps s₂) (h' : s₂.Keeps s₃) : s₁.Keeps s₃ :=
  ⟨h'.depth.trans h.depth, h'.aliases.trans h.aliases⟩

/-- Two runs get from two states to two others that mirror each other. -/
structure Onward (f : TyVar → TyVar) (d : Nat) (F F' : Set TyVar) (s s' t t' : State) : Prop where
  mirrors : t.Mirrors f d F' t'
  advances : s.unifier.Advances F F' t.unifier
  keeps : s.Keeps t
  keeps' : s'.Keeps t'

namespace Onward

variable {F₁ F₂ : Set TyVar} {s₁ s₂ s₁' s₂' : State}

theorem refl (h : s.Mirrors f d F s') : Onward f d F F s s' s s' :=
  ⟨h, .refl h.apart, .refl s, .refl s'⟩

theorem trans (h : Onward f d F F₁ s s' s₁ s₁') (h' : Onward f d F₁ F₂ s₁ s₁' s₂ s₂') :
    Onward f d F F₂ s s' s₂ s₂' :=
  ⟨h'.mirrors, h.advances.trans h'.advances, h.keeps.trans h'.keeps, h.keeps'.trans h'.keeps'⟩

/-- Numbers may be taken, and variables bound. -/
theorem of_unifier (h : s.Mirrors f d F s') {u u' : Unifier} (hadvances : s.unifier.Advances F F' u)
    (hu : u.Mirrors f u') :
    Onward f d F F' s s' { s with unifier := u } { s' with unifier := u' } :=
  ⟨⟨hadvances.apart, h.depth, hu, h.aliases, h.findings⟩, hadvances, ⟨rfl, rfl⟩, ⟨rfl, rfl⟩⟩

end Onward

/-- Where the first step succeeds, the second one does, and `R` relates what they come to. Where the first
one fails, so does the second one, unless the first one has to go deeper and the second one may. -/
def Parallel {α β : Type} (s s' : State) (m : Checker α) (m' : Checker β)
    (R : α → State → β → State → Prop) : Prop :=
  match m s with
  | (.ok a, t) => ∃ b t', m' s' = (.ok b, t') ∧ R a t b t'
  | (.error e, _) => (e = .deeper ∧ s.depth < s'.depth) ∨ ∃ t', m' s' = (.error e, t')

namespace Parallel

variable {α β γ δ : Type} {m : Checker α} {m' : Checker β} {R R' : α → State → β → State → Prop}

theorem of_ok (h : Parallel s s' m m' R) {a : α} (hrun : m s = (.ok a, t)) :
    ∃ b t', m' s' = (.ok b, t') ∧ R a t b t' := by
  rwa [Parallel, hrun] at h

theorem of_error (h : Parallel s s' m m' R) {e : Stop} (hrun : m s = (.error e, t)) :
    (e = .deeper ∧ s.depth < s'.depth) ∨ ∃ t', m' s' = (.error e, t') := by
  rwa [Parallel, hrun] at h

theorem imp (h : Parallel s s' m m' R)
    (hR : ∀ a t b t', m s = (.ok a, t) → R a t b t' → R' a t b t') : Parallel s s' m m' R' := by
  obtain ⟨r, t, hrun⟩ : ∃ r t, m s = (r, t) := ⟨_, _, rfl⟩
  rw [Parallel, hrun]
  cases r with
  | error e => exact h.of_error hrun
  | ok a =>
    obtain ⟨b, t', hrun', h⟩ := h.of_ok hrun
    exact ⟨b, t', hrun', hR a t b t' hrun h⟩

theorem bind {g : α → Checker γ} {g' : β → Checker δ} {R' : γ → State → δ → State → Prop}
    (h : Parallel s s' m m' R)
    (hg : ∀ a t b t', m s = (.ok a, t) → R a t b t' →
      t.depth = s.depth ∧ t'.depth = s'.depth ∧ Parallel t t' (g a) (g' b) R') :
    Parallel s s' (m >>= g) (m' >>= g') R' := by
  obtain ⟨r, t, hrun⟩ : ∃ r t, m s = (r, t) := ⟨_, _, rfl⟩
  cases r with
  | error e =>
    rw [Parallel, bind_of_error hrun]
    rcases h.of_error hrun with hdeeper | ⟨t', hrun'⟩
    · exact .inl hdeeper
    · exact .inr ⟨t', bind_of_error hrun'⟩
  | ok a =>
    obtain ⟨b, t', hrun', hR⟩ := h.of_ok hrun
    obtain ⟨hdepth, hdepth', hrest⟩ := hg a t b t' hrun hR
    rw [Parallel, hdepth, hdepth'] at hrest
    rw [Parallel, bind_of_ok hrun, bind_of_ok hrun']
    exact hrest

/-- Two runs that come to states of one depth first go parallel if what they do from there does. -/
theorem of_eq {m₁ : Checker α} {m₁' : Checker β} (h : Parallel t t' m₁ m₁' R) (hdepth : t'.depth = t.depth)
    (hm : m s = m₁ t) (hm' : m' s' = m₁' t') : Parallel s s' m m' R := by
  obtain ⟨r, last, hrun⟩ : ∃ r last, m₁ t = (r, last) := ⟨_, _, rfl⟩
  rw [Parallel, hm, hm', hrun]
  cases r with
  | error e => exact .inr ((h.of_error hrun).resolve_left fun hlt => Nat.ne_of_gt hlt.2 hdepth)
  | ok a => exact h.of_ok hrun

end Parallel

/-- The two steps go parallel, and `Q` relates what they come to from states that mirror each other. -/
def Tracks {α β : Type} (f : TyVar → TyVar) (d : Nat) (F : Set TyVar) (s s' : State) (m : Checker α)
    (m' : Checker β) (Q : α → β → State → Set TyVar → Prop) : Prop :=
  Parallel s s' m m' fun a t b t' => ∃ F', Onward f d F F' s s' t t' ∧ Q a b t F'

namespace Tracks

variable {α β γ δ : Type} {Q : α → β → State → Set TyVar → Prop}
  {R : γ → δ → State → Set TyVar → Prop} {m : Checker α} {m' : Checker β}

theorem pure (h : s.Mirrors f d F s') {a : α} {b : β} (hQ : Q a b s F) :
    Tracks f d F s s' (pure a) (pure b) Q :=
  ⟨b, s', rfl, F, .refl h, hQ⟩

theorem throw (e : Stop) : Tracks f d F s s' (throw e : Checker α) (throw e : Checker β) Q :=
  .inr ⟨s', rfl⟩

/-- One step after the other, where the first run may be looked at. -/
theorem bind_run {g : α → Checker γ} {g' : β → Checker δ} (h : Tracks f d F s s' m m' Q)
    (hg : ∀ a b t t' F', m s = (.ok a, t) → Onward f d F F' s s' t t' → Q a b t F' →
      Tracks f d F' t t' (g a) (g' b) R) :
    Tracks f d F s s' (m >>= g) (m' >>= g') R := by
  refine Parallel.bind h fun a t b t' hrun hmid => ?_
  obtain ⟨F', honward, hQ⟩ := hmid
  refine ⟨honward.keeps.depth, honward.keeps'.depth, (hg a b t t' F' hrun honward hQ).imp ?_⟩
  rintro x last y last' - ⟨F'', honward', hR⟩
  exact ⟨F'', honward.trans honward', hR⟩

theorem bind {g : α → Checker γ} {g' : β → Checker δ} (h : Tracks f d F s s' m m' Q)
    (hg : ∀ a b t t' F', Onward f d F F' s s' t t' → Q a b t F' →
      Tracks f d F' t t' (g a) (g' b) R) :
    Tracks f d F s s' (m >>= g) (m' >>= g') R :=
  h.bind_run fun a b t t' F' _ => hg a b t t' F'

theorem imp {Q' : α → β → State → Set TyVar → Prop} (h : Tracks f d F s s' m m' Q)
    (hQ : ∀ a b t F', m s = (.ok a, t) → Q a b t F' → Q' a b t F') :
    Tracks f d F s s' m m' Q' :=
  Parallel.imp h fun a t b _ hrun ⟨F', honward, h⟩ => ⟨F', honward, hQ a b t F' hrun h⟩

theorem get {g : State → Checker α} {g' : State → Checker β}
    (h : Tracks f d F s s' (g s) (g' s') Q) : Tracks f d F s s' (get >>= g) (get >>= g') Q := h

end Tracks

/-- The second type is the first one with other numbers, whose variables and binders are apart. -/
def Alike (f : TyVar → TyVar) (a b : Ty) (t : State) (F : Set TyVar) : Prop :=
  b = a.renumber f ∧ a.Apart F t.unifier.counter

theorem apart_any {a : Ty} (h : a = .any) : a.Apart F c := by
  subst h
  exact ⟨trivial, by simp [Ty.freeVars]⟩

/-- Both runs object, and go on with the type that fits everywhere. -/
theorem object_tracks (h : s.Mirrors f d F s') {node node' : Node} {o o' : Objection}
    (hnode : node' = node.shift d) (ho : o' = o.renumber f) :
    Tracks f d F s s' (object node o) (object node' o') (Alike f) := by
  refine ⟨.any, _, rfl, F, ⟨⟨h.apart, h.depth, h.unifier, h.aliases, ?_⟩, .refl h.apart, ⟨rfl, rfl⟩,
    ⟨rfl, rfl⟩⟩, rfl, apart_any rfl⟩
  simp [h.findings, Finding.renumber, hnode, ho]

/-! ## Annotations -/

theorem freshNames_run (names : List String) (s : State) :
    (names.mapM fun name => do return (name, ← fresh) : Checker _) s =
      (.ok (names.zip (s.unifier.freshAll names).1),
        { s with unifier := (s.unifier.freshAll names).2 }) := by
  induction names generalizing s with
  | nil => rfl
  | cons name rest ih =>
    rw [List.mapM_cons]
    have hrest := ih { s with unifier := s.unifier.fresh.2 }
    refine bind_eq_ok.mpr ⟨(name, s.unifier.fresh.1), _, rfl, ?_⟩
    exact bind_eq_ok.mpr ⟨_, _, hrest, rfl⟩

/-- Type parameters get new numbers, which are not for variables. -/
theorem freshNames_tracks (h : s.Mirrors f d F s') (names : List String) :
    Tracks f d F s s' (names.mapM fun name => do return (name, ← fresh))
      (names.mapM fun name => do return (name, ← fresh)) fun vars vars' t F' =>
        vars' = vars.map (Prod.map id f) ∧ ∀ p ∈ vars, p.2 ∉ F' ∧ p.2 ≤ t.unifier.counter := by
  obtain ⟨hu, -, hbound, -⟩ := Unifier.freshAll_eq s.unifier names
  obtain ⟨hids, hmirrors⟩ := h.unifier.freshAll names
  have htake := h.apart.take (Int.le_add_of_nonneg_right (Int.natCast_nonneg names.length)) hbound
  rw [← hu] at htake
  rw [Tracks, Parallel, freshNames_run, freshNames_run]
  refine ⟨_, _, rfl, _, .of_unifier h htake hmirrors, ?_, ?_⟩
  · rw [hids, ← List.zip_map, List.map_id]
  · intro p hp
    have hmem := (List.of_mem_zip hp).2
    refine ⟨fun hF => hF.2 hmem, ?_⟩
    change p.2 ≤ (s.unifier.freshAll names).2.counter
    rw [hu]
    exact (hbound p.2 hmem).2

theorem renumber_aliasType (hf : Renumbers f) {name : String} {ts : List Ty}
    (h : aliasArity? name = some ts.length) :
    (aliasType name ts).renumber f = aliasType name (ts.map (Ty.renumber f)) := by
  rcases aliasArity?_eq_some h with ⟨hname, hlen⟩ | ⟨rfl, hlen⟩ | ⟨hname, hlen⟩
  · obtain rfl : ts = [] := List.length_eq_zero_iff.mp hlen
    rcases hname with rfl | rfl
    · simp [aliasType, Ty.renumber, hf.zero]
    · rfl
  · obtain ⟨a, rfl⟩ := List.length_eq_one_iff.mp hlen
    rfl
  · obtain ⟨a, b, rfl⟩ := List.length_eq_two.mp hlen
    rcases hname with rfl | rfl | rfl | rfl <;> rfl

theorem orderly_aliasType {name : String} {ts : List Ty} (hc : 0 ≤ c)
    (h : ∀ t ∈ ts, t.Orderly F c) : (aliasType name ts).Orderly F c := by
  unfold aliasType
  split
  · exact hc
  · trivial
  · exact ⟨h _ (by simp), h _ (by simp)⟩
  · exact ⟨h _ (by simp), trivial⟩
  · exact Ty.orderlyAll_iff.mpr h

/-- The type of a function annotation, whose type parameters are bound if there are any. -/
theorem orderly_func {vars : List (String × TyVar)} {args : List Ty} {r : Ty}
    (hvars : ∀ p ∈ vars, p.2 ∉ F ∧ p.2 ≤ c) (hargs : ∀ a ∈ args, a.Orderly F c) (hr : r.Orderly F c) :
    (if vars.isEmpty then Ty.func args.head? r else .poly vars (.func args.head? r)).Orderly F c := by
  have horderly : (Ty.func args.head? r).Orderly F c := by
    cases args with
    | nil => exact hr
    | cons a as => exact ⟨hargs a (by simp), hr⟩
  split
  · exact horderly
  · exact ⟨hvars, horderly⟩

/-- The types of type parameters with other numbers. -/
abbrev renumberTypes (f : TyVar → TyVar) (types : List (String × Ty)) : List (String × Ty) :=
  types.map (Prod.map id (Ty.renumber f))

theorem lookup_renumberTypes (types : List (String × Ty)) (name : String) :
    (renumberTypes f types).lookup name = (types.lookup name).map (Ty.renumber f) :=
  lookup_map injective_id (Ty.renumber f) types name

theorem renumberTypes_variables (f : TyVar → TyVar) (vars : List (String × TyVar))
    (types : List (String × Ty)) :
    ((vars.map (Prod.map id f)).map fun (name, v) => (name, Ty.var v)).reverse ++
        renumberTypes f types =
      renumberTypes f ((vars.map fun (name, v) => (name, Ty.var v)).reverse ++ types) := by
  simp [renumberTypes, List.map_reverse, comp_def, Ty.renumber]

theorem orderly_variables {vars : List (String × TyVar)} {types : List (String × Ty)}
    (hvars : ∀ p ∈ vars, p.2 ≤ c) (htypes : ∀ b ∈ types, b.2.Orderly F c) :
    ∀ b ∈ (vars.map fun (name, v) => (name, Ty.var v)).reverse ++ types, b.2.Orderly F c := by
  intro b hb
  rcases List.mem_append.mp hb with hb | hb
  · rcases List.mem_map.mp (List.mem_reverse.mp hb) with ⟨p, hp, rfl⟩
    exact hvars p hp
  · exact htypes b hb

theorem renumber_signature (f : TyVar → TyVar) (vars : List (String × TyVar)) (args : List Ty)
    (r : Ty) :
    Ty.renumber f (if vars.isEmpty then .func args.head? r else .poly vars (.func args.head? r)) =
      if (vars.map (Prod.map id f)).isEmpty then
        Ty.func (args.map (Ty.renumber f)).head? (r.renumber f)
      else .poly (vars.map (Prod.map id f))
        (Ty.func (args.map (Ty.renumber f)).head? (r.renumber f)) := by
  rw [List.head?_map, ← Ty.renumber_func, List.isEmpty_map, apply_ite (Ty.renumber f), Ty.renumber]

/-- The second annotation is read as the first one, with other numbers. -/
def Read (f : TyVar → TyVar) (a b : Ty) (t : State) (F : Set TyVar) : Prop :=
  b = a.renumber f ∧ a.Orderly F t.unifier.counter

/-- So many annotations are read alike. -/
def ReadAll (f : TyVar → TyVar) (n : Nat) (as bs : List Ty) (t : State) (F : Set TyVar) : Prop :=
  bs = as.map (Ty.renumber f) ∧ as.length = n ∧ ∀ a ∈ as, a.Orderly F t.unifier.counter

theorem refused_tracks (h : s.Mirrors f d F s') (node : Node) {o : Objection}
    (ho : o = o.renumber f) :
    Tracks f d F s s' (object node o) (object (node.shift d) o) (Read f) :=
  (object_tracks h rfl ho).imp fun _ _ _ _ _ halike => ⟨halike.1, halike.2.orderly⟩

theorem unsupported_tracks (h : s.Mirrors f d F s') (node : Node) (te : TypeExpr) :
    Tracks f d F s s' (match te.print with
      | .ok shown => object node (.unsupportedType shown)
      | .error g => throw (.gap g) : Checker Ty) (match te.print with
      | .ok shown => object (node.shift d) (.unsupportedType shown)
      | .error g => throw (.gap g) : Checker Ty) (Read f) := by
  cases te.print with
  | ok shown => exact refused_tracks h node rfl
  | error g => exact .throw (.gap g)

mutual

theorem toType_tracks (hf : Renumbers f) {F : Set TyVar} {s s' : State} {node : Node}
    {types : List (String × Ty)} (h : s.Mirrors f d F s')
    (htypes : ∀ b ∈ types, b.2.Orderly F s.unifier.counter) :
    (te : TypeExpr) → Tracks f d F s s' (toType node types te)
      (toType (node.shift d) (renumberTypes f types) te) (Read f)
  | .ref name args => by
    rw [toType, toType, lookup_renumberTypes]
    cases hfind : types.lookup name with
    | some u =>
      simp only [Option.map_some]
      split
      · exact .pure h ⟨rfl, htypes _ (mem_of_lookup hfind)⟩
      · exact refused_tracks h node rfl
    | none =>
      simp only [Option.map_none]
      cases harity : aliasArity? name with
      | none => exact refused_tracks h node rfl
      | some arity =>
        refine .get ?_
        rw [h.aliases]
        split
        · exact refused_tracks h node rfl
        split
        · exact refused_tracks h node rfl
        rename_i hlen
        refine (toTypes_tracks hf h htypes args).bind fun ts _ t t' F₁ honward hread => ?_
        obtain ⟨rfl, hcount, hall⟩ := hread
        have hsame := renumber_aliasType hf (harity.trans (by rw [hcount, not_not.mp hlen]))
        have hnonneg := honward.mirrors.apart.nonneg
        exact .pure honward.mirrors ⟨hsame.symm, orderly_aliasType hnonneg hall⟩
  | .func tparams params ret => by
    rw [toType, toType]
    split
    · exact refused_tracks h node rfl
    refine (freshNames_tracks h tparams).bind fun vars _ s₁ s₁' F₁ honward hvars => ?_
    obtain ⟨rfl, hnew⟩ := hvars
    have htypes₁ := orderly_variables (fun p hp => (hnew p hp).2) fun b hb =>
      honward.advances.orderly (htypes b hb)
    simp only [renumberTypes_variables]
    refine (toParamTypes_tracks hf honward.mirrors htypes₁ params).bind
      fun args _ s₂ s₂' F₂ honward₂ hargs => ?_
    obtain ⟨rfl, -, hargs⟩ := hargs
    refine (toType_tracks hf honward₂.mirrors (fun b hb => honward₂.advances.orderly (htypes₁ b hb))
      ret).bind fun r _ s₃ s₃' F₃ honward₃ hret => ?_
    obtain ⟨rfl, hret⟩ := hret
    have hlater := honward₂.advances.trans honward₃.advances
    have hvars₃ : ∀ p ∈ vars, p.2 ∉ F₃ ∧ p.2 ≤ s₃.unifier.counter :=
      fun p hp => hlater.unused (hnew p hp)
    have hargs₃ : ∀ a ∈ args, a.Orderly F₃ s₃.unifier.counter :=
      fun a ha => honward₃.advances.orderly (hargs a ha)
    simp only [← renumber_signature]
    exact .pure honward₃.mirrors ⟨rfl, orderly_func hvars₃ hargs₃ hret⟩
  | .keyword name => by
    by_cases hnever : name = "never"
    · rw [hnever, toType, toType]
      exact .pure h ⟨rfl, trivial⟩
    by_cases hany : name = "any"
    · rw [hany, toType, toType]
      exact .pure h ⟨rfl, trivial⟩
    rw [toType, toType]
    · exact unsupported_tracks h node (.keyword name)
    all_goals simp [hnever, hany]
  | .missing => unsupported_tracks h node .missing
  | .tuple ts => unsupported_tracks h node (.tuple ts)
  | .union ts => unsupported_tracks h node (.union ts)
  | .object ps => unsupported_tracks h node (.object ps)
  | .str v => unsupported_tracks h node (.str v)
  | .bool b => unsupported_tracks h node (.bool b)

theorem toTypes_tracks (hf : Renumbers f) {F : Set TyVar} {s s' : State} {node : Node}
    {types : List (String × Ty)} (h : s.Mirrors f d F s')
    (htypes : ∀ b ∈ types, b.2.Orderly F s.unifier.counter) :
    (tes : List TypeExpr) → Tracks f d F s s' (toTypes node types tes)
      (toTypes (node.shift d) (renumberTypes f types) tes) (ReadAll f tes.length)
  | [] => .pure h ⟨rfl, rfl, by simp⟩
  | te :: rest => by
    rw [toTypes, toTypes]
    refine (toType_tracks hf h htypes te).bind fun a _ s₁ s₁' F₁ honward hread => ?_
    obtain ⟨rfl, hread⟩ := hread
    refine (toTypes_tracks hf honward.mirrors (fun b hb => honward.advances.orderly (htypes b hb))
      rest).bind fun as _ s₂ s₂' F₂ honward₂ hall => ?_
    obtain ⟨rfl, hlen, hall⟩ := hall
    refine .pure honward₂.mirrors ⟨rfl, congrArg (· + 1) hlen, ?_⟩
    exact List.forall_mem_cons.mpr ⟨honward₂.advances.orderly hread, hall⟩

theorem toParamTypes_tracks (hf : Renumbers f) {F : Set TyVar} {s s' : State} {node : Node}
    {types : List (String × Ty)} (h : s.Mirrors f d F s')
    (htypes : ∀ b ∈ types, b.2.Orderly F s.unifier.counter) :
    (ps : List Param) → Tracks f d F s s' (toParamTypes node types ps)
      (toParamTypes (node.shift d) (renumberTypes f types) ps) (ReadAll f ps.length)
  | [] => .pure h ⟨rfl, rfl, by simp⟩
  | (_, te) :: rest => by
    rw [toParamTypes, toParamTypes]
    refine (toType_tracks hf h htypes te).bind fun a _ s₁ s₁' F₁ honward hread => ?_
    obtain ⟨rfl, hread⟩ := hread
    refine (toParamTypes_tracks hf honward.mirrors (fun b hb => honward.advances.orderly (htypes b hb))
      rest).bind fun as _ s₂ s₂' F₂ honward₂ hall => ?_
    obtain ⟨rfl, hlen, hall⟩ := hall
    refine .pure honward₂.mirrors ⟨rfl, congrArg (· + 1) hlen, ?_⟩
    exact List.forall_mem_cons.mpr ⟨honward₂.advances.orderly hread, hall⟩

end

/-! ## Comparisons and calls -/

theorem resolve_tracks (hf : Renumbers f) (h : s.Mirrors f d F s') {a : Ty}
    (ha : a.Apart F s.unifier.counter) :
    Tracks f d F s s' (resolve a) (resolve (a.renumber f)) (Alike f) :=
  ⟨s'.unifier.resolve (a.renumber f), s', rfl, F, .refl h, h.unifier.resolve hf.injective h.apart a,
    h.apart.resolve ha⟩

theorem assign_tracks (hf : Renumbers f) (h : s.Mirrors f d F s') {src dst : Ty}
    (hsrc : src.Apart F s.unifier.counter) (hdst : dst.Apart F s.unifier.counter) :
    Tracks f d F s s' (assign src dst) (assign (src.renumber f) (dst.renumber f))
      fun r r' _ F' => r' = r.mapError (AssignError.renumber f) ∧ F' = F := by
  have hcompared := h.unifier.assign? (n := s.depth) hf.injective h.apart hsrc hdst
  rcases assign_cases src dst s with ⟨hnone, hrun⟩ | ⟨r, u, hsome, hrun⟩
  · rw [hnone] at hcompared
    rw [Tracks, Parallel, hrun]
    rcases Nat.lt_or_eq_of_le h.depth with hlt | heq
    · exact .inl ⟨rfl, hlt⟩
    · refine .inr ⟨s', ?_⟩
      rw [heq] at hcompared
      rw [assign, get_bind, hcompared]
      rfl
  · rw [hsome] at hcompared
    obtain ⟨u', hsome', hmirrors, hadvances⟩ := hcompared
    rw [Tracks, Parallel, hrun]
    refine ⟨_, { s' with unifier := u' }, ?_, F, .of_unifier h hadvances hmirrors, rfl, rfl⟩
    rw [assign, get_bind, Unifier.assign?_mono h.depth hsome']
    rfl

theorem expectType_tracks (hf : Renumbers f) (h : s.Mirrors f d F s') {node node' : Node} {a want : Ty}
    (hnode : node' = node.shift d) (ha : a.Apart F s.unifier.counter)
    (hwant : want.Apart F s.unifier.counter) :
    Tracks f d F s s' (expectType node a want)
      (expectType node' (a.renumber f) (want.renumber f)) fun _ _ _ _ => True := by
  rw [expectType, expectType]
  refine (assign_tracks hf h ha hwant).bind fun r _ t t' F₁ honward hr => ?_
  obtain ⟨rfl, -⟩ := hr
  cases r with
  | ok _ => exact .pure honward.mirrors trivial
  | error e =>
    exact (object_tracks honward.mirrors hnode rfl).bind fun _ _ _ _ _ honward' _ =>
      .pure honward'.mirrors trivial

theorem instantiateUpTo_tracks (hf : Renumbers f) {n : Nat} {a : Ty} (h : s.Mirrors f d F s')
    (ha : a.Apart F s.unifier.counter) :
    Tracks f d F s s' (instantiateUpTo n a) (instantiateUpTo n (a.renumber f)) (Alike f) := by
  induction n generalizing a F s s' with
  | zero => exact .pure h ⟨rfl, ha⟩
  | succ n ih =>
    cases a with
    | poly ps body =>
      obtain ⟨hadvances, hinstance⟩ := h.apart.instantiate ha
      obtain ⟨hsame, hmirrors⟩ := h.unifier.instantiate hf.injective ps body
      have honward := Onward.of_unifier h hadvances hmirrors
      have htaken : Tracks f d F s s' (set { s with unifier := (s.unifier.instantiate ps body).2 })
          (set { s' with unifier :=
            (s'.unifier.instantiate (ps.map (Prod.map id f)) (body.renumber f)).2 })
          fun _ _ t F' => (s.unifier.instantiate ps body).1.Apart F' t.unifier.counter :=
        ⟨⟨⟩, _, rfl, F, honward, hinstance⟩
      rw [Ty.renumber, instantiateUpTo, instantiateUpTo]
      refine .get ?_
      dsimp only
      rw [hsame]
      exact htaken.bind fun _ _ t t' F₁ honward' hbody => ih honward'.mirrors hbody
    | _ => exact .pure h ⟨rfl, ha⟩

/-- What stands for type parameters where expressions are checked. -/
def Closed (F : Set TyVar) (c : TyVar) (types : List (String × Ty)) : Prop :=
  ∀ b ∈ types, b.2.Orderly F c ∧ b.2.freeVars = []

theorem Closed.apart {types : List (String × Ty)} {c' : TyVar} {a : Ty} (h : Closed F c types)
    (ha : a.Orderly F' c') (hover : Over types a) : a.Apart F' c' :=
  ⟨ha, by simp [hover.closed fun b hb => (h b hb).2]⟩

theorem explicitInstance_tracks (hf : Renumbers f) {node : Node} {types : List (String × Ty)} {a : Ty}
    {targs : List TypeExpr} (h : s.Mirrors f d F s') (htypes : Closed F s.unifier.counter types)
    (ha : a.Apart F s.unifier.counter) :
    Tracks f d F s s' (explicitInstance node types a targs)
      (explicitInstance (node.shift d) (renumberTypes f types) (a.renumber f) targs) (Alike f) := by
  cases targs with
  | nil => exact .pure h ⟨rfl, ha⟩
  | cons te rest =>
    cases a with
    | any => exact .pure h ⟨rfl, ha⟩
    | poly ps body =>
      rw [Ty.renumber]
      unfold explicitInstance
      dsimp only
      rw [List.length_map]
      split
      · rename_i hlen
        refine (toTypes_tracks hf h (fun b hb => (htypes b hb).1) (te :: rest)).bind_run
          fun ts _ t t' F₁ hrun honward hts => ?_
        obtain ⟨rfl, hcount, hall⟩ := hts
        refine .pure honward.mirrors ⟨Ty.instantiateWith_renumber hf.injective .., ?_⟩
        refine Ty.Apart.instantiateWith (hlen.trans hcount.symm) (honward.advances.type ha)
          (Int.le_refl _) fun a ha => ?_
        exact htypes.apart (hall a ha) (toTypes_over _ hrun a ha)
      · exact object_tracks h rfl rfl
    | _ => exact object_tracks h rfl rfl

theorem fresh_tracks (h : s.Mirrors f d F s') :
    Tracks f d F s s' fresh fresh fun v v' t F' => v' = f v ∧ (Ty.var v).Apart F' t.unifier.counter :=
  ⟨_, _, rfl, F, .of_unifier h (h.apart.advance (Int.le_add_of_nonneg_right (by decide)))
    h.unifier.advance, h.unifier.next.symm,
    Ty.apart_var (Int.le_refl _) (h.apart.fresh _ (Int.lt_succ _))⟩

/-- Fresh types for the parameter and the result of a function. -/
theorem freshSignature_tracks (h : s.Mirrors f d F s') (n : Nat) :
    Tracks f d F s s' (freshSignature n) (freshSignature n) fun r r' t F' =>
      r' = (r.1.map (Ty.renumber f), r.2.renumber f) ∧
        (Ty.func r.1 r.2).Apart F' t.unifier.counter := by
  unfold freshSignature
  split
  · refine (Tracks.pure (Q := fun p p' _ _ => p = none ∧ p' = none) h ⟨rfl, rfl⟩).bind
      fun _ _ t t' F₁ honward hnone => ?_
    obtain ⟨rfl, rfl⟩ := hnone
    refine (fresh_tracks honward.mirrors).bind fun v _ t₁ t₁' F₂ honward₁ hv => ?_
    obtain ⟨rfl, hv⟩ := hv
    exact .pure honward₁.mirrors ⟨rfl, Ty.apart_thunk.mpr hv⟩
  · refine (fresh_tracks h).bind fun p _ t t' F₁ honward hp => ?_
    obtain ⟨rfl, hp⟩ := hp
    refine (Tracks.pure (Q := fun q q' _ F' => q = some (.var p) ∧ q' = some (.var (f p)) ∧ F' = F₁)
      honward.mirrors ⟨rfl, rfl, rfl⟩).bind fun _ _ t₁ t₁' F₂ honward₁ hparam => ?_
    obtain ⟨rfl, rfl, rfl⟩ := hparam
    refine (fresh_tracks honward₁.mirrors).bind fun v _ t₂ t₂' F₃ honward₂ hv => ?_
    obtain ⟨rfl, hv⟩ := hv
    have hlater := honward₁.advances.trans honward₂.advances
    exact .pure honward₂.mirrors ⟨rfl, Ty.apart_fn.mpr ⟨hlater.type hp, hv⟩⟩

/-- A call whose argument is objected to still has a result. -/
theorem objected_tracks (hf : Renumbers f) (h : s.Mirrors f d F s') (node : Node) {o o' : Objection}
    {ret : Ty} (ho : o' = o.renumber f) (hret : ret.Apart F s.unifier.counter) :
    Tracks f d F s s' (object node o >>= fun _ => resolve ret)
      (object (node.shift d) o' >>= fun _ => resolve (ret.renumber f)) (Alike f) :=
  (object_tracks h rfl ho).bind fun _ _ _ _ _ honward _ =>
    resolve_tracks hf honward.mirrors (honward.advances.type hret)

/-- The result of a call with one argument. -/
theorem callOne_tracks (hf : Renumbers f) (h : s.Mirrors f d F s') (node argNode : Node) {p a ret : Ty}
    (hp : p.Apart F s.unifier.counter) (ha : a.Apart F s.unifier.counter)
    (hret : ret.Apart F s.unifier.counter) :
    Tracks f d F s s' (callResult node argNode (some p) ret [a])
      (callResult (node.shift d) (argNode.shift d) (some (p.renumber f)) (ret.renumber f)
        [a.renumber f]) (Alike f) := by
  refine (assign_tracks hf h ha hp).bind fun r _ s₁ s₁' F₁ honward hr => ?_
  obtain ⟨rfl, -⟩ := hr
  have hret₁ := honward.advances.type hret
  cases r with
  | ok _ => exact resolve_tracks hf honward.mirrors hret₁
  | error e =>
    cases e with
    | mismatch src dst =>
      refine (resolve_tracks hf honward.mirrors (honward.advances.type ha)).bind
        fun arg _ s₂ s₂' F₂ honward₂ harg => ?_
      obtain ⟨rfl, -⟩ := harg
      have hlater := honward.advances.trans honward₂.advances
      refine (resolve_tracks hf honward₂.mirrors (hlater.type hp)).bind
        fun par _ s₃ s₃' F₃ honward₃ hpar => ?_
      obtain ⟨rfl, -⟩ := hpar
      exact objected_tracks hf honward₃.mirrors argNode rfl
        ((hlater.trans honward₃.advances).type hret)
    | selfReference u => exact objected_tracks hf honward.mirrors argNode rfl hret₁
    | escape name others => exact objected_tracks hf honward.mirrors argNode rfl hret₁

/-- The result of a call. -/
theorem callResult_tracks (hf : Renumbers f) (h : s.Mirrors f d F s') (node argNode : Node)
    {param : Option Ty} {ret : Ty} {args : List Ty}
    (hsignature : (Ty.func param ret).Apart F s.unifier.counter)
    (hargs : ∀ a ∈ args, a.Apart F s.unifier.counter) :
    Tracks f d F s s' (callResult node argNode param ret args)
      (callResult (node.shift d) (argNode.shift d) (param.map (Ty.renumber f)) (ret.renumber f)
        (args.map (Ty.renumber f))) (Alike f) := by
  obtain ⟨hparam, hret⟩ := Ty.apart_func.mp hsignature
  cases param with
  | none =>
    cases args with
    | nil => exact resolve_tracks hf h hret
    | cons a rest => exact object_tracks h rfl (by simp [Objection.renumber])
  | some p =>
    cases args with
    | nil => exact object_tracks h rfl rfl
    | cons a rest =>
      cases rest with
      | nil => exact callOne_tracks hf h node argNode (hparam p rfl) (hargs a (by simp)) hret
      | cons a' rest => exact object_tracks h rfl (by simp [Objection.renumber])

end Checker

end ProofScript
