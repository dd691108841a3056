import ProofScript.Proofs.Checking.Keeps

/-!
# The steps of a recorded check

Each step of a recorded check keeps what is kept by one step after the other: reading annotations, comparing
types, calls, and the types of constants.
-/

namespace ProofScript

open Program Stateful

namespace Checker

variable {F F' : Set TyVar} {s s' : State}

/-! ## Constants of annotations -/

/-- The constants of a type are that of the library and those that type parameters stand for. -/
def Names (types : List (String × Ty)) (t : Ty) : Prop :=
  ∀ n i, t.mentions n i = true → n = "True" ∧ i = 0 ∨ ∃ b ∈ types, b.2.mentions n i = true

theorem object_names {types : List (String × Ty)} {node : Node} {o : Objection} {t : Ty}
    (h : object node o s = (.ok t, s')) : Names types t := by
  cases h
  simp [Names, Ty.mentions]

theorem unsupported_names {types : List (String × Ty)} (node : Node) (te : TypeExpr) {t : Ty}
    (h : (match te.print with
      | .ok shown => object node (.unsupportedType shown)
      | .error g => throw (.gap g) : Checker Ty) s = (.ok t, s')) : Names types t := by
  generalize te.print = printed at h
  cases printed with
  | ok shown => exact object_names h
  | error g => exact absurd h throw_ne_ok

theorem mentions_of_mentionsAny {n : String} {i : TyVar} {ts : List Ty}
    (h : Ty.mentionsAny n i ts = true) : ∃ t ∈ ts, t.mentions n i = true := by
  induction ts with
  | nil => simp [Ty.mentionsAny] at h
  | cons t rest ih =>
    rcases Bool.or_eq_true_iff.mp h with h | h
    · exact ⟨t, by simp, h⟩
    · obtain ⟨u, hu, h⟩ := ih h
      exact ⟨u, List.mem_cons_of_mem _ hu, h⟩

theorem aliasType_names {types : List (String × Ty)} {name : String} {ts : List Ty}
    (h : ∀ t ∈ ts, Names types t) : Names types (aliasType name ts) := by
  intro n i hm
  unfold aliasType at hm
  split at hm
  · have heq : "True" = n ∧ 0 = i := by simpa [Ty.mentions] using hm
    exact .inl ⟨heq.1.symm, heq.2.symm⟩
  · simp [Ty.mentions] at hm
  · rcases Bool.or_eq_true_iff.mp hm with hm | hm
    · exact h _ (by simp) n i hm
    · exact h _ (by simp) n i hm
  · rcases Bool.or_eq_true_iff.mp hm with hm | hm
    · exact h _ (by simp) n i hm
    · simp [Ty.mentions] at hm
  · obtain ⟨t, ht, hm⟩ := mentions_of_mentionsAny hm
    exact h t ht n i hm

/-- Bound variables stand for type parameters, so they add no constants. -/
theorem Names.of_vars {types : List (String × Ty)} {vars : List (String × TyVar)} {t : Ty}
    (h : Names ((vars.map fun (name, v) => (name, Ty.var v)).reverse ++ types) t) : Names types t := by
  intro n i hm
  rcases h n i hm with h | ⟨b, hb, hm⟩
  · exact .inl h
  · rcases List.mem_append.mp hb with hb | hb
    · obtain ⟨p, -, rfl⟩ := List.mem_map.mp (List.mem_reverse.mp hb)
      simp [Ty.mentions] at hm
    · exact .inr ⟨b, hb, hm⟩

theorem func_names {types : List (String × Ty)} {vars : List (String × TyVar)} {args : List Ty}
    {r : Ty} (hargs : ∀ a ∈ args, Names types a) (hr : Names types r) :
    Names types (if vars.isEmpty then Ty.func args.head? r else .poly vars (.func args.head? r)) := by
  have hfunc : Names types (Ty.func args.head? r) := by
    cases args with
    | nil => exact hr
    | cons a as =>
      intro n i hm
      exact (Bool.or_eq_true_iff.mp hm).elim (hargs a (by simp) n i) (hr n i)
  split
  · exact hfunc
  · exact hfunc

mutual

theorem toType_names {s s' : State} {node : Node} {types : List (String × Ty)} {t : Ty} :
    (te : TypeExpr) → toType node types te s = (.ok t, s') → Names types t
  | .ref name args, h => by
    rw [toType] at h
    cases hfind : types.lookup name with
    | some u =>
      simp only [hfind] at h
      split at h
      · obtain ⟨rfl, -⟩ := pure_eq_ok.mp h
        exact fun n i hm => .inr ⟨_, mem_of_lookup hfind, hm⟩
      · exact object_names h
    | none =>
      simp only [hfind] at h
      cases harity : aliasArity? name with
      | none =>
        simp only [harity] at h
        exact object_names h
      | some arity =>
        simp only [harity] at h
        obtain ⟨_, _, -, h⟩ := bind_eq_ok.mp h
        split at h
        · exact object_names h
        split at h
        · exact object_names h
        obtain ⟨ts, s₁, hts, h⟩ := bind_eq_ok.mp h
        obtain ⟨rfl, -⟩ := pure_eq_ok.mp h
        exact aliasType_names (toTypes_names args hts)
  | .func tparams params ret, h => by
    rw [toType] at h
    split at h
    · exact object_names h
    obtain ⟨vars, s₁, hvars, h⟩ := bind_eq_ok.mp h
    obtain ⟨args, s₂, hargs, h⟩ := bind_eq_ok.mp h
    obtain ⟨r, s₃, hret, h⟩ := bind_eq_ok.mp h
    obtain ⟨rfl, -⟩ := pure_eq_ok.mp h
    exact func_names (fun a ha => (toParamTypes_names params hargs a ha).of_vars)
      (toType_names ret hret).of_vars
  | .keyword name, h => by
    by_cases hnever : name = "never"
    · rw [hnever, toType] at h
      obtain ⟨rfl, -⟩ := pure_eq_ok.mp h
      simp [Names, Ty.mentions]
    by_cases hany : name = "any"
    · rw [hany, toType] at h
      obtain ⟨rfl, -⟩ := pure_eq_ok.mp h
      simp [Names, Ty.mentions]
    rw [toType] at h
    · exact unsupported_names node (.keyword name) h
    all_goals simp [hnever, hany]
  | .missing, h => unsupported_names node .missing h
  | .tuple ts, h => unsupported_names node (.tuple ts) h
  | .union ts, h => unsupported_names node (.union ts) h
  | .object ps, h => unsupported_names node (.object ps) h
  | .str v, h => unsupported_names node (.str v) h
  | .bool b, h => unsupported_names node (.bool b) h

theorem toTypes_names {s s' : State} {node : Node} {types : List (String × Ty)} {ts : List Ty} :
    (tes : List TypeExpr) → toTypes node types tes s = (.ok ts, s') → ∀ t ∈ ts, Names types t
  | [], h => by
    obtain ⟨rfl, -⟩ := pure_eq_ok.mp h
    simp
  | te :: rest, h => by
    obtain ⟨t, s₁, ht, h⟩ := bind_eq_ok.mp h
    obtain ⟨more, s₂, hmore, h⟩ := bind_eq_ok.mp h
    obtain ⟨rfl, -⟩ := pure_eq_ok.mp h
    exact List.forall_mem_cons.mpr ⟨toType_names te ht, toTypes_names rest hmore⟩

theorem toParamTypes_names {s s' : State} {node : Node} {types : List (String × Ty)} {ts : List Ty} :
    (ps : List Param) → toParamTypes node types ps s = (.ok ts, s') → ∀ t ∈ ts, Names types t
  | [], h => by
    obtain ⟨rfl, -⟩ := pure_eq_ok.mp h
    simp
  | (_, te) :: rest, h => by
    obtain ⟨t, s₁, ht, h⟩ := bind_eq_ok.mp h
    obtain ⟨more, s₂, hmore, h⟩ := bind_eq_ok.mp h
    obtain ⟨rfl, -⟩ := pure_eq_ok.mp h
    exact List.forall_mem_cons.mpr ⟨toType_names te ht, toParamTypes_names rest hmore⟩

end

theorem toTypes_length {node : Node} {types : List (String × Ty)} {tes : List TypeExpr} {ts : List Ty}
    (h : toTypes node types tes s = (.ok ts, s')) : ts.length = tes.length := by
  induction tes generalizing s s' ts with
  | nil =>
    obtain ⟨rfl, -⟩ := pure_eq_ok.mp h
    rfl
  | cons te rest ih =>
    obtain ⟨t, s₁, -, h⟩ := bind_eq_ok.mp h
    obtain ⟨more, s₂, hmore, h⟩ := bind_eq_ok.mp h
    obtain ⟨rfl, -⟩ := pure_eq_ok.mp h
    rw [List.length_cons, List.length_cons, ih hmore]

/-! ## Single steps -/

/-- Every type parameter stands for a type without free variables. -/
def Scope.Rigid (sc : Scope) : Prop := ∀ b ∈ sc.types, b.2.freeVars = []

/-- Nothing gets bound. -/
def KeepsBindings (s s' : State) : Prop := s'.unifier.subst = s.unifier.subst

theorem keepsBindings_placid : Placid KeepsBindings where
  refl _ := rfl
  trans h h' := h'.trans h
  object _ _ _ := rfl
  fresh _ := rfl

/-- Reading annotations takes numbers, and finds types of type parameters. -/
theorem carried_annotations {sc : Scope} {ts found : List Ty} (hsc : sc.Rigid) (hts : sc.known ⊆ ts)
    (hu : s.unifier.Tidy F)
    (hrun : ∃ F', s.unifier.Advances F F' s'.unifier ∧ ∀ t ∈ found, t.Orderly F' s'.unifier.counter)
    (hsubst : s'.unifier.subst = s.unifier.subst) (hover : ∀ t ∈ found, Over sc.types t)
    (hnames : ∀ t ∈ found, Names sc.types t) : Carried F ts s.unifier found s'.unifier := by
  obtain ⟨F', hadvances, horderly⟩ := hrun
  have hclosed : ∀ t ∈ found, t.freeVars = [] := fun t ht => (hover t ht).closed hsc
  refine ⟨⟨F', hadvances, hadvances.tidy_of_subst hsubst hu, fun t ht => ⟨horderly t ht, ?_⟩⟩, ?_⟩
  · simp [hclosed t ht]
  intro Z K hK hc hcts
  refine ⟨hc.advance hadvances.counter hsubst, fun t ht => ⟨by simp [hclosed t ht], fun n i hm => ?_⟩⟩
  rcases hnames t ht n i hm with ⟨rfl, rfl⟩ | ⟨b, hb, hm⟩
  · exact hK
  · have hmem : b.2 ∈ sc.known := List.mem_append_right _ (List.mem_map_of_mem hb)
    exact (hcts b.2 (hts hmem)).consts n i hm

/-- The types of type parameters are orderly. -/
theorem orderly_types {sc : Scope} {ts : List Ty} (hts : sc.known ⊆ ts)
    (hapart : ∀ t ∈ ts, t.Apart F s.unifier.counter) :
    ∀ b ∈ sc.types, b.2.Orderly F s.unifier.counter := fun b hb =>
  (hapart b.2 (hts (List.mem_append_right _ (List.mem_map_of_mem hb)))).orderly

namespace Recorder

variable {sc : Scope} {ts : List Ty} {node : Node}

theorem keeps_toType (hsc : sc.Rigid) (hts : sc.known ⊆ ts) (te : TypeExpr) :
    Keeps ts (fun t => [t]) (lift (toType node sc.types te)) := by
  refine .lift fun s a s' hrun F hu hapart => ?_
  have hkeeps := toType_moves keepsBindings_placid node sc.types te s
  rw [hrun] at hkeeps
  obtain ⟨_, _, -, F', honward, -, horderly⟩ := (toType_tracks renumbers_id (State.mirrors_id hu.apart)
    (orderly_types hts hapart) te).of_ok hrun
  exact carried_annotations hsc hts hu ⟨F', honward.advances, by simpa using horderly⟩ hkeeps
    (by simpa using toType_over te hrun) (by simpa using toType_names te hrun)

theorem keeps_toTypes (hsc : sc.Rigid) (hts : sc.known ⊆ ts) (tes : List TypeExpr) :
    Keeps ts id (lift (toTypes node sc.types tes)) := by
  refine .lift fun s a s' hrun F hu hapart => ?_
  have hkeeps := toTypes_moves keepsBindings_placid node sc.types tes s
  rw [hrun] at hkeeps
  obtain ⟨_, _, -, F', honward, -, -, horderly⟩ := (toTypes_tracks renumbers_id
    (State.mirrors_id hu.apart) (orderly_types hts hapart) tes).of_ok hrun
  exact carried_annotations hsc hts hu ⟨F', honward.advances, horderly⟩ hkeeps (toTypes_over tes hrun)
    (toTypes_names tes hrun)

theorem keeps_toParamTypes (hsc : sc.Rigid) (hts : sc.known ⊆ ts) (ps : List Param) :
    Keeps ts id (lift (toParamTypes node sc.types ps)) := by
  refine .lift fun s a s' hrun F hu hapart => ?_
  have hkeeps := toParamTypes_moves keepsBindings_placid node sc.types ps s
  rw [hrun] at hkeeps
  obtain ⟨_, _, -, F', honward, -, -, horderly⟩ := (toParamTypes_tracks renumbers_id
    (State.mirrors_id hu.apart) (orderly_types hts hapart) ps).of_ok hrun
  exact carried_annotations hsc hts hu ⟨F', honward.advances, horderly⟩ hkeeps
    (toParamTypes_over ps hrun) (toParamTypes_names ps hrun)

theorem keeps_object (o : Objection) : Keeps ts (fun t => [t]) (lift (object node o)) := by
  refine .lift fun s a s' hrun F hu hts => ?_
  cases hrun
  exact .refl hu hts .any

theorem keeps_resolve {t : Ty} (ht : t ∈ ts) : Keeps ts (fun t => [t]) (lift (resolve t)) := by
  refine .lift fun s a s' hrun F hu hts => ?_
  obtain ⟨rfl, rfl⟩ := resolve_eq_ok hrun
  refine ⟨⟨F, .refl hu.apart, hu, ?_⟩, fun Z K _ hc hcts => ⟨.refl hc, ?_⟩⟩
  · simpa using hu.apart.resolve (hts t ht)
  · simpa using hc.resolve (hcts t ht)

theorem keeps_assign {src dst : Ty} (hsrc : src ∈ ts) (hdst : dst ∈ ts) :
    Keeps ts (fun _ => []) (lift (assign src dst)) := by
  refine .lift fun s a s' hrun F hu hts => ?_
  obtain ⟨u, hassign, rfl⟩ := assign_eq_ok hrun
  have hadvances := hu.apart.assign? (hts src hsrc) (hts dst hdst) hassign
  refine ⟨⟨F, hadvances, hadvances.tidy hu, by simp⟩, fun Z K _ hc hcts => ⟨?_, by simp⟩⟩
  exact hc.assign? hu.apart (hts src hsrc) (hts dst hdst) (hcts src hsrc) (hcts dst hdst) hassign

theorem keeps_fresh : Keeps ts (fun v => [.var v]) (lift fresh) := by
  refine .lift fun s a s' hrun F hu hts => ?_
  obtain ⟨rfl, rfl⟩ := fresh_eq_ok hrun
  have hle : s.unifier.counter ≤ s.unifier.counter + 1 := by lia
  have hlt : s.unifier.counter < s.unifier.counter + 1 := by lia
  have hadvances := hu.apart.advance hle
  refine ⟨⟨F, hadvances, hadvances.tidy hu, ?_⟩, fun Z K _ hc hcts => ⟨hc.advance hle rfl, ?_⟩⟩
  · exact List.forall_mem_singleton.mpr (Ty.apart_var (Int.le_refl _) (hu.apart.fresh _ hlt))
  · have hvar : (Ty.var (s.unifier.counter + 1)).Confined Z K :=
      ⟨by simpa [Ty.freeVars] using hc.vars _ hlt, by simp [Ty.mentions]⟩
    simpa using hvar

/-- A type is instantiated once. -/
theorem keeps_instance {t : Ty} (ht : t ∈ ts) :
    Keeps ts (fun t => [t]) (lift (Checker.instantiateUpTo 1 t)) := by
  refine .lift fun s a s' hrun F hu hts => ?_
  cases t with
  | poly ps body =>
    obtain ⟨rfl, rfl⟩ : (s.unifier.instantiate ps body).1 = a ∧
        { s with unifier := (s.unifier.instantiate ps body).2 } = s' := by
      cases hrun
      exact ⟨rfl, rfl⟩
    obtain ⟨hadvances, hbody⟩ := hu.apart.instantiate (hts _ ht)
    refine ⟨⟨F, hadvances, hadvances.tidy hu, by simpa using hbody⟩, fun Z K _ hc hcts => ?_⟩
    obtain ⟨hspreads, hbody⟩ := hc.instantiate (hcts _ ht)
    exact ⟨hspreads, by simpa using hbody⟩
  | _ =>
    obtain ⟨rfl, rfl⟩ := pure_eq_ok.mp hrun
    exact .refl hu hts (.of_subset (by simpa using ht))

theorem keeps_pure {α : Type} {found : α → List Ty} {a : α} (h : Derives ts (found a)) :
    Keeps ts found (lift (pure a)) := Keeps.pure h

theorem keeps_throw {α : Type} {found : α → List Ty} (e : Stop) :
    Keeps ts found (lift (throw e)) :=
  .lift fun _ _ _ hrun => absurd hrun throw_ne_ok

/-! ## Comparisons and calls -/

theorem keeps_expectType {t want : Ty} (hsc : sc.known ⊆ ts) (ht : t ∈ ts) (hwant : want ∈ ts) :
    Keeps ts (fun _ => []) (expectType sc node t want) := by
  refine (Keeps.comparing hsc ht hwant).bind fun _ _ _ _ => Keeps.step hsc ?_
  refine .lift_bind ((keeps_assign ht hwant).bind fun r _ _ _ => ?_)
  cases r with
  | ok => exact keeps_pure (.of_subset (List.nil_subset _))
  | error e =>
    exact .lift_bind ((keeps_object _).bind fun _ _ _ _ => keeps_pure (.of_subset (List.nil_subset _)))

theorem keeps_callResult {argNode : Node} {param : Option Ty} {ret : Ty} {args : List Ty}
    (hsc : sc.known ⊆ ts) (hparam : ∀ p ∈ param, p ∈ ts) (hret : ret ∈ ts) (hargs : args ⊆ ts) :
    Keeps ts (fun t => [t]) (callResult sc node argNode param ret args) := by
  have hobjected : ∀ {ts' : List Ty} {o : Objection}, ret ∈ ts' → Keeps ts' (fun t => [t])
      (lift (object argNode o >>= fun _ => resolve ret)) := fun hret =>
    .lift_bind ((keeps_object _).bind fun _ _ _ _ => keeps_resolve (List.mem_append_right _ hret))
  have hcount : ∀ o, Keeps ts (fun t => [t]) (step sc (fun t => [t]) (object node o)) :=
    fun o => Keeps.step hsc (keeps_object o)
  cases param with
  | none =>
    cases args with
    | nil => exact Keeps.step hsc (keeps_resolve hret)
    | cons a rest => exact hcount _
  | some p =>
    cases args with
    | nil => exact hcount _
    | cons a rest =>
      cases rest with
      | cons a' rest => exact hcount _
      | nil =>
        have ha : a ∈ ts := hargs (by simp)
        have hp : p ∈ ts := hparam p rfl
        refine (Keeps.comparing hsc ha hp).bind fun _ _ _ _ => Keeps.step hsc ?_
        refine .lift_bind ((keeps_assign ha hp).bind fun r _ _ _ => ?_)
        rcases r with e | _
        · cases e with
          | mismatch src dst =>
            refine .lift_bind ((keeps_resolve (by simpa using ha)).bind fun _ _ _ _ => ?_)
            refine .lift_bind ((keeps_resolve (by simp [hp])).bind fun _ _ _ _ => ?_)
            exact hobjected (by simp [hret])
          | _ => exact hobjected (by simpa using hret)
        · exact keeps_resolve (by simpa using hret)

theorem keeps_freshSignature (n : Nat) :
    Keeps ts (fun signature => signature.1.toList ++ [signature.2]) (lift (freshSignature n)) := by
  unfold freshSignature
  dsimp only
  split
  · rw [pure_bind]
    refine .lift_bind (keeps_fresh.bind fun ret _ _ _ => keeps_pure (.of_subset ?_))
    simp
  · refine .lift_bind (keeps_fresh.bind fun v _ _ _ => ?_)
    rw [pure_bind]
    refine .lift_bind (keeps_fresh.bind fun ret _ _ _ => keeps_pure (.of_subset ?_))
    simp

theorem keeps_instantiateUpTo {n : Nat} {t : Ty} (hsc : sc.known ⊆ ts) (ht : t ∈ ts) :
    Keeps ts (fun t => [t]) (instantiateUpTo sc n t) := by
  induction n generalizing ts t with
  | zero => exact .pure (.of_subset (by simpa using ht))
  | succ n ih =>
    refine (Keeps.step hsc (keeps_instance ht)).bind fun t _ _ _ => ih ?_ (by simp)
    exact fun t ht => List.mem_append_right _ (hsc ht)

theorem keeps_explicitInstance {t : Ty} {targs : List TypeExpr} (hrigid : sc.Rigid)
    (hsc : sc.known ⊆ ts) (ht : t ∈ ts) :
    Keeps ts (fun t => [t]) (explicitInstance sc node t targs) := by
  have hobject : ∀ o, Keeps ts (fun t => [t]) (step sc (fun t => [t]) (object node o)) :=
    fun o => Keeps.step hsc (keeps_object o)
  cases targs with
  | nil => exact .pure (.of_subset (by simpa using ht))
  | cons targ rest =>
    cases t with
    | any => exact .pure .any
    | poly params body =>
      unfold explicitInstance
      dsimp only
      split
      · rename_i hlen
        have hread : Keeps ts (fun as => .poly params body :: as)
            (lift (toTypes node sc.types (targ :: rest))) :=
          (keeps_toTypes hrigid hsc _).derive fun as _ _ _ => .of_subset (by simp [ht])
        refine (Keeps.step hsc hread).bind fun as x y hrun => Keeps.step ?_ (keeps_pure ?_)
        · exact fun t ht => List.mem_append_right _ (hsc ht)
        · have hargs := toTypes_length ((follows_step _ _ _).eq_ok hrun)
          have hlen : params.length = as.length := hlen.trans hargs.symm
          constructor
          · intro F c h
            refine List.forall_mem_singleton.mpr (Ty.Apart.instantiateWith hlen (h _ (by simp))
              (Int.le_refl _) fun a ha => h a (by simp [ha]))
          · intro Z K h
            exact List.forall_mem_singleton.mpr (Ty.Confined.instantiateWith hlen (h _ (by simp))
              fun a ha => h a (by simp [ha]))
      · exact hobject _
    | _ => exact hobject _

theorem keeps_applied {argNode : Node} {count : Nat} {args : Recorder (List Ty)} {t : Ty}
    (hsc : sc.known ⊆ ts) (ht : t ∈ ts) (hargs : Keeps sc.known id args) :
    Keeps ts (fun t => [t]) (applied sc node argNode count args t) := by
  have hresult : ∀ {ts' : List Ty} {param : Option Ty} {ret : Ty}, sc.known ⊆ ts' →
      (∀ p ∈ param, p ∈ ts') → ret ∈ ts' →
      Keeps ts' (fun t => [t]) (args >>= fun as => callResult sc node argNode param ret as) := by
    intro ts' param ret hsc hparam hret
    refine (hargs.of_subset hsc).bind fun as _ _ _ => keeps_callResult ?_ ?_ ?_ ?_
    · exact fun t ht => List.mem_append_right _ (hsc ht)
    · exact fun p hp => List.mem_append_right _ (hparam p hp)
    · exact List.mem_append_right _ hret
    · exact List.subset_append_left _ _
  have hobject : ∀ {ts' : List Ty} {o : Objection}, sc.known ⊆ ts' →
      Keeps ts' (fun t => [t]) (step sc (fun t => [t]) (object node o)) :=
    fun hsc => Keeps.step hsc (keeps_object _)
  have hself : Derives ts ts := .of_subset (List.Subset.refl _)
  cases t with
  | any => exact (hargs.of_subset hsc).bind fun _ _ _ _ => .pure .any
  | var v =>
    refine (Keeps.step hsc (keeps_freshSignature count)).bind fun (param, ret) _ _ _ => ?_
    have hparam : ∀ p ∈ param, p ∈ param.toList ++ [ret] ++ ts := by simp +contextual
    have hfunc : Derives (param.toList ++ [ret] ++ ts)
        ([.func param ret] ++ (param.toList ++ [ret] ++ ts)) :=
      (Derives.func hparam (by simp)).append (.of_subset (List.Subset.refl _))
    refine Keeps.mono ?_ hfunc
    have hknown : sc.known ⊆ [.func param ret] ++ (param.toList ++ [ret] ++ ts) :=
      fun t ht => List.mem_append_right _ (List.mem_append_right _ (hsc ht))
    have hvar : .var v ∈ [.func param ret] ++ (param.toList ++ [ret] ++ ts) := by simp [ht]
    refine (Keeps.comparing hknown hvar (by simp)).bind fun _ _ _ _ => ?_
    refine (Keeps.step hknown (keeps_assign hvar (by simp))).bind fun result _ _ _ => ?_
    cases result with
    | error e => exact hobject hknown
    | ok => exact hresult hknown (fun p hp => List.mem_cons_of_mem _ (hparam p hp)) (by simp)
  | thunk ret =>
    refine Keeps.mono ?_ ((Derives.thunk ht).append hself)
    exact hresult (fun t ht => List.mem_append_right _ (hsc ht)) (by simp) (by simp)
  | fn param ret =>
    refine Keeps.mono ?_ ((Derives.fn ht).append hself)
    exact hresult (fun t ht => List.mem_append_right _ (hsc ht)) (by simp) (by simp)
  | _ => exact hobject hsc

/-! ## Constants and bodies -/

theorem keeps_returned {expected : Option Ty} {t : Ty} (hsc : sc.known ⊆ ts)
    (hexpected : ∀ want ∈ expected, want ∈ ts) (ht : t ∈ ts) :
    Keeps ts (fun t => [t]) (returned sc node expected t) := by
  cases expected with
  | none => exact .pure (.of_subset (by simpa using ht))
  | some want =>
    have hwant : want ∈ ts := hexpected want rfl
    refine (keeps_expectType hsc ht hwant).bind fun _ _ _ _ => .pure (.of_subset ?_)
    simpa using hwant

theorem keeps_constType {valueNode : Node} {type : Option TypeExpr} {value : Recorder Ty}
    {declare trusted : Bool} {signature : Option TypeExpr} (hrigid : sc.Rigid)
    (hvalue : Keeps sc.known (fun t => [t]) value) :
    Keeps sc.known (fun t => [t])
      (constType sc node valueNode type value declare trusted signature) := by
  have hself : sc.known ⊆ sc.known := List.Subset.refl _
  have hread : ∀ te, Keeps sc.known (fun t => [t]) (step sc (fun t => [t]) (toType node sc.types te)) :=
    fun te => Keeps.step hself (keeps_toType hrigid hself te)
  unfold constType
  split
  · exact hread _
  split
  · exact hread _
  split
  · refine (hread _).bind fun want _ _ _ => ?_
    refine (hvalue.of_subset (List.subset_append_right _ _)).bind fun found _ _ _ => ?_
    refine (keeps_expectType ?_ (by simp) (by simp)).bind fun _ _ _ _ => .pure (.of_subset (by simp))
    exact fun t ht => by simp [ht]
  · refine hvalue.bind fun found _ _ _ => Keeps.step ?_ (keeps_resolve (by simp))
    exact List.subset_append_right _ _

/-- The types in scope after a declaration. -/
theorem known_declare (sc : Scope) (name : String) (t : Ty) :
    (sc.declare name t).known ⊆ t :: sc.known := by
  obtain ⟨values, types, declared⟩ := sc
  cases values with
  | nil => simp [Scope.known, Scope.identifiers, Scope.declare, TyEnv.add]
  | cons top rest =>
    intro u hu
    simp only [Scope.known, Scope.identifiers, Scope.declare, TyEnv.add, List.flatMap_cons,
      List.map_cons, List.cons_append, List.mem_cons, List.mem_append] at hu ⊢
    rcases hu with hu | ((hu | hu) | hu)
    · exact .inl hu
    · exact .inr (.inl (.inl (List.map_subset _ (List.filter_subset_self _) hu)))
    · exact .inr (.inl (.inr hu))
    · exact .inr (.inr hu)

end Recorder

end Checker

end ProofScript
