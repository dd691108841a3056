import ProofScript.Proofs.Checking.Growth

/-!
# Annotations

The type that the checker reads off an annotation says what the annotation says, if nothing is
objected to. It has no free variables but those that type parameters stand for.
-/

namespace ProofScript

open Program Stateful

namespace Program

mutual

/-- Does no part of the annotation fit everywhere? -/
def TypeExpr.plain : TypeExpr → Bool
  | .ref _ args => TypeExpr.plainAll args
  | .func _ params ret => TypeExpr.plainParams params && ret.plain
  | .keyword name => name ≠ "any"
  | _ => true

/-- Does no part of the annotations fit everywhere? -/
def TypeExpr.plainAll : List TypeExpr → Bool
  | [] => true
  | t :: rest => t.plain && TypeExpr.plainAll rest

/-- Does no part of the annotations of parameters fit everywhere? -/
def TypeExpr.plainParams : List Param → Bool
  | [] => true
  | (_, t) :: rest => t.plain && TypeExpr.plainParams rest

end

mutual

/-- Every name of the annotation is a type parameter, or a type of the library at the right number
of arguments. -/
def TypeExpr.Known (names : List String) : TypeExpr → Prop
  | .ref name args =>
    name ∈ names ∨ Checker.aliasArity? name = some args.length ∧ TypeExpr.KnownAll names args
  | .func tparams params ret =>
    TypeExpr.KnownParams (tparams.reverse ++ names) params ∧ ret.Known (tparams.reverse ++ names)
  | _ => True

/-- Every name of the annotations is known. -/
def TypeExpr.KnownAll (names : List String) : List TypeExpr → Prop
  | [] => True
  | t :: rest => t.Known names ∧ TypeExpr.KnownAll names rest

/-- Every name of the annotations of parameters is known. -/
def TypeExpr.KnownParams (names : List String) : List Param → Prop
  | [] => True
  | (_, t) :: rest => t.Known names ∧ TypeExpr.KnownParams names rest

end

end Program

/-- Some numbers get another use. -/
def Roles.mark (k : Roles) (ids : List TyVar) (r : Role) : Roles :=
  fun v => if v ∈ ids then r else k v

namespace Roles

variable {k : Roles} {ids : List TyVar} {r : Role} {v : TyVar}

theorem mark_of_mem (h : v ∈ ids) : k.mark ids r v = r := if_pos h

theorem mark_of_not_mem (h : v ∉ ids) : k.mark ids r v = k v := if_neg h

end Roles

/-- New numbers may be taken for any use. -/
theorem Unifier.Regular.mark {k : Roles} {u : Unifier} (h : u.Regular k) {ids : List TyVar}
    {n : TyVar} (hn : u.counter ≤ n) (hids : ∀ v ∈ ids, u.counter < v ∧ v ≤ n) (r : Role) :
    Unifier.Regular (k.mark ids r) { u with counter := n } where
  subst :=
    { acyclic := h.subst.acyclic
      fits := by
        intro v t hv
        rcases h.subst.fits v t hv with ⟨hle, hfits⟩
        refine ⟨Int.le_trans hle hn, hfits.mono hn ?_⟩
        intro w hw _
        refine Roles.mark_of_not_mem ?_
        intro hmem
        have hlt := (hids w hmem).1
        lia }
  fresh v hv := by
    rw [Roles.mark_of_not_mem]
    · exact h.fresh v (Int.lt_of_le_of_lt hn hv)
    · intro hmem
      have hle := (hids v hmem).2
      dsimp only at hv
      lia
  nonneg := Int.le_trans h.nonneg hn

namespace Checker

variable {s s' : State} {k k' : Roles}

/-- The state after a step, where numbers taken before keep their use. -/
structure Progress (k : Roles) (s : State) (k' : Roles) (s' : State) : Prop where
  roles : ∀ v ≤ s.unifier.counter, k' v = k v
  extends_ : s.unifier.Extends s'.unifier
  regular : s'.unifier.Regular k'

theorem Progress.refl (h : s.unifier.Regular k) : Progress k s k s := ⟨fun _ _ => rfl, .refl _, h⟩

theorem Progress.trans {mid : State} {km : Roles} (h : Progress k s km mid)
    (h' : Progress km mid k' s') : Progress k s k' s' where
  roles v hv := by rw [h'.roles v (Int.le_trans hv h.extends_.counter), h.roles v hv]
  extends_ := h.extends_.trans h'.extends_
  regular := h'.regular

theorem Progress.fits (h : Progress k s k' s') {t : Ty} (ht : t.Fits k s.unifier.counter) :
    t.Fits k' s'.unifier.counter :=
  ht.mono h.extends_.counter fun v hv _ => h.roles v hv

theorem Progress.shaped (h : Progress k s k' s') {t : Ty} (ht : t.Shaped k s.unifier.counter) :
    t.Shaped k' s'.unifier.counter := by
  refine Ty.Shaped.mono h.extends_.counter ?_ t ht
  intro v hv hbound
  rw [h.roles v hv, hbound]

/-! ## Numbers for type parameters -/

theorem fresh_eq_ok {v : TyVar} (h : fresh s = (.ok v, s')) :
    v = s.unifier.counter + 1 ∧ s' = { s with unifier := s.unifier.fresh.2 } := by
  cases h
  exact ⟨rfl, rfl⟩

theorem freshNames_eq_ok {names : List String} {vars : List (String × TyVar)}
    (h : (names.mapM fun name => do return (name, ← fresh) : Checker _) s = (.ok vars, s')) :
    vars = names.zip (s.unifier.freshAll names).1 ∧
      s' = { s with unifier := (s.unifier.freshAll names).2 } := by
  induction names generalizing s vars with
  | nil =>
    obtain ⟨rfl, rfl⟩ := pure_eq_ok.mp h
    exact ⟨rfl, rfl⟩
  | cons name rest ih =>
    rw [List.mapM_cons] at h
    obtain ⟨p, s₁, hp, h⟩ := bind_eq_ok.mp h
    obtain ⟨v, s₂, hv, hp⟩ := bind_eq_ok.mp hp
    obtain ⟨rfl, rfl⟩ := pure_eq_ok.mp hp
    obtain ⟨rfl, rfl⟩ := fresh_eq_ok hv
    obtain ⟨more, s₃, hmore, h⟩ := bind_eq_ok.mp h
    obtain ⟨rfl, rfl⟩ := pure_eq_ok.mp h
    rcases ih hmore with ⟨rfl, rfl⟩
    exact ⟨rfl, rfl⟩

/-! ## Types of the library -/

/-- The number of arguments of each type of the library. -/
theorem aliasArity?_eq_some {name : String} {n : Nat} (h : aliasArity? name = some n) :
    (name = "True" ∨ name = "False") ∧ n = 0 ∨ name = "Not" ∧ n = 1 ∨
      (name = "And" ∨ name = "Or" ∨ name = "Impl" ∨ name = "Apply") ∧ n = 2 := by
  unfold aliasArity? at h
  split at h
  all_goals first
    | cases h
      simp
    | cases h

theorem sense_aliasType {name : String} {ts : List Ty} (h : aliasArity? name = some ts.length)
    (ρ : Valuation) : (aliasType name ts).sense ρ = aliasSense ρ.truth name (Ty.senses ρ ts) := by
  rcases aliasArity?_eq_some h with ⟨hname, hlen⟩ | ⟨rfl, hlen⟩ | ⟨hname, hlen⟩
  · obtain rfl : ts = [] := List.length_eq_zero_iff.mp hlen
    rcases hname with rfl | rfl
    · rfl
    · rfl
  · obtain ⟨a, rfl⟩ := List.length_eq_one_iff.mp hlen
    rfl
  · obtain ⟨a, b, rfl⟩ := List.length_eq_two.mp hlen
    rcases hname with rfl | rfl | rfl | rfl
    · rfl
    · rfl
    · rfl
    · rfl

theorem shapedAll_of_forall {c : TyVar} {ts : List Ty} (h : ∀ t ∈ ts, t.Shaped k c) :
    Ty.ShapedAll k c ts := by
  induction ts with
  | nil => trivial
  | cons t ts ih => exact ⟨h t (by simp), ih fun u hu => h u (by simp [hu])⟩

theorem shaped_aliasType {name : String} {ts : List Ty} {c : TyVar} (hc : 0 ≤ c)
    (h : ∀ t ∈ ts, t.Shaped k c) : (aliasType name ts).Shaped k c := by
  unfold aliasType
  split
  · exact hc
  · trivial
  · exact ⟨h _ (by simp), h _ (by simp)⟩
  · exact ⟨h _ (by simp), trivial⟩
  · exact shapedAll_of_forall h

theorem mem_freeVarsAll {ts : List Ty} {v : TyVar} (h : v ∈ Ty.freeVarsAll ts) :
    ∃ t ∈ ts, v ∈ t.freeVars := by
  induction ts with
  | nil => simp [Ty.freeVarsAll] at h
  | cons t ts ih =>
    rw [Ty.freeVarsAll, List.mem_append] at h
    rcases h with h | h
    · exact ⟨t, by simp, h⟩
    · rcases ih h with ⟨u, hu, hv⟩
      exact ⟨u, by simp [hu], hv⟩

theorem mem_freeVars_aliasType {name : String} {ts : List Ty} {v : TyVar}
    (h : v ∈ (aliasType name ts).freeVars) : ∃ t ∈ ts, v ∈ t.freeVars := by
  unfold aliasType at h
  split at h
  · simp [Ty.freeVars] at h
  · simp [Ty.freeVars] at h
  · rw [Ty.freeVars, List.mem_append] at h
    rcases h with h | h
    · exact ⟨_, by simp, h⟩
    · exact ⟨_, by simp, h⟩
  · rw [Ty.freeVars, List.mem_append] at h
    rcases h with h | h
    · simp [Ty.freeVars] at h
    · exact ⟨_, by simp, h⟩
  · exact mem_freeVarsAll h

theorem object_not_clean {node : Node} {o : Objection} {t : Ty}
    (h : object node o s = (.ok t, s')) : s'.findings ≠ [] := by
  cases h
  intro hnil
  cases (List.append_eq_nil_iff.mp hnil).2

theorem unsupported_not_clean (node : Node) (te : TypeExpr) {t : Ty}
    (h : (match te.print with
      | .ok shown => object node (.unsupportedType shown)
      | .error g => throw (.gap g) : Checker Ty) s = (.ok t, s')) : s'.findings ≠ [] := by
  generalize te.print = printed at h
  cases printed with
  | ok shown => exact object_not_clean h
  | error g => exact absurd h throw_ne_ok

/-- If nothing is objected to after a step, nothing was before. -/
theorem clean_before {α : Type} {f : Checker α} {a : α} (hf : Moves Grows f)
    (h : f s = (.ok a, s')) (hclean : s'.findings = []) : s.findings = [] := by
  have hgrows := hf s
  rw [h] at hgrows
  exact hgrows.clean hclean

/-! ## The variables of annotations -/

/-- Every free variable of the type is one of the given types. -/
def Over (types : List (String × Ty)) (t : Ty) : Prop :=
  ∀ v ∈ t.freeVars, ∃ b ∈ types, v ∈ b.2.freeVars

theorem Over.closed {types : List (String × Ty)} {t : Ty} (h : Over types t)
    (htypes : ∀ b ∈ types, b.2.freeVars = []) : t.freeVars = [] := by
  refine List.eq_nil_iff_forall_not_mem.mpr fun v hv => ?_
  obtain ⟨b, hb, hvb⟩ := h v hv
  rw [htypes b hb] at hvb
  cases hvb

theorem object_over {types : List (String × Ty)} {node : Node} {o : Objection} {t : Ty}
    (h : object node o s = (.ok t, s')) : Over types t := by
  cases h
  simp [Over, Ty.freeVars]

theorem unsupported_over {types : List (String × Ty)} (node : Node) (te : TypeExpr) {t : Ty}
    (h : (match te.print with
      | .ok shown => object node (.unsupportedType shown)
      | .error g => throw (.gap g) : Checker Ty) s = (.ok t, s')) : Over types t := by
  generalize te.print = printed at h
  cases printed with
  | ok shown => exact object_over h
  | error g => exact absurd h throw_ne_ok

/-- The type parameters of a function annotation are bound if there are any. -/
theorem func_over {types : List (String × Ty)} {vars : List (String × TyVar)} {args : List Ty} {r : Ty}
    (hargs : ∀ a ∈ args, Over ((vars.map fun (name, v) => (name, Ty.var v)).reverse ++ types) a)
    (hr : Over ((vars.map fun (name, v) => (name, Ty.var v)).reverse ++ types) r) :
    Over types (if vars.isEmpty then .func args.head? r else .poly vars (.func args.head? r)) := by
  have hfree : ∀ v ∈ (Ty.func args.head? r).freeVars,
      v ∈ vars.map Prod.snd ∨ ∃ b ∈ types, v ∈ b.2.freeVars := by
    intro v hv
    have hpart : ∃ b ∈ (vars.map fun (name, v) => (name, Ty.var v)).reverse ++ types,
        v ∈ b.2.freeVars := by
      cases args with
      | nil => exact hr v hv
      | cons a as =>
        rcases List.mem_append.mp hv with hv | hv
        · exact hr v hv
        · exact hargs a (by simp) v hv
    obtain ⟨b, hb, hvb⟩ := hpart
    rcases List.mem_append.mp hb with hb | hb
    · rcases List.mem_map.mp (List.mem_reverse.mp hb) with ⟨p, hp, rfl⟩
      obtain rfl : v = p.2 := by simpa [Ty.freeVars] using hvb
      exact .inl (List.mem_map_of_mem hp)
    · exact .inr ⟨b, hb, hvb⟩
  split
  · rename_i hempty
    obtain rfl := List.isEmpty_iff.mp hempty
    exact fun v hv => (hfree v hv).resolve_left (by simp)
  · intro v hv
    rw [Ty.freeVars, List.mem_filter] at hv
    exact (hfree v hv.1).resolve_left (by simpa using hv.2)

mutual

/-- The variables of the type of an annotation are those that type parameters stand for. -/
theorem toType_over {s s' : State} {node : Node} {types : List (String × Ty)} {t : Ty} :
    (te : TypeExpr) → toType node types te s = (.ok t, s') → Over types t
  | .ref name args, h => by
    rw [toType] at h
    cases hfind : types.lookup name with
    | some u =>
      simp only [hfind] at h
      split at h
      · obtain ⟨rfl, -⟩ := pure_eq_ok.mp h
        exact fun v hv => ⟨_, mem_of_lookup hfind, hv⟩
      · exact object_over h
    | none =>
      simp only [hfind] at h
      cases harity : aliasArity? name with
      | none =>
        simp only [harity] at h
        exact object_over h
      | some arity =>
        simp only [harity] at h
        obtain ⟨_, _, -, h⟩ := bind_eq_ok.mp h
        split at h
        · exact object_over h
        split at h
        · exact object_over h
        obtain ⟨ts, s₁, hts, h⟩ := bind_eq_ok.mp h
        obtain ⟨rfl, -⟩ := pure_eq_ok.mp h
        intro v hv
        obtain ⟨a, ha, hva⟩ := mem_freeVars_aliasType hv
        exact toTypes_over args hts a ha v hva
  | .func tparams params ret, h => by
    rw [toType] at h
    split at h
    · exact object_over h
    obtain ⟨vars, s₁, hvars, h⟩ := bind_eq_ok.mp h
    obtain ⟨args, s₂, hargs, h⟩ := bind_eq_ok.mp h
    obtain ⟨r, s₃, hret, h⟩ := bind_eq_ok.mp h
    obtain ⟨rfl, -⟩ := pure_eq_ok.mp h
    exact func_over (toParamTypes_over params hargs) (toType_over ret hret)
  | .keyword name, h => by
    by_cases hnever : name = "never"
    · rw [hnever, toType] at h
      obtain ⟨rfl, -⟩ := pure_eq_ok.mp h
      simp [Over, Ty.freeVars]
    by_cases hany : name = "any"
    · rw [hany, toType] at h
      obtain ⟨rfl, -⟩ := pure_eq_ok.mp h
      simp [Over, Ty.freeVars]
    rw [toType] at h
    · exact unsupported_over node (.keyword name) h
    all_goals simp [hnever, hany]
  | .missing, h => unsupported_over node .missing h
  | .tuple ts, h => unsupported_over node (.tuple ts) h
  | .union ts, h => unsupported_over node (.union ts) h
  | .object ps, h => unsupported_over node (.object ps) h
  | .str v, h => unsupported_over node (.str v) h
  | .bool b, h => unsupported_over node (.bool b) h

theorem toTypes_over {s s' : State} {node : Node} {types : List (String × Ty)} {ts : List Ty} :
    (tes : List TypeExpr) → toTypes node types tes s = (.ok ts, s') → ∀ t ∈ ts, Over types t
  | [], h => by
    obtain ⟨rfl, -⟩ := pure_eq_ok.mp h
    simp
  | te :: rest, h => by
    obtain ⟨t, s₁, ht, h⟩ := bind_eq_ok.mp h
    obtain ⟨more, s₂, hmore, h⟩ := bind_eq_ok.mp h
    obtain ⟨rfl, -⟩ := pure_eq_ok.mp h
    exact List.forall_mem_cons.mpr ⟨toType_over te ht, toTypes_over rest hmore⟩

theorem toParamTypes_over {s s' : State} {node : Node} {types : List (String × Ty)} {ts : List Ty} :
    (ps : List Param) → toParamTypes node types ps s = (.ok ts, s') → ∀ t ∈ ts, Over types t
  | [], h => by
    obtain ⟨rfl, -⟩ := pure_eq_ok.mp h
    simp
  | (_, te) :: rest, h => by
    obtain ⟨t, s₁, ht, h⟩ := bind_eq_ok.mp h
    obtain ⟨more, s₂, hmore, h⟩ := bind_eq_ok.mp h
    obtain ⟨rfl, -⟩ := pure_eq_ok.mp h
    exact List.forall_mem_cons.mpr ⟨toType_over te ht, toParamTypes_over rest hmore⟩

end

/-! ## Reading annotations -/

/-- What the type parameters stand for. -/
noncomputable def reading (types : List (String × Ty)) (ρ : Valuation) : List (String × Sense) :=
  types.map fun b => (b.1, b.2.sense ρ)

theorem lookup_reading (types : List (String × Ty)) (ρ : Valuation) (name : String) :
    (reading types ρ).lookup name = (types.lookup name).map (Ty.sense ρ) := by
  induction types with
  | nil => rfl
  | cons b types ih =>
    obtain ⟨n, t⟩ := b
    by_cases hn : name = n
    · simp [reading, hn]
    · have hne : (name == n) = false := by simpa using hn
      rw [reading] at ih
      simpa [reading, List.lookup_cons, hne] using ih

/-- The type parameters stand for shaped types whose variables are taken. -/
def Supported (k : Roles) (c : TyVar) (types : List (String × Ty)) : Prop :=
  ∀ b ∈ types, b.2.Shaped k c ∧ ∀ v ∈ b.2.freeVars, v ≤ c

theorem Progress.supported (h : Progress k s k' s') {types : List (String × Ty)}
    (ht : Supported k s.unifier.counter types) : Supported k' s'.unifier.counter types := by
  intro b hb
  refine ⟨h.shaped (ht b hb).1, ?_⟩
  intro v hv
  exact Int.le_trans ((ht b hb).2 v hv) h.extends_.counter

/-- The type says what the annotation says. -/
structure Reads (types : List (String × Ty)) (te : TypeExpr) (k : Roles) (s : State) (t : Ty) :
    Prop where
  shaped : t.Shaped k s.unifier.counter
  free : Over types t
  known : te.Known (types.map Prod.fst)
  sense : ∀ ρ, t.sense ρ = te.sense ρ.truth (reading types ρ)

/-- The types say what the annotations say, in order. -/
structure ReadsAll (types : List (String × Ty)) (tes : List TypeExpr) (k : Roles) (s : State)
    (ts : List Ty) : Prop where
  length : ts.length = tes.length
  shaped : ∀ t ∈ ts, t.Shaped k s.unifier.counter
  free : ∀ t ∈ ts, Over types t
  known : TypeExpr.KnownAll (types.map Prod.fst) tes
  senses : ∀ ρ, Ty.senses ρ ts = TypeExpr.senses ρ.truth (reading types ρ) tes

theorem Progress.reads (h : Progress k s k' s') {types : List (String × Ty)} {te : TypeExpr} {t : Ty}
    (ht : Reads types te k s t) : Reads types te k' s' t :=
  ⟨h.shaped ht.shaped, ht.free, ht.known, ht.sense⟩

theorem Progress.readsAll (h : Progress k s k' s') {types : List (String × Ty)}
    {tes : List TypeExpr} {ts : List Ty} (ht : ReadsAll types tes k s ts) :
    ReadsAll types tes k' s' ts :=
  ⟨ht.length, fun t hmem => h.shaped (ht.shaped t hmem), ht.free, ht.known, ht.senses⟩

theorem ReadsAll.cons {types : List (String × Ty)} {te : TypeExpr} {tes : List TypeExpr} {t : Ty}
    {ts : List Ty} (h : Reads types te k s t) (hs : ReadsAll types tes k s ts) :
    ReadsAll types (te :: tes) k s (t :: ts) where
  length := by simp [hs.length]
  shaped := by
    intro u hu
    rcases List.mem_cons.mp hu with rfl | hu
    · exact h.shaped
    · exact hs.shaped u hu
  free := by
    intro u hu
    rcases List.mem_cons.mp hu with rfl | hu
    · exact h.free
    · exact hs.free u hu
  known := ⟨h.known, hs.known⟩
  senses ρ := by rw [Ty.senses, TypeExpr.senses, h.sense, hs.senses]

theorem ReadsAll.exists_cons {types : List (String × Ty)} {te : TypeExpr} {tes : List TypeExpr}
    {ts : List Ty} (h : ReadsAll types (te :: tes) k s ts) :
    ∃ t ts', ts = t :: ts' ∧ Reads types te k s t ∧ ReadsAll types tes k s ts' := by
  match ts, h with
  | [], h => exact absurd h.length (by simp)
  | t :: ts', h =>
    have hsenses : ∀ ρ, t.sense ρ = te.sense ρ.truth (reading types ρ) ∧
        Ty.senses ρ ts' = TypeExpr.senses ρ.truth (reading types ρ) tes :=
      fun ρ => List.cons.inj (h.senses ρ)
    refine ⟨t, ts', rfl, ?_, ?_⟩
    · exact ⟨h.shaped t (by simp), h.free t (by simp), h.known.1, fun ρ => (hsenses ρ).1⟩
    · exact ⟨Nat.succ.inj h.length, fun u hu => h.shaped u (by simp [hu]),
        fun u hu => h.free u (by simp [hu]), h.known.2, fun ρ => (hsenses ρ).2⟩

theorem paramSenses_eq (truth : Sense) (env : List (String × Sense)) (ps : List Param) :
    TypeExpr.paramSenses truth env ps = TypeExpr.senses truth env (ps.map Prod.snd) := by
  induction ps with
  | nil => rfl
  | cons p ps ih =>
    obtain ⟨n, t⟩ := p
    simp [TypeExpr.paramSenses, TypeExpr.senses, ih]

theorem knownParams_iff (names : List String) (ps : List Param) :
    TypeExpr.KnownParams names ps ↔ TypeExpr.KnownAll names (ps.map Prod.snd) := by
  induction ps with
  | nil => exact Iff.rfl
  | cons p ps ih =>
    obtain ⟨n, t⟩ := p
    simp [TypeExpr.KnownParams, TypeExpr.KnownAll, ih]

/-- Distinct variables can have any given senses. -/
theorem exists_map_eq {ids : List TyVar} {ps : List Sense} (hnodup : ids.Nodup)
    (hlen : ps.length = ids.length) : ∃ f : TyVar → Sense, ids.map f = ps := by
  refine ⟨fun v => ((ids.zip ps).lookup v).getD ⊥, ?_⟩
  refine List.ext_getElem (by simp [hlen]) ?_
  intro i h₁ h₂
  have hi : i < ids.length := by simpa using h₁
  have hmem : (ids[i], ps[i]) ∈ ids.zip ps :=
    List.mem_iff_getElem.mpr ⟨i, by simp [hlen, hi], by simp⟩
  have hkeys : ((ids.zip ps).map Prod.fst).Nodup := by
    rwa [List.map_fst_zip (by simp [hlen])]
  rw [List.getElem_map, lookup_of_mem_of_nodup hmem hkeys, Option.getD_some]

theorem reading_append (types types' : List (String × Ty)) (ρ : Valuation) :
    reading (types ++ types') ρ = reading types ρ ++ reading types' ρ := by
  simp [reading]

theorem reading_rebind {types : List (String × Ty)} {ids : List TyVar}
    (h : ∀ b ∈ types, ∀ v ∈ b.2.freeVars, v ∉ ids) (ρ : Valuation) (f : TyVar → Sense) :
    reading types (ρ.rebind ids f) = reading types ρ := by
  rw [reading, reading, List.map_inj_left]
  intro b hb
  have hsame : b.2.sense (ρ.rebind ids f) = b.2.sense ρ :=
    Ty.sense_congr b.2 (fun v hv => Valuation.rebind_vars_of_not_mem (h b hb v hv)) fun _ _ _ => rfl
  rw [hsame]

theorem reading_vars {names : List String} {ids : List TyVar} (ρ : Valuation) (f : TyVar → Sense) :
    reading ((names.zip ids).map fun p => (p.1, Ty.var p.2)) (ρ.rebind ids f) =
      names.zip (ids.map f) := by
  rw [reading, List.map_map, List.zip_map_right, List.map_inj_left]
  intro p hp
  have hmem : p.2 ∈ ids := (List.of_mem_zip hp).2
  simp only [Function.comp_apply, Ty.sense, Valuation.rebind_vars_of_mem hmem, Prod.map, id]

/-- Type parameters that stand for new variables. -/
abbrev binders (names : List String) (ids : List TyVar) : List (String × Ty) :=
  ((names.zip ids).map fun p => (p.1, Ty.var p.2)).reverse

/-- The type of a function with at most one parameter. -/
theorem reads_signature {types : List (String × Ty)} {params : List Param} {ret : TypeExpr}
    {args : List Ty} {t : Ty} (hparams : ¬ 1 < params.length)
    (hargs : ReadsAll types (params.map Prod.snd) k s args) (hret : Reads types ret k s t) :
    (Ty.func args.head? t).Shaped k s.unifier.counter ∧
      ∀ ρ, (Ty.func args.head? t).sense ρ =
        .ofProp ((∀ p ∈ TypeExpr.paramSenses ρ.truth (reading types ρ) params, p.1) →
          (ret.sense ρ.truth (reading types ρ)).1) := by
  have hlen : args.length ≤ 1 := by
    have := hargs.length
    rw [List.length_map] at this
    omega
  have hsenses : ∀ ρ,
      TypeExpr.paramSenses ρ.truth (reading types ρ) params = Ty.senses ρ args := by
    intro ρ
    rw [paramSenses_eq, hargs.senses]
  match args, hlen with
  | [], _ =>
    refine ⟨hret.shaped, ?_⟩
    intro ρ
    rw [hsenses, ← hret.sense]
    simp [Ty.func, Ty.sense, Ty.senses]
  | [a], _ =>
    refine ⟨⟨hargs.shaped a (by simp), hret.shaped⟩, ?_⟩
    intro ρ
    have hone : (∀ p ∈ Ty.senses ρ [a], p.1) = (a.sense ρ).1 := by
      rw [Ty.senses, Ty.senses]
      exact propext List.forall_mem_singleton
    rw [hsenses, ← hret.sense, hone]
    rfl

/-- The type of a function annotation, where new variables stand for its type parameters. -/
theorem reads_func {types : List (String × Ty)} {tparams : List String} {params : List Param}
    {ret : TypeExpr} {ids : List TyVar} {args : List Ty} {t : Ty}
    (hids : ∀ b ∈ types, ∀ v ∈ b.2.freeVars, v ∉ ids)
    (hbound : ∀ v ∈ ids, k v = .bound ∧ v ≤ s.unifier.counter)
    (hlen : ids.length = tparams.length) (hnodup : ids.Nodup) (hparams : ¬ 1 < params.length)
    (hargs : ReadsAll (binders tparams ids ++ types) (params.map Prod.snd) k s args)
    (hret : Reads (binders tparams ids ++ types) ret k s t) :
    Reads types (.func tparams params ret) k s
      (if (tparams.zip ids).isEmpty then Ty.func args.head? t
        else .poly (tparams.zip ids) (Ty.func args.head? t)) := by
  rcases reads_signature hparams hargs hret with ⟨hshaped, hsense⟩
  have hsnd : (tparams.zip ids).map Prod.snd = ids := List.map_snd_zip (Nat.le_of_eq hlen)
  have hnames : (binders tparams ids ++ types).map Prod.fst =
      tparams.reverse ++ types.map Prod.fst := by
    have hfst : (tparams.zip ids).map Prod.fst = tparams :=
      List.map_fst_zip (Nat.le_of_eq hlen.symm)
    rw [List.map_append, binders, List.map_reverse, List.map_map]
    exact congrArg (fun l => List.reverse l ++ _) hfst
  have hreading : ∀ ρ f, reading (binders tparams ids ++ types) (ρ.rebind ids f) =
      (tparams.zip (ids.map f)).reverse ++ reading types ρ := by
    intro ρ f
    rw [reading_append, reading_rebind hids, binders, reading, List.map_reverse]
    exact congrArg (fun l => List.reverse l ++ _) (reading_vars ρ f)
  have hall : ∀ ρ, ⨅ f, (Ty.func args.head? t).sense (ρ.rebind ids f) =
      (TypeExpr.func tparams params ret).sense ρ.truth (reading types ρ) := by
    intro ρ
    simp only [TypeExpr.sense, hsense, hreading, Sense.iInf_ofProp]
    refine congrArg Sense.ofProp (propext ⟨?_, ?_⟩)
    · intro h ps hps
      rcases exists_map_eq hnodup (hps.trans hlen.symm) with ⟨f, rfl⟩
      exact h f
    · intro h f
      exact h (ids.map f) (by rw [List.length_map, hlen])
  have hfree := func_over hargs.free hret.free
  have hknown : (TypeExpr.func tparams params ret).Known (types.map Prod.fst) := by
    have hargsKnown := hargs.known
    have hretKnown := hret.known
    rw [hnames] at hargsKnown hretKnown
    exact ⟨(knownParams_iff _ _).mpr hargsKnown, hretKnown⟩
  refine ⟨?_, hfree, hknown, ?_⟩
  · split
    · exact hshaped
    · exact ⟨fun p hp => hbound p.2 (List.of_mem_zip hp).2, hshaped⟩
  · intro ρ
    rw [← hall ρ]
    split
    · rename_i hempty
      have hnil : ids = [] := by
        have hzip : (tparams.zip ids).map Prod.snd = [] := by simpa using hempty
        rwa [hsnd] at hzip
      have hrebind : ∀ f, ρ.rebind ids f = ρ := by
        intro f
        refine Valuation.ext (funext fun v => ?_) rfl
        rw [Valuation.rebind_vars_of_not_mem (by simp [hnil])]
      simp only [hrebind, iInf_const]
    · rw [Ty.sense, hsnd]

/-- The type of an alias that no type parameter hides. -/
theorem reads_alias {types : List (String × Ty)} {name : String} {args : List TypeExpr}
    {ts : List Ty} (hnonneg : 0 ≤ s.unifier.counter) (hfind : types.lookup name = none)
    (harity : aliasArity? name = some args.length) (hreads : ReadsAll types args k s ts) :
    Reads types (.ref name args) k s (aliasType name ts) where
  shaped := shaped_aliasType hnonneg hreads.shaped
  free := by
    intro v hv
    rcases mem_freeVars_aliasType hv with ⟨u, hu, hvu⟩
    exact hreads.free u hu v hvu
  known := .inr ⟨harity, hreads.known⟩
  sense ρ := by
    rw [sense_aliasType (by rw [harity, hreads.length]), hreads.senses, TypeExpr.sense,
      lookup_reading, hfind]
    rfl

/-- New variables that type parameters stand for. -/
structure FreshBinders (k : Roles) (s : State) (types : List (String × Ty)) (names : List String)
    (ids : List TyVar) (u : Unifier) : Prop where
  progress : Progress k s (k.mark ids .bound) { s with unifier := u }
  supported : Supported (k.mark ids .bound) u.counter (binders names ids ++ types)
  taken : ∀ v ∈ ids, v ≤ u.counter
  length : ids.length = names.length
  nodup : ids.Nodup
  apart : ∀ b ∈ types, ∀ v ∈ b.2.freeVars, v ∉ ids

theorem freshBinders {types : List (String × Ty)} (hs : s.unifier.Regular k)
    (htypes : Supported k s.unifier.counter types) (names : List String) :
    FreshBinders k s types names (s.unifier.freshAll names).1 (s.unifier.freshAll names).2 := by
  rcases Unifier.freshAll_eq s.unifier names with ⟨hu, hlen, hbound, hnodup⟩
  have hextends := Unifier.extends_freshAll (u := s.unifier) names
  generalize s.unifier.freshAll names = fresh at *
  obtain ⟨ids, u⟩ := fresh
  dsimp only at hu hlen hbound hnodup hextends ⊢
  have hnew : ∀ v ≤ s.unifier.counter, v ∉ ids := by
    intro v hv hmem
    have hlt := (hbound v hmem).1
    lia
  have htaken : ∀ v ∈ ids, v ≤ u.counter := by
    intro v hv
    rw [hu]
    exact (hbound v hv).2
  have hprogress : Progress k s (k.mark ids .bound) { s with unifier := u } := by
    refine ⟨fun v hv => Roles.mark_of_not_mem (hnew v hv), hextends, ?_⟩
    rw [hu]
    exact hs.mark (by lia) hbound .bound
  refine ⟨hprogress, ?_, htaken, hlen, hnodup, fun b hb v hv => hnew v ((htypes b hb).2 v hv)⟩
  intro b hb
  rcases List.mem_append.mp hb with hb | hb
  · rcases List.mem_map.mp (List.mem_reverse.mp hb) with ⟨p, hp, rfl⟩
    refine ⟨trivial, ?_⟩
    intro v hv
    have hvp : v = p.2 := by simpa [Ty.freeVars] using hv
    exact hvp ▸ htaken p.2 (List.of_mem_zip hp).2
  · exact hprogress.supported htypes b hb

/-- A name with its arguments, which are read for what they say. -/
theorem ref_sound {node : Node} {types : List (String × Ty)} {name : String} {args : List TypeExpr}
    {t : Ty} (hs : s.unifier.Regular k) (htypes : Supported k s.unifier.counter types)
    (hclean : s'.findings = [])
    (hargs : ∀ {ts : List Ty}, toTypes node types args s = (.ok ts, s') →
      ∃ k', Progress k s k' s' ∧ ReadsAll types args k' s' ts)
    (h : toType node types (.ref name args) s = (.ok t, s')) :
    ∃ k', Progress k s k' s' ∧ Reads types (.ref name args) k' s' t := by
  rw [toType] at h
  cases hfind : types.lookup name with
  | some u =>
    simp only [hfind] at h
    split at h
    · rename_i hempty
      obtain ⟨rfl, rfl⟩ := pure_eq_ok.mp h
      have hmem := mem_of_lookup hfind
      refine ⟨k, .refl hs, (htypes _ hmem).1, fun v hv => ⟨_, hmem, hv⟩, ?_, ?_⟩
      · exact .inl (List.mem_map_of_mem (f := Prod.fst) hmem)
      · intro ρ
        rw [TypeExpr.sense, lookup_reading, hfind]
        rfl
    · exact absurd hclean (object_not_clean h)
  | none =>
    simp only [hfind] at h
    cases harity : aliasArity? name with
    | none =>
      simp only [harity] at h
      exact absurd hclean (object_not_clean h)
    | some arity =>
      simp only [harity] at h
      obtain ⟨_, _, hget, h⟩ := bind_eq_ok.mp h
      obtain ⟨rfl, rfl⟩ := get_eq_ok.mp hget
      split at h
      · exact absurd hclean (object_not_clean h)
      split at h
      · exact absurd hclean (object_not_clean h)
      rename_i hlen
      obtain ⟨ts, s₁, hts, h⟩ := bind_eq_ok.mp h
      obtain ⟨rfl, rfl⟩ := pure_eq_ok.mp h
      obtain ⟨k', hprogress, hreads⟩ := hargs hts
      have harity' : aliasArity? name = some args.length := by
        rw [harity, Option.some.injEq]
        omega
      exact ⟨k', hprogress, reads_alias hprogress.regular.nonneg hfind harity' hreads⟩

mutual

theorem toType_sound {s s' : State} {k : Roles} {node : Node} {types : List (String × Ty)} {t : Ty}
    (hs : s.unifier.Regular k) (htypes : Supported k s.unifier.counter types)
    (hclean : s'.findings = []) :
    (te : TypeExpr) → te.plain = true → toType node types te s = (.ok t, s') →
      ∃ k', Progress k s k' s' ∧ Reads types te k' s' t
  | .ref name args, hplain, h =>
    ref_sound hs htypes hclean (toTypes_sound hs htypes hclean args hplain) h
  | .func tparams params ret, hplain, h => by
    rw [TypeExpr.plain, Bool.and_eq_true] at hplain
    rw [toType] at h
    split at h
    · exact absurd hclean (object_not_clean h)
    rename_i hparams
    obtain ⟨vars, s₁, hvars, h⟩ := bind_eq_ok.mp h
    obtain ⟨args, s₂, hargs, h⟩ := bind_eq_ok.mp h
    obtain ⟨r, s₃, hret, h⟩ := bind_eq_ok.mp h
    obtain ⟨rfl, rfl⟩ := pure_eq_ok.mp h
    obtain ⟨rfl, rfl⟩ := freshNames_eq_ok hvars
    have hfresh := freshBinders hs htypes tparams
    generalize s.unifier.freshAll tparams = fresh at *
    obtain ⟨ids, u₁⟩ := fresh
    have hclean₂ : s₂.findings = [] := clean_before (toType_grows node _ ret) hret hclean
    obtain ⟨k₂, hprogress₂, hargsRead⟩ :=
      toParamTypes_sound hfresh.progress.regular hfresh.supported hclean₂ params hplain.1 hargs
    obtain ⟨k₃, hprogress₃, hretRead⟩ := toType_sound hprogress₂.regular
      (hprogress₂.supported hfresh.supported) hclean ret hplain.2 hret
    refine ⟨k₃, (hfresh.progress.trans hprogress₂).trans hprogress₃, ?_⟩
    refine reads_func hfresh.apart ?_ hfresh.length hfresh.nodup hparams
      (hprogress₃.readsAll hargsRead) hretRead
    · intro v hv
      have hle := hfresh.taken v hv
      have hrole := (hprogress₂.trans hprogress₃).roles v hle
      rw [Roles.mark_of_mem hv] at hrole
      exact ⟨hrole, Int.le_trans hle (hprogress₂.trans hprogress₃).extends_.counter⟩
  | .keyword name, hplain, h => by
    by_cases hnever : name = "never"
    · subst hnever
      rw [toType] at h
      obtain ⟨rfl, rfl⟩ := pure_eq_ok.mp h
      exact ⟨k, .refl hs, trivial, by simp [Over, Ty.freeVars], trivial,
        fun ρ => by rw [TypeExpr.sense]; rfl⟩
    have hany : name ≠ "any" := by simpa [TypeExpr.plain] using hplain
    rw [toType] at h
    · exact absurd hclean (unsupported_not_clean node (.keyword name) h)
    all_goals simp [hnever, hany]
  | .missing, _, h => absurd hclean (unsupported_not_clean node .missing h)
  | .tuple ts, _, h => absurd hclean (unsupported_not_clean node (.tuple ts) h)
  | .union ts, _, h => absurd hclean (unsupported_not_clean node (.union ts) h)
  | .object ps, _, h => absurd hclean (unsupported_not_clean node (.object ps) h)
  | .str v, _, h => absurd hclean (unsupported_not_clean node (.str v) h)
  | .bool b, _, h => absurd hclean (unsupported_not_clean node (.bool b) h)

theorem toTypes_sound {s s' : State} {k : Roles} {node : Node} {types : List (String × Ty)}
    {ts : List Ty} (hs : s.unifier.Regular k) (htypes : Supported k s.unifier.counter types)
    (hclean : s'.findings = []) :
    (tes : List TypeExpr) → TypeExpr.plainAll tes = true → toTypes node types tes s = (.ok ts, s') →
      ∃ k', Progress k s k' s' ∧ ReadsAll types tes k' s' ts
  | [], _, h => by
    obtain ⟨rfl, rfl⟩ := pure_eq_ok.mp h
    exact ⟨k, .refl hs, rfl, by simp, by simp, trivial, fun _ => rfl⟩
  | te :: rest, hplain, h => by
    rw [TypeExpr.plainAll, Bool.and_eq_true] at hplain
    obtain ⟨t, s₁, ht, h⟩ := bind_eq_ok.mp h
    obtain ⟨more, s₂, hmore, h⟩ := bind_eq_ok.mp h
    obtain ⟨rfl, rfl⟩ := pure_eq_ok.mp h
    have hclean₁ : s₁.findings = [] := clean_before (toTypes_grows node types rest) hmore hclean
    obtain ⟨k₁, hprogress, hreads⟩ := toType_sound hs htypes hclean₁ te hplain.1 ht
    obtain ⟨k₂, hprogress', hreads'⟩ :=
      toTypes_sound hprogress.regular (hprogress.supported htypes) hclean rest hplain.2 hmore
    exact ⟨k₂, hprogress.trans hprogress', .cons (hprogress'.reads hreads) hreads'⟩

theorem toParamTypes_sound {s s' : State} {k : Roles} {node : Node} {types : List (String × Ty)}
    {ts : List Ty} (hs : s.unifier.Regular k) (htypes : Supported k s.unifier.counter types)
    (hclean : s'.findings = []) :
    (ps : List Param) → TypeExpr.plainParams ps = true →
      toParamTypes node types ps s = (.ok ts, s') →
      ∃ k', Progress k s k' s' ∧ ReadsAll types (ps.map Prod.snd) k' s' ts
  | [], _, h => by
    obtain ⟨rfl, rfl⟩ := pure_eq_ok.mp h
    exact ⟨k, .refl hs, rfl, by simp, by simp, trivial, fun _ => rfl⟩
  | (_, te) :: rest, hplain, h => by
    rw [TypeExpr.plainParams, Bool.and_eq_true] at hplain
    obtain ⟨t, s₁, ht, h⟩ := bind_eq_ok.mp h
    obtain ⟨more, s₂, hmore, h⟩ := bind_eq_ok.mp h
    obtain ⟨rfl, rfl⟩ := pure_eq_ok.mp h
    have hclean₁ : s₁.findings = [] := clean_before (toParamTypes_grows node types rest) hmore hclean
    obtain ⟨k₁, hprogress, hreads⟩ := toType_sound hs htypes hclean₁ te hplain.1 ht
    obtain ⟨k₂, hprogress', hreads'⟩ :=
      toParamTypes_sound hprogress.regular (hprogress.supported htypes) hclean rest hplain.2 hmore
    exact ⟨k₂, hprogress.trans hprogress', .cons (hprogress'.reads hreads) hreads'⟩

end

end Checker

end ProofScript
