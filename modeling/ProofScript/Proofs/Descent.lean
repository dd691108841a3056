import Mathlib.Data.Finset.Card
import ProofScript.Proofs.Unfolding

/-!
# Comparisons without binders end

Variables are replaced by what they are bound to, and more of them get bound on the way, so the types of a
comparison do not shrink. But all bindings are made from the variables and the parts of the types at hand:
there are not more of them than variables, and none is higher than the types of the beginning. So there is
a height that no resolved type exceeds, however the variables get bound, and with every step down the
resolved types get lower.
-/

namespace ProofScript

open Stateful

/-! ## Heights -/

namespace Ty

mutual

/-- The number of formers below each other. -/
def height : Ty → Nat
  | thunk r => r.height + 1
  | fn a r => max a.height r.height + 1
  | con _ as => heights as + 1
  | poly _ b => b.height + 1
  | _ => 0

/-- The height of the highest of the types. -/
def heights : List Ty → Nat
  | [] => 0
  | t :: rest => max t.height (heights rest)

end

theorem height_le_of_mem {t : Ty} {ts : List Ty} (h : t ∈ ts) : t.height ≤ heights ts := by
  induction ts with
  | nil => exact absurd h List.not_mem_nil
  | cons u rest ih =>
    rw [heights]
    rcases List.mem_cons.mp h with rfl | h
    · exact Nat.le_max_left ..
    · exact (ih h).trans (Nat.le_max_right ..)

mutual

theorem height_le_size : (t : Ty) → t.height ≤ t.size
  | var _ => by simp [height, size]
  | rigid _ _ => by simp [height, size]
  | thunk r => by
    have hr := height_le_size r
    rw [height, size]
    omega
  | fn a r => by
    have ha := height_le_size a
    have hr := height_le_size r
    rw [height, size]
    omega
  | con _ as => by
    have has := heights_le_sizes as
    rw [height, size]
    omega
  | poly _ b => by
    have hb := height_le_size b
    rw [height, size]
    omega
  | never => by simp [height, size]
  | any => by simp [height, size]

theorem heights_le_sizes : (ts : List Ty) → heights ts ≤ sizes ts
  | [] => Nat.le_refl _
  | t :: rest => by
    have ht := height_le_size t
    have hrest := heights_le_sizes rest
    rw [heights, sizes]
    omega

end

mutual

theorem length_freeVars_le : (t : Ty) → t.freeVars.length ≤ t.size
  | var _ => by simp [freeVars, size]
  | rigid _ _ => by simp [freeVars]
  | thunk r => by
    have hr := length_freeVars_le r
    rw [freeVars, size]
    omega
  | fn a r => by
    have ha := length_freeVars_le a
    have hr := length_freeVars_le r
    rw [freeVars, size, List.length_append]
    omega
  | con _ as => by
    have has := length_freeVarsAll_le as
    rw [freeVars, size]
    omega
  | poly ps b => by
    have hb := length_freeVars_le b
    have hfilter := List.length_filter_le (fun v => !(v ∈ ps.map Prod.snd)) b.freeVars
    rw [freeVars, size]
    omega
  | never => by simp [freeVars]
  | any => by simp [freeVars]

theorem length_freeVarsAll_le : (ts : List Ty) → (freeVarsAll ts).length ≤ sizes ts
  | [] => Nat.le_refl _
  | t :: rest => by
    have ht := length_freeVars_le t
    have hrest := length_freeVarsAll_le rest
    rw [freeVarsAll, sizes, List.length_append]
    omega

end

variable {m : Nat}

mutual

theorem height_apply {σ : Subst} (hσ : ∀ v u, σ.find? v = some u → u.height ≤ m) :
    (t : Ty) → (t.apply σ).height ≤ t.height + m
  | var v => by
    rw [apply]
    cases hv : σ.find? v with
    | none => exact Nat.zero_le _
    | some u => exact (hσ v u hv).trans (Nat.le_add_left ..)
  | rigid _ _ => Nat.zero_le _
  | thunk r => by
    have hr := height_apply hσ r
    rw [apply, height, height]
    omega
  | fn a r => by
    have ha := height_apply hσ a
    have hr := height_apply hσ r
    rw [apply, height, height]
    omega
  | con _ as => by
    have has := heights_apply hσ as
    rw [apply, height, height]
    omega
  | poly ps b => by
    have hb : (b.apply (σ.without (ps.map Prod.snd))).height ≤ b.height + m := by
      refine height_apply ?_ b
      intro v u hv
      rw [Subst.find?_without, Option.ite_none_left_eq_some] at hv
      exact hσ v u hv.2
    rw [apply, height, height]
    omega
  | never => Nat.zero_le _
  | any => Nat.zero_le _

theorem heights_apply {σ : Subst} (hσ : ∀ v u, σ.find? v = some u → u.height ≤ m) :
    (ts : List Ty) → heights (applyAll σ ts) ≤ heights ts + m
  | [] => Nat.zero_le _
  | t :: rest => by
    have ht := height_apply hσ t
    have hrest := heights_apply hσ rest
    rw [applyAll, heights, heights]
    omega

end

theorem height_resolve {σ : Subst} (hσ : ∀ v u, σ.find? v = some u → u.height ≤ m) (t : Ty) :
    (t.resolve σ).height ≤ t.height + (σ.length + 1) * m := by
  rw [resolve_eq_iterate]
  generalize σ.length + 1 = n
  induction n generalizing t with
  | zero => exact Nat.le_add_right ..
  | succ n ih =>
    have hstep := height_apply hσ t
    have hrest := ih (t.apply σ)
    rw [Function.iterate_succ_apply, Nat.succ_mul]
    omega

end Ty

/-! ## What bindings are made from -/

/-- What there is to make bindings from: forms of types, without binders, and variables. Types are at most
so high, and bound and unbound variables are together at most so many. -/
structure Pool where
  forms : Set Form
  flat : .poly ∉ forms
  vars : Finset TyVar
  height : Nat
  room : Nat

variable {P : Pool} {t : Ty} {σ : Subst}

/-- The type is made from the pool. -/
structure Ty.Drawn (P : Pool) (t : Ty) : Prop where
  built : t.Built P.forms
  vars : ∀ v ∈ t.freeVars, v ∈ P.vars
  height : t.height ≤ P.height

namespace Ty

theorem Drawn.ret {r : Ty} (h : (thunk r).Drawn P) : r.Drawn P where
  built := h.built.2
  vars := h.vars
  height := (Nat.le_succ _).trans h.height

theorem Drawn.fn {a r : Ty} (h : (fn a r).Drawn P) : a.Drawn P ∧ r.Drawn P := by
  have hheight := h.height
  rw [Ty.height] at hheight
  refine ⟨⟨h.built.2.1, fun v hv => h.vars v ?_, by omega⟩,
    ⟨h.built.2.2, fun v hv => h.vars v ?_, by omega⟩⟩
  · exact List.mem_append_right _ hv
  · exact List.mem_append_left _ hv

theorem mem_freeVarsAll {ts : List Ty} (ht : t ∈ ts) {v : TyVar} (hv : v ∈ t.freeVars) :
    v ∈ freeVarsAll ts := by
  induction ts with
  | nil => exact absurd ht List.not_mem_nil
  | cons u rest ih =>
    rw [freeVarsAll, List.mem_append]
    rcases List.mem_cons.mp ht with rfl | ht
    · exact .inl hv
    · exact .inr (ih ht)

theorem Drawn.con {f : String} {as : List Ty} (h : (con f as).Drawn P) {a : Ty} (ha : a ∈ as) :
    a.Drawn P where
  built := builtAll_iff.mp h.built.2 a ha
  vars _ hv := h.vars _ (mem_freeVarsAll ha hv)
  height := (height_le_of_mem ha).trans ((Nat.le_succ _).trans h.height)

end Ty

namespace Subst

/-- The bindings are made from the pool, and no variable leads to itself. -/
structure Drawn (P : Pool) (σ : Subst) : Prop where
  acyclic : σ.Acyclic
  bound : ∀ v t, σ.find? v = some t → t.Drawn P
  room : σ.length + (P.vars.filter fun v => σ.find? v = none).card ≤ P.room

theorem Drawn.tame (h : σ.Drawn P) : σ.Tame P.forms :=
  ⟨h.acyclic, fun v t hv => (h.bound v t hv).built⟩

theorem Drawn.shallow (h : σ.Drawn P) (ht : t.Drawn P) (n : Nat) :
    (Unifier.shallowUpTo σ n t).Drawn P :=
  shallowUpTo_induct (p := fun t => t.Drawn P) ht (fun v s _ hv => h.bound v s hv) n

theorem Drawn.insert (h : σ.Drawn P) {v : TyVar} (hv : σ.find? v = none) (hmem : v ∈ P.vars)
    (ht : t.Drawn P) (hfree : v ∉ (t.resolve σ).freeVars) : (σ.insert v t).Drawn P := by
  have htame := h.tame.insert P.flat ht.built hv hfree
  refine ⟨htame.acyclic, fun w u hu => ?_, ?_⟩
  · rw [find?_insert] at hu
    split at hu
    · cases hu
      exact ht
    · exact h.bound w u hu
  · have hfewer : (P.vars.filter fun w => (σ.insert v t).find? w = none) ⊂
        P.vars.filter fun w => σ.find? w = none := by
      refine Finset.ssubset_iff_of_subset ?_ |>.mpr ⟨v, ?_, ?_⟩
      · intro w hw
        rw [Finset.mem_filter, find?_insert] at hw
        rw [Finset.mem_filter]
        refine ⟨hw.1, ?_⟩
        by_cases hwv : w = v
        · rwa [hwv]
        · simpa [hwv] using hw.2
      · exact Finset.mem_filter.mpr ⟨hmem, hv⟩
      · rw [Finset.mem_filter, find?_insert, if_pos rfl]
        simp
    have hcard := Finset.card_lt_card hfewer
    have hroom := h.room
    rw [length_insert hv]
    omega

/-- However the variables get bound, the resolved type is lower than this. -/
def Caps (P : Pool) (σ : Subst) (n : Nat) (t : Ty) : Prop :=
  ∀ σ' : Subst, σ.Extends σ' → σ'.Drawn P → (t.resolve σ').height < n

/-- No type that is drawn from a pool gets higher than the bindings for all variables of the pool make
it. -/
theorem caps_of_drawn (ht : t.Drawn P) (σ : Subst) :
    σ.Caps P ((P.room + 2) * P.height + 1) t := by
  intro σ' _ hdrawn
  have hresolve := Ty.height_resolve (fun v u hv => (hdrawn.bound v u hv).height) t
  have hlen : σ'.length ≤ P.room := (Nat.le_add_right ..).trans hdrawn.room
  have hmul : (σ'.length + 1) * P.height ≤ (P.room + 1) * P.height :=
    Nat.mul_le_mul_right _ (Nat.succ_le_succ hlen)
  have hheight := ht.height
  have hsplit : (P.room + 2) * P.height = (P.room + 1) * P.height + P.height := Nat.succ_mul _ _
  omega

theorem Caps.of_extends {σ' : Subst} {n : Nat} (h : σ.Caps P n t) (hext : σ.Extends σ') :
    σ'.Caps P n t := fun _ hext' hdrawn => h _ (hext.trans hext') hdrawn

theorem Acyclic.resolve_shallow {σ' : Subst} (h : σ'.Acyclic) (hext : σ.Extends σ') (n : Nat) (t : Ty) :
    (Unifier.shallowUpTo σ n t).resolve σ' = t.resolve σ' := by
  refine shallowUpTo_induct (p := fun s => s.resolve σ' = t.resolve σ') rfl (fun v s hsame hv => ?_) n
  rw [← hsame, h.resolve_bound (hext v s hv)]

theorem Caps.shallow {n m : Nat} (h : σ.Caps P n t) : σ.Caps P n (Unifier.shallowUpTo σ m t) := by
  intro σ' hext hdrawn
  rw [hdrawn.acyclic.resolve_shallow hext]
  exact h σ' hext hdrawn

/-- The parts of a type are lower. -/
theorem inherits_caps (P : Pool) (σ : Subst) (n : Nat) :
    Unify.Inherits (σ.Caps P (n + 1)) (σ.Caps P n) where
  thunk h σ' hext hdrawn := by
    have hlow := h σ' hext hdrawn
    rw [(Ty.respects_resolve σ').thunk, Algebra.terms, Ty.height] at hlow
    exact Nat.lt_of_succ_lt_succ hlow
  fn {a r} h := by
    have hlow : ∀ σ' : Subst, σ.Extends σ' → σ'.Drawn P →
        max (a.resolve σ').height (r.resolve σ').height < n := by
      intro σ' hext hdrawn
      have hlow := h σ' hext hdrawn
      rw [(Ty.respects_resolve σ').fn, Algebra.terms, Ty.height] at hlow
      exact Nat.lt_of_succ_lt_succ hlow
    exact ⟨fun σ' hext hdrawn => (Nat.le_max_left ..).trans_lt (hlow σ' hext hdrawn),
      fun σ' hext hdrawn => (Nat.le_max_right ..).trans_lt (hlow σ' hext hdrawn)⟩
  con h a ha σ' hext hdrawn := by
    have hlow := h σ' hext hdrawn
    rw [(Ty.respects_resolve σ').con, Algebra.terms, Ty.height] at hlow
    exact (Ty.height_le_of_mem (List.mem_map_of_mem ha)).trans_lt (Nat.lt_of_succ_lt_succ hlow)

end Subst

/-! ## Comparisons -/

namespace Unify

variable {u : Unifier}

theorem inherits_drawn (P : Pool) : Inherits (Ty.Drawn P) (Ty.Drawn P) :=
  ⟨Ty.Drawn.ret, Ty.Drawn.fn, fun h _ ha => h.con ha⟩

/-- Bindings made from the pool are only added to, from the pool. -/
theorem carries_drawn (P : Pool) :
    Carries (fun u => u.subst.Drawn P) (fun _ t => t.Drawn P)
      fun u u' => u'.subst.Drawn P ∧ u.subst.Extends u'.subst where
  refl h := ⟨h, .refl _⟩
  trans h h' := ⟨h'.1, h.2.trans h'.2⟩
  state h := h.1
  type _ ht := ht
  parts _ := inherits_drawn P
  shallow hu ht := hu.shallow ht _
  equate _ hu := ⟨hu, .refl _⟩
  bind := fun hu ⟨_, hv⟩ hvar ht hfree => by
    have hunbound := hu.acyclic.unbound_of_shallowUpTo hv
    exact ⟨hu.insert hunbound (hvar.vars _ (List.mem_singleton_self _)) ht hfree,
      Subst.extends_insert hunbound _⟩
  skolemize _ ht := absurd ht.built.1 P.flat
  instantiate _ ht := absurd ht.built.1 P.flat

theorem loop_ends {n : Nat} {pairs : List (Ty × Ty)}
    (hends : ∀ p ∈ pairs, ∀ u : Unifier, σ.Extends u.subst → u.subst.Drawn P →
      (assign n p.1 p.2 u).1 ≠ .error .deeper)
    (hpairs : ∀ p ∈ pairs, p.1.Drawn P ∧ p.2.Drawn P) (hext : σ.Extends u.subst)
    (hu : u.subst.Drawn P) : ((pairs.forM fun p => assign n p.1 p.2) u).1 ≠ .error .deeper := by
  induction pairs generalizing u with
  | nil => rintro ⟨⟩
  | cons p pairs ih =>
    rw [List.forall_mem_cons] at hends hpairs
    have hfirst := hends.1 u hext hu
    have hgrows := (carries_drawn P).assign n hu hpairs.1.1 hpairs.1.2
    obtain ⟨r, mid, hrun⟩ : ∃ r mid, assign n p.1 p.2 u = (r, mid) := ⟨_, _, rfl⟩
    rw [hrun] at hfirst hgrows
    change ((assign n p.1 p.2 >>= fun _ => pairs.forM fun p => assign n p.1 p.2) u).1 ≠ _
    cases r with
    | error e => rwa [bind_of_error hrun]
    | ok _ =>
      rw [bind_of_ok hrun]
      exact ih hends.2 hpairs.2 (hext.trans hgrows.2) hgrows.1

/-- A comparison within a depth that caps both types ends. -/
theorem assign_ends {n : Nat} {src dst : Ty} (hsrc : src.Drawn P) (hdst : dst.Drawn P)
    (hcsrc : σ.Caps P n src) (hcdst : σ.Caps P n dst) (hext : σ.Extends u.subst)
    (hu : u.subst.Drawn P) : (assign n src dst u).1 ≠ .error .deeper := by
  induction n generalizing src dst σ u with
  | zero => exact absurd (hcsrc _ hext hu) (Nat.not_lt_zero _)
  | succ n ih =>
    have hs := hu.shallow hsrc (u.subst.length + 1)
    have hd := hu.shallow hdst (u.subst.length + 1)
    have hcs := (hcsrc.of_extends hext).shallow (m := u.subst.length + 1)
    have hcd := (hcdst.of_extends hext).shallow (m := u.subst.length + 1)
    have hposes := poses_task (u.shallow src) (u.shallow dst)
    rw [assign_succ]
    rw [Unifier.shallow, Unifier.shallow] at hposes ⊢
    generalize Unifier.shallowUpTo u.subst (u.subst.length + 1) src = s at hs hcs hposes ⊢
    generalize Unifier.shallowUpTo u.subst (u.subst.length + 1) dst = d at hd hcd hposes ⊢
    generalize task s d = t at hposes ⊢
    cases t with
    | equate | accept | refuse => rintro ⟨⟩
    | bind v t =>
      rw [Task.run]
      rcases bindVar_cases v t u with ⟨-, h⟩ | ⟨-, h⟩ | ⟨-, -, h⟩ <;> rw [h] <;> rintro ⟨⟩
    | generalize =>
      cases hposes
      exact absurd hd.built.1 P.flat
    | specialize =>
      cases hposes
      exact absurd hs.built.1 P.flat
    | parts pairs =>
      have hdrawn := (inherits_drawn P).parts hposes hs hd
      have hcaps := (Subst.inherits_caps P u.subst n).parts hposes hcs hcd
      exact loop_ends (fun p hp _ hext hu =>
        ih (hdrawn p hp).1 (hdrawn p hp).2 (hcaps p hp).1 (hcaps p hp).2 hext hu) hdrawn (.refl _) hu

end Unify

/-! ## Comparisons from the outside -/

namespace Unifier

variable {K : Set Form} {u : Unifier} {src dst : Ty}

/-- A depth that suffices for a comparison of types without binders. -/
def depth (u : Unifier) (src dst : Ty) : Nat :=
  (u.subst.length + (u.subst.size + src.size + dst.size) + 2) *
    (u.subst.size + src.size + dst.size) + 1

/-- What the bindings of before and the two types are made of. -/
def pool (K : Set Form) (hK : .poly ∉ K) (u : Unifier) (src dst : Ty) : Pool where
  forms := K
  flat := hK
  vars := (src.freeVars ++ dst.freeVars ++ Ty.freeVarsAll (u.subst.map Prod.snd)).toFinset
  height := u.subst.size + src.size + dst.size
  room := u.subst.length + (u.subst.size + src.size + dst.size)

theorem card_pool_vars (hK : .poly ∉ K) :
    (u.pool K hK src dst).vars.card ≤ u.subst.size + src.size + dst.size := by
  have hlen := List.toFinset_card_le
    (src.freeVars ++ dst.freeVars ++ Ty.freeVarsAll (u.subst.map Prod.snd))
  have hsrc := Ty.length_freeVars_le src
  have hdst := Ty.length_freeVars_le dst
  have hbound := Ty.length_freeVarsAll_le (u.subst.map Prod.snd)
  rw [List.length_append, List.length_append] at hlen
  rw [Subst.size]
  dsimp only [pool]
  omega

theorem drawn_pool (hK : .poly ∉ K) (hu : u.subst.Tame K) (hsrc : src.Built K) (hdst : dst.Built K) :
    u.subst.Drawn (u.pool K hK src dst) ∧ src.Drawn (u.pool K hK src dst) ∧
      dst.Drawn (u.pool K hK src dst) := by
  have hmem : ∀ {v : TyVar}, v ∈ src.freeVars ++ dst.freeVars ++
      Ty.freeVarsAll (u.subst.map Prod.snd) → v ∈ (u.pool K hK src dst).vars :=
    List.mem_toFinset.mpr
  have hsize : src.size ≤ (u.pool K hK src dst).height ∧ dst.size ≤ (u.pool K hK src dst).height ∧
      u.subst.size ≤ (u.pool K hK src dst).height := by
    dsimp only [pool]
    omega
  refine ⟨⟨hu.acyclic, fun v t hv => ⟨hu.built v t hv, fun w hw => ?_, ?_⟩, ?_⟩,
    ⟨hsrc, fun v hv => ?_, ?_⟩, ⟨hdst, fun v hv => ?_, ?_⟩⟩
  · have ht : t ∈ u.subst.map Prod.snd := List.mem_map_of_mem (mem_of_lookup hv)
    exact hmem (List.mem_append_right _ (Ty.mem_freeVarsAll ht hw))
  · have ht : t ∈ u.subst.map Prod.snd := List.mem_map_of_mem (mem_of_lookup hv)
    exact (Ty.height_le_of_mem ht).trans ((Ty.heights_le_sizes _).trans hsize.2.2)
  · have hcard : (u.pool K hK src dst).vars.card ≤ u.subst.size + src.size + dst.size :=
      card_pool_vars hK
    have hfilter := Finset.card_filter_le (u.pool K hK src dst).vars fun v => u.subst.find? v = none
    dsimp only [pool] at hcard hfilter ⊢
    omega
  · exact hmem (List.mem_append_left _ (List.mem_append_left _ hv))
  · exact (Ty.height_le_size src).trans hsize.1
  · exact hmem (List.mem_append_left _ (List.mem_append_right _ hv))
  · exact (Ty.height_le_size dst).trans hsize.2.1

/-- The depth of a comparison caps all types that come up in it. -/
theorem caps_depth (hK : .poly ∉ K) (u : Unifier) (src dst : Ty) {t : Ty}
    (ht : t.Drawn (u.pool K hK src dst)) :
    u.subst.Caps (u.pool K hK src dst) (u.depth src dst) t := fun σ hext h =>
  Subst.caps_of_drawn ht u.subst σ hext h

/-- A comparison of types without binders ends within the depth that suffices for it. -/
theorem assign_settles (hK : .poly ∉ K) (hu : u.subst.Tame K) (hsrc : src.Built K)
    (hdst : dst.Built K) : (Unify.assign (u.depth src dst) src dst u).1 ≠ .error .deeper := by
  obtain ⟨hdrawn, hs, hd⟩ := drawn_pool hK hu hsrc hdst
  exact Unify.assign_ends hs hd (caps_depth hK u src dst hs) (caps_depth hK u src dst hd) (.refl _) hdrawn

end Unifier

end ProofScript
