import ProofScript.Proofs.Assignability

/-!
# Variables and binders stay apart

A session of comparisons takes numbers for unification variables, constants and binders. As long as no
number is used for a variable and a binder, nothing is captured, whether types fit or not: bindings
reach no variable from itself, and variables that no type of the session has free are not bound.
-/

namespace ProofScript

variable {F F' : Set TyVar} {c c' : TyVar}

/-! ## Types -/

namespace Ty

mutual

/-- Every number that occurs is at most `c`, and no binder has the number of a variable. -/
def Orderly (F : Set TyVar) (c : TyVar) : Ty → Prop
  | var v => v ≤ c
  | rigid _ i => i ≤ c
  | thunk r => r.Orderly F c
  | fn a r => a.Orderly F c ∧ r.Orderly F c
  | con _ as => OrderlyAll F c as
  | poly ps b => (∀ p ∈ ps, p.2 ∉ F ∧ p.2 ≤ c) ∧ b.Orderly F c
  | never => True
  | any => True

/-- Each of the types is orderly. -/
def OrderlyAll (F : Set TyVar) (c : TyVar) : List Ty → Prop
  | [] => True
  | t :: rest => t.Orderly F c ∧ OrderlyAll F c rest

end

theorem orderlyAll_iff {ts : List Ty} : OrderlyAll F c ts ↔ ∀ t ∈ ts, t.Orderly F c := by
  induction ts with
  | nil => simp [OrderlyAll]
  | cons t rest ih => simp [OrderlyAll, ih]

mutual

theorem Orderly.mono (hc : c ≤ c') (hF : ∀ v ≤ c, v ∈ F' → v ∈ F) :
    (t : Ty) → t.Orderly F c → t.Orderly F' c'
  | var _, h => Int.le_trans h hc
  | rigid _ _, h => Int.le_trans h hc
  | thunk r, h => Orderly.mono hc hF r h
  | fn a r, h => ⟨Orderly.mono hc hF a h.1, Orderly.mono hc hF r h.2⟩
  | con _ as, h => OrderlyAll.mono hc hF as h
  | poly _ b, h =>
    ⟨fun p hp => ⟨fun hmem => (h.1 p hp).1 (hF p.2 (h.1 p hp).2 hmem), Int.le_trans (h.1 p hp).2 hc⟩,
      Orderly.mono hc hF b h.2⟩
  | never, _ => trivial
  | any, _ => trivial

theorem OrderlyAll.mono (hc : c ≤ c') (hF : ∀ v ≤ c, v ∈ F' → v ∈ F) :
    (ts : List Ty) → OrderlyAll F c ts → OrderlyAll F' c' ts
  | [], _ => trivial
  | t :: rest, h => ⟨Orderly.mono hc hF t h.1, OrderlyAll.mono hc hF rest h.2⟩

end

mutual

theorem Orderly.le {v : TyVar} : (t : Ty) → t.Orderly F c → v ∈ t.freeVars → v ≤ c
  | var w, h, hv => by
    rw [freeVars, List.mem_singleton] at hv
    exact hv ▸ h
  | rigid _ _, _, hv => by simp [freeVars] at hv
  | thunk r, h, hv => Orderly.le r h hv
  | fn a r, h, hv => by
    rw [freeVars, List.mem_append] at hv
    exact hv.elim (Orderly.le r h.2) (Orderly.le a h.1)
  | con _ as, h, hv => OrderlyAll.le as h hv
  | poly _ b, h, hv => Orderly.le b h.2 (List.mem_filter.mp hv).1
  | never, _, hv => by simp [freeVars] at hv
  | any, _, hv => by simp [freeVars] at hv

theorem OrderlyAll.le {v : TyVar} : (ts : List Ty) → OrderlyAll F c ts → v ∈ freeVarsAll ts → v ≤ c
  | [], _, hv => by simp [freeVarsAll] at hv
  | t :: rest, h, hv => by
    rw [freeVarsAll, List.mem_append] at hv
    exact hv.elim (Orderly.le t h.1) (OrderlyAll.le rest h.2)

end

mutual

theorem Orderly.apply {σ : Subst} (hσ : ∀ v u, σ.find? v = some u → u.Orderly F c) :
    (t : Ty) → t.Orderly F c → (t.apply σ).Orderly F c
  | var v, h => by
    rw [Ty.apply]
    cases hv : σ.find? v with
    | none => exact h
    | some u => exact hσ v u hv
  | rigid _ _, h => h
  | thunk r, h => Orderly.apply hσ r h
  | fn a r, h => ⟨Orderly.apply hσ a h.1, Orderly.apply hσ r h.2⟩
  | con _ as, h => OrderlyAll.apply hσ as h
  | poly ps b, h => by
    refine ⟨h.1, Orderly.apply ?_ b h.2⟩
    intro v u hv
    rw [Subst.find?_without, Option.ite_none_left_eq_some] at hv
    exact hσ v u hv.2
  | never, _ => trivial
  | any, _ => trivial

theorem OrderlyAll.apply {σ : Subst} (hσ : ∀ v u, σ.find? v = some u → u.Orderly F c) :
    (ts : List Ty) → OrderlyAll F c ts → OrderlyAll F c (applyAll σ ts)
  | [], _ => trivial
  | t :: rest, h => ⟨Orderly.apply hσ t h.1, OrderlyAll.apply hσ rest h.2⟩

end

mutual

theorem Orderly.abstract {consts : List ((String × TyVar) × TyVar)} (hc : ∀ b ∈ consts, b.2 ≤ c) :
    (t : Ty) → t.Orderly F c → (t.abstract consts).Orderly F c
  | var _, h => h
  | rigid n i, h => by
    rw [Ty.abstract]
    cases hl : consts.lookup (n, i) with
    | none => exact h
    | some v => exact hc _ (mem_of_lookup hl)
  | thunk r, h => Orderly.abstract hc r h
  | fn a r, h => ⟨Orderly.abstract hc a h.1, Orderly.abstract hc r h.2⟩
  | con _ as, h => OrderlyAll.abstract hc as h
  | poly _ b, h => ⟨h.1, Orderly.abstract hc b h.2⟩
  | never, _ => trivial
  | any, _ => trivial

theorem OrderlyAll.abstract {consts : List ((String × TyVar) × TyVar)} (hc : ∀ b ∈ consts, b.2 ≤ c) :
    (ts : List Ty) → OrderlyAll F c ts → OrderlyAll F c (abstractAll consts ts)
  | [], _ => trivial
  | t :: rest, h => ⟨Orderly.abstract hc t h.1, OrderlyAll.abstract hc rest h.2⟩

end

mutual

/-- What is free in the replacement of a free variable stays free, if it is a variable. -/
theorem Orderly.mem_freeVars_apply {σ : Subst} {v x : TyVar} (hx : x = v ∨ x ∈ F)
    (hv : x ∈ ((σ.find? v).getD (var v)).freeVars) :
    (t : Ty) → t.Orderly F c → v ∈ t.freeVars → x ∈ (t.apply σ).freeVars
  | var w, _, hm => by
    rw [freeVars, List.mem_singleton] at hm
    rw [Ty.apply, ← hm]
    exact hv
  | rigid _ _, _, hm => by simp [freeVars] at hm
  | thunk r, h, hm => Orderly.mem_freeVars_apply hx hv r h hm
  | fn a r, h, hm => by
    rw [freeVars, List.mem_append] at hm
    rw [Ty.apply, freeVars, List.mem_append]
    exact hm.imp (Orderly.mem_freeVars_apply hx hv r h.2) (Orderly.mem_freeVars_apply hx hv a h.1)
  | con _ as, h, hm => OrderlyAll.mem_freeVars_apply hx hv as h hm
  | poly ps b, h, hm => by
    rw [freeVars, List.mem_filter] at hm
    have hvps : v ∉ ps.map Prod.snd := by simpa using hm.2
    have hxps : x ∉ ps.map Prod.snd := by
      rcases hx with hx | hx
      · rwa [hx]
      · intro hmem
        rcases List.mem_map.mp hmem with ⟨p, hp, rfl⟩
        exact (h.1 p hp).1 hx
    have hb : x ∈ (b.apply (σ.without (ps.map Prod.snd))).freeVars := by
      refine Orderly.mem_freeVars_apply hx ?_ b h.2 hm.1
      rwa [Subst.find?_without, if_neg hvps]
    rw [Ty.apply, freeVars, List.mem_filter]
    exact ⟨hb, by simpa using hxps⟩
  | never, _, hm => by simp [freeVars] at hm
  | any, _, hm => by simp [freeVars] at hm

theorem OrderlyAll.mem_freeVars_apply {σ : Subst} {v x : TyVar} (hx : x = v ∨ x ∈ F)
    (hv : x ∈ ((σ.find? v).getD (var v)).freeVars) :
    (ts : List Ty) → OrderlyAll F c ts → v ∈ freeVarsAll ts → x ∈ freeVarsAll (applyAll σ ts)
  | [], _, hm => by simp [freeVarsAll] at hm
  | t :: rest, h, hm => by
    rw [freeVarsAll, List.mem_append] at hm
    rw [applyAll, freeVarsAll, List.mem_append]
    exact hm.imp (Orderly.mem_freeVars_apply hx hv t h.1)
      (OrderlyAll.mem_freeVars_apply hx hv rest h.2)

end

/-- An orderly type whose free variables are variables. -/
structure Apart (F : Set TyVar) (c : TyVar) (t : Ty) : Prop where
  orderly : t.Orderly F c
  free : ∀ v ∈ t.freeVars, v ∈ F

theorem Apart.mono {t : Ty} (h : t.Apart F c) (hc : c ≤ c') (hF : ∀ v ≤ c, v ∈ F' ↔ v ∈ F) :
    t.Apart F' c' where
  orderly := h.orderly.mono hc fun v hv => (hF v hv).mp
  free v hv := (hF v (h.orderly.le t hv)).mpr (h.free v hv)

theorem apart_thunk {r : Ty} : (thunk r).Apart F c ↔ r.Apart F c :=
  ⟨fun h => ⟨h.orderly, h.free⟩, fun h => ⟨h.orderly, h.free⟩⟩

theorem apart_fn {a r : Ty} : (fn a r).Apart F c ↔ a.Apart F c ∧ r.Apart F c := by
  constructor
  · intro h
    refine ⟨⟨h.orderly.1, fun v hv => h.free v ?_⟩, ⟨h.orderly.2, fun v hv => h.free v ?_⟩⟩
    · simp [freeVars, hv]
    · simp [freeVars, hv]
  · intro h
    refine ⟨⟨h.1.orderly, h.2.orderly⟩, ?_⟩
    intro v hv
    rw [freeVars, List.mem_append] at hv
    exact hv.elim (h.2.free v) (h.1.free v)

theorem apart_func {arg : Option Ty} {ret : Ty} :
    (func arg ret).Apart F c ↔ (∀ a ∈ arg, a.Apart F c) ∧ ret.Apart F c := by
  cases arg with
  | none => simpa [func] using apart_thunk
  | some a => simpa [func] using apart_fn

theorem apart_con {n : String} {as : List Ty} (h : (con n as).Apart F c) : ∀ a ∈ as, a.Apart F c := by
  intro a ha
  refine ⟨orderlyAll_iff.mp h.orderly a ha, fun v hv => h.free v ?_⟩
  have hmem : ∀ ts : List Ty, a ∈ ts → v ∈ freeVarsAll ts := by
    intro ts hts
    induction ts with
    | nil => simp at hts
    | cons t rest ih =>
      rw [freeVarsAll, List.mem_append]
      rcases List.mem_cons.mp hts with rfl | hts
      · exact .inl hv
      · exact .inr (ih hts)
  exact hmem as ha

theorem apart_var {v : TyVar} (hv : v ≤ c) (hF : v ∈ F) : (var v).Apart F c :=
  ⟨hv, by simpa [freeVars] using hF⟩

theorem Apart.instantiateWith {ps : List (String × TyVar)} {body : Ty} {args : List Ty}
    (hlen : ps.length = args.length) (h : (poly ps body).Apart F c) (hc : c ≤ c')
    (hargs : ∀ a ∈ args, a.Apart F c') : (Ty.instantiateWith ps body args).Apart F c' := by
  constructor
  · refine Orderly.apply (fun v t ht => (hargs t (mem_of_find?_zip ht)).orderly) body ?_
    exact Orderly.mono hc (fun _ _ hv => hv) body h.orderly.2
  · intro x hx
    rcases mem_freeVars_of_instantiateWith hlen hx with hfree | ⟨a, ha, hxa⟩
    · exact h.free x hfree
    · exact (hargs a ha).free x hxa

end Ty

/-! ## Bindings -/

namespace Subst

variable {σ : Subst} {t : Ty} {v : TyVar}

/-- No variable leads to itself, all that is bound is orderly, and what variables are bound to leads to
variables. -/
structure Apart (F : Set TyVar) (c : TyVar) (σ : Subst) : Prop where
  acyclic : σ.Acyclic
  orderly : ∀ v t, σ.find? v = some t → v ≤ c ∧ t.Orderly F c
  free : ∀ v ∈ F, ∀ t, σ.find? v = some t → ∀ w ∈ t.freeVars, w ∈ F

theorem Apart.bound (h : σ.Apart F c) (hv : v ∈ F) (hbound : σ.find? v = some t) : t.Apart F c :=
  ⟨(h.orderly v t hbound).2, h.free v hv t hbound⟩

theorem Apart.mono (h : σ.Apart F c) (hc : c ≤ c') (hF : ∀ v ≤ c, v ∈ F' ↔ v ∈ F) :
    σ.Apart F' c' where
  acyclic := h.acyclic
  orderly v t hv := by
    obtain ⟨hle, ht⟩ := h.orderly v t hv
    exact ⟨Int.le_trans hle hc, ht.mono hc fun w hw => (hF w hw).mp⟩
  free v hv t ht w hw := by
    obtain ⟨hle, horderly⟩ := h.orderly v t ht
    exact (hF w (horderly.le t hw)).mpr (h.free v ((hF v hle).mp hv) t ht w hw)

theorem Apart.apply (h : σ.Apart F c) (ht : t.Apart F c) : (t.apply σ).Apart F c where
  orderly := ht.orderly.apply (fun v u hv => (h.orderly v u hv).2) t
  free := by
    intro x hx
    rcases Ty.mem_freeVars_of_apply t hx with ⟨hx, -⟩ | ⟨v, hv, u, hu, hxu⟩
    · exact ht.free x hx
    · exact h.free v (ht.free v hv) u hu x hxu

theorem Apart.resolve (h : σ.Apart F c) (ht : t.Apart F c) : (t.resolve σ).Apart F c :=
  resolve_induct (p := fun t => t.Apart F c) ht fun _ ht => h.apply ht

theorem Apart.shallow (h : σ.Apart F c) (ht : t.Apart F c) (n : Nat) :
    (Unifier.shallowUpTo σ n t).Apart F c := by
  refine shallowUpTo_induct (p := fun t => t.Apart F c) ht (fun v s hvar hv => ?_) n
  exact h.bound (hvar.free v (by simp [Ty.freeVars])) hv

theorem Apart.reaches_apply (h : σ.Apart F c) (ht : t.Apart F c) (hv : σ.find? v = none)
    (hr : σ.Reaches t v) : σ.Reaches (t.apply σ) v := by
  have hF : ∀ x, σ.Reaches t x → x ∈ F := by
    intro x hx
    induction hx with
    | free hx => exact ht.free _ hx
    | bound _ hu hxu ih => exact h.free _ ih _ hu _ hxu
  have hstep : ∀ x, σ.Reaches t x → x ∈ t.freeVars ∨ σ.Reaches (t.apply σ) x := by
    intro x hx
    induction hx with
    | free hx => exact .inl hx
    | @bound w x u hw hu hxu ih =>
      right
      rcases ih with hfree | hreach
      · refine .free (ht.orderly.mem_freeVars_apply (.inr (h.free w (hF w hw) u hu x hxu)) ?_ t hfree)
        simpa [hu] using hxu
      · exact .bound hreach hu hxu
  rcases hstep v hr with hfree | hr
  · refine .free (ht.orderly.mem_freeVars_apply (.inl rfl) ?_ t hfree)
    simp [hv, Ty.freeVars]
  · exact hr

/-- A variable that is not free in the resolved type is not reached. -/
theorem Apart.not_reaches (h : σ.Apart F c) (ht : t.Apart F c) (hv : σ.find? v = none)
    (hfree : v ∉ (t.resolve σ).freeVars) : ¬ σ.Reaches t v := by
  have hresolve : σ.Reaches t v → σ.Reaches (t.resolve σ) v := by
    intro hr
    refine (resolve_induct (p := fun u => u.Apart F c ∧ σ.Reaches u v) ⟨ht, hr⟩ ?_).2
    rintro u ⟨hu, hr⟩
    exact ⟨h.apply hu, h.reaches_apply hu hv hr⟩
  have hwithin := h.acyclic.resolve_within t
  have hnone : ∀ x, σ.Reaches (t.resolve σ) x → x ∈ (t.resolve σ).freeVars := by
    intro x hx
    induction hx with
    | free hx => exact hx
    | bound _ hu _ ih => exact absurd (hwithin _ ih (by simp [hu])) List.not_mem_nil
  intro hr
  exact hfree (hnone v (hresolve hr))

theorem Apart.insert (h : σ.Apart F c) (hv : σ.find? v = none) (hle : v ≤ c) (ht : t.Apart F c)
    (hfree : v ∉ (t.resolve σ).freeVars) : (σ.insert v t).Apart F c where
  acyclic := h.acyclic.insert (h.not_reaches ht hv hfree) hv
  orderly w u hu := by
    rw [find?_insert] at hu
    split at hu
    · rename_i heq
      cases hu
      exact ⟨heq ▸ hle, ht.orderly⟩
    · exact h.orderly w u hu
  free w hw u hu := by
    rw [find?_insert] at hu
    split at hu
    · cases hu
      exact ht.free
    · exact h.free w hw u hu

end Subst

/-! ## Sessions -/

namespace Unifier

variable {u u' : Unifier} {t : Ty}

/-- Variables and binders are apart, and numbers that are not taken are free for variables. -/
structure Apart (F : Set TyVar) (u : Unifier) : Prop where
  subst : u.subst.Apart F u.counter
  fresh : ∀ v, u.counter < v → v ∈ F
  nonneg : 0 ≤ u.counter

theorem Apart.find?_of_lt (h : u.Apart F) {v : TyVar} (hv : u.counter < v) :
    u.subst.find? v = none := by
  cases hfind : u.subst.find? v with
  | none => rfl
  | some t => exact absurd hv (Int.not_lt.mpr (h.subst.orderly v t hfind).1)

/-- The variables of a session may be forgotten: those that are taken are not used any more. -/
theorem Apart.settle (h : u.Apart F) : u.Apart {v | u.counter < v} where
  subst :=
    { acyclic := h.subst.acyclic
      orderly := fun v t hv =>
        ⟨(h.subst.orderly v t hv).1, (h.subst.orderly v t hv).2.mono (Int.le_refl _)
          fun _ hw hlt => absurd hlt (Int.not_lt.mpr hw)⟩
      free := fun v hlt t hv => absurd hlt (Int.not_lt.mpr (h.subst.orderly v t hv).1) }
  fresh _ hv := hv
  nonneg := h.nonneg

/-- A later state of a session: numbers taken before keep their use, bindings are only added, and only
variables are bound. -/
structure Advances (F : Set TyVar) (u : Unifier) (F' : Set TyVar) (u' : Unifier) : Prop where
  apart : u'.Apart F'
  counter : u.counter ≤ u'.counter
  uses : ∀ v ≤ u.counter, v ∈ F' ↔ v ∈ F
  kept : ∀ v ≤ u.counter, v ∉ F → u'.subst.find? v = u.subst.find? v
  length : u.subst.length ≤ u'.subst.length

theorem Advances.unused {v : TyVar} (h : Advances F u F' u') (hv : v ∉ F ∧ v ≤ u.counter) :
    v ∉ F' ∧ v ≤ u'.counter :=
  ⟨fun hmem => hv.1 ((h.uses v hv.2).mp hmem), Int.le_trans hv.2 h.counter⟩

theorem Advances.refl (h : u.Apart F) : Advances F u F u :=
  ⟨h, Int.le_refl _, fun _ _ => .rfl, fun _ _ _ => rfl, Nat.le_refl _⟩

theorem Advances.trans {mid : Unifier} {Fm : Set TyVar} (h : Advances F u Fm mid)
    (h' : Advances Fm mid F' u') : Advances F u F' u' where
  apart := h'.apart
  counter := Int.le_trans h.counter h'.counter
  uses v hv := (h'.uses v (Int.le_trans hv h.counter)).trans (h.uses v hv)
  kept v hv hF := by
    rw [h'.kept v (Int.le_trans hv h.counter) (fun hmem => hF ((h.uses v hv).mp hmem)), h.kept v hv hF]
  length := Nat.le_trans h.length h'.length

theorem Advances.type (h : Advances F u F' u') (ht : t.Apart F u.counter) : t.Apart F' u'.counter :=
  ht.mono h.counter h.uses

theorem Advances.orderly (h : Advances F u F' u') (ht : t.Orderly F u.counter) :
    t.Orderly F' u'.counter :=
  ht.mono h.counter fun v hv => (h.uses v hv).mp

/-- New numbers may be taken, for variables or for other uses. -/
theorem Apart.take (h : u.Apart F) {n : TyVar} (hn : u.counter ≤ n) {ids : List TyVar}
    (hids : ∀ v ∈ ids, u.counter < v ∧ v ≤ n) :
    Advances F u (F \ {v | v ∈ ids}) { u with counter := n } := by
  have huses : ∀ v ≤ u.counter, v ∈ F \ {v | v ∈ ids} ↔ v ∈ F := by
    intro v hv
    refine ⟨And.left, fun hF => ⟨hF, fun hmem => ?_⟩⟩
    have hlt := (hids v hmem).1
    lia
  refine ⟨⟨h.subst.mono hn huses, fun v hv => ⟨?_, fun hmem => ?_⟩, Int.le_trans h.nonneg hn⟩, hn,
    huses, fun _ _ _ => rfl, Nat.le_refl _⟩
  · exact h.fresh v (Int.lt_of_le_of_lt hn hv)
  · have hle := (hids v hmem).2
    dsimp only at hv
    lia

/-- New numbers may be taken for variables. -/
theorem Apart.advance (h : u.Apart F) {n : TyVar} (hn : u.counter ≤ n) :
    Advances F u F { u with counter := n } := by
  have hnone : ∀ v ∈ ([] : List TyVar), u.counter < v ∧ v ≤ n := by simp
  simpa using h.take hn hnone

/-- Bindings of later may be forgotten, but the numbers they took stay taken. -/
theorem Advances.restore {later : Unifier} (h : Advances F u F later) (hu : u.Apart F) :
    Advances F u F { later with subst := u.subst } := by
  have hadvance := hu.advance h.counter
  exact ⟨⟨hadvance.apart.subst, hadvance.apart.fresh, hadvance.apart.nonneg⟩, h.counter,
    fun _ _ => .rfl, fun _ _ _ => rfl, Nat.le_refl _⟩

theorem Apart.equate (h : u.Apart F) (pairs : List (Ty × Ty)) :
    Advances F u F { u with equated := pairs } :=
  ⟨⟨h.subst, h.fresh, h.nonneg⟩, Int.le_refl _, fun _ _ => .rfl, fun _ _ _ => rfl, Nat.le_refl _⟩

theorem Apart.shallow (h : u.Apart F) (ht : t.Apart F u.counter) : (u.shallow t).Apart F u.counter :=
  h.subst.shallow ht _

theorem Apart.resolve (h : u.Apart F) (ht : t.Apart F u.counter) : (u.resolve t).Apart F u.counter :=
  h.subst.resolve ht

/-- A variable that a chain of bindings leads to is not bound. -/
theorem Apart.unbound (h : u.Apart F) {v : TyVar} (hv : u.shallow t = .var v) :
    u.subst.find? v = none :=
  h.subst.acyclic.unbound_of_shallowUpTo hv

theorem Apart.bind (h : u.Apart F) {v : TyVar} (hv : u.subst.find? v = none)
    (hvar : (Ty.var v).Apart F u.counter) (ht : t.Apart F u.counter)
    (hfree : v ∉ (u.resolve t).freeVars) :
    Advances F u F { u with subst := u.subst.insert v t } where
  apart := ⟨h.subst.insert hv hvar.orderly ht hfree, h.fresh, h.nonneg⟩
  counter := Int.le_refl _
  uses _ _ := .rfl
  kept w _ hw := by
    rw [Subst.find?_insert, if_neg]
    rintro rfl
    exact hw (hvar.free w (by simp [Ty.freeVars]))
  length := by rw [Subst.length_insert hv]; exact Nat.le_succ _

theorem Apart.freshAll (h : u.Apart F) (names : List String) :
    Advances F u F (u.freshAll names).2 := by
  rw [(freshAll_eq u names).1]
  exact h.advance (by lia)

/-- A polymorphic type at fresh variables. -/
theorem Apart.instantiate (h : u.Apart F) {ps : List (String × TyVar)} {body : Ty}
    (ht : (Ty.poly ps body).Apart F u.counter) :
    Advances F u F (u.instantiate ps body).2 ∧
      (u.instantiate ps body).1.Apart F (u.instantiate ps body).2.counter := by
  rcases freshAll_eq u (ps.map Prod.fst) with ⟨hu, hlen, hbound, -⟩
  have hadvances := h.freshAll (ps.map Prod.fst)
  have hlen' : ps.length = ((u.freshAll (ps.map Prod.fst)).1.map Ty.var).length := by
    rw [List.length_map, hlen, List.length_map]
  refine ⟨hadvances, Ty.Apart.instantiateWith hlen' ht hadvances.counter ?_⟩
  intro a ha
  rcases List.mem_map.mp ha with ⟨v, hv, rfl⟩
  refine Ty.apart_var ?_ (h.fresh v (hbound v hv).1)
  change v ≤ (u.freshAll (ps.map Prod.fst)).2.counter
  rw [hu]
  exact (hbound v hv).2

/-- A polymorphic type at fresh constants. -/
theorem Apart.skolemize (h : u.Apart F) {ps : List (String × TyVar)} {body : Ty}
    (ht : (Ty.poly ps body).Apart F u.counter) :
    Advances F u F (u.skolemize ps body).2 ∧
      (u.skolemize ps body).1.2.Apart F (u.skolemize ps body).2.counter := by
  rcases freshAll_eq u (ps.map Prod.fst) with ⟨hu, hlen, hbound, -⟩
  have hadvances := h.freshAll (ps.map Prod.fst)
  refine ⟨hadvances, Ty.Apart.instantiateWith ?_ ht hadvances.counter ?_⟩
  · simp [hlen]
  · intro a ha
    rcases List.mem_map.mp ha with ⟨s, hs, rfl⟩
    refine ⟨?_, by simp [Ty.freeVars]⟩
    change s.2 ≤ (u.freshAll (ps.map Prod.fst)).2.counter
    rw [hu]
    exact (hbound s.2 (List.of_mem_zip hs).2).2

end Unifier

end ProofScript
