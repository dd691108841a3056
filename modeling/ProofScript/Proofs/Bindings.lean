import ProofScript.Proofs.Meaning
import ProofScript.Ty.Unify

/-!
# Bindings

The bindings of a checker reach no variable from itself, so that every choice for the unbound
variables extends to a solution, and resolving a type removes all bound variables from it. Variables
and binders never share a number, so that nothing is captured.
-/

namespace ProofScript

/-! ## Substitutions as functions -/

namespace Subst

theorem find?_insert (σ : Subst) (v : TyVar) (t : Ty) (w : TyVar) :
    (σ.insert v t).find? w = if w = v then some t else σ.find? w := by
  by_cases hw : w = v
  · simp [insert, find?, hw]
  · have hne : (w == v) = false := by simpa using hw
    rw [if_neg hw]
    simpa [insert, find?, List.lookup_cons, hne] using lookup_filter_ne hw σ

theorem find?_without (σ : Subst) (vs : List TyVar) (w : TyVar) :
    (σ.without vs).find? w = if w ∈ vs then none else σ.find? w := by
  induction σ with
  | nil => simp [without, find?]
  | cons b σ ih =>
    obtain ⟨a, u⟩ := b
    rw [without, find?] at ih
    by_cases ha : a ∈ vs
    · by_cases hwa : w = a
      · subst hwa
        simpa [without, find?, ha] using ih
      · have hne : (w == a) = false := by simpa using hwa
        simpa [without, find?, ha, List.lookup_cons, hne] using ih
    · by_cases hwa : w = a
      · subst hwa
        simp [without, find?, ha]
      · have hne : (w == a) = false := by simpa using hwa
        simpa [without, find?, ha, List.lookup_cons, hne] using ih

/-- The last binding of a variable counts. -/
theorem find?_ofList (bs : List (TyVar × Ty)) (w : TyVar) :
    (ofList bs).find? w = bs.reverse.lookup w := by
  have hfold : ∀ σ : Subst, (bs.foldl (fun σ b => σ.insert b.1 b.2) σ).find? w =
      (bs.reverse.lookup w).or (σ.find? w) := by
    induction bs with
    | nil => simp
    | cons b bs ih =>
      intro σ
      obtain ⟨a, u⟩ := b
      rw [List.foldl_cons, ih, find?_insert, List.reverse_cons, List.lookup_append]
      by_cases hwa : w = a
      · simp [hwa]
      · have hne : (w == a) = false := by simpa using hwa
        simp [hwa, List.lookup_cons, hne]
  rw [ofList, hfold]
  simp [find?]

end Subst

/-- What the numbers of types are used for. -/
inductive Role where
  | flexible
  | reserved
  | bound
deriving DecidableEq, Repr, Inhabited

/-- The use of each number. -/
abbrev Roles := TyVar → Role

namespace Ty

mutual

/-- Every number that occurs is at most `c`, binders have numbers for binders, and no part of the
type fits everywhere. -/
def Shaped (k : Roles) (c : TyVar) : Ty → Prop
  | var _ => True
  | rigid _ i => i ≤ c
  | thunk r => r.Shaped k c
  | fn a r => a.Shaped k c ∧ r.Shaped k c
  | con _ as => ShapedAll k c as
  | poly ps b => (∀ p ∈ ps, k p.2 = .bound ∧ p.2 ≤ c) ∧ b.Shaped k c
  | never => True
  | any => False

/-- Each of the types is shaped. -/
def ShapedAll (k : Roles) (c : TyVar) : List Ty → Prop
  | [] => True
  | t :: rest => t.Shaped k c ∧ ShapedAll k c rest

end

/-- A shaped type whose free variables are unification variables. -/
structure Fits (k : Roles) (c : TyVar) (t : Ty) : Prop where
  shaped : t.Shaped k c
  free : ∀ v ∈ t.freeVars, k v = .flexible ∧ v ≤ c

variable {k k' : Roles} {c c' : TyVar}

mutual

theorem Shaped.mono (hc : c ≤ c') (hk : ∀ v ≤ c, k v = .bound → k' v = .bound) :
    (t : Ty) → t.Shaped k c → t.Shaped k' c'
  | var _, _ => trivial
  | rigid _ _, h => Int.le_trans h hc
  | thunk r, h => Shaped.mono hc hk r h
  | fn a r, h => ⟨Shaped.mono hc hk a h.1, Shaped.mono hc hk r h.2⟩
  | con _ as, h => ShapedAll.mono hc hk as h
  | poly _ b, h =>
    ⟨fun p hp => ⟨hk p.2 (h.1 p hp).2 (h.1 p hp).1, Int.le_trans (h.1 p hp).2 hc⟩,
      Shaped.mono hc hk b h.2⟩
  | never, _ => trivial
  | any, h => h

theorem ShapedAll.mono (hc : c ≤ c') (hk : ∀ v ≤ c, k v = .bound → k' v = .bound) :
    (ts : List Ty) → ShapedAll k c ts → ShapedAll k' c' ts
  | [], _ => trivial
  | t :: rest, h => ⟨Shaped.mono hc hk t h.1, ShapedAll.mono hc hk rest h.2⟩

end

mutual

theorem Shaped.mentions {n : String} {i : TyVar} :
    (t : Ty) → t.Shaped k c → t.mentions n i = true → i ≤ c
  | var _, _, hm => by simp [Ty.mentions] at hm
  | rigid m j, h, hm => by
    have hsame : m = n ∧ j = i := by simpa [Ty.mentions] using hm
    exact hsame.2 ▸ h
  | thunk r, h, hm => Shaped.mentions r h hm
  | fn a r, h, hm => by
    rw [Ty.mentions, Bool.or_eq_true] at hm
    rcases hm with hm | hm
    · exact Shaped.mentions a h.1 hm
    · exact Shaped.mentions r h.2 hm
  | con _ as, h, hm => ShapedAll.mentions as h hm
  | poly _ b, h, hm => Shaped.mentions b h.2 hm
  | never, _, hm => by simp [Ty.mentions] at hm
  | any, h, _ => h.elim

theorem ShapedAll.mentions {n : String} {i : TyVar} :
    (ts : List Ty) → ShapedAll k c ts → mentionsAny n i ts = true → i ≤ c
  | [], _, hm => by simp [mentionsAny] at hm
  | t :: rest, h, hm => by
    rw [mentionsAny, Bool.or_eq_true] at hm
    rcases hm with hm | hm
    · exact Shaped.mentions t h.1 hm
    · exact ShapedAll.mentions rest h.2 hm

end

theorem Fits.mono {t : Ty} (h : t.Fits k c) (hc : c ≤ c')
    (hk : ∀ v ≤ c, k v ≠ .reserved → k' v = k v) : t.Fits k' c' where
  shaped := by
    refine Shaped.mono hc ?_ t h.shaped
    intro v hv hbound
    rw [hk v hv (by simp [hbound]), hbound]
  free := by
    intro v hv
    rcases h.free v hv with ⟨hflex, hle⟩
    exact ⟨by rw [hk v hle (by simp [hflex]), hflex], Int.le_trans hle hc⟩

theorem fits_thunk {r : Ty} : (thunk r).Fits k c ↔ r.Fits k c :=
  ⟨fun h => ⟨h.shaped, h.free⟩, fun h => ⟨h.shaped, h.free⟩⟩

theorem fits_fn {a r : Ty} : (fn a r).Fits k c ↔ a.Fits k c ∧ r.Fits k c := by
  constructor
  · intro h
    refine ⟨⟨h.shaped.1, fun v hv => h.free v ?_⟩, ⟨h.shaped.2, fun v hv => h.free v ?_⟩⟩
    · simp [freeVars, hv]
    · simp [freeVars, hv]
  · intro h
    refine ⟨⟨h.1.shaped, h.2.shaped⟩, ?_⟩
    intro v hv
    rw [freeVars, List.mem_append] at hv
    rcases hv with hv | hv
    · exact h.2.free v hv
    · exact h.1.free v hv

theorem fits_con {n : String} {as : List Ty} :
    (con n as).Fits k c ↔ ∀ a ∈ as, a.Fits k c := by
  induction as with
  | nil => exact ⟨fun _ a ha => by simp at ha, fun _ => ⟨trivial, by simp [freeVars, freeVarsAll]⟩⟩
  | cons a as ih =>
    have hsplit : (con n (a :: as)).Fits k c ↔ a.Fits k c ∧ (con n as).Fits k c := by
      constructor
      · intro h
        refine ⟨⟨h.shaped.1, fun v hv => h.free v ?_⟩, ⟨h.shaped.2, fun v hv => h.free v ?_⟩⟩
        · simp [freeVars, freeVarsAll, hv]
        · exact List.mem_append_right _ hv
      · intro h
        refine ⟨⟨h.1.shaped, h.2.shaped⟩, ?_⟩
        intro v hv
        rcases List.mem_append.mp hv with hv | hv
        · exact h.1.free v hv
        · exact h.2.free v hv
    rw [hsplit, ih]
    simp

theorem fits_var {v : TyVar} : (var v).Fits k c ↔ k v = .flexible ∧ v ≤ c := by
  constructor
  · intro h
    exact h.free v (by simp [freeVars])
  · intro h
    refine ⟨trivial, ?_⟩
    intro w hw
    have hwv : w = v := by simpa [freeVars] using hw
    rwa [hwv]

/-! ## Applying substitutions -/

mutual

theorem Shaped.apply {σ : Subst} (hσ : ∀ v u, σ.find? v = some u → u.Shaped k c) :
    (t : Ty) → t.Shaped k c → (t.apply σ).Shaped k c
  | var v, _ => by
    rw [Ty.apply]
    cases hv : σ.find? v with
    | none => trivial
    | some u => exact hσ v u hv
  | rigid _ _, h => h
  | thunk r, h => Shaped.apply hσ r h
  | fn a r, h => ⟨Shaped.apply hσ a h.1, Shaped.apply hσ r h.2⟩
  | con _ as, h => ShapedAll.apply hσ as h
  | poly ps b, h => by
    refine ⟨h.1, Shaped.apply ?_ b h.2⟩
    intro v u hv
    rw [Subst.find?_without] at hv
    split at hv
    · cases hv
    · exact hσ v u hv
  | never, _ => trivial
  | any, h => h.elim

theorem ShapedAll.apply {σ : Subst} (hσ : ∀ v u, σ.find? v = some u → u.Shaped k c) :
    (ts : List Ty) → ShapedAll k c ts → ShapedAll k c (applyAll σ ts)
  | [], _ => trivial
  | t :: rest, h => ⟨Shaped.apply hσ t h.1, ShapedAll.apply hσ rest h.2⟩

end

mutual

/-- What is free after a substitution was free and not replaced, or is free in a replacement. -/
theorem mem_freeVars_of_apply {σ : Subst} {x : TyVar} :
    (t : Ty) → x ∈ (t.apply σ).freeVars →
      x ∈ t.freeVars ∧ σ.find? x = none ∨ ∃ v ∈ t.freeVars, ∃ u, σ.find? v = some u ∧ x ∈ u.freeVars
  | var v, h => by
    rw [Ty.apply] at h
    cases hv : σ.find? v with
    | none =>
      have hx : x = v := by simpa [hv, freeVars] using h
      exact .inl ⟨by simp [freeVars, hx], hx ▸ hv⟩
    | some u =>
      have hx : x ∈ u.freeVars := by simpa [hv] using h
      exact .inr ⟨v, by simp [freeVars], u, hv, hx⟩
  | rigid _ _, h => by simp [Ty.apply, freeVars] at h
  | thunk r, h => mem_freeVars_of_apply r h
  | fn a r, h => by
    rw [Ty.apply, freeVars, List.mem_append] at h
    have hlift : ∀ s : Ty, (∀ y ∈ s.freeVars, y ∈ (fn a r).freeVars) →
        (x ∈ s.freeVars ∧ σ.find? x = none ∨
          ∃ v ∈ s.freeVars, ∃ u, σ.find? v = some u ∧ x ∈ u.freeVars) →
        x ∈ (fn a r).freeVars ∧ σ.find? x = none ∨
          ∃ v ∈ (fn a r).freeVars, ∃ u, σ.find? v = some u ∧ x ∈ u.freeVars := by
      intro s hs hx
      rcases hx with ⟨hx, hnone⟩ | ⟨v, hv, u, hu⟩
      · exact .inl ⟨hs x hx, hnone⟩
      · exact .inr ⟨v, hs v hv, u, hu⟩
    rcases h with h | h
    · exact hlift r (fun y hy => by simp [freeVars, hy]) (mem_freeVars_of_apply r h)
    · exact hlift a (fun y hy => by simp [freeVars, hy]) (mem_freeVars_of_apply a h)
  | con _ as, h => mem_freeVarsAll_of_apply as h
  | poly ps b, h => by
    rw [Ty.apply, freeVars, List.mem_filter] at h
    have hx : x ∉ ps.map Prod.snd := by simpa using h.2
    rcases mem_freeVars_of_apply b h.1 with ⟨hb, hnone⟩ | ⟨v, hv, u, hu, hxu⟩
    · rw [Subst.find?_without, if_neg hx] at hnone
      exact .inl ⟨by simpa [freeVars, hb] using hx, hnone⟩
    · rw [Subst.find?_without] at hu
      split at hu
      · cases hu
      · rename_i hvps
        exact .inr ⟨v, by simpa [freeVars, hv] using hvps, u, hu, hxu⟩
  | never, h => by simp [Ty.apply, freeVars] at h
  | any, h => by simp [Ty.apply, freeVars] at h

theorem mem_freeVarsAll_of_apply {σ : Subst} {x : TyVar} :
    (ts : List Ty) → x ∈ freeVarsAll (applyAll σ ts) →
      x ∈ freeVarsAll ts ∧ σ.find? x = none ∨
        ∃ v ∈ freeVarsAll ts, ∃ u, σ.find? v = some u ∧ x ∈ u.freeVars
  | [], h => by simp [applyAll, freeVarsAll] at h
  | t :: rest, h => by
    rw [applyAll, freeVarsAll, List.mem_append] at h
    rcases h with h | h
    · rcases mem_freeVars_of_apply t h with ⟨hx, hnone⟩ | ⟨v, hv, u, hu⟩
      · exact .inl ⟨by simp [freeVarsAll, hx], hnone⟩
      · exact .inr ⟨v, by simp [freeVarsAll, hv], u, hu⟩
    · rcases mem_freeVarsAll_of_apply rest h with ⟨hx, hnone⟩ | ⟨v, hv, u, hu⟩
      · exact .inl ⟨by simp [freeVarsAll, hx], hnone⟩
      · exact .inr ⟨v, by simp [freeVarsAll, hv], u, hu⟩

end

mutual

/-- What is free in the replacement of a free variable stays free, if it is no number of a binder. -/
theorem mem_freeVars_apply {σ : Subst} {v x : TyVar} (hx : x = v ∨ k x = .flexible)
    (hv : x ∈ ((σ.find? v).getD (var v)).freeVars) :
    (t : Ty) → t.Shaped k c → v ∈ t.freeVars → x ∈ (t.apply σ).freeVars
  | var w, _, hm => by
    have hw : v = w := by simpa [freeVars] using hm
    rw [Ty.apply, ← hw]
    exact hv
  | rigid _ _, _, hm => by simp [freeVars] at hm
  | thunk r, h, hm => mem_freeVars_apply hx hv r h hm
  | fn a r, h, hm => by
    rw [freeVars, List.mem_append] at hm
    rw [Ty.apply, freeVars, List.mem_append]
    exact hm.imp (mem_freeVars_apply hx hv r h.2) (mem_freeVars_apply hx hv a h.1)
  | con _ as, h, hm => mem_freeVarsAll_apply hx hv as h hm
  | poly ps b, h, hm => by
    rw [freeVars, List.mem_filter] at hm
    have hvps : v ∉ ps.map Prod.snd := by simpa using hm.2
    have hxps : x ∉ ps.map Prod.snd := by
      rcases hx with hx | hx
      · rwa [hx]
      · intro hmem
        rcases List.mem_map.mp hmem with ⟨p, hp, rfl⟩
        rw [(h.1 p hp).1] at hx
        cases hx
    have hb : x ∈ (b.apply (σ.without (ps.map Prod.snd))).freeVars := by
      refine mem_freeVars_apply hx ?_ b h.2 hm.1
      rwa [Subst.find?_without, if_neg hvps]
    rw [Ty.apply, freeVars, List.mem_filter]
    exact ⟨hb, by simpa using hxps⟩
  | never, _, hm => by simp [freeVars] at hm
  | any, _, hm => by simp [freeVars] at hm

theorem mem_freeVarsAll_apply {σ : Subst} {v x : TyVar} (hx : x = v ∨ k x = .flexible)
    (hv : x ∈ ((σ.find? v).getD (var v)).freeVars) :
    (ts : List Ty) → ShapedAll k c ts → v ∈ freeVarsAll ts → x ∈ freeVarsAll (applyAll σ ts)
  | [], _, hm => by simp [freeVarsAll] at hm
  | t :: rest, h, hm => by
    rw [freeVarsAll, List.mem_append] at hm
    rw [applyAll, freeVarsAll, List.mem_append]
    exact hm.imp (mem_freeVars_apply hx hv t h.1) (mem_freeVarsAll_apply hx hv rest h.2)

end

mutual

/-- A substitution that replaces no free variable, or each by itself, changes nothing. -/
theorem apply_eq_self {σ : Subst} :
    (t : Ty) → (∀ v ∈ t.freeVars, ∀ u, σ.find? v = some u → u = var v) → t.apply σ = t
  | var v, h => by
    rw [Ty.apply]
    cases hv : σ.find? v with
    | none => rfl
    | some u => exact h v (by simp [freeVars]) u hv
  | rigid _ _, _ => rfl
  | thunk r, h => by rw [Ty.apply, apply_eq_self r h]
  | fn a r, h => by
    rw [Ty.apply, apply_eq_self a fun v hv => h v (by simp [freeVars, hv]),
      apply_eq_self r fun v hv => h v (by simp [freeVars, hv])]
  | con _ as, h => by rw [Ty.apply, applyAll_eq_self as h]
  | poly ps b, h => by
    rw [Ty.apply, apply_eq_self b]
    intro v hv u hu
    rw [Subst.find?_without] at hu
    split at hu
    · cases hu
    · rename_i hvps
      exact h v (by simpa [freeVars, hv] using hvps) u hu
  | never, _ => rfl
  | any, _ => rfl

theorem applyAll_eq_self {σ : Subst} :
    (ts : List Ty) → (∀ v ∈ freeVarsAll ts, ∀ u, σ.find? v = some u → u = var v) →
      applyAll σ ts = ts
  | [], _ => rfl
  | t :: rest, h => by
    rw [applyAll, apply_eq_self t fun v hv => h v (by simp [freeVarsAll, hv]),
      applyAll_eq_self rest fun v hv => h v (by simp [freeVarsAll, hv])]

end

/-- Renaming binders to themselves changes nothing. -/
theorem apply_renameBinders_self (ps : List (String × TyVar)) (t : Ty) :
    t.apply (renameBinders ps ps) = t := by
  refine apply_eq_self t ?_
  intro v _ u hu
  rw [renameBinders, Subst.find?_ofList] at hu
  have hmem := List.mem_reverse.mp (mem_of_lookup hu)
  rcases List.mem_map.mp hmem with ⟨⟨q, p⟩, hqp, heq⟩
  have hsame : ∀ l : List (String × TyVar), (q, p) ∈ l.zip l → q = p := by
    intro l hl
    induction l with
    | nil => simp at hl
    | cons a l ih =>
      rcases List.mem_cons.mp hl with hl | hl
      · cases hl
        rfl
      · exact ih hl
  cases heq
  rw [hsame ps hqp]

mutual

/-- A type that a substitution leaves equal up to bound variables is left as it is: its binders are
those of before, so that none is confused with another. -/
theorem apply_eq_of_eqv {σ : Subst} :
    (t : Ty) → (t.apply σ).eqv t = true → t.apply σ = t
  | var v, h => by
    rw [Ty.apply] at h ⊢
    cases hv : (σ.find? v).getD (var v) with
    | var w =>
      rw [hv] at h
      have hw : w = v := by simpa [eqv] using h
      rw [hw]
    | _ => simp [hv, eqv] at h
  | rigid _ _, _ => rfl
  | thunk r, h => by rw [Ty.apply, apply_eq_of_eqv r h]
  | fn a r, h => by
    have hboth : (a.apply σ).eqv a = true ∧ (r.apply σ).eqv r = true := by
      simpa [Ty.apply, eqv] using h
    rw [Ty.apply, apply_eq_of_eqv a hboth.1, apply_eq_of_eqv r hboth.2]
  | con _ as, h => by
    have hall : eqvAll (applyAll σ as) as = true := by simpa [Ty.apply, eqv] using h
    rw [Ty.apply, applyAll_eq_of_eqv as hall]
  | poly ps b, h => by
    rw [Ty.apply, eqv, apply_renameBinders_self] at h
    have hb : (b.apply (σ.without (ps.map Prod.snd))).eqv b = true := by simpa using h
    rw [Ty.apply, apply_eq_of_eqv b hb]
  | never, _ => rfl
  | any, _ => rfl

theorem applyAll_eq_of_eqv {σ : Subst} :
    (ts : List Ty) → eqvAll (applyAll σ ts) ts = true → applyAll σ ts = ts
  | [], _ => rfl
  | t :: rest, h => by
    have hboth : (t.apply σ).eqv t = true ∧ eqvAll (applyAll σ rest) rest = true := by
      simpa [applyAll, eqvAll] using h
    rw [applyAll, apply_eq_of_eqv t hboth.1, applyAll_eq_of_eqv rest hboth.2]

end

end Ty

/-- The interpretation in which a variable means what its replacement means. -/
noncomputable def Valuation.through (ρ : Valuation) (σ : Subst) : Valuation :=
  ⟨fun v => ((σ.find? v).getD (.var v)).sense ρ, ρ.consts⟩

namespace Ty

variable {k : Roles} {c : TyVar}

/-- Below binders, replacements mean what they mean outside. -/
theorem rebind_through {ρ : Valuation} {σ : Subst} {ps : List (String × TyVar)} {f : TyVar → Sense}
    (hps : ∀ p ∈ ps, k p.2 = .bound)
    (hσ : ∀ v u, σ.find? v = some u → ∀ w ∈ u.freeVars, k w = .flexible) :
    (ρ.rebind (ps.map Prod.snd) f).through (σ.without (ps.map Prod.snd)) =
      (ρ.through σ).rebind (ps.map Prod.snd) f := by
  refine Valuation.ext (funext fun v => ?_) rfl
  by_cases hv : v ∈ ps.map Prod.snd
  · rw [Valuation.rebind_vars_of_mem hv]
    simp only [Valuation.through, Subst.find?_without, if_pos hv]
    exact Valuation.rebind_vars_of_mem hv
  · rw [Valuation.rebind_vars_of_not_mem hv]
    simp only [Valuation.through, Subst.find?_without, if_neg hv]
    cases hu : σ.find? v with
    | none => exact Valuation.rebind_vars_of_not_mem hv
    | some u =>
      refine sense_congr u ?_ fun _ _ _ => rfl
      intro w hw
      refine Valuation.rebind_vars_of_not_mem ?_
      intro hmem
      rcases List.mem_map.mp hmem with ⟨p, hp, rfl⟩
      have hflex := hσ v u hu p.2 hw
      rw [hps p hp] at hflex
      cases hflex

mutual

/-- Substituting in a type is reinterpreting its variables. -/
theorem sense_apply {σ : Subst}
    (hσ : ∀ v u, σ.find? v = some u → ∀ w ∈ u.freeVars, k w = .flexible) :
    (t : Ty) → t.Shaped k c → ∀ ρ : Valuation, (t.apply σ).sense ρ = t.sense (ρ.through σ)
  | var _, _, _ => rfl
  | rigid _ _, _, _ => rfl
  | thunk r, h, ρ => by rw [Ty.apply, sense, sense, sense_apply hσ r h]
  | fn a r, h, ρ => by
    rw [Ty.apply, sense, sense, sense_apply hσ a h.1, sense_apply hσ r h.2]
  | con _ as, h, ρ => by rw [Ty.apply, sense, sense, senses_apply hσ as h]
  | poly ps b, h, ρ => by
    have hwithout : ∀ v u, (σ.without (ps.map Prod.snd)).find? v = some u →
        ∀ w ∈ u.freeVars, k w = .flexible := by
      intro v u hu
      rw [Subst.find?_without] at hu
      split at hu
      · cases hu
      · exact hσ v u hu
    rw [Ty.apply, sense, sense]
    refine iInf_congr fun f => ?_
    rw [sense_apply hwithout b h.2, rebind_through (fun p hp => (h.1 p hp).1) hσ]
  | never, _, _ => rfl
  | any, _, _ => rfl

theorem senses_apply {σ : Subst}
    (hσ : ∀ v u, σ.find? v = some u → ∀ w ∈ u.freeVars, k w = .flexible) :
    (ts : List Ty) → ShapedAll k c ts → ∀ ρ : Valuation,
      senses ρ (applyAll σ ts) = senses (ρ.through σ) ts
  | [], _, _ => rfl
  | t :: rest, h, ρ => by
    rw [applyAll, senses, senses, sense_apply hσ t h.1, senses_apply hσ rest h.2]

end

end Ty

/-! ## Solutions -/

namespace Subst

variable {σ : Subst} {k : Roles} {c : TyVar}

/-- The variables mean what they are bound to. -/
def Solves (σ : Subst) (ρ : Valuation) : Prop := ∀ v t, σ.find? v = some t → ρ.vars v = t.sense ρ

/-- The bound variables that are free in the type are among these. -/
def Within (σ : Subst) (vs : List TyVar) (t : Ty) : Prop :=
  ∀ x ∈ t.freeVars, σ.find? x ≠ none → x ∈ vs

/-- What variables of the list are bound to leads to later ones of the list only. -/
def Layered (σ : Subst) : List TyVar → Prop
  | [] => True
  | v :: vs => (∀ w ∈ v :: vs, ∀ t, σ.find? w = some t → σ.Within vs t) ∧ σ.Layered vs

/-- The bound variables can be ordered so that each leads to later ones only. -/
def Acyclic (σ : Subst) : Prop :=
  ∃ order : List TyVar, order.length ≤ σ.length ∧ (∀ v, σ.find? v ≠ none → v ∈ order) ∧
    σ.Layered order

theorem through_of_solves {ρ : Valuation} (h : σ.Solves ρ) : ρ.through σ = ρ := by
  refine Valuation.ext (funext fun v => ?_) rfl
  rw [Valuation.through]
  cases hv : σ.find? v with
  | none => simp [hv, Ty.sense]
  | some t => simp [hv, h v t hv]

/-- Variables that are not bound may mean anything. -/
theorem exists_solution_of_layered {vs : List TyVar} (h : σ.Layered vs) (ρ : Valuation) :
    ∃ ρ' : Valuation, (∀ v ∈ vs, ∀ t, σ.find? v = some t → ρ'.vars v = t.sense ρ') ∧
      ρ'.consts = ρ.consts ∧ ∀ v, σ.find? v = none → ρ'.vars v = ρ.vars v := by
  induction vs with
  | nil => exact ⟨ρ, by simp, rfl, fun _ _ => rfl⟩
  | cons v vs ih =>
    rcases ih h.2 with ⟨ρ₁, hsolved, hconsts, hfree⟩
    by_cases hmem : v ∈ vs
    · refine ⟨ρ₁, ?_, hconsts, hfree⟩
      intro w hw
      rcases List.mem_cons.mp hw with rfl | hw
      · exact hsolved w hmem
      · exact hsolved w hw
    cases hv : σ.find? v with
    | none =>
      refine ⟨ρ₁, ?_, hconsts, hfree⟩
      intro w hw t ht
      rcases List.mem_cons.mp hw with rfl | hw
      · rw [hv] at ht
        cases ht
      · exact hsolved w hw t ht
    | some t =>
      -- No binding from here on leads back to the first variable.
      have hkeep : ∀ w ∈ v :: vs, ∀ u, σ.find? w = some u →
          u.sense (ρ₁.rebind [v] fun _ => t.sense ρ₁) = u.sense ρ₁ := by
        intro w hw u hu
        refine Ty.sense_congr u ?_ fun _ _ _ => rfl
        intro x hx
        refine Valuation.rebind_vars_of_not_mem ?_
        intro hxv
        have hxv' : x = v := by simpa using hxv
        subst hxv'
        exact hmem (h.1 w hw u hu x hx (by simp [hv]))
      refine ⟨ρ₁.rebind [v] fun _ => t.sense ρ₁, ?_, hconsts, ?_⟩
      · intro w hw u hu
        rw [hkeep w hw u hu]
        by_cases hwv : w = v
        · subst hwv
          rw [hv] at hu
          cases hu
          exact Valuation.rebind_vars_of_mem (by simp)
        · rw [Valuation.rebind_vars_of_not_mem (by simpa using hwv)]
          rcases List.mem_cons.mp hw with hw | hw
          · exact absurd hw hwv
          · exact hsolved w hw u hu
      · intro w hw
        rw [Valuation.rebind_vars_of_not_mem, hfree w hw]
        intro hwv
        have hwv' : w = v := by simpa using hwv
        rw [hwv', hv] at hw
        cases hw

theorem Acyclic.exists_solution (h : σ.Acyclic) (ρ : Valuation) :
    ∃ ρ' : Valuation, σ.Solves ρ' ∧ ρ'.consts = ρ.consts ∧
      ∀ v, σ.find? v = none → ρ'.vars v = ρ.vars v := by
  rcases h with ⟨order, -, hcover, hlayered⟩
  rcases exists_solution_of_layered hlayered ρ with ⟨ρ', hsolved, hconsts, hfree⟩
  refine ⟨ρ', ?_, hconsts, hfree⟩
  intro v t hv
  exact hsolved v (hcover v (by simp [hv])) t hv

/-! ## Resolving -/

theorem within_apply {v : TyVar} {vs : List TyVar} {t : Ty} (h : σ.Layered (v :: vs))
    (ht : σ.Within (v :: vs) t) : σ.Within vs (t.apply σ) := by
  intro x hx hbound
  rcases Ty.mem_freeVars_of_apply t hx with ⟨-, hnone⟩ | ⟨w, hw, u, hu, hxu⟩
  · exact absurd hnone hbound
  · exact h.1 w (ht w hw (by simp [hu])) u hu x hxu hbound

theorem apply_of_within_nil {t : Ty} (ht : σ.Within [] t) : t.apply σ = t := by
  refine Ty.apply_eq_self t ?_
  intro v hv u hu
  have := ht v hv (by simp [hu])
  simp at this

theorem within_nil_of_apply_eq {vs : List TyVar} {t : Ty} (h : σ.Layered vs) (ht : σ.Within vs t)
    (hfix : t.apply σ = t) : σ.Within [] t := by
  induction vs with
  | nil => exact ht
  | cons v vs ih =>
    refine ih h.2 ?_
    have hnext := within_apply h ht
    rwa [hfix] at hnext

theorem within_nil_resolveUpTo {t : Ty} (ht : σ.Within [] t) (n : Nat) :
    t.resolveUpTo σ n = t := by
  induction n with
  | zero => rfl
  | succ n ih =>
    rw [Ty.resolveUpTo, apply_of_within_nil ht]
    split
    · rfl
    · exact ih

theorem resolveUpTo_within {vs : List TyVar} {t : Ty} {n : Nat} (h : σ.Layered vs)
    (ht : σ.Within vs t) (hn : vs.length < n) : σ.Within [] (t.resolveUpTo σ n) := by
  induction vs generalizing t n with
  | nil =>
    rw [within_nil_resolveUpTo ht]
    exact ht
  | cons v vs ih =>
    obtain ⟨m, rfl⟩ : ∃ m, n = m + 1 := ⟨n - 1, by simp only [List.length_cons] at hn; omega⟩
    rw [Ty.resolveUpTo]
    split
    · rename_i heqv
      rw [Ty.apply_eq_of_eqv t heqv]
      exact within_nil_of_apply_eq h ht (Ty.apply_eq_of_eqv t heqv)
    · refine ih h.2 (within_apply h ht) ?_
      simp only [List.length_cons] at hn
      omega

/-- A resolved type has no bound variables. -/
theorem Acyclic.resolve_within (h : σ.Acyclic) (t : Ty) : σ.Within [] (t.resolve σ) := by
  rcases h with ⟨order, hlen, hcover, hlayered⟩
  exact resolveUpTo_within hlayered (fun x _ hx => hcover x hx) (by omega)

/-- What holds of a type, and of a type with the bindings applied if it holds of the type, holds of the
resolved type. -/
theorem resolve_induct {p : Ty → Prop} {t : Ty} (ht : p t) (happly : ∀ t, p t → p (t.apply σ)) :
    p (t.resolve σ) := by
  rw [Ty.resolve]
  generalize σ.length + 1 = n
  induction n generalizing t with
  | zero => exact ht
  | succ n ih =>
    rw [Ty.resolveUpTo]
    split
    · exact happly t ht
    · exact ih (happly t ht)

/-- No variable leads to itself, and what variables are bound to fits. -/
structure Regular (k : Roles) (c : TyVar) (σ : Subst) : Prop where
  acyclic : σ.Acyclic
  fits : ∀ v t, σ.find? v = some t → v ≤ c ∧ t.Fits k c

theorem Regular.flexible (h : Regular k c σ) (v : TyVar) (u : Ty) (hv : σ.find? v = some u) :
    ∀ w ∈ u.freeVars, k w = .flexible :=
  fun w hw => (((h.fits v u hv).2).free w hw).1

theorem Regular.fits_apply (h : Regular k c σ) {t : Ty} (ht : t.Fits k c) :
    (t.apply σ).Fits k c where
  shaped := Ty.Shaped.apply (fun v u hv => (h.fits v u hv).2.shaped) t ht.shaped
  free := by
    intro x hx
    rcases Ty.mem_freeVars_of_apply t hx with ⟨hx, -⟩ | ⟨v, -, u, hu, hxu⟩
    · exact ht.free x hx
    · exact (h.fits v u hu).2.free x hxu

theorem Regular.fits_resolve (h : Regular k c σ) {t : Ty} (ht : t.Fits k c) :
    (t.resolve σ).Fits k c :=
  resolve_induct (p := fun t => t.Fits k c) ht fun _ ht => h.fits_apply ht

/-- Solutions do not tell a type from its resolved form. -/
theorem Regular.sense_resolve (h : Regular k c σ) {t : Ty} (ht : t.Fits k c) {ρ : Valuation}
    (hρ : σ.Solves ρ) : (t.resolve σ).sense ρ = t.sense ρ := by
  have hstep : ∀ {u : Ty}, u.Fits k c → (u.apply σ).sense ρ = u.sense ρ := by
    intro u hu
    rw [Ty.sense_apply h.flexible u hu.shaped, through_of_solves hρ]
  refine (resolve_induct (p := fun u => u.Fits k c ∧ u.sense ρ = t.sense ρ) ⟨ht, rfl⟩ ?_).2
  rintro u ⟨hu, hsame⟩
  exact ⟨h.fits_apply hu, (hstep hu).trans hsame⟩

/-- Solutions that agree on unbound variables agree on a type, if they agree on the constants of its
resolved form. -/
theorem Regular.sense_eq_of_resolve (h : Regular k c σ) {t : Ty} (ht : t.Fits k c)
    {ρ ρ' : Valuation} (hρ : σ.Solves ρ) (hρ' : σ.Solves ρ')
    (hfree : ∀ v, σ.find? v = none → ρ.vars v = ρ'.vars v)
    (hconst : ∀ n i, (t.resolve σ).mentions n i = true → ρ.const n i = ρ'.const n i) :
    t.sense ρ = t.sense ρ' := by
  rw [← h.sense_resolve ht hρ, ← h.sense_resolve ht hρ']
  refine Ty.sense_congr _ ?_ hconst
  intro w hw
  by_cases hbound : σ.find? w = none
  · exact hfree w hbound
  · have hnil := h.acyclic.resolve_within t w hw hbound
    simp at hnil

/-! ## Binding a variable -/

/-- A variable is free in a type, or in what a variable it leads to is bound to. -/
inductive Reaches (σ : Subst) (t : Ty) : TyVar → Prop
  | free {v : TyVar} : v ∈ t.freeVars → Reaches σ t v
  | bound {w v : TyVar} {u : Ty} :
    Reaches σ t w → σ.find? w = some u → v ∈ u.freeVars → Reaches σ t v

theorem Regular.reaches_apply (h : Regular k c σ) {t : Ty} (ht : t.Fits k c) {v : TyVar}
    (hv : σ.find? v = none) (hr : σ.Reaches t v) : σ.Reaches (t.apply σ) v := by
  have hstep : ∀ x, σ.Reaches t x → x ∈ t.freeVars ∨ σ.Reaches (t.apply σ) x := by
    intro x hx
    induction hx with
    | free hx => exact .inl hx
    | @bound w x u _ hu hxu ih =>
      right
      rcases ih with hw | hw
      · refine .free (Ty.mem_freeVars_apply (.inr (h.flexible w u hu x hxu)) ?_ t ht.shaped hw)
        simpa [hu] using hxu
      · exact .bound hw hu hxu
  rcases hstep v hr with hfree | hr
  · refine .free (Ty.mem_freeVars_apply (.inl rfl) ?_ t ht.shaped hfree)
    simp [hv, Ty.freeVars]
  · exact hr

/-- A variable that is not free in the resolved type is not reached. -/
theorem Regular.not_reaches (h : Regular k c σ) {t : Ty} (ht : t.Fits k c) {v : TyVar}
    (hv : σ.find? v = none) (hfree : v ∉ (t.resolve σ).freeVars) : ¬ σ.Reaches t v := by
  have hresolve : σ.Reaches t v → σ.Reaches (t.resolve σ) v := by
    intro hr
    refine (resolve_induct (p := fun u => u.Fits k c ∧ σ.Reaches u v) ⟨ht, hr⟩ ?_).2
    rintro u ⟨hu, hr⟩
    exact ⟨h.fits_apply hu, h.reaches_apply hu hv hr⟩
  have hwithin := h.acyclic.resolve_within t
  have hnone : ∀ x, σ.Reaches (t.resolve σ) x → x ∈ (t.resolve σ).freeVars := by
    intro x hx
    induction hx with
    | free hx => exact hx
    | bound _ hu _ ih =>
      have := hwithin _ ih (by simp [hu])
      simp at this
  intro hr
  exact hfree (hnone v (hresolve hr))

theorem length_insert {v : TyVar} (hv : σ.find? v = none) (t : Ty) :
    (σ.insert v t).length = σ.length + 1 := by
  have hkeep : σ.filter (fun b => b.1 ≠ v) = σ := by
    rw [List.filter_eq_self]
    intro b hb
    have hne : v ≠ b.1 := by simpa using List.lookup_eq_none_iff.mp hv b hb
    simpa using hne.symm
  rw [insert, hkeep, List.length_cons]

section Insert

open Classical

variable {v : TyVar} {t : Ty} (hr : ¬ σ.Reaches t v)

include hr

/-- What the type leads to is bound as before. -/
theorem find?_insert_of_reaches {x : TyVar} (hx : σ.Reaches t x) :
    (σ.insert v t).find? x = σ.find? x := by
  rw [find?_insert, if_neg]
  intro heq
  exact hr (heq ▸ hx)

theorem mem_filter_reaches {order : List TyVar} (hcover : ∀ v, σ.find? v ≠ none → v ∈ order)
    {x : TyVar} (hx : σ.Reaches t x) (hbound : (σ.insert v t).find? x ≠ none) :
    x ∈ order.filter fun x => σ.Reaches t x := by
  rw [find?_insert_of_reaches hr hx] at hbound
  exact List.mem_filter.mpr ⟨hcover x hbound, by simpa using hx⟩

/-- The new variable, and all that its type leads to, lead to what the type leads to. -/
theorem within_filter_reaches {order : List TyVar} (hcover : ∀ v, σ.find? v ≠ none → v ∈ order)
    {w : TyVar} (hw : w ∈ v :: order.filter fun x => σ.Reaches t x) {u : Ty}
    (hu : (σ.insert v t).find? w = some u) :
    (σ.insert v t).Within (order.filter fun x => σ.Reaches t x) u := by
  intro x hx hbound
  rcases List.mem_cons.mp hw with rfl | hw
  · rw [find?_insert, if_pos rfl] at hu
    cases hu
    exact mem_filter_reaches hr hcover (.free hx) hbound
  · have hreach : σ.Reaches t w := by simpa using (List.mem_filter.mp hw).2
    rw [find?_insert_of_reaches hr hreach] at hu
    exact mem_filter_reaches hr hcover (.bound hreach hu hx) hbound

theorem layered_filter_reaches {vs : List TyVar} (hvs : σ.Layered vs) :
    (σ.insert v t).Layered (vs.filter fun x => σ.Reaches t x) := by
  induction vs with
  | nil => trivial
  | cons a vs ih =>
    by_cases ha : σ.Reaches t a
    · rw [List.filter_cons_of_pos (by simpa using ha)]
      refine ⟨?_, ih hvs.2⟩
      intro w hw u hu x hx hbound
      have hreach : σ.Reaches t w ∧ w ∈ a :: vs := by
        rcases List.mem_cons.mp hw with rfl | hw
        · exact ⟨ha, by simp⟩
        · exact ⟨by simpa using (List.mem_filter.mp hw).2,
            List.mem_cons_of_mem _ (List.mem_filter.mp hw).1⟩
      rw [find?_insert_of_reaches hr hreach.1] at hu
      have hxreach : σ.Reaches t x := .bound hreach.1 hu hx
      rw [find?_insert_of_reaches hr hxreach] at hbound
      exact List.mem_filter.mpr ⟨hvs.1 w hreach.2 u hu x hx hbound, by simpa using hxreach⟩
    · rw [List.filter_cons_of_neg (by simpa using ha)]
      exact ih hvs.2

/-- The new variable comes before what its type leads to, and after all else. -/
theorem layered_insert {order : List TyVar} (hcover : ∀ v, σ.find? v ≠ none → v ∈ order)
    (horder : σ.Layered order) {vs : List TyVar} (hvs : σ.Layered vs) :
    (σ.insert v t).Layered ((vs.filter fun x => ¬ σ.Reaches t x) ++
      v :: order.filter fun x => σ.Reaches t x) := by
  induction vs with
  | nil =>
    refine ⟨?_, layered_filter_reaches hr horder⟩
    intro w hw u hu
    exact within_filter_reaches hr hcover hw hu
  | cons a vs ih =>
    by_cases ha : σ.Reaches t a
    · rw [List.filter_cons_of_neg (by simpa using ha)]
      exact ih hvs.2
    rw [List.filter_cons_of_pos (by simpa using ha), List.cons_append]
    refine ⟨?_, ih hvs.2⟩
    intro w hw u hu x hx hbound
    by_cases hlater : w ∈ v :: order.filter fun x => σ.Reaches t x
    · have hxlater := within_filter_reaches hr hcover hlater hu x hx hbound
      exact List.mem_append_right _ (List.mem_cons_of_mem _ hxlater)
    have hwvs : w ∈ a :: vs := by
      rw [← List.cons_append, List.mem_append] at hw
      rcases List.mem_cons.mp (hw.resolve_right hlater) with rfl | hw
      · simp
      · exact List.mem_cons_of_mem _ (List.mem_filter.mp hw).1
    have hwv : w ≠ v := by
      rintro rfl
      exact hlater (by simp)
    rw [find?_insert, if_neg hwv] at hu
    by_cases hxv : x = v
    · rw [hxv]
      simp
    by_cases hxreach : σ.Reaches t x
    · have hxlater := mem_filter_reaches hr hcover hxreach hbound
      exact List.mem_append_right _ (List.mem_cons_of_mem _ hxlater)
    · rw [find?_insert, if_neg hxv] at hbound
      exact List.mem_append_left _ (List.mem_filter.mpr
        ⟨hvs.1 w hwvs u hu x hx hbound, by simpa using hxreach⟩)

/-- An unbound variable can be bound to a type that does not lead to it. -/
theorem Acyclic.insert (h : σ.Acyclic) (hv : σ.find? v = none) : (σ.insert v t).Acyclic := by
  rcases h with ⟨order, hlen, hcover, hlayered⟩
  refine ⟨(order.filter fun x => ¬ σ.Reaches t x) ++ v :: order.filter fun x => σ.Reaches t x,
    ?_, ?_, layered_insert hr hcover hlayered hlayered⟩
  · have hsplit := @List.length_eq_length_filter_add _ order fun x => decide (σ.Reaches t x)
    rw [length_insert hv, List.length_append, List.length_cons]
    simp only [decide_not]
    omega
  · intro x hx
    by_cases hxv : x = v
    · rw [hxv]
      simp
    by_cases hxreach : σ.Reaches t x
    · have hxlater := mem_filter_reaches hr hcover hxreach hx
      exact List.mem_append_right _ (List.mem_cons_of_mem _ hxlater)
    · rw [find?_insert, if_neg hxv] at hx
      exact List.mem_append_left _ (List.mem_filter.mpr ⟨hcover x hx, by simpa using hxreach⟩)

end Insert

/-! ## Following bindings -/

theorem shallowUpTo_unbound {vs : List TyVar} {t : Ty} {n : Nat} (h : σ.Layered vs)
    (ht : σ.Within vs t) (hn : vs.length < n) {w : TyVar}
    (hw : Unifier.shallowUpTo σ n t = .var w) : σ.find? w = none := by
  induction n generalizing vs t with
  | zero => omega
  | succ n ih =>
    cases t with
    | var v =>
      cases hv : σ.find? v with
      | none =>
        simp only [Unifier.shallowUpTo, hv, Ty.var.injEq] at hw
        rwa [← hw]
      | some u =>
        simp only [Unifier.shallowUpTo, hv] at hw
        have hmem : v ∈ vs := ht v (by simp [Ty.freeVars]) (by simp [hv])
        cases vs with
        | nil => simp at hmem
        | cons a vs =>
          simp only [List.length_cons] at hn
          exact ih h.2 (h.1 v hmem u hv) (by omega) hw
    | _ => simp [Unifier.shallowUpTo] at hw

/-- A chain of bindings is followed to its end. -/
theorem Acyclic.unbound_of_shallowUpTo (h : σ.Acyclic) {t : Ty} {v : TyVar}
    (hv : Unifier.shallowUpTo σ (σ.length + 1) t = .var v) : σ.find? v = none := by
  obtain ⟨order, hlen, hcover, hlayered⟩ := h
  exact shallowUpTo_unbound hlayered (fun x _ hx => hcover x hx) (by omega) hv

/-- What holds of a type, and of what a variable is bound to if it holds of the variable, holds of what a
chain of bindings leads to. -/
theorem shallowUpTo_induct {p : Ty → Prop} {t : Ty} (ht : p t)
    (hbound : ∀ v s, p (.var v) → σ.find? v = some s → p s) (n : Nat) :
    p (Unifier.shallowUpTo σ n t) := by
  induction n generalizing t with
  | zero => exact ht
  | succ n ih =>
    cases t with
    | var v =>
      rw [Unifier.shallowUpTo]
      cases hv : σ.find? v with
      | none => exact ht
      | some s => exact ih (hbound v s ht hv)
    | _ => exact ht

theorem Regular.fits_shallowUpTo (h : Regular k c σ) {t : Ty} (ht : t.Fits k c) (n : Nat) :
    (Unifier.shallowUpTo σ n t).Fits k c :=
  shallowUpTo_induct (p := fun t => t.Fits k c) ht (fun v s _ hv => (h.fits v s hv).2) n

theorem sense_shallowUpTo {ρ : Valuation} (hρ : σ.Solves ρ) (n : Nat) (t : Ty) :
    (Unifier.shallowUpTo σ n t).sense ρ = t.sense ρ := by
  refine shallowUpTo_induct (p := fun s => s.sense ρ = t.sense ρ) rfl (fun v s hsense hv => ?_) n
  rw [← hsense, Ty.sense, hρ v s hv]

end Subst

end ProofScript
