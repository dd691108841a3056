import Mathlib.Logic.Function.Iterate
import Mathlib.Data.Fintype.EquivFin
import ProofScript.Proofs.Sessions

/-!
# Types without binders

A type without binders has a value in every algebra of its formers. Substituting in such a type changes
what its variables stand for and nothing else, so a solution of the bindings gives a type and its
resolved form the same value. If no variable leads to itself, every choice for the unbound variables
extends to a solution: a variable stands for what its resolved form does.
-/

namespace ProofScript

universe w

/-! ## The forms of a type -/

/-- What a type is at its head. -/
inductive Form where
  | var
  | rigid
  | thunk
  | fn
  | con
  | poly
  | never
  | any

namespace Form

/-- Everything but binders. -/
def flat : Set Form := {f | f ≠ poly}

/-- Everything but binders and the type that goes with everything. -/
def plain : Set Form := {f | f ≠ poly ∧ f ≠ any}

/-- Variables, constants, functions with a parameter, and constructors. -/
def firstOrder : Set Form := {var, rigid, fn, con}

end Form

namespace Ty

variable {K K' : Set Form} {t : Ty} {σ : Subst}

mutual

/-- Every part of the type has one of the forms. -/
def Built (K : Set Form) : Ty → Prop
  | var _ => .var ∈ K
  | rigid _ _ => .rigid ∈ K
  | thunk r => .thunk ∈ K ∧ r.Built K
  | fn a r => .fn ∈ K ∧ a.Built K ∧ r.Built K
  | con _ as => .con ∈ K ∧ BuiltAll K as
  | poly _ b => .poly ∈ K ∧ b.Built K
  | never => .never ∈ K
  | any => .any ∈ K

/-- Every part of each of the types has one of the forms. -/
def BuiltAll (K : Set Form) : List Ty → Prop
  | [] => True
  | t :: rest => t.Built K ∧ BuiltAll K rest

end

theorem builtAll_iff {ts : List Ty} : BuiltAll K ts ↔ ∀ t ∈ ts, t.Built K := by
  induction ts with
  | nil => simp [BuiltAll]
  | cons t rest ih => simp [BuiltAll, ih]

mutual

theorem Built.mono (hK : K ⊆ K') : (t : Ty) → t.Built K → t.Built K'
  | var _, h => hK h
  | rigid _ _, h => hK h
  | thunk r, h => ⟨hK h.1, Built.mono hK r h.2⟩
  | fn a r, h => ⟨hK h.1, Built.mono hK a h.2.1, Built.mono hK r h.2.2⟩
  | con _ as, h => ⟨hK h.1, BuiltAll.mono hK as h.2⟩
  | poly _ b, h => ⟨hK h.1, Built.mono hK b h.2⟩
  | never, h => hK h
  | any, h => hK h

theorem BuiltAll.mono (hK : K ⊆ K') : (ts : List Ty) → BuiltAll K ts → BuiltAll K' ts
  | [], _ => trivial
  | t :: rest, h => ⟨Built.mono hK t h.1, BuiltAll.mono hK rest h.2⟩

end

mutual

/-- Without binders, types that are equal up to the names of bound variables are the same. -/
theorem eq_of_eqv (hK : Form.poly ∉ K) : (t u : Ty) → t.Built K → t.eqv u = true → t = u
  | var v, u, _, h => by
    cases u with
    | var w => simpa [eqv] using h
    | _ => simp [eqv] at h
  | rigid n i, u, _, h => by
    cases u with
    | rigid m j => simpa [eqv] using h
    | _ => simp [eqv] at h
  | thunk r, u, ht, h => by
    cases u with
    | thunk s => rw [eq_of_eqv hK r s ht.2 h]
    | _ => simp [eqv] at h
  | fn a r, u, ht, h => by
    cases u with
    | fn b s =>
      have hparts : a.eqv b = true ∧ r.eqv s = true := by simpa [eqv] using h
      rw [eq_of_eqv hK a b ht.2.1 hparts.1, eq_of_eqv hK r s ht.2.2 hparts.2]
    | _ => simp [eqv] at h
  | con n as, u, ht, h => by
    cases u with
    | con m bs =>
      have hparts : n = m ∧ eqvAll as bs = true := by simpa [eqv] using h
      rw [hparts.1, eq_of_eqvAll hK as bs ht.2 hparts.2]
    | _ => simp [eqv] at h
  | poly _ _, _, ht, _ => absurd ht.1 hK
  | never, u, _, h => by cases u <;> simp [eqv] at h ⊢
  | any, u, _, h => by cases u <;> simp [eqv] at h ⊢

theorem eq_of_eqvAll (hK : Form.poly ∉ K) :
    (ts us : List Ty) → BuiltAll K ts → eqvAll ts us = true → ts = us
  | [], us, _, h => by
    rw [eqvAll, List.isEmpty_iff] at h
    exact h.symm
  | t :: ts, us, ht, h => by
    cases us with
    | nil => simp [eqvAll] at h
    | cons u us =>
      have hparts : t.eqv u = true ∧ eqvAll ts us = true := by simpa [eqvAll] using h
      rw [eq_of_eqv hK t u ht.1 hparts.1, eq_of_eqvAll hK ts us ht.2 hparts.2]

end

mutual

theorem Built.apply {σ : Subst} (hσ : ∀ v u, σ.find? v = some u → u.Built K) :
    (t : Ty) → t.Built K → (t.apply σ).Built K
  | var v, h => by
    rw [Ty.apply]
    cases hv : σ.find? v with
    | none => exact h
    | some u => exact hσ v u hv
  | rigid _ _, h => h
  | thunk r, h => ⟨h.1, Built.apply hσ r h.2⟩
  | fn a r, h => ⟨h.1, Built.apply hσ a h.2.1, Built.apply hσ r h.2.2⟩
  | con _ as, h => ⟨h.1, BuiltAll.apply hσ as h.2⟩
  | poly _ b, h => by
    refine ⟨h.1, Built.apply ?_ b h.2⟩
    intro v u hv
    rw [Subst.find?_without, Option.ite_none_left_eq_some] at hv
    exact hσ v u hv.2
  | never, h => h
  | any, h => h

theorem BuiltAll.apply {σ : Subst} (hσ : ∀ v u, σ.find? v = some u → u.Built K) :
    (ts : List Ty) → BuiltAll K ts → BuiltAll K (applyAll σ ts)
  | [], _ => trivial
  | t :: rest, h => ⟨Built.apply hσ t h.1, BuiltAll.apply hσ rest h.2⟩

end

/-! ## Resolving by parts -/

theorem applyAll_eq_map (σ : Subst) (ts : List Ty) : applyAll σ ts = ts.map (apply σ) := by
  induction ts with
  | nil => rfl
  | cons t rest ih => rw [applyAll, ih, List.map_cons]

/-- To resolve is to apply the bindings a number of times: once nothing changes, further rounds do not
either. -/
theorem resolveUpTo_eq_iterate (σ : Subst) (n : Nat) (t : Ty) :
    t.resolveUpTo σ n = (apply σ)^[n] t := by
  induction n generalizing t with
  | zero => rfl
  | succ n ih =>
    rw [resolveUpTo, Function.iterate_succ_apply]
    split
    · rename_i heqv
      have hfix := apply_eq_of_eqv t heqv
      rw [hfix, Function.iterate_fixed hfix]
    · exact ih _

theorem resolve_eq_iterate (σ : Subst) (t : Ty) :
    t.resolve σ = (apply σ)^[σ.length + 1] t := resolveUpTo_eq_iterate σ _ t

theorem resolve_unbound {v : TyVar} (hv : σ.find? v = none) : (var v).resolve σ = var v := by
  rw [resolve_eq_iterate, Function.iterate_fixed]
  rw [apply, hv, Option.getD_none]

end Ty

/-! ## Values -/

/-- What constants and the formers of types without binders mean. -/
structure Algebra (α : Type w) where
  rigid : String → TyVar → α
  thunk : α → α
  fn : α → α → α
  con : String → List α → α
  never : α
  any : α

/-- Constants and formers mean themselves. -/
def Algebra.terms : Algebra Ty := ⟨.rigid, .thunk, .fn, .con, .never, .any⟩

namespace Ty

variable {α : Type w} {A : Algebra α} {K : Set Form} {σ : Subst} {t : Ty}

mutual

/-- What a type means if its variables mean what `ρ` says. A type with binders may be anything. -/
def value (A : Algebra α) (ρ : TyVar → α) : Ty → α
  | var v => ρ v
  | rigid n i => A.rigid n i
  | thunk r => A.thunk (r.value A ρ)
  | fn a r => A.fn (a.value A ρ) (r.value A ρ)
  | con n as => A.con n (values A ρ as)
  | poly _ _ => A.any
  | never => A.never
  | any => A.any

/-- What each of the types means. -/
def values (A : Algebra α) (ρ : TyVar → α) : List Ty → List α
  | [] => []
  | t :: rest => t.value A ρ :: values A ρ rest

end

theorem values_eq_map (A : Algebra α) (ρ : TyVar → α) (ts : List Ty) :
    values A ρ ts = ts.map (value A ρ) := by
  induction ts with
  | nil => rfl
  | cons t rest ih => rw [values, ih, List.map_cons]

/-- The function gives constants their meaning, and respects the formers. -/
structure Respects (A : Algebra α) (h : Ty → α) : Prop where
  rigid : ∀ n i, h (.rigid n i) = A.rigid n i
  thunk : ∀ r, h (.thunk r) = A.thunk (h r)
  fn : ∀ a r, h (.fn a r) = A.fn (h a) (h r)
  con : ∀ n as, h (.con n as) = A.con n (as.map h)
  never : h .never = A.never
  any : h .any = A.any

section Respects

variable {h : Ty → α}

mutual

/-- A function that respects the formers is determined by what it does with variables. -/
theorem Respects.eq_value (hh : Respects A h) (hK : Form.poly ∉ K) : (t : Ty) → t.Built K →
    h t = t.value A fun v => h (.var v)
  | .var _, _ => rfl
  | .rigid n i, _ => hh.rigid n i
  | .thunk r, ht => by rw [hh.thunk, value, hh.eq_value hK r ht.2]
  | .fn a r, ht => by rw [hh.fn, value, hh.eq_value hK a ht.2.1, hh.eq_value hK r ht.2.2]
  | .con n as, ht => by rw [hh.con, value, hh.eq_values hK as ht.2]
  | .poly _ _, ht => absurd ht.1 hK
  | .never, _ => hh.never
  | .any, _ => hh.any

theorem Respects.eq_values (hh : Respects A h) (hK : Form.poly ∉ K) : (ts : List Ty) →
    BuiltAll K ts → ts.map h = values A (fun v => h (.var v)) ts
  | [], _ => rfl
  | t :: rest, ht => by
    rw [List.map_cons, values, hh.eq_value hK t ht.1, hh.eq_values hK rest ht.2]

end

theorem respects_value (A : Algebra α) (ρ : TyVar → α) : Respects A (value A ρ) where
  rigid _ _ := rfl
  thunk _ := rfl
  fn _ _ := rfl
  con n as := by rw [value, values_eq_map]
  never := rfl
  any := rfl

theorem respects_id : Respects .terms id where
  rigid _ _ := rfl
  thunk _ := rfl
  fn _ _ := rfl
  con n as := by rw [List.map_id, id_eq]; rfl
  never := rfl
  any := rfl

theorem respects_apply (σ : Subst) : Respects .terms (apply σ) where
  rigid _ _ := rfl
  thunk _ := rfl
  fn _ _ := rfl
  con n as := by rw [apply, applyAll_eq_map]; rfl
  never := rfl
  any := rfl

theorem Respects.comp {g : Ty → Ty} (hh : Respects A h) (hg : Respects .terms g) :
    Respects A (h ∘ g) where
  rigid n i := by rw [Function.comp, hg.rigid]; exact hh.rigid n i
  thunk r := by rw [Function.comp, hg.thunk]; exact hh.thunk _
  fn a r := by rw [Function.comp, hg.fn]; exact hh.fn _ _
  con n as := by rw [Function.comp, hg.con, ← List.map_map]; exact hh.con _ _
  never := by rw [Function.comp, hg.never]; exact hh.never
  any := by rw [Function.comp, hg.any]; exact hh.any

theorem respects_resolve (σ : Subst) : Respects .terms (resolve σ) := by
  have hrounds : ∀ n, Respects .terms (apply σ)^[n] := by
    intro n
    induction n with
    | zero => exact respects_id
    | succ n ih => exact ih.comp (respects_apply σ)
  have heq : resolve σ = (apply σ)^[σ.length + 1] := funext (resolve_eq_iterate σ)
  rw [heq]
  exact hrounds _

end Respects

/-- The variables of a resolved type stand for what they are resolved to. -/
theorem value_resolve (hK : Form.poly ∉ K) (ht : t.Built K) (σ : Subst) (ρ : TyVar → α) :
    (t.resolve σ).value A ρ = t.value A fun v => ((var v).resolve σ).value A ρ :=
  ((respects_value A ρ).comp (respects_resolve σ)).eq_value hK t ht

/-- A substitution makes the variables of a type stand for what they are bound to. -/
theorem apply_eq_value (hK : Form.poly ∉ K) (ht : t.Built K) (σ : Subst) :
    t.apply σ = t.value .terms fun v => (var v).apply σ :=
  (respects_apply σ).eq_value hK t ht

/-- A type is resolved by resolving its variables. -/
theorem resolve_eq_value (hK : Form.poly ∉ K) (ht : t.Built K) (σ : Subst) :
    t.resolve σ = t.value .terms fun v => (var v).resolve σ :=
  (respects_resolve σ).eq_value hK t ht

mutual

/-- What is free in what a free variable stands for is free in the value of the type. -/
theorem mem_freeVars_value (hK : Form.poly ∉ K) {ρ : TyVar → Ty} {v x : TyVar}
    (hx : x ∈ (ρ v).freeVars) : (t : Ty) → t.Built K → v ∈ t.freeVars →
      x ∈ (t.value .terms ρ).freeVars
  | var w, _, hv => by
    rw [freeVars, List.mem_singleton] at hv
    rwa [value, ← hv]
  | rigid _ _, _, hv => absurd hv List.not_mem_nil
  | thunk r, ht, hv => mem_freeVars_value hK hx r ht.2 hv
  | fn a r, ht, hv => by
    rw [freeVars, List.mem_append] at hv
    refine List.mem_append.mpr ?_
    exact hv.imp (mem_freeVars_value hK hx r ht.2.2) (mem_freeVars_value hK hx a ht.2.1)
  | con _ as, ht, hv => mem_freeVars_values hK hx as ht.2 hv
  | poly _ _, ht, _ => absurd ht.1 hK
  | never, _, hv => absurd hv List.not_mem_nil
  | any, _, hv => absurd hv List.not_mem_nil

theorem mem_freeVars_values (hK : Form.poly ∉ K) {ρ : TyVar → Ty} {v x : TyVar}
    (hx : x ∈ (ρ v).freeVars) : (ts : List Ty) → BuiltAll K ts → v ∈ freeVarsAll ts →
      x ∈ freeVarsAll (values .terms ρ ts)
  | [], _, hv => absurd hv List.not_mem_nil
  | t :: rest, ht, hv => by
    rw [freeVarsAll, List.mem_append] at hv
    refine List.mem_append.mpr ?_
    exact hv.imp (mem_freeVars_value hK hx t ht.1) (mem_freeVars_values hK hx rest ht.2)

end

end Ty

namespace Subst

variable {α : Type w} {A : Algebra α} {K : Set Form} {σ σ' : Subst} {t : Ty} {v : TyVar}

/-! ## Bindings without cycles -/

theorem Acyclic.resolve_bound (h : σ.Acyclic) (hv : σ.find? v = some t) :
    (Ty.var v).resolve σ = t.resolve σ := by
  have hfix := h.apply_resolve (.var v)
  rw [Ty.resolve_eq_iterate, ← Function.iterate_succ_apply' (Ty.apply σ),
    Function.iterate_succ_apply, Ty.apply, hv, Option.getD_some, ← Ty.resolve_eq_iterate] at hfix
  rw [hfix, Ty.resolve_eq_iterate]

/-- Some variable of a finite set is led to by none of them. -/
theorem exists_source (h : ∀ v, ¬ Relation.TransGen σ.Leads v v) {S : Finset TyVar}
    (hS : S.Nonempty) : ∃ v ∈ S, ∀ w ∈ S, ¬ σ.Leads w v := by
  let r : S → S → Prop := fun v w => Relation.TransGen σ.Leads v w
  have : IsTrans S r := ⟨fun _ _ _ => Relation.TransGen.trans⟩
  have : Std.Irrefl r := ⟨fun v => h v⟩
  obtain ⟨v, hv⟩ := hS
  obtain ⟨m, -, hm⟩ := (Finite.wellFounded_of_trans_of_irrefl r).has_min Set.univ ⟨⟨v, hv⟩, trivial⟩
  exact ⟨m, m.2, fun w hw hleads => hm ⟨w, hw⟩ trivial (.single hleads)⟩

/-- Variables among which no one leads to itself can be ordered so that each leads to later ones. -/
theorem exists_layered (h : ∀ v, ¬ Relation.TransGen σ.Leads v v) (S : Finset TyVar)
    (hS : ∀ w ∈ S, ∀ x, σ.Leads w x → σ.find? x ≠ none → x ∈ S) :
    ∃ order : List TyVar, order.length = S.card ∧ (∀ v, v ∈ order ↔ v ∈ S) ∧ σ.Layered order := by
  induction S using Finset.strongInduction with
  | H S ih =>
    rcases S.eq_empty_or_nonempty with rfl | hne
    · exact ⟨[], rfl, by simp, trivial⟩
    obtain ⟨v, hv, hsource⟩ := exists_source h hne
    obtain ⟨order, hlen, hmem, hlayered⟩ := ih (S.erase v) (Finset.erase_ssubset hv) (by
      intro w hw x hleads hbound
      have hwS := Finset.mem_of_mem_erase hw
      refine Finset.mem_erase.mpr ⟨?_, hS w hwS x hleads hbound⟩
      rintro rfl
      exact hsource w hwS hleads)
    have hmem' : ∀ w, w ∈ v :: order ↔ w ∈ S := by
      intro w
      rw [List.mem_cons, hmem, Finset.mem_erase]
      by_cases hwv : w = v <;> simp [hwv, hv]
    refine ⟨v :: order, ?_, hmem', ?_, hlayered⟩
    · rw [List.length_cons, hlen, Finset.card_erase_add_one hv]
    · intro w hw t ht x hx hbound
      have hwS := (hmem' w).mp hw
      rw [hmem, Finset.mem_erase]
      refine ⟨?_, hS w hwS x ⟨t, ht, hx⟩ hbound⟩
      rintro rfl
      exact hsource w hwS ⟨t, ht, hx⟩

theorem acyclic_of_not_leads (h : ∀ v, ¬ Relation.TransGen σ.Leads v v) : σ.Acyclic := by
  have hbound : ∀ {x}, σ.find? x ≠ none → x ∈ (σ.map Prod.fst).toFinset := by
    intro x hx
    obtain ⟨t, ht⟩ := Option.ne_none_iff_exists'.mp hx
    exact List.mem_toFinset.mpr (List.mem_map_of_mem (mem_of_lookup ht))
  obtain ⟨order, hlen, hmem, hlayered⟩ :=
    exists_layered h (σ.map Prod.fst).toFinset fun _ _ _ _ hx => hbound hx
  refine ⟨order, ?_, fun x hx => (hmem x).mpr (hbound hx), hlayered⟩
  rw [hlen]
  exact (List.toFinset_card_le _).trans_eq (List.length_map ..)

/-! ## Solutions -/

/-- No variable leads to itself, and what variables are bound to is built with the forms. -/
structure Tame (K : Set Form) (σ : Subst) : Prop where
  acyclic : σ.Acyclic
  built : ∀ v t, σ.find? v = some t → t.Built K

theorem tame_nil : Tame K [] where
  acyclic := ⟨[], Nat.le_refl _, fun _ h => absurd rfl h, trivial⟩
  built _ _ h := by cases h

/-- Bindings are only added. -/
def Extends (σ σ' : Subst) : Prop := ∀ v t, σ.find? v = some t → σ'.find? v = some t

theorem Extends.refl (σ : Subst) : σ.Extends σ := fun _ _ h => h

theorem Extends.trans {mid : Subst} (h : σ.Extends mid) (h' : mid.Extends σ') : σ.Extends σ' :=
  fun v t hv => h' v t (h v t hv)

theorem extends_insert (hv : σ.find? v = none) (t : Ty) : σ.Extends (σ.insert v t) := by
  intro w u hw
  rw [find?_insert, if_neg, hw]
  rintro rfl
  cases hv.symm.trans hw

/-- The variables mean what they are bound to. -/
def SolvedBy (A : Algebra α) (σ : Subst) (ρ : TyVar → α) : Prop :=
  ∀ v t, σ.find? v = some t → ρ v = t.value A ρ

theorem SolvedBy.of_extends {ρ : TyVar → α} (h : σ'.SolvedBy A ρ) (hext : σ.Extends σ') :
    σ.SolvedBy A ρ := fun v t hv => h v t (hext v t hv)

/-- Every choice for the unbound variables extends to a solution. -/
theorem Tame.solvedBy_resolve (h : σ.Tame K) (hK : Form.poly ∉ K) (ρ : TyVar → α) :
    σ.SolvedBy A fun v => ((Ty.var v).resolve σ).value A ρ := by
  intro v t hv
  dsimp only
  rw [h.acyclic.resolve_bound hv, Ty.value_resolve hK (h.built v t hv)]

/-- A solution gives a type and its resolved form the same value. -/
theorem Tame.value_resolve (h : σ.Tame K) (hK : Form.poly ∉ K) {ρ : TyVar → α}
    (hρ : σ.SolvedBy A ρ) (ht : t.Built K) : (t.resolve σ).value A ρ = t.value A ρ := by
  have hvars : ∀ v, ((Ty.var v).apply σ).value A ρ = ρ v := by
    intro v
    rw [Ty.apply]
    cases hv : σ.find? v with
    | none => rfl
    | some u => exact (hρ v u hv).symm
  rw [Ty.resolve_eq_iterate]
  generalize σ.length + 1 = n
  induction n generalizing t with
  | zero => rfl
  | succ n ih =>
    rw [Function.iterate_succ_apply, ih (Ty.Built.apply h.built t ht)]
    have happly := ((Ty.respects_value A ρ).comp (Ty.respects_apply σ)).eq_value hK t ht
    simpa only [Function.comp, hvars] using happly

theorem SolvedBy.value_shallow {ρ : TyVar → α} (hρ : σ.SolvedBy A ρ) (n : Nat) (t : Ty) :
    (Unifier.shallowUpTo σ n t).value A ρ = t.value A ρ := by
  refine shallowUpTo_induct (p := fun s => s.value A ρ = t.value A ρ) rfl (fun v s hsame hv => ?_) n
  rw [← hsame, ← hρ v s hv, Ty.value]

theorem Tame.built_resolve (h : σ.Tame K) (ht : t.Built K) : (t.resolve σ).Built K :=
  resolve_induct (p := fun t => t.Built K) ht fun t ht => Ty.Built.apply h.built t ht

/-- An unbound variable that is not free in the resolved type is not reached. -/
theorem Tame.not_reaches (h : σ.Tame K) (hK : Form.poly ∉ K) (ht : t.Built K)
    (hv : σ.find? v = none) (hfree : v ∉ (t.resolve σ).freeVars) : ¬ σ.Reaches t v := by
  -- What a reached variable is resolved to occurs in the resolved type.
  have hreached : ∀ x, σ.Reaches t x → ∀ y ∈ ((Ty.var x).resolve σ).freeVars,
      y ∈ (t.resolve σ).freeVars := by
    intro x hx
    induction hx with
    | free hx =>
      intro y hy
      rw [Ty.resolve_eq_value hK ht]
      exact Ty.mem_freeVars_value hK hy t ht hx
    | @bound w x u _ hu hxu ih =>
      intro y hy
      refine ih y ?_
      rw [h.acyclic.resolve_bound hu, Ty.resolve_eq_value hK (h.built w u hu)]
      exact Ty.mem_freeVars_value hK hy u (h.built w u hu) hxu
  intro hr
  refine hfree (hreached v hr v ?_)
  rw [Ty.resolve_unbound hv]
  exact List.mem_singleton_self v

theorem Tame.insert (h : σ.Tame K) (hK : Form.poly ∉ K) (ht : t.Built K) (hv : σ.find? v = none)
    (hfree : v ∉ (t.resolve σ).freeVars) : (σ.insert v t).Tame K where
  acyclic := h.acyclic.insert (h.not_reaches hK ht hv hfree) hv
  built w u hu := by
    rw [find?_insert] at hu
    split at hu
    · cases hu
      exact ht
    · exact h.built w u hu

end Subst

end ProofScript
