import Mathlib.Order.ConditionallyCompleteLattice.Basic
import Mathlib.Data.List.Forall2
import Mathlib.Order.CompleteBooleanAlgebra
import Mathlib.Order.CompletePartialOrder
import Mathlib.Order.Hom.Order
import ProofScript.Generate
import ProofScript.Proofs.Lookups
import ProofScript.Ty.Subst

/-!
# Meaning

What propositions, annotations and types say. An assignment reads atoms as propositions, and a
quantifier ranges over all propositions. A type has a sense in an interpretation of its variables
and rigid constants; a type that a checked program has holds in every one. Types that are equal up
to the names of their bound variables have the same sense.

An atom with an argument is a predicate. A type that may be put in the place of another one may be
put there below a predicate as well, so senses are ordered: predicates respect implication.
-/

namespace ProofScript

open Program

/-! ## Propositions -/

/-- Is the proposition true if atoms are read by `v`? A bound atom may stand for any proposition. -/
def Formula.holds (v : String → Prop) : Formula → Prop
  | .hole => False
  | .atom name _ _ => v name
  | .neg a _ => ¬ a.holds v
  | .conj a b _ => a.holds v ∧ b.holds v
  | .disj a b _ => a.holds v ∨ b.holds v
  | .impl a b _ => a.holds v → b.holds v
  | .all vars a _ => ∀ w : String → Prop, (∀ name, name ∉ vars → w name = v name) → a.holds w

/-- Is the proposition true if atoms are read by `v`, and by `P` where they have an argument? A
bound atom may stand for any proposition, and for any predicate of the class `K`. -/
def Formula.holdsFor (K : (Prop → Prop) → Prop) (v : String → Prop) (P : String → Prop → Prop) :
    Formula → Prop
  | .hole => False
  | .atom name [] _ => v name
  | .atom name (arg :: _) _ => P name (v arg)
  | .neg a _ => ¬ a.holdsFor K v P
  | .conj a b _ => a.holdsFor K v P ∧ b.holdsFor K v P
  | .disj a b _ => a.holdsFor K v P ∨ b.holdsFor K v P
  | .impl a b _ => a.holdsFor K v P → b.holdsFor K v P
  | .all vars a _ =>
    ∀ (w : String → Prop) (Q : String → Prop → Prop), (∀ name, K (Q name)) →
      (∀ name, name ∉ vars → w name = v name ∧ Q name = P name) → a.holdsFor K w Q

/-- Has no atom of the proposition arguments? -/
def Formula.propositional : Formula → Bool
  | .hole => true
  | .atom _ args _ => args.isEmpty
  | .neg a _ => a.propositional
  | .conj a b _ => a.propositional && b.propositional
  | .disj a b _ => a.propositional && b.propositional
  | .impl a b _ => a.propositional && b.propositional
  | .all _ a _ => a.propositional

/-- What predicates stand for is irrelevant to a proposition without arguments. -/
theorem Formula.holdsFor_iff_holds {K : (Prop → Prop) → Prop} {f : Formula}
    (hf : f.propositional = true) {v : String → Prop} {P : String → Prop → Prop}
    (hP : ∀ name, K (P name)) : f.holdsFor K v P ↔ f.holds v := by
  induction f generalizing v P with
  | hole => exact Iff.rfl
  | atom name args loc =>
    obtain rfl : args = [] := by simpa [propositional] using hf
    exact Iff.rfl
  | neg a _ ih => exact not_congr (ih hf hP)
  | conj a b _ iha ihb =>
    rw [propositional, Bool.and_eq_true] at hf
    exact and_congr (iha hf.1 hP) (ihb hf.2 hP)
  | disj a b _ iha ihb =>
    rw [propositional, Bool.and_eq_true] at hf
    exact or_congr (iha hf.1 hP) (ihb hf.2 hP)
  | impl a b _ iha ihb =>
    rw [propositional, Bool.and_eq_true] at hf
    exact imp_congr (iha hf.1 hP) (ihb hf.2 hP)
  | all vars a _ ih =>
    constructor
    · intro h w hw
      exact (ih hf hP).mp (h w P hP fun name hname => ⟨hw name hname, rfl⟩)
    · intro h w Q hQ hagree
      exact (ih hf hQ).mpr (h w fun name hname => (hagree name hname).1)

/-- The hypotheses that a theorem takes as parameters. -/
def Theorem.hypotheses (t : Theorem) : List Formula :=
  (Generate.sequent? t).elim [] fun s => s.1.map Claim.formula

/-- A theorem that takes its hypotheses as parameters assumes them in its whole proof. -/
theorem Generate.sequent?_eq_some {t : Theorem} {hyps : List Claim} {p : Proof}
    (h : Generate.sequent? t = some (hyps, p)) :
    ∃ loc loc', t.proof = .mk (.last (.block (.assume hyps p loc))) loc' := by
  obtain ⟨claim, ⟨st, loc'⟩, at_⟩ := t
  unfold Generate.sequent? at h
  split at h
  · cases h
  · cases h
  split at h
  · rename_i hyps' p' loc hsteps
    obtain rfl : st = .last (.block (.assume hyps' p' loc)) := hsteps
    obtain ⟨rfl, rfl⟩ : hyps' = hyps ∧ p' = p := by simpa using h
    exact ⟨loc, loc', rfl⟩
  · cases h

/-- The claim follows from the hypotheses, however its atoms other than `True` and `False` are
read. -/
def Theorem.Valid (t : Theorem) : Prop :=
  ∀ v : String → Prop, v "True" → ¬ v "False" → (∀ f ∈ t.hypotheses, f.holds v) →
    t.claim.formula.holds v

/-- The claim follows from the hypotheses, however its atoms other than `True` and `False` are read
as propositions, and as predicates of the class `K`. As a predicate, `False` holds of nothing. -/
def Theorem.ValidFor (K : (Prop → Prop) → Prop) (t : Theorem) : Prop :=
  ∀ (v : String → Prop) (P : String → Prop → Prop), (∀ name, K (P name)) → v "True" →
    ¬ v "False" → (∀ p, ¬ P "False" p) → (∀ f ∈ t.hypotheses, f.holdsFor K v P) →
      t.claim.formula.holdsFor K v P

/-- A theorem without arguments is valid if it is for a class that has the empty predicate. -/
theorem Theorem.ValidFor.valid {K : (Prop → Prop) → Prop} {t : Theorem} (h : t.ValidFor K)
    (hK : K fun _ => False) (hclaim : t.claim.formula.propositional = true)
    (hhyps : ∀ f ∈ t.hypotheses, f.propositional = true) : t.Valid := by
  intro v htrue hfalse hholds
  have hP : ∀ _ : String, K fun _ => False := fun _ => hK
  refine (Formula.holdsFor_iff_holds hclaim hP).mp (h v _ hP htrue hfalse (fun _ => id) ?_)
  intro f hf
  exact (Formula.holdsFor_iff_holds (hhyps f hf) hP).mpr (hholds f hf)

/-! ## Types -/

/-- What a type says: whether it holds, and of which propositions it holds as a predicate. -/
abbrev Sense := Prop × (Prop →o Prop)

namespace Sense

/-- The sense of a type that is no name. As a predicate, it holds of everything. -/
noncomputable def ofProp (p : Prop) : Sense := (p, ⊤)

@[simp]
theorem ofProp_fst (p : Prop) : (ofProp p).1 = p := rfl

theorem ofProp_mono {p q : Prop} (h : p → q) : ofProp p ≤ ofProp q := ⟨h, le_rfl⟩

theorem iInf_ofProp {ι : Sort*} (p : ι → Prop) : ⨅ i, ofProp (p i) = ofProp (∀ i, p i) := by
  refine Prod.ext ?_ ?_
  · rw [Prod.fst_iInf]
    exact iInf_Prop_eq
  · rw [Prod.snd_iInf]
    exact iInf_top

end Sense

/-- What the variables and the rigid constants of types stand for. -/
@[ext] structure Valuation where
  vars : TyVar → Sense
  consts : String → TyVar → Sense

namespace Valuation

/-- What a rigid constant stands for. The constant of truth holds. -/
def const (ρ : Valuation) (name : String) (id : TyVar) : Sense :=
  (name = "True" ∧ id = 0 ∨ (ρ.consts name id).1, (ρ.consts name id).2)

/-- What truth stands for. -/
def truth (ρ : Valuation) : Sense := ρ.const "True" 0

/-- The interpretation with other meanings of some variables. -/
def rebind (ρ : Valuation) (vs : List TyVar) (f : TyVar → Sense) : Valuation :=
  ⟨fun v => if v ∈ vs then f v else ρ.vars v, ρ.consts⟩

end Valuation

/-- The meaning of a constructor at its arguments. One that is no connective says nothing. -/
def connective : String → List Sense → Prop
  | "And", [a, b] => a.1 ∧ b.1
  | "Or", [a, b] => a.1 ∨ b.1
  | "Apply", [p, a] => p.2 a.1
  | _, _ => True

namespace Ty

mutual

/-- What a value of the type proves. -/
noncomputable def sense (ρ : Valuation) : Ty → Sense
  | var v => ρ.vars v
  | rigid n i => ρ.const n i
  | thunk r => .ofProp (r.sense ρ).1
  | fn a r => .ofProp ((a.sense ρ).1 → (r.sense ρ).1)
  | con n as => .ofProp (connective n (senses ρ as))
  | poly ps b => ⨅ f : TyVar → Sense, b.sense (ρ.rebind (ps.map Prod.snd) f)
  | never => ⊥
  | any => ⊤

/-- What each type says. -/
noncomputable def senses (ρ : Valuation) : List Ty → List Sense
  | [] => []
  | t :: rest => t.sense ρ :: senses ρ rest

end

/-- Does a value of the type prove something true? -/
def holds (ρ : Valuation) (t : Ty) : Prop := (t.sense ρ).1

theorem holds_poly (ρ : Valuation) (ps : List (String × TyVar)) (b : Ty) :
    (poly ps b).holds ρ ↔ ∀ f, b.holds (ρ.rebind (ps.map Prod.snd) f) := by
  rw [holds, sense, Prod.fst_iInf, iInf_Prop_eq]
  rfl

/-- Are two variables the same below binders that are paired, innermost first? -/
def paired : List (TyVar × TyVar) → TyVar → TyVar → Bool
  | [], v, w => v = w
  | (a, b) :: rest, v, w => if a = v ∨ b = w then a = v && b = w else paired rest v w

mutual

/-- Are two types equal up to the names of bound variables, below binders that are paired? -/
def alphaEq (env : List (TyVar × TyVar)) : Ty → Ty → Bool
  | var v, u =>
    match u with
    | var w => paired env v w
    | _ => false
  | rigid n i, u =>
    match u with
    | rigid m j => n = m && i = j
    | _ => false
  | thunk r, u =>
    match u with
    | thunk s => r.alphaEq env s
    | _ => false
  | fn a r, u =>
    match u with
    | fn b s => a.alphaEq env b && r.alphaEq env s
    | _ => false
  | con n as, u =>
    match u with
    | con m bs => n = m && alphaEqAll env as bs
    | _ => false
  | poly ps b, u =>
    match u with
    | poly qs c =>
      ps.length = qs.length &&
        b.alphaEq (((ps.map Prod.snd).zip (qs.map Prod.snd)).reverse ++ env) c
    | _ => false
  | never, u =>
    match u with
    | never => true
    | _ => false
  | any, u =>
    match u with
    | any => true
    | _ => false

/-- Are types equal in order up to the names of bound variables, below binders that are paired? -/
def alphaEqAll (env : List (TyVar × TyVar)) : List Ty → List Ty → Bool
  | [], us => us.isEmpty
  | t :: ts, us =>
    match us with
    | [] => false
    | u :: us => t.alphaEq env u && alphaEqAll env ts us

end

end Ty

/-! ## Annotations -/

/-- The sense of a type of the library at its arguments, where that of truth is given. -/
noncomputable def aliasSense (truth : Sense) : String → List Sense → Sense
  | "True", _ => truth
  | "False", _ => ⊥
  | "Impl", [a, b] => .ofProp (a.1 → b.1)
  | "Not", [a] => .ofProp (¬ a.1)
  | name, args => .ofProp (connective name args)

section

variable (truth a b : Sense)

theorem aliasSense_true : aliasSense truth "True" [] = truth := rfl

theorem aliasSense_false : aliasSense truth "False" [] = ⊥ := rfl

theorem aliasSense_and : aliasSense truth "And" [a, b] = .ofProp (a.1 ∧ b.1) := rfl

theorem aliasSense_or : aliasSense truth "Or" [a, b] = .ofProp (a.1 ∨ b.1) := rfl

theorem aliasSense_impl : aliasSense truth "Impl" [a, b] = .ofProp (a.1 → b.1) := rfl

theorem aliasSense_apply : aliasSense truth "Apply" [a, b] = .ofProp (a.2 b.1) := rfl

end

mutual

/-- What an annotation says, where type parameters stand for senses, innermost first. -/
noncomputable def Program.TypeExpr.sense (truth : Sense) (env : List (String × Sense)) :
    TypeExpr → Sense
  | .ref name args =>
    (env.lookup name).getD (aliasSense truth name (TypeExpr.senses truth env args))
  | .func tparams params ret =>
    .ofProp (∀ ps : List Sense, ps.length = tparams.length →
      let inner := (tparams.zip ps).reverse ++ env
      (∀ p ∈ TypeExpr.paramSenses truth inner params, p.1) → (ret.sense truth inner).1)
  | .keyword "never" => ⊥
  | _ => ⊤

/-- What each annotation says. -/
noncomputable def Program.TypeExpr.senses (truth : Sense) (env : List (String × Sense)) :
    List TypeExpr → List Sense
  | [] => []
  | t :: rest => t.sense truth env :: TypeExpr.senses truth env rest

/-- What the annotation of each parameter says. -/
noncomputable def Program.TypeExpr.paramSenses (truth : Sense) (env : List (String × Sense)) :
    List Param → List Sense
  | [] => []
  | (_, t) :: rest => t.sense truth env :: TypeExpr.paramSenses truth env rest

end

/-! ## Interpretations -/

theorem connective_mono {name : String} {as bs : List Sense} (h : List.Forall₂ (· ≤ ·) as bs) :
    connective name as → connective name bs := by
  intro ha
  unfold connective at ha ⊢
  split at ha
  · rcases h with _ | ⟨h₁, h⟩
    rcases h with _ | ⟨h₂, h⟩
    rcases h with _ | _
    exact ⟨h₁.1 ha.1, h₂.1 ha.2⟩
  · rcases h with _ | ⟨h₁, h⟩
    rcases h with _ | ⟨h₂, h⟩
    rcases h with _ | _
    exact ha.imp h₁.1 h₂.1
  · rcases h with _ | ⟨h₁, h⟩
    rcases h with _ | ⟨h₂, h⟩
    rcases h with _ | _
    have hle := (h₁.2 _).trans (OrderHom.mono _ h₂.1)
    exact hle ha
  · rename_i hand hor happly
    split
    · rcases h with _ | ⟨h₁, h⟩
      rcases h with _ | ⟨h₂, h⟩
      rcases h with _ | _
      exact absurd rfl (hand _ _ rfl)
    · rcases h with _ | ⟨h₁, h⟩
      rcases h with _ | ⟨h₂, h⟩
      rcases h with _ | _
      exact absurd rfl (hor _ _ rfl)
    · rcases h with _ | ⟨h₁, h⟩
      rcases h with _ | ⟨h₂, h⟩
      rcases h with _ | _
      exact absurd rfl (happly _ _ rfl)
    · trivial

namespace Valuation

variable {ρ ρ' : Valuation} {vs : List TyVar} {f : TyVar → Sense} {v : TyVar}

theorem rebind_vars_of_mem (h : v ∈ vs) : (ρ.rebind vs f).vars v = f v := by
  simp [rebind, h]

theorem rebind_vars_of_not_mem (h : v ∉ vs) : (ρ.rebind vs f).vars v = ρ.vars v := by
  simp [rebind, h]

theorem rebind_const (n : String) (i : TyVar) : (ρ.rebind vs f).const n i = ρ.const n i := rfl

end Valuation

namespace Ty

mutual

/-- What a type says depends on its free variables and its rigid constants only. -/
theorem sense_congr {ρ ρ' : Valuation} : (t : Ty) →
    (∀ v ∈ t.freeVars, ρ.vars v = ρ'.vars v) →
    (∀ n i, t.mentions n i = true → ρ.const n i = ρ'.const n i) → t.sense ρ = t.sense ρ'
  | var v, hv, _ => hv v (by simp [freeVars])
  | rigid n i, _, hc => hc n i (by simp [mentions])
  | thunk r, hv, hc => by rw [sense, sense, sense_congr r hv hc]
  | fn a r, hv, hc => by
    have ha := sense_congr a (fun v h => hv v (by simp [freeVars, h]))
      (fun n i h => hc n i (by simp [mentions, h]))
    have hr := sense_congr r (fun v h => hv v (by simp [freeVars, h]))
      (fun n i h => hc n i (by simp [mentions, h]))
    rw [sense, sense, ha, hr]
  | con n as, hv, hc => by
    rw [sense, sense, senses_congr as hv hc]
  | poly ps b, hv, hc => by
    rw [sense, sense]
    refine iInf_congr fun f => sense_congr b ?_ hc
    intro v h
    by_cases hp : v ∈ ps.map Prod.snd
    · rw [Valuation.rebind_vars_of_mem hp, Valuation.rebind_vars_of_mem hp]
    · rw [Valuation.rebind_vars_of_not_mem hp, Valuation.rebind_vars_of_not_mem hp]
      exact hv v (by simpa [freeVars, h] using hp)
  | never, _, _ => rfl
  | any, _, _ => rfl

theorem senses_congr {ρ ρ' : Valuation} : (ts : List Ty) →
    (∀ v ∈ freeVarsAll ts, ρ.vars v = ρ'.vars v) →
    (∀ n i, mentionsAny n i ts = true → ρ.const n i = ρ'.const n i) → senses ρ ts = senses ρ' ts
  | [], _, _ => rfl
  | t :: rest, hv, hc => by
    have ht := sense_congr t (fun v h => hv v (by simp [freeVarsAll, h]))
      (fun n i h => hc n i (by simp [mentionsAny, h]))
    have hrest := senses_congr rest (fun v h => hv v (by simp [freeVarsAll, h]))
      (fun n i h => hc n i (by simp [mentionsAny, h]))
    rw [senses, senses, ht, hrest]

end

/-! ## Equality up to bound variables -/

/-- Paired variables are partners in the innermost binders, or free in them and paired outside. -/
theorem paired_append {zs env : List (TyVar × TyVar)} {v w : TyVar}
    (h : paired (zs ++ env) v w = true) :
    zs.lookup v = some w ∧ (zs.map Prod.swap).lookup w = some v ∨
      v ∉ zs.map Prod.fst ∧ w ∉ zs.map Prod.snd ∧ paired env v w = true := by
  induction zs with
  | nil => exact .inr ⟨by simp, by simp, h⟩
  | cons z zs ih =>
    obtain ⟨a, b⟩ := z
    simp only [List.cons_append, paired] at h
    split at h
    · have hab : a = v ∧ b = w := by simpa using h
      rcases hab with ⟨rfl, rfl⟩
      left
      simp
    · rename_i hne
      have hav : (v == a) = false := by
        simp only [beq_eq_false_iff_ne, ne_eq]
        exact fun heq => hne (.inl heq.symm)
      have hbw : (w == b) = false := by
        simp only [beq_eq_false_iff_ne, ne_eq]
        exact fun heq => hne (.inr heq.symm)
      rcases ih h with ⟨hv, hw⟩ | ⟨hv, hw, hrest⟩
      · left
        simp [List.lookup_cons, hav, hbw, hv, hw]
      · right
        simp only [beq_eq_false_iff_ne, ne_eq] at hav hbw
        simp [hav, hbw, hrest] at hv hw ⊢
        exact ⟨hv, hw⟩

/-- Interpretations that agree on paired variables still agree below binders that are paired, if the
new meanings of the second binders are those of their partners. -/
theorem rebind_agree {ρ ρ' : Valuation} {as bs : List TyVar} {env : List (TyVar × TyVar)}
    (hlen : as.length = bs.length) (h : ∀ v w, paired env v w = true → ρ.vars v = ρ'.vars w)
    {f g : TyVar → Sense}
    (hfg : ∀ v w, (as.zip bs).reverse.lookup v = some w →
      ((as.zip bs).reverse.map Prod.swap).lookup w = some v → f v = g w) (v w : TyVar)
    (hvw : paired ((as.zip bs).reverse ++ env) v w = true) :
    (ρ.rebind as f).vars v = (ρ'.rebind bs g).vars w := by
  have hfst : (as.zip bs).reverse.map Prod.fst = as.reverse := by
    rw [List.map_reverse, List.map_fst_zip (Nat.le_of_eq hlen)]
  have hsnd : (as.zip bs).reverse.map Prod.snd = bs.reverse := by
    rw [List.map_reverse, List.map_snd_zip (Nat.le_of_eq hlen.symm)]
  rcases paired_append hvw with ⟨hv, hw⟩ | ⟨hv, hw, henv⟩
  · have hmem : (v, w) ∈ as.zip bs := List.mem_reverse.mp (mem_of_lookup hv)
    rw [Valuation.rebind_vars_of_mem (List.of_mem_zip hmem).1,
      Valuation.rebind_vars_of_mem (List.of_mem_zip hmem).2]
    exact hfg v w hv hw
  · rw [hfst, List.mem_reverse] at hv
    rw [hsnd, List.mem_reverse] at hw
    rw [Valuation.rebind_vars_of_not_mem hv, Valuation.rebind_vars_of_not_mem hw]
    exact h v w henv

mutual

/-- Types that are equal up to bound variables say the same. -/
theorem sense_of_alphaEq {ρ ρ' : Valuation} {env : List (TyVar × TyVar)}
    (hc : ρ.consts = ρ'.consts) (hv : ∀ v w, paired env v w = true → ρ.vars v = ρ'.vars w) :
    (t u : Ty) → t.alphaEq env u = true → t.sense ρ = u.sense ρ'
  | var v, u, h => by
    cases u with
    | var w => exact hv v w h
    | _ => simp [alphaEq] at h
  | rigid n i, u, h => by
    cases u with
    | rigid m j =>
      have hsame : n = m ∧ i = j := by simpa [alphaEq] using h
      rw [sense, sense, Valuation.const, Valuation.const, hc, hsame.1, hsame.2]
    | _ => simp [alphaEq] at h
  | thunk r, u, h => by
    cases u with
    | thunk s => rw [sense, sense, sense_of_alphaEq hc hv r s h]
    | _ => simp [alphaEq] at h
  | fn a r, u, h => by
    cases u with
    | fn b s =>
      have hboth : a.alphaEq env b = true ∧ r.alphaEq env s = true := by simpa [alphaEq] using h
      rw [sense, sense, sense_of_alphaEq hc hv a b hboth.1, sense_of_alphaEq hc hv r s hboth.2]
    | _ => simp [alphaEq] at h
  | con n as, u, h => by
    cases u with
    | con m bs =>
      have hboth : n = m ∧ alphaEqAll env as bs = true := by simpa [alphaEq] using h
      rw [sense, sense, hboth.1, senses_of_alphaEq hc hv as bs hboth.2]
    | _ => simp [alphaEq] at h
  | poly ps b, u, h => by
    cases u with
    | poly qs c =>
      simp only [alphaEq, Bool.and_eq_true, decide_eq_true_eq] at h
      have hlen : (ps.map Prod.snd).length = (qs.map Prod.snd).length := by simpa using h.1
      rw [sense, sense]
      refine le_antisymm (le_iInf fun g => ?_) (le_iInf fun f => ?_)
      · -- Each first binder means what its partner means.
        have hsame : b.sense (ρ.rebind (ps.map Prod.snd) fun v =>
            (((ps.map Prod.snd).zip (qs.map Prod.snd)).reverse.lookup v).elim ⊥ g) =
              c.sense (ρ'.rebind (qs.map Prod.snd) g) := by
          refine sense_of_alphaEq ?_ (rebind_agree hlen hv ?_) b c h.2
          · exact hc
          · intro v w hl _
            simp only [hl, Option.elim]
        exact hsame ▸ iInf_le _ _
      · have hsame : b.sense (ρ.rebind (ps.map Prod.snd) f) =
            c.sense (ρ'.rebind (qs.map Prod.snd) fun w =>
              ((((ps.map Prod.snd).zip (qs.map Prod.snd)).reverse.map Prod.swap).lookup w).elim
                ⊥ f) := by
          refine sense_of_alphaEq ?_ (rebind_agree hlen hv ?_) b c h.2
          · exact hc
          · intro v w _ hr
            simp only [hr, Option.elim]
        exact hsame ▸ iInf_le _ _
    | _ => simp [alphaEq] at h
  | never, u, h => by
    cases u with
    | never => rfl
    | _ => simp [alphaEq] at h
  | any, u, h => by
    cases u with
    | any => rfl
    | _ => simp [alphaEq] at h

theorem senses_of_alphaEq {ρ ρ' : Valuation} {env : List (TyVar × TyVar)}
    (hc : ρ.consts = ρ'.consts) (hv : ∀ v w, paired env v w = true → ρ.vars v = ρ'.vars w) :
    (ts us : List Ty) → alphaEqAll env ts us = true → senses ρ ts = senses ρ' us
  | [], us, h => by
    cases us with
    | nil => rfl
    | cons => simp [alphaEqAll] at h
  | t :: ts, us, h => by
    cases us with
    | nil => simp [alphaEqAll] at h
    | cons u us =>
      have hboth : t.alphaEq env u = true ∧ alphaEqAll env ts us = true := by
        simpa [alphaEqAll] using h
      rw [senses, senses, sense_of_alphaEq hc hv t u hboth.1, senses_of_alphaEq hc hv ts us hboth.2]

end

-- The equality of the checker renames bound variables without avoiding capture. It takes a type that
-- always holds for one that never does.
example : ∃ t u : Ty, t.eqv u = true ∧ t.alphaEq [] u = false ∧ ∀ ρ, t.holds ρ ∧ ¬ u.holds ρ := by
  refine ⟨poly [("A", 1)] (poly [("B", 2)] (fn (var 2) (var 2))),
    poly [("A", 2)] (poly [("B", 1)] (fn (var 1) (var 2))), by decide, by decide, ?_⟩
  intro ρ
  refine ⟨?_, ?_⟩
  · exact (holds_poly _ _ _).mpr fun _ => (holds_poly _ _ _).mpr fun _ h => h
  · intro h
    rw [holds_poly] at h
    have hinner := (holds_poly _ _ _).mp (h fun _ => ⊥) fun _ => ⊤
    simp [holds, sense, Valuation.rebind] at hinner

end Ty

end ProofScript
