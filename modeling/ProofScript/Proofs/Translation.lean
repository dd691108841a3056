import ProofScript.Proofs.Checking.Annotations
import ProofScript.Proofs.Spelling

/-!
# The types of propositions

A proposition that was read becomes an annotation that says what the proposition says, where the
type parameters stand for what an assignment says of their atoms.
-/

namespace ProofScript

open Program

/-! ## Type parameters of atoms -/

/-- A type variable has no sign that escaping adds. -/
theorem IsTypeVar.ne_append {a b : String} (h : IsTypeVar a) : a ≠ b ++ "$" := by
  rcases h with ⟨c, w, hc, hw, rfl⟩
  intro heq
  have hword : ∀ x ∈ c :: w, isWordByte x = true := by
    intro x hx
    rcases List.mem_cons.mp hx with rfl | hx
    · exact isWordByte_of_upper hc
    · exact hw x hx
  have hbytes := congrArg Text.bytes heq
  have hsign : Text.bytes "$" = [0x24] := Text.bytes_of_toList rfl
  rw [Text.bytes_ofBytes fun x hx => ascii_of_word (hword x hx), Text.bytes_append, hsign] at hbytes
  have hmem : (0x24 : UInt8) ∈ c :: w := by simp [hbytes]
  have hfalse := hword _ hmem
  revert hfalse
  decide

theorem escapeTypeVar_inj {a b : String} (ha : IsTypeVar a) (hb : IsTypeVar b)
    (h : escapeTypeVar a = escapeTypeVar b) : a = b := by
  unfold escapeTypeVar at h
  split at h
  · split at h
    · exact (String.append_left_inj _).mp h
    · exact absurd h.symm hb.ne_append
  · split at h
    · exact absurd h ha.ne_append
    · exact h

theorem escapeTypeVar_eq_constant {a : String}
    (h : escapeTypeVar a = "True" ∨ escapeTypeVar a = "False") :
    escapeTypeVar a = a := by
  unfold escapeTypeVar at h ⊢
  split
  · rename_i hmem
    rw [if_pos hmem] at h
    revert h
    simp only [libraryTypeNames, List.mem_cons, List.not_mem_nil, or_false] at hmem
    rcases hmem with rfl | rfl | rfl | rfl | rfl
    all_goals decide
  · rfl

/-- No atom becomes a type of the library. -/
theorem escapeTypeVar_not_mem (a : String) : escapeTypeVar a ∉ libraryTypeNames := by
  unfold escapeTypeVar
  split
  · rename_i hmem
    simp only [libraryTypeNames, List.mem_cons, List.not_mem_nil, or_false] at hmem
    rcases hmem with rfl | rfl | rfl | rfl | rfl
    all_goals decide
  · assumption

/-- The annotation of a proposition. -/
def Formula.typeExpr : Formula → TypeExpr
  | .hole => .missing
  | .atom name [] _ => .ref (escapeTypeVar name) []
  | .atom name (arg :: _) _ =>
    .ref "Apply" [.ref (escapeTypeVar name) [], .ref (escapeTypeVar arg) []]
  | .neg a _ => .ref "Not" [a.typeExpr]
  | .conj a b _ => .ref "And" [a.typeExpr, b.typeExpr]
  | .disj a b _ => .ref "Or" [a.typeExpr, b.typeExpr]
  | .impl a b _ => .ref "Impl" [a.typeExpr, b.typeExpr]
  | .all vars a _ => vars.foldr (fun v t => .func [escapeTypeVar v] [] t) a.typeExpr

/-- Type parameters stand for what the assignment says of their atoms, and it reads the constants as
usual unless they are type parameters. No connective is one. -/
structure Agrees (truth : Sense) (env : List (String × Sense)) (v : String → Sense) : Prop where
  connectives : ∀ name ∈ libraryTypeNames, name ∉ env.map Prod.fst
  params : ∀ a p, IsTypeVar a → env.lookup (escapeTypeVar a) = some p → p = v a
  truth : env.lookup "True" = none → truth = v "True"
  falsity : env.lookup "False" = none → ⊥ = v "False"

namespace Agrees

variable {truth : Sense} {env : List (String × Sense)} {v : String → Sense}

/-- A bound atom may stand for anything. -/
theorem bind (h : Agrees truth env v) {x : String} (hx : IsTypeVar x) (p : Sense) :
    Agrees truth ((escapeTypeVar x, p) :: env) (Function.update v x p) := by
  have hother : ∀ {n : String}, List.lookup n ((escapeTypeVar x, p) :: env) = none →
      escapeTypeVar n = n → n ≠ x ∧ env.lookup n = none := by
    intro n hn hself
    by_cases heq : n = escapeTypeVar x
    · simp [heq] at hn
    · have hbeq : (n == escapeTypeVar x) = false := by simpa using heq
      refine ⟨fun hnx => heq (by rw [← hnx, hself]), ?_⟩
      simpa [List.lookup_cons, hbeq] using hn
  refine ⟨?_, ?_, ?_, ?_⟩
  · intro name hname hmem
    rcases List.mem_cons.mp hmem with rfl | hmem
    · exact escapeTypeVar_not_mem x hname
    · exact h.connectives name hname hmem
  · intro a q ha hlookup
    by_cases heq : a = x
    · subst heq
      rw [List.lookup_cons_self] at hlookup
      rw [Function.update_self, Option.some.inj hlookup]
    · have hbeq : (escapeTypeVar a == escapeTypeVar x) = false := by
        simpa using fun h => heq (escapeTypeVar_inj ha hx h)
      rw [Function.update_of_ne heq]
      refine h.params a q ha ?_
      simpa [List.lookup_cons, hbeq] using hlookup
  · intro hnone
    rcases hother hnone (by decide) with ⟨hne, hnone⟩
    rw [Function.update_of_ne hne]
    exact h.truth hnone
  · intro hnone
    rcases hother hnone (by decide) with ⟨hne, hnone⟩
    rw [Function.update_of_ne hne]
    exact h.falsity hnone

/-- The type of an atom says what the assignment says of it. -/
theorem atom (h : Agrees truth env v) {a : String} (ha : IsTypeVar a)
    (hknown : (TypeExpr.ref (escapeTypeVar a) []).Known (env.map Prod.fst)) :
    (TypeExpr.ref (escapeTypeVar a) []).sense truth env = v a := by
  rw [TypeExpr.sense]
  cases hlookup : env.lookup (escapeTypeVar a) with
  | some p => exact h.params a p ha hlookup
  | none =>
    have hnot : escapeTypeVar a ∉ env.map Prod.fst := by
      intro hmem
      rcases List.mem_map.mp hmem with ⟨b, hb, hfst⟩
      have hne := List.lookup_eq_none_iff.mp hlookup b hb
      simp [hfst] at hne
    have harity : Checker.aliasArity? (escapeTypeVar a) = some 0 :=
      (hknown.resolve_left hnot).1
    have hname : escapeTypeVar a = "True" ∨ escapeTypeVar a = "False" := by
      rcases Checker.aliasArity?_eq_some harity with ⟨hname, -⟩ | ⟨-, hzero⟩ | ⟨-, hzero⟩
      · exact hname
      · cases hzero
      · cases hzero
    have hself := escapeTypeVar_eq_constant hname
    rw [hself] at hname hlookup
    rw [hself]
    rcases hname with rfl | rfl
    · exact h.truth hlookup
    · exact h.falsity hlookup

/-- A connective is no type parameter. -/
theorem connective (h : Agrees truth env v) {name : String} {args : List TypeExpr}
    (hname : name ∈ libraryTypeNames)
    (hknown : (TypeExpr.ref name args).Known (env.map Prod.fst)) :
    TypeExpr.KnownAll (env.map Prod.fst) args ∧ (TypeExpr.ref name args).sense truth env =
      aliasSense truth name (TypeExpr.senses truth env args) := by
  have hnone : env.lookup name = none := by
    rw [List.lookup_eq_none_iff]
    intro b hb
    have hne : name ≠ b.1 := by
      rintro rfl
      exact h.connectives _ hname (List.mem_map_of_mem (f := Prod.fst) hb)
    simpa using hne
  refine ⟨(hknown.resolve_left (h.connectives _ hname)).2, ?_⟩
  rw [TypeExpr.sense, hnone]
  rfl

end Agrees

/-- A function type without parameters quantifies over all senses. -/
theorem sense_func_singleton (n : String) (t : TypeExpr) (truth : Sense)
    (env : List (String × Sense)) :
    (TypeExpr.func [n] [] t).sense truth env =
      .ofProp (∀ p : Sense, (t.sense truth ((n, p) :: env)).1) := by
  rw [TypeExpr.sense]
  refine congrArg Sense.ofProp (propext ⟨?_, ?_⟩)
  · intro h p
    exact h [p] rfl (by simp [TypeExpr.paramSenses])
  · intro h ps hlen
    rcases List.length_eq_one_iff.mp hlen with ⟨p, rfl⟩
    exact fun _ => h p

/-- One bound atom after the other. -/
theorem forall_update {v : String → Sense} {x : String} {xs : List String}
    {F : (String → Sense) → Prop} :
    (∀ w, (∀ name, name ∉ x :: xs → w name = v name) → F w) ↔
      ∀ p w, (∀ name, name ∉ xs → w name = Function.update v x p name) → F w := by
  constructor
  · intro h p w hw
    refine h w ?_
    intro name hname
    rw [List.mem_cons, not_or] at hname
    rw [hw name hname.2, Function.update_of_ne hname.1]
  · intro h w hw
    refine h (w x) w ?_
    intro name hname
    by_cases heq : name = x
    · rw [heq, Function.update_self]
    · rw [Function.update_of_ne heq]
      exact hw name (by simp [heq, hname])

/-- The annotation of a quantified proposition, once its body is known to say what it should. -/
theorem sense_foldr {truth : Sense} {vars : List String} {t : TypeExpr}
    {F : (String → Sense) → Prop}
    (ht : ∀ env v, Agrees truth env v → t.Known (env.map Prod.fst) →
      ((t.sense truth env).1 ↔ F v))
    (hvars : ∀ x ∈ vars, IsTypeVar x) {env : List (String × Sense)} {v : String → Sense}
    (h : Agrees truth env v)
    (hknown : (vars.foldr (fun x t => .func [escapeTypeVar x] [] t) t).Known (env.map Prod.fst)) :
    ((vars.foldr (fun x t => .func [escapeTypeVar x] [] t) t).sense truth env).1 ↔
      ∀ w, (∀ name, name ∉ vars → w name = v name) → F w := by
  induction vars generalizing env v with
  | nil =>
    rw [List.foldr_nil, ht env v h hknown]
    constructor
    · intro hv w hw
      have hwv : w = v := funext fun name => hw name (by simp)
      rwa [hwv]
    · intro hall
      exact hall v fun _ _ => rfl
  | cons x xs ih =>
    rw [List.foldr_cons, sense_func_singleton, forall_update]
    refine forall_congr' fun p => ?_
    exact ih (fun y hy => hvars y (by simp [hy])) (h.bind (hvars x (by simp)) p) hknown.2

/-- Is the proposition true if atoms are read by `v`? -/
def Formula.holdsIn (v : String → Sense) (f : Formula) : Prop :=
  f.holdsFor Monotone (fun a => (v a).1) fun a => (v a).2

/-- A bound atom may stand for anything. -/
theorem Formula.holdsIn_all {v : String → Sense} {vars : List String} {a : Formula}
    {loc : Location} : (Formula.all vars a loc).holdsIn v ↔
      ∀ w, (∀ name, name ∉ vars → w name = v name) → a.holdsIn w := by
  constructor
  · intro h w hw
    refine h _ _ (fun name => (w name).2.mono) fun name hname => ?_
    rw [hw name hname]
    exact ⟨rfl, rfl⟩
  · intro h w Q hQ hagree
    refine h (fun name => (w name, ⟨Q name, hQ name⟩)) fun name hname => ?_
    exact Prod.ext (hagree name hname).1 (OrderHom.ext _ _ (hagree name hname).2)

/-- The annotation of a proposition says what the proposition says. -/
theorem sense_typeExpr {f : Formula} (hspelled : f.Spelled) {truth : Sense}
    {env : List (String × Sense)} {v : String → Sense} (h : Agrees truth env v)
    (hknown : f.typeExpr.Known (env.map Prod.fst)) :
    (f.typeExpr.sense truth env).1 ↔ f.holdsIn v := by
  induction f generalizing env v with
  | hole => exact hspelled.elim
  | atom name args loc =>
    cases args with
    | nil =>
      rw [Formula.typeExpr, h.atom hspelled.1 hknown]
      exact Iff.rfl
    | cons arg rest =>
      rcases h.connective (by decide) hknown with ⟨hargs, hsense⟩
      have hname := h.atom hspelled.1 hargs.1
      have harg := h.atom (hspelled.2 arg (by simp)) hargs.2.1
      rw [Formula.typeExpr, hsense, TypeExpr.senses, TypeExpr.senses, TypeExpr.senses, hname, harg,
        aliasSense_apply]
      exact Iff.rfl
  | neg a _ ih =>
    rcases h.connective (by decide) hknown with ⟨hargs, hsense⟩
    rw [Formula.typeExpr, hsense]
    exact not_congr (ih hspelled h hargs.1)
  | conj a b _ iha ihb =>
    rcases h.connective (by decide) hknown with ⟨hargs, hsense⟩
    rw [Formula.typeExpr, hsense]
    exact and_congr (iha hspelled.1 h hargs.1) (ihb hspelled.2 h hargs.2.1)
  | disj a b _ iha ihb =>
    rcases h.connective (by decide) hknown with ⟨hargs, hsense⟩
    rw [Formula.typeExpr, hsense]
    exact or_congr (iha hspelled.1 h hargs.1) (ihb hspelled.2 h hargs.2.1)
  | impl a b _ iha ihb =>
    rcases h.connective (by decide) hknown with ⟨hargs, hsense⟩
    rw [Formula.typeExpr, hsense]
    exact imp_congr (iha hspelled.1 h hargs.1) (ihb hspelled.2 h hargs.2.1)
  | all vars a _ ih =>
    rw [Formula.holdsIn_all]
    exact sense_foldr (fun _ _ h hknown => ih hspelled.2 h hknown) hspelled.1 h hknown

/-! ## Assignments and interpretations -/

/-- The interpretation in which every constant stands for what the assignment says of its atom. -/
noncomputable def Valuation.ofAssignment (v : String → Sense) : Valuation :=
  ⟨fun _ => ⊤, fun n _ => ⨆ (a : String) (_ : IsTypeVar a ∧ escapeTypeVar a = n), v a⟩

theorem Valuation.ofAssignment_consts {v : String → Sense} {a : String} (ha : IsTypeVar a)
    (i : TyVar) : (ofAssignment v).consts (escapeTypeVar a) i = v a := by
  refine le_antisymm (iSup₂_le fun b hb => ?_) (le_iSup₂_of_le a ⟨ha, rfl⟩ le_rfl)
  rw [escapeTypeVar_inj hb.1 ha hb.2]

theorem isTypeVar_true : IsTypeVar "True" :=
  ⟨0x54, [0x72, 0x75, 0x65], by decide, List.all_eq_true.mp (by decide), by decide⟩

/-- Type parameters that are constants agree with the assignment that the constants come from. -/
theorem agrees_reading {types : List (String × Ty)}
    (htypes : ∀ b ∈ types, (∃ a, b.1 = escapeTypeVar a) ∧ ∃ i, b.2 = .rigid b.1 i) {ρ : Valuation}
    {v : String → Sense} (hρ : ρ.consts = (Valuation.ofAssignment v).consts) (htrue : (v "True").1)
    (hfalse : v "False" = ⊥) : Agrees ρ.truth (Checker.reading types ρ) v := by
  have hconst : ∀ {a : String}, IsTypeVar a → ∀ i, ρ.const (escapeTypeVar a) i = v a := by
    intro a ha i
    rw [Valuation.const, hρ, Valuation.ofAssignment_consts ha]
    refine Prod.ext (propext ⟨?_, .inr⟩) rfl
    rintro (⟨hname, -⟩ | hv)
    · have hself := escapeTypeVar_eq_constant (.inl hname)
      rw [hname] at hself
      rwa [← hself]
    · exact hv
  refine ⟨?_, ?_, fun _ => hconst isTypeVar_true 0, fun _ => hfalse.symm⟩
  · intro name hname hmem
    rw [Checker.reading, List.map_map] at hmem
    rcases List.mem_map.mp hmem with ⟨b, hb, rfl⟩
    rcases (htypes b hb).1 with ⟨a, ha⟩
    exact escapeTypeVar_not_mem a (ha ▸ hname)
  · intro a p ha hlookup
    rw [Checker.lookup_reading, Option.map_eq_some_iff] at hlookup
    rcases hlookup with ⟨t, ht, rfl⟩
    rcases (htypes _ (mem_of_lookup ht)).2 with ⟨i, hi⟩
    dsimp only at hi
    rw [hi, Ty.sense, hconst ha]

end ProofScript
