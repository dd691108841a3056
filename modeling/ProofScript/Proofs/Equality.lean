import Mathlib.Data.List.Zip
import ProofScript.Proofs.Capture
import ProofScript.Proofs.Unfolding

/-!
# Equality up to renaming

Two polymorphic types are compared by renaming the binders of the second to those of the first. The
renaming does not avoid capture, and it does not look at what the first type binds again below. So it can
take variables at the same place of both types for the same although no binders pair them, and it can miss
that they are. Such a place is confused. Where no place is, the comparison decides whether types are equal
up to the names of bound variables, and where one is, it decides that wrongly unless they differ elsewhere.
-/

namespace ProofScript

namespace Ty

/-! ## Equality up to renaming is an equivalence -/

theorem paired_refl {env : List (TyVar × TyVar)} (henv : ∀ b ∈ env, b.1 = b.2) (v : TyVar) :
    paired env v v = true := by
  induction env with
  | nil => simp [paired]
  | cons b rest ih =>
    obtain ⟨hb, hrest⟩ := List.forall_mem_cons.mp henv
    obtain ⟨a, c⟩ := b
    obtain rfl : a = c := hb
    simp [paired, ih hrest]

theorem paired_swap (env : List (TyVar × TyVar)) (v w : TyVar) :
    paired (env.map Prod.swap) w v = paired env v w := by
  induction env with
  | nil => simp [paired, eq_comm]
  | cons b rest ih => simp [paired, ih, or_comm, Bool.and_comm]

/-- Binders that are paired with the same ones are paired. -/
theorem paired_trans {triples : List (TyVar × TyVar × TyVar)} {v w x : TyVar}
    (hvw : paired (triples.map fun b => (b.1, b.2.1)) v w = true)
    (hwx : paired (triples.map Prod.snd) w x = true) :
    paired (triples.map fun b => (b.1, b.2.2)) v x = true := by
  induction triples with
  | nil =>
    simp only [List.map_nil, paired, decide_eq_true_eq] at hvw hwx ⊢
    exact hvw.trans hwx
  | cons b rest ih =>
    obtain ⟨a, c, e⟩ := b
    simp only [List.map_cons, paired] at hvw hwx ⊢
    by_cases hc : c = w
    · rw [if_pos (.inr hc)] at hvw
      rw [if_pos (.inl hc)] at hwx
      have ha : a = v := by simpa using (Bool.and_eq_true_iff.mp hvw).1
      have he : e = x := by simpa using (Bool.and_eq_true_iff.mp hwx).2
      simp [ha, he]
    · have ha : a ≠ v := by
        intro ha
        rw [if_pos (.inl ha)] at hvw
        exact hc (by simpa using (Bool.and_eq_true_iff.mp hvw).2)
      have he : e ≠ x := by
        intro he
        rw [if_pos (.inr he)] at hwx
        exact hc (by simpa using (Bool.and_eq_true_iff.mp hwx).1)
      rw [if_neg (by simp [ha, hc])] at hvw
      rw [if_neg (by simp [hc, he])] at hwx
      rw [if_neg (by simp [ha, he])]
      exact ih hvw hwx

theorem zip_self_eq {vs : List TyVar} {b : TyVar × TyVar} (hb : b ∈ vs.zip vs) : b.1 = b.2 := by
  rw [List.zip_eq_zipWith, List.zipWith_self, List.mem_map] at hb
  obtain ⟨v, -, rfl⟩ := hb
  rfl

mutual

theorem alphaEq_refl {env : List (TyVar × TyVar)} (henv : ∀ b ∈ env, b.1 = b.2) :
    (t : Ty) → t.alphaEq env t = true
  | var v => by rw [alphaEq]; exact paired_refl henv v
  | rigid _ _ => by simp [alphaEq]
  | thunk r => by rw [alphaEq]; exact alphaEq_refl henv r
  | fn a r => by rw [alphaEq, alphaEq_refl henv a, alphaEq_refl henv r]; rfl
  | con _ as => by simp [alphaEq, alphaEqAll_refl henv as]
  | poly ps b => by
    rw [alphaEq, alphaEq_refl ?_ b]
    · simp
    · intro c hc
      rcases List.mem_append.mp hc with hc | hc
      · rw [List.mem_reverse] at hc
        exact zip_self_eq hc
      · exact henv c hc
  | never => by simp [alphaEq]
  | any => by simp [alphaEq]

theorem alphaEqAll_refl {env : List (TyVar × TyVar)} (henv : ∀ b ∈ env, b.1 = b.2) :
    (ts : List Ty) → alphaEqAll env ts ts = true
  | [] => rfl
  | t :: rest => by rw [alphaEqAll, alphaEq_refl henv t, alphaEqAll_refl henv rest]; rfl

end

mutual

theorem alphaEq_swap (env : List (TyVar × TyVar)) :
    (t u : Ty) → u.alphaEq (env.map Prod.swap) t = t.alphaEq env u
  | var v, u => by
    cases u with
    | var w => exact paired_swap env v w
    | _ => rfl
  | rigid n i, u => by
    cases u with
    | rigid m j => simp [alphaEq, eq_comm]
    | _ => rfl
  | thunk r, u => by
    cases u with
    | thunk s => exact alphaEq_swap env r s
    | _ => rfl
  | fn a r, u => by
    cases u with
    | fn b s => rw [alphaEq, alphaEq, alphaEq_swap env a b, alphaEq_swap env r s]
    | _ => rfl
  | con n as, u => by
    cases u with
    | con m bs => rw [alphaEq, alphaEq, alphaEqAll_swap env as bs]; simp [eq_comm]
    | _ => rfl
  | poly ps b, u => by
    cases u with
    | poly qs c =>
      rw [alphaEq, alphaEq, ← alphaEq_swap _ b c, List.map_append, List.map_reverse, List.zip_swap]
      simp [eq_comm]
    | _ => rfl
  | never, u => by
    cases u with
    | never => rfl
    | _ => rfl
  | any, u => by
    cases u with
    | any => rfl
    | _ => rfl

theorem alphaEqAll_swap (env : List (TyVar × TyVar)) :
    (ts us : List Ty) → alphaEqAll (env.map Prod.swap) us ts = alphaEqAll env ts us
  | [], us => by
    cases us with
    | nil => rfl
    | cons => rfl
  | t :: ts, us => by
    cases us with
    | nil => rfl
    | cons u us => rw [alphaEqAll, alphaEqAll, alphaEq_swap env t u, alphaEqAll_swap env ts us]

end

/-- Three lists of binders, paired in front of what is paired around them. -/
theorem zip_triples (as bs cs : List TyVar) (hab : as.length = bs.length)
    (hbc : bs.length = cs.length) (triples : List (TyVar × TyVar × TyVar)) :
    (((as.zip (bs.zip cs)).reverse ++ triples).map fun b => (b.1, b.2.1)) =
        (as.zip bs).reverse ++ triples.map (fun b => (b.1, b.2.1)) ∧
      ((as.zip (bs.zip cs)).reverse ++ triples).map Prod.snd =
        (bs.zip cs).reverse ++ triples.map Prod.snd ∧
      (((as.zip (bs.zip cs)).reverse ++ triples).map fun b => (b.1, b.2.2)) =
        (as.zip cs).reverse ++ triples.map (fun b => (b.1, b.2.2)) := by
  have hleft : as.zip bs = (as.zip (bs.zip cs)).map fun b => (b.1, b.2.1) := by
    conv_lhs => rw [← List.map_fst_zip (Nat.le_of_eq hbc), List.zip_map_right]
    rfl
  have hright : as.zip cs = (as.zip (bs.zip cs)).map fun b => (b.1, b.2.2) := by
    conv_lhs => rw [← List.map_snd_zip (Nat.le_of_eq hbc.symm), List.zip_map_right]
    rfl
  have hmid : bs.zip cs = (as.zip (bs.zip cs)).map Prod.snd := by
    rw [List.map_snd_zip]
    rw [List.length_zip, ← hbc, Nat.min_self]
    exact Nat.le_of_eq hab.symm
  simp only [List.map_append, List.map_reverse, ← hleft, ← hright, ← hmid, and_self]

mutual

theorem alphaEq_trans {triples : List (TyVar × TyVar × TyVar)} :
    (t u w : Ty) → t.alphaEq (triples.map fun b => (b.1, b.2.1)) u = true →
      u.alphaEq (triples.map Prod.snd) w = true →
        t.alphaEq (triples.map fun b => (b.1, b.2.2)) w = true
  | var v, u, w, htu, huw => by
    cases u with
    | var v' =>
      cases w with
      | var v'' => exact paired_trans htu huw
      | _ => simp [alphaEq] at huw
    | _ => simp [alphaEq] at htu
  | rigid n i, u, w, htu, huw => by
    cases u with
    | rigid m j =>
      have hsame : n = m ∧ i = j := by simpa [alphaEq] using htu
      rw [hsame.1, hsame.2]
      cases w with
      | rigid => exact huw
      | _ => simp [alphaEq] at huw
    | _ => simp [alphaEq] at htu
  | thunk r, u, w, htu, huw => by
    cases u with
    | thunk r' =>
      cases w with
      | thunk r'' => exact alphaEq_trans r r' r'' htu huw
      | _ => simp [alphaEq] at huw
    | _ => simp [alphaEq] at htu
  | fn a r, u, w, htu, huw => by
    cases u with
    | fn a' r' =>
      cases w with
      | fn a'' r'' =>
        rw [alphaEq, Bool.and_eq_true] at htu huw ⊢
        exact ⟨alphaEq_trans a a' a'' htu.1 huw.1, alphaEq_trans r r' r'' htu.2 huw.2⟩
      | _ => simp [alphaEq] at huw
    | _ => simp [alphaEq] at htu
  | con n as, u, w, htu, huw => by
    cases u with
    | con n' as' =>
      cases w with
      | con n'' as'' =>
        simp only [alphaEq, Bool.and_eq_true, decide_eq_true_eq] at htu huw ⊢
        exact ⟨htu.1.trans huw.1, alphaEqAll_trans as as' as'' htu.2 huw.2⟩
      | _ => simp [alphaEq] at huw
    | _ => simp [alphaEq] at htu
  | poly ps b, u, w, htu, huw => by
    cases u with
    | poly ps' b' =>
      cases w with
      | poly ps'' b'' =>
        simp only [alphaEq, Bool.and_eq_true, decide_eq_true_eq] at htu huw ⊢
        -- The three lists of binders go in front of the triples, so that each pair of types sees its own.
        obtain ⟨hleft, hmid, hright⟩ := zip_triples (ps.map Prod.snd) (ps'.map Prod.snd)
          (ps''.map Prod.snd) (by simpa using htu.1) (by simpa using huw.1) triples
        rw [← hleft] at htu
        rw [← hmid] at huw
        rw [← hright]
        exact ⟨htu.1.trans huw.1, alphaEq_trans b b' b'' htu.2 huw.2⟩
      | _ => simp [alphaEq] at huw
    | _ => simp [alphaEq] at htu
  | never, u, w, htu, huw => by
    cases u with
    | never =>
      cases w with
      | never => rfl
      | _ => simp [alphaEq] at huw
    | _ => simp [alphaEq] at htu
  | any, u, w, htu, huw => by
    cases u with
    | any =>
      cases w with
      | any => rfl
      | _ => simp [alphaEq] at huw
    | _ => simp [alphaEq] at htu

theorem alphaEqAll_trans {triples : List (TyVar × TyVar × TyVar)} :
    (ts us ws : List Ty) → alphaEqAll (triples.map fun b => (b.1, b.2.1)) ts us = true →
      alphaEqAll (triples.map Prod.snd) us ws = true →
        alphaEqAll (triples.map fun b => (b.1, b.2.2)) ts ws = true
  | [], us, ws, htu, huw => by
    cases us with
    | nil =>
      cases ws with
      | nil => rfl
      | cons => simp [alphaEqAll] at huw
    | cons => simp [alphaEqAll] at htu
  | t :: ts, us, ws, htu, huw => by
    cases us with
    | nil => simp [alphaEqAll] at htu
    | cons u us =>
      cases ws with
      | nil => simp [alphaEqAll] at huw
      | cons w ws =>
        rw [alphaEqAll, Bool.and_eq_true] at htu huw ⊢
        exact ⟨alphaEq_trans t u w htu.1 huw.1, alphaEqAll_trans ts us ws htu.2 huw.2⟩

end

/-- Being equal up to the names of bound variables is an equivalence. -/
theorem alphaEq_equivalence : Equivalence fun t u : Ty => t.alphaEq [] u = true where
  refl t := alphaEq_refl (by simp) t
  symm h := (alphaEq_swap [] _ _).trans h
  trans htu huw := @alphaEq_trans [] _ _ _ htu huw

/-! ## Confused places -/

/-- A type after substitutions, the first one first. -/
def renamed (σs : List Subst) (t : Ty) : Ty := σs.foldl (fun t σ => t.apply σ) t

mutual

/-- Are variables at the same place of two types confused? Below binders, the second type is renamed
before it is compared, from the outermost binders inwards, and each renaming leaves alone what is bound
again. A place is confused if that makes the variables there equal or not although the binders around
them, paired, say otherwise. -/
def confusesBelow (σs : List Subst) (env : List (TyVar × TyVar)) : Ty → Ty → Bool
  | var v, u =>
    match u with
    | var w => (var v).eqv ((var w).renamed σs) != paired env v w
    | _ => false
  | thunk r, u =>
    match u with
    | thunk s => r.confusesBelow σs env s
    | _ => false
  | fn a r, u =>
    match u with
    | fn b s => a.confusesBelow σs env b || r.confusesBelow σs env s
    | _ => false
  | con n as, u =>
    match u with
    | con m bs => n = m && anyConfusesBelow σs env as bs
    | _ => false
  | poly ps b, u =>
    match u with
    | poly qs c =>
      ps.length = qs.length &&
        b.confusesBelow (σs.map (·.without (qs.map Prod.snd)) ++ [renameBinders ps qs])
          (((ps.map Prod.snd).zip (qs.map Prod.snd)).reverse ++ env) c
    | _ => false
  | _, _ => false

/-- Are variables at the same place of types in order confused? -/
def anyConfusesBelow (σs : List Subst) (env : List (TyVar × TyVar)) : List Ty → List Ty → Bool
  | [], _ => false
  | t :: ts, us =>
    match us with
    | [] => false
    | u :: us => t.confusesBelow σs env u || anyConfusesBelow σs env ts us

end

/-- Does comparing two types confuse variables at the same place of both? -/
def confuses (t u : Ty) : Bool := t.confusesBelow [] [] u

/-! ## Renamed types -/

section

variable {σs : List Subst}

theorem renamed_append (σ : Subst) (t : Ty) : t.renamed (σs ++ [σ]) = (t.renamed σs).apply σ := by
  rw [renamed, List.foldl_append]
  rfl

@[simp] theorem renamed_rigid (n : String) (i : TyVar) : (rigid n i).renamed σs = rigid n i := by
  induction σs with
  | nil => rfl
  | cons σ rest ih => exact ih

@[simp] theorem renamed_thunk (r : Ty) : (thunk r).renamed σs = thunk (r.renamed σs) := by
  induction σs generalizing r with
  | nil => rfl
  | cons σ rest ih => exact ih (r.apply σ)

@[simp] theorem renamed_fn (a r : Ty) : (fn a r).renamed σs = fn (a.renamed σs) (r.renamed σs) := by
  induction σs generalizing a r with
  | nil => rfl
  | cons σ rest ih => exact ih (a.apply σ) (r.apply σ)

@[simp] theorem renamed_con (n : String) (as : List Ty) :
    (con n as).renamed σs = con n (as.map (renamed σs)) := by
  induction σs generalizing as with
  | nil => exact congrArg (con n) (List.map_id as).symm
  | cons σ rest ih =>
    change (con n (applyAll σ as)).renamed rest = _
    rw [ih, applyAll_eq_map, List.map_map]
    rfl

@[simp] theorem renamed_poly (qs : List (String × TyVar)) (c : Ty) :
    (poly qs c).renamed σs =
      poly qs (c.renamed (σs.map (·.without (qs.map Prod.snd)))) := by
  induction σs generalizing c with
  | nil => rfl
  | cons σ rest ih => exact ih (c.apply (σ.without (qs.map Prod.snd)))

@[simp] theorem renamed_never : never.renamed σs = never := by
  induction σs with
  | nil => rfl
  | cons σ rest ih => exact ih

@[simp] theorem renamed_any : any.renamed σs = any := by
  induction σs with
  | nil => rfl
  | cons σ rest ih => exact ih

end

end Ty

/-- A substitution that puts variables in the place of variables. -/
def Subst.Renames (σ : Subst) : Prop := ∀ v t, σ.find? v = some t → ∃ w, t = .var w

theorem Subst.Renames.without {σ : Subst} (h : σ.Renames) (vs : List TyVar) :
    (σ.without vs).Renames := by
  intro v t ht
  rw [find?_without, Option.ite_none_left_eq_some] at ht
  exact h v t ht.2

namespace Ty

/-- The last partner of a binder is what it is renamed to. -/
theorem find?_renameBinders (ps qs : List (String × TyVar)) (w : TyVar) :
    (renameBinders ps qs).find? w =
      (((qs.map Prod.snd).zip (ps.map Prod.snd)).reverse.lookup w).map var := by
  have heq : renameBinders ps qs =
      Subst.ofList (((qs.map Prod.snd).zip (ps.map Prod.snd)).map (Prod.map id var)) := by
    rw [renameBinders, List.zip_map, List.map_map]
    rfl
  rw [heq, Subst.find?_ofList, ← List.map_reverse]
  exact lookup_map Function.injective_id var _ w

theorem renames_renameBinders (ps qs : List (String × TyVar)) : (renameBinders ps qs).Renames := by
  intro v t ht
  rw [find?_renameBinders, Option.map_eq_some_iff] at ht
  obtain ⟨w, -, rfl⟩ := ht
  exact ⟨w, rfl⟩

section

variable {σs : List Subst}

theorem renamed_var (h : ∀ σ ∈ σs, σ.Renames) (v : TyVar) : ∃ w, (var v).renamed σs = var w := by
  induction σs generalizing v with
  | nil => exact ⟨v, rfl⟩
  | cons σ rest ih =>
    obtain ⟨hσ, hrest⟩ := List.forall_mem_cons.mp h
    obtain ⟨w, hw⟩ : ∃ w, (var v).apply σ = var w := by
      rw [Ty.apply]
      cases hv : σ.find? v with
      | none => exact ⟨v, rfl⟩
      | some t => exact hσ v t hv
    obtain ⟨x, hx⟩ := ih hrest w
    exact ⟨x, by rw [← hx, ← hw]; rfl⟩

theorem renames_below (h : ∀ σ ∈ σs, σ.Renames) (ps qs : List (String × TyVar)) :
    ∀ σ ∈ σs.map (·.without (qs.map Prod.snd)) ++ [renameBinders ps qs], σ.Renames := by
  intro σ hσ
  rcases List.mem_append.mp hσ with hσ | hσ
  · obtain ⟨σ', hσ', rfl⟩ := List.mem_map.mp hσ
    exact (h σ' hσ').without _
  · rw [List.mem_singleton.mp hσ]
    exact renames_renameBinders ps qs

/-! ## What a comparison decides -/

/-- A comparison comes out as it should where nothing is confused; where something is, it comes out
true or should, but not both. -/
structure Decides (equal same confused : Bool) : Prop where
  agree : confused = false → equal = same
  differ : confused = true → (equal && same) = false

theorem Decides.rfl {b : Bool} : Decides b b false := ⟨fun _ => .refl b, nofun⟩

theorem decides_bne (b b' : Bool) : Decides b b' (b != b') := by
  constructor <;> cases b <;> cases b' <;> decide

theorem Decides.and {e a c e' a' c' : Bool} (h : Decides e a c) (h' : Decides e' a' c') :
    Decides (e && e') (a && a') (c || c') := by
  constructor
  · intro hc
    rw [Bool.or_eq_false_iff] at hc
    rw [h.agree hc.1, h'.agree hc.2]
  · intro hc
    have hparts : (e && e' && (a && a')) = (e && a && (e' && a')) := by ac_rfl
    rw [hparts]
    rcases Bool.or_eq_true_iff.mp hc with hc | hc
    · rw [h.differ hc, Bool.false_and]
    · rw [h'.differ hc, Bool.and_false]

theorem Decides.guard {e a c : Bool} (h : Decides e a c) (b : Bool) :
    Decides (b && e) (b && a) (b && c) := by
  cases b with
  | false => exact .rfl
  | true => simpa using h

/-- Only a variable equals a variable. -/
theorem decides_of_ne_var {σs : List Subst} (hσs : ∀ σ ∈ σs, σ.Renames) (env : List (TyVar × TyVar))
    {t : Ty} (ht : ∀ v, t ≠ var v) (w : TyVar) :
    Decides (t.eqv ((var w).renamed σs)) (t.alphaEq env (var w)) (t.confusesBelow σs env (var w)) := by
  obtain ⟨x, hx⟩ := renamed_var hσs w
  cases t with
  | var v => exact absurd rfl (ht v)
  | _ => simpa [hx, eqv, alphaEq, confusesBelow] using Decides.rfl

mutual

/-- Comparing with a renamed type decides equality below the binders that it was renamed at. -/
theorem decides_below {σs : List Subst} (hσs : ∀ σ ∈ σs, σ.Renames) (env : List (TyVar × TyVar)) :
    (t u : Ty) → Decides (t.eqv (u.renamed σs)) (t.alphaEq env u) (t.confusesBelow σs env u)
  | var v, u => by
    cases u with
    | var w => exact decides_bne _ _
    | _ => simpa [eqv, alphaEq, confusesBelow] using Decides.rfl
  | rigid n i, u => by
    cases u with
    | var w => exact decides_of_ne_var hσs env (by simp) w
    | _ => simpa [eqv, alphaEq, confusesBelow] using Decides.rfl
  | thunk r, u => by
    cases u with
    | var w => exact decides_of_ne_var hσs env (by simp) w
    | thunk s =>
      rw [renamed_thunk]
      exact decides_below hσs env r s
    | _ => simpa [eqv, alphaEq, confusesBelow] using Decides.rfl
  | fn a r, u => by
    cases u with
    | var w => exact decides_of_ne_var hσs env (by simp) w
    | fn b s =>
      rw [renamed_fn, eqv, alphaEq, confusesBelow]
      exact (decides_below hσs env a b).and (decides_below hσs env r s)
    | _ => simpa [eqv, alphaEq, confusesBelow] using Decides.rfl
  | con n as, u => by
    cases u with
    | var w => exact decides_of_ne_var hσs env (by simp) w
    | con m bs =>
      rw [renamed_con, eqv, alphaEq, confusesBelow]
      exact (decides_all_below hσs env as bs).guard _
    | _ => simpa [eqv, alphaEq, confusesBelow] using Decides.rfl
  | poly ps b, u => by
    cases u with
    | var w => exact decides_of_ne_var hσs env (by simp) w
    | poly qs c =>
      -- The renaming at this binder is the last one made, and those from further out leave the variables
      -- that it binds alone. That it captures is what the answer about confusion speaks of.
      rw [renamed_poly, eqv, alphaEq, confusesBelow, ← renamed_append]
      exact (decides_below (renames_below hσs ps qs) _ b c).guard _
    | _ => simpa [eqv, alphaEq, confusesBelow] using Decides.rfl
  | never, u => by
    cases u with
    | var w => exact decides_of_ne_var hσs env (by simp) w
    | _ => simpa [eqv, alphaEq, confusesBelow] using Decides.rfl
  | any, u => by
    cases u with
    | var w => exact decides_of_ne_var hσs env (by simp) w
    | _ => simpa [eqv, alphaEq, confusesBelow] using Decides.rfl

theorem decides_all_below {σs : List Subst} (hσs : ∀ σ ∈ σs, σ.Renames) (env : List (TyVar × TyVar)) :
    (ts us : List Ty) → Decides (eqvAll ts (us.map (renamed σs))) (alphaEqAll env ts us)
      (anyConfusesBelow σs env ts us)
  | [], us => by
    cases us with
    | nil => exact .rfl
    | cons => exact .rfl
  | t :: ts, us => by
    cases us with
    | nil => exact .rfl
    | cons u us =>
      rw [List.map_cons, eqvAll, alphaEqAll, anyConfusesBelow]
      exact (decides_below hσs env t u).and (decides_all_below hσs env ts us)

end

end

theorem decides_eqv (t u : Ty) : Decides (t.eqv u) (t.alphaEq [] u) (t.confuses u) :=
  @decides_below [] (by simp) [] t u

/-! ## Types that are never confused -/

mutual

/-- No variable is bound twice by one binder, or again below a binder of it. -/
def BindsApart : Ty → Prop
  | thunk r => r.BindsApart
  | fn a r => a.BindsApart ∧ r.BindsApart
  | con _ as => AllBindApart as
  | poly ps b =>
    (ps.map Prod.snd).Nodup ∧ (∀ v ∈ ps.map Prod.snd, v ∉ b.binders) ∧ b.BindsApart
  | _ => True

/-- No variable is bound twice on a way into one of the types. -/
def AllBindApart : List Ty → Prop
  | [] => True
  | t :: rest => t.BindsApart ∧ AllBindApart rest

end

/-- Pairs in front of others pair two variables if these are partners in the first pair of either, and
otherwise leave them to the others. -/
theorem paired_append_iff {zs env : List (TyVar × TyVar)} {v w : TyVar} :
    paired (zs ++ env) v w = true ↔
      zs.lookup v = some w ∧ (zs.map Prod.swap).lookup w = some v ∨
        v ∉ zs.map Prod.fst ∧ w ∉ zs.map Prod.snd ∧ paired env v w = true := by
  refine ⟨paired_append, ?_⟩
  induction zs with
  | nil => simp
  | cons z zs ih =>
    obtain ⟨a, b⟩ := z
    rintro (⟨hv, hw⟩ | ⟨hv, hw, henv⟩)
    · by_cases ha : v = a
      · subst ha
        rw [List.lookup_cons_self, Option.some.injEq] at hv
        simp [paired, hv]
      · have hav : (v == a) = false := by simpa using ha
        have hbw : (w == b) = false := by
          rw [beq_eq_false_iff_ne]
          rintro rfl
          rw [List.map_cons, Prod.swap_prod_mk, List.lookup_cons_self, Option.some.injEq] at hw
          exact ha hw.symm
        rw [List.lookup_cons, hav] at hv
        rw [List.map_cons, Prod.swap_prod_mk, List.lookup_cons, hbw] at hw
        rw [List.cons_append, paired, if_neg]
        · exact ih (.inl ⟨hv, hw⟩)
        · simpa [eq_comm] using ⟨ha, beq_eq_false_iff_ne.mp hbw⟩
    · simp only [List.map_cons, List.mem_cons, not_or] at hv hw
      rw [List.cons_append, paired, if_neg]
      · exact ih (.inr ⟨hv.2, hw.2, henv⟩)
      · simpa [eq_comm] using ⟨hv.1, hw.1⟩

/-- Renamings and the pairs that they stand for, where a variable that is renamed to is none of `U`: so
none is renamed again, and pairs and renamings say the same. -/
structure Tracks (U : Set TyVar) (σs : List Subst) (env : List (TyVar × TyVar)) : Prop where
  renames : ∀ σ ∈ σs, ∀ v t, σ.find? v = some t →
    v ∈ U ∧ ∃ p, p ∉ U ∧ p ∈ env.map Prod.fst ∧ t = var p
  agree : ∀ w ∈ U, ∀ v,
    (var v).eqv ((σs.findSome? (·.find? w)).getD (var w)) = paired env v w

section

variable {U : Set TyVar} {σs : List Subst} {env : List (TyVar × TyVar)}

/-- A variable is renamed once, by the outermost renaming that has it. -/
theorem renamed_eq_findSome (h : ∀ σ ∈ σs, ∀ v t, σ.find? v = some t →
    v ∈ U ∧ ∃ p, p ∉ U ∧ p ∈ env.map Prod.fst ∧ t = var p) (w : TyVar) :
    (var w).renamed σs = (σs.findSome? (·.find? w)).getD (var w) := by
  induction σs generalizing w with
  | nil => rfl
  | cons σ rest ih =>
    obtain ⟨hσ, hrest⟩ := List.forall_mem_cons.mp h
    change ((var w).apply σ).renamed rest = _
    rw [Ty.apply, List.findSome?_cons]
    cases hw : σ.find? w with
    | none => exact ih hrest w
    | some t =>
      obtain ⟨-, p, hp, -, rfl⟩ := hσ w t hw
      have hnone : rest.findSome? (·.find? p) = none := by
        rw [List.findSome?_eq_none_iff]
        intro σ' hσ'
        by_contra hne
        obtain ⟨s, hs⟩ := Option.ne_none_iff_exists'.mp hne
        exact hp (hrest σ' hσ' p s hs).1
      change (var p).renamed rest = var p
      rw [ih hrest p, hnone, Option.getD_none]

variable {ps qs : List (String × TyVar)}

/-- Binders that are paired and renamed further in. -/
theorem Tracks.below (h : Tracks U σs env) (hlen : ps.length = qs.length)
    (hnodup : (ps.map Prod.snd).Nodup)
    (hps : ∀ v ∈ ps.map Prod.snd, v ∉ U ∧ v ∉ env.map Prod.fst) (hqs : ∀ v ∈ qs.map Prod.snd, v ∈ U) :
    Tracks U (σs.map (·.without (qs.map Prod.snd)) ++ [renameBinders ps qs])
      (((ps.map Prod.snd).zip (qs.map Prod.snd)).reverse ++ env) := by
  have hrename := find?_renameBinders ps qs
  have hlen : (ps.map Prod.snd).length = (qs.map Prod.snd).length := by simpa using hlen
  generalize ps.map Prod.snd = as at hlen hnodup hps hrename
  generalize qs.map Prod.snd = bs at hlen hqs hrename
  have hfst : (as.zip bs).reverse.map Prod.fst = as.reverse := by
    rw [List.map_reverse, List.map_fst_zip (Nat.le_of_eq hlen)]
  have hsnd : (as.zip bs).reverse.map Prod.snd = bs.reverse := by
    rw [List.map_reverse, List.map_snd_zip (Nat.le_of_eq hlen.symm)]
  have hswap : (as.zip bs).reverse.map Prod.swap = (bs.zip as).reverse := by
    rw [List.map_reverse, List.zip_swap]
  constructor
  · intro σ hσ v t ht
    rw [List.map_append, hfst]
    rcases List.mem_append.mp hσ with hσ | hσ
    · obtain ⟨σ', hσ', rfl⟩ := List.mem_map.mp hσ
      rw [Subst.find?_without, Option.ite_none_left_eq_some] at ht
      obtain ⟨hv, p, hp, hmem, rfl⟩ := h.renames σ' hσ' v t ht.2
      exact ⟨hv, p, hp, List.mem_append_right _ hmem, rfl⟩
    · rw [List.mem_singleton.mp hσ, hrename, Option.map_eq_some_iff] at ht
      obtain ⟨p, hp, rfl⟩ := ht
      have hmem := List.of_mem_zip (List.mem_reverse.mp (mem_of_lookup hp))
      exact ⟨hqs v hmem.1, p, (hps p hmem.2).1,
        List.mem_append_left _ (List.mem_reverse.mpr hmem.2), rfl⟩
  · intro w hw v
    rw [List.findSome?_append, List.findSome?_map, Bool.eq_iff_iff, paired_append_iff, hfst, hsnd,
      hswap, List.mem_reverse, List.mem_reverse]
    by_cases hwb : w ∈ bs
    · -- The variable is bound here, so that only the new renaming and the new pairs count.
      obtain ⟨p, hp, hmem⟩ := exists_lookup_zip hlen.symm hwb
      have hzip : (p, w) ∈ (as.zip bs).reverse := by
        rw [List.mem_reverse, ← List.zip_swap bs as]
        exact List.mem_map_of_mem (f := Prod.swap) hmem
      have hpw : (as.zip bs).reverse.lookup p = some w :=
        lookup_of_mem_of_nodup hzip (by rwa [hfst, List.nodup_reverse])
      have hnone : σs.findSome? ((fun σ : Subst => σ.find? w) ∘ fun σ => σ.without bs) = none := by
        simp [List.findSome?_eq_none_iff, Subst.find?_without, hwb]
      simp only [hnone, Option.none_or, List.findSome?_cons, hrename, hp, Option.map_some,
        Option.getD_some, eqv, decide_eq_true_eq, hwb, not_true_eq_false, false_and, and_false,
        or_false, Option.some.injEq]
      constructor
      · rintro rfl
        exact ⟨hpw, rfl⟩
      · rintro ⟨-, rfl⟩
        rfl
    · -- It is not, and no new binder of the first type is what it is renamed to further out.
      have hold : σs.findSome? ((fun σ : Subst => σ.find? w) ∘ fun σ => σ.without bs) =
          σs.findSome? (·.find? w) := by
        congr 1
        funext σ
        exact (Subst.find?_without σ bs w).trans (if_neg hwb)
      have hnone : (bs.zip as).reverse.lookup w = none := lookup_zip_of_not_mem hwb
      have hout : paired env v w = true → v ∉ as := by
        intro hvw hva
        rw [← h.agree w hw v] at hvw
        cases hfound : σs.findSome? (·.find? w) with
        | none =>
          rw [hfound] at hvw
          have hsame : v = w := by simpa [eqv] using hvw
          exact (hps v hva).1 (hsame ▸ hw)
        | some t =>
          obtain ⟨σ, hσ, hσw⟩ := List.exists_of_findSome?_eq_some hfound
          obtain ⟨-, p, -, hp, rfl⟩ := h.renames σ hσ w t hσw
          rw [hfound] at hvw
          have hsame : v = p := by simpa [eqv] using hvw
          exact (hps v hva).2 (hsame ▸ hp)
      simp only [hold, List.findSome?_cons, List.findSome?_nil, hrename, hnone, Option.map_none,
        Option.or_none, h.agree w hw v, reduceCtorEq, and_false, false_or, hwb, not_false_eq_true,
        true_and]
      exact ⟨fun hvw => ⟨hout hvw, hvw⟩, fun hvw => hvw.2⟩

end

mutual

/-- Below binders that are kept track of, nothing is confused with a type that shares no binder. -/
theorem confusesBelow_eq_false {U : Set TyVar} {σs : List Subst} {env : List (TyVar × TyVar)}
    (h : Tracks U σs env) : (t u : Ty) → t.BindsApart →
      (∀ v ∈ t.binders, v ∉ U ∧ v ∉ env.map Prod.fst) → (∀ v ∈ u.binders, v ∈ U) →
        (∀ v ∈ u.freeVars, v ∈ U) → t.confusesBelow σs env u = false
  | var v, u, _, _, _, hfree => by
    cases u with
    | var w =>
      rw [confusesBelow, renamed_eq_findSome h.renames, h.agree w (hfree w (by simp [freeVars])) v]
      exact bne_self_eq_false _
    | _ => rfl
  | rigid _ _, _, _, _, _, _ => rfl
  | thunk r, u, hapart, hbound, hbinders, hfree => by
    cases u with
    | thunk s => exact confusesBelow_eq_false h r s hapart hbound hbinders hfree
    | _ => rfl
  | fn a r, u, hapart, hbound, hbinders, hfree => by
    cases u with
    | fn b s =>
      simp only [Ty.binders, freeVars, List.mem_append] at hbound hbinders hfree
      rw [confusesBelow, Bool.or_eq_false_iff]
      exact ⟨confusesBelow_eq_false h a b hapart.1 (fun v hv => hbound v (.inl hv))
          (fun v hv => hbinders v (.inl hv)) fun v hv => hfree v (.inr hv),
        confusesBelow_eq_false h r s hapart.2 (fun v hv => hbound v (.inr hv))
          (fun v hv => hbinders v (.inr hv)) fun v hv => hfree v (.inl hv)⟩
    | _ => rfl
  | con _ as, u, hapart, hbound, hbinders, hfree => by
    cases u with
    | con m bs =>
      rw [confusesBelow, anyConfusesBelow_eq_false h as bs hapart hbound hbinders hfree,
        Bool.and_false]
    | _ => rfl
  | poly ps b, u, hapart, hbound, hbinders, hfree => by
    cases u with
    | poly qs c =>
      simp only [Ty.binders, freeVars, List.mem_append, List.mem_filter] at hbound hbinders hfree
      rw [confusesBelow, Bool.and_eq_false_imp]
      intro hlen
      rw [decide_eq_true_eq] at hlen
      obtain ⟨hnodup, hdisjoint, hb⟩ := hapart
      refine confusesBelow_eq_false (h.below hlen hnodup (fun v hv => hbound v (.inl hv))
        fun v hv => hbinders v (.inl hv)) b c hb ?_ (fun v hv => hbinders v (.inr hv)) ?_
      · intro v hv
        refine ⟨(hbound v (.inr hv)).1, ?_⟩
        rw [List.map_append, List.mem_append, not_or]
        refine ⟨?_, (hbound v (.inr hv)).2⟩
        intro hmem
        obtain ⟨x, hx, rfl⟩ := List.mem_map.mp hmem
        exact hdisjoint x.1 (List.of_mem_zip (List.mem_reverse.mp hx)).1 hv
      · intro v hv
        by_cases hvq : v ∈ qs.map Prod.snd
        · exact hbinders v (.inl hvq)
        · exact hfree v ⟨hv, by simpa using hvq⟩
    | _ => rfl
  | never, _, _, _, _, _ => rfl
  | any, _, _, _, _, _ => rfl

theorem anyConfusesBelow_eq_false {U : Set TyVar} {σs : List Subst} {env : List (TyVar × TyVar)}
    (h : Tracks U σs env) : (ts us : List Ty) → AllBindApart ts →
      (∀ v ∈ bindersAll ts, v ∉ U ∧ v ∉ env.map Prod.fst) → (∀ v ∈ bindersAll us, v ∈ U) →
        (∀ v ∈ freeVarsAll us, v ∈ U) → anyConfusesBelow σs env ts us = false
  | [], _, _, _, _, _ => rfl
  | t :: ts, us, hapart, hbound, hbinders, hfree => by
    cases us with
    | nil => rfl
    | cons u us =>
      simp only [bindersAll, freeVarsAll, List.mem_append] at hbound hbinders hfree
      rw [anyConfusesBelow, Bool.or_eq_false_iff]
      exact ⟨confusesBelow_eq_false h t u hapart.1 (fun v hv => hbound v (.inl hv))
          (fun v hv => hbinders v (.inl hv)) fun v hv => hfree v (.inl hv),
        anyConfusesBelow_eq_false h ts us hapart.2 (fun v hv => hbound v (.inr hv))
          (fun v hv => hbinders v (.inr hv)) fun v hv => hfree v (.inr hv)⟩

end

/-- Nothing is confused if the first type binds no variable again below a binder of it, and none that
occurs in the second one. -/
theorem confuses_eq_false {t u : Ty} (ht : t.BindsApart)
    (hu : ∀ v ∈ t.binders, v ∉ u.binders ∧ v ∉ u.freeVars) : t.confuses u = false := by
  have htracks : Tracks {v | v ∈ u.binders ∨ v ∈ u.freeVars} [] [] :=
    ⟨by simp, fun w _ v => by simp [eqv, paired]⟩
  refine confusesBelow_eq_false htracks t u ht ?_ (fun v hv => .inl hv) fun v hv => .inr hv
  intro v hv
  refine ⟨?_, by simp⟩
  rintro (hmem | hmem)
  · exact (hu v hv).1 hmem
  · exact (hu v hv).2 hmem

/-- Where comparing two types confuses no variables, it decides whether they are equal up to the names of
bound variables, and where it does, it answers yes although they are not or no although they are, unless
they differ at other places too. It confuses none if the first type binds no variable again below a binder
of it and none that occurs in the second. Among types that are not confused it is symmetric and
transitive. -/
theorem eqv_decides (t u : Ty) :
    (t.confuses u = false → (t.eqv u = true ↔ t.alphaEq [] u = true)) ∧
      (t.confuses u = true → ¬(t.eqv u = true ∧ t.alphaEq [] u = true)) ∧
      (t.BindsApart → (∀ v ∈ t.binders, v ∉ u.binders ∧ v ∉ u.freeVars) → t.confuses u = false) ∧
      (t.confuses u = false → u.confuses t = false → (t.eqv u = true ↔ u.eqv t = true)) ∧
      ∀ w : Ty, t.confuses u = false → u.confuses w = false → t.confuses w = false →
        t.eqv u = true → u.eqv w = true → t.eqv w = true := by
  have hagree : ∀ {t u : Ty}, t.confuses u = false → (t.eqv u = true ↔ t.alphaEq [] u = true) :=
    fun h => Bool.eq_iff_iff.mp ((decides_eqv _ _).agree h)
  refine ⟨hagree, ?_, confuses_eq_false, ?_, ?_⟩
  · intro hconfused hboth
    have hdiffer := (decides_eqv t u).differ hconfused
    rw [hboth.1, hboth.2] at hdiffer
    exact absurd hdiffer (by decide)
  · intro htu hut
    rw [hagree htu, hagree hut]
    exact ⟨alphaEq_equivalence.symm, alphaEq_equivalence.symm⟩
  · intro w htu huw htw ht hu
    rw [hagree htu] at ht
    rw [hagree huw] at hu
    exact (hagree htw).mpr (alphaEq_equivalence.trans ht hu)

/-- A function type below two binders. -/
def nested (outer inner arg ret : TyVar) : Ty :=
  .poly [("A", outer)] (.poly [("B", inner)] (.fn (.var arg) (.var ret)))

/-- Two types that share a binder are found equal, and so are two that swap their binders although they
differ: the outer variable of the second is renamed below the inner binder, which captures it. -/
theorem eqv_decides_swapped :
    (nested 1 2 2 1).alphaEq [] (nested 2 3 3 2) = true ∧
      (nested 1 2 2 1).eqv (nested 2 3 3 2) = true ∧
      (nested 1 2 2 2).confuses (nested 2 1 1 2) = true ∧
      (nested 1 2 2 2).eqv (nested 2 1 1 2) = true ∧
      (nested 1 2 2 2).alphaEq [] (nested 2 1 1 2) = false := by
  obtain ⟨hagree, -⟩ := eqv_decides (nested 1 2 2 1) (nested 2 3 3 2)
  obtain ⟨-, hdiffer, -⟩ := eqv_decides (nested 1 2 2 2) (nested 2 1 1 2)
  have hequal : (nested 1 2 2 2).eqv (nested 2 1 1 2) = true := by decide
  refine ⟨by decide, (hagree (by decide)).mpr (by decide), by decide, hequal, ?_⟩
  rw [Bool.eq_false_iff]
  exact fun h => hdiffer (by decide) ⟨hequal, h⟩

end Ty

end ProofScript
