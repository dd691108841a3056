import Mathlib.Data.List.Nodup
import Mathlib.Data.List.Zip
import ProofScript.Proofs.Confinement

/-!
# Constants in the place of bound variables

A polymorphic type is opened by putting a fresh rigid constant in the place of each of its variables, and
binding these constants by the variables again gives the body that was opened. Opening respects binders
within the body and closing does not look at them: both meet at the same places because opening puts no
constant where a variable is bound again.
-/

namespace ProofScript

namespace Ty

variable {consts : List ((String × TyVar) × TyVar)}

mutual

/-- Abstraction undoes a substitution whose replacements it leads back, in a type that has none of the
constants. -/
theorem abstract_apply {σ : Subst} (hσ : ∀ v s, σ.find? v = some s → s.abstract consts = var v) :
    (t : Ty) → (∀ n i, t.mentions n i = true → consts.lookup (n, i) = none) →
      (t.apply σ).abstract consts = t
  | var v, _ => by
    rw [Ty.apply]
    cases hv : σ.find? v with
    | none => rfl
    | some s => exact hσ v s hv
  | rigid n i, h => by
    have hnone : consts.lookup (n, i) = none := h n i (by simp [mentions])
    change (consts.lookup (n, i)).elim (rigid n i) var = rigid n i
    rw [hnone, Option.elim]
  | thunk r, h => by rw [Ty.apply, Ty.abstract, abstract_apply hσ r h]
  | fn a r, h => by
    rw [Ty.apply, Ty.abstract, abstract_apply hσ a fun n i hm => h n i (by simp [mentions, hm]),
      abstract_apply hσ r fun n i hm => h n i (by simp [mentions, hm])]
  | con _ as, h => by rw [Ty.apply, Ty.abstract, abstractAll_applyAll hσ as h]
  | poly ps b, h => by
    rw [Ty.apply, Ty.abstract, abstract_apply ?_ b h]
    intro v s hs
    rw [Subst.find?_without, Option.ite_none_left_eq_some] at hs
    exact hσ v s hs.2
  | never, _ => rfl
  | any, _ => rfl

theorem abstractAll_applyAll {σ : Subst}
    (hσ : ∀ v s, σ.find? v = some s → s.abstract consts = var v) :
    (ts : List Ty) → (∀ n i, mentionsAny n i ts = true → consts.lookup (n, i) = none) →
      abstractAll consts (applyAll σ ts) = ts
  | [], _ => rfl
  | t :: rest, h => by
    rw [applyAll, abstractAll, abstract_apply hσ t fun n i hm => h n i (by simp [mentionsAny, hm]),
      abstractAll_applyAll hσ rest fun n i hm => h n i (by simp [mentionsAny, hm])]

end

end Ty

namespace Unifier

variable {u : Unifier} {ps : List (String × TyVar)} {body : Ty}

/-- The constants that a polymorphic type is opened with: one for each variable, under its name, all
with different numbers that were not taken. -/
theorem skolems_fresh (u : Unifier) (ps : List (String × TyVar)) (body : Ty) :
    (u.skolemize ps body).1.1.map Prod.fst = ps.map Prod.fst ∧
      (u.skolemize ps body).1.1.Nodup ∧ ∀ s ∈ (u.skolemize ps body).1.1, u.counter < s.2 := by
  obtain ⟨-, hlen, hbound, hnodup⟩ := freshAll_eq u (ps.map Prod.fst)
  have hids : (u.skolemize ps body).1.1.map Prod.snd = (u.freshAll (ps.map Prod.fst)).1 :=
    List.map_snd_zip (Nat.le_of_eq hlen)
  refine ⟨List.map_fst_zip (Nat.le_of_eq hlen.symm), List.Nodup.of_map Prod.snd (hids ▸ hnodup), ?_⟩
  intro s hs
  exact (hbound s.2 (hids ▸ List.mem_map_of_mem hs)).1

theorem length_skolems : (u.skolemize ps body).1.1.length = ps.length := by
  simpa using congrArg List.length (skolems_fresh u ps body).1

/-- What an opened variable is replaced by. -/
theorem find?_skolems (hps : (ps.map Prod.snd).Nodup) {v : TyVar} {t : Ty} :
    (Subst.ofList ((ps.map Prod.snd).zip
        ((u.skolemize ps body).1.1.map fun s => .rigid s.1 s.2))).find? v = some t ↔
      ∃ s, (s, v) ∈ (u.skolemize ps body).1.1.zip (ps.map Prod.snd) ∧ t = .rigid s.1 s.2 := by
  generalize hskolems : (u.skolemize ps body).1.1 = skolems
  have hlen : (ps.map Prod.snd).length = (skolems.map fun s => Ty.rigid s.1 s.2).length := by
    rw [← hskolems, List.length_map, List.length_map, length_skolems]
  generalize ps.map Prod.snd = vars at hps hlen
  have hkeys : ((vars.zip (skolems.map fun s => Ty.rigid s.1 s.2)).reverse.map Prod.fst).Nodup := by
    rwa [List.map_reverse, List.map_fst_zip (Nat.le_of_eq hlen), List.nodup_reverse]
  have hswap : ∀ s, (v, s) ∈ vars.zip skolems ↔ (s, v) ∈ skolems.zip vars := by
    intro s
    rw [← List.zip_swap skolems vars]
    exact List.mem_map_of_injective (a := (s, v)) Prod.swap_injective
  have hmem : (v, t) ∈ vars.zip (skolems.map fun s => Ty.rigid s.1 s.2) ↔
      ∃ s, (s, v) ∈ skolems.zip vars ∧ t = .rigid s.1 s.2 := by
    simp [List.zip_map_right, ← hswap, eq_comm]
  rw [Subst.find?_ofList, ← hmem]
  exact ⟨fun h => List.mem_reverse.mp (mem_of_lookup h),
    fun h => lookup_of_mem_of_nodup (List.mem_reverse.mpr h) hkeys⟩

/-- A body has none of the constants that it is opened with, if the numbers of its constants are taken. -/
theorem mentions_skolem (hids : ∀ n i, body.mentions n i = true → i ≤ u.counter)
    {s : String × TyVar} (hs : s ∈ (u.skolemize ps body).1.1) : body.mentions s.1 s.2 = false := by
  rw [Bool.eq_false_iff]
  intro hm
  exact Int.not_le.mpr ((skolems_fresh u ps body).2.2 s hs) (hids s.1 s.2 hm)

/-- A polymorphic type whose variables differ is opened at constants that its body does not mention.
Binding them again by the variables gives the body, and a constant occurs in what was opened exactly if
its variable is free in the body. -/
theorem abstract_skolemize {skolems : List (String × TyVar)} {opened : Ty} {u' : Unifier}
    (hps : (ps.map Prod.snd).Nodup) (hids : ∀ n i, body.mentions n i = true → i ≤ u.counter)
    (hopen : u.skolemize ps body = ((skolems, opened), u')) :
    skolems.map Prod.fst = ps.map Prod.fst ∧ skolems.Nodup ∧
      opened.abstract (skolems.zip (ps.map Prod.snd)) = body ∧
      (∀ s v, (s, v) ∈ skolems.zip (ps.map Prod.snd) →
        (opened.mentions s.1 s.2 = true ↔ v ∈ body.freeVars)) ∧
      ∀ s ∈ skolems, body.mentions s.1 s.2 = false := by
  have hskolems : (u.skolemize ps body).1.1 = skolems := by rw [hopen]
  have hopened : opened = body.apply (.ofList ((ps.map Prod.snd).zip
      (skolems.map fun s => .rigid s.1 s.2))) := by
    rw [← hskolems]
    exact (congrArg (fun r => r.1.2) hopen).symm
  obtain ⟨hnames, hnodup, -⟩ := skolems_fresh u ps body
  have hfind := @find?_skolems u ps body hps
  have hnew : ∀ s ∈ skolems, body.mentions s.1 s.2 = false :=
    fun s hs => mentions_skolem hids (hskolems ▸ hs)
  rw [hskolems] at hnames hnodup hfind
  have hlen : skolems.length = (ps.map Prod.snd).length := by
    simpa using congrArg List.length hnames
  have hkeys : ((skolems.zip (ps.map Prod.snd)).map Prod.fst).Nodup := by
    rwa [List.map_fst_zip (Nat.le_of_eq hlen)]
  have hvars : ((skolems.zip (ps.map Prod.snd)).map Prod.snd).Nodup := by
    rwa [List.map_snd_zip (Nat.le_of_eq hlen.symm)]
  refine ⟨hnames, hnodup, ?_, ?_, hnew⟩
  · rw [hopened]
    refine Ty.abstract_apply ?_ body ?_
    · intro v t ht
      obtain ⟨s, hs, rfl⟩ := hfind.mp ht
      rw [Ty.abstract, lookup_of_mem_of_nodup hs hkeys]
      rfl
    · intro n i hm
      rw [lookup_eq_none_iff_not_mem, List.map_fst_zip (Nat.le_of_eq hlen)]
      intro hmem
      exact Bool.false_ne_true ((hnew (n, i) hmem).symm.trans hm)
  · intro s v hs
    rw [hopened, Ty.mentions_apply, hnew s (List.of_mem_zip hs).1]
    constructor
    · rintro (hm | ⟨w, hw, t, ht, hm⟩)
      · exact absurd hm Bool.false_ne_true
      · obtain ⟨s', hs', rfl⟩ := hfind.mp ht
        have hsame : s' = s := by simpa [Ty.mentions, Prod.ext_iff] using hm
        -- Constants differ, so the variable of this one is `v`.
        have hboth := List.inj_on_of_nodup_map hkeys hs' hs hsame
        exact (Prod.mk.inj hboth).2 ▸ hw
    · intro hv
      exact .inr ⟨v, hv, .rigid s.1 s.2, hfind.mpr ⟨s, hs, rfl⟩, by simp [Ty.mentions]⟩

/-- Both variables are bound again within the body, one where the other is free. -/
def rebinding : Ty :=
  .fn (.poly [("A", 1)] (.fn (.var 1) (.con "And" [.var 2, .rigid "B" 4])))
    (.poly [("C", 3), ("B", 2)] (.fn (.var 3) (.var 2)))

/-- A constant under the name of a variable stays, and a variable that is only bound again leaves no
constant behind. -/
theorem abstract_skolemize_rebinding :
    ∃ skolems opened u', (⟨[], 4, []⟩ : Unifier).skolemize [("A", 1), ("B", 2)] rebinding =
        ((skolems, opened), u') ∧ skolems = [("A", 5), ("B", 6)] ∧
      opened.abstract [(("A", 5), 1), (("B", 6), 2)] = rebinding ∧
      opened.mentions "A" 5 = false ∧ opened.mentions "B" 6 = true ∧
      rebinding.mentions "B" 4 = true ∧ rebinding.mentions "B" 6 = false := by
  refine ⟨[("A", 5), ("B", 6)], _, _, rfl, rfl, ?_⟩
  have hids : ∀ n i, rebinding.mentions n i = true →
      i ≤ (⟨[], 4, []⟩ : Unifier).counter := by
    intro n i hm
    have hb : "B" = n ∧ 4 = i := by simpa [rebinding, Ty.mentions, Ty.mentionsAny] using hm
    exact Int.le_of_eq hb.2.symm
  obtain ⟨-, -, hback, hmentions, hnew⟩ := abstract_skolemize (by decide) hids
    (rfl : (⟨[], 4, []⟩ : Unifier).skolemize [("A", 1), ("B", 2)] rebinding =
      (([("A", 5), ("B", 6)], _), _))
  have hA := hmentions ("A", 5) 1 (by decide)
  have hB := hmentions ("B", 6) 2 (by decide)
  refine ⟨hback, ?_, hB.mpr (by decide), by decide, hnew ("B", 6) (by decide)⟩
  rw [Bool.eq_false_iff]
  exact fun hm => absurd (hA.mp hm) (by decide)

end Unifier

end ProofScript
