import Mathlib.Data.List.Basic
import Mathlib.Logic.Function.Basic

/-!
# Lookups in lists of pairs

What is found for a key among pairs of keys and values, of which the first one counts.
-/

namespace ProofScript

open Function

variable {α β : Type} [BEq α] [LawfulBEq α]

theorem mem_of_lookup {zs : List (α × β)} {a : α} {b : β} (h : zs.lookup a = some b) :
    (a, b) ∈ zs := by
  induction zs with
  | nil => simp at h
  | cons z zs ih =>
    obtain ⟨x, y⟩ := z
    by_cases hx : a = x
    · rw [hx, List.lookup_cons_self, Option.some.injEq] at h
      simp [hx, h]
    · have hne : (a == x) = false := by simpa using hx
      rw [List.lookup_cons, hne] at h
      exact List.mem_cons_of_mem _ (ih h)

theorem lookup_eq_none_iff_not_mem {entries : List (α × β)} {a : α} :
    entries.lookup a = none ↔ a ∉ entries.map Prod.fst := by
  rw [List.lookup_eq_none_iff]
  simp only [bne_iff_ne, List.mem_map, not_exists, not_and]
  exact ⟨fun h b hb heq => h b hb heq.symm, fun h b hb heq => h b hb heq.symm⟩

theorem lookup_of_mem_of_nodup {l : List (α × β)} {a : α} {b : β}
    (h : (a, b) ∈ l) (hnodup : (l.map Prod.fst).Nodup) : l.lookup a = some b := by
  induction l with
  | nil => simp at h
  | cons x l ih =>
    obtain ⟨y, z⟩ := x
    rw [List.map_cons, List.nodup_cons] at hnodup
    by_cases ha : a = y
    · subst ha
      rcases List.mem_cons.mp h with h | h
      · cases h
        simp
      · exact absurd (List.mem_map_of_mem (f := Prod.fst) h) hnodup.1
    · have hne : (a == y) = false := by simpa using ha
      rw [List.lookup_cons, hne]
      rcases List.mem_cons.mp h with h | h
      · cases h
        exact absurd rfl ha
      · exact ih h hnodup.2

/-- A new key hides no other one. -/
theorem lookup_cons_of_lookup {entries : List (α × β)} {a a' : α} {b b' : β}
    (hnew : ∀ e ∈ entries, e.1 ≠ a') (h : entries.lookup a = some b) :
    ((a', b') :: entries).lookup a = some b := by
  have hne : (a == a') = false := by simpa using hnew (a, b) (mem_of_lookup h)
  rw [List.lookup_cons, hne]
  exact h

/-- Dropping the entries of a key keeps what is found for any other key. -/
theorem lookup_filter_ne {α : Type} [DecidableEq α] {a b : α} (hne : a ≠ b)
    (entries : List (α × β)) : (entries.filter fun e => e.1 ≠ b).lookup a = entries.lookup a := by
  induction entries with
  | nil => rfl
  | cons e rest ih =>
    obtain ⟨c, u⟩ := e
    by_cases hc : c = b
    · have hab : (a == b) = false := by simpa using hne
      simpa [hc, List.lookup_cons, hab] using ih
    · by_cases hac : a = c
      · simp [hc, hac]
      · have hac' : (a == c) = false := by simpa using hac
        simpa [hc, List.lookup_cons, hac'] using ih

/-- What is found for a key is found for its image among the images. -/
theorem lookup_map {α' β' : Type} [BEq α'] [LawfulBEq α'] {g : α → α'}
    (hg : Injective g) (h : β → β') (entries : List (α × β)) (a : α) :
    (entries.map (Prod.map g h)).lookup (g a) = (entries.lookup a).map h := by
  induction entries with
  | nil => rfl
  | cons e rest ih =>
    obtain ⟨b, x⟩ := e
    by_cases hab : a = b
    · simp [hab]
    · have hne : (a == b) = false := by simpa using hab
      have hne' : (g a == g b) = false := by simpa using fun h => hab (hg h)
      simpa [List.lookup_cons, hne, hne'] using ih

/-- Every key of a list has a value, if there are as many keys as values. -/
theorem exists_lookup_zip {as : List α} {bs : List β} (hlen : as.length = bs.length) {a : α}
    (ha : a ∈ as) : ∃ b, (as.zip bs).reverse.lookup a = some b ∧ (a, b) ∈ as.zip bs := by
  cases hfind : (as.zip bs).reverse.lookup a with
  | some b => exact ⟨b, rfl, List.mem_reverse.mp (mem_of_lookup hfind)⟩
  | none =>
    have hkeys : (as.zip bs).map Prod.fst = as := List.map_fst_zip (Nat.le_of_eq hlen)
    rw [← hkeys] at ha
    rcases List.mem_map.mp ha with ⟨b, hb, rfl⟩
    have hne := List.lookup_eq_none_iff.mp hfind b (List.mem_reverse.mpr hb)
    simp at hne

theorem lookup_zip_of_not_mem {as : List α} {bs : List β} {a : α} (ha : a ∉ as) :
    (as.zip bs).reverse.lookup a = none := by
  cases hfind : (as.zip bs).reverse.lookup a with
  | none => rfl
  | some b => exact absurd (List.of_mem_zip (List.mem_reverse.mp (mem_of_lookup hfind))).1 ha

end ProofScript
