/-!
# Computations that need not end

A computation that need not end is given by what it comes to within each depth of recursion, if it comes
to anything there. Its result is found by going deeper and deeper.
-/

namespace ProofScript

section

variable {α : Type} {f : Nat → Option α} {a : α}

variable (f) in
/-- The first result at a depth, at twice that depth and one more, and so on. Where there is none, running
this does not end. -/
def settle? (depth : Nat) : Option α :=
  match f depth with
  | some a => some a
  -- by a tactic, so that no position in this file is kept in what the definition unfolds to
  | none => by
    apply settle?
    exact 2 * depth + 1
partial_fixpoint

theorem exists_of_settle? {depth : Nat} (h : settle? f depth = some a) : ∃ n, f n = some a := by
  refine settle?.partial_correctness f (fun _ a => ∃ n, f n = some a) ?_ depth a h
  intro settle ih depth a h
  split at h
  · rename_i b hb
    cases h
    exact ⟨depth, hb⟩
  · exact ih _ _ h

theorem settle?_of_eq_some (hf : ∀ n k a, n ≤ k → f n = some a → f k = some a) {n depth : Nat}
    (h : f n = some a) : settle? f depth = some a := by
  rw [settle?]
  cases hfound : f depth with
  | some b =>
    have hlater := hf n (max n depth) a (Nat.le_max_left ..) h
    rwa [hf depth (max n depth) b (Nat.le_max_right ..) hfound] at hlater
  | none =>
    have hlt : depth < n := Nat.lt_of_not_le fun hle => by
      rw [hf n depth a hle h] at hfound
      cases hfound
    exact settle?_of_eq_some hf h

/-- Where results stay what they are at larger depths, it does not matter at which depth the search for
one begins. -/
theorem settle?_eq_some (hf : ∀ n k a, n ≤ k → f n = some a → f k = some a) {depth : Nat} :
    settle? f depth = some a ↔ ∃ n, f n = some a :=
  ⟨exists_of_settle?, fun ⟨_, h⟩ => settle?_of_eq_some hf h⟩

end

/-- The depth that is tried first. -/
def firstDepth : Nat := 1023

/-- The result of a computation, for programs that have nothing to do but wait for it. -/
def settled {α : Type} [Inhabited α] (f : Nat → Option α) : α := (settle? f firstDepth).getD default

/-- Steps that may wait for the result of a computation. -/
class Waits (m : Type → Type) where
  /-- The result of a computation that need not end. -/
  wait {α : Type} [Inhabited α] (f : Nat → Option α) : m α

/-- A step that always has a value waits without an end. -/
instance : Waits Id := ⟨fun f => settled f⟩

/-- Where waiting has no end, there is no value. -/
instance : Waits Option := ⟨fun f => settle? f firstDepth⟩

end ProofScript
