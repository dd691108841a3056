/-!
# Wordings

What a message says. Where a program goes through a set in an order that its language leaves open, the
order may decide what a message says, so that several texts are possible and one of them is shown.
-/

namespace ProofScript

/-- The texts that a message may have. The first one is shown where sets are gone through in the order
of this library. -/
structure Wording where
  text : String
  others : List String
deriving DecidableEq, Repr, Inhabited

namespace Wording

instance : Coe String Wording := ⟨fun text => ⟨text, []⟩⟩

instance : Coe Wording String := ⟨Wording.text⟩

/-- All texts that may be shown. -/
def texts (w : Wording) : List String := w.text :: w.others

/-- Changes every text. -/
def map (f : String → String) (w : Wording) : Wording := ⟨f w.text, w.others.map f⟩

@[simp] theorem map_text (f : String → String) (text : String) : map f ⟨text, []⟩ = ⟨f text, []⟩ := rfl

@[simp] theorem map_id (w : Wording) : w.map (fun text => text) = w := by
  rw [map, List.map_id']

end Wording

end ProofScript
