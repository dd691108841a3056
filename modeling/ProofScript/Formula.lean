import ProofScript.Location

/-!
# Propositions

The propositions of a script: atoms (with predicate arguments in System F mode), the four
connectives and the quantifier over propositions. A hole stands where no proposition is written.
-/

namespace ProofScript

/-- A proposition. Every written one knows where it starts. -/
inductive Formula where
  | hole
  | atom (name : String) (args : List String) (loc : Location)
  | neg (body : Formula) (loc : Location)
  | conj (left right : Formula) (loc : Location)
  | disj (left right : Formula) (loc : Location)
  | impl (left right : Formula) (loc : Location)
  | all (vars : List String) (body : Formula) (loc : Location)
deriving DecidableEq, Repr, Inhabited

namespace Formula

/-- Is the proposition left out? -/
def isHole : Formula → Bool
  | hole => true
  | _ => false

/-- Where the proposition starts. -/
def loc : Formula → Location
  | hole => ⟨0, 0⟩
  | atom _ _ l => l
  | neg _ l => l
  | conj _ _ l => l
  | disj _ _ l => l
  | impl _ _ l => l
  | all _ _ l => l

/-- The proposition without its places. -/
def erase : Formula → Formula
  | hole => hole
  | atom n as _ => atom n as ⟨0, 0⟩
  | neg a _ => neg a.erase ⟨0, 0⟩
  | conj a b _ => conj a.erase b.erase ⟨0, 0⟩
  | disj a b _ => disj a.erase b.erase ⟨0, 0⟩
  | impl a b _ => impl a.erase b.erase ⟨0, 0⟩
  | all vs a _ => all vs a.erase ⟨0, 0⟩

/-- All written subformulas, outermost first and left before right. -/
def subformulas : Formula → List Formula
  | hole => []
  | atom n as l => [atom n as l]
  | neg a l => neg a l :: a.subformulas
  | conj a b l => conj a b l :: (a.subformulas ++ b.subformulas)
  | disj a b l => disj a b l :: (a.subformulas ++ b.subformulas)
  | impl a b l => impl a b l :: (a.subformulas ++ b.subformulas)
  | all vs a l => all vs a l :: a.subformulas

end Formula

end ProofScript
