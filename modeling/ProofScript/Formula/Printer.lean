import ProofScript.Formula

/-!
# Written propositions

A proposition is written with the fewest parentheses that keep its structure. Each form binds as
tightly as its precedence says, and an operand looser than its place asks for is parenthesised.
-/

namespace ProofScript.Formula

/-- How tightly a form binds, from the quantifier (0) to an atom (5). -/
def precedence : Formula → Nat
  | all .. => 0
  | impl .. => 1
  | disj .. => 2
  | conj .. => 3
  | neg .. => 4
  | atom .. => 5
  | hole => 5

/-- Puts a text in parentheses on demand. -/
def parenthesize (wrap : Bool) (s : String) : String :=
  if wrap then "(" ++ s ++ ")" else s

/-- The written form where nothing looser than `least` may stand bare. -/
def render (least : Nat) : Formula → String
  | hole => parenthesize (5 < least) ""
  | atom name args _ =>
    parenthesize (5 < least)
      (if args.isEmpty then name else name ++ "[" ++ ", ".intercalate args ++ "]")
  | neg a _ => parenthesize (4 < least) ("~" ++ a.render 4)
  | conj a b _ => parenthesize (3 < least) (a.render 3 ++ " & " ++ b.render 4)
  | disj a b _ => parenthesize (2 < least) (a.render 2 ++ " | " ++ b.render 3)
  | impl a b _ => parenthesize (1 < least) (a.render 2 ++ " => " ++ b.render 1)
  | all vars a _ =>
    parenthesize (0 < least) ("forall " ++ ", ".intercalate vars ++ " . " ++ a.render 1)

/-- The written form of a whole proposition. -/
def text (f : Formula) : String := f.render 0

end ProofScript.Formula
