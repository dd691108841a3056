import ProofScript.Json
import ProofScript.Text.Case
import ProofScript.Word

/-!
# Fields of JSON objects

Typed access to the fields of an object. Keys match without regard to case. A missing field and a
null have the zero value of the type, a field of another type is refused, and of repeated fields the
last one counts, objects being merged.
-/

namespace ProofScript.Json

/-- The fields of an object. -/
abbrev Fields := List (String × Json)

namespace Fields

/-- The values of a key, nulls left out. -/
def values (fs : Fields) (key : String) : List Json :=
  (fs.filter fun f => Text.equalFold f.1 key && !f.2.isNull).map Prod.snd

/-- The last value of a key, read by a function that refuses other types. -/
def last? {α : Type} (read : Json → Option α) (zero : α) (fs : Fields) (key : String) : Option α :=
  do
    let found ← (fs.values key).mapM read
    return found.getLast?.getD zero

/-- A text. -/
def str? : Fields → String → Option String :=
  last? (fun | .str s => some s | _ => none) ""

/-- A whole number of 64 bits. -/
def int? : Fields → String → Option Int :=
  last? (fun | .int n => if Word.holds n then some n else none | _ => none) 0

/-- A truth value. -/
def bool? : Fields → String → Option Bool :=
  last? (fun | .bool b => some b | _ => none) false

/-- A list. -/
def arr? : Fields → String → Option (List Json) :=
  last? (fun | .arr xs => some xs | _ => none) []

/-- A text that may be missing. -/
def optional? (fs : Fields) (key : String) : Option (Option String) := do
  let found ← (fs.filter fun f => Text.equalFold f.1 key).mapM fun
    | (_, .str s) => some (some s)
    | (_, .null) => some none
    | _ => none
  return found.getLast?.getD none

/-- The fields of an object. -/
def obj? (fs : Fields) (key : String) : Option Fields := do
  let found ← (fs.values key).mapM fun
    | .obj inner => some inner
    | _ => none
  return found.flatten

end Fields

/-- The fields of an object; a null has none. -/
def objectFields? : Json → Option Fields
  | .obj fs => some fs
  | .null => some []
  | _ => none

end ProofScript.Json
