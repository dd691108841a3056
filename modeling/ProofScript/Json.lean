import ProofScript.Text.Quoted

/-!
# JSON values

The values that the language server exchanges. Whole numbers are numbers; a number with a fraction
or an exponent keeps its spelling. An object keeps its fields in order.
-/

namespace ProofScript

/-- A JSON value. -/
inductive Json where
  | null
  | bool (b : Bool)
  | int (n : Int)
  | decimal (spelling : String)
  | str (s : String)
  | arr (items : List Json)
  | obj (fields : List (String × Json))
deriving Repr, Inhabited

namespace Json

/-- The field of an object, the last one where a key is repeated. A missing field is null. -/
def field (j : Json) (key : String) : Json :=
  match j with
  | obj fields => ((fields.reverse.find? (·.1 = key)).map Prod.snd).getD null
  | _ => null

/-- Is the value null? -/
def isNull : Json → Bool
  | null => true
  | _ => false

/-- The items of a list; any other value has none. -/
def items : Json → List Json
  | arr xs => xs
  | _ => []

/-- The fields of an object; any other value has none. -/
def fields : Json → List (String × Json)
  | obj fs => fs
  | _ => []

/-- A text as a JSON string literal. -/
def quoteText (s : String) : String :=
  String.ofList ('"' :: s.toList.flatMap quoted ++ ['"'])
where
  /-- The written form of one character. -/
  quoted (c : Char) : List Char :=
    if c = '"' then ['\\', '"']
    else if c = '\\' then ['\\', '\\']
    else if c = '\n' then ['\\', 'n']
    else if c = '\r' then ['\\', 'r']
    else if c = '\t' then ['\\', 't']
    else if c.toNat < 0x20 then '\\' :: 'u' :: Text.hex 4 c.toNat
    else [c]

mutual

/-- The written form of a value. -/
def render : Json → String
  | null => "null"
  | bool b => if b then "true" else "false"
  | int n => toString n
  | decimal s => s
  | str s => quoteText s
  | arr xs => "[" ++ renderItems xs ++ "]"
  | obj fs => "\x7b" ++ renderFields fs ++ "\x7d"

/-- Items with commas between them. -/
def renderItems : List Json → String
  | [] => ""
  | [x] => x.render
  | x :: rest => x.render ++ "," ++ renderItems rest

/-- Fields with commas between them. -/
def renderFields : List (String × Json) → String
  | [] => ""
  | [(k, v)] => quoteText k ++ ":" ++ v.render
  | (k, v) :: rest => quoteText k ++ ":" ++ v.render ++ "," ++ renderFields rest

end

end Json

end ProofScript
