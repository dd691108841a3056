import ProofScript.Formula

/-!
# Names in generated programs

A name of a script may be a word that the target language reserves, or the name of a library type;
it then gets a suffix. A fact without a name is named after its proposition: a word for the form,
then the operands, each closed by an underscore. The words hold no underscore, so that the
proposition can be read off the name.
-/

namespace ProofScript

/-- The words that no binding of a generated program may use. -/
def reservedWords : List String :=
  ["arguments", "await", "break", "case", "catch", "class", "const", "continue", "debugger",
    "default", "delete", "do", "else", "enum", "eval", "export", "extends", "false", "finally",
    "for", "function", "if", "implements", "import", "in", "instanceof", "interface", "let", "new",
    "null", "package", "private", "protected", "public", "return", "static", "super", "switch",
    "this", "throw", "true", "try", "typeof", "undefined", "var", "void", "while", "with", "yield"]

/-- The type names that the library declares and an atom may not use. -/
def libraryTypeNames : List String := ["And", "Or", "Impl", "Not", "Apply"]

/-- The words that open the name of a compound proposition. -/
def connectiveWords : List String := ["impl", "and", "or", "not", "apply", "forall"]

/-- The binding that stands for an identifier of a script. -/
def escapeIdent (name : String) : String :=
  if name ∈ reservedWords then name ++ "_" else name

/-- The type parameter that stands for an atom. -/
def escapeTypeVar (name : String) : String :=
  if name ∈ libraryTypeNames then name ++ "$" else name

/-- The characters that stand for a character of an atom after the first. -/
def encodeChar (c : Char) : List Char :=
  if c.isUpper then ['$', c.toLower]
  else if c = '_' then ['$', '$']
  else [c]

/-- The characters that stand for those of an atom. An upper-case letter in front needs no mark. -/
def encodeChars : List Char → List Char
  | [] => []
  | c :: rest =>
    (if c.isUpper then [c.toLower] else encodeChar c) ++ rest.flatMap encodeChar

/-- The word for an atom: lower-case, without underscores, and not a word for a connective. -/
def encodeAtom (name : String) : String :=
  let word := String.ofList (encodeChars name.toList)
  if word ∈ connectiveWords then word ++ "$" else word

/-- The name of a fact without a name of its own. -/
def Formula.factName : Formula → String
  | .hole => ""
  | .atom name [] _ => encodeAtom name ++ "_"
  | .atom name (arg :: _) _ => "apply_" ++ encodeAtom name ++ "_" ++ encodeAtom arg ++ "_"
  | .neg a _ => "not_" ++ a.factName ++ "_"
  | .conj a b _ => "and_" ++ a.factName ++ "_" ++ b.factName ++ "_"
  | .disj a b _ => "or_" ++ a.factName ++ "_" ++ b.factName ++ "_"
  | .impl a b _ => "impl_" ++ a.factName ++ "_" ++ b.factName ++ "_"
  | .all vars a _ =>
    "forall_" ++ String.join (vars.map (encodeAtom · ++ "_")) ++ "_" ++ a.factName ++ "_"

end ProofScript
