import ProofScript.Token.Lexer

/-!
# Errors of a script

Everything that can be wrong with a script, as a cause with a place. The wording of each cause is
in one function.
-/

namespace ProofScript

/-- A form that only System F mode admits. -/
inductive Extension where
  | generalization
  | quantifiedProposition
  | predicateApplication
deriving DecidableEq, Repr, Inhabited

/-- The name of a form, as messages spell it. -/
def Extension.name : Extension → String
  | generalization => "generalization"
  | quantifiedProposition => "quantified proposition"
  | predicateApplication => "predicate application"

/-- Why a token does not fit. -/
inductive ParseCause where
  | expected (kinds : List TokenKind)
  | emptyProof
  | needsSystemF (form : Extension)
  | tooDeep
deriving DecidableEq, Repr, Inhabited

/-- A token that does not fit the grammar. -/
structure ParseError where
  loc : Location
  got : TokenKind
  cause : ParseCause
deriving DecidableEq, Repr, Inhabited

/-- The classes that would have fitted, where the cause names them. -/
def ParseError.expected (e : ParseError) : List TokenKind :=
  match e.cause with
  | .expected kinds => kinds
  | _ => []

/-- The message of a grammatical error. -/
def ParseError.message (e : ParseError) : String :=
  let what := match e.cause with
    | .expected kinds =>
      "expected " ++ " or ".intercalate (kinds.map TokenKind.name) ++ ", got " ++ e.got.name
    | .emptyProof => "Empty Proof"
    | .needsSystemF form => form.name ++ " requires System F mode"
    | .tooDeep => "script is nested too deeply"
  what ++ " at " ++ e.loc.text

/-- Why no code is generated for a document. -/
inductive GenerateCause where
  | alreadyDeclared (name : String) (first : Location)
  | theoremAlreadyDeclared (name : String) (first : Location)
  | usedBeforeProved (name : String)
  | namedLikePrimitive (name : String)
  | unnamedHole
  | instantiationCount (count : Nat)
  | instantiationShape
deriving DecidableEq, Repr, Inhabited

/-- The wording of a cause. -/
def GenerateCause.text : GenerateCause → String
  | alreadyDeclared name first =>
    name ++ " is already declared (first at line " ++ toString first.line ++ ", column "
      ++ toString first.column ++ ")"
  | theoremAlreadyDeclared name first =>
    "theorem " ++ name ++ " is already declared (first at line " ++ toString first.line
      ++ ", column " ++ toString first.column ++ ")"
  | usedBeforeProved name => "theorem " ++ name ++ " is used before it is proved"
  | namedLikePrimitive name => "theorem " ++ name ++ " has the same name as a primitive"
  | unnamedHole => "a step with no proposition must be named unless it ends the proof"
  | instantiationCount n => "bad forallElim call: expected 2 arguments, got " ++ toString n
  | instantiationShape => "bad forallElim call: expected a proposition and an identifier"

/-- A document for which no code is generated. -/
structure GenerateError where
  loc : Location
  cause : GenerateCause
deriving DecidableEq, Repr, Inhabited

/-- The message of a generation error. -/
def GenerateError.message (e : GenerateError) : String := e.cause.text ++ " at " ++ e.loc.text

/-- Anything wrong with a script. -/
inductive ScriptError where
  | lex (e : LexError)
  | parse (e : ParseError)
  | generate (e : GenerateError)
deriving DecidableEq, Repr, Inhabited

namespace ScriptError

/-- Where the error is. -/
def loc : ScriptError → Location
  | lex e => e.loc
  | parse e => e.loc
  | generate e => e.loc

/-- The message of an error. -/
def message : ScriptError → String
  | lex e => e.message
  | parse e => e.message
  | generate e => e.message

end ScriptError

end ProofScript
