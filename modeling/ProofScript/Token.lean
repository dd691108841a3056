import ProofScript.Location

/-!
# Tokens

The lexical classes of a script, the words and symbols that belong to them, and the written form
of a token.
-/

namespace ProofScript

/-- The lexical class of a token. -/
inductive TokenKind where
  | eof
  | lparen
  | rparen
  | lbracket
  | rbracket
  | lbrace
  | rbrace
  | implies
  | colon
  | comma
  | semi
  | dot
  | and
  | or
  | not
  | assumeKeyword
  | byKeyword
  | haveKeyword
  | theoremKeyword
  | forallKeyword
  | typeVar
  | identifier
deriving DecidableEq, Repr, Inhabited

namespace TokenKind

/-- The name of a class, as messages spell it. -/
def name : TokenKind → String
  | eof => "EOF"
  | lparen => "LParen"
  | rparen => "RParen"
  | lbracket => "LBracket"
  | rbracket => "RBracket"
  | lbrace => "LBrace"
  | rbrace => "RBrace"
  | implies => "Implies"
  | colon => "Colon"
  | comma => "Comma"
  | semi => "Semi"
  | dot => "Dot"
  | and => "And"
  | or => "Or"
  | not => "Not"
  | assumeKeyword => "AssumeKeyword"
  | byKeyword => "ByKeyword"
  | haveKeyword => "HaveKeyword"
  | theoremKeyword => "TheoremKeyword"
  | forallKeyword => "ForallKeyword"
  | typeVar => "TypeVar"
  | identifier => "Identifier"

/-- Every class, in the order of their numbers. -/
def all : List TokenKind :=
  [eof, lparen, rparen, lbracket, rbracket, lbrace, rbrace, implies, colon, comma, semi, dot,
    and, or, not, assumeKeyword, byKeyword, haveKeyword, theoremKeyword, forallKeyword, typeVar,
    identifier]

/-- The name of the class with a given number; a number without a class shows itself. -/
def nameOfNumber (n : Int) : String :=
  match n with
  | .ofNat i => (all[i]?).elim s!"TokenKind({n})" name
  | .negSucc _ => s!"TokenKind({n})"

/-- The class of a word that is reserved. -/
def ofKeyword? : String → Option TokenKind
  | "assume" => some assumeKeyword
  | "by" => some byKeyword
  | "have" => some haveKeyword
  | "theorem" => some theoremKeyword
  | "forall" => some forallKeyword
  | _ => none

/-- The class of a symbol of one byte. -/
def ofSymbol? (b : UInt8) : Option TokenKind :=
  match Char.ofNat b.toNat with
  | '(' => some lparen
  | ')' => some rparen
  | '[' => some lbracket
  | ']' => some rbracket
  | '\x7b' => some lbrace
  | '\x7d' => some rbrace
  | ':' => some colon
  | ',' => some comma
  | ';' => some semi
  | '.' => some dot
  | '&' => some and
  | '|' => some or
  | '~' => some not
  | _ => none

end TokenKind

/-- A lexeme with its place. The value is the spelling of a type variable or an identifier, and
empty for every other class. -/
structure Token where
  kind : TokenKind
  value : String
  loc : Location
deriving DecidableEq, Repr, Inhabited

namespace Token

/-- A token of a class with only one spelling. -/
def plain (kind : TokenKind) (loc : Location) : Token := ⟨kind, "", loc⟩

/-- The written form, as in `Identifier(a) [1, 1]`. -/
def text (t : Token) : String :=
  if t.value = "" then t.kind.name ++ " " ++ t.loc.text
  else t.kind.name ++ "(" ++ t.value ++ ") " ++ t.loc.text

end Token

end ProofScript
