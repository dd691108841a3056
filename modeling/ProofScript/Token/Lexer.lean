import ProofScript.Text.Quoted
import ProofScript.Text.Utf8
import ProofScript.Token

/-!
# Scanning

A cursor stands before the unread bytes of a script. `Cursor.scan` skips blanks, line breaks and
comments and reads one token; at the end of the script it reads the end token again and again.
A stream is all that repeated scanning yields: the tokens, and what stops them.
-/

namespace ProofScript

/-- A byte that starts no token. The character is the one encoded there. -/
structure LexError where
  loc : Location
  char : Char
deriving DecidableEq, Repr, Inhabited

/-- The message of a lexical error. -/
def LexError.message (e : LexError) : String :=
  "unexpected character " ++ Text.quoteChar e.char ++ " at " ++ e.loc.text

/-- An upper-case ASCII letter. -/
def isUpperByte (b : UInt8) : Bool := 0x41 ≤ b && b ≤ 0x5A

/-- A lower-case ASCII letter. -/
def isLowerByte (b : UInt8) : Bool := 0x61 ≤ b && b ≤ 0x7A

/-- An ASCII digit. -/
def isDigitByte (b : UInt8) : Bool := 0x30 ≤ b && b ≤ 0x39

/-- A byte that continues a word: a letter, a digit or an underscore. -/
def isWordByte (b : UInt8) : Bool :=
  isUpperByte b || isLowerByte b || isDigitByte b || b == 0x5F

/-- A blank that stays on its line: space, tab, form feed or vertical tab. -/
def isBlankByte (b : UInt8) : Bool := b == 0x20 || b == 0x09 || b == 0x0C || b == 0x0B

/-- Does the sequence start with this byte? -/
def startsWithByte (b : UInt8) : List UInt8 → Bool
  | [] => false
  | c :: _ => c == b

/-- The unread bytes of a script and the place of the first of them. -/
structure Cursor where
  rest : List UInt8
  loc : Location
deriving DecidableEq, Repr, Inhabited

namespace Cursor

/-- The cursor before a whole script. -/
def ofSource (src : List UInt8) : Cursor := ⟨src, .start⟩

/-- Skips blanks, line breaks and comments. A comment runs from two slashes to the end of its
line; a line ends at a line feed, at a carriage return, or at the pair of both. -/
def skipFrom (inComment : Bool) : List UInt8 → Location → Cursor
  | [], loc => ⟨[], loc⟩
  | b :: rest, loc =>
    if b = 0x0D then
      if startsWithByte 0x0A rest then skipFrom inComment rest loc
      else skipFrom false rest loc.newline
    else if b = 0x0A then skipFrom false rest loc.newline
    else if inComment || isBlankByte b then skipFrom inComment rest (loc.advance 1)
    else if b = 0x2F && startsWithByte 0x2F rest then skipFrom true rest (loc.advance 1)
    else ⟨b :: rest, loc⟩

/-- The cursor after the blanks, line breaks and comments in front of it. -/
def skipTrivia (c : Cursor) : Cursor := skipFrom false c.rest c.loc

/-- The longest word in front of the cursor, and the cursor after it. -/
def word (c : Cursor) : String × Cursor :=
  let w := c.rest.takeWhile isWordByte
  (Text.ofBytes w, ⟨c.rest.dropWhile isWordByte, c.loc.advance w.length⟩)

/-- Reads the token at the cursor, which does not stand before a blank or a comment. -/
def lexeme (c : Cursor) : Except LexError (Token × Cursor) :=
  match c.rest with
  | [] => .ok (.plain .eof c.loc, c)
  | b :: rest =>
    if b = 0x3D && startsWithByte 0x3E rest then
      .ok (.plain .implies c.loc, ⟨rest.tail, c.loc.advance 2⟩)
    else match TokenKind.ofSymbol? b with
      | some kind => .ok (.plain kind c.loc, ⟨rest, c.loc.advance 1⟩)
      | none =>
        if isUpperByte b then
          let (w, next) := c.word
          .ok (⟨.typeVar, w, c.loc⟩, next)
        else if isLowerByte b || b = 0x5F then
          let (w, next) := c.word
          match TokenKind.ofKeyword? w with
          | some kind => .ok (.plain kind c.loc, next)
          | none => .ok (⟨.identifier, w, c.loc⟩, next)
        else .error ⟨c.loc, (Text.decodeFirst c.rest).1⟩

/-- Reads the next token. -/
def scan (c : Cursor) : Except LexError (Token × Cursor) := c.skipTrivia.lexeme

end Cursor

/-- What repeated scanning yields: the tokens before the end, and the end token or the error that
stops them. -/
structure TokenStream where
  tokens : List Token
  stop : Except LexError Token
deriving Repr

namespace TokenStream

/-- The tokens that at most `fuel` scans yield. A token takes a byte, so one more scan than there
are bytes reaches the end. -/
def collect : Nat → Cursor → TokenStream
  | 0, c => ⟨[], .ok (.plain .eof c.loc)⟩
  | fuel + 1, c =>
    match c.scan with
    | .error e => ⟨[], .error e⟩
    | .ok (t, next) =>
      if t.kind = .eof then ⟨[], .ok t⟩
      else
        let s := collect fuel next
        ⟨t :: s.tokens, s.stop⟩

/-- The stream of a whole script. -/
def ofSource (src : List UInt8) : TokenStream := collect (src.length + 1) (.ofSource src)

/-- All tokens, the end token included, unless scanning stops with an error. -/
def toTokens (s : TokenStream) : Except LexError (List Token) :=
  match s.stop with
  | .ok t => .ok (s.tokens ++ [t])
  | .error e => .error e

/-- The token `n` places ahead. Past the end it is the end token again, or the error. -/
def peek (s : TokenStream) (n : Nat) : Except LexError Token :=
  match s.tokens[n]? with
  | some t => .ok t
  | none => s.stop

/-- The stream after its first token. -/
def next (s : TokenStream) : TokenStream := { s with tokens := s.tokens.tail }

end TokenStream

/-- All tokens of a script, the end token included. -/
def tokenize (src : List UInt8) : Except LexError (List Token) :=
  (TokenStream.ofSource src).toTokens

end ProofScript
