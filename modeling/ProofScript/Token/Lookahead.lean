import ProofScript.Token.Lexer

/-!
# Lookahead

A scanner reads tokens on demand and keeps the ones it has looked at but not handed out. Looking
ahead never changes what later calls hand out.
-/

namespace ProofScript

/-- A cursor with the tokens already scanned in front of it. -/
structure Scanner where
  buffer : List Token
  cursor : Cursor
deriving Repr, Inhabited

namespace Scanner

/-- The scanner at the start of a script. -/
def ofSource (src : List UInt8) : Scanner := ⟨[], .ofSource src⟩

/-- Hands out the next token. A token in the buffer goes first; after an error the cursor stays
behind the blanks it has skipped. -/
def next (s : Scanner) : Except LexError Token × Scanner :=
  match s.buffer with
  | t :: rest => (.ok t, { s with buffer := rest })
  | [] =>
    match s.cursor.scan with
    | .ok (t, c) => (.ok t, { s with cursor := c })
    | .error e => (.error e, { s with cursor := s.cursor.skipTrivia })

/-- Scans `n` more tokens into the buffer, or stops at the first error. -/
def fill : Nat → Scanner → Except LexError Unit × Scanner
  | 0, s => (.ok (), s)
  | n + 1, s =>
    match s.cursor.scan with
    | .ok (t, c) => fill n ⟨s.buffer ++ [t], c⟩
    | .error e => (.error e, { s with cursor := s.cursor.skipTrivia })

/-- Shows the token `n` places past the next one without handing anything out. -/
def peek (s : Scanner) (n : Nat) : Except LexError Token × Scanner :=
  match fill (n + 1 - s.buffer.length) s with
  | (.error e, s) => (.error e, s)
  | (.ok (), s) => (.ok ((s.buffer[n]?).getD (.plain .eof s.cursor.loc)), s)

end Scanner

end ProofScript
