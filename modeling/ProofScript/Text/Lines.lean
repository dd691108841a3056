/-!
# Lines

A line ends at a line feed, at a carriage return, or at the pair of both. The text after the last
line end is a line too, possibly an empty one.
-/

namespace ProofScript.Text

/-- Puts a character in front of the first line. -/
def consLine (c : Char) : List (List Char) → List (List Char)
  | [] => [[c]]
  | line :: rest => (c :: line) :: rest

/-- The lines of a character sequence. -/
def splitChars : List Char → List (List Char)
  | [] => [[]]
  | c :: rest =>
    if c = '\n' then [] :: splitChars rest
    else if c = '\r' then
      match rest with
      | '\n' :: _ => splitChars rest
      | _ => [] :: splitChars rest
    else consLine c (splitChars rest)

/-- The lines of a text. -/
def lines (s : String) : List String := (splitChars s.toList).map String.ofList

/-- A text with blanks in front, up to a width. -/
def padLeft (width : Nat) (s : String) : String :=
  "".pushn ' ' (width - s.utf8ByteSize) ++ s

end ProofScript.Text
