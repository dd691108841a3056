import ProofScript.Diagnostic
import ProofScript.Text.Blank
import ProofScript.Text.Digits
import ProofScript.Word

/-!
# Diagnostics in a compiler's output

A TypeScript compiler reports errors line by line, as `file(line,column): error TSn: message` or,
without a place, as `error TSn: message`. Indented lines continue the message before them; all
other lines are noise. A line of 64 KiB or more ends the reading.
-/

namespace ProofScript

open Program

namespace Diagnostic

/-- What a line of output is. -/
inductive OutputLine where
  | placed (line column : Int) (code message : List Char)
  | general (code message : List Char)
  | continuation (text : List Char)
  | noise
deriving DecidableEq, Repr, Inhabited

/-- The rest of a text after a word at its front. -/
def after? (word : String) (cs : List Char) : Option (List Char) :=
  if word.toList.isPrefixOf cs then some (cs.drop word.length) else none

/-- A nonempty run of digits at the front of a text, and the text after it. -/
def digits? (cs : List Char) : Option (List Char × List Char) :=
  if (cs.takeWhile Char.isDigit).isEmpty then none
  else some (cs.takeWhile Char.isDigit, cs.dropWhile Char.isDigit)

/-- A line that starts with `error TSn: `: the code and the message. -/
def general? (cs : List Char) : Option (List Char × List Char) := do
  let cs ← after? "error " cs
  let tail ← after? "TS" cs
  let (number, rest) ← digits? tail
  let message ← after? ": " rest
  return ('T' :: 'S' :: number, message)

/-- The value of a run of digits, at most the largest word of 64 bits. -/
def clamped (ds : List Char) : Int := min (Text.digitsValue ds) (Word.half - 1)

/-- A text that starts with `(line,column): error TSn: `. -/
def placedHere? (cs : List Char) : Option OutputLine := do
  let cs ← after? "(" cs
  let (line, rest) ← digits? cs
  let cs ← after? "," rest
  let (column, rest) ← digits? cs
  let cs ← after? "): " rest
  let (code, message) ← general? cs
  return .placed (clamped line) (clamped column) code message

/-- The last place of a text where a report with a position starts. -/
def placed? : List Char → Option OutputLine
  | [] => none
  | c :: rest =>
    match placed? rest with
    | some r => some r
    | none => placedHere? (c :: rest)

/-- What a line is. Carriage returns at its end do not count. -/
def classify (cs : List Char) : OutputLine :=
  let cs := (cs.reverse.dropWhile (· == '\r')).reverse
  match placed? cs with
  | some r => r
  | none =>
    match general? cs with
    | some (code, message) => .general code message
    | none =>
      let text := Text.trimBy Text.isSpace cs
      let indented := match cs with
        | c :: _ => c == ' ' || c == '\t'
        | [] => false
      if indented && !text.isEmpty then .continuation text else .noise

/-- The lines of an output. The text after the last line feed is a line unless it is empty. -/
def outputLines : List Char → List (List Char)
  | [] => []
  | c :: rest =>
    if c = '\n' then [] :: outputLines rest
    else match outputLines rest with
      | line :: more => (c :: line) :: more
      | [] => [[c]]

/-- Does a line with its line feed fit into 64 KiB? -/
def fits (cs : List Char) : Bool := (cs.foldl (fun n c => n + c.utf8Size) 0) < 65536

/-- Puts what a line says behind the diagnostics before it, the last one first. -/
def extend (p : Printed) (found : List Diagnostic) (line : OutputLine) : List Diagnostic :=
  match line with
  | .placed l c code message =>
    .atOffset p (p.offsetOf l c) (String.ofList code) (String.ofList message) :: found
  | .general code message =>
    .atOffset p (-1) (String.ofList code) (String.ofList message) :: found
  | .continuation text =>
    match found with
    | d :: earlier =>
      { d with message := d.message.map (· ++ "\n" ++ String.ofList text) } :: earlier
    | [] => []
  | .noise => found

/-- The diagnostics of a program that an output reports. -/
def ofOutput (p : Printed) (output : String) : List Diagnostic :=
  let readable := (outputLines output.toList).takeWhile fits
  ((readable.map classify).foldl (extend p) []).reverse

end Diagnostic

end ProofScript
