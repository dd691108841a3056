import ProofScript.Version

/-!
# Version ranges

Conditions on versions, as in `>= 4.5, < 6 || 3.x`: alternatives of bounds, a bound being an
operator and a version pattern. A pattern may leave parts open, by omission or by a wildcard, and
the operators read an open part each in their own way. A range that a version misses tells why,
bound by bound.
-/

namespace ProofScript

namespace Version

/-- The operators of bounds. -/
inductive Operator where
  | exact
  | differs
  | above
  | below
  | atLeast
  | atMost
  | tilde
  | caret
deriving DecidableEq, Repr, Inhabited

/-- The operator with a given spelling. -/
def Operator.ofSpelling? : String → Option Operator
  | "" => some exact
  | "=" => some exact
  | "!=" => some differs
  | ">" => some above
  | "<" => some below
  | ">=" => some atLeast
  | "=>" => some atLeast
  | "<=" => some atMost
  | "=<" => some atMost
  | "~" => some tilde
  | "~>" => some tilde
  | "^" => some caret
  | _ => none

/-- The first part that a pattern leaves open. -/
inductive Openness where
  | major
  | minor
  | patch
  | closed
deriving DecidableEq, Repr, Inhabited

/-- A bound: an operator, the least version of its pattern, what the pattern leaves open, and the
spelling of the pattern. -/
structure Bound where
  operator : Operator
  version : Version
  openness : Openness
  spelling : String
deriving DecidableEq, Repr, Inhabited

/-- Alternatives of conjunctions of bounds. -/
structure Range where
  alternatives : List (List Bound)
deriving DecidableEq, Repr, Inhabited

/-- Why a text is not a range. -/
inductive RangeFault where
  | improper (part : String)
  | badVersion
deriving DecidableEq, Repr, Inhabited

/-- The wording of a fault. -/
def RangeFault.message : RangeFault → String
  | improper part => "improper constraint: " ++ part
  | badVersion => "constraint Parser Error"

/-! ## Patterns -/

/-- A character of the numeric parts of a pattern. -/
def isPatternChar (c : Char) : Bool := c.isDigit || c == '|' || c == 'x' || c == 'X' || c == '*'

/-- A pattern as it is spelled: its numeric parts, its prerelease mark, and all of it. -/
structure Pattern where
  parts : List (List Char)
  pre : List String
  spelling : List Char
deriving DecidableEq, Repr, Inhabited

/-- The longest pattern at the front of a text, and the text after it. -/
def takePattern? (cs : List Char) : Option (Pattern × List Char) :=
  let body := skipV cs
  let first := body.takeWhile isPatternChar
  if first.isEmpty then none
  else
    let (more, rest) := takeDotted isPatternChar 2 (body.dropWhile isPatternChar)
    let (pre, rest) := takeSigned '-' rest
    let (_, rest) := takeSigned '+' rest
    some (⟨first :: more, pre, cs.take (cs.length - rest.length)⟩, rest)

/-- Is a numeric part a wildcard? -/
def isWildcard (part : List Char) : Bool := part == ['x'] || part == ['X'] || part == ['*']

/-- Is a numeric part left open? -/
def isOpen : Option (List Char) → Bool
  | none => true
  | some part => isWildcard part

/-- The bound of an operator and a pattern. -/
def Bound.ofPattern (operator : Operator) (p : Pattern) : Except RangeFault Bound :=
  let mark := if p.pre.isEmpty then "" else "-" ++ ".".intercalate p.pre
  let part (i : Nat) := String.ofList (p.parts[i]?.getD [])
  let (openness, spelling) :=
    if isOpen p.parts[0]? then (Openness.major, "0.0.0" ++ mark)
    else if isOpen p.parts[1]? then (.minor, part 0 ++ ".0.0" ++ mark)
    else if isOpen p.parts[2]? then (.patch, part 0 ++ "." ++ part 1 ++ ".0" ++ mark)
    else (.closed, String.ofList p.spelling)
  match Version.parse spelling with
  | .ok v => .ok ⟨operator, v, openness, String.ofList p.spelling⟩
  | .error _ => .error .badVersion

/-! ## Reading ranges -/

/-- Is the character part of an operator? -/
def isOperatorChar (c : Char) : Bool :=
  c == '=' || c == '!' || c == '>' || c == '<' || c == '~' || c == '^'

/-- A bound with the blanks inside it, and the text after it. -/
def takeBound? (cs : List Char) : Option ((Operator × Pattern) × List Char) := do
  let operator ← Operator.ofSpelling? (String.ofList (cs.takeWhile isOperatorChar))
  let (pattern, rest) ← takePattern? ((cs.dropWhile isOperatorChar).dropWhile Text.isBlank)
  return ((operator, pattern), rest)

/-- Bounds, each but the first after blanks or a comma, up to the end of the text. -/
def bounds? : Nat → List Char → Option (List (Operator × Pattern))
  | 0, _ => none
  | fuel + 1, cs => do
    let (bound, rest) ← takeBound? cs
    let next := rest.dropWhile Text.isBlank
    match next with
    | [] => return [bound]
    | ',' :: tail => return bound :: (← bounds? fuel (tail.dropWhile Text.isBlank))
    | _ =>
      if next.length < rest.length then return bound :: (← bounds? fuel next) else none

/-- A span of two patterns around a dash with blanks on both sides, together with the blanks around
it, and the text after it. -/
def takeSpan? (cs : List Char) : Option ((List Char × List Char × List Char) × List Char) := do
  let (low, rest) ← takePattern? (cs.dropWhile Text.isBlank)
  let dash := rest.dropWhile Text.isBlank
  match dash with
  | '-' :: tail =>
    let start := tail.dropWhile Text.isBlank
    if dash.length < rest.length && start.length < tail.length then
      let (high, rest) ← takePattern? start
      let rest := rest.dropWhile Text.isBlank
      return ((cs.take (cs.length - rest.length), low.spelling, high.spelling), rest)
    else none
  | _ => none

/-- All spans of a text, from left to right. -/
def spans : Nat → List Char → List (List Char × List Char × List Char)
  | 0, _ => []
  | _, [] => []
  | fuel + 1, c :: cs =>
    match takeSpan? (c :: cs) with
    | some (span, rest) => span :: spans fuel rest
    | none => spans fuel cs

/-- Replaces the first occurrence of a sequence in a text. -/
def replaceFirst (old new : List Char) : List Char → List Char
  | [] => if old.isEmpty then new else []
  | c :: cs =>
    if old.isPrefixOf (c :: cs) then new ++ (c :: cs).drop old.length
    else c :: replaceFirst old new cs

/-- A text with two bounds in place of every span. -/
def expandSpans (cs : List Char) : List Char :=
  (spans (cs.length + 1) cs).foldl (fun acc (whole, low, high) =>
    replaceFirst whole (">= ".toList ++ low ++ ", <= ".toList ++ high ++ [' ']) acc) cs

/-- The parts of a text between double bars. -/
def splitAlternatives : List Char → List (List Char)
  | '|' :: '|' :: rest => [] :: splitAlternatives rest
  | c :: rest =>
    match splitAlternatives rest with
    | part :: more => (c :: part) :: more
    | [] => [[c]]
  | [] => [[]]

/-- One alternative. -/
def alternative (cs : List Char) : Except RangeFault (List Bound) :=
  match bounds? (cs.length + 1) (cs.dropWhile Text.isBlank) with
  | some found => found.mapM fun (operator, pattern) => Bound.ofPattern operator pattern
  | none => .error (.improper (String.ofList cs))

/-- Reads a range. -/
def Range.parse (s : String) : Except RangeFault Range := do
  let alternatives ← (splitAlternatives (expandSpans s.toList)).mapM alternative
  return ⟨alternatives⟩

/-! ## Testing versions -/

namespace Bound

/-- Is a version of the series of a tilde bound: the same major part, and the same minor part
unless that is open? -/
def tildeMiss? (b : Bound) (v : Version) : Option String :=
  let w := b.version
  if v.compare w = .lt then some " is less than "
  else if w.major = 0 ∧ w.minor = 0 ∧ w.patch = 0 ∧ b.openness ≠ .minor ∧ b.openness ≠ .patch then
    none
  else if v.major ≠ w.major then some " does not have same major version as "
  else if v.minor ≠ w.minor ∧ b.openness ≠ .minor then
    some " does not have same major and minor version as "
  else none

/-- How a version misses a bound: the words between the version and the pattern, and those after
the pattern. -/
def miss? (b : Bound) (v : Version) : Option (String × String) :=
  let w := b.version
  let plain (words : String) := some (words, "")
  let unless_ (ok : Bool) (words : String) := if ok then none else plain words
  match b.operator with
  | .exact =>
    if b.openness = .closed then unless_ (v.compare w == .eq) " is not equal to "
    else (b.tildeMiss? v).bind plain
  | .tilde => (b.tildeMiss? v).bind plain
  | .differs =>
    let other := match b.openness with
      | .closed => v.compare w != .eq
      | .major => w.major != v.major || w.minor != v.minor || w.patch != v.patch
          || v.compare w != .eq
      | .minor => w.major != v.major
      | .patch => w.major != v.major || w.minor != v.minor
          || Version.comparePre v.pre w.pre != .eq
    unless_ other " is equal to "
  | .above =>
    let beyond := match b.openness with
      | .minor => w.major < v.major
      | .patch => w.major < v.major || (v.major == w.major && w.minor < v.minor)
      | _ => v.compare w == .gt
    unless_ beyond " is less than or equal to "
  | .below => unless_ (v.compare w == .lt) " is greater than or equal to "
  | .atLeast => unless_ (v.compare w != .lt) " is less than "
  | .atMost =>
    let within := match b.openness with
      | .closed => v.compare w != .gt
      | .minor => v.major ≤ w.major
      | _ => v.major < w.major || (v.major == w.major && v.minor ≤ w.minor)
    unless_ within " is greater than "
  | .caret =>
    if v.compare w = .lt then plain " is less than "
    else if 0 < w.major ∨ b.openness = .minor then
      unless_ (v.major == w.major) " does not have same major version as "
    else if 0 < v.major then plain " does not have same major version as "
    else if 0 < w.minor ∨ b.openness = .patch then
      if v.minor = w.minor then none
      else some (" does not have same minor version as ",
        ". Expected minor versions to match when constraint major version is 0")
    else if 0 < v.minor then plain " does not have same minor version as "
    else if v.patch = w.patch then none
    else some (" does not equal ",
      ". Expect version and constraint to equal when major and minor versions are 0")

/-- Does a bound without a prerelease mark meet a prerelease? -/
def refusesPrerelease (b : Bound) (v : Version) : Bool := !b.version.isPrerelease && v.isPrerelease

end Bound

/-- Why a version misses a bound. A prerelease misses every bound that names none. -/
inductive Miss where
  | prerelease
  | bound (words : String)
deriving DecidableEq, Repr, Inhabited

/-- Why a version misses one bound, if it does. -/
def Bound.test (b : Bound) (v : Version) : Option Miss :=
  if b.refusesPrerelease v then some .prerelease
  else (b.miss? v).map fun (before, after) => .bound (v.text ++ before ++ b.spelling ++ after)

/-- The wording of a miss. -/
def Miss.message (v : Version) : Miss → String
  | prerelease =>
    v.text ++ " is a prerelease version and the constraint is only looking for release versions"
  | bound words => words

/-- Keeps the first of the misses of prereleases only. -/
def dropRepeats : List Miss → List Miss
  | [] => []
  | .prerelease :: rest => .prerelease :: rest.filter (· ≠ .prerelease)
  | m :: rest => m :: dropRepeats rest

/-- Does a version lie in a range, and if it does not, why? -/
def Range.test (r : Range) (v : Version) : Except (List String) Unit :=
  let misses := r.alternatives.map fun bounds => bounds.filterMap (·.test v)
  if misses.any List.isEmpty then .ok ()
  else .error ((dropRepeats misses.flatten).map (Miss.message v))

end Version

end ProofScript
