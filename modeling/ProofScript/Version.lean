import ProofScript.Text.Blank
import ProofScript.Text.Digits
import ProofScript.Text.Quoted
import ProofScript.Word

/-!
# Versions

Version numbers of three parts with an optional mark of a prerelease and optional build data. A
missing part is zero. The order is by the three parts; a prerelease comes before its release, and
prereleases compare part by part.
-/

namespace ProofScript

/-- A version number. -/
structure Version where
  major : Nat
  minor : Nat
  patch : Nat
  pre : List String
  build : List String
deriving DecidableEq, Repr, Inhabited

namespace Version

/-- Why a text is not a version. -/
inductive Fault where
  | shape
  | range (digits : String)
  | leadingZero
deriving DecidableEq, Repr, Inhabited

/-- The wording of a fault. -/
def Fault.message : Fault → String
  | shape => "Invalid Semantic Version"
  | range digits =>
    "Error parsing version segment: strconv.ParseUint: parsing " ++ Text.quote digits
      ++ ": value out of range"
  | leadingZero => "Version segment starts with 0"

/-- A character of a prerelease mark or of build data. -/
def isMarkChar (c : Char) : Bool := c.isAlphanum || c == '-'

/-- The longest dotted sequence of nonempty runs of mark characters at the front of a text, and the
text after it. It is empty where the text does not start with such a character. -/
def takeMark : Nat → List Char → List String × List Char
  | 0, cs => ([], cs)
  | fuel + 1, cs =>
    let run := cs.takeWhile isMarkChar
    let rest := cs.dropWhile isMarkChar
    if run.isEmpty then ([], cs)
    else match rest with
      | '.' :: tail =>
        match takeMark fuel tail with
        | ([], _) => ([String.ofList run], rest)
        | (more, tail) => (String.ofList run :: more, tail)
      | _ => ([String.ofList run], rest)

/-- The mark after a sign, if both are there, and the text after them. -/
def takeSigned (sign : Char) (cs : List Char) : List String × List Char :=
  match cs with
  | c :: tail =>
    if c = sign then
      match takeMark (tail.length + 1) tail with
      | ([], _) => ([], cs)
      | found => found
    else ([], cs)
  | [] => ([], cs)

/-- Up to `count` runs of characters of a class, each after a dot, and the text after them. -/
def takeDotted (p : Char → Bool) : Nat → List Char → List (List Char) × List Char
  | 0, cs => ([], cs)
  | count + 1, cs =>
    match cs with
    | '.' :: tail =>
      if (tail.takeWhile p).isEmpty then ([], cs)
      else
        let (more, rest) := takeDotted p count (tail.dropWhile p)
        (tail.takeWhile p :: more, rest)
    | _ => ([], cs)

/-- The text after an optional `v`. -/
def skipV : List Char → List Char
  | 'v' :: rest => rest
  | cs => cs

/-- The value of one part. Parts are words of 64 bits. -/
def part (ds : List Char) : Except Fault Nat :=
  let n := Text.digitsValue ds
  if n < Word.count then .ok n else .error (.range (String.ofList ds))

/-- Is a part of a prerelease mark a number with a needless zero in front? -/
def hasLeadingZero (s : String) : Bool :=
  s.toList.all Char.isDigit && 1 < s.length && s.toList.head? == some '0'

/-- Reads a version. -/
def parse (s : String) : Except Fault Version := do
  let cs := skipV s.toList
  let first := cs.takeWhile Char.isDigit
  let (more, rest) := takeDotted Char.isDigit 2 (cs.dropWhile Char.isDigit)
  let (pre, rest) := takeSigned '-' rest
  let (build, rest) := takeSigned '+' rest
  if first.isEmpty || !rest.isEmpty then throw .shape
  let major ← part first
  let minor ← part (more[0]?.getD [])
  let patch ← part (more[1]?.getD [])
  if pre.any hasLeadingZero then throw .leadingZero
  return ⟨major, minor, patch, pre, build⟩

/-- The written form of a version. -/
def text (v : Version) : String :=
  let mark (sign : String) (parts : List String) :=
    if parts.isEmpty then "" else sign ++ ".".intercalate parts
  toString v.major ++ "." ++ toString v.minor ++ "." ++ toString v.patch
    ++ mark "-" v.pre ++ mark "+" v.build

/-- Is the version a prerelease? -/
def isPrerelease (v : Version) : Bool := !v.pre.isEmpty

/-- The value of a part of a prerelease mark that is a number of 64 bits. -/
def markNumber? (s : String) : Option Nat := (Text.natural? s.toList).filter (· < Word.count)

/-- Compares two parts of prerelease marks: numbers come before words. -/
def compareMark (a b : String) : Ordering :=
  match markNumber? a, markNumber? b with
  | some m, some n => Ord.compare m n
  | some _, none => .lt
  | none, some _ => .gt
  | none, none => Ord.compare a b

/-- Compares two prerelease marks part by part; a mark comes before its extensions. -/
def comparePre : List String → List String → Ordering
  | [], [] => .eq
  | [], _ :: _ => .lt
  | _ :: _, [] => .gt
  | a :: as, b :: bs => if a = b then comparePre as bs else compareMark a b

/-- Compares two versions. Build data does not count. -/
def compare (a b : Version) : Ordering :=
  (Ord.compare a.major b.major).then <|
    (Ord.compare a.minor b.minor).then <|
      (Ord.compare a.patch b.patch).then <|
        match a.pre, b.pre with
        | [], [] => .eq
        | [], _ :: _ => .gt
        | _ :: _, [] => .lt
        | p, q => comparePre p q

end Version

end ProofScript
