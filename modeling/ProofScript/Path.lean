/-!
# Paths

Slash-separated paths and the operations on them that look at nothing but the text: cleaning,
joining, and the directory of a path.
-/

namespace ProofScript.Path

/-- The parts of a path between slashes; an empty part stands before a leading slash, after a
trailing one and between two in a row. -/
def parts (path : String) : List String := go path.toList []
where
  /-- Splits the rest of a path, the characters of the current part in reverse. -/
  go : List Char → List Char → List String
    | [], part => [String.ofList part.reverse]
    | c :: rest, part =>
      if c = '/' then String.ofList part.reverse :: go rest [] else go rest (c :: part)

/-- Does the path start at the root? -/
def isAbsolute (path : String) : Bool := path.toList.head? == some '/'

/-- One more part behind a clean sequence of parts, the last of them first. -/
def step (rooted : Bool) (done : List String) (part : String) : List String :=
  if part = "" ∨ part = "." then done
  else if part = ".." then
    match done with
    | [] => if rooted then [] else [".."]
    | last :: rest => if last = ".." then ".." :: done else rest
  else part :: done

/-- The parts of the shortest path that means the same. -/
def cleanParts (path : String) : List String :=
  ((parts path).foldl (step (isAbsolute path)) []).reverse

/-- The path of clean parts. -/
def ofParts (rooted : Bool) (ps : List String) : String :=
  let body := "/".intercalate ps
  if rooted then "/" ++ body else if ps.isEmpty then "." else body

/-- The shortest path that means the same, where no part is a link. -/
def clean (path : String) : String := ofParts (isAbsolute path) (cleanParts path)

/-- Two paths one behind the other, cleaned. An empty one does not count. -/
def join (a b : String) : String :=
  if a = "" then (if b = "" then "" else clean b)
  else if b = "" then clean a
  else clean (a ++ "/" ++ b)

/-- The directory of a path. -/
def directory (path : String) : String :=
  clean (String.ofList (path.toList.reverse.dropWhile (· ≠ '/')).reverse)

/-- The path from the root, for a path that is read in a directory. -/
def absolute (base path : String) : String := if isAbsolute path then clean path else join base path

/-- The directories from that of the given parts up to the root, the parts being in reverse. -/
def upward : List String → List String
  | [] => ["/"]
  | part :: rest => ofParts true (part :: rest).reverse :: upward rest

/-- An absolute path and all the directories above it, the nearest first. -/
def ancestors (path : String) : List String := upward (cleanParts path).reverse

/-- Is the path a single name, without a slash? -/
def isName (path : String) : Bool := !path.toList.any (· == '/')

end ProofScript.Path
