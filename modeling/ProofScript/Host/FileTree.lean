import ProofScript.Host

/-!
# File trees

Files and directories as a value. A path is followed part by part from the root: `..` leads to the
directory above, and every part but the last has to be a directory.
-/

namespace ProofScript

/-- A file with its bytes, or a directory with its entries. -/
inductive FileTree where
  | file (bytes : List UInt8)
  | directory (entries : List (String × FileTree))
deriving Inhabited

namespace FileTree

/-- A directory without entries. -/
def empty : FileTree := directory []

/-- The kind of an entry. -/
def kind : FileTree → EntryKind
  | file _ => .file
  | directory _ => .directory

/-- The entry of a directory with a given name. -/
def child? (t : FileTree) (name : String) : Option FileTree :=
  match t with
  | file _ => none
  | directory entries => (entries.find? (·.1 = name)).map Prod.snd

/-- Sets the entry of a directory with a given name; a file becomes a directory. -/
def setChild (t : FileTree) (name : String) (child : FileTree) : FileTree :=
  match t with
  | file _ => directory [(name, child)]
  | directory entries =>
    directory (entries.filter (·.1 ≠ name) ++ [(name, child)])

/-- Puts an entry at the end of a sequence of names, with the directories that this takes. -/
def insert (t : FileTree) (entry : FileTree) : List String → FileTree
  | [] => entry
  | name :: rest => t.setChild name (insert ((t.child? name).getD empty) entry rest)

/-- Removes the entry at the end of a sequence of names. -/
def remove (t : FileTree) : List String → FileTree
  | [] => t
  | [name] =>
    match t with
    | file _ => t
    | directory entries => directory (entries.filter (·.1 ≠ name))
  | name :: rest =>
    match t.child? name with
    | some child => t.setChild name (child.remove rest)
    | none => t

/-- Makes a directory, unless there is one already. -/
def makeDirectory (t : FileTree) (names : List String) : FileTree :=
  let rec walk (t : FileTree) : List String → FileTree
    | [] => t
    | name :: rest => t.setChild name (walk ((t.child? name).getD empty) rest)
  walk t names

/-- Follows the parts of a path. The directories walked through are kept, the innermost first, for
`..` to lead back. -/
def walk : FileTree → List (String × FileTree) → String → List String →
    Except PathCause (List String × FileTree)
  | t, above, name, [] => .ok ((above.map Prod.fst).reverse.drop 1 ++ [name], t)
  | t, above, name, part :: rest =>
    match t with
    | file _ => .error .notDirectory
    | directory _ =>
      if part = "" ∨ part = "." then walk t above name rest
      else if part = ".." then
        match above with
        | (outerName, outer) :: more => walk outer more outerName rest
        | [] => walk t [] name rest
      else if 255 < part.utf8ByteSize then .error .nameTooLong
      else match t.child? part with
        | some child => walk child ((name, t) :: above) part rest
        | none => .error .missing

/-- The entry that a path from the root leads to, and the names that lead there. -/
def resolve (root : FileTree) (path : String) : Except PathCause (List String × FileTree) :=
  if path = "" then .error .missing
  else if path.toList.any (·.toNat == 0) then .error .invalid
  else walk root [] "" (Path.parts path)

end FileTree

end ProofScript
