import ProofScript.Host.FileTree
import ProofScript.Readers.Standard

/-!
# Machines in memory

A machine as a value: its files, its programs, and the directory it works in. A program is a
function from its arguments to what it prints.
-/

namespace ProofScript

/-- A machine. Its programs are known by their absolute paths. -/
structure Machine where
  files : FileTree
  workingDirectory : String
  programs : List (String × (List String → ProgramRun))
  searchPath : List String
  cancelled : Bool
deriving Inhabited

namespace Machine

/-- The path from the root of a path that is read in a directory. -/
def fromRoot (base path : String) : String :=
  if path = "" || Path.isAbsolute path then path else base ++ "/" ++ path

/-- The entry that a path leads to. -/
def resolve (m : Machine) (base path : String) : Except PathCause (List String × FileTree) :=
  m.files.resolve (fromRoot base path)

/-- The entry that a path leads to, for an operation. -/
def entry (m : Machine) (operation path : String) : Except PathError (List String × FileTree) :=
  (m.resolve m.workingDirectory path).mapError fun cause => ⟨operation, path, cause⟩

/-- The kind of the entry that a path leads to. -/
def entryKind (m : Machine) (path : String) : Except PathError EntryKind :=
  (m.entry "stat" path).map fun (_, t) => t.kind

/-- The bytes of a file. -/
def readFile (m : Machine) (path : String) : Except PathError (List UInt8) :=
  match m.entry "open" path with
  | .error e => .error e
  | .ok (_, .file bytes) => .ok bytes
  | .ok (_, .directory _) => .error ⟨"read", path, .isDirectory⟩

/-- The names in a directory. -/
def listDirectory (m : Machine) (path : String) : Except PathError (List (String × EntryKind)) :=
  match m.entry "open" path with
  | .error e => .error e
  | .ok (_, .file _) => .error ⟨"readdirent", path, .notDirectory⟩
  | .ok (_, .directory entries) =>
    .ok ((entries.map fun (name, t) => (name, t.kind)).mergeSort fun a b => a.1 ≤ b.1)

/-- Replaces the content of a file, or makes one in a directory that exists. -/
def writeFile (m : Machine) (path : String) (bytes : List UInt8) : Except PathError Unit × Machine :=
  let put (names : List String) : Machine :=
    { m with files := m.files.insert (.file bytes) names }
  match m.entry "open" path with
  | .ok (_, .directory _) => (.error ⟨"open", path, .isDirectory⟩, m)
  | .ok (names, .file _) => (.ok (), put names)
  | .error e =>
    let parts := Path.parts (fromRoot m.workingDirectory path)
    let name := parts.getLast?.getD ""
    if e.cause ≠ .missing ∨ name = "" then (.error e, m)
    else match m.files.resolve ("/".intercalate parts.dropLast ++ "/") with
      | .ok (names, .directory _) => (.ok (), put (names ++ [name]))
      | _ => (.error e, m)

/-- The program at a path. -/
def programAt? (m : Machine) (base path : String) : Except PathCause (List String → ProgramRun) :=
  match m.resolve base path with
  | .error cause => .error cause
  | .ok _ =>
    match m.programs.find? (·.1 = Path.absolute base path) with
    | some (_, run) => .ok run
    | none => .error .denied

/-- The program that a name or a path means, for a run that starts in a directory. A name is looked
up along the search path. -/
def program (m : Machine) (base name : String) : Except LaunchFault (List String → ProgramRun) :=
  if Path.isName name then
    match m.searchPath.findSome? fun dir => (m.programAt? base (Path.join dir name)).toOption with
    | some run => .ok run
    | none => .error (.unknown name)
  else (m.programAt? base name).mapError fun cause => .path ⟨"fork/exec", name, cause⟩

/-- The directory of its own that a program with a source text runs in. -/
def scratch : String := "/tmp/scratch"

/-- Runs a program. -/
def launch (m : Machine) (l : Launch) : Except LaunchFault ProgramRun := do
  if Path.isName l.program then
    discard (m.program m.workingDirectory l.program)
  if m.cancelled then throw .cancelled
  match l.source with
  | none => return (← m.program m.workingDirectory l.program) l.arguments
  | some _ => return (← m.program scratch l.program) (l.arguments ++ [scratch ++ "/proof.ts"])

end Machine

variable {n : Type → Type} [Monad n] [Waits n]

/-- Programs run on a machine as they run elsewhere, and wait as they wait there. -/
instance : EditHost (StateT Machine n) where
  wait f := StateT.lift (Waits.wait f)
  workingDirectory := return (← get).workingDirectory
  entryKind path := return (← get).entryKind path
  readFile path := return (← get).readFile path
  listDirectory path := return (← get).listDirectory path
  hasProgram name := do
    let m ← get
    return (m.program m.workingDirectory name).toOption.isSome
  launch l := return (← get).launch l
  isCancelled := return (← get).cancelled
  writeFile path bytes := modifyGet fun m => m.writeFile path bytes

end ProofScript
