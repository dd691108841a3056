import ProofScript.Path
import ProofScript.Settling
import ProofScript.Text.Quoted

/-!
# The machine around the program

What the program asks of the machine it runs on: to look at files, to list directories, to run
other programs, to write files, and to wait for computations that need not end. The answers are values,
failures included, so that everything else is a function of them.
-/

namespace ProofScript

/-- What a path leads to. -/
inductive EntryKind where
  | file
  | directory
deriving DecidableEq, Repr, Inhabited

/-- Why a path cannot be used. -/
inductive PathCause where
  | missing
  | notDirectory
  | isDirectory
  | nameTooLong
  | denied
  | invalid
deriving DecidableEq, Repr, Inhabited

/-- The wording of a cause. -/
def PathCause.text : PathCause → String
  | missing => "no such file or directory"
  | notDirectory => "not a directory"
  | isDirectory => "is a directory"
  | nameTooLong => "file name too long"
  | denied => "permission denied"
  | invalid => "invalid argument"

/-- A failed operation on a path. -/
structure PathError where
  operation : String
  path : String
  cause : PathCause
deriving DecidableEq, Repr, Inhabited

/-- The message of a failed operation. -/
def PathError.message (e : PathError) : String :=
  e.operation ++ " " ++ e.path ++ ": " ++ e.cause.text

/-- Why a program does not start. -/
inductive LaunchFault where
  | unknown (name : String)
  | path (e : PathError)
  | cancelled
deriving DecidableEq, Repr, Inhabited

/-- The message of a run that was called off. -/
def cancelledMessage : String := "context canceled"

/-- The wording of a fault. -/
def LaunchFault.message : LaunchFault → String
  | unknown name => "exec: " ++ Text.quote name ++ ": executable file not found in $PATH"
  | path e => e.message
  | cancelled => cancelledMessage

/-- What a program printed and the status it ended with. -/
structure ProgramRun where
  output : String
  status : Nat
deriving DecidableEq, Repr, Inhabited

/-- The wording of a status. -/
def ProgramRun.statusText (r : ProgramRun) : String := "exit status " ++ toString r.status

/-- A program to run. With a source text it runs in a directory of its own, which has the text as
`proof.ts`, and the path of that file is its last argument. -/
structure Launch where
  program : String
  arguments : List String
  source : Option String
deriving DecidableEq, Repr, Inhabited

/-- The questions that the program asks of the machine. -/
class Host (m : Type → Type) extends Waits m where
  /-- The directory that relative paths start in. -/
  workingDirectory : m String
  /-- What a path leads to. -/
  entryKind : String → m (Except PathError EntryKind)
  /-- The bytes of a file. -/
  readFile : String → m (Except PathError (List UInt8))
  /-- The names in a directory, in ascending order. -/
  listDirectory : String → m (Except PathError (List (String × EntryKind)))
  /-- Is there a program of this name or path? -/
  hasProgram : String → m Bool
  /-- Runs a program. -/
  launch : Launch → m (Except LaunchFault ProgramRun)
  /-- Has the run been called off? -/
  isCancelled : m Bool

/-- A machine whose files can be written. -/
class EditHost (m : Type → Type) extends Host m where
  /-- Replaces the content of a file. -/
  writeFile : String → List UInt8 → m (Except PathError Unit)

end ProofScript
