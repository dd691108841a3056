import ProofScript.Command.Run
import ProofScript.Readers.Standard
import ProofScript.Server.Rpc

/-!
# The program

The outer layer: it connects commands and the language server to the files and streams of the
machine. Programs of the machine are not run, so the builtin oracle checks everything.
-/

namespace ProofScript.Terminal

/-- The cause of a failed operation. -/
def causeOf : IO.Error → PathCause
  | .noFileOrDirectory .. => .missing
  | .permissionDenied .. => .denied
  | .inappropriateType .. => .notDirectory
  | .invalidArgument .. => .invalid
  | _ => .missing

/-- The answer of an operation on a path, failures included. -/
def attempt {α : Type} (operation path : String) (act : IO α) : IO (Except PathError α) := do
  try return .ok (← act) catch e => return .error ⟨operation, path, causeOf e⟩

/-- Is there a directory at a path? -/
def isDirectory (path : String) : IO Bool := do
  try (← IO.FS.realPath path).isDir catch _ => return false

instance : EditHost IO where
  wait f := return settled f
  workingDirectory := return (← IO.currentDir).toString
  entryKind path := attempt "stat" path do
    if ← (← IO.FS.realPath path).isDir then return .directory else return .file
  readFile path := do
    if ← isDirectory path then return .error ⟨"read", path, .isDirectory⟩
    attempt "open" path do return (← IO.FS.readBinFile path).toList
  listDirectory path := attempt "open" path do
    let entries ← (← IO.FS.realPath path).readDir
    let kinds ← entries.toList.mapM fun e => do
      return (e.fileName, if ← e.path.isDir then EntryKind.directory else .file)
    return kinds.mergeSort fun a b => a.1 ≤ b.1
  hasProgram _ := return false
  launch l := return .error (.unknown l.program)
  isCancelled := return false
  writeFile path bytes := do
    if ← isDirectory path then return .error ⟨"open", path, .isDirectory⟩
    attempt "open" path (IO.FS.writeBinFile path ⟨bytes.toArray⟩)

/-- The length that the header of a message names. -/
def lengthIn (line : String) : Option Nat :=
  let key := "content-length:"
  if key.toList.isPrefixOf (Text.lower line).toList
  then Text.natural? (Text.trim (String.ofList (line.toList.drop key.length))).toList
  else none

/-- Reads the header of a message. -/
partial def readHeader (input : IO.FS.Stream) (length : Option Nat) : IO (Option Nat) := do
  let line ← input.getLine
  if line.isEmpty then return none
  if Text.trim line = "" then return length
  readHeader input (lengthIn line <|> length)

/-- Reads a number of bytes, or as many as there are. -/
partial def readExactly (input : IO.FS.Stream) (count : Nat) (done : ByteArray) :
    IO ByteArray := do
  if count ≤ done.size then return done
  let more ← input.read (USize.ofNat (count - done.size))
  if more.isEmpty then return done
  readExactly input count (done ++ more)

/-- Serves messages until the input ends. -/
partial def serve (say : List LogEntry → IO Unit) (input output : IO.FS.Stream) (s : Server) :
    IO Unit := do
  match ← readHeader input none with
  | none => return ()
  | some length =>
    let body ← readExactly input length .empty
    let ((sent, log), s) ← s.receive (Text.ofBytes body.toList)
    for j in sent do
      output.putStr (Server.framed j)
    output.flush
    say log
    serve say input output s

/-- Runs the language server. The log goes to a file if one is named. -/
def runServer (level : LogLevel) (logFile : String) : IO Unit := do
  let text ← IO.mkRef ""
  let err ← IO.getStderr
  let say (entries : List LogEntry) : IO Unit := do
    if logFile = "" then err.putStr (logText level entries)
    else
      text.modify (· ++ logText level entries)
      IO.FS.writeFile logFile (← text.get)
  say [Server.started]
  serve say (← IO.getStdin) (← IO.getStdout) Server.empty
  say [Server.ended]

/-- The contents of files, for comparison. -/
def contents (paths : List String) : IO (List (Option (List UInt8))) :=
  paths.mapM fun path => return (← Host.readFile path).toOption

/-- Writes what a command has written. -/
def put (o : Command.Output) : IO Unit := do
  (← IO.getStdout).putStr o.out
  (← IO.getStderr).putStr o.err

/-- Checks again whenever a file has changed. -/
partial def watch (again : IO Unit) (paths : List String) (last : List (Option (List UInt8))) :
    IO Unit := do
  IO.sleep 100
  let now ← contents paths
  if now ≠ last then again
  watch again paths now

/-- The version of the program. -/
def version : String := "v0.1.0"

/-- Runs a command line. -/
def run (level : LogLevel) (args : List String) : IO UInt32 := do
  let (result, output) ← Command.execute (some version) level args
  put output
  match result with
  | .error f =>
    (← IO.getStderr).putStr (f.report (some version))
    return 1
  | .ok (.serve logFile) =>
    runServer level logFile
    return 0
  | .ok (.check paths _ true) =>
    let again := do put (← Command.execute (some version) level args).2
    let files := paths ++ paths.map fun p =>
      Path.join (Path.directory p) ProjectConfig.fileName
    watch again files (← contents files)
    return 0
  | .ok _ => return 0

end ProofScript.Terminal

open ProofScript

/-- The program. -/
def main (args : List String) : IO UInt32 := do
  match LogLevel.ofSetting ((← IO.getEnv LogLevel.settingName).getD "") with
  | .ok level => Terminal.run level args
  | .error f =>
    (← IO.getStderr).putStr (f.message ++ "\n")
    return 1
