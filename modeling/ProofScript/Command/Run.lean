import ProofScript.Command.Invocation
import ProofScript.Document.Outline
import ProofScript.Document.Printer
import ProofScript.Excerpt
import ProofScript.Oracle
import ProofScript.Text.Ansi

/-!
# Running commands

What each command does with the files it is given. A run writes to two streams as it goes and may
end in an error, which is shown after all the rest.
-/

namespace ProofScript.Command

/-- Why a command fails. -/
inductive Failure where
  | usage (e : UsageError)
  | config (e : ConfigError)
  | reading (path : String) (e : PathError)
  | accessing (path : String) (e : PathError)
  | listing (path : String) (e : PathError)
  | writing (e : PathError)
  | logging (e : PathError)
  | script (e : Excerpt)
  | broken (f : Fault)
  | unknownOracle (name : String)
  | checking (path : String) (oracle : Oracle) (f : OracleFault)
  | failed (failed total : Nat)
  | watching (directory : String) (cause : PathCause)
deriving Inhabited

namespace Failure

/-- The message of a failure, with the escape codes of a terminal. -/
def message : Failure → String
  | usage e => e.message
  | config e => e.message
  | reading path e => "reading " ++ path ++ ": " ++ e.message
  | accessing path e => "accessing " ++ path ++ ": " ++ e.message
  | listing path e => "reading directory " ++ path ++ ": " ++ e.message
  | writing e => e.message
  | logging e => "open lsp log: " ++ e.message
  | script e => e.text
  | broken f => f.message.getD ""
  | unknownOracle name =>
    "unknown oracle " ++ Text.quote name ++ " (want auto, tsc or builtin)"
  | checking path oracle f => "checking " ++ path ++ ": " ++ oracle.faultMessage f
  | failed n total => toString n ++ " of " ++ toString total ++ " files failed to check"
  | watching directory cause => "watching " ++ directory ++ ": " ++ cause.text

/-- Is the failure one of the command line? -/
def isUsage : Failure → Bool
  | usage _ => true
  | _ => false

/-- What is shown of a failure. One of the command line is followed by the usage of the command. -/
def report (version : Option String) (f : Failure) : String :=
  let usage := match f with
    | usage e => "\n\n" ++ e.command.usageText version
    | _ => ""
  Text.stripAnsi (f.message ++ usage) ++ "\n"

end Failure

/-- What a run has written. -/
structure Output where
  out : String
  err : String
deriving DecidableEq, Repr, Inhabited

/-- A run: it reads the level of its log, writes output, and may fail. -/
abbrev Run (m : Type → Type) := ExceptT Failure (ReaderT LogLevel (StateT Output m))

section

variable {m : Type → Type} [Monad m]

/-- Runs to the end. -/
def Run.execute {α : Type} (act : Run m α) (level : LogLevel) : m (Except Failure α × Output) :=
  ((ExceptT.run act).run level).run ⟨"", ""⟩

/-- Writes to the output. -/
def write (text : String) : Run m Unit := modify fun o => { o with out := o.out ++ text }

/-- Writes to the stream of errors. -/
def complain (text : String) : Run m Unit := modify fun o => { o with err := o.err ++ text }

/-- Writes the log lines of the level of the run. -/
def log (entries : List LogEntry) : Run m Unit := do complain (logText (← read) entries)

/-- Turns the failure of an operation into that of a run. -/
def orFail {ε α : Type} (toFailure : ε → Failure) : Except ε α → Run m α
  | .ok a => return a
  | .error e => throw (toFailure e)

end

/-- The settings for one file. -/
structure FileSettings where
  systemF : Bool
  oracle : OracleKind
  compiler : CompilerSettings
deriving DecidableEq, Repr, Inhabited

section

variable [Readers] {m : Type → Type} [Monad m] [Host m]

/-- The settings for a file: those of its project, where the command line does not set the mode. -/
def settingsFor (systemF : Option Bool) (path : String) : Run m FileSettings := do
  let found ← orFail .config (← ProjectConfig.find (m := m) (Path.directory path))
  let config := found.elim .default Prod.snd
  return ⟨systemF.getD config.systemF, config.oracle.getD .auto, config.compiler⟩

/-- The bytes of a script. -/
def source (path : String) : Run m (List UInt8) := do
  orFail (.reading path) (← Host.readFile (m := m) path)

/-- The failure of a script, shown with the lines around it. -/
def scriptFailure (path : String) (src : List UInt8) (e : ScriptError) : Failure :=
  .script ⟨e.message, path, e.loc, 1, Text.ofBytes src⟩

/-- The document of a script. -/
def documentOf (path : String) (src : List UInt8) (systemF : Bool) : Run m Document :=
  orFail (scriptFailure path src) (parse src systemF)

/-- Compiles a script. -/
def compileFile (path : String) (systemF : Bool) : Run m Compilation := do
  let src ← source path
  let (result, events) := compile src systemF
  log (events.map fun e => e.toLog.within [("file", path)])
  match result with
  | .ok c => return c
  | .error (.script e) => throw (scriptFailure path src e)
  | .error (.fault f) => throw (.broken f)

/-- Prints the tokens of a script. -/
def runLex (path : String) : Run m Unit := do
  let src ← source path
  let tokens ← orFail (scriptFailure path src ∘ .lex) (tokenize src)
  write (String.join (tokens.map fun t => t.text ++ "\n"))

/-- Prints the syntax tree of a script. -/
def runAst (systemF : Option Bool) (path : String) (dump : Bool) : Run m Unit := do
  let settings ← settingsFor systemF path
  let d ← documentOf path (← source path) settings.systemF
  write (if dump then (repr d).pretty ++ "\n" else d.outlineText)

/-- Prints the program of a script. -/
def runTransform (systemF : Option Bool) (path : String) : Run m Unit := do
  let settings ← settingsFor systemF path
  let c ← compileFile path settings.systemF
  write c.program.text

/-! ## Formatting -/

/-- What the names of scripts end in. -/
def extension : String := ".proof"

/-- The scripts that a path stands for: itself, or those directly in a directory. -/
def scriptsAt (path : String) : Run m (List String) := do
  match ← orFail (.accessing path) (← Host.entryKind (m := m) path) with
  | .file => return [path]
  | .directory =>
    let entries ← orFail (.listing path) (← Host.listDirectory (m := m) path)
    let isScript (e : String × EntryKind) : Bool :=
      e.2 ≠ .directory && extension.toList.isSuffixOf e.1.toList
    return (entries.filter isScript).map fun e => Path.join path e.1

end

section

variable [Readers] {m : Type → Type} [Monad m] [EditHost m]

/-- Formats a script: prints the result, writes it back, or names the file if it would change. -/
def formatFile (systemF : Option Bool) (inPlace list : Bool) (path : String) : Run m Unit := do
  let settings ← settingsFor (m := m) systemF path
  let src ← source path
  let text := (← documentOf path src settings.systemF).text
  let changed := Text.bytes text ≠ src
  if inPlace then
    if changed then
      orFail .writing (← EditHost.writeFile (m := m) path (Text.bytes text))
      if list then write (path ++ "\n")
  else if list then
    if changed then write (path ++ "\n")
  else write text

/-- Formats all scripts at some paths. -/
def runFormat (systemF : Option Bool) (paths : List String) (inPlace list : Bool) :
    Run m Unit := do
  let files ← paths.mapM scriptsAt
  files.flatten.forM (formatFile systemF inPlace list)

end

/-! ## Checking -/

section

variable [Readers] {m : Type → Type} [Monad m] [Host m]

/-- What checking a script leads to. -/
inductive Verdict where
  | broken (path : String) (e : Excerpt)
  | checked (path : String) (c : Compilation) (oracle : Oracle) (found : List Diagnostic)

namespace Verdict

/-- Is every theorem of the script proved? -/
def isGood : Verdict → Bool
  | broken .. => false
  | checked _ _ _ found => found.isEmpty

/-- Where a diagnostic is: in the script, or else in the program generated from it. -/
def place (path : String) (d : Diagnostic) : String :=
  match d.origin, d.position with
  | some loc, _ => path ++ ":" ++ toString loc.line ++ ":" ++ toString loc.column
  | none, some p => path ++ " (generated " ++ toString p.line ++ ":" ++ toString p.column ++ ")"
  | none, none => path

/-- The line about a diagnostic. -/
def line (path : String) (d : Diagnostic) : String :=
  place path d ++ ": error: " ++ d.message.text ++ " " ++ Text.stripAnsi ("(" ++ d.code ++ ")") ++ "\n"

/-- The line about a script that is proved. -/
def goodLine (path : String) (c : Compilation) (oracle : Oracle) : String :=
  let warnings := if c.warnings.isEmpty then ""
    else " (" ++ toString c.warnings.length ++ " warnings)"
  "ok " ++ path ++ ": " ++ toString c.document.theorems.length ++ " theorems checked by "
    ++ oracle.name ++ warnings ++ "\n"

/-- Shows a verdict. -/
def tell : Verdict → Run m Unit
  | broken _ e => complain (Text.stripAnsi e.text ++ "\n")
  | checked path c oracle found =>
    write (if found.isEmpty then goodLine path c oracle
      else String.join (found.map (line path)))

end Verdict

/-- Checks a script. A broken script has a verdict too, but an oracle that gives no answer is a
failure. -/
def checkFile (systemF : Option Bool) (oracle : Option OracleKind) (path : String) :
    Run m Verdict := do
  let settings ← settingsFor systemF path
  try
    let c ← compileFile path settings.systemF
    let (oracle, entries) ← Oracle.choose (m := m) (oracle.getD settings.oracle) settings.compiler
    log entries
    let (result, entries) ← oracle.check (m := m) c.program
    log entries
    return .checked path c oracle (← orFail (.checking path oracle) result)
  catch
    | .script e => return .broken path e
    | f => throw f

/-- The result of a run, as a value. -/
def attempt {α : Type} (act : Run m α) : Run m (Except Failure α) := do
  try return .ok (← act) catch f => return .error f

/-- Checks all scripts, then shows the verdicts, unless there was a failure. -/
def checkFiles (systemF : Option Bool) (oracle : Option OracleKind) (paths : List String) :
    Run m Unit := do
  let results ← paths.mapM fun path => attempt (checkFile systemF oracle path)
  let verdicts ← results.mapM (orFail id)
  verdicts.forM Verdict.tell
  let bad := verdicts.filter fun v => !v.isGood
  if !bad.isEmpty then throw (.failed bad.length verdicts.length)

/-- Makes sure that the directories of some paths can be watched. -/
def watchable (paths : List String) : Run m Unit := do
  let base ← Host.workingDirectory (m := m)
  paths.forM fun path => do
    let directory := Path.directory (Path.absolute base path)
    match ← Host.entryKind (m := m) directory with
    | .ok _ => return ()
    | .error e => throw (.watching directory e.cause)

/-- Checks some scripts once; when they are watched, a failure is shown and does not count. -/
def checkOnce (systemF : Option Bool) (oracle : Option OracleKind) (watch : Bool)
    (paths : List String) : Run m Unit := do
  if watch then
    match ← attempt (checkFiles systemF oracle paths) with
    | .ok () => return ()
    | .error f => complain (Text.stripAnsi f.message ++ "\n")
  else checkFiles systemF oracle paths

/-- The kind of oracle that the command line asks for, if it does. -/
def oracleOf (name : String) : Run m (Option OracleKind) :=
  if name = "" then return none
  else match OracleKind.ofName? name with
    | some kind => return some kind
    | none => throw (.unknownOracle name)

/-- Checks scripts. -/
def runCheck (systemF : Option Bool) (paths : List String) (oracle : String) (watch : Bool) :
    Run m Unit := do
  let kind ← oracleOf oracle
  if watch then watchable paths
  checkOnce systemF kind watch paths

end

/-! ## All commands -/

variable [Readers] {m : Type → Type} [Monad m] [EditHost m]

/-- Runs a task. Of the language server only the log is made ready: its messages are not part of
a run. -/
def runTask (version : Option String) (i : Invocation) : Run m Unit :=
  match i.task with
  | .lex path => runLex path
  | .ast path dump => runAst i.systemF path dump
  | .transform path => runTransform i.systemF path
  | .format paths inPlace list => runFormat i.systemF paths inPlace list
  | .check paths oracle watch => runCheck i.systemF paths oracle watch
  | .serve logFile => do
    if logFile ≠ "" then
      orFail .logging (← EditHost.writeFile (m := m) logFile [])
  | .help c => write (c.helpText version)
  | .version => write (programName ++ " version " ++ version.getD "" ++ "\n")

/-- Reads a command line and runs its task, which is returned if nothing fails. -/
def execute (version : Option String) (level : LogLevel) (arguments : List String) :
    m (Except Failure Task × Output) :=
  match Invocation.parse version arguments with
  | .error e => return (.error (.usage e), ⟨"", ""⟩)
  | .ok i => Run.execute (do runTask version i; return i.task) level

end ProofScript.Command
