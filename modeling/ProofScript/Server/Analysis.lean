import ProofScript.Oracle
import ProofScript.Server.Message
import ProofScript.Symbols

/-!
# What is known about a document

The text of a document is compiled and checked with the settings of the project that its file lies
in. The result is a list of problems for the editor, together with the symbols of the text.
-/

namespace ProofScript.Server

/-- What is known about a text. The symbols are missing when the text cannot be parsed, and the
failure is that of an oracle that gives no answer. -/
structure Analysis where
  systemF : Bool
  symbols : Option SymbolTable
  problems : List Problem
  failure : Option String
  log : List LogEntry
deriving Inhabited

namespace Analysis

/-- Where a problem without a place of its own is shown. -/
def beginning : Location := ⟨1, 1⟩

/-- A problem that this library reports. -/
def problem (severity : Severity) (loc : Location) (message : Wording) : Problem :=
  ⟨loc.nameRange "", severity, "", "natded", message⟩

/-- A problem that an oracle reports. -/
def problemOf (oracle : String) (d : Diagnostic) : Problem :=
  ⟨(d.origin.getD beginning).nameRange "", .error, d.code, oracle, d.message⟩

/-- The problem of a failed compilation. -/
def problemOfFailure : CompileFailure → Problem
  | .script e => problem .error e.loc e.message
  | .fault f => problem .error beginning (f.message.getD "")

/-- The settings of the project around a file, the builtin oracle being the usual one. -/
def kindOf (config : ProjectConfig) : OracleKind := config.oracle.getD .builtin

variable [Readers] {m : Type → Type} [Monad m] [Host m]

/-- Checks a compiled text, after the problems that are known already. -/
def check (a : Analysis) (config : ProjectConfig) (c : Compilation) : m Analysis := do
  let (oracle, _) ← Oracle.choose (kindOf config) config.compiler
  match (← oracle.check c.program).1 with
  | .ok found => return { a with problems := a.problems ++ found.map (problemOf oracle.name) }
  | .error fault =>
    let message := oracle.faultMessage fault
    return { a with
      problems := a.problems ++ [problem .error beginning message]
      failure := some message }

/-- Analyses a text with given settings. -/
def withConfig (config : ProjectConfig) (path text : String) : m Analysis := do
  let base : Analysis := ⟨config.systemF, none, [], none, []⟩
  match parse (Text.bytes text) config.systemF with
  | .error e => return { base with problems := [problem .error e.loc e.message] }
  | .ok d =>
    let (result, events) := d.compile config.systemF
    let log := (CompileEvent.parsed d.theorems.length :: events).map fun e : CompileEvent =>
      e.toLog.within [("path", path)]
    let a := { base with symbols := some (.ofDocument d), log }
    match result with
    | .error e => return { a with problems := [problemOfFailure e] }
    | .ok c =>
      let warnings := c.warnings.map fun w : Warning => problem .warning w.loc w.message
      check { a with problems := warnings } config c

/-- Analyses the text of the file at a path. -/
def ofText (path text : String) : m Analysis := do
  match ← ProjectConfig.find (Path.directory path) with
  | .error e => return ⟨false, none, [problem .error beginning e.message], none, []⟩
  | .ok found => withConfig (found.elim .default Prod.snd) path text

end Analysis

end ProofScript.Server
