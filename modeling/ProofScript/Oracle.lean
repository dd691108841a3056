import ProofScript.Checker
import ProofScript.Diagnostic.Output
import ProofScript.Log
import ProofScript.Project

/-!
# Oracles

A program that checks without errors is a valid proof of every theorem it declares. What checks it
is an oracle: the checker of this library, or a TypeScript compiler of a suitable version.
-/

namespace ProofScript

open Program

/-- A checker of programs. -/
inductive Oracle where
  | builtin
  | external (settings : CompilerSettings)
deriving DecidableEq, Repr, Inhabited

/-- Why an oracle gives no answer. -/
inductive OracleFault where
  | cancelled
  | gap (g : Gap)
  | version (program reason : String)
  | badVersion (text reason : String)
  | badRange (range reason : String)
  | unsuitable (v : Version) (range : String) (reasons : List String)
  | run (program output reason : String)
deriving Repr, Inhabited

/-- The wording of a fault. -/
def OracleFault.message : OracleFault → String
  | cancelled => cancelledMessage
  | gap g => g.message
  | version program reason => "running " ++ program ++ " --version: " ++ reason
  | badVersion text reason => "parsing tsc version " ++ Text.quote text ++ ": " ++ reason
  | badRange range reason => "tsc version constraint " ++ Text.quote range ++ ": " ++ reason
  | unsuitable v range reasons =>
    "tsc " ++ v.text ++ " does not satisfy " ++ range ++ ": [" ++ " ".intercalate reasons ++ "]"
  | run program output reason => "running " ++ program ++ ": " ++ output ++ ": " ++ reason

namespace CompilerSettings

/-- The compiler to run. -/
def program (s : CompilerSettings) : String := if s.path = "" then "tsc" else s.path

/-- The versions that are known to check programs correctly. -/
def defaultRange : String := ">= 4.5.0"

/-- The versions that will do. -/
def range (s : CompilerSettings) : String := if s.version = "" then defaultRange else s.version

/-- The arguments that every run has. -/
def fixedArguments : List String :=
  ["--noEmit", "--strict", "--pretty", "false", "--target", "es2017"]

variable [Readers]

/-- The version in what a compiler prints when asked for it, as in `Version 5.4.5`. -/
def versionOfOutput (output : String) : Except OracleFault Version :=
  let text := Text.trim output
  let word := "Version "
  let text := if word.toList.isPrefixOf text.toList
    then String.ofList (text.toList.drop word.length) else text
  (Readers.version text).mapError (.badVersion text)

/-- Does a version lie in a range? -/
def suits (range : String) (v : Version) : Except OracleFault Unit :=
  match Readers.range range with
  | .error reason => .error (.badRange range reason)
  | .ok test => (test v).mapError (.unsuitable v range)

variable {m : Type → Type} [Monad m] [Host m]

/-- The version of the compiler, if it will do. -/
def findVersion (s : CompilerSettings) : m (Except OracleFault Version) := do
  match ← Host.launch ⟨s.program, ["--version"], none⟩ with
  | .error f => return .error (.version s.program f.message)
  | .ok run =>
    if run.status ≠ 0 then return .error (.version s.program run.statusText)
    else return do
      let v ← versionOfOutput run.output
      suits s.range v
      return v

/-- The diagnostics of a run, unless the compiler failed without reporting any. -/
def verdict (s : CompilerSettings) (p : Printed) (run : ProgramRun) :
    Except OracleFault (List Diagnostic) :=
  let found := Diagnostic.ofOutput p run.output
  if run.status ≠ 0 ∧ found = [] then
    .error (.run s.program (Text.trim run.output) run.statusText)
  else .ok found

/-- Runs the compiler on a program. -/
def check (s : CompilerSettings) (p : Printed) :
    m (Except OracleFault (List Diagnostic) × List LogEntry) := do
  match ← s.findVersion with
  | .error f => return (.error f, [])
  | .ok v =>
    let arguments := fixedArguments ++ s.arguments
    let log : List LogEntry :=
      [⟨.debug, "found tsc", [("version", v.text)]⟩,
        ⟨.debug, "running tsc", [("args", "[" ++ " ".intercalate arguments ++ " proof.ts]")]⟩]
    match ← Host.launch ⟨s.program, arguments, some p.text⟩ with
    | .error f => return (.error (.run s.program "" f.message), log)
    | .ok run => return (s.verdict p run, log)

end CompilerSettings

namespace Oracle

/-- The name of an oracle. -/
def name : Oracle → String
  | builtin => "builtin"
  | external _ => "tsc"

/-- The message of a fault of an oracle. -/
def faultMessage (o : Oracle) (f : OracleFault) : String := o.name ++ " oracle: " ++ f.message

variable [Readers] {m : Type → Type} [Monad m] [Host m]

/-- The oracle of a kind. The kind `auto` takes a compiler that can be found. -/
def choose (kind : OracleKind) (settings : CompilerSettings) : m (Oracle × List LogEntry) := do
  match kind with
  | .builtin => return (.builtin, [])
  | .tsc => return (.external settings, [])
  | .auto =>
    if ← Host.hasProgram settings.program then
      return (.external settings,
        [⟨.debug, "using tsc oracle", [("path", settings.program)]⟩])
    else return (.builtin, [⟨.debug, "tsc not found, using builtin oracle", []⟩])

/-- Checks a program. -/
def check (o : Oracle) (p : Printed) :
    m (Except OracleFault (List Diagnostic) × List LogEntry) := do
  match o with
  | .external settings => settings.check p
  | .builtin =>
    if !p.stmts.isEmpty && (← Host.isCancelled) then return (.error .cancelled, [])
    else match ← Waits.wait p.check? with
      | .error g => return (.error (.gap g), [])
      | .ok found =>
        return (.ok found, [⟨.debug, "builtin check done",
          [("statements", toString p.stmts.length), ("diagnostics", toString found.length)]⟩])

end Oracle

end ProofScript
