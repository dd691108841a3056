import ProofScript.Host
import ProofScript.Readers

/-!
# Project settings

A project may hold a file `natded.toml` with settings for all its scripts. The file that counts for
a directory is the nearest one in it or above it, up to the directory that holds the repository.
-/

namespace ProofScript

/-- How programs are checked: by the TypeScript compiler if there is one, by it in any case, or by
the checker of this library. -/
inductive OracleKind where
  | auto
  | tsc
  | builtin
deriving DecidableEq, Repr, Inhabited

namespace OracleKind

/-- The name of a kind. -/
def name : OracleKind → String
  | auto => "auto"
  | tsc => "tsc"
  | builtin => "builtin"

/-- The kind with a given name. -/
def ofName? : String → Option OracleKind
  | "auto" => some auto
  | "tsc" => some tsc
  | "builtin" => some builtin
  | _ => none

end OracleKind

/-- The settings of a project. -/
structure ProjectConfig where
  systemF : Bool
  oracle : Option OracleKind
  compiler : CompilerSettings
deriving DecidableEq, Repr, Inhabited

/-- What is wrong with a settings file. -/
inductive ConfigCause where
  | unreadable (e : PathError)
  | malformed
  | unknownKey (key : Toml.Key)
  | unknownOracle (name : String)
deriving DecidableEq, Repr, Inhabited

/-- The wording of a cause. -/
def ConfigCause.text : ConfigCause → String
  | unreadable e => e.message
  | malformed => "toml: malformed document"
  | unknownKey key => "unknown key " ++ Toml.keyText key
  | unknownOracle name => "unknown oracle " ++ Text.quote name

/-- A settings file that cannot be used. -/
structure ConfigError where
  path : String
  cause : ConfigCause
deriving DecidableEq, Repr, Inhabited

/-- The message of an error. -/
def ConfigError.message (e : ConfigError) : String := "parsing " ++ e.path ++ ": " ++ e.cause.text

namespace ProjectConfig

/-- The settings where there is no file. -/
def default : ProjectConfig := ⟨false, none, ⟨"", "", []⟩⟩

/-- The name of the settings file. -/
def fileName : String := "natded.toml"

variable [Readers]

/-- Reads the settings of a file's bytes. -/
def parse (bytes : List UInt8) : Except ConfigCause ProjectConfig :=
  match Readers.settings bytes with
  | none => .error .malformed
  | some file =>
    match file.unknown with
    | key :: _ => .error (.unknownKey key)
    | [] =>
      match OracleKind.ofName? file.oracle with
      | some kind => .ok ⟨file.systemF, some kind, file.compiler⟩
      | none =>
        if file.oracle = "" then .ok ⟨file.systemF, none, file.compiler⟩
        else .error (.unknownOracle file.oracle)

variable {m : Type → Type} [Monad m] [Host m]

/-- Loads the settings file at a path. -/
def load (path : String) : m (Except ConfigError ProjectConfig) := do
  match ← Host.readFile path with
  | .error e => return .error ⟨path, .unreadable e⟩
  | .ok bytes => return (parse bytes).mapError (⟨path, ·⟩)

/-- Does a path lead anywhere? -/
def leadsTo (path : String) : m Bool := return (← Host.entryKind path) matches .ok _

/-- The first settings file in some directories, up to one that holds a repository. -/
def findIn : List String → m (Except ConfigError (Option (String × ProjectConfig)))
  | [] => return .ok none
  | dir :: above => do
    let path := Path.join dir fileName
    if ← leadsTo path then
      return (← load path).map fun config => some (path, config)
    else if ← leadsTo (Path.join dir ".git") then return .ok none
    else findIn above

/-- The settings that count for a directory, and the file that holds them. -/
def find (dir : String) : m (Except ConfigError (Option (String × ProjectConfig))) := do
  findIn (Path.ancestors (Path.absolute (← Host.workingDirectory) dir))

end ProjectConfig

end ProofScript
