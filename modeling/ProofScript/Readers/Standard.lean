import ProofScript.Readers
import ProofScript.Text.Case
import ProofScript.Toml.Parser
import ProofScript.Version.Range

/-!
# The readers of this library

TOML files and version numbers as this library reads them.
-/

namespace ProofScript

namespace SettingsFile

/-- Settings as they are read, with the keys that had a meaning. -/
structure Draft where
  systemF : Bool
  oracle : String
  compiler : CompilerSettings
  known : List Toml.Key
deriving Repr, Inhabited

/-- The name in a list that a key means, whatever its case. -/
def fieldName? (names : List String) (key : String) : Option String :=
  if key ∈ names then some key else names.find? (Text.equalFold · key)

/-- The texts of an array of texts. -/
def texts? (items : List Toml) : Option (List String) :=
  items.mapM fun
    | .str s => some s
    | _ => none

/-- Takes one entry of the compiler's table. -/
def compilerEntry (table : String) (d : Draft) (entry : String × Toml) : Option Draft :=
  let known := [table, entry.1] :: d.known
  match fieldName? ["path", "version", "args"] entry.1, entry.2 with
  | none, _ => some d
  | some "path", .str s => some { d with known, compiler := { d.compiler with path := s } }
  | some "version", .str s => some { d with known, compiler := { d.compiler with version := s } }
  | some "args", .array items => do
    let arguments ← texts? items
    return { d with known, compiler := { d.compiler with arguments } }
  | some _, _ => none

/-- Takes one entry of the whole file. An entry of the wrong type is refused. -/
def entry (d : Draft) (entry : String × Toml) : Option Draft :=
  let known := [entry.1] :: d.known
  match fieldName? ["system_f", "oracle", "tsc"] entry.1, entry.2 with
  | none, _ => some d
  | some "system_f", .bool b => some { d with known, systemF := b }
  | some "oracle", .str s => some { d with known, oracle := s }
  | some "tsc", .table t => t.foldlM (compilerEntry entry.1) { d with known }
  | some _, _ => none

/-- Reads the bytes of a file. -/
def read? (bytes : List UInt8) : Option SettingsFile := do
  let (table, keys) ← Toml.parse? bytes
  let d ← table.foldlM entry ⟨false, "", ⟨"", "", []⟩, []⟩
  return ⟨d.systemF, d.oracle, d.compiler, keys.filter fun key => !d.known.contains key⟩

end SettingsFile

instance : Readers where
  settings := SettingsFile.read?
  version text := (Version.parse text).mapError Version.Fault.message
  range text := ((Version.Range.parse text).map Version.Range.test).mapError Version.RangeFault.message

end ProofScript
