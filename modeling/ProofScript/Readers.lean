import ProofScript.Toml
import ProofScript.Version

/-!
# Readers of other formats

The program leaves it to readers of their own to tell what TOML files and version numbers say. What it
relies on is what they hand over.
-/

namespace ProofScript

/-- Settings of the TypeScript compiler. An empty path or version stands for the default. -/
structure CompilerSettings where
  path : String
  version : String
  arguments : List String
deriving DecidableEq, Repr, Inhabited

/-- What a settings file says: the entries with a meaning, the checker by its name, and the keys without a
meaning in the order in which they are written. -/
structure SettingsFile where
  systemF : Bool
  oracle : String
  compiler : CompilerSettings
  unknown : List Toml.Key
deriving Repr, Inhabited

/-- The readers of other formats. -/
class Readers where
  /-- The settings in the bytes of a file, if that is well formed and its entries are of the right type. -/
  settings : List UInt8 → Option SettingsFile
  /-- The version that a text stands for, or what is wrong with the text. -/
  version : String → Except String Version
  /-- What a text demands of a version, or what is wrong with the text. A version that does not meet the
  demand is told why. -/
  range : String → Except String (Version → Except (List String) Unit)

end ProofScript
