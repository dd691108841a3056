import ProofScript.Compilation
import ProofScript.Text.Blank
import ProofScript.Text.Digits

/-!
# Log lines

What the program reports about its work: a level, a message and named values, written on one line.
A setting from one to four selects the least level that is shown.
-/

namespace ProofScript

/-- How much a log line matters. -/
inductive LogLevel where
  | debug
  | info
  | warn
  | error
deriving DecidableEq, Repr, Inhabited

namespace LogLevel

/-- The name of a level. -/
def name : LogLevel → String
  | debug => "DEBUG"
  | info => "INFO"
  | warn => "WARN"
  | error => "ERROR"

/-- The place of a level in their order. -/
def rank : LogLevel → Nat
  | debug => 0
  | info => 1
  | warn => 2
  | error => 3

/-- The name of the setting that selects the level. -/
def settingName : String := "NATDED_LOGLEVEL"

/-- What is wrong with a setting. -/
inductive Fault where
  | notNumber (value : String)
  | outOfRange (n : Int)
deriving DecidableEq, Repr, Inhabited

/-- The wording of a fault. -/
def Fault.message : Fault → String
  | notNumber value => settingName ++ ": " ++ Text.quote value ++ " is not a number"
  | outOfRange n => settingName ++ ": level " ++ toString n ++ " out of range 1-4"

/-- The level that a setting selects; without one it is the second lowest. -/
def ofSetting (value : String) : Except Fault LogLevel :=
  if value = "" then .ok info
  else match Text.integer? value.toList with
    | none => .error (.notNumber value)
    | some 1 => .ok error
    | some 2 => .ok warn
    | some 3 => .ok info
    | some 4 => .ok debug
    | some n => .error (.outOfRange n)

end LogLevel

/-- A log line. -/
structure LogEntry where
  level : LogLevel
  message : String
  fields : List (String × String)
deriving DecidableEq, Repr, Inhabited

namespace LogEntry

/-- Does a character force quotation marks around a value? -/
def needsQuotes (c : Char) : Bool :=
  if c.toNat < 0x80 then c == ' ' || c == '=' || c == '"' || c.toNat < 0x20
  else c == Char.ofNat 0xFFFD || Text.isSpace c || !Text.isPrintable c

/-- The written form of a value. -/
def valueText (s : String) : String :=
  if s.isEmpty || s.toList.any needsQuotes then Text.quote s else s

/-- The line, without the time. -/
def text (e : LogEntry) : String :=
  let field (f : String × String) := " " ++ f.1 ++ "=" ++ valueText f.2
  "level=" ++ e.level.name ++ field ("msg", e.message) ++ String.join (e.fields.map field)

/-- A line with more values in front of its own. -/
def within (e : LogEntry) (outer : List (String × String)) : LogEntry :=
  { e with fields := outer ++ e.fields }

end LogEntry

/-- The lines of at least a level, one below the other. -/
def logText (level : LogLevel) (entries : List LogEntry) : String :=
  String.join ((entries.filter fun e => level.rank ≤ e.level.rank).map fun e => e.text ++ "\n")

/-- The log line of a report of a compilation. -/
def CompileEvent.toLog : CompileEvent → LogEntry
  | parsed n => ⟨.debug, "parsed", [("theorems", toString n)]⟩
  | generate (.warning w) =>
    ⟨.warn, w.message, [("line", toString w.loc.line), ("column", toString w.loc.column)]⟩
  | generate (.reference name kind) =>
    ⟨.debug, "primitive referenced", [("name", name), ("kind", kind.name)]⟩
  | selected n => ⟨.debug, "selected primitives", [("count", toString n)]⟩

end ProofScript
