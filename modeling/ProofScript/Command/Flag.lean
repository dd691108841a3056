import ProofScript.Text.Quoted
import ProofScript.Text.Utf8

/-!
# Flags

The flags of a command and how they are read from its arguments. Flags may stand anywhere before
`--`. A switch is given as `--name` or by its letter, several letters may share one dash, and after
an equals sign a truth value may follow. A setting takes the text after its equals sign, or else the
next argument.
-/

namespace ProofScript.Command

/-- A flag: a switch, perhaps with a letter of its own, or a setting that takes a text. -/
inductive Flag where
  | switch (name : String) (letter : Option Char) (summary : String)
  | setting (name : String) (summary : String)
deriving DecidableEq, Repr, Inhabited

/-- What a flag is given as. -/
inductive FlagValue where
  | on (b : Bool)
  | text (s : String)
deriving DecidableEq, Repr, Inhabited

namespace Flag

/-- The name of a flag. -/
def name : Flag → String
  | switch name _ _ => name
  | setting name _ => name

/-- What a flag is for. -/
def summary : Flag → String
  | switch _ _ summary => summary
  | setting _ summary => summary

/-- The letter of a flag. -/
def letter? : Flag → Option Char
  | switch _ letter _ => letter
  | setting .. => none

/-- Is the flag a switch? -/
def isSwitch : Flag → Bool
  | switch .. => true
  | setting .. => false

/-- The flag as messages name it. -/
def title (f : Flag) : String :=
  (f.letter?.elim "" fun c => "-" ++ c.toString ++ ", ") ++ "--" ++ f.name

/-- The flag as a list of flags shows it, without its summary. -/
def heading (f : Flag) : String :=
  (if f.letter?.isSome then "  " else "      ") ++ f.title ++ (if f.isSwitch then "" else " string")

end Flag

/-- Why a flag cannot be read. -/
inductive FlagFault where
  | badSyntax (argument : String)
  | unknown (name : String)
  | unknownLetter (letter : Char) (group : String)
  | missingValue (argument : String)
  | badValue (value : String) (flag : Flag)
deriving DecidableEq, Repr, Inhabited

/-- The wording of a fault. -/
def FlagFault.message : FlagFault → String
  | badSyntax argument => "bad flag syntax: " ++ argument
  | unknown name => "unknown flag: --" ++ name
  | unknownLetter letter group =>
    "unknown shorthand flag: " ++ Text.quoteChar letter ++ " in -" ++ group
  | missingValue argument => "flag needs an argument: " ++ argument
  | badValue value flag =>
    "invalid argument " ++ Text.quote value ++ " for " ++ Text.quote flag.title
      ++ " flag: strconv.ParseBool: parsing " ++ Text.quote value ++ ": invalid syntax"

/-- The truth value of a word. -/
def truth? (word : String) : Option Bool :=
  if word ∈ ["1", "t", "T", "TRUE", "true", "True"] then some true
  else if word ∈ ["0", "f", "F", "FALSE", "false", "False"] then some false
  else none

/-- The value that a text gives to a flag. -/
def Flag.valueOf (f : Flag) (text : String) : Except FlagFault FlagValue :=
  match f with
  | .setting .. => .ok (.text text)
  | .switch .. => (truth? text).elim (.error (.badValue text f)) fun b => .ok (.on b)

/-- What the arguments of a command hold: the flags that are given, in order, and the other
arguments. -/
structure Reading where
  flags : List (String × FlagValue)
  arguments : List String
deriving DecidableEq, Repr, Inhabited

namespace Reading

/-- Nothing. -/
def empty : Reading := ⟨[], []⟩

/-- A reading with more flags in front. -/
def withFlags (flags : List (String × FlagValue)) (r : Reading) : Reading :=
  { r with flags := flags ++ r.flags }

/-- A reading with an argument in front. -/
def withArgument (argument : String) (r : Reading) : Reading :=
  { r with arguments := argument :: r.arguments }

/-- The last value that a flag is given. -/
def value? (r : Reading) (name : String) : Option FlagValue :=
  ((r.flags.filter (·.1 = name)).getLast?).map Prod.snd

/-- The last truth value that a switch is given. -/
def switch? (r : Reading) (name : String) : Option Bool :=
  match r.value? name with
  | some (.on b) => some b
  | _ => none

/-- Is a switch on? -/
def isOn (r : Reading) (name : String) : Bool := (r.switch? name).getD false

/-- The text of a setting; it is empty where none is given. -/
def text (r : Reading) (name : String) : String :=
  match r.value? name with
  | some (.text s) => s
  | _ => ""

end Reading

/-- The name of a long flag and the text after its equals sign. -/
def splitEquals (cs : List Char) : String × Option String :=
  let name := cs.takeWhile (· ≠ '=')
  (String.ofList name,
    match cs.drop name.length with
    | [] => none
    | _ :: value => some (String.ofList value))

/-- The character of the first byte of a character; an ASCII character is its own. -/
def firstByte (c : Char) : Char :=
  match Text.bytes c.toString with
  | b :: _ => Char.ofNat b.toNat
  | [] => c

/-- Does a group of letters belong to a test run? Such groups count for nothing. -/
def isTestGroup (cs : List Char) : Bool := "test.".toList.isPrefixOf cs

/-- Reads the letters behind one dash. A flag has an ASCII letter, so that letters are looked at byte
by byte; any other one is named by the first byte of the character of its first byte. -/
def readLetters (flags : List Flag) : List Char → Except FlagFault (List (String × FlagValue))
  | [] => .ok []
  | c :: rest =>
    if isTestGroup (c :: rest) then .ok []
    else match flags.find? (·.letter? = some c) with
      | none => .error (.unknownLetter (firstByte (firstByte c)) (String.ofList (c :: rest)))
      | some f =>
        match rest with
        | '=' :: v :: more => do
          return [(f.name, ← f.valueOf (String.ofList (v :: more)))]
        | _ => do return (f.name, .on true) :: (← readLetters flags rest)

/-- Reads the arguments of a command. -/
def Reading.ofArguments (flags : List Flag) : List String → Except FlagFault Reading
  | [] => .ok .empty
  | argument :: rest =>
    match argument.toList with
    | ['-', '-'] => .ok ⟨[], rest⟩
    | '-' :: '-' :: cs =>
      if cs.head? = some '-' ∨ cs.head? = some '=' then .error (.badSyntax argument)
      else
        let (name, given) := splitEquals cs
        match flags.find? (·.name = name) with
        | none => .error (.unknown name)
        | some f =>
          match given with
          | some text => do
            let value ← f.valueOf text
            return (← ofArguments flags rest).withFlags [(name, value)]
          | none =>
            if f.isSwitch then do return (← ofArguments flags rest).withFlags [(name, .on true)]
            else match rest with
              | [] => .error (.missingValue argument)
              | text :: more => do
                let value ← f.valueOf text
                return (← ofArguments flags more).withFlags [(name, value)]
    | '-' :: c :: cs => do
      let given ← readLetters flags (c :: cs)
      return (← ofArguments flags rest).withFlags given
    | _ => do return (← ofArguments flags rest).withArgument argument

/-! ## Finding the command

Before the flags of a command can be read, the command has to be found among the arguments. Of the
flags only those that every command has are known then, and any other flag is taken to have the
argument behind it as its value. -/

/-- Is an argument a flag that is taken to have the next argument as its value? -/
def takesNext (flags : List Flag) (argument : String) : Bool :=
  let cs := argument.toList
  if cs.contains '=' then false
  else match cs with
    | '-' :: '-' :: name => !flags.any fun f => f.isSwitch && f.name = String.ofList name
    | ['-', c] => c.toNat < 0x80 && !flags.any fun f => f.letter? = some c
    | _ => false

/-- Does an argument start with a dash? -/
def isDashed (argument : String) : Bool := argument.toList.head? = some '-'

/-- The first argument that is neither a flag nor the value of one. -/
def firstWord? (flags : List Flag) : List String → Option String
  | [] => none
  | argument :: rest =>
    if argument = "--" then none
    else if takesNext flags argument then
      match rest with
      | _ :: next :: more => firstWord? flags (next :: more)
      | _ => none
    else if argument ≠ "" ∧ !isDashed argument then some argument
    else firstWord? flags rest

/-- The arguments without the first one that is a given word and not the value of a flag. -/
def withoutWord (flags : List Flag) (word : String) : List String → List String
  | [] => []
  | argument :: rest =>
    if argument = "--" then argument :: rest
    else if takesNext flags argument then
      match rest with
      | [] => [argument]
      | value :: more => argument :: value :: withoutWord flags word more
    else if !isDashed argument ∧ argument = word then rest
    else argument :: withoutWord flags word rest

end ProofScript.Command
