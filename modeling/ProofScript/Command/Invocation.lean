import ProofScript.Command

/-!
# Invocations

A command line is read in three steps: the command is found, its flags are read, and the number of
its arguments is checked. What comes first goes first when several things are wrong.
-/

namespace ProofScript.Command

/-- What is wrong with a command line. -/
inductive UsageFault where
  | flag (f : FlagFault)
  | notOneArgument (received : Nat)
  | noArgument
  | unknownCommand (name : String)
  | noCommand
deriving DecidableEq, Repr, Inhabited

/-- A command line that cannot be used, and the command that it is about. -/
structure UsageError where
  command : Command
  fault : UsageFault
deriving DecidableEq, Repr, Inhabited

/-- The message of an error. -/
def UsageError.message (e : UsageError) : String :=
  match e.fault with
  | .flag f => f.message
  | .notOneArgument received => "accepts 1 arg(s), received " ++ toString received
  | .noArgument => "requires at least 1 arg(s), only received 0"
  | .unknownCommand name =>
    "unknown command " ++ Text.quote name ++ " for " ++ Text.quote e.command.path
  | .noCommand => "no command given"

/-- What the program is asked to do. -/
inductive Task where
  | lex (path : String)
  | ast (path : String) (dump : Bool)
  | format (paths : List String) (write list : Bool)
  | transform (path : String)
  | check (paths : List String) (oracle : String) (watch : Bool)
  | serve (logFile : String)
  | help (c : Command)
  | version
deriving DecidableEq, Repr, Inhabited

/-- A task, and the mode where the command line sets it. -/
structure Invocation where
  task : Task
  systemF : Option Bool
deriving DecidableEq, Repr, Inhabited

/-- The only argument of a command. -/
def onlyArgument : List String → Except UsageFault String
  | [argument] => .ok argument
  | arguments => .error (.notOneArgument arguments.length)

/-- The arguments of a command that takes one or more. -/
def someArguments : List String → Except UsageFault (List String)
  | [] => .error .noArgument
  | arguments => .ok arguments

/-- Checks that a command has no arguments. -/
def noArguments : List String → Except UsageFault Unit
  | [] => .ok ()
  | first :: _ => .error (.unknownCommand first)

/-- The command with a given word. -/
def ofWord? (word : String) : Option Command := offered.find? (·.word = word)

/-- The task of a command with what its arguments hold. -/
def task (c : Command) (r : Reading) : Except UsageFault Task :=
  if r.isOn "help" then .ok (.help c)
  else if r.isOn "version" then .ok .version
  else match c with
    | root => do
      noArguments r.arguments
      throw .noCommand
    | lex => return .lex (← onlyArgument r.arguments)
    | ast => return .ast (← onlyArgument r.arguments) (r.isOn "go")
    | transform => return .transform (← onlyArgument r.arguments)
    | format => return .format (← someArguments r.arguments) (r.isOn "write") (r.isOn "list")
    | check => return .check (← someArguments r.arguments) (r.text "oracle") (r.isOn "watch")
    | serve => do
      noArguments r.arguments
      return .serve (r.text "log-file")
    | help => return .help ((r.arguments.head?.bind ofWord?).getD root)
    | completion => return .help completion

/-- The command that arguments select, and the arguments without its word. -/
def select (arguments : List String) : Command × List String :=
  match firstWord? globalFlags arguments with
  | none => (root, arguments)
  | some word =>
    match ofWord? word with
    | some c => (c, withoutWord globalFlags word arguments)
    | none => (root, arguments)

/-- Reads a command line. -/
def Invocation.parse (version : Option String) (arguments : List String) :
    Except UsageError Invocation :=
  let (c, rest) := select arguments
  match Reading.ofArguments (c.flags version) rest with
  | .error f => .error ⟨c, .flag f⟩
  | .ok r =>
    match c.task r with
    | .error fault => .error ⟨c, fault⟩
    | .ok task => .ok ⟨task, r.switch? "system-f"⟩

end ProofScript.Command
