import ProofScript.Command.Flag

/-!
# Commands

The commands of the program, the flags they have, and the text that explains how each is used.
-/

namespace ProofScript

/-- A command. The root is the program without a command. -/
inductive Command where
  | root
  | ast
  | check
  | completion
  | format
  | help
  | lex
  | serve
  | transform
deriving DecidableEq, Repr, Inhabited

namespace Command

/-- The name of the program. -/
def programName : String := "natded"

/-- The commands that are offered, in the order of their names. -/
def offered : List Command := [ast, check, completion, format, help, lex, serve, transform]

/-- The word that selects a command. -/
def word : Command → String
  | root => programName
  | ast => "ast"
  | check => "check"
  | completion => "completion"
  | format => "fmt"
  | help => "help"
  | lex => "lex"
  | serve => "lsp"
  | transform => "transform"

/-- The words that lead to a command. -/
def path (c : Command) : String :=
  if c = root then programName else programName ++ " " ++ c.word

/-- What a command does, on one line. -/
def summary : Command → String
  | root => "Natural deduction proof checker"
  | ast => "Print the syntax tree of a proof script"
  | check => "Compile proof scripts and type-check the result"
  | completion => "Generate the autocompletion script for the specified shell"
  | format => "Format proof scripts"
  | help => "Help about any command"
  | lex => "Print the tokens of a proof script"
  | serve => "Run the language server on stdin and stdout"
  | transform => "Print the TypeScript program generated from a proof script"

/-- What a command does, at more length. -/
def description : Command → String
  | root => "\n".intercalate
      ["natded compiles natural deduction proof scripts into TypeScript",
        "programs whose successful type check certifies every proof."]
  | check => "\n".intercalate
      ["Compile proof scripts and hand the generated programs to an oracle.",
        "A script checks when its program type-checks without errors.", "",
        "The oracle is tsc when it can be found on $PATH, otherwise a builtin",
        "checker. Use --oracle to choose explicitly."]
  | format => "\n".intercalate
      ["Format proof scripts according to the canonical style.", "",
        "By default, fmt prints the formatted source to stdout.",
        "Use -w to write the result back to the source file.",
        "Use -l to list files that would be changed."]
  | serve => "\n".intercalate
      ["Run a Language Server Protocol server for proof scripts. Open documents",
        "are compiled and checked on every change; errors, warnings and oracle",
        "diagnostics are published back to the editor."]
  | c => c.summary

/-- The form of a command line. -/
def usageLine : Command → String
  | root => "natded <command> [flags] <file>"
  | ast => "natded ast [flags] <file>"
  | check => "natded check [flags] <file>..."
  | completion => "natded completion [flags]"
  | format => "natded fmt [flags] <path>..."
  | help => "natded help [command] [flags]"
  | lex => "natded lex <file> [flags]"
  | serve => "natded lsp [flags]"
  | transform => "natded transform <file> [flags]"

/-- Examples of a command. -/
def examples : Command → List String
  | root => ["  # Check a proof script", "  natded check proofs.proof", "",
      "  # Show the generated TypeScript", "  natded transform proofs.proof", "",
      "  # Enable quantifiers", "  natded check --system-f quantifiers.proof", "",
      "  # Debug logging", "  NATDED_LOGLEVEL=4 natded check proofs.proof"]
  | check => ["  # Check two scripts", "  natded check a.proof b.proof", "",
      "  # Re-check whenever a script changes", "  natded check --watch a.proof", "",
      "  # Check without tsc", "  natded check --oracle builtin a.proof"]
  | format => ["  # Format a file and print to stdout", "  natded fmt proofs.proof", "",
      "  # Format every .proof file in a directory in place", "  natded fmt -w ./proofs"]
  | _ => []

/-- The flags that every command has. -/
def globalFlags : List Flag :=
  [.switch "system-f" none "Enable quantified propositions (forall)"]

/-- The flag that asks for help about a command. -/
def helpFlag (c : Command) : Flag := .switch "help" (some 'h') ("help for " ++ c.word)

/-- The flags of a command alone, in the order of their names. The root has one for the version where
that is known. -/
def ownFlags (version : Option String) : Command → List Flag
  | ast => [.switch "go" none "Dump the Go structure instead of an S-expression", helpFlag ast]
  | check => [helpFlag check, .setting "oracle" "Oracle to check with: auto, tsc or builtin",
      .switch "watch" none "Re-check files when they change"]
  | format => [helpFlag format, .switch "list" (some 'l') "List files that would be formatted",
      .switch "write" (some 'w') "Write result to source file instead of stdout"]
  | serve => [helpFlag serve, .setting "log-file" "Path to the server log (stderr if not specified)"]
  | root => helpFlag root :: globalFlags
      ++ if version.isSome then [.switch "version" (some 'v') "version for natded"] else []
  | c => [helpFlag c]

/-- All flags of a command. -/
def flags (version : Option String) (c : Command) : List Flag :=
  if c = root then c.ownFlags version else c.ownFlags version ++ globalFlags

/-! ## Usage -/

/-- Flags one below the other, with the summaries in a column. -/
def flagsText (fs : List Flag) : String :=
  let width := (fs.map fun f => f.heading.length).foldl max 0
  "\n".intercalate (fs.map fun f =>
    f.heading ++ "".pushn ' ' (width - f.heading.length + 3) ++ f.summary)

/-- The commands one below the other, with the summaries in a column. -/
def offeredText : String :=
  "\n".intercalate (offered.map fun c =>
    "  " ++ c.word ++ "".pushn ' ' (12 - c.word.length) ++ c.summary)

/-- How a command is used. -/
def usageText (version : Option String) (c : Command) : String :=
  let isRoot := c = root
  let block (title : String) (body : String) := ["", title ++ ":", body]
  "\n".intercalate (["Usage:", "  " ++ c.usageLine]
    ++ (if isRoot then ["  " ++ programName ++ " [command]"] else [])
    ++ (if c.examples.isEmpty then [] else block "Examples" ("\n".intercalate c.examples))
    ++ (if isRoot then block "Available Commands" offeredText else [])
    ++ block "Flags" (flagsText (c.ownFlags version))
    ++ (if isRoot then
        ["", "Use \"" ++ programName ++ " [command] --help\" for more information about a command."]
      else block "Global Flags" (flagsText globalFlags)))

/-- The answer to a request for help about a command. -/
def helpText (version : Option String) (c : Command) : String :=
  c.description ++ "\n\n" ++ c.usageText version ++ "\n"

end Command

end ProofScript
