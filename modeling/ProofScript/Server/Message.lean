import ProofScript.Json.Decode
import ProofScript.TextRange
import ProofScript.Wording

/-!
# Messages of the editor protocol

What an editor asks of the server and what the server answers and pushes, and how both are written
as JSON.
-/

namespace ProofScript.Server

/-! ## Requests -/

/-- A message of an editor. -/
inductive Request where
  | connect (rootUri : String) (folders : List String)
  | notice
  | shutdown
  | didOpen (uri : String) (version : Int) (text : String)
  | didChange (uri : String) (version : Int) (changes : List String)
  | didSave (uri : String) (text : Option String)
  | didClose (uri : String)
  | definition (uri : String) (position : TextPosition)
  | hover (uri : String) (position : TextPosition)
  | formatting (uri : String)
  | documentSymbol (uri : String)
  | workspaceSymbol (query : String)
deriving DecidableEq, Repr, Inhabited

/-- Why a request fails. -/
inductive Refusal where
  | noMethod
  | scalarParameters
  | unknownMethod
  | badParameters (message : String)
  | failed (message : String)
deriving DecidableEq, Repr, Inhabited

/-- The number of a kind of failure. -/
def Refusal.code : Refusal → Int
  | noMethod => -32600
  | scalarParameters => -32600
  | unknownMethod => -32601
  | badParameters _ => -32602
  | failed _ => -32098

/-- The message of a failure. -/
def Refusal.message : Refusal → String
  | noMethod => "empty method name"
  | scalarParameters => "invalid parameters: array or object required"
  | unknownMethod => "method not found"
  | badParameters message => message
  | failed message => message

open Json

/-- The URI of the document that parameters name. -/
def documentUri? (fs : Fields) : Option String := do (← fs.obj? "textDocument").str? "uri"

/-- The position that parameters name. -/
def position? (fs : Fields) : Option TextPosition := do
  let p ← fs.obj? "position"
  return ⟨← p.int? "line", ← p.int? "character"⟩

/-- The URIs of the folders that parameters name. -/
def folders? (fs : Fields) : Option (List String) := do
  (← fs.arr? "workspaceFolders").mapM fun folder => do
    let f ← folder.objectFields?
    discard (f.str? "name")
    f.str? "uri"

/-- The methods that need parameters, each with the reader of its own. -/
def reader? : String → Option (Fields → Option Request)
  | "initialize" => some fun fs => do
    discard (fs.int? "processId")
    return .connect (← fs.str? "rootUri") (← folders? fs)
  | "textDocument/didOpen" => some fun fs => do
    let d ← fs.obj? "textDocument"
    discard (d.str? "languageId")
    return .didOpen (← d.str? "uri") (← d.int? "version") (← d.str? "text")
  | "textDocument/didChange" => some fun fs => do
    let d ← fs.obj? "textDocument"
    let changes ← (← fs.arr? "contentChanges").mapM fun change => do (← change.objectFields?).str? "text"
    return .didChange (← d.str? "uri") (← d.int? "version") changes
  | "textDocument/didSave" => some fun fs =>
    return .didSave (← documentUri? fs) (← fs.optional? "text")
  | "textDocument/didClose" => some fun fs => return .didClose (← documentUri? fs)
  | "textDocument/definition" => some fun fs =>
    return .definition (← documentUri? fs) (← position? fs)
  | "textDocument/hover" => some fun fs => return .hover (← documentUri? fs) (← position? fs)
  | "textDocument/formatting" => some fun fs => do
    let options ← fs.obj? "options"
    discard (options.int? "tabSize")
    discard (options.bool? "insertSpaces")
    return .formatting (← documentUri? fs)
  | "textDocument/documentSymbol" => some fun fs => return .documentSymbol (← documentUri? fs)
  | _ => none

/-- Reads the parameters of a request. -/
def readParameters (read : Fields → Option Request) (params : Json) : Except Refusal Request :=
  match params.objectFields?.bind read with
  | some r => .ok r
  | none => .error (.badParameters "invalid parameters")

/-- Is the value neither a list nor an object? -/
def isScalar : Json → Bool
  | .arr _ => false
  | .obj _ => false
  | _ => true

/-- The request of a method with its parameters, if it has any. -/
def Request.ofMethod (method : String) (params : Option Json) : Except Refusal Request :=
  if params.any isScalar then .error .scalarParameters
  else if method = "" then .error .noMethod
  else match reader? method with
  | some read =>
    match params with
    | some params => readParameters read params
    | none => .error (.badParameters "missing parameters")
  | none =>
    if method = "workspace/symbol" then
      match params with
      | some params => readParameters (fun fs => return .workspaceSymbol (← fs.str? "query")) params
      | none => .ok (.workspaceSymbol "")
    else if method = "shutdown" then .ok .shutdown
    else if method ∈ ["initialized", "exit", "$/cancelRequest", "$/setTrace"] then .ok .notice
    else .error .unknownMethod

/-! ## Answers -/

/-- How serious an editor diagnostic is. -/
inductive Severity where
  | error
  | warning
deriving DecidableEq, Repr, Inhabited

/-- A diagnostic for an editor. -/
structure Problem where
  range : TextRange
  severity : Severity
  code : String
  source : String
  message : Wording
deriving DecidableEq, Repr, Inhabited

/-- A replacement of a range of a document. -/
structure TextEdit where
  range : TextRange
  text : String
deriving DecidableEq, Repr, Inhabited

/-- A symbol of a document, for a list of symbols. -/
structure SymbolEntry where
  name : String
  isTheorem : Bool
  uri : String
  range : TextRange
  container : String
deriving DecidableEq, Repr, Inhabited

/-- The answer to a request. -/
inductive Answer where
  | nothing
  | capabilities
  | place (uri : String) (range : TextRange)
  | hover (text : String) (range : TextRange)
  | edits (edits : List TextEdit)
  | symbols (entries : List SymbolEntry)
deriving DecidableEq, Repr, Inhabited

/-- What the server sends of its own accord. -/
inductive Notification where
  | problems (uri : String) (version : Int) (problems : List Problem)
  | failure (message : String)
deriving DecidableEq, Repr, Inhabited

/-- A field that is left out when it is empty. -/
def unlessEmpty (key value : String) : List (String × Json) :=
  if value = "" then [] else [(key, .str value)]

/-- A position as JSON. -/
def positionJson (p : TextPosition) : Json :=
  .obj [("line", .int p.line), ("character", .int p.character)]

/-- A range as JSON. -/
def rangeJson (r : TextRange) : Json :=
  .obj [("start", positionJson r.start), ("end", positionJson r.stop)]

/-- A place in a document as JSON. -/
def placeJson (uri : String) (r : TextRange) : Json :=
  .obj [("uri", .str uri), ("range", rangeJson r)]

/-- A diagnostic as JSON. -/
def Problem.toJson (p : Problem) : Json :=
  let severity : Int := match p.severity with
    | .error => 1
    | .warning => 2
  .obj ([("range", rangeJson p.range), ("severity", .int severity)] ++ unlessEmpty "code" p.code
    ++ unlessEmpty "source" p.source ++ [("message", .str p.message.text)])

/-- A symbol as JSON. -/
def SymbolEntry.toJson (s : SymbolEntry) : Json :=
  .obj ([("name", .str s.name), ("kind", .int (if s.isTheorem then 12 else 13)),
    ("location", placeJson s.uri s.range)] ++ unlessEmpty "containerName" s.container)

/-- An answer as JSON. -/
def Answer.toJson : Answer → Json
  | nothing => .null
  | capabilities => .obj [
      ("capabilities", .obj [("textDocumentSync", .int 1), ("definitionProvider", .bool true),
        ("hoverProvider", .bool true), ("documentFormattingProvider", .bool true),
        ("documentSymbolProvider", .bool true), ("workspaceSymbolProvider", .bool true)]),
      ("serverInfo", .obj [("name", .str "natded")])]
  | place uri range => placeJson uri range
  | hover text range => .obj [
      ("contents", .obj [("kind", .str "markdown"), ("value", .str text)]),
      ("range", rangeJson range)]
  | edits es => .arr (es.map fun e =>
      .obj [("range", rangeJson e.range), ("newText", .str e.text)])
  | symbols ss => .arr (ss.map SymbolEntry.toJson)

/-- The method of a notification. -/
def Notification.method : Notification → String
  | problems .. => "textDocument/publishDiagnostics"
  | failure _ => "window/logMessage"

/-- The parameters of a notification. -/
def Notification.params : Notification → Json
  | problems uri version ps => .obj [("uri", .str uri), ("version", .int version),
      ("diagnostics", .arr (ps.map Problem.toJson))]
  | failure message => .obj [("type", .int 1), ("message", .str message)]

end ProofScript.Server
