import ProofScript.Document.Printer
import ProofScript.Server.Analysis
import ProofScript.Uri

/-!
# The language server

The server keeps the documents that an editor has open. Every message about the text of a document
makes a new analysis of it, whose problems are published, unless a later version of the text has been
stored meanwhile. An update has two steps with the analysis between them, `Server.begin` and
`Server.finish`, so that messages may overlap. Everything else is read off the stored documents.
-/

namespace ProofScript

open Server

/-- A document as the server knows it. -/
structure OpenDocument where
  text : String
  version : Int
  systemF : Bool
  symbols : Option SymbolTable
deriving Inhabited

/-- The documents that are open, by their URIs. -/
structure Server where
  documents : List (String × OpenDocument)
deriving Inhabited

namespace Server

/-- A server without documents. -/
def empty : Server := ⟨[]⟩

/-- The open document with a URI. -/
def find? (s : Server) (uri : String) : Option OpenDocument := s.documents.lookup uri

/-- The server without a document. -/
def erase (s : Server) (uri : String) : Server := ⟨s.documents.filter (·.1 ≠ uri)⟩

/-- The server with a document in place of the one with the same URI. -/
def insert (s : Server) (uri : String) (d : OpenDocument) : Server :=
  ⟨(uri, d) :: (s.erase uri).documents⟩

/-- What handling a request yields beside the next state. -/
structure Outcome where
  reply : Except Refusal Answer
  pushed : List Notification
  log : List LogEntry
deriving Inhabited

/-- The outcome of a request that is answered and has no other effect. -/
def Outcome.answer (a : Answer) : Outcome := ⟨.ok a, [], []⟩

/-- The outcome of a request that fails. -/
def Outcome.refuse (r : Refusal) : Outcome := ⟨.error r, [], []⟩

/-! ## Updates -/

/-- An update under way: the text to analyse, and the version it is to be stored under. -/
structure Update where
  uri : String
  path : String
  text : String
  version : Int
deriving DecidableEq, Repr, Inhabited

/-- The message about a document that is not open. -/
def notFound (uri : String) : String := "document not found: " ++ uri

/-- Begins an update of an open document. Without a version of its own it keeps the stored one. -/
def begin (s : Server) (uri text : String) (version : Option Int) : Except Refusal Update :=
  match s.find? uri with
  | none => .error (.failed (notFound uri))
  | some d =>
    match Uri.toPath uri with
    | .error f => .error (.failed ("file path from URI: " ++ f.message))
    | .ok path => .ok ⟨uri, Text.ofBytes path, text, version.getD d.version⟩

/-- Is the stored document still open and no later than the update? -/
def accepts (s : Server) (u : Update) : Bool :=
  match s.find? u.uri with
  | none => false
  | some d => d.version ≤ u.version

/-- Stores an analysed update. -/
def store (s : Server) (u : Update) (a : Analysis) : Server :=
  s.insert u.uri ⟨u.text, u.version, a.systemF, a.symbols⟩

/-- Ends an update: its result is stored and published, or dropped if it is out of date. -/
def finish (s : Server) (u : Update) (a : Analysis) : Outcome × Server :=
  let log := ⟨.info, "file updated", [("path", u.path)]⟩ :: a.log
  let failures := a.failure.toList.map .failure
  if s.accepts u then
    (⟨.ok .nothing, failures ++ [.problems u.uri u.version a.problems], log⟩, s.store u a)
  else
    let dropped : LogEntry := ⟨.debug, "dropping superseded diagnostics",
      [("path", u.path), ("version", toString u.version)]⟩
    (⟨.ok .nothing, failures, log ++ [dropped]⟩, s)

/-- Marks a document as open, before its text is known. -/
def openDocument (s : Server) (uri : String) (version : Int) : Server :=
  s.insert uri ⟨"", version, false, none⟩

/-- The text that a save is about: that of the message, or else the stored one. -/
def savedText? (s : Server) (uri : String) (text : Option String) : Option String :=
  (s.find? uri).map fun d => text.getD d.text

/-- Closes a document and takes back its problems. -/
def close (s : Server) (uri : String) : Outcome × Server :=
  (⟨.ok .nothing, [.problems uri 0 []], []⟩, s.erase uri)

section

variable {m : Type → Type} [Monad m]

/-- A whole update, with a given analysis of a path and a text. -/
def update (analyse : String → String → m Analysis) (s : Server) (uri text : String)
    (version : Option Int) : m (Outcome × Server) := do
  match s.begin uri text version with
  | .error r => return (.refuse r, s)
  | .ok u => return s.finish u (← analyse u.path u.text)

end

/-! ## Questions -/

/-- What stands at a position of an open document, with the symbols of the document. -/
def hitAt? (s : Server) (uri : String) (p : TextPosition) : Option (SymbolTable × SymbolTable.Hit) :=
  do
    let symbols ← (← s.find? uri).symbols
    return (symbols, ← symbols.at? p)

/-- The binding that stands at a position or is meant by the name there. -/
def definition (s : Server) (uri : String) (p : TextPosition) : Answer :=
  match s.hitAt? uri p with
  | some (_, .binding _ b) => .place uri b.range
  | some (symbols, .reference r) =>
    match r.referent with
    | .binding i => (symbols.bindings[i]?).elim .nothing fun b => .place uri b.range
    | _ => .nothing
  | none => .nothing

/-- The description of a binding. -/
def bindingText (b : Binding) : String :=
  let claim := if b.formula.isHole then "_" else b.formula.text
  "```natded\n" ++ b.kind.name ++ " " ++ b.name ++ " : " ++ claim ++ "\n```"
    ++ b.container.elim "" fun name => "\n\nin theorem `" ++ name ++ "`"

/-- The description of a rule of the library: the declaration that it stands for. -/
def primitiveText (p : Primitive) : String :=
  let decl := match Program.print [p.decl] with
    | .ok printed => printed.text
    | .error g => g.message
  p.kind.name ++ " `" ++ p.name ++ "`\n\n```typescript\n" ++ decl ++ "```"

/-- The description of what stands at a position. -/
def hover (s : Server) (uri : String) (p : TextPosition) : Answer :=
  match s.hitAt? uri p with
  | some (_, .binding _ b) => .hover (bindingText b) b.range
  | some (symbols, .reference r) =>
    match r.referent with
    | .binding i => (symbols.bindings[i]?).elim .nothing fun b => .hover (bindingText b) r.range
    | .primitive p => .hover (primitiveText p) r.range
    | .unknown => .nothing
  | none => .nothing

/-- The position behind a text, in lines and bytes. -/
def endOf (text : String) : TextPosition :=
  let bs := Text.bytes text
  ⟨bs.count 10, (bs.reverse.takeWhile (· ≠ 10)).length⟩

/-- The edits that format a text: none, or one of the whole text. A text that cannot be parsed is
left alone. -/
def formattingEdits (text : String) (systemF : Bool) : List TextEdit :=
  match parse (Text.bytes text) systemF with
  | .error _ => []
  | .ok d => if d.text = text then [] else [⟨⟨⟨0, 0⟩, endOf text⟩, d.text⟩]

/-- The edits that format a document. -/
def formatting (s : Server) (uri : String) : Except Refusal Answer :=
  match s.find? uri with
  | none => .error (.badParameters (notFound uri))
  | some d => .ok (.edits (formattingEdits d.text d.systemF))

/-- The bindings of an open document. -/
def bindings (s : Server) (uri : String) : List Binding :=
  ((s.find? uri).bind OpenDocument.symbols).elim [] SymbolTable.bindings

/-- The symbols of a document. -/
def documentSymbols (s : Server) (uri : String) : List SymbolEntry :=
  (s.bindings uri).map fun b =>
    ⟨b.name, b.kind = .theorem_, uri, b.range, b.container.getD ""⟩

/-- The theorems of all documents whose names contain a text, whatever its case, document by document
in the order of their URIs. -/
def workspaceSymbols (s : Server) (query : String) : List SymbolEntry :=
  let uris := (s.documents.map Prod.fst).mergeSort (· ≤ ·)
  uris.flatMap fun uri =>
    ((s.bindings uri).filter fun b =>
      b.kind = .theorem_ && Text.contains (Text.lower query).toList (Text.lower b.name).toList).map fun b =>
        ⟨b.name, true, uri, b.range, ""⟩

/-! ## Requests -/

/-- Answers the first message of an editor, which names the folders to work in. -/
def connect (rootUri : String) : Except Refusal Answer :=
  if rootUri = "" then .ok .capabilities
  else match Uri.toPath rootUri with
    | .ok _ => .ok .capabilities
    | .error f => .error (.failed f.message)

variable {m : Type → Type} [Monad m]

/-- Handles a request, with a given analysis of a path and a text. -/
def handleWith (analyse : String → String → m Analysis) (s : Server) :
    Request → m (Outcome × Server)
  | .connect rootUri _ => return (⟨connect rootUri, [], []⟩, s)
  | .notice => return (.answer .nothing, s)
  | .shutdown => return (.answer .nothing, empty)
  | .didOpen uri version text => update analyse (s.openDocument uri version) uri text (some version)
  | .didChange uri version changes =>
    match changes.getLast? with
    | none => return (.answer .nothing, s)
    | some text => update analyse s uri text (some version)
  | .didSave uri text =>
    match s.savedText? uri text with
    | none => return (.answer .nothing, s)
    | some text => update analyse s uri text none
  | .didClose uri => return s.close uri
  | .definition uri p => return (.answer (s.definition uri p), s)
  | .hover uri p => return (.answer (s.hover uri p), s)
  | .formatting uri => return (⟨s.formatting uri, [], []⟩, s)
  | .documentSymbol uri => return (.answer (.symbols (s.documentSymbols uri)), s)
  | .workspaceSymbol query =>
    let found := s.workspaceSymbols query
    return (⟨.ok (.symbols found), [],
      [⟨.info, "workspace symbol request", [("query", query)]⟩,
        ⟨.info, "workspace symbol results",
          [("query", query), ("total", toString found.length)]⟩]⟩, s)

variable [Readers] [Host m]

/-- Handles a request of a method with its parameters, if it has any. -/
def handle (s : Server) (method : String) (params : Option Json) : m (Outcome × Server) := do
  let assigned : LogEntry := ⟨.debug, "assign", [("method", method)]⟩
  let (outcome, s) ← match Request.ofMethod method params with
    | .error r => pure (Outcome.refuse r, s)
    | .ok request => s.handleWith Analysis.ofText request
  return ({ outcome with log := assigned :: outcome.log }, s)

end Server

end ProofScript
