import ProofScript.Json.Parser
import ProofScript.Server

/-!
# Messages on a stream

An editor and the server exchange JSON objects over a stream, each behind a header with its length.
A message with an identifier is a request and is answered under the same identifier, one without is
a notice and has no answer, unless it is no proper message. A list of messages is a batch: its
answers are one list. What the server pushes while it handles messages goes out first.
-/

namespace ProofScript.Server

/-- What is wrong with a message. -/
inductive MessageFault where
  | malformed
  | emptyBatch
  | notObject
  | badVersion
  | otherVersion
  | badId
  | badMethod
  | badParams
  | badError
  | mixed
  | extraFields (names : List String)
  | repeatedId (id : String)
  | noMethod
deriving DecidableEq, Repr, Inhabited

namespace MessageFault

/-- The number of a kind of fault. -/
def code : MessageFault → Int
  | malformed | notObject | badVersion | badMethod | badError => -32700
  | _ => -32600

/-- The wording of a fault. -/
def message : MessageFault → String
  | malformed => "invalid request value"
  | emptyBatch => "empty request batch"
  | notObject => "request is not a JSON object"
  | badVersion => "invalid version key"
  | otherVersion => "invalid version marker"
  | badId => "invalid request ID"
  | badMethod => "invalid method name"
  | badParams => "parameters must be array or object"
  | badError => "invalid error value"
  | mixed => "mixed request and reply fields"
  | extraFields _ => "extra fields in request"
  | repeatedId _ => "duplicate request ID"
  | noMethod => "empty method name"

/-- What a fault is about, where it tells. -/
def data? : MessageFault → Option Json
  | extraFields names => some (.arr (names.map .str))
  | repeatedId id => some (.str id)
  | _ => none

end MessageFault

/-- A message of an editor: its identifier, its method, its parameters, and what is wrong with it. -/
structure Incoming where
  id : Option Json
  method : String
  params : Option Json
  fault : Option MessageFault
deriving Inhabited

namespace Incoming

/-- The fields that a message may have. -/
def known : List String := ["jsonrpc", "id", "method", "params", "error", "result"]

/-- The version of the protocol that a message is marked with. -/
def versionOf : Json → Except MessageFault String
  | .str s => .ok s
  | .null => .ok ""
  | _ => .error .badVersion

/-- The identifier of a message: a text or a number. -/
def idOf : Json → Except MessageFault (Option Json)
  | .null => .ok none
  | .str s => .ok (some (.str s))
  | .int n => .ok (some (.int n))
  | .decimal s => .ok (some (.decimal s))
  | _ => .error .badId

/-- The method of a message. -/
def methodOf : Json → Except MessageFault String
  | .str s => .ok s
  | .null => .ok ""
  | _ => .error .badMethod

/-- The parameters of a message. -/
def paramsOf : Json → Except MessageFault (Option Json)
  | .null => .ok none
  | .obj fs => .ok (some (.obj fs))
  | .arr items => .ok (some (.arr items))
  | _ => .error .badParams

/-- Is the value a code of 32 bits? -/
def isCode (n : Int) : Bool := -0x80000000 ≤ n && n < 0x80000000

/-- Does a message report an error? -/
def reportsError : Json → Except MessageFault Bool
  | .null => .ok false
  | .obj fs =>
    match Json.Fields.int? fs "code", Json.Fields.str? fs "message" with
    | some code, some _ => if isCode code then .ok true else .error .badError
    | _, _ => .error .badError
  | _ => .error .badError

/-- The first fault of a message. -/
def faultOf (fs : Json.Fields) : Except MessageFault Unit := do
  let field := (Json.obj fs).field
  let version ← versionOf (field "jsonrpc")
  discard (idOf (field "id"))
  let method ← methodOf (field "method")
  discard (paramsOf (field "params"))
  let failed ← reportsError (field "error")
  if version ≠ "2.0" then throw .otherVersion
  let replies := failed || fs.any (·.1 = "result")
  if method ≠ "" && replies then throw .mixed
  let extra := (fs.map Prod.fst).filter (· ∉ known)
  if !extra.isEmpty then throw (.extraFields (extra.eraseDups.mergeSort (· ≤ ·)))
  if method = "" then throw .noMethod

/-- Reads a message. A null counts as an object without fields. -/
def ofJson (j : Json) : Incoming :=
  match j.objectFields? with
  | none => ⟨none, "", none, some .notObject⟩
  | some fs =>
    let field := (Json.obj fs).field
    { id := (idOf (field "id")).toOption.join
      method := (methodOf (field "method")).toOption.getD ""
      params := (paramsOf (field "params")).toOption.join
      fault := match faultOf fs with
        | .ok () => none
        | .error f => some f }

/-- Marks the messages of a batch that share an identifier. -/
def markRepeated (batch : List Incoming) : List Incoming :=
  let ids := batch.filterMap fun i => i.id.map Json.render
  batch.map fun i =>
    match i.id.map Json.render with
    | some id => if 1 < ids.count id then { i with fault := some (.repeatedId id) } else i
    | none => i

end Incoming

/-- A message with the mark of the protocol's version. -/
def marked (fields : List (String × Json)) : Json := .obj (("jsonrpc", .str "2.0") :: fields)

/-- A notification as a message. -/
def Notification.toMessage (n : Notification) : Json :=
  marked [("method", .str n.method), ("params", n.params)]

/-- The message that reports an error. -/
def errorMessage (id : Json) (code : Int) (message : String) (data : Option Json) : Json :=
  marked [("id", id), ("error", .obj ([("code", .int code), ("message", .str message)]
    ++ data.toList.map fun d => ("data", d)))]

/-- The message that reports what is wrong with a message. -/
def MessageFault.toMessage (f : MessageFault) (id : Option Json) : Json :=
  errorMessage (id.getD .null) f.code f.message f.data?

/-- The answer to a request as a message. A method that does not exist is named. -/
def replyMessage (id : Json) (method : String) : Except Refusal Answer → Json
  | .ok a => marked [("id", id), ("result", a.toJson)]
  | .error r => errorMessage id r.code r.message
      (if r = .unknownMethod then some (.str method) else none)

/-- What handling messages yields: what is pushed, the answers, and the log. -/
structure Traffic where
  pushed : List Json
  replies : List Json
  log : List LogEntry
deriving Inhabited

namespace Traffic

/-- Nothing at all. -/
def none : Traffic := ⟨[], [], []⟩

/-- One thing after the other. -/
def append (t u : Traffic) : Traffic :=
  ⟨t.pushed ++ u.pushed, t.replies ++ u.replies, t.log ++ u.log⟩

/-- All that goes out for a single message. -/
def single (t : Traffic) : List Json × List LogEntry := (t.pushed ++ t.replies, t.log)

/-- All that goes out for a batch: its answers are one list, if there are any. -/
def batch (t : Traffic) : List Json × List LogEntry :=
  (t.pushed ++ if t.replies.isEmpty then [] else [.arr t.replies], t.log)

end Traffic

variable [Readers] {m : Type → Type} [Monad m] [Host m]

/-- Handles one message: what it yields, and the next state. -/
def receiveOne (s : Server) (i : Incoming) : m (Traffic × Server) := do
  match i.fault with
  | some f => return (⟨[], [f.toMessage i.id], []⟩, s)
  | none =>
    let (outcome, s) ← s.handle i.method i.params
    return (⟨outcome.pushed.map Notification.toMessage,
      i.id.toList.map fun id => replyMessage id i.method outcome.reply, outcome.log⟩, s)

/-- Handles the messages of a batch in their order. -/
def receiveBatch (s : Server) : List Incoming → m (Traffic × Server)
  | [] => return (.none, s)
  | i :: rest => do
    let (t, s) ← s.receiveOne i
    let (u, s) ← receiveBatch s rest
    return (t.append u, s)

/-- Handles a text: what goes out, the log, and the next state. A text that starts with a bracket is
a batch. -/
def receive (s : Server) (text : String) : m ((List Json × List LogEntry) × Server) := do
  let isBatch := text.toList.head? == some '['
  match Json.parse? text, isBatch with
  | some (.arr items), true =>
    if items.isEmpty then return (([MessageFault.emptyBatch.toMessage none], []), s)
    let (t, s) ← s.receiveBatch (Incoming.markRepeated (items.map Incoming.ofJson))
    return (t.batch, s)
  | some j, _ =>
    let (t, s) ← s.receiveOne (Incoming.ofJson j)
    return (t.single, s)
  | none, _ => return (([MessageFault.malformed.toMessage none], []), s)

/-- Handles texts one after the other. -/
def receiveAll (s : Server) : List String → m (List Json × List LogEntry)
  | [] => return ([], [])
  | text :: rest => do
    let ((sent, log), s) ← s.receive text
    let (more, moreLog) ← receiveAll s rest
    return (sent ++ more, log ++ moreLog)

/-- The log line at the start of a session. -/
def started : LogEntry := ⟨.info, "starting LSP server", []⟩

/-- The log line at the end of a session. -/
def ended : LogEntry := ⟨.info, "LSP server closed", [("error", "<nil>")]⟩

/-- A whole session: all that is sent, and the log. -/
def session (messages : List String) : m (List Json × List LogEntry) := do
  let (sent, log) ← empty.receiveAll messages
  return (sent, started :: log ++ [ended])

/-- A message with its header. -/
def framed (j : Json) : String :=
  let body := j.render
  "Content-Length: " ++ toString body.utf8ByteSize ++ "\r\n\r\n" ++ body

end ProofScript.Server
