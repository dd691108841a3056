import ProofScript.Text.Quoted

/-!
# TOML documents

The values of the configuration language TOML, and the document that is built from its lines: a
table, together with all keys in the order in which they are written. Numbers and dates keep their
spelling.
-/

namespace ProofScript

/-- A TOML value. A list of tables that `[[...]]` headers make is never empty, and its last table is
the one that lines are added to. -/
inductive Toml where
  | bool (b : Bool)
  | str (s : String)
  | number (spelling : String)
  | date (spelling : String)
  | array (items : List Toml)
  | table (entries : List (String × Toml))
  | tables (items : List (List (String × Toml)))
deriving Repr, Inhabited

namespace Toml

/-- The entries of a table. -/
abbrev Table := List (String × Toml)

/-- The parts of a dotted key. -/
abbrev Key := List String

/-- The value of a key of a table. -/
def Table.find? (t : Table) (name : String) : Option Toml :=
  (List.find? (fun e => e.1 = name) t).map Prod.snd

/-- Sets the value of a key of a table; a new key goes last. -/
def Table.set : Table → String → Toml → Table
  | [], name, v => [(name, v)]
  | e :: rest, name, v => if e.1 = name then (name, v) :: rest else e :: Table.set rest name v

/-- Is the character allowed in a key without quotation marks? -/
def isBare (c : Char) : Bool := c.isAlphanum || c == '_' || c == '-'

/-- The written form of one character of a quoted key. -/
def escapeKeyChar (c : Char) : List Char :=
  match c with
  | '"' => ['\\', '"']
  | '\\' => ['\\', '\\']
  | '\t' => ['\\', 't']
  | '\n' => ['\\', 'n']
  | '\r' => ['\\', 'r']
  | c =>
    if c.toNat = 8 then ['\\', 'b']
    else if c.toNat = 12 then ['\\', 'f']
    else if c.toNat < 0x20 ∨ c.toNat = 0x7F then '\\' :: 'u' :: Text.hex 4 c.toNat
    else [c]

/-- One part of a key, quoted unless it is bare. -/
def keyPartText (s : String) : String :=
  if !s.isEmpty && s.toList.all isBare then s
  else String.ofList ('"' :: s.toList.flatMap escapeKeyChar ++ ['"'])

/-- The written form of a key. -/
def keyText (k : Key) : String := ".".intercalate (k.map keyPartText)

/-- A document as far as it is built. A table is implicit while only a longer key has named it;
such a table may still be written out. -/
structure Builder where
  root : Table
  context : Key
  implicit : List Key
  arrays : List Key
  keys : List Key
deriving Repr, Inhabited

namespace Builder

/-- The document before its first line. -/
def empty : Builder := ⟨[], [], [], [], []⟩

/-- Changes the table that a key leads to. -/
def updateAt (f : Table → Option Table) : Table → Key → Option Table
  | t, [] => f t
  | t, k :: rest =>
    match t.find? k with
    | some (.table inner) => (updateAt f inner rest).map fun changed => t.set k (.table changed)
    | some (.tables items) =>
      match items.getLast? with
      | none => none
      | some last =>
        (updateAt f last rest).map fun changed => t.set k (.tables (items.dropLast ++ [changed]))
    | _ => none

/-- The table that a key leads to. -/
def tableAt? : Table → Key → Option Table
  | t, [] => some t
  | t, k :: rest =>
    match t.find? k with
    | some (.table inner) => tableAt? inner rest
    | some (.tables items) => items.getLast?.bind (tableAt? · rest)
    | _ => none

/-- Marks a key as implicit. -/
def addImplicit (b : Builder) (k : Key) : Builder := { b with implicit := k :: b.implicit }

/-- Marks a key as written out. -/
def removeImplicit (b : Builder) (k : Key) : Builder :=
  { b with implicit := b.implicit.filter (· ≠ k) }

/-- Sets a key of the current table. A key that is there already has to be implicit. Then it is
written out: a table keeps its entries, an array is replaced. -/
def setValue (b : Builder) (name : String) (v : Toml) : Option Builder := do
  let key := b.context ++ [name]
  let current ← tableAt? b.root b.context
  if (current.find? name).isSome then
    if key ∉ b.implicit then none
    else if key ∈ b.arrays then
      let root ← updateAt (fun t => some (t.set name v)) b.root b.context
      return { b.removeImplicit key with root }
    else return b.removeImplicit key
  else
    let root ← updateAt (fun t => some (t.set name v)) b.root b.context
    return { b with root }

/-- Records whether the value of a key is an array. -/
def setType (b : Builder) (name : String) (isArray : Bool) : Builder :=
  let key := if name = "" then (if b.context.isEmpty then [""] else b.context)
    else b.context ++ [name]
  let others := b.arrays.filter (· ≠ key)
  { b with arrays := if isArray then key :: others else others }

/-- Makes the tables on the way to a key, given the part of the way that is done. -/
def establish (b : Builder) (done : Key) : Key → Option Builder
  | [] => some b
  | k :: rest => do
    let current ← tableAt? b.root done
    let b ← match current.find? k with
      | none => do
        let root ← updateAt (fun t => some (t.set k (.table []))) b.root done
        pure { b with root, implicit := (done ++ [k]) :: b.implicit }
      | some (.table _) => some b
      | some (.tables _) => some b
      | some _ => none
    establish b (done ++ [k]) rest

/-- Opens the table of a key, or one more table of a list. -/
def openTable (b : Builder) (key : Key) (listed : Bool) : Option Builder := do
  let parents := key.dropLast
  let name := key.getLast?.getD ""
  let b ← b.establish [] parents
  let b := { b with context := parents }
  let b ← if listed then do
      let current ← tableAt? b.root parents
      let items ← match current.find? name with
        | none => some []
        | some (.tables items) => some items
        | some _ => none
      let root ← updateAt (fun t => some (t.set name (.tables (items ++ [[]])))) b.root parents
      pure { b with root }
    else b.setValue name (.table [])
  return { b with context := key }

/-- Opens the tables that the front parts of a dotted key name. -/
def openParents (b : Builder) : List String → Option Builder
  | [] => some b
  | k :: rest => do
    let key := b.context ++ [k]
    openParents (← (b.addImplicit key).openTable key false) rest

/-- Records a key. -/
def addKey (b : Builder) (k : Key) : Builder := { b with keys := b.keys ++ [k] }

end Builder

end Toml

end ProofScript
