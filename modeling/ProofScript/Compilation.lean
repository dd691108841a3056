import ProofScript.Document.Parser
import ProofScript.Generate
import ProofScript.Program.Position

/-!
# Compiling scripts

A script is read, its program is generated, the library declarations it needs are put in front, and
the whole is printed. The result holds what every stage yields.
-/

namespace ProofScript

open Program

/-- What every stage of a compilation yields. -/
structure Compilation where
  document : Document
  decls : List Stmt
  used : List String
  warnings : List Warning
  primitives : List Primitive
  program : Printed
deriving Repr

/-- Why a compilation fails: the script is wrong, or a document is broken. -/
inductive CompileFailure where
  | script (e : ScriptError)
  | fault (f : Fault)
deriving DecidableEq, Repr, Inhabited

/-- What a compilation reports while it runs. -/
inductive CompileEvent where
  | parsed (theorems : Nat)
  | generate (e : Generate.Event)
  | selected (count : Nat)
deriving DecidableEq, Repr, Inhabited

/-- The program of library declarations followed by the theorems. -/
def emit (primitives : List Primitive) (decls : List Stmt) : Except Gap Printed :=
  print (primitives.map Primitive.decl ++ decls)

/-- The failure of a compilation whose generation fails. -/
def Generate.Failure.toCompile : Generate.Failure → CompileFailure
  | .error e => .script (.generate e)
  | .fault f => .fault f

/-- Compiles a document. The reports come in any case. -/
def Document.compile (d : Document) (systemF : Bool) :
    Except CompileFailure Compilation × List CompileEvent :=
  match d.generate systemF with
  | (.error e, s) => (.error e.toCompile, s.events.map .generate)
  | (.ok decls, s) =>
    let primitives := Library.select s.used systemF
    let events := s.events.map .generate ++ [.selected primitives.length]
    match emit primitives decls with
    | .error g => (.error (.fault (.program g)), events)
    | .ok program => (.ok ⟨d, decls, s.used, s.warnings, primitives, program⟩, events)

/-- Compiles a script. The reports come in any case. -/
def compile (src : List UInt8) (systemF : Bool) :
    Except CompileFailure Compilation × List CompileEvent :=
  match parse src systemF with
  | .error e => (.error (.script e), [])
  | .ok d =>
    let (result, events) := d.compile systemF
    (result, .parsed d.theorems.length :: events)

end ProofScript
