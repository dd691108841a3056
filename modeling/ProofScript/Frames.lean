/-!
# Frames

The stack of open binders that decides which atoms each binder declares as type parameters. Every
frame collects the atoms referenced while it is on top. A closed frame declares those that no
frame still open has collected; the others come from the enclosing binder. Atoms bound by a
quantifier are no references.
-/

namespace ProofScript

/-- What goes wrong when the stack is used out of turn. -/
inductive FrameMisuse where
  | addWithoutFrame
  | exitWithoutFrame
  | unbindPastBottom
deriving DecidableEq, Repr, Inhabited

/-- The wording of a misuse. -/
def FrameMisuse.message : FrameMisuse → String
  | addWithoutFrame => "natded: Frames.Add called with no open frame"
  | exitWithoutFrame => "natded: Frames.Exit called with no open frame"
  | unbindPastBottom => "natded: Frames.Unbind past the bottom of the stack"

/-- Open frames, innermost first, and bound names, innermost first. A frame lists its atoms in the
order of their first reference. -/
structure Frames where
  frames : List (List String)
  bound : List String
deriving DecidableEq, Repr, Inhabited

namespace Frames

/-- No frame is open and nothing is bound. -/
def empty : Frames := ⟨[], []⟩

/-- The atoms that are never free. -/
def constants : List String := ["True", "False"]

/-- Opens an empty frame. -/
def enter (f : Frames) : Frames := { f with frames := [] :: f.frames }

/-- Is the name bound by an enclosing quantifier? -/
def isBound (f : Frames) (name : String) : Bool := name ∈ f.bound

/-- Records a reference in the innermost frame, once. -/
def add (f : Frames) (name : String) : Except FrameMisuse Frames :=
  match f.frames with
  | [] => .error .addWithoutFrame
  | top :: rest =>
    if f.isBound name || name ∈ top then .ok f
    else .ok { f with frames := (top ++ [name]) :: rest }

/-- Closes the innermost frame and returns the atoms it declares. -/
def exit (f : Frames) : Except FrameMisuse (List String × Frames) :=
  match f.frames with
  | [] => .error .exitWithoutFrame
  | top :: rest =>
    .ok (top.filter fun name => !(name ∈ constants || rest.any (name ∈ ·)),
      { f with frames := rest })

/-- The number of open frames. -/
def depth (f : Frames) : Nat := f.frames.length

/-- Binds names until the matching `unbind`. -/
def bind (f : Frames) (names : List String) : Frames :=
  { f with bound := names.reverse ++ f.bound }

/-- Releases the last `n` bound names. -/
def unbind (f : Frames) (n : Nat) : Except FrameMisuse Frames :=
  if f.bound.length < n then .error .unbindPastBottom
  else .ok { f with bound := f.bound.drop n }

end Frames

end ProofScript
