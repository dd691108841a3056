import ProofScript.Ty

/-!
# Type environments

A stack of scopes, innermost first. A name has the type of the innermost scope that binds it.
-/

namespace ProofScript

/-- Scopes of names with their types, innermost first. -/
abbrev TyEnv := List (List (String × Ty))

namespace TyEnv

/-- One empty scope. -/
def empty : TyEnv := [[]]

/-- The type of a name. -/
def find? (env : TyEnv) (name : String) : Option Ty := env.findSome? (·.lookup name)

/-- Binds a name in the innermost scope. -/
def add (env : TyEnv) (name : String) (t : Ty) : TyEnv :=
  match env with
  | [] => [[(name, t)]]
  | top :: rest => ((name, t) :: top.filter fun b => b.1 ≠ name) :: rest

/-- Opens a scope. -/
def extend (env : TyEnv) : TyEnv := [] :: env

/-- The variables that are free in some type of the environment, possibly repeated. -/
def freeVars (env : TyEnv) : List TyVar :=
  env.flatMap fun scope => scope.flatMap fun b => b.2.freeVars

end TyEnv

end ProofScript
