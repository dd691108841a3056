/-!
# Types of the checker

The types that generated programs are checked with: unification variables, rigid constants,
functions with one parameter or none, named constructors, first-class polymorphic types, and the
two extreme types. A polymorphic type pairs each bound variable with the name it is shown under.
-/

namespace ProofScript

/-- A number that identifies a unification variable or a rigid constant. -/
abbrev TyVar := Int

/-- A type. Rigid constants of one name and different numbers are different types. -/
inductive Ty where
  | var (v : TyVar)
  | rigid (name : String) (id : TyVar)
  | thunk (ret : Ty)
  | fn (arg ret : Ty)
  | con (name : String) (args : List Ty)
  | poly (params : List (String × TyVar)) (body : Ty)
  | never
  | any
deriving Repr, Inhabited

namespace Ty

/-- A function type, with a parameter or without. -/
def func : Option Ty → Ty → Ty
  | none, ret => thunk ret
  | some arg, ret => fn arg ret

mutual

/-- The number of nodes of a type. -/
def size : Ty → Nat
  | thunk r => r.size + 1
  | fn a r => a.size + r.size + 1
  | con _ as => sizes as + 1
  | poly _ b => b.size + 1
  | _ => 1

/-- The number of nodes of types. -/
def sizes : List Ty → Nat
  | [] => 0
  | t :: rest => t.size + sizes rest

end

mutual

/-- The variables that are free in a type, possibly repeated. -/
def freeVars : Ty → List TyVar
  | var v => [v]
  | thunk r => r.freeVars
  | fn a r => r.freeVars ++ a.freeVars
  | con _ as => freeVarsAll as
  | poly ps b => b.freeVars.filter fun v => !(v ∈ ps.map Prod.snd)
  | _ => []

/-- The variables that are free in types, possibly repeated. -/
def freeVarsAll : List Ty → List TyVar
  | [] => []
  | t :: rest => t.freeVars ++ freeVarsAll rest

end

mutual

/-- Does a rigid constant occur in a type? -/
def mentions (name : String) (id : TyVar) : Ty → Bool
  | rigid n i => n = name && i = id
  | thunk r => r.mentions name id
  | fn a r => a.mentions name id || r.mentions name id
  | con _ as => mentionsAny name id as
  | poly _ b => b.mentions name id
  | _ => false

/-- Does a rigid constant occur in one of these types? -/
def mentionsAny (name : String) (id : TyVar) : List Ty → Bool
  | [] => false
  | t :: rest => t.mentions name id || mentionsAny name id rest

end

mutual

/-- Puts variables in the place of rigid constants, also below binders. -/
def abstract (consts : List ((String × TyVar) × TyVar)) : Ty → Ty
  | rigid n i => (consts.lookup (n, i)).elim (rigid n i) var
  | thunk r => thunk (r.abstract consts)
  | fn a r => fn (a.abstract consts) (r.abstract consts)
  | con n as => con n (abstractAll consts as)
  | poly ps b => poly ps (b.abstract consts)
  | t => t

/-- Puts variables in the place of rigid constants in each type. -/
def abstractAll (consts : List ((String × TyVar) × TyVar)) : List Ty → List Ty
  | [] => []
  | t :: rest => t.abstract consts :: abstractAll consts rest

end

mutual

/-- How messages show a type, where `names` are the names of the bound variables around it. A free
variable is unknown. -/
def render (names : List (TyVar × String)) : Ty → String
  | var v => (names.lookup v).getD "unknown"
  | rigid n _ => n
  | thunk r => "() => " ++ r.render names
  | fn a r => "(_: " ++ a.render names ++ ") => " ++ r.render names
  | con n [] => n
  | con n (a :: as) => n ++ "<" ++ a.render names ++ renderRest names as ++ ">"
  | poly ps b =>
    "<" ++ ", ".intercalate (ps.map Prod.fst) ++ ">"
      ++ b.render ((ps.map Prod.swap).reverse ++ names)
  | never => "never"
  | any => "any"

/-- Further arguments, each after a comma. -/
def renderRest (names : List (TyVar × String)) : List Ty → String
  | [] => ""
  | t :: rest => ", " ++ t.render names ++ renderRest names rest

end

/-- How messages show a type. -/
def text (t : Ty) : String := t.render []

/-- The name of a type: a variable shows its number, a constructor leaves its arguments out. -/
def name : Ty → String
  | var v => "t" ++ toString v
  | con n _ => n
  | t => t.text

end Ty

end ProofScript
