import ProofScript.Ty

/-!
# Substitutions

A substitution binds variables to types. Applying it replaces the free variables of a type once;
resolving a type applies it until nothing changes. Two types are equal up to the names of their
bound variables if one's binders, renamed to the other's, leave equal bodies.
-/

namespace ProofScript

/-- Variables with the types they are bound to; no variable is bound twice. -/
abbrev Subst := List (TyVar × Ty)

namespace Subst

/-- The type that a variable is bound to. -/
def find? (σ : Subst) (v : TyVar) : Option Ty := σ.lookup v

/-- Binds a variable anew. -/
def insert (σ : Subst) (v : TyVar) (t : Ty) : Subst := (v, t) :: σ.filter fun b => b.1 ≠ v

/-- The substitution of a list of bindings, where the last one of a variable counts. -/
def ofList (bs : List (TyVar × Ty)) : Subst := bs.foldl (fun σ b => σ.insert b.1 b.2) []

/-- The substitution without the bindings of these variables. -/
def without (σ : Subst) (vs : List TyVar) : Subst := σ.filter fun b => !(b.1 ∈ vs)

/-- The number of nodes of all bound types. -/
def size (σ : Subst) : Nat := Ty.sizes (σ.map Prod.snd)

end Subst

namespace Ty

mutual

/-- Replaces the free variables of a type, once. -/
def apply (σ : Subst) : Ty → Ty
  | var v => (σ.find? v).getD (var v)
  | thunk r => thunk (r.apply σ)
  | fn a r => fn (a.apply σ) (r.apply σ)
  | con n as => con n (applyAll σ as)
  | poly ps b => poly ps (b.apply (σ.without (ps.map Prod.snd)))
  | t => t

/-- Replaces the free variables of each type, once. -/
def applyAll (σ : Subst) : List Ty → List Ty
  | [] => []
  | t :: rest => t.apply σ :: applyAll σ rest

end

/-- The substitution that renames the second binders to the first. -/
def renameBinders (ps qs : List (String × TyVar)) : Subst :=
  .ofList ((qs.zip ps).map fun (q, p) => (q.2, var p.2))

mutual

/-- Are two types equal up to the names of their bound variables? -/
def eqv : Ty → Ty → Bool
  | var v, u =>
    match u with
    | var w => v = w
    | _ => false
  | rigid n i, u =>
    match u with
    | rigid m j => n = m && i = j
    | _ => false
  | thunk r, u =>
    match u with
    | thunk s => r.eqv s
    | _ => false
  | fn a r, u =>
    match u with
    | fn b s => a.eqv b && r.eqv s
    | _ => false
  | con n as, u =>
    match u with
    | con m bs => n = m && eqvAll as bs
    | _ => false
  | poly ps b, u =>
    match u with
    | poly qs c => ps.length = qs.length && b.eqv (c.apply (renameBinders ps qs))
    | _ => false
  | never, u =>
    match u with
    | never => true
    | _ => false
  | any, u =>
    match u with
    | any => true
    | _ => false

/-- Are two lists of types equal up to the names of bound variables? -/
def eqvAll : List Ty → List Ty → Bool
  | [], us => us.isEmpty
  | t :: ts, us =>
    match us with
    | [] => false
    | u :: us => t.eqv u && eqvAll ts us

end

/-- Applies a substitution at most `n` times, until nothing changes. -/
def resolveUpTo (σ : Subst) : Nat → Ty → Ty
  | 0, t => t
  | n + 1, t =>
    let next := t.apply σ
    if next.eqv t then next else resolveUpTo σ n next

/-- Applies a substitution until nothing changes; one round more than there are bindings is always
enough if no variable reaches itself. -/
def resolve (σ : Subst) (t : Ty) : Ty := t.resolveUpTo σ (σ.length + 1)

/-- The body of a polymorphic type with types in the place of its variables, in order. -/
def instantiateWith (params : List (String × TyVar)) (body : Ty) (args : List Ty) : Ty :=
  body.apply (.ofList ((params.map Prod.snd).zip args))

end Ty

end ProofScript
