import ProofScript.Settling
import ProofScript.Ty.Subst
import ProofScript.Wording

/-!
# Assignability

May a value of one type stand where another type is expected? The answer binds unification
variables as it goes. `any` goes with everything, `never` goes everywhere, functions are
contravariant in their parameter, a polymorphic target must accept rigid constants in the place of
its variables, and a polymorphic source may be used at any instance. Where the answer is no, the
bindings are those of before. Polymorphic types can make a comparison go on for ever, so that it is given
by what it comes to within each depth of comparisons that make one another.
-/

namespace ProofScript

/-- Bindings, the number of the latest variable or constant, and the pairs of types that were taken
for equal, latest first. -/
structure Unifier where
  subst : Subst
  counter : TyVar
  equated : List (Ty × Ty)
deriving Repr, Inhabited

/-- Why a type is not assignable to another. Where type parameters escape, the one that is named is any
of the given ones. -/
inductive AssignError where
  | mismatch (src dst : Ty)
  | selfReference (t : Ty)
  | escape (name : String) (others : List String)
deriving Repr, Inhabited

namespace AssignError

/-- The message about a type parameter that escapes. -/
def escapeText (name : String) : String := "Type parameter '" ++ name ++ "' escapes its scope."

/-- The message of an assignment that fails. -/
def message : AssignError → Wording
  | mismatch src dst => ↑("Type '" ++ src.text ++ "' is not assignable to type '" ++ dst.text ++ "'.")
  | selfReference t => ↑("Type '" ++ t.text ++ "' references itself.")
  | escape name others => ⟨escapeText name, others.map escapeText⟩

end AssignError

/-- Why a comparison stops within a depth: the types do not fit, or it has to go deeper. -/
inductive Unify.Stop where
  | refused (e : AssignError)
  | deeper
deriving Repr, Inhabited

/-- A step of unification. -/
abbrev Unify := ExceptT Unify.Stop (StateM Unifier)

namespace Unifier

/-- Nothing is bound, and no number is taken. -/
def empty : Unifier := ⟨[], 0, []⟩

/-- The next number. -/
def fresh (u : Unifier) : TyVar × Unifier := (u.counter + 1, { u with counter := u.counter + 1 })

/-- Numbers for a list of names. -/
def freshAll (u : Unifier) : List String → List TyVar × Unifier
  | [] => ([], u)
  | _ :: rest =>
    let (v, u) := u.fresh
    let (vs, u) := u.freshAll rest
    (v :: vs, u)

/-- A type with all bindings applied. -/
def resolve (u : Unifier) (t : Ty) : Ty := t.resolve u.subst

/-- A polymorphic type's body with fresh variables. -/
def instantiate (u : Unifier) (params : List (String × TyVar)) (body : Ty) : Ty × Unifier :=
  let (vs, u) := u.freshAll (params.map Prod.fst)
  (Ty.instantiateWith params body (vs.map Ty.var), u)

/-- A polymorphic type's body with fresh rigid constants, and these constants. -/
def skolemize (u : Unifier) (params : List (String × TyVar)) (body : Ty) :
    (List (String × TyVar) × Ty) × Unifier :=
  let (ids, u) := u.freshAll (params.map Prod.fst)
  let skolems := (params.map Prod.fst).zip ids
  ((skolems, Ty.instantiateWith params body (skolems.map fun s => .rigid s.1 s.2)), u)

/-- Follows the bindings of a variable at most `n` times. -/
def shallowUpTo (σ : Subst) : Nat → Ty → Ty
  | 0, t => t
  | n + 1, t =>
    match t with
    | .var v =>
      match σ.find? v with
      | some u => shallowUpTo σ n u
      | none => t
    | _ => t

/-- The type that a chain of bindings leads to. -/
def shallow (u : Unifier) (t : Ty) : Ty := shallowUpTo u.subst (u.subst.length + 1) t

end Unifier

namespace Unify

/-- Binds a variable, unless the type contains it. -/
def bindVar (v : TyVar) (t : Ty) : Unify Unit := do
  let u ← get
  match t with
  | .var w =>
    if v = w then return ()
    else if v ∈ (u.resolve t).freeVars then throw (.refused (.selfReference (u.resolve t)))
    else set { u with subst := u.subst.insert v t }
  | _ =>
    if v ∈ (u.resolve t).freeVars then throw (.refused (.selfReference (u.resolve t)))
    else set { u with subst := u.subst.insert v t }

/-- For each variable that mentions a constant when it is resolved, the name of the first one that it
mentions. The variables are a set, and any of them may be looked at first. -/
def escaping (u : Unifier) (vars : List TyVar) (skolems : List (String × TyVar)) : List String :=
  vars.filterMap fun v =>
    let t := u.resolve (.var v)
    (skolems.find? fun s => t.mentions s.1 s.2).map Prod.fst

/-- Compares two types within a depth. -/
def assign : Nat → Ty → Ty → Unify Unit
  | 0, _, _ => throw .deeper
  | n + 1, src, dst => do
    let u ← get
    let src := u.shallow src
    let dst := u.shallow dst
    if src.eqv dst then set { u with equated := (src, dst) :: u.equated }
    else
      match src, dst with
      | .any, _ => return ()
      | _, .any => return ()
      | .var v, _ => bindVar v dst
      | _, .var v => bindVar v src
      | .never, _ => return ()
      | _, .poly params body =>
        let vars := src.freeVars ++ dst.freeVars
        let ((skolems, body), u) := u.skolemize params body
        set u
        assign n src body
        match escaping (← get) vars skolems with
        | name :: others => throw (.refused (.escape name others))
        | [] => return ()
      | .poly params body, _ =>
        let (body, u) := u.instantiate params body
        set u
        assign n body dst
      | .thunk r, .thunk s => assign n r s
      | .thunk r, .fn _ s => assign n r s
      | .fn a r, .fn b s =>
        assign n b a
        assign n r s
      | .con f as, .con g bs =>
        if f = g ∧ as.length = bs.length then (as.zip bs).forM fun (a, b) => assign n a b
        else throw (.refused (.mismatch src dst))
      | _, _ => throw (.refused (.mismatch src dst))

end Unify

namespace Unifier

/-- What a comparison of two types comes to, told by how it ends. There is no answer if it has to go
deeper. A failure keeps the bindings of before, and shows the whole types. -/
def conclude (u : Unifier) (src dst : Ty) :
    Except Unify.Stop Unit × Unifier → Option (Except AssignError Unit × Unifier)
  | (.ok (), later) => some (.ok (), later)
  | (.error .deeper, _) => none
  | (.error (.refused (.mismatch _ _)), later) =>
    let kept := { later with subst := u.subst }
    some (.error (.mismatch (kept.resolve src) (kept.resolve dst)), kept)
  | (.error (.refused e), later) => some (.error e, { later with subst := u.subst })

/-- Checks within a depth that a value of type `src` may stand where `dst` is expected. -/
def assign? (u : Unifier) (depth : Nat) (src dst : Ty) : Option (Except AssignError Unit × Unifier) :=
  u.conclude src dst (((Unify.assign depth src dst).run).run u)

/-- Checks that a value of type `src` may stand where `dst` is expected, however long that takes. -/
def assign (u : Unifier) (src dst : Ty) : Except AssignError Unit × Unifier :=
  settled fun depth => u.assign? depth src dst

end Unifier

end ProofScript
