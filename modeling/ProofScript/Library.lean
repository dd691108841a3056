import ProofScript.Program

/-!
# The library

The declarations that generated programs refer to: the types of the connectives, the inference
rules that are trusted at their signatures, the rules derived from them, and second names for
rules. A program gets the types and exactly the rules it needs.
-/

namespace ProofScript

open Program

/-- The kinds of library declarations. -/
inductive PrimitiveKind where
  | typeDecl
  | trusted
  | derived
  | synonym
deriving DecidableEq, Repr, Inhabited

namespace PrimitiveKind

/-- The name of a kind. -/
def name : PrimitiveKind → String
  | typeDecl => "type"
  | trusted => "axiom"
  | derived => "derived"
  | synonym => "alias"

/-- The name of the kind with a given number. -/
def nameOfNumber : Int → String
  | 0 => typeDecl.name
  | 1 => trusted.name
  | 2 => derived.name
  | 3 => synonym.name
  | _ => "unknown"

end PrimitiveKind

/-- A library declaration. It may require others, exist in System F mode only, and raise a warning
wherever it is used. -/
structure Primitive where
  name : String
  kind : PrimitiveKind
  requires : List String
  systemF : Bool
  warning : Option String
  decl : Stmt
deriving Repr, Inhabited

namespace Library

/-- A type without arguments. -/
def ty (name : String) : TypeExpr := .ref name []

/-- The type of a conjunction. -/
def andType (a b : TypeExpr) : TypeExpr := .ref "And" [a, b]

/-- The type of a disjunction. -/
def orType (a b : TypeExpr) : TypeExpr := .ref "Or" [a, b]

/-- The type of an implication. -/
def implType (a b : TypeExpr) : TypeExpr := .ref "Impl" [a, b]

/-- The type of a negation. -/
def notType (a : TypeExpr) : TypeExpr := .ref "Not" [a]

/-- A function type with one parameter. -/
def fnType (tparams : List String) (param : Param) (ret : TypeExpr) : TypeExpr :=
  .func tparams [param] ret

/-- A variable. -/
def var (name : String) : Expr := .ident name none

/-- A call with one argument. -/
def app (fn arg : Expr) : Expr := .call fn [] [arg] none

/-- An arrow with one parameter. -/
def lam (tparams : List String) (param : Param) (ret : Option TypeExpr) (body : Expr) : Expr :=
  .arrow tparams [param] ret (.expr body) none

/-- A type declaration. -/
def typeDecl (name : String) (tparams : List String) (t : TypeExpr) : Primitive :=
  ⟨name, .typeDecl, [], false, none, .typeAlias name tparams t⟩

/-- A rule that is trusted at its signature. -/
def trustedRule (name : String) (signature : TypeExpr) (value : Expr) : Primitive :=
  ⟨name, .trusted, [], false, none, .const name none value false true (some signature) none⟩

/-- A rule whose value is checked. -/
def derivedRule (name : String) (requires : List String) (value : Expr) : Primitive :=
  ⟨name, .derived, requires, false, none, .const name none value false false none none⟩

/-- A second name for a rule. -/
def aliasRule (name target : String) : Primitive :=
  ⟨name, .synonym, [target], false, none, .const name none (var target) false false none none⟩

/-- The types of the connectives. -/
def types : List Primitive := [
  typeDecl "True" [] (.str "true_"),
  typeDecl "False" [] (.keyword "never"),
  typeDecl "And" ["A", "B"] (.tuple [ty "A", ty "B"]),
  typeDecl "Or" ["A", "B"] (.union [
    .object [("_isLeft", .bool true), ("left", ty "A")],
    .object [("_isLeft", .bool false), ("right", ty "B")]]),
  typeDecl "Impl" ["A", "B"] (fnType [] ("_", ty "A") (ty "B")),
  typeDecl "Not" ["P"] (implType (ty "P") (ty "False")),
  { typeDecl "Apply" ["P", "A"] (.tuple [.str "apply", ty "P", ty "A"]) with systemF := true }]

/-- The rules that are trusted at their signatures. An introduction of a disjunction is named for
the side that it leaves open. -/
def trustedRules : List Primitive := [
  { trustedRule "trueIntro" (ty "True") (.str "true_") with
    decl := .const "trueIntro" (some (ty "True")) (.str "true_") false true (some (ty "True")) none },
  trustedRule "falseElim"
    (fnType ["P"] ("_", ty "False") (ty "P"))
    (lam ["P"] ("_", ty "False") none (.cast (.str "never") (ty "P"))),
  trustedRule "andIntro"
    (fnType ["A"] ("left", ty "A") (fnType ["B"] ("right", ty "B") (andType (ty "A") (ty "B"))))
    (lam ["A"] ("left", ty "A") none
      (lam ["B"] ("right", ty "B") (some (andType (ty "A") (ty "B")))
        (.array [var "left", var "right"]))),
  trustedRule "andElimLeft"
    (fnType ["A", "B"] ("and", andType (ty "A") (ty "B")) (ty "A"))
    (lam ["A", "B"] ("and", andType (ty "A") (ty "B")) (some (ty "A")) (.index (var "and") 0)),
  trustedRule "andElimRight"
    (fnType ["A", "B"] ("and", andType (ty "A") (ty "B")) (ty "B"))
    (lam ["A", "B"] ("and", andType (ty "A") (ty "B")) (some (ty "B")) (.index (var "and") 1)),
  trustedRule "orIntroLeft"
    (fnType ["A", "B"] ("right", ty "B") (orType (ty "A") (ty "B")))
    (lam ["A", "B"] ("right", ty "B") (some (orType (ty "A") (ty "B")))
      (.object [.assign "_isLeft" (.bool false), .short "right"])),
  trustedRule "orIntroRight"
    (fnType ["A", "B"] ("left", ty "A") (orType (ty "A") (ty "B")))
    (lam ["A", "B"] ("left", ty "A") (some (orType (ty "A") (ty "B")))
      (.object [.assign "_isLeft" (.bool true), .short "left"])),
  trustedRule "implElim"
    (fnType ["A", "B"] ("aToB", implType (ty "A") (ty "B")) (fnType [] ("a", ty "A") (ty "B")))
    (lam ["A", "B"] ("aToB", implType (ty "A") (ty "B")) none
      (lam [] ("a", ty "A") (some (ty "B")) (app (var "aToB") (var "a")))),
  trustedRule "orElim"
    (fnType ["A", "B"] ("or", orType (ty "A") (ty "B"))
      (fnType ["C"] ("aToC", implType (ty "A") (ty "C"))
        (fnType [] ("bToC", implType (ty "B") (ty "C")) (ty "C"))))
    (lam ["A", "B"] ("or", orType (ty "A") (ty "B")) none
      (lam ["C"] ("aToC", implType (ty "A") (ty "C")) none
        (lam [] ("bToC", implType (ty "B") (ty "C")) (some (ty "C"))
          (.cond (.prop (var "or") "_isLeft")
            (app (var "aToC") (.prop (var "or") "left"))
            (app (var "bToC") (.prop (var "or") "right")))))),
  trustedRule "id" (fnType ["A"] ("a", ty "A") (ty "A"))
    (lam ["A"] ("a", ty "A") (some (ty "A")) (var "a")),
  ⟨"sorry", .trusted, [], false, some "proof uses sorry",
    .const "sorry" (some (.keyword "any")) .missing true true (some (.keyword "any")) none⟩]

/-- The rules that are checked like any proof. -/
def derivedRules : List Primitive := [
  derivedRule "modusTollens" []
    (lam ["A", "B"] ("aToB", implType (ty "A") (ty "B")) none
      (lam [] ("notB", notType (ty "B")) (some (notType (ty "A")))
        (lam [] ("a", ty "A") none (app (var "notB") (app (var "aToB") (var "a")))))),
  derivedRule "notElim" ["implElim"]
    (lam ["P"] ("p", ty "P") none
      (lam [] ("notP", notType (ty "P")) (some (ty "False"))
        (app (app (var "implElim") (var "notP")) (var "p"))))]

/-- The second names. -/
def aliases : List Primitive := [
  aliasRule "true_" "trueIntro",
  aliasRule "exFalso" "falseElim",
  aliasRule "absurd" "falseElim",
  aliasRule "modusPonens" "implElim",
  aliasRule "exact" "id"]

/-- Every declaration, in the order in which programs hold them. -/
def all : List Primitive := types ++ trustedRules ++ derivedRules ++ aliases

/-- The declaration of a name. -/
def find? (name : String) : Option Primitive := all.find? (·.name = name)

/-- The rule of a name. A type is no rule. -/
def findRule? (name : String) : Option Primitive :=
  (find? name).filter fun p => p.kind ≠ .typeDecl

/-- The names reached from a name through at most `depth` requirements. -/
def reach : Nat → String → List String
  | 0, name => [name]
  | depth + 1, name =>
    name :: ((find? name).elim [] Primitive.requires).flatMap (reach depth)

/-- The declarations of a program that uses these rules: all types, the rules, and whatever they
require, in library order. -/
def select (used : List String) (systemF : Bool) : List Primitive :=
  let keep := used.flatMap (reach all.length)
  all.filter fun p => (systemF || !p.systemF) && (p.kind = .typeDecl || p.name ∈ keep)

end Library

end ProofScript
