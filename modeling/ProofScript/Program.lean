import ProofScript.Location

/-!
# TypeScript programs

The slice of TypeScript that proofs are compiled to. Every expression and statement that stems from
a script may carry the place it stems from. Trees built by hand may lack a node where one is
required: such a place is `missing`.
-/

namespace ProofScript.Program

/-- A type. -/
inductive TypeExpr where
  | missing
  | ref (name : String) (args : List TypeExpr)
  | func (tparams : List String) (params : List (String × TypeExpr)) (ret : TypeExpr)
  | tuple (elems : List TypeExpr)
  | union (members : List TypeExpr)
  | object (props : List (String × TypeExpr))
  | str (value : String)
  | bool (value : Bool)
  | keyword (name : String)
deriving Repr, Inhabited, BEq

/-- A parameter with its annotation. -/
abbrev Param := String × TypeExpr

mutual

/-- A value expression. -/
inductive Expr where
  | missing
  | ident (name : String) (origin : Option Location)
  | call (fn : Expr) (targs : List TypeExpr) (args : List Expr) (origin : Option Location)
  | arrow (tparams : List String) (params : List Param) (ret : Option TypeExpr) (body : Body)
      (origin : Option Location)
  | str (value : String)
  | bool (value : Bool)
  | array (elems : List Expr)
  | object (props : List Property)
  | index (e : Expr) (i : Int)
  | prop (e : Expr) (name : String)
  | cond (test yes no : Expr)
  | cast (e : Expr) (type : TypeExpr)
  | paren (e : Expr)

/-- A property of an object literal; the short form has the value of the variable of its name. -/
inductive Property where
  | short (name : String)
  | assign (name : String) (value : Expr)

/-- The body of an arrow. -/
inductive Body where
  | missing
  | expr (e : Expr)
  | block (stmts : List Stmt)

/-- A statement. A trusted constant is checked at its signature, not at its value. -/
inductive Stmt where
  | missing
  | typeAlias (name : String) (tparams : List String) (type : TypeExpr)
  | const (name : String) (type : Option TypeExpr) (value : Expr) (declare trusted : Bool)
      (signature : Option TypeExpr) (origin : Option Location)
  | expr (e : Expr) (origin : Option Location)
  | ret (e : Expr)

end

deriving instance Repr for Expr, Property, Body, Stmt

instance : Inhabited Expr := ⟨.missing⟩

instance : Inhabited Body := ⟨.missing⟩

instance : Inhabited Stmt := ⟨.missing⟩

instance : Inhabited Property := ⟨.short ""⟩

/-- The place an expression stems from. -/
def Expr.origin? : Expr → Option Location
  | .ident _ o => o
  | .call _ _ _ o => o
  | .arrow _ _ _ _ o => o
  | _ => none

/-- The place a statement stems from. -/
def Stmt.origin? : Stmt → Option Location
  | .const _ _ _ _ _ _ o => o
  | .expr _ o => o
  | _ => none

/-- The kinds of nodes whose extent is recorded. -/
inductive NodeKind where
  | typeAlias
  | const
  | exprStmt
  | returnStmt
  | ident
  | call
  | arrow
  | stringLit
  | boolLit
  | arrayLit
  | objectLit
  | elementAccess
  | propAccess
  | conditional
  | cast
  | paren
  | missing
deriving DecidableEq, Repr, Inhabited

/-- The name of a kind of node. -/
def NodeKind.name : NodeKind → String
  | typeAlias => "TypeAlias"
  | const => "Const"
  | exprStmt => "ExprStmt"
  | returnStmt => "Return"
  | ident => "Ident"
  | call => "Call"
  | arrow => "Arrow"
  | stringLit => "StringLit"
  | boolLit => "BoolLit"
  | arrayLit => "ArrayLit"
  | objectLit => "ObjectLit"
  | elementAccess => "ElementAccess"
  | propAccess => "PropAccess"
  | conditional => "Conditional"
  | cast => "As"
  | paren => "Paren"
  | missing => "Missing"

/-- The kind of an expression. -/
def Expr.kind : Expr → NodeKind
  | .missing => .missing
  | .ident .. => .ident
  | .call .. => .call
  | .arrow .. => .arrow
  | .str _ => .stringLit
  | .bool _ => .boolLit
  | .array _ => .arrayLit
  | .object _ => .objectLit
  | .index .. => .elementAccess
  | .prop .. => .propAccess
  | .cond .. => .conditional
  | .cast .. => .cast
  | .paren _ => .paren

/-- The kind of a statement. -/
def Stmt.kind : Stmt → NodeKind
  | .missing => .missing
  | .typeAlias .. => .typeAlias
  | .const .. => .const
  | .expr .. => .exprStmt
  | .ret _ => .returnStmt

end ProofScript.Program
