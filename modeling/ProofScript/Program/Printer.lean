import ProofScript.Program.Layout
import ProofScript.Text.Quoted

/-!
# Printing programs

The layout of types, expressions and statements. Blocks are indented by four blanks. A function
type among type arguments or union members, an arrow that is called and an object literal that is
an arrow's body stand in parentheses.
-/

namespace ProofScript.Program

/-- Type parameters in angle brackets, if there are any. -/
def tparamsText (names : List String) : String :=
  if names.isEmpty then "" else "<" ++ ", ".intercalate names ++ ">"

/-- The spelling of a truth value. -/
def boolText (b : Bool) : String := if b then "true" else "false"

/-- Is the type a function type? -/
def TypeExpr.isFunc : TypeExpr → Bool
  | .func .. => true
  | _ => false

/-- Layouts in parentheses on demand. -/
def wrapped (wrap : Bool) (parts : List Layout) : List Layout :=
  if wrap then .text "(" :: parts ++ [.text ")"] else parts

mutual

/-- The layout of a type. -/
def TypeExpr.layout : TypeExpr → List Layout
  | .missing => [.gap .type]
  | .ref name args =>
    if args.isEmpty then [.text name]
    else .text name :: .text "<" :: separated ", " (TypeExpr.nestedLayouts args) ++ [.text ">"]
  | .func tparams params ret =>
    .text (tparamsText tparams ++ "(") :: separated ", " (TypeExpr.fieldLayouts params)
      ++ .text ") => " :: ret.layout
  | .tuple elems => .text "[" :: separated ", " (TypeExpr.layouts elems) ++ [.text "]"]
  | .union members => separated " | " (TypeExpr.nestedLayouts members)
  | .object props => .text "\x7b " :: TypeExpr.propertyLayouts props ++ [.text "\x7d"]
  | .str value => [.text (Text.quote value)]
  | .bool value => [.text (boolText value)]
  | .keyword name => [.text name]

/-- The layouts of types. -/
def TypeExpr.layouts : List TypeExpr → List (List Layout)
  | [] => []
  | t :: rest => t.layout :: TypeExpr.layouts rest

/-- The layouts of types where a bare function type would be ambiguous. -/
def TypeExpr.nestedLayouts : List TypeExpr → List (List Layout)
  | [] => []
  | t :: rest => wrapped t.isFunc t.layout :: TypeExpr.nestedLayouts rest

/-- The layouts of parameters. -/
def TypeExpr.fieldLayouts : List (String × TypeExpr) → List (List Layout)
  | [] => []
  | (name, t) :: rest => (.text (name ++ ": ") :: t.layout) :: TypeExpr.fieldLayouts rest

/-- The layout of the properties of an object type, each closed by a semicolon. -/
def TypeExpr.propertyLayouts : List (String × TypeExpr) → List Layout
  | [] => []
  | (name, t) :: rest =>
    .text (name ++ ": ") :: t.layout ++ .text "; " :: TypeExpr.propertyLayouts rest

end

/-- An annotation after a colon, if there is one. -/
def ascription (t : Option TypeExpr) : List Layout :=
  t.elim [] fun t => .text ": " :: t.layout

/-- Is the expression an arrow? -/
def Expr.isArrow : Expr → Bool
  | .arrow .. => true
  | _ => false

/-- Is the expression an object literal? -/
def Expr.isObject : Expr → Bool
  | .object _ => true
  | _ => false

/-- The blanks in front of a line inside `depth` blocks. -/
def blockIndent (depth : Nat) : String := "".pushn ' ' (4 * depth)

mutual

/-- The layout of an expression inside `depth` blocks. -/
def Expr.layout (depth : Nat) : Expr → Layout
  | .missing => .node ⟨.missing, none⟩ [.gap .expression]
  | .ident name o => .node ⟨.ident, o⟩ [.text name]
  | .call fn targs args o =>
    .node ⟨.call, o⟩
      (wrapped fn.isArrow [fn.layout depth]
        ++ (if targs.isEmpty then []
            else .text "<" :: separated ", " (TypeExpr.nestedLayouts targs) ++ [.text ">"])
        ++ .text "(" :: separated ", " (Expr.layouts depth args) ++ [.text ")"])
  | .arrow tparams params ret body o =>
    .node ⟨.arrow, o⟩
      (.text (tparamsText tparams ++ "(") :: separated ", " (TypeExpr.fieldLayouts params)
        ++ .text ")" :: ascription ret ++ .text " => " :: body.layout depth)
  | .str value => .node ⟨.stringLit, none⟩ [.text (Text.quote value)]
  | .bool value => .node ⟨.boolLit, none⟩ [.text (boolText value)]
  | .array elems =>
    .node ⟨.arrayLit, none⟩ (.text "[" :: separated ", " (Expr.layouts depth elems) ++ [.text "]"])
  | .object props =>
    .node ⟨.objectLit, none⟩
      (if props.isEmpty then [.text "\x7b\x7d"]
       else .text "\x7b " :: separated ", " (Property.layouts depth props) ++ [.text " \x7d"])
  | .index e i =>
    .node ⟨.elementAccess, none⟩ [e.layout depth, .text ("[" ++ toString i ++ "]")]
  | .prop e name => .node ⟨.propAccess, none⟩ [e.layout depth, .text ("." ++ name)]
  | .cond test yes no =>
    .node ⟨.conditional, none⟩
      [test.layout depth, .text " ? ", yes.layout depth, .text " : ", no.layout depth]
  | .cast e t => .node ⟨.cast, none⟩ (e.layout depth :: .text " as " :: t.layout)
  | .paren e => .node ⟨.paren, none⟩ [.text "(", e.layout depth, .text ")"]

/-- The layouts of expressions. -/
def Expr.layouts (depth : Nat) : List Expr → List (List Layout)
  | [] => []
  | e :: rest => [e.layout depth] :: Expr.layouts depth rest

/-- The layouts of the properties of an object literal. -/
def Property.layouts (depth : Nat) : List Property → List (List Layout)
  | [] => []
  | .short name :: rest => [.text name] :: Property.layouts depth rest
  | .assign name e :: rest =>
    [.text (name ++ ": "), e.layout depth] :: Property.layouts depth rest

/-- The layout of an arrow's body. -/
def Body.layout (depth : Nat) : Body → List Layout
  | .missing => [.gap .arrowBody]
  | .expr .missing => [.gap .arrowBody]
  | .expr e => wrapped e.isObject [e.layout depth]
  | .block stmts =>
    .text "\x7b\n" :: Stmt.blockLayout (depth + 1) stmts ++ [.text (blockIndent depth ++ "\x7d")]

/-- The lines of a block. -/
def Stmt.blockLayout (depth : Nat) : List Stmt → List Layout
  | [] => []
  | s :: rest =>
    .text (blockIndent depth) :: s.layout depth :: .text "\n" :: Stmt.blockLayout depth rest

/-- The layout of a statement inside `depth` blocks. -/
def Stmt.layout (depth : Nat) : Stmt → Layout
  | .missing => .node ⟨.missing, none⟩ [.gap .statement]
  | .typeAlias name tparams t =>
    .node ⟨.typeAlias, none⟩
      (.text ("type " ++ name ++ tparamsText tparams ++ " = ") :: t.layout ++ [.text ";"])
  | .const name t value declare _ _ o =>
    .node ⟨.const, o⟩
      (.text ((if declare then "declare " else "") ++ "const " ++ name) :: ascription t
        ++ (if declare then [] else [.text " = ", value.layout depth]) ++ [.text ";"])
  | .expr e o => .node ⟨.exprStmt, o⟩ [e.layout depth, .text ";"]
  | .ret e => .node ⟨.returnStmt, none⟩ [.text "return ", e.layout depth, .text ";"]

end

/-- The layout of a file: one statement after the other, each on a line of its own. -/
def fileLayout (stmts : List Stmt) : List Layout := Stmt.blockLayout 0 stmts

/-- A text, unless the tree it is printed from lacks a node. -/
def textOf (parts : List Layout) : Except Gap String :=
  match Layout.gapAll? parts with
  | some g => .error g
  | none => .ok (Layout.toTextAll parts)

/-- A type as messages show it. -/
def TypeExpr.print (t : TypeExpr) : Except Gap String := textOf t.layout

/-- An expression as messages show it. -/
def Expr.print (e : Expr) : Except Gap String := textOf [e.layout 0]

/-- A type as messages show it; a missing part shows nothing. -/
def TypeExpr.text (t : TypeExpr) : String := Layout.toTextAll t.layout

/-- An expression as messages show it; a missing part shows nothing. -/
def Expr.text (e : Expr) : String := (e.layout 0).toText

/-- A printed file with its span table. -/
structure Printed where
  stmts : List Stmt
  text : String
  spans : List Span
deriving Repr

/-- Prints a file. -/
def print (stmts : List Stmt) : Except Gap Printed :=
  (textOf (fileLayout stmts)).map fun text =>
    ⟨stmts, text, Layout.spansAll .start (fileLayout stmts)⟩

end ProofScript.Program
