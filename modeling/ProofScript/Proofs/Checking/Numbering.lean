import ProofScript.Checker

/-!
# Numbers of nodes

The nodes of a program in the order in which they are printed. The table of a printed program lists
exactly these.
-/

namespace ProofScript.Program

/-! ## Nodes of a layout -/

namespace Layout

mutual

/-- The tags of the nodes of a layout in preorder. -/
def tags : Layout → List NodeTag
  | text _ => []
  | gap _ => []
  | node tag parts => tag :: tagsAll parts

/-- The tags of the nodes of parts in order. -/
def tagsAll : List Layout → List NodeTag
  | [] => []
  | p :: rest => p.tags ++ tagsAll rest

end

@[simp]
theorem tags_text (s : String) : (text s).tags = [] := rfl

@[simp]
theorem tagsAll_cons (p : Layout) (rest : List Layout) :
    tagsAll (p :: rest) = p.tags ++ tagsAll rest := rfl

@[simp]
theorem tagsAll_nil : tagsAll [] = [] := rfl

@[simp]
theorem tagsAll_append (parts more : List Layout) :
    tagsAll (parts ++ more) = tagsAll parts ++ tagsAll more := by
  induction parts with
  | nil => rfl
  | cons p rest ih => simp [ih]

mutual

theorem map_tag_spans (start : Position) : (l : Layout) → (l.spans start).map Span.tag = l.tags
  | text _ => rfl
  | gap _ => rfl
  | node tag parts => by
    rw [spans, List.map_cons, map_tag_spansAll start parts, tags]

theorem map_tag_spansAll (start : Position) :
    (parts : List Layout) → (spansAll start parts).map Span.tag = tagsAll parts
  | [] => rfl
  | p :: rest => by
    rw [spansAll, List.map_append, map_tag_spans start p, map_tag_spansAll _ rest, tagsAll]

end

@[simp]
theorem tagsAll_separated (sep : String) (parts : List (List Layout)) :
    tagsAll (separated sep parts) = parts.flatMap tagsAll := by
  fun_induction separated sep parts with
  | case1 => rfl
  | case2 p => simp
  | case3 p rest _ ih => simp [ih]

@[simp]
theorem tagsAll_wrapped (wrap : Bool) (parts : List Layout) :
    tagsAll (wrapped wrap parts) = tagsAll parts := by
  unfold wrapped
  split
  · simp
  · rfl

end Layout

open Layout

/-! ## Types have no nodes -/

mutual

theorem TypeExpr.tagsAll_layout : (t : TypeExpr) → tagsAll t.layout = []
  | .missing => rfl
  | .ref name args => by
    rw [TypeExpr.layout]
    split
    · rfl
    · simp [TypeExpr.flatMap_nestedLayouts args]
  | .func tparams params ret => by
    simp [TypeExpr.layout, TypeExpr.flatMap_fieldLayouts params, TypeExpr.tagsAll_layout ret]
  | .tuple elems => by simp [TypeExpr.layout, TypeExpr.flatMap_layouts elems]
  | .union members => by simp [TypeExpr.layout, TypeExpr.flatMap_nestedLayouts members]
  | .object props => by simp [TypeExpr.layout, TypeExpr.tagsAll_propertyLayouts props]
  | .str _ => rfl
  | .bool _ => rfl
  | .keyword _ => rfl

theorem TypeExpr.flatMap_layouts :
    (ts : List TypeExpr) → (TypeExpr.layouts ts).flatMap tagsAll = []
  | [] => rfl
  | t :: rest => by
    rw [TypeExpr.layouts, List.flatMap_cons, TypeExpr.tagsAll_layout t,
      TypeExpr.flatMap_layouts rest, List.append_nil]

theorem TypeExpr.flatMap_nestedLayouts :
    (ts : List TypeExpr) → (TypeExpr.nestedLayouts ts).flatMap tagsAll = []
  | [] => rfl
  | t :: rest => by
    rw [TypeExpr.nestedLayouts, List.flatMap_cons, tagsAll_wrapped, TypeExpr.tagsAll_layout t,
      TypeExpr.flatMap_nestedLayouts rest, List.append_nil]

theorem TypeExpr.flatMap_fieldLayouts :
    (ps : List (String × TypeExpr)) → (TypeExpr.fieldLayouts ps).flatMap tagsAll = []
  | [] => rfl
  | (name, t) :: rest => by
    rw [TypeExpr.fieldLayouts, List.flatMap_cons, tagsAll_cons, tags_text,
      TypeExpr.tagsAll_layout t, TypeExpr.flatMap_fieldLayouts rest]
    rfl

theorem TypeExpr.tagsAll_propertyLayouts :
    (ps : List (String × TypeExpr)) → tagsAll (TypeExpr.propertyLayouts ps) = []
  | [] => rfl
  | (name, t) :: rest => by
    simp [TypeExpr.propertyLayouts, TypeExpr.tagsAll_layout t,
      TypeExpr.tagsAll_propertyLayouts rest]

end

theorem tagsAll_ascription (t : Option TypeExpr) : tagsAll (ascription t) = [] := by
  cases t with
  | none => rfl
  | some t => simp [ascription, TypeExpr.tagsAll_layout t]

/-! ## Nodes of a program -/

mutual

/-- The tags of the nodes of an expression in the order in which they are printed. -/
def Expr.tags : Expr → List NodeTag
  | .missing => [⟨.missing, none⟩]
  | .ident _ o => [⟨.ident, o⟩]
  | .call fn _ args o => ⟨.call, o⟩ :: (fn.tags ++ exprsTags args)
  | .arrow _ _ _ body o => ⟨.arrow, o⟩ :: body.tags
  | .str _ => [⟨.stringLit, none⟩]
  | .bool _ => [⟨.boolLit, none⟩]
  | .array elems => ⟨.arrayLit, none⟩ :: exprsTags elems
  | .object props => ⟨.objectLit, none⟩ :: propsTags props
  | .index e _ => ⟨.elementAccess, none⟩ :: e.tags
  | .prop e _ => ⟨.propAccess, none⟩ :: e.tags
  | .cond test yes no => ⟨.conditional, none⟩ :: (test.tags ++ yes.tags ++ no.tags)
  | .cast e _ => ⟨.cast, none⟩ :: e.tags
  | .paren e => ⟨.paren, none⟩ :: e.tags

/-- The tags of the nodes of expressions. -/
def exprsTags : List Expr → List NodeTag
  | [] => []
  | e :: rest => e.tags ++ exprsTags rest

/-- The tags of the nodes of properties. -/
def propsTags : List Property → List NodeTag
  | [] => []
  | .short _ :: rest => propsTags rest
  | .assign _ value :: rest => value.tags ++ propsTags rest

/-- The tags of the nodes of a body. A missing expression is no node there. -/
def Body.tags : Body → List NodeTag
  | .missing => []
  | .expr .missing => []
  | .expr e => e.tags
  | .block stmts => stmtsTags stmts

/-- The tags of the nodes of a statement. -/
def Stmt.tags : Stmt → List NodeTag
  | .missing => [⟨.missing, none⟩]
  | .typeAlias .. => [⟨.typeAlias, none⟩]
  | .const _ _ value declare _ _ o => ⟨.const, o⟩ :: (if declare then [] else value.tags)
  | .expr e o => ⟨.exprStmt, o⟩ :: e.tags
  | .ret e => ⟨.returnStmt, none⟩ :: e.tags

/-- The tags of the nodes of statements. -/
def stmtsTags : List Stmt → List NodeTag
  | [] => []
  | s :: rest => s.tags ++ stmtsTags rest

end

theorem stmtsTags_append (stmts more : List Stmt) :
    stmtsTags (stmts ++ more) = stmtsTags stmts ++ stmtsTags more := by
  induction stmts with
  | nil => rfl
  | cons s rest ih => simp [stmtsTags, ih]

mutual

theorem Expr.tags_layout (depth : Nat) : (e : Expr) → (e.layout depth).tags = e.tags
  | .missing => rfl
  | .ident _ _ => rfl
  | .call fn targs args o => by
    have htargs : tagsAll (if targs.isEmpty then []
        else .text "<" :: separated ", " (TypeExpr.nestedLayouts targs) ++ [.text ">"]) = [] := by
      split
      · rfl
      · simp [TypeExpr.flatMap_nestedLayouts targs]
    rw [Expr.layout, Layout.tags, Expr.tags]
    simp only [tagsAll_append, tagsAll_cons, tagsAll_nil, tagsAll_wrapped, tagsAll_separated,
      tags_text, htargs, Expr.tags_layout depth fn, flatMap_layouts depth args, List.nil_append,
      List.append_nil]
  | .arrow tparams params ret body o => by
    simp [Expr.layout, Layout.tags, Expr.tags, TypeExpr.flatMap_fieldLayouts params,
      tagsAll_ascription ret, Body.tagsAll_layout depth body]
  | .str _ => rfl
  | .bool _ => rfl
  | .array elems => by simp [Expr.layout, Layout.tags, Expr.tags, flatMap_layouts depth elems]
  | .object props => by
    rw [Expr.layout, Layout.tags, Expr.tags]
    split
    · rename_i hempty
      obtain rfl := List.isEmpty_iff.mp hempty
      rfl
    · simp [flatMap_propertyLayouts depth props]
  | .index e _ => by simp [Expr.layout, Layout.tags, Expr.tags, Expr.tags_layout depth e]
  | .prop e _ => by simp [Expr.layout, Layout.tags, Expr.tags, Expr.tags_layout depth e]
  | .cond test yes no => by
    simp [Expr.layout, Layout.tags, Expr.tags, Expr.tags_layout depth test,
      Expr.tags_layout depth yes, Expr.tags_layout depth no]
  | .cast e t => by
    simp [Expr.layout, Layout.tags, Expr.tags, Expr.tags_layout depth e, t.tagsAll_layout]
  | .paren e => by simp [Expr.layout, Layout.tags, Expr.tags, Expr.tags_layout depth e]

theorem flatMap_layouts (depth : Nat) :
    (es : List Expr) → (Expr.layouts depth es).flatMap tagsAll = exprsTags es
  | [] => rfl
  | e :: rest => by
    simp [Expr.layouts, exprsTags, Expr.tags_layout depth e, flatMap_layouts depth rest]

theorem flatMap_propertyLayouts (depth : Nat) :
    (ps : List Property) → (Property.layouts depth ps).flatMap tagsAll = propsTags ps
  | [] => rfl
  | .short _ :: rest => by
    simp [Property.layouts, propsTags, flatMap_propertyLayouts depth rest]
  | .assign _ value :: rest => by
    simp [Property.layouts, propsTags, Expr.tags_layout depth value,
      flatMap_propertyLayouts depth rest]

theorem Body.tagsAll_layout (depth : Nat) : (b : Body) → tagsAll (b.layout depth) = b.tags
  | .missing => rfl
  | .block stmts => by simp [Body.layout, Body.tags, tagsAll_blockLayout (depth + 1) stmts]
  | .expr e => by
    have he := Expr.tags_layout depth e
    cases e with
    | missing => rfl
    | _ => simp only [Body.layout, Body.tags, tagsAll_wrapped, tagsAll_cons, he, tagsAll_nil,
        List.append_nil]

theorem tagsAll_blockLayout (depth : Nat) :
    (stmts : List Stmt) → tagsAll (Stmt.blockLayout depth stmts) = stmtsTags stmts
  | [] => rfl
  | s :: rest => by
    simp [Stmt.blockLayout, stmtsTags, Stmt.tags_layout depth s, tagsAll_blockLayout depth rest]

theorem Stmt.tags_layout (depth : Nat) : (s : Stmt) → (s.layout depth).tags = s.tags
  | .missing => rfl
  | .typeAlias _ _ t => by simp [Stmt.layout, Layout.tags, Stmt.tags, t.tagsAll_layout]
  | .const name t value declare trusted signature o => by
    cases declare with
    | true => simp [Stmt.layout, Layout.tags, Stmt.tags, tagsAll_ascription t]
    | false =>
      simp [Stmt.layout, Layout.tags, Stmt.tags, tagsAll_ascription t, Expr.tags_layout depth value]
  | .expr e _ => by simp [Stmt.layout, Layout.tags, Stmt.tags, Expr.tags_layout depth e]
  | .ret e => by simp [Stmt.layout, Layout.tags, Stmt.tags, Expr.tags_layout depth e]

end

/-- The table of a printed program lists the nodes of its statements. -/
theorem map_tag_print {stmts : List Stmt} {p : Printed} (h : print stmts = .ok p) :
    p.spans.map Span.tag = stmtsTags stmts := by
  unfold print at h
  cases htext : textOf (fileLayout stmts) with
  | error g => simp [htext, Except.map] at h
  | ok text =>
    obtain rfl : _ = p := by simpa [htext, Except.map] using h
    exact (map_tag_spansAll _ _).trans (tagsAll_blockLayout 0 stmts)

end ProofScript.Program
