import ProofScript.Proofs.Conservation
import ProofScript.Proofs.Extents
import ProofScript.Proofs.Totality

/-!
# The span table of a printed file

A file whose trees lack no node is printed with a row for every expression and statement, in
preorder. The text between the two offsets of a row is what the printer writes for the node, the
recorded positions are those of the offsets, rows nest as nodes do, and an offset leads back to the
place that the deepest node around it stems from.
-/

namespace ProofScript.Program

/-! ## Trees that lack no node -/

mutual

/-- Does a type lack no node? -/
def TypeExpr.complete : TypeExpr → Bool
  | .missing => false
  | .ref _ args => TypeExpr.completeAll args
  | .func _ params ret => TypeExpr.completeFields params && ret.complete
  | .tuple elems => TypeExpr.completeAll elems
  | .union members => TypeExpr.completeAll members
  | .object props => TypeExpr.completeFields props
  | .str _ => true
  | .bool _ => true
  | .keyword _ => true

/-- Do types lack no node? -/
def TypeExpr.completeAll : List TypeExpr → Bool
  | [] => true
  | t :: rest => t.complete && TypeExpr.completeAll rest

/-- Do the types of parameters or properties lack no node? -/
def TypeExpr.completeFields : List (String × TypeExpr) → Bool
  | [] => true
  | (_, t) :: rest => t.complete && TypeExpr.completeFields rest

end

mutual

/-- Does an expression lack no node? -/
def Expr.complete : Expr → Bool
  | .missing => false
  | .ident _ _ => true
  | .call fn targs args _ => fn.complete && TypeExpr.completeAll targs && Expr.completeAll args
  | .arrow _ params ret body _ =>
    TypeExpr.completeFields params && ret.all TypeExpr.complete && body.complete
  | .str _ => true
  | .bool _ => true
  | .array elems => Expr.completeAll elems
  | .object props => Property.completeAll props
  | .index e _ => e.complete
  | .prop e _ => e.complete
  | .cond test yes no => test.complete && yes.complete && no.complete
  | .cast e t => e.complete && t.complete
  | .paren e => e.complete

/-- Do expressions lack no node? -/
def Expr.completeAll : List Expr → Bool
  | [] => true
  | e :: rest => e.complete && Expr.completeAll rest

/-- Do properties lack no node? -/
def Property.completeAll : List Property → Bool
  | [] => true
  | .short _ :: rest => Property.completeAll rest
  | .assign _ value :: rest => value.complete && Property.completeAll rest

/-- Does a body lack no node? -/
def Body.complete : Body → Bool
  | .missing => false
  | .expr e => e.complete
  | .block stmts => Stmt.completeAll stmts

/-- Does a statement lack no node? A declared constant needs no value. -/
def Stmt.complete : Stmt → Bool
  | .missing => false
  | .typeAlias _ _ t => t.complete
  | .const _ t value declare _ _ _ =>
    t.all TypeExpr.complete && (declare || value.complete)
  | .expr e _ => e.complete
  | .ret e => e.complete

/-- Do statements lack no node? -/
def Stmt.completeAll : List Stmt → Bool
  | [] => true
  | s :: rest => s.complete && Stmt.completeAll rest

end

/-! ## Complete trees can be printed -/

theorem solid_elements {ts : List TypeExpr} (h : ∀ t ∈ ts, Solid t.layout) :
    Solid (separated ", " (TypeExpr.layouts ts)) := by
  refine solid_separated ?_
  induction ts with
  | nil => simp [TypeExpr.layouts]
  | cons t ts ih =>
    rw [List.forall_mem_cons] at h
    exact List.forall_mem_cons.mpr ⟨h.1, ih h.2⟩

theorem solid_propertyTypes {props : List (String × TypeExpr)}
    (h : ∀ p ∈ props, Solid p.2.layout) : Solid (TypeExpr.propertyLayouts props) := by
  induction props with
  | nil => exact solid_nil
  | cons p props ih =>
    rw [List.forall_mem_cons] at h
    simp [TypeExpr.propertyLayouts, h.1, ih h.2]

mutual

theorem TypeExpr.solid_layout : (t : TypeExpr) → t.complete = true → Solid t.layout
  | .missing, h => by simp [TypeExpr.complete] at h
  | .ref name args, h => by
    have hargs := TypeExpr.solid_all args h
    rw [TypeExpr.layout]
    split
    · simp
    · simp [solid_nestedLayouts ", " hargs]
  | .func tparams params ret, h => by
    rw [TypeExpr.complete, Bool.and_eq_true] at h
    have hparams := TypeExpr.solid_fields params h.1
    simp [TypeExpr.layout, solid_fieldLayouts hparams, TypeExpr.solid_layout ret h.2]
  | .tuple elems, h => by
    simp [TypeExpr.layout, solid_elements (TypeExpr.solid_all elems h)]
  | .union members, h => by
    simp [TypeExpr.layout, solid_nestedLayouts " | " (TypeExpr.solid_all members h)]
  | .object props, h => by
    simp [TypeExpr.layout, solid_propertyTypes (TypeExpr.solid_fields props h)]
  | .str _, _ => by simp [TypeExpr.layout]
  | .bool _, _ => by simp [TypeExpr.layout]
  | .keyword _, _ => by simp [TypeExpr.layout]

theorem TypeExpr.solid_all :
    (ts : List TypeExpr) → TypeExpr.completeAll ts = true → ∀ t ∈ ts, Solid t.layout
  | [], _ => by simp
  | t :: rest, h => by
    rw [TypeExpr.completeAll, Bool.and_eq_true] at h
    exact List.forall_mem_cons.mpr ⟨TypeExpr.solid_layout t h.1, TypeExpr.solid_all rest h.2⟩

theorem TypeExpr.solid_fields :
    (ps : List (String × TypeExpr)) → TypeExpr.completeFields ps = true →
      ∀ p ∈ ps, Solid p.2.layout
  | [], _ => by simp
  | (_, t) :: rest, h => by
    rw [TypeExpr.completeFields, Bool.and_eq_true] at h
    exact List.forall_mem_cons.mpr ⟨TypeExpr.solid_layout t h.1, TypeExpr.solid_fields rest h.2⟩

end

theorem solid_ascription_of_complete {type : Option TypeExpr}
    (h : type.all TypeExpr.complete = true) : Solid (ascription type) := by
  refine solid_ascription fun t ht => TypeExpr.solid_layout t ?_
  obtain rfl := Option.mem_def.mp ht
  exact h

theorem solid_propertyLayouts {depth : Nat} {props : List Property}
    (h : ∀ parts ∈ Property.layouts depth props, Solid parts) :
    Solid (if props.isEmpty then [.text "\x7b\x7d"]
      else .text "\x7b " :: separated ", " (Property.layouts depth props) ++ [.text " \x7d"]) := by
  split
  · simp
  · simp [solid_separated h]

mutual

theorem Expr.solid_layout (depth : Nat) : (e : Expr) → e.complete = true → Solid [e.layout depth]
  | .missing, h => by simp [Expr.complete] at h
  | .ident _ _, _ => by simp [Expr.layout]
  | .call fn targs args o, h => by
    simp only [Expr.complete, Bool.and_eq_true] at h
    obtain ⟨⟨hfn, htargs⟩, hargs⟩ := h
    have hcallee : Solid (wrapped fn.isArrow [fn.layout depth]) :=
      solid_wrapped (Expr.solid_layout depth fn hfn)
    have htypes := solid_nestedLayouts ", " (TypeExpr.solid_all targs htargs)
    have hvalues : Solid (separated ", " (Expr.layouts depth args)) :=
      solid_separated (Expr.solid_layouts depth args hargs)
    rw [Expr.layout]
    split <;> simp [hcallee, htypes, hvalues]
  | .arrow tparams params ret body o, h => by
    simp only [Expr.complete, Bool.and_eq_true] at h
    obtain ⟨⟨hparams, hret⟩, hbody⟩ := h
    have hfields := solid_fieldLayouts (TypeExpr.solid_fields params hparams)
    simp [Expr.layout, hfields, solid_ascription_of_complete hret, Body.solid_layout depth body hbody]
  | .str _, _ => by simp [Expr.layout]
  | .bool _, _ => by simp [Expr.layout]
  | .array elems, h => by
    simp [Expr.layout, solid_separated (Expr.solid_layouts depth elems h)]
  | .object props, h => by
    rw [Expr.layout, solid_node]
    exact ⟨solid_propertyLayouts (Property.solid_layouts depth props h), solid_nil⟩
  | .index e i, h => by
    simp [Expr.layout, solid_cons_cons, Expr.solid_layout depth e h]
  | .prop e name, h => by
    simp [Expr.layout, solid_cons_cons, Expr.solid_layout depth e h]
  | .cond test yes no, h => by
    simp only [Expr.complete, Bool.and_eq_true] at h
    simp [Expr.layout, solid_cons_cons, Expr.solid_layout depth test h.1.1,
      Expr.solid_layout depth yes h.1.2, Expr.solid_layout depth no h.2]
  | .cast e t, h => by
    rw [Expr.complete, Bool.and_eq_true] at h
    simp [Expr.layout, solid_cons_cons, Expr.solid_layout depth e h.1, TypeExpr.solid_layout t h.2]
  | .paren e, h => by
    simp [Expr.layout, solid_cons_cons, Expr.solid_layout depth e h]

theorem Expr.solid_layouts (depth : Nat) :
    (es : List Expr) → Expr.completeAll es = true → ∀ parts ∈ Expr.layouts depth es, Solid parts
  | [], _ => by simp [Expr.layouts]
  | e :: rest, h => by
    rw [Expr.completeAll, Bool.and_eq_true] at h
    exact List.forall_mem_cons.mpr
      ⟨Expr.solid_layout depth e h.1, Expr.solid_layouts depth rest h.2⟩

theorem Property.solid_layouts (depth : Nat) :
    (ps : List Property) → Property.completeAll ps = true →
      ∀ parts ∈ Property.layouts depth ps, Solid parts
  | [], _ => by simp [Property.layouts]
  | .short _ :: rest, h =>
    List.forall_mem_cons.mpr ⟨by simp, Property.solid_layouts depth rest h⟩
  | .assign _ value :: rest, h => by
    rw [Property.completeAll, Bool.and_eq_true] at h
    exact List.forall_mem_cons.mpr
      ⟨solid_text.mpr (Expr.solid_layout depth value h.1), Property.solid_layouts depth rest h.2⟩

theorem Body.solid_layout (depth : Nat) : (b : Body) → b.complete = true → Solid (b.layout depth)
  | .missing, h => by simp [Body.complete] at h
  | .expr e, h => by
    have he := Expr.solid_layout depth e h
    cases e with
    | missing => simp [Body.complete, Expr.complete] at h
    | _ => exact solid_wrapped he
  | .block stmts, h => by
    simp [Body.layout, Stmt.solid_blockLayout (depth + 1) stmts h]

theorem Stmt.solid_layout (depth : Nat) : (s : Stmt) → s.complete = true → Solid [s.layout depth]
  | .missing, h => by simp [Stmt.complete] at h
  | .typeAlias name tparams t, h => by simp [Stmt.layout, TypeExpr.solid_layout t h]
  | .const name t value declare trusted signature o, h => by
    simp only [Stmt.complete, Bool.and_eq_true, Bool.or_eq_true] at h
    obtain ⟨ht, hvalue⟩ := h
    have hascribed := solid_ascription_of_complete ht
    cases declare with
    | true => simp [Stmt.layout, hascribed]
    | false =>
      have hv := Expr.solid_layout depth value (by simpa using hvalue)
      simp [Stmt.layout, solid_cons_cons, hascribed, hv]
  | .expr e _, h => by
    simp [Stmt.layout, solid_cons_cons, Expr.solid_layout depth e h]
  | .ret e, h => by
    simp [Stmt.layout, solid_cons_cons, Expr.solid_layout depth e h]

theorem Stmt.solid_blockLayout (depth : Nat) :
    (stmts : List Stmt) → Stmt.completeAll stmts = true → Solid (Stmt.blockLayout depth stmts)
  | [], _ => solid_nil
  | s :: rest, h => by
    rw [Stmt.completeAll, Bool.and_eq_true] at h
    rw [Stmt.blockLayout, solid_text, solid_cons_cons, solid_text]
    exact ⟨Stmt.solid_layout depth s h.1, Stmt.solid_blockLayout depth rest h.2⟩

end

/-! ## The nodes of a program -/

/-- An expression as a node with `level` nodes around it, printed inside `depth` blocks. -/
def Expr.site (level depth : Nat) (e : Expr) : Site :=
  ⟨level, ⟨e.kind, e.origin?⟩, (e.layout depth).toText⟩

/-- A statement as a node with `level` nodes around it, printed inside `depth` blocks. -/
def Stmt.site (level depth : Nat) (s : Stmt) : Site :=
  ⟨level, ⟨s.kind, s.origin?⟩, (s.layout depth).toText⟩

mutual

/-- The nodes of an expression in preorder. -/
def Expr.sites (level depth : Nat) : Expr → List Site
  | .missing => [Expr.missing.site level depth]
  | .ident name o => [(Expr.ident name o).site level depth]
  | .call fn targs args o =>
    (Expr.call fn targs args o).site level depth
      :: (fn.sites (level + 1) depth ++ Expr.sitesAll (level + 1) depth args)
  | .arrow tparams params ret body o =>
    (Expr.arrow tparams params ret body o).site level depth :: body.sites (level + 1) depth
  | .str value => [(Expr.str value).site level depth]
  | .bool value => [(Expr.bool value).site level depth]
  | .array elems => (Expr.array elems).site level depth :: Expr.sitesAll (level + 1) depth elems
  | .object props =>
    (Expr.object props).site level depth :: Property.sitesAll (level + 1) depth props
  | .index e i => (Expr.index e i).site level depth :: e.sites (level + 1) depth
  | .prop e name => (Expr.prop e name).site level depth :: e.sites (level + 1) depth
  | .cond test yes no =>
    (Expr.cond test yes no).site level depth
      :: (test.sites (level + 1) depth ++ yes.sites (level + 1) depth ++ no.sites (level + 1) depth)
  | .cast e t => (Expr.cast e t).site level depth :: e.sites (level + 1) depth
  | .paren e => (Expr.paren e).site level depth :: e.sites (level + 1) depth

/-- The nodes of expressions. -/
def Expr.sitesAll (level depth : Nat) : List Expr → List Site
  | [] => []
  | e :: rest => e.sites level depth ++ Expr.sitesAll level depth rest

/-- The nodes of properties. -/
def Property.sitesAll (level depth : Nat) : List Property → List Site
  | [] => []
  | .short _ :: rest => Property.sitesAll level depth rest
  | .assign _ value :: rest => value.sites level depth ++ Property.sitesAll level depth rest

/-- The nodes of a body. The statements of a block are printed one block further in. -/
def Body.sites (level depth : Nat) : Body → List Site
  | .missing => []
  | .expr .missing => []
  | .expr e => e.sites level depth
  | .block stmts => Stmt.sitesAll level (depth + 1) stmts

/-- The nodes of a statement. -/
def Stmt.sites (level depth : Nat) : Stmt → List Site
  | .missing => [Stmt.missing.site level depth]
  | .typeAlias name tparams t => [(Stmt.typeAlias name tparams t).site level depth]
  | .const name t value declare trusted signature o =>
    (Stmt.const name t value declare trusted signature o).site level depth
      :: (if declare then [] else value.sites (level + 1) depth)
  | .expr e o => (Stmt.expr e o).site level depth :: e.sites (level + 1) depth
  | .ret e => (Stmt.ret e).site level depth :: e.sites (level + 1) depth

/-- The nodes of statements. -/
def Stmt.sitesAll (level depth : Nat) : List Stmt → List Site
  | [] => []
  | s :: rest => s.sites level depth ++ Stmt.sitesAll level depth rest

end

namespace Layout

@[simp]
theorem sites_text (level : Nat) (s : String) : (text s).sites level = [] := rfl

@[simp]
theorem sitesAll_nil (level : Nat) : sitesAll level [] = [] := rfl

@[simp]
theorem sitesAll_cons (level : Nat) (p : Layout) (rest : List Layout) :
    sitesAll level (p :: rest) = p.sites level ++ sitesAll level rest := rfl

@[simp]
theorem sitesAll_append (level : Nat) (parts more : List Layout) :
    sitesAll level (parts ++ more) = sitesAll level parts ++ sitesAll level more := by
  induction parts with
  | nil => rfl
  | cons p rest ih => simp [ih]

@[simp]
theorem sitesAll_separated (level : Nat) (sep : String) (parts : List (List Layout)) :
    sitesAll level (separated sep parts) = parts.flatMap (sitesAll level) := by
  fun_induction separated sep parts with
  | case1 => rfl
  | case2 p => simp
  | case3 p rest _ ih => simp [ih]

@[simp]
theorem sitesAll_wrapped (level : Nat) (wrap : Bool) (parts : List Layout) :
    sitesAll level (wrapped wrap parts) = sitesAll level parts := by
  unfold wrapped
  split
  · simp
  · rfl

mutual

theorem map_tag_sites (level : Nat) : (l : Layout) → (l.sites level).map Site.tag = l.tags
  | text _ => rfl
  | gap _ => rfl
  | node tag parts => by
    rw [sites, List.map_cons, map_tag_sitesAll (level + 1) parts, tags]

theorem map_tag_sitesAll (level : Nat) :
    (parts : List Layout) → (sitesAll level parts).map Site.tag = tagsAll parts
  | [] => rfl
  | p :: rest => by
    rw [sitesAll, List.map_append, map_tag_sites level p, map_tag_sitesAll level rest, tagsAll]

end

/-- Parts without a tag have no node. -/
theorem sitesAll_of_tagsAll {parts : List Layout} (h : tagsAll parts = []) (level : Nat) :
    sitesAll level parts = [] := by
  rw [← map_tag_sitesAll level] at h
  exact List.map_eq_nil_iff.mp h

end Layout

open Layout

theorem sitesAll_layout (level : Nat) (t : TypeExpr) : sitesAll level t.layout = [] :=
  sitesAll_of_tagsAll t.tagsAll_layout level

theorem sitesAll_ascription (level : Nat) (t : Option TypeExpr) :
    sitesAll level (ascription t) = [] :=
  sitesAll_of_tagsAll (tagsAll_ascription t) level

theorem flatMap_nestedLayouts (level : Nat) (ts : List TypeExpr) :
    (TypeExpr.nestedLayouts ts).flatMap (sitesAll level) = [] := by
  have htags := (tagsAll_separated ", " _).trans (TypeExpr.flatMap_nestedLayouts ts)
  rw [← sitesAll_separated level ", ", sitesAll_of_tagsAll htags]

theorem flatMap_fieldLayouts (level : Nat) (ps : List Param) :
    (TypeExpr.fieldLayouts ps).flatMap (sitesAll level) = [] := by
  have htags := (tagsAll_separated ", " _).trans (TypeExpr.flatMap_fieldLayouts ps)
  rw [← sitesAll_separated level ", ", sitesAll_of_tagsAll htags]

theorem sitesAll_typeArgs (level : Nat) (targs : List TypeExpr) :
    sitesAll level (if targs.isEmpty then []
      else .text "<" :: separated ", " (TypeExpr.nestedLayouts targs) ++ [.text ">"]) = [] := by
  split
  · rfl
  · simp [flatMap_nestedLayouts]

mutual

theorem Expr.sites_layout (level depth : Nat) :
    (e : Expr) → (e.layout depth).sites level = e.sites level depth
  | .missing => rfl
  | .ident _ _ => rfl
  | .call fn targs args o => by
    simp only [Expr.sites, Expr.site, Expr.layout, Layout.sites, toText, Expr.kind, Expr.origin?,
      sitesAll_append, sitesAll_cons, sitesAll_nil, sitesAll_wrapped, sitesAll_separated,
      sitesAll_typeArgs, Expr.sites_layout (level + 1) depth fn,
      Expr.flatMap_sitesAll (level + 1) depth args, List.nil_append, List.append_nil]
  | .arrow tparams params ret body o => by
    simp [Expr.sites, Expr.site, Expr.layout, Layout.sites, toText, Expr.kind, Expr.origin?,
      flatMap_fieldLayouts, sitesAll_ascription, Body.sites_layout (level + 1) depth body]
  | .str _ => rfl
  | .bool _ => rfl
  | .array elems => by
    simp [Expr.sites, Expr.site, Expr.layout, Layout.sites, toText, Expr.kind, Expr.origin?,
      Expr.flatMap_sitesAll (level + 1) depth elems]
  | .object props => by
    simp only [Expr.sites, Expr.site, Expr.layout, Layout.sites, toText, Expr.kind, Expr.origin?]
    split
    · rename_i hempty
      obtain rfl := List.isEmpty_iff.mp hempty
      rfl
    · simp [Property.flatMap_sitesAll (level + 1) depth props]
  | .index e _ => by
    simp [Expr.sites, Expr.site, Expr.layout, Layout.sites, toText, Expr.kind, Expr.origin?,
      Expr.sites_layout (level + 1) depth e]
  | .prop e _ => by
    simp [Expr.sites, Expr.site, Expr.layout, Layout.sites, toText, Expr.kind, Expr.origin?,
      Expr.sites_layout (level + 1) depth e]
  | .cond test yes no => by
    simp [Expr.sites, Expr.site, Expr.layout, Layout.sites, toText, Expr.kind, Expr.origin?,
      Expr.sites_layout (level + 1) depth test, Expr.sites_layout (level + 1) depth yes,
      Expr.sites_layout (level + 1) depth no]
  | .cast e t => by
    simp [Expr.sites, Expr.site, Expr.layout, Layout.sites, toText, Expr.kind, Expr.origin?,
      Expr.sites_layout (level + 1) depth e, sitesAll_layout]
  | .paren e => by
    simp [Expr.sites, Expr.site, Expr.layout, Layout.sites, toText, Expr.kind, Expr.origin?,
      Expr.sites_layout (level + 1) depth e]

theorem Expr.flatMap_sitesAll (level depth : Nat) :
    (es : List Expr) →
      (Expr.layouts depth es).flatMap (Layout.sitesAll level) = Expr.sitesAll level depth es
  | [] => rfl
  | e :: rest => by
    simp [Expr.layouts, Expr.sitesAll, Expr.sites_layout level depth e,
      Expr.flatMap_sitesAll level depth rest]

theorem Property.flatMap_sitesAll (level depth : Nat) :
    (ps : List Property) →
      (Property.layouts depth ps).flatMap (Layout.sitesAll level) = Property.sitesAll level depth ps
  | [] => rfl
  | .short _ :: rest => by
    simp [Property.layouts, Property.sitesAll, Property.flatMap_sitesAll level depth rest]
  | .assign _ value :: rest => by
    simp [Property.layouts, Property.sitesAll, Expr.sites_layout level depth value,
      Property.flatMap_sitesAll level depth rest]

theorem Body.sites_layout (level depth : Nat) :
    (b : Body) → Layout.sitesAll level (b.layout depth) = b.sites level depth
  | .missing => rfl
  | .block stmts => by
    simp [Body.layout, Body.sites, Stmt.sitesAll_blockLayout level (depth + 1) stmts]
  | .expr e => by
    have he := Expr.sites_layout level depth e
    cases e with
    | missing => rfl
    | _ => simp only [Body.layout, Body.sites, sitesAll_wrapped, sitesAll_cons, he, sitesAll_nil,
        List.append_nil]

theorem Stmt.sitesAll_blockLayout (level depth : Nat) :
    (stmts : List Stmt) →
      Layout.sitesAll level (Stmt.blockLayout depth stmts) = Stmt.sitesAll level depth stmts
  | [] => rfl
  | s :: rest => by
    simp [Stmt.blockLayout, Stmt.sitesAll, Stmt.sites_layout level depth s,
      Stmt.sitesAll_blockLayout level depth rest]

theorem Stmt.sites_layout (level depth : Nat) :
    (s : Stmt) → (s.layout depth).sites level = s.sites level depth
  | .missing => rfl
  | .typeAlias _ _ t => by
    simp [Stmt.sites, Stmt.site, Stmt.layout, Layout.sites, toText, Stmt.kind, Stmt.origin?,
      sitesAll_layout]
  | .const name t value declare trusted signature o => by
    simp only [Stmt.sites, Stmt.site, Stmt.layout, Layout.sites, toText, Stmt.kind, Stmt.origin?]
    cases declare with
    | true => simp [sitesAll_ascription]
    | false => simp [sitesAll_ascription, Expr.sites_layout (level + 1) depth value]
  | .expr e _ => by
    simp [Stmt.sites, Stmt.site, Stmt.layout, Layout.sites, toText, Stmt.kind, Stmt.origin?,
      Expr.sites_layout (level + 1) depth e]
  | .ret e => by
    simp [Stmt.sites, Stmt.site, Stmt.layout, Layout.sites, toText, Stmt.kind, Stmt.origin?,
      Expr.sites_layout (level + 1) depth e]

end

/-! ## The table -/

/-- The text between two byte offsets of a whole text. -/
def TextBetween (whole : String) (start stop : Nat) (text : String) : Prop :=
  ∃ before after, whole = before ++ text ++ after ∧ start = before.utf8ByteSize
    ∧ stop = (before ++ text).utf8ByteSize

/-- A span that records a node of a printed file: its kind and origin, where its text stands, and
the positions of both ends. -/
structure Printed.Records (p : Printed) (site : Site) (span : Span) : Prop where
  tag : span.tag = site.tag
  text : TextBetween p.text span.start.offset span.stop.offset site.text
  start : p.locate span.start.offset = span.start
  stop : p.locate span.stop.offset = span.stop

/-- The rows of a printed file: its nodes in preorder beside its spans. -/
def Printed.rows (p : Printed) : List (Site × Span) := (Stmt.sitesAll 0 0 p.stmts).zip p.spans

/-- A table that describes the printed file exactly. -/
structure Printed.Exact (p : Printed) : Prop where
  all : p.spans.length = (Stmt.sitesAll 0 0 p.stmts).length
  records : ∀ row ∈ p.rows, p.Records row.1 row.2
  nested : Layout.Nested p.rows
  deepest : ∀ offset : Int, Deepest p.rows offset (p.originAt offset)

theorem Printed.records_of_placed {p : Printed} {row : Site × Span}
    (h : Layout.Placed p.text row) : p.Records row.1 row.2 := by
  obtain ⟨before, after, htext, hspan⟩ := h
  have hstop : (before ++ row.1.text).utf8ByteSize
      = (Position.start.advance (before ++ row.1.text)).offset := by
    simp [Position.start]
  have hstart : before.utf8ByteSize = (Position.start.advance before).offset := by
    simp [Position.start]
  rw [hspan]
  refine ⟨rfl, ⟨before, after, htext, hstart.symm, hstop.symm⟩, ?_, ?_⟩
  · rw [← hstart]
    exact locate_of_append (by rw [htext, String.append_assoc])
  · rw [← hstop]
    exact locate_of_append htext

theorem print_of_solid {stmts : List Stmt} (h : Solid (fileLayout stmts)) :
    print stmts
      = .ok ⟨stmts, fileText stmts, Layout.spansAll .start (fileLayout stmts)⟩ := by
  rw [print, textOf, show Layout.gapAll? (fileLayout stmts) = none from h]
  rfl

/-- A file that lacks no node is printed, and its table describes the text exactly. -/
theorem print_exact {stmts : List Stmt} (h : Stmt.completeAll stmts = true) :
    ∃ p, print stmts = .ok p ∧ p.stmts = stmts ∧ p.Exact := by
  refine ⟨_, print_of_solid (Stmt.solid_blockLayout 0 stmts h), rfl, ?_⟩
  generalize hp : (⟨stmts, fileText stmts, Layout.spansAll .start (fileLayout stmts)⟩ : Printed) = p
  have hstmts : p.stmts = stmts := by rw [← hp]
  have htext : p.text = "" ++ Layout.toTextAll (fileLayout stmts) ++ "" := by
    rw [← hp, String.append_empty, String.empty_append]
    rfl
  have hsites : (Layout.rowsAll 0 .start (fileLayout stmts)).map Prod.fst
      = Stmt.sitesAll 0 0 p.stmts := by
    rw [Layout.map_fst_rowsAll, hstmts]
    exact Stmt.sitesAll_blockLayout 0 0 stmts
  have hspans : (Layout.rowsAll 0 .start (fileLayout stmts)).map Prod.snd = p.spans := by
    rw [Layout.map_snd_rowsAll, ← hp]
  have hrows : p.rows = Layout.rowsAll 0 .start (fileLayout stmts) := by
    rw [Printed.rows]
    exact (List.zip_of_prod hsites hspans).symm
  have hplaced : ∀ row ∈ p.rows, Layout.Placed p.text row := by
    rw [hrows, htext]
    exact Layout.placed_rowsAll 0 "" "" (fileLayout stmts)
  have hnested : Layout.Nested p.rows := by
    rw [hrows]
    exact (Layout.forest_rowsAll 0 .start (fileLayout stmts)).nested
  refine ⟨?_, fun row hrow => Printed.records_of_placed (hplaced row hrow), hnested, ?_⟩
  · rw [← hsites, ← hspans, List.length_map, List.length_map]
  · intro offset
    have htag : ∀ row ∈ p.rows, row.2.tag = row.1.tag := fun row hrow =>
      (Printed.records_of_placed (hplaced row hrow)).tag
    rw [Printed.originAt, ← hspans, ← hrows]
    exact Printed.deepest_of_nested htag hnested

theorem print_exact_nested :
    let stmts : List Stmt :=
      [.typeAlias "Pair" ["A"] (.tuple [.ref "A" [], .str "é"]),
        .const "t" none
          (.arrow ["P"] [("p", .ref "P" [])] (some (.ref "P" []))
            (.block
              [.const "q" none
                (.call (.arrow [] [] none (.expr (.object [.short "p"])) none) [] [.str "→\n"]
                  (some ⟨3, 1⟩))
                false false none (some ⟨2, 8⟩),
                .ret (.ident "q" (some ⟨4, 10⟩))])
            (some ⟨2, 1⟩))
          false false none none]
    Stmt.completeAll stmts = true ∧ ∃ p, print stmts = .ok p ∧ p.stmts = stmts ∧ p.Exact :=
  ⟨by decide, print_exact (by decide)⟩

end ProofScript.Program
