import ProofScript.Program.Printer

/-!
# Texts that can be read off

The trees of generated programs, and how a tree is read off its text in front of any text that ends
it: a name goes on to the first character that is no part of a name, and a type to the first one that
does not open type arguments.
-/

namespace ProofScript.Program

/-! ## Trees without places -/

mutual

/-- The expression without its places. -/
def Expr.erase : Expr → Expr
  | .missing => .missing
  | .ident name _ => .ident name none
  | .call fn targs args _ => .call fn.erase targs (Expr.eraseAll args) none
  | .arrow tparams params ret body _ => .arrow tparams params ret body.erase none
  | .str value => .str value
  | .bool value => .bool value
  | .array elems => .array (Expr.eraseAll elems)
  | .object props => .object (Property.eraseAll props)
  | .index e i => .index e.erase i
  | .prop e name => .prop e.erase name
  | .cond test yes no => .cond test.erase yes.erase no.erase
  | .cast e t => .cast e.erase t
  | .paren e => .paren e.erase

/-- The expressions without their places. -/
def Expr.eraseAll : List Expr → List Expr
  | [] => []
  | e :: rest => e.erase :: Expr.eraseAll rest

/-- The properties without their places. -/
def Property.eraseAll : List Property → List Property
  | [] => []
  | .short name :: rest => .short name :: Property.eraseAll rest
  | .assign name value :: rest => .assign name value.erase :: Property.eraseAll rest

/-- The body without its places. -/
def Body.erase : Body → Body
  | .missing => .missing
  | .expr e => .expr e.erase
  | .block stmts => .block (Stmt.eraseAll stmts)

/-- The statement without its places. -/
def Stmt.erase : Stmt → Stmt
  | .missing => .missing
  | .typeAlias name tparams t => .typeAlias name tparams t
  | .const name t value declare trusted signature _ =>
    .const name t value.erase declare trusted signature none
  | .expr e _ => .expr e.erase none
  | .ret e => .ret e.erase

/-- The statements without their places. -/
def Stmt.eraseAll : List Stmt → List Stmt
  | [] => []
  | s :: rest => s.erase :: Stmt.eraseAll rest

end

theorem Expr.eraseAll_eq_map (es : List Expr) : Expr.eraseAll es = es.map Expr.erase := by
  induction es with
  | nil => rfl
  | cons e rest ih => rw [Expr.eraseAll, ih, List.map_cons]

theorem Stmt.eraseAll_eq_map (stmts : List Stmt) : Stmt.eraseAll stmts = stmts.map Stmt.erase := by
  induction stmts with
  | nil => rfl
  | cons st rest ih => rw [Stmt.eraseAll, ih, List.map_cons]

/-! ## The trees that are generated -/

/-- The characters that stand between names. -/
def delimiters : List Char := [' ', '\n', '(', ')', '<', '>', ',', ':', ';', '=', '\x7b', '\x7d']

/-- A name is not empty, and nothing in it ends it. -/
def IsWord (name : String) : Prop := name.toList ≠ [] ∧ ∀ c ∈ name.toList, c ∉ delimiters

instance (name : String) : Decidable (IsWord name) :=
  decidable_of_iff (name.toList ≠ [] ∧ name.toList.all (· ∉ delimiters)) (by simp [IsWord])

section Generated

variable (W : String → Prop)

/-- A type that is generated, whose names are of a kind: a reference, or a function type. -/
inductive TypeExpr.Generated : TypeExpr → Prop
  | ref {name : String} {args : List TypeExpr} :
      W name → (∀ t ∈ args, t.Generated) → TypeExpr.Generated (.ref name args)
  | func {tparams : List String} {params : List Param} {ret : TypeExpr} :
      (∀ n ∈ tparams, W n) → (∀ p ∈ params, W p.1) → (∀ p ∈ params, p.2.Generated) →
      ret.Generated → TypeExpr.Generated (.func tparams params ret)

mutual

/-- An expression that is generated, whose names are of a kind: a name, a call of a name or of a call,
or an arrow with at most one parameter. -/
inductive Expr.Generated : Expr → Prop
  | ident {name : String} {o : Option Location} : W name → Expr.Generated (.ident name o)
  | call {fn : Expr} {targs : List TypeExpr} {args : List Expr} {o : Option Location} :
      fn.isArrow = false → fn.Generated → (∀ t ∈ targs, t.Generated W) →
      (∀ x ∈ args, x.Generated) → Expr.Generated (.call fn targs args o)
  | arrow {tparams : List String} {params : List Param} {ret : Option TypeExpr} {body : Body}
      {o : Option Location} :
      (∀ n ∈ tparams, W n) → params.length ≤ 1 → (∀ p ∈ params, W p.1) →
      (∀ p ∈ params, p.2.Generated W) → (∀ t ∈ ret, t.Generated W) → body.Generated →
      Expr.Generated (.arrow tparams params ret body o)

/-- A body that is generated, whose names are of a kind: an expression or a block. -/
inductive Body.Generated : Body → Prop
  | expr {e : Expr} : e.Generated → Body.Generated (.expr e)
  | block {stmts : List Stmt} : (∀ st ∈ stmts, st.Generated) → Body.Generated (.block stmts)

/-- A statement that is generated, whose names are of a kind: a constant that is checked at its value,
an arrow in parentheses, or a return. -/
inductive Stmt.Generated : Stmt → Prop
  | const {name : String} {type : Option TypeExpr} {value : Expr} {o : Option Location} :
      W name → (∀ t ∈ type, t.Generated W) → value.Generated →
      Stmt.Generated (.const name type value false false none o)
  | arrow {e : Expr} {o : Option Location} :
      e.isArrow = true → e.Generated → Stmt.Generated (.expr (.paren e) o)
  | ret {e : Expr} : e.Generated → Stmt.Generated (.ret e)

end

end Generated

section Mono

variable {W W' : String → Prop}

theorem TypeExpr.Generated.mono (hW : ∀ n, W n → W' n) {t : TypeExpr} (h : t.Generated W) :
    t.Generated W' := by
  induction h with
  | ref hname _ ih => exact .ref (hW _ hname) ih
  | func htparams hnames _ _ ihparams ihret =>
    exact .func (fun n hn => hW n (htparams n hn)) (fun p hp => hW p.1 (hnames p hp)) ihparams ihret

mutual

theorem Expr.Generated.mono (hW : ∀ n, W n → W' n) {e : Expr} : e.Generated W → e.Generated W'
  | .ident hname => .ident (hW _ hname)
  | .call hfn h htargs hargs =>
    .call hfn (Expr.Generated.mono hW h) (fun t ht => (htargs t ht).mono hW)
      fun x hx => Expr.Generated.mono hW (hargs x hx)
  | .arrow htparams hlength hnames htypes hret hbody =>
    .arrow (fun n hn => hW n (htparams n hn)) hlength (fun p hp => hW p.1 (hnames p hp))
      (fun p hp => (htypes p hp).mono hW) (fun t ht => (hret t ht).mono hW)
      (Body.Generated.mono hW hbody)

theorem Body.Generated.mono (hW : ∀ n, W n → W' n) {b : Body} : b.Generated W → b.Generated W'
  | .expr h => .expr (Expr.Generated.mono hW h)
  | .block h => .block fun st hst => Stmt.Generated.mono hW (h st hst)

theorem Stmt.Generated.mono (hW : ∀ n, W n → W' n) {st : Stmt} : st.Generated W → st.Generated W'
  | .const hname htype hvalue =>
    .const (hW _ hname) (fun t ht => (htype t ht).mono hW) (Expr.Generated.mono hW hvalue)
  | .arrow harrow h => .arrow harrow (Expr.Generated.mono hW h)
  | .ret h => .ret (Expr.Generated.mono hW h)

end

end Mono

/-- A type that is generated from words. -/
abbrev TypeExpr.Emittable (t : TypeExpr) : Prop := t.Generated IsWord

/-- An expression that is generated from words. -/
abbrev Expr.Emittable (e : Expr) : Prop := e.Generated IsWord

/-- A body that is generated from words. -/
abbrev Body.Emittable (b : Body) : Prop := b.Generated IsWord

/-- A statement that is generated from words. -/
abbrev Stmt.Emittable (st : Stmt) : Prop := st.Generated IsWord

/-! ## Texts that can be read off -/

/-- What is written of the thing can be read off in front of any text that ends it: nothing else of
its kind is written alike. `shape` is what a text can tell of a thing. -/
def Legible {α β : Type} (kind : α → Prop) (ends : List Char → Prop) (write : α → List Char)
    (shape : α → β) (a : α) : Prop :=
  ∀ a' r r', kind a' → ends r → ends r' → write a ++ r = write a' ++ r' →
    shape a = shape a' ∧ r = r'

/-- No name goes on in the text. -/
def EndsName (r : List Char) : Prop := ∀ c ∈ r.head?, c ∈ delimiters

/-- No type goes on in the text. -/
def EndsType (r : List Char) : Prop := ∀ c ∈ r.head?, c ∈ delimiters ∧ c ≠ '<'

/-- No expression goes on in the text. -/
def EndsExpr (r : List Char) : Prop := ∀ c ∈ r.head?, c ∈ delimiters ∧ c ≠ '<' ∧ c ≠ '('

theorem EndsType.endsName {r : List Char} (h : EndsType r) : EndsName r := fun c hc => (h c hc).1

theorem EndsExpr.endsType {r : List Char} (h : EndsExpr r) : EndsType r :=
  fun c hc => ⟨(h c hc).1, (h c hc).2.1⟩

@[simp]
theorem endsName_cons {c : Char} {r : List Char} : EndsName (c :: r) ↔ c ∈ delimiters := by
  simp [EndsName]

@[simp]
theorem endsType_cons {c : Char} {r : List Char} :
    EndsType (c :: r) ↔ c ∈ delimiters ∧ c ≠ '<' := by
  simp [EndsType]

@[simp]
theorem endsExpr_cons {c : Char} {r : List Char} :
    EndsExpr (c :: r) ↔ c ∈ delimiters ∧ c ≠ '<' ∧ c ≠ '(' := by
  simp [EndsExpr]

theorem IsWord.exists_cons {name : String} (h : IsWord name) :
    ∃ c cs, name.toList = c :: cs ∧ c ∉ delimiters := by
  obtain ⟨c, cs, hname⟩ := List.exists_cons_of_ne_nil h.1
  exact ⟨c, cs, hname, h.2 c (by simp [hname])⟩

theorem word_legible {name : String} (h : IsWord name) :
    Legible IsWord EndsName String.toList id name := by
  intro name' r r' h' hr hr' heq
  -- Of both texts, the name is what stands in front of the first delimiter.
  have htake : ∀ {n : String} {r : List Char}, IsWord n → EndsName r →
      (n.toList ++ r).takeWhile (· ∉ delimiters) = n.toList := by
    intro n r hn hr
    rw [List.takeWhile_append_of_pos (by simpa using hn.2)]
    cases r with
    | nil => simp
    | cons c r => simp [endsName_cons.mp hr]
  have hname : name.toList = name'.toList := by
    rw [← htake h hr, heq, htake h' hr']
  rw [hname, List.append_cancel_left_eq] at heq
  exact ⟨String.toList_inj.mp hname, heq⟩

/-! ## Lists -/

/-- What stands behind the first item of a list that is closed by a character. -/
def itemsBehind {α : Type} (write : α → List Char) (close : Char) : List α → List Char → List Char
  | [], r => close :: r
  | a :: as, r => ',' :: ' ' :: (write a ++ itemsBehind write close as r)

/-- The items of a list with commas between them, the character that closes it, and what follows. -/
def items {α : Type} (write : α → List Char) (close : Char) : List α → List Char → List Char
  | [], r => close :: r
  | a :: as, r => write a ++ itemsBehind write close as r

theorem items_eq {α : Type} (write : α → List Char) (close : Char) (as : List α) (r : List Char) :
    [',', ' '].intercalate (as.map write) ++ close :: r = items write close as r := by
  cases as with
  | nil => rfl
  | cons a as =>
    induction as generalizing a with
    | nil => simp [items, itemsBehind]
    | cons b as ih =>
      have hrest := ih b
      simp only [List.map_cons, items] at hrest
      simp [List.intercalate_cons_cons, items, itemsBehind, hrest]

section Lists

variable {α β : Type} {kind : α → Prop} {ends : List Char → Prop} {write : α → List Char}
  {shape : α → β} {close : Char}

theorem ends_itemsBehind (hcomma : ∀ r, ends (',' :: r)) (hclose : ∀ r, ends (close :: r))
    (as : List α) (r : List Char) : ends (itemsBehind write close as r) := by
  cases as with
  | nil => exact hclose r
  | cons a as => exact hcomma _

theorem itemsBehind_legible (hcomma : ∀ r, ends (',' :: r)) (hclose : ∀ r, ends (close :: r))
    (hne : close ≠ ',') {as as' : List α} {r r' : List Char}
    (has : ∀ a ∈ as, Legible kind ends write shape a) (has' : ∀ a ∈ as', kind a)
    (heq : itemsBehind write close as r = itemsBehind write close as' r') :
    as.map shape = as'.map shape ∧ r = r' := by
  induction as generalizing as' with
  | nil =>
    cases as' with
    | nil => exact ⟨rfl, (List.cons.inj heq).2⟩
    | cons a' as' => exact absurd (List.cons.inj heq).1 hne
  | cons a as ih =>
    cases as' with
    | nil => exact absurd (List.cons.inj heq).1.symm hne
    | cons a' as' =>
      rw [List.forall_mem_cons] at has has'
      have hitems := (List.cons.inj (List.cons.inj heq).2).2
      obtain ⟨ha, hbehind⟩ := has.1 a' _ _ has'.1 (ends_itemsBehind hcomma hclose as r)
        (ends_itemsBehind hcomma hclose as' r') hitems
      obtain ⟨hrest, hr⟩ := ih has.2 has'.2 hbehind
      exact ⟨by rw [List.map_cons, List.map_cons, ha, hrest], hr⟩

/-- A list that is closed can be read off if its items can, and none of them starts like its end. -/
theorem items_legible (hcomma : ∀ r, ends (',' :: r)) (hclose : ∀ r, ends (close :: r))
    (hne : close ≠ ',') (hstart : ∀ a, kind a → ∃ c cs, write a = c :: cs ∧ c ≠ close)
    {as as' : List α} {r r' : List Char}
    (has : ∀ a ∈ as, kind a ∧ Legible kind ends write shape a) (has' : ∀ a ∈ as', kind a)
    (heq : items write close as r = items write close as' r') :
    as.map shape = as'.map shape ∧ r = r' := by
  cases as with
  | nil =>
    cases as' with
    | nil => exact ⟨rfl, (List.cons.inj heq).2⟩
    | cons a' as' =>
      obtain ⟨c, cs, hwrite, hc⟩ := hstart a' (has' a' (by simp))
      rw [items, items, hwrite] at heq
      exact absurd (List.cons.inj heq).1.symm hc
  | cons a as =>
    cases as' with
    | nil =>
      obtain ⟨c, cs, hwrite, hc⟩ := hstart a (has a (by simp)).1
      rw [items, items, hwrite] at heq
      exact absurd (List.cons.inj heq).1 hc
    | cons a' as' =>
      rw [List.forall_mem_cons] at has has'
      obtain ⟨ha, hbehind⟩ := has.1.2 a' _ _ has'.1 (ends_itemsBehind hcomma hclose as r)
        (ends_itemsBehind hcomma hclose as' r') heq
      obtain ⟨hrest, hr⟩ :=
        itemsBehind_legible hcomma hclose hne (fun b hb => (has.2 b hb).2) has'.2 hbehind
      exact ⟨by rw [List.map_cons, List.map_cons, ha, hrest], hr⟩

end Lists

/-! ## Layouts -/

/-- The characters of a layout. -/
def written (parts : List Layout) : List Char := (Layout.toTextAll parts).toList

@[simp]
theorem written_nil : written [] = [] := rfl

@[simp]
theorem written_text (s : String) (rest : List Layout) :
    written (.text s :: rest) = s.toList ++ written rest := by
  simp [written, Layout.toTextAll, Layout.toText]

@[simp]
theorem written_node (tag : NodeTag) (parts rest : List Layout) :
    written (.node tag parts :: rest) = written parts ++ written rest := by
  simp [written, Layout.toTextAll, Layout.toText]

theorem written_cons (part : Layout) (rest : List Layout) :
    written (part :: rest) = written [part] ++ written rest := by
  simp [written, Layout.toTextAll]

@[simp]
theorem written_append (parts rest : List Layout) :
    written (parts ++ rest) = written parts ++ written rest := by
  induction parts with
  | nil => rfl
  | cons p parts ih =>
    rw [List.cons_append, written_cons, written_cons p parts, ih, List.append_assoc]

theorem written_separated (parts : List (List Layout)) :
    written (separated ", " parts) = [',', ' '].intercalate (parts.map written) := by
  induction parts with
  | nil => rfl
  | cons p parts ih =>
    cases parts with
    | nil => simp [separated]
    | cons q parts =>
      rw [List.map_cons] at ih
      simp [separated, List.intercalate_cons_cons, ih]

/-! ## Types -/

/-- The text of a type. -/
def TypeExpr.chars (t : TypeExpr) : List Char := written t.layout

/-- The text of a type among type arguments. -/
def TypeExpr.nestedChars (t : TypeExpr) : List Char := written (wrapped t.isFunc t.layout)

/-- The text of a parameter. -/
def paramChars (p : Param) : List Char := p.1.toList ++ ':' :: ' ' :: p.2.chars

theorem map_nestedLayouts (args : List TypeExpr) :
    (TypeExpr.nestedLayouts args).map written = args.map TypeExpr.nestedChars := by
  induction args with
  | nil => rfl
  | cons t rest ih => rw [TypeExpr.nestedLayouts, List.map_cons, ih, List.map_cons]; rfl

theorem map_fieldLayouts (params : List Param) :
    (TypeExpr.fieldLayouts params).map written = params.map paramChars := by
  induction params with
  | nil => rfl
  | cons p rest ih =>
    rw [TypeExpr.fieldLayouts, List.map_cons, ih, List.map_cons]
    simp [paramChars, TypeExpr.chars]

/-- Type arguments, if there are any, in front of a text. -/
def typeArgs : List TypeExpr → List Char → List Char
  | [], r => r
  | args, r => '<' :: items TypeExpr.nestedChars '>' args r

/-- Type parameters, if there are any, and an opening parenthesis in front of a text. -/
def typeParams : List String → List Char → List Char
  | [], r => '(' :: r
  | names, r => '<' :: items String.toList '>' names ('(' :: r)

/-- The type parameters and parameters of a function in front of a text. -/
def signature (tparams : List String) (params : List Param) (r : List Char) : List Char :=
  typeParams tparams (items paramChars ')' params r)

theorem typeParams_eq (names : List String) (r : List Char) :
    (tparamsText names ++ "(").toList ++ r = typeParams names r := by
  cases names with
  | nil => rfl
  | cons name names =>
    have hitems := items_eq String.toList '>' (name :: names) ('(' :: r)
    simp only [typeParams, ← hitems]
    simp [tparamsText, String.toList_intercalate]

theorem TypeExpr.chars_ref (name : String) (args : List TypeExpr) (r : List Char) :
    (TypeExpr.ref name args).chars ++ r = name.toList ++ typeArgs args r := by
  cases args with
  | nil => simp [TypeExpr.chars, TypeExpr.layout, typeArgs]
  | cons t args =>
    have hitems := items_eq TypeExpr.nestedChars '>' (t :: args) r
    simp only [typeArgs, ← hitems]
    simp [TypeExpr.chars, TypeExpr.layout, written_separated, map_nestedLayouts]

theorem signature_eq (tparams : List String) (params : List Param) (r : List Char) :
    (tparamsText tparams ++ "(").toList ++ (written (separated ", " (TypeExpr.fieldLayouts params)) ++
      ')' :: r) = signature tparams params r := by
  rw [typeParams_eq, written_separated, map_fieldLayouts, items_eq, signature]

theorem TypeExpr.chars_func (tparams : List String) (params : List Param) (ret : TypeExpr)
    (r : List Char) : (TypeExpr.func tparams params ret).chars ++ r =
      signature tparams params (' ' :: '=' :: '>' :: ' ' :: (ret.chars ++ r)) := by
  rw [← signature_eq]
  simp [TypeExpr.chars, TypeExpr.layout]

/-- A function type and an arrow start with a bracket. -/
theorem signature_start (tparams : List String) (params : List Param) (r : List Char) :
    ∃ c cs, signature tparams params r = c :: cs ∧ (c = '<' ∨ c = '(') := by
  cases tparams with
  | nil => exact ⟨'(', _, rfl, .inr rfl⟩
  | cons name names => exact ⟨'<', _, rfl, .inl rfl⟩

/-- No name starts with a bracket. -/
theorem word_ne_signature {name : String} (h : IsWord name) (tparams : List String)
    (params : List Param) (r r' : List Char) :
    name.toList ++ r ≠ signature tparams params r' := by
  obtain ⟨c, cs, hname, hc⟩ := h.exists_cons
  obtain ⟨c', cs', hsignature, hc'⟩ := signature_start tparams params r'
  rw [hname, hsignature]
  intro heq
  have hhead : c = c' := (List.cons.inj heq).1
  rcases hc' with rfl | rfl
  · exact hc (hhead ▸ by decide)
  · exact hc (hhead ▸ by decide)

theorem typeParams_legible {names names' : List String} {r r' : List Char}
    (h : ∀ n ∈ names, IsWord n) (h' : ∀ n ∈ names', IsWord n)
    (heq : typeParams names r = typeParams names' r') : names = names' ∧ r = r' := by
  cases names with
  | nil =>
    cases names' with
    | nil => exact ⟨rfl, (List.cons.inj heq).2⟩
    | cons => exact absurd (List.cons.inj heq).1 (by decide)
  | cons name names =>
    cases names' with
    | nil => exact absurd (List.cons.inj heq).1 (by decide)
    | cons name' names' =>
      have hstart : ∀ n, IsWord n → ∃ c cs, n.toList = c :: cs ∧ c ≠ '>' := by
        intro n hn
        obtain ⟨c, cs, hname, hc⟩ := hn.exists_cons
        exact ⟨c, cs, hname, fun hclose => hc (hclose ▸ by decide)⟩
      obtain ⟨hnames, hr⟩ := items_legible (fun r => endsName_cons.mpr (by decide))
        (fun r => endsName_cons.mpr (by decide)) (by decide) hstart
        (fun n hn => ⟨h n hn, word_legible (h n hn)⟩) h' (List.cons.inj heq).2
      exact ⟨by simpa using hnames, (List.cons.inj hr).2⟩

/-- The type can be read off. -/
def TypeExpr.Legible (t : TypeExpr) : Prop :=
  Program.Legible TypeExpr.Emittable EndsType TypeExpr.chars id t

/-- A parameter as it is generated. -/
def EmittableParam (p : Param) : Prop := IsWord p.1 ∧ p.2.Emittable

theorem paramChars_legible {p : Param} (hname : IsWord p.1) (htype : p.2.Legible) :
    Legible EmittableParam EndsType paramChars id p := by
  obtain ⟨name, t⟩ := p
  rintro ⟨name', t'⟩ r r' ⟨hname', htype'⟩ hr hr' heq
  simp only [paramChars, List.append_assoc, List.cons_append] at heq
  obtain ⟨rfl, hrest⟩ := word_legible hname name' _ _ hname' (endsName_cons.mpr (by decide))
    (endsName_cons.mpr (by decide)) heq
  obtain ⟨rfl, rfl⟩ := htype t' r r' htype' hr hr' (List.cons.inj (List.cons.inj hrest).2).2
  exact ⟨rfl, rfl⟩

theorem signature_legible {tparams tparams' : List String} {params params' : List Param}
    {r r' : List Char} (htparams : ∀ n ∈ tparams, IsWord n) (htparams' : ∀ n ∈ tparams', IsWord n)
    (hparams : ∀ p ∈ params, EmittableParam p ∧ p.2.Legible) (hparams' : ∀ p ∈ params', EmittableParam p)
    (heq : signature tparams params r = signature tparams' params' r') :
    tparams = tparams' ∧ params = params' ∧ r = r' := by
  have hstart : ∀ p, EmittableParam p → ∃ c cs, paramChars p = c :: cs ∧ c ≠ ')' := by
    rintro ⟨name, t⟩ ⟨hname, -⟩
    obtain ⟨c, cs, hchars, hc⟩ := hname.exists_cons
    exact ⟨c, cs ++ ':' :: ' ' :: t.chars, by simp [paramChars, hchars],
      fun hclose => hc (hclose ▸ by decide)⟩
  obtain ⟨rfl, hitems⟩ := typeParams_legible htparams htparams' heq
  obtain ⟨hmap, rfl⟩ := items_legible (fun r => endsType_cons.mpr (by decide))
    (fun r => endsType_cons.mpr (by decide)) (by decide) hstart
    (fun p hp => ⟨(hparams p hp).1, paramChars_legible (hparams p hp).1.1 (hparams p hp).2⟩) hparams'
    hitems
  exact ⟨rfl, by simpa using hmap, rfl⟩

theorem nestedChars_func {t : TypeExpr} (h : t.isFunc = true) (r : List Char) :
    t.nestedChars ++ r = '(' :: (t.chars ++ ')' :: r) := by
  simp [TypeExpr.nestedChars, TypeExpr.chars, wrapped, h]

theorem nestedChars_ref {t : TypeExpr} (h : t.isFunc = false) (r : List Char) :
    t.nestedChars ++ r = t.chars ++ r := by
  simp [TypeExpr.nestedChars, TypeExpr.chars, wrapped, h]

/-- A type that is no function type starts like a name. -/
theorem TypeExpr.Emittable.start {t : TypeExpr} (h : t.Emittable) (hfunc : t.isFunc = false) :
    ∃ c cs, t.chars = c :: cs ∧ c ∉ delimiters := by
  cases h with
  | @ref name args hname _ =>
    obtain ⟨c, cs, hchars, hc⟩ := hname.exists_cons
    refine ⟨c, cs ++ typeArgs args [], ?_, hc⟩
    rw [← List.append_nil (TypeExpr.chars _), TypeExpr.chars_ref, hchars, List.cons_append]
  | func => cases hfunc

theorem nestedChars_start {t : TypeExpr} (h : t.Emittable) :
    ∃ c cs, t.nestedChars = c :: cs ∧ c ≠ '>' := by
  rw [← List.append_nil t.nestedChars]
  cases hfunc : t.isFunc with
  | true => exact ⟨'(', _, nestedChars_func hfunc [], by decide⟩
  | false =>
    obtain ⟨c, cs, hchars, hc⟩ := h.start hfunc
    refine ⟨c, cs ++ [], ?_, fun hclose => hc (hclose ▸ by decide)⟩
    rw [nestedChars_ref hfunc, hchars, List.cons_append]

theorem nestedChars_legible {t : TypeExpr} (h : t.Emittable) (hlegible : t.Legible) :
    Legible TypeExpr.Emittable EndsType TypeExpr.nestedChars id t := by
  intro t' r r' h' hr hr' heq
  have hclose : ∀ r, EndsType (')' :: r) := fun r => endsType_cons.mpr (by decide)
  cases hfunc : t.isFunc with
  | true =>
    rw [nestedChars_func hfunc] at heq
    cases hfunc' : t'.isFunc with
    | true =>
      rw [nestedChars_func hfunc'] at heq
      obtain ⟨htype, hrest⟩ := hlegible t' _ _ h' (hclose r) (hclose r') (List.cons.inj heq).2
      exact ⟨htype, (List.cons.inj hrest).2⟩
    | false =>
      obtain ⟨c, cs, hchars, hc⟩ := h'.start hfunc'
      rw [nestedChars_ref hfunc', hchars] at heq
      exact absurd ((List.cons.inj heq).1 ▸ by decide) hc
  | false =>
    rw [nestedChars_ref hfunc] at heq
    cases hfunc' : t'.isFunc with
    | true =>
      obtain ⟨c, cs, hchars, hc⟩ := h.start hfunc
      rw [nestedChars_func hfunc', hchars] at heq
      exact absurd ((List.cons.inj heq).1 ▸ by decide) hc
    | false =>
      rw [nestedChars_ref hfunc'] at heq
      exact hlegible t' r r' h' hr hr' heq

theorem typeArgs_legible {args args' : List TypeExpr} {r r' : List Char}
    (h : ∀ t ∈ args, t.Emittable ∧ t.Legible) (h' : ∀ t ∈ args', t.Emittable) (hr : r.head? ≠ some '<')
    (hr' : r'.head? ≠ some '<') (heq : typeArgs args r = typeArgs args' r') :
    args = args' ∧ r = r' := by
  cases args with
  | nil =>
    cases args' with
    | nil => exact ⟨rfl, heq⟩
    | cons t' args' => exact absurd (congrArg List.head? heq) hr
  | cons t args =>
    cases args' with
    | nil => exact absurd (congrArg List.head? heq).symm hr'
    | cons t' args' =>
      obtain ⟨hmap, hrest⟩ := items_legible (fun r => endsType_cons.mpr (by decide))
        (fun r => endsType_cons.mpr (by decide)) (by decide) (fun t => nestedChars_start)
        (fun t ht => ⟨(h t ht).1, nestedChars_legible (h t ht).1 (h t ht).2⟩) h' (List.cons.inj heq).2
      exact ⟨by simpa using hmap, hrest⟩

theorem EndsType.head?_ne {r : List Char} (h : EndsType r) : r.head? ≠ some '<' :=
  fun hhead => (h _ hhead).2 rfl

theorem endsName_typeArgs {args : List TypeExpr} {r : List Char} (h : EndsType r) :
    EndsName (typeArgs args r) := by
  cases args with
  | nil => exact h.endsName
  | cons t args => exact endsName_cons.mpr (by decide)

theorem TypeExpr.Emittable.legible {t : TypeExpr} (h : t.Emittable) : t.Legible := by
  induction h with
  | @ref name args hname hargs ih =>
    intro t' r r' h' hr hr' heq
    rw [TypeExpr.chars_ref] at heq
    cases h' with
    | @ref name' args' hname' hargs' =>
      rw [TypeExpr.chars_ref] at heq
      obtain ⟨rfl, htail⟩ := word_legible hname name' _ _ hname' (endsName_typeArgs hr)
        (endsName_typeArgs hr') heq
      obtain ⟨rfl, rfl⟩ := typeArgs_legible (fun t ht => ⟨hargs t ht, ih t ht⟩) hargs' hr.head?_ne
        hr'.head?_ne htail
      exact ⟨rfl, rfl⟩
    | func =>
      rw [TypeExpr.chars_func] at heq
      exact absurd heq (word_ne_signature hname _ _ _ _)
  | @func tparams params ret htparams hnames htypes _ ihparams ihret =>
    intro t' r r' h' hr hr' heq
    rw [TypeExpr.chars_func] at heq
    cases h' with
    | @ref name' args' hname' _ =>
      rw [TypeExpr.chars_ref] at heq
      exact absurd heq.symm (word_ne_signature hname' _ _ _ _)
    | @func tparams' params' ret' htparams' hnames' htypes' hret' =>
      rw [TypeExpr.chars_func] at heq
      obtain ⟨rfl, rfl, hrest⟩ := signature_legible htparams htparams'
        (fun p hp => ⟨⟨hnames p hp, htypes p hp⟩, ihparams p hp⟩)
        (fun p hp => ⟨hnames' p hp, htypes' p hp⟩) heq
      simp only [List.cons.injEq, true_and] at hrest
      obtain ⟨rfl, rfl⟩ := ihret ret' r r' hret' hr hr' hrest
      exact ⟨rfl, rfl⟩

end ProofScript.Program
