import ProofScript.Proofs.Totality

/-!
# The text of a program determines it

Generated programs can be read off their text, up to places: no two of them are printed alike. An
expression is an arrow, or a name with calls behind it that goes on to the first character that does
not open a call. The lines of a block start with more blanks than the line that closes it.
-/

namespace ProofScript.Program

/-! ## Expressions -/

/-- The text of an expression inside `depth` blocks. -/
def Expr.chars (depth : Nat) (e : Expr) : List Char := written [e.layout depth]

/-- The text of a body inside `depth` blocks. -/
def Body.chars (depth : Nat) (b : Body) : List Char := written (b.layout depth)

/-- The text of a statement inside `depth` blocks. -/
def Stmt.chars (depth : Nat) (st : Stmt) : List Char := written [st.layout depth]

@[simp]
theorem written_expr (depth : Nat) (e : Expr) (rest : List Layout) :
    written (e.layout depth :: rest) = e.chars depth ++ written rest := written_cons _ rest

@[simp]
theorem written_stmt (depth : Nat) (st : Stmt) (rest : List Layout) :
    written (st.layout depth :: rest) = st.chars depth ++ written rest := written_cons _ rest

theorem map_layouts (depth : Nat) (es : List Expr) :
    (Expr.layouts depth es).map written = es.map (Expr.chars depth) := by
  induction es with
  | nil => rfl
  | cons e rest ih => rw [Expr.layouts, List.map_cons, ih, List.map_cons]; rfl

/-- What stands in the brackets of a call: type arguments and arguments. -/
abbrev Call := List TypeExpr × List Expr

/-- A call in front of a text. -/
def callChars (depth : Nat) (c : Call) (r : List Char) : List Char :=
  typeArgs c.1 ('(' :: items (Expr.chars depth) ')' c.2 r)

/-- Calls one after the other in front of a text. -/
def callsChars (depth : Nat) (calls : List Call) (r : List Char) : List Char :=
  calls.foldr (callChars depth) r

/-- The name at the head of calls. -/
def Expr.head : Expr → String
  | .ident name _ => name
  | .call fn _ _ _ => fn.head
  | _ => ""

/-- The calls behind a name, in order. -/
def Expr.calls : Expr → List Call
  | .call fn targs args _ => fn.calls ++ [(targs, args)]
  | _ => []

theorem Expr.chars_ident (depth : Nat) (name : String) (o : Option Location) :
    (Expr.ident name o).chars depth = name.toList := by
  simp [Expr.chars, Expr.layout]

theorem Expr.chars_call {fn : Expr} (h : fn.isArrow = false) (depth : Nat) (targs : List TypeExpr)
    (args : List Expr) (o : Option Location) (r : List Char) :
    (Expr.call fn targs args o).chars depth ++ r =
      fn.chars depth ++ callChars depth (targs, args) r := by
  have hitems := items_eq (Expr.chars depth) ')' args r
  rw [callChars, ← hitems, Expr.chars.eq_def depth (.call ..), Expr.layout]
  cases targs with
  | nil => simp [wrapped, h, typeArgs, written_separated, map_layouts]
  | cons t targs =>
    have htypes := items_eq TypeExpr.nestedChars '>' (t :: targs)
      ('(' :: ([',', ' '].intercalate (args.map (Expr.chars depth)) ++ ')' :: r))
    simp only [typeArgs, ← htypes]
    simp [wrapped, h, written_separated, map_layouts, map_nestedLayouts]

/-- An expression that is no arrow is a name with calls behind it. -/
theorem Expr.Emittable.chars_eq {e : Expr} (h : e.Emittable) (harrow : e.isArrow = false) (depth : Nat)
    (r : List Char) : e.chars depth ++ r = e.head.toList ++ callsChars depth e.calls r := by
  match e, h with
  | .ident name o, _ => rw [Expr.chars_ident]; rfl
  | .call fn targs args o, .call hfn hemit _ _ =>
    rw [Expr.chars_call hfn, Expr.Emittable.chars_eq hemit hfn depth]
    simp [Expr.head, Expr.calls, callsChars]

theorem Expr.Emittable.isWord_head {e : Expr} (h : e.Emittable) (harrow : e.isArrow = false) :
    IsWord e.head := by
  match e, h with
  | .ident name o, .ident hname => exact hname
  | .call fn targs args o, .call hfn hemit _ _ => exact Expr.Emittable.isWord_head (e := fn) hemit hfn

/-- An expression that is no arrow is determined by its name and its calls. -/
theorem Expr.Emittable.erase_eq {e : Expr} (h : e.Emittable) (harrow : e.isArrow = false) :
    e.erase = (e.calls.map fun c => (c.1, c.2.map Expr.erase)).foldl
      (fun fn c => .call fn c.1 c.2 none) (.ident e.head none) := by
  match e, h with
  | .ident name o, _ => rfl
  | .call fn targs args o, .call hfn hemit _ _ =>
    rw [Expr.erase, Expr.Emittable.erase_eq hemit hfn, Expr.eraseAll_eq_map]
    simp [Expr.head, Expr.calls]

/-- The text of an arrow in front of a text. -/
theorem Expr.chars_arrow (depth : Nat) (tparams : List String) (params : List Param)
    (ret : Option TypeExpr) (body : Body) (o : Option Location) (r : List Char) :
    (Expr.arrow tparams params ret body o).chars depth ++ r =
      signature tparams params
        (written (ascription ret) ++ ' ' :: '=' :: '>' :: ' ' :: (body.chars depth ++ r)) := by
  rw [← signature_eq]
  simp [Expr.chars, Body.chars, Expr.layout]

/-- The expression can be read off at every depth. -/
def Expr.Legible (e : Expr) : Prop :=
  ∀ depth, Program.Legible Expr.Emittable EndsExpr (Expr.chars depth) Expr.erase e

/-- An expression starts with a bracket or like a name. -/
theorem Expr.Emittable.start {e : Expr} (h : e.Emittable) (depth : Nat) :
    ∃ c cs, e.chars depth = c :: cs ∧ c ≠ ')' ∧ c ≠ '\x7b' := by
  rw [← List.append_nil (e.chars depth)]
  cases harrow : e.isArrow with
  | false =>
    obtain ⟨c, cs, hname, hc⟩ := (h.isWord_head harrow).exists_cons
    refine ⟨c, cs ++ callsChars depth e.calls [], ?_, ?_, ?_⟩
    · rw [h.chars_eq harrow, hname, List.cons_append]
    · exact fun heq => hc (heq ▸ by decide)
    · exact fun heq => hc (heq ▸ by decide)
  | true =>
    cases h with
    | ident | call => cases harrow
    | @arrow tparams params ret body o =>
      obtain ⟨c, cs, hsignature, hc⟩ := signature_start tparams params
        (written (ascription ret) ++ ' ' :: '=' :: '>' :: ' ' :: (body.chars depth ++ []))
      refine ⟨c, cs, by rw [Expr.chars_arrow, hsignature], ?_⟩
      rcases hc with rfl | rfl
      · decide
      · decide

/-! ### Calls -/

/-- All parts of a call are generated and can be read off. -/
def LegibleCall (c : Call) : Prop :=
  (∀ t ∈ c.1, t.Emittable) ∧ ∀ x ∈ c.2, x.Emittable ∧ x.Legible

theorem callChars_start (depth : Nat) (c : Call) (r : List Char) :
    ∃ b cs, callChars depth c r = b :: cs ∧ (b = '<' ∨ b = '(') := by
  obtain ⟨targs, args⟩ := c
  cases targs with
  | nil => exact ⟨'(', _, rfl, .inr rfl⟩
  | cons t targs => exact ⟨'<', _, rfl, .inl rfl⟩

theorem endsName_callsChars {depth : Nat} {calls : List Call} {r : List Char} (h : EndsExpr r) :
    EndsName (callsChars depth calls r) := by
  cases calls with
  | nil => exact h.endsType.endsName
  | cons c calls =>
    obtain ⟨b, cs, hcall, hb⟩ := callChars_start depth c (callsChars depth calls r)
    have hchars : callsChars depth (c :: calls) r = b :: cs := hcall
    rw [hchars, endsName_cons]
    rcases hb with rfl | rfl
    · decide
    · decide

/-- A text that ends an expression opens no call. -/
theorem EndsExpr.ne_callChars {r : List Char} (h : EndsExpr r) (depth : Nat) (c : Call)
    (r' : List Char) : r ≠ callChars depth c r' := by
  obtain ⟨b, cs, hcall, hb⟩ := callChars_start depth c r'
  rintro rfl
  rw [hcall, endsExpr_cons] at h
  rcases hb with rfl | rfl
  · exact h.2.1 rfl
  · exact h.2.2 rfl

theorem callChars_legible {depth : Nat} {c c' : Call} {r r' : List Char} (h : LegibleCall c)
    (htypes' : ∀ t ∈ c'.1, t.Emittable) (hargs' : ∀ x ∈ c'.2, x.Emittable)
    (heq : callChars depth c r = callChars depth c' r') :
    (c.1, c.2.map Expr.erase) = (c'.1, c'.2.map Expr.erase) ∧ r = r' := by
  obtain ⟨htypes, hrest⟩ := typeArgs_legible (fun t ht => ⟨h.1 t ht, (h.1 t ht).legible⟩) htypes'
    (by simp) (by simp) heq
  have hstart : ∀ x : Expr, x.Emittable → ∃ b cs, x.chars depth = b :: cs ∧ b ≠ ')' := by
    intro x hx
    obtain ⟨b, cs, hchars, hb, -⟩ := hx.start depth
    exact ⟨b, cs, hchars, hb⟩
  have hlegible : ∀ x ∈ c.2, x.Emittable ∧ Legible Expr.Emittable EndsExpr (Expr.chars depth) Expr.erase x :=
    fun x hx => ⟨(h.2 x hx).1, (h.2 x hx).2 depth⟩
  obtain ⟨hargs, hr⟩ := items_legible (fun r => endsExpr_cons.mpr (by decide))
    (fun r => endsExpr_cons.mpr (by decide)) (by decide) hstart hlegible hargs'
    (List.cons.inj hrest).2
  exact ⟨by rw [htypes, hargs], hr⟩

theorem callsChars_legible {depth : Nat} {calls calls' : List Call} {r r' : List Char}
    (h : ∀ c ∈ calls, LegibleCall c)
    (h' : ∀ c ∈ calls', (∀ t ∈ c.1, t.Emittable) ∧ ∀ x ∈ c.2, x.Emittable) (hr : EndsExpr r)
    (hr' : EndsExpr r') (heq : callsChars depth calls r = callsChars depth calls' r') :
    (calls.map fun c => (c.1, c.2.map Expr.erase)) =
      (calls'.map fun c => (c.1, c.2.map Expr.erase)) ∧ r = r' := by
  induction calls generalizing calls' with
  | nil =>
    cases calls' with
    | nil => exact ⟨rfl, heq⟩
    | cons c' calls' => exact absurd heq (hr.ne_callChars depth c' _)
  | cons c calls ih =>
    cases calls' with
    | nil => exact absurd heq.symm (hr'.ne_callChars depth c _)
    | cons c' calls' =>
      rw [List.forall_mem_cons] at h h'
      obtain ⟨hcall, hrest⟩ := callChars_legible h.1 h'.1.1 h'.1.2 heq
      obtain ⟨hcalls, hr⟩ := ih h.2 h'.2 hrest
      exact ⟨by rw [List.map_cons, List.map_cons, hcall, hcalls], hr⟩

/-- The parts of all calls are generated. -/
theorem Expr.Emittable.calls {e : Expr} (h : e.Emittable) (harrow : e.isArrow = false) :
    ∀ c ∈ e.calls, (∀ t ∈ c.1, t.Emittable) ∧ ∀ x ∈ c.2, x.Emittable := by
  match e, h with
  | .ident name o, _ => simp [Expr.calls]
  | .call fn targs args o, .call hfn hemit htargs hargs =>
    rw [Expr.calls, List.forall_mem_append, List.forall_mem_singleton]
    exact ⟨Expr.Emittable.calls hemit hfn, htargs, hargs⟩

/-- A name with calls behind it can be read off if the parts of the calls can. -/
theorem Expr.Emittable.legible_of_calls {e : Expr} (h : e.Emittable) (harrow : e.isArrow = false)
    (hcalls : ∀ c ∈ e.calls, LegibleCall c) : e.Legible := by
  intro depth e' r r' h' hr hr' heq
  rw [h.chars_eq harrow] at heq
  cases harrow' : e'.isArrow with
  | true =>
    cases h' with
    | ident | call => cases harrow'
    | arrow =>
      rw [Expr.chars_arrow] at heq
      exact absurd heq (word_ne_signature (h.isWord_head harrow) _ _ _ _)
  | false =>
    rw [h'.chars_eq harrow'] at heq
    obtain ⟨hhead, hrest⟩ := word_legible (h.isWord_head harrow) _ _ _ (h'.isWord_head harrow')
      (endsName_callsChars hr) (endsName_callsChars hr') heq
    obtain ⟨hmap, rfl⟩ := callsChars_legible hcalls (h'.calls harrow') hr hr' hrest
    refine ⟨?_, rfl⟩
    rw [h.erase_eq harrow, h'.erase_eq harrow', hmap, show e.head = e'.head from hhead]

/-! ### Arrows and statements -/

theorem ascription_legible {ret ret' : Option TypeExpr} {r r' : List Char}
    (h : ∀ t ∈ ret, t.Emittable) (h' : ∀ t ∈ ret', t.Emittable)
    (heq : written (ascription ret) ++ ' ' :: r = written (ascription ret') ++ ' ' :: r') :
    ret = ret' ∧ r = r' := by
  have hsome : ∀ t r, written (ascription (some t)) ++ r = ':' :: ' ' :: (t.chars ++ r) := by
    simp [ascription, TypeExpr.chars]
  have hblank : ∀ r, EndsType (' ' :: r) := fun r => endsType_cons.mpr (by decide)
  cases ret with
  | none =>
    cases ret' with
    | none => exact ⟨rfl, (List.cons.inj heq).2⟩
    | some t' =>
      rw [hsome] at heq
      exact absurd (List.cons.inj heq).1 (by decide)
  | some t =>
    rw [hsome] at heq
    cases ret' with
    | none => exact absurd (List.cons.inj heq).1 (by decide)
    | some t' =>
      rw [hsome] at heq
      obtain ⟨rfl, hrest⟩ := (h t rfl).legible t' _ _ (h' t' rfl) (hblank r) (hblank r')
        (List.cons.inj (List.cons.inj heq).2).2
      exact ⟨rfl, (List.cons.inj hrest).2⟩

/-- The body can be read off at every depth. -/
def Body.Legible (b : Body) : Prop :=
  ∀ depth, Program.Legible Body.Emittable EndsExpr (Body.chars depth) Body.erase b

theorem arrow_legible {tparams : List String} {params : List Param} {ret : Option TypeExpr}
    {body : Body} {o : Option Location} (htparams : ∀ n ∈ tparams, IsWord n)
    (hnames : ∀ p ∈ params, IsWord p.1) (htypes : ∀ p ∈ params, p.2.Emittable)
    (hret : ∀ t ∈ ret, t.Emittable) (hbody : body.Legible) :
    (Expr.arrow tparams params ret body o).Legible := by
  intro depth e' r r' h' hr hr' heq
  rw [Expr.chars_arrow] at heq
  cases harrow' : e'.isArrow with
  | false =>
    rw [h'.chars_eq harrow'] at heq
    exact absurd heq.symm (word_ne_signature (h'.isWord_head harrow') _ _ _ _)
  | true =>
    cases h' with
    | ident | call => cases harrow'
    | @arrow tparams' params' ret' body' o' htparams' _ hnames' htypes' hret' hbody' =>
      rw [Expr.chars_arrow] at heq
      obtain ⟨rfl, rfl, hrest⟩ := signature_legible htparams htparams'
        (fun p hp => ⟨⟨hnames p hp, htypes p hp⟩, (htypes p hp).legible⟩)
        (fun p hp => ⟨hnames' p hp, htypes' p hp⟩) heq
      obtain ⟨rfl, hbehind⟩ := ascription_legible hret hret' hrest
      simp only [List.cons.injEq, true_and] at hbehind
      obtain ⟨herase, rfl⟩ := hbody depth body' r r' hbody' hr hr' hbehind
      exact ⟨by rw [Expr.erase, Expr.erase, herase], rfl⟩

/-- The statement can be read off at every depth, whatever follows. -/
def Stmt.Legible (st : Stmt) : Prop :=
  ∀ depth, Program.Legible Stmt.Emittable (fun _ => True) (Stmt.chars depth) Stmt.erase st

theorem Stmt.chars_const (depth : Nat) (name : String) (type : Option TypeExpr) (value : Expr)
    (o : Option Location) (r : List Char) :
    (Stmt.const name type value false false none o).chars depth ++ r =
      'c' :: 'o' :: 'n' :: 's' :: 't' :: ' ' :: (name.toList ++ (written (ascription type) ++
        ' ' :: '=' :: ' ' :: (value.chars depth ++ ';' :: r))) := by
  simp [Stmt.chars, Stmt.layout]

theorem Stmt.chars_arrow (depth : Nat) (e : Expr) (o : Option Location) (r : List Char) :
    (Stmt.expr (.paren e) o).chars depth ++ r = '(' :: (e.chars depth ++ ')' :: ';' :: r) := by
  have hparen : (Expr.paren e).chars depth = '(' :: (e.chars depth ++ [')']) := by
    rw [Expr.chars, Expr.layout]
    simp
  simp [Stmt.chars, Stmt.layout, hparen]

theorem Stmt.chars_ret (depth : Nat) (e : Expr) (r : List Char) :
    (Stmt.ret e).chars depth ++ r =
      'r' :: 'e' :: 't' :: 'u' :: 'r' :: 'n' :: ' ' :: (e.chars depth ++ ';' :: r) := by
  simp [Stmt.chars, Stmt.layout]

/-- A statement starts with a letter or a parenthesis. -/
theorem Stmt.Emittable.start {st : Stmt} (h : st.Emittable) (depth : Nat) :
    ∃ c cs, st.chars depth = c :: cs ∧ c ≠ ' ' ∧ c ≠ '\x7d' := by
  rw [← List.append_nil (st.chars depth)]
  cases h with
  | const => exact ⟨'c', _, Stmt.chars_const .., by decide⟩
  | arrow => exact ⟨'(', _, Stmt.chars_arrow .., by decide⟩
  | ret => exact ⟨'r', _, Stmt.chars_ret .., by decide⟩

theorem endsExpr_semicolon (r : List Char) : EndsExpr (';' :: r) := endsExpr_cons.mpr (by decide)

theorem const_legible {name : String} {type : Option TypeExpr} {value : Expr} {o : Option Location}
    (hname : IsWord name) (htype : ∀ t ∈ type, t.Emittable) (hvalue : value.Legible) :
    (Stmt.const name type value false false none o).Legible := by
  intro depth st' r r' h' _ _ heq
  rw [Stmt.chars_const] at heq
  have hends : ∀ (type : Option TypeExpr) r, EndsName (written (ascription type) ++ ' ' :: r) := by
    intro type r
    cases type with
    | none => exact endsName_cons.mpr (by decide)
    | some t =>
      simp only [ascription, Option.elim_some, written_text]
      exact endsName_cons.mpr (by decide)
  cases h' with
  | @const name' type' value' o' hname' htype' hvalue' =>
    rw [Stmt.chars_const] at heq
    simp only [List.cons.injEq, true_and] at heq
    obtain ⟨rfl, hrest⟩ := word_legible hname name' _ _ hname' (hends _ _) (hends _ _) heq
    obtain ⟨rfl, hbehind⟩ := ascription_legible htype htype' hrest
    simp only [List.cons.injEq, true_and] at hbehind
    obtain ⟨herase, hend⟩ := hvalue depth value' _ _ hvalue' (endsExpr_semicolon r)
      (endsExpr_semicolon r') hbehind
    exact ⟨by rw [Stmt.erase, Stmt.erase, herase, id_eq], (List.cons.inj hend).2⟩
  | arrow =>
    rw [Stmt.chars_arrow] at heq
    exact absurd (List.cons.inj heq).1 (by decide)
  | ret =>
    rw [Stmt.chars_ret] at heq
    exact absurd (List.cons.inj heq).1 (by decide)

theorem paren_legible {e : Expr} {o : Option Location} (he : e.Legible) :
    (Stmt.expr (.paren e) o).Legible := by
  intro depth st' r r' h' _ _ heq
  rw [Stmt.chars_arrow] at heq
  have hends : ∀ r, EndsExpr (')' :: r) := fun r => endsExpr_cons.mpr (by decide)
  cases h' with
  | const =>
    rw [Stmt.chars_const] at heq
    exact absurd (List.cons.inj heq).1 (by decide)
  | @arrow e' o' _ he' =>
    rw [Stmt.chars_arrow] at heq
    obtain ⟨herase, hrest⟩ := he depth e' _ _ he' (hends _) (hends _) (List.cons.inj heq).2
    exact ⟨by rw [Stmt.erase, Stmt.erase, Expr.erase, Expr.erase, herase],
      (List.cons.inj (List.cons.inj hrest).2).2⟩
  | ret =>
    rw [Stmt.chars_ret] at heq
    exact absurd (List.cons.inj heq).1 (by decide)

theorem ret_legible {e : Expr} (he : e.Legible) : (Stmt.ret e).Legible := by
  intro depth st' r r' h' _ _ heq
  rw [Stmt.chars_ret] at heq
  cases h' with
  | const =>
    rw [Stmt.chars_const] at heq
    exact absurd (List.cons.inj heq).1 (by decide)
  | arrow =>
    rw [Stmt.chars_arrow] at heq
    exact absurd (List.cons.inj heq).1 (by decide)
  | @ret e' he' =>
    rw [Stmt.chars_ret] at heq
    simp only [List.cons.injEq, true_and] at heq
    obtain ⟨herase, hrest⟩ := he depth e' _ _ he' (endsExpr_semicolon r) (endsExpr_semicolon r') heq
    exact ⟨by rw [Stmt.erase, Stmt.erase, herase], (List.cons.inj hrest).2⟩

/-! ### Lines -/

theorem toList_blockIndent (depth : Nat) :
    (blockIndent depth).toList = List.replicate (4 * depth) ' ' :=
  Text.toList_pushn ' ' _

/-- The lines of statements. -/
def linesChars (depth : Nat) (stmts : List Stmt) : List Char := written (Stmt.blockLayout depth stmts)

theorem linesChars_cons (depth : Nat) (st : Stmt) (rest : List Stmt) (r : List Char) :
    linesChars depth (st :: rest) ++ r = List.replicate (4 * depth) ' ' ++
      (st.chars depth ++ '\n' :: (linesChars depth rest ++ r)) := by
  rw [linesChars, Stmt.blockLayout, written_text, written_stmt, written_text, toList_blockIndent]
  simp [linesChars]

/-- The text is not the line of a statement. -/
def EndsLines (depth : Nat) (r : List Char) : Prop :=
  ∀ (st : Stmt) (more : List Char), st.Emittable →
    r ≠ List.replicate (4 * depth) ' ' ++ (st.chars depth ++ more)

theorem linesChars_legible {depth : Nat} {stmts stmts' : List Stmt} {r r' : List Char}
    (h : ∀ st ∈ stmts, st.Emittable ∧ st.Legible) (h' : ∀ st ∈ stmts', st.Emittable)
    (hr : EndsLines depth r) (hr' : EndsLines depth r')
    (heq : linesChars depth stmts ++ r = linesChars depth stmts' ++ r') :
    stmts.map Stmt.erase = stmts'.map Stmt.erase ∧ r = r' := by
  induction stmts generalizing stmts' with
  | nil =>
    cases stmts' with
    | nil => exact ⟨rfl, heq⟩
    | cons st' stmts' =>
      rw [linesChars_cons] at heq
      exact absurd heq (hr st' _ (h' st' (by simp)))
  | cons st stmts ih =>
    cases stmts' with
    | nil =>
      rw [linesChars_cons] at heq
      exact absurd heq.symm (hr' st _ (h st (by simp)).1)
    | cons st' stmts' =>
      rw [List.forall_mem_cons] at h h'
      rw [linesChars_cons, linesChars_cons, List.append_cancel_left_eq] at heq
      obtain ⟨hst, hrest⟩ := h.1.2 depth st' _ _ h'.1 trivial trivial heq
      obtain ⟨hstmts, hr⟩ := ih h.2 h'.2 (List.cons.inj hrest).2
      exact ⟨by rw [List.map_cons, List.map_cons, hst, hstmts], hr⟩

theorem Body.chars_expr {e : Expr} (h : e.Emittable) (depth : Nat) :
    (Body.expr e).chars depth = e.chars depth := by
  cases h <;> rfl

theorem Body.chars_block (depth : Nat) (stmts : List Stmt) (r : List Char) :
    (Body.block stmts).chars depth ++ r = '\x7b' :: '\n' :: (linesChars (depth + 1) stmts ++
      (List.replicate (4 * depth) ' ' ++ '\x7d' :: r)) := by
  simp [Body.chars, Body.layout, linesChars, toList_blockIndent]

/-- The line that closes a block has fewer blanks in front than the lines of the block. -/
theorem endsLines_closing (depth : Nat) (r : List Char) :
    EndsLines (depth + 1) (List.replicate (4 * depth) ' ' ++ '\x7d' :: r) := by
  intro st more _ heq
  have hblanks : List.replicate (4 * (depth + 1)) ' ' =
      List.replicate (4 * depth) ' ' ++ [' ', ' ', ' ', ' '] := by
    rw [Nat.mul_add, ← List.replicate_append_replicate]
    rfl
  rw [hblanks, List.append_assoc, List.append_cancel_left_eq] at heq
  exact absurd (List.cons.inj heq).1 (by decide)

theorem expr_body_legible {e : Expr} (h : e.Emittable) (he : e.Legible) : (Body.expr e).Legible := by
  intro depth b' r r' h' hr hr' heq
  rw [Body.chars_expr h] at heq
  cases h' with
  | @expr e' h' =>
    rw [Body.chars_expr h'] at heq
    obtain ⟨herase, hr⟩ := he depth e' r r' h' hr hr' heq
    exact ⟨by rw [Body.erase, Body.erase, herase], hr⟩
  | block =>
    obtain ⟨c, cs, hchars, -, hc⟩ := h.start depth
    rw [Body.chars_block, hchars] at heq
    exact absurd (List.cons.inj heq).1 hc

theorem block_body_legible {stmts : List Stmt} (h : ∀ st ∈ stmts, st.Emittable ∧ st.Legible) :
    (Body.block stmts).Legible := by
  intro depth b' r r' h' _ _ heq
  rw [Body.chars_block] at heq
  cases h' with
  | @expr e' h' =>
    obtain ⟨c, cs, hchars, -, hc⟩ := Expr.Emittable.start h' depth
    rw [Body.chars_expr h', hchars] at heq
    exact absurd (List.cons.inj heq).1.symm hc
  | @block stmts' h' =>
    rw [Body.chars_block] at heq
    obtain ⟨hstmts, hrest⟩ := linesChars_legible h h' (endsLines_closing depth r)
      (endsLines_closing depth r') (List.cons.inj (List.cons.inj heq).2).2
    rw [List.append_cancel_left_eq] at hrest
    exact ⟨by rw [Body.erase, Body.erase, Stmt.eraseAll_eq_map, Stmt.eraseAll_eq_map, hstmts],
      (List.cons.inj hrest).2⟩

/-! ## Programs -/

mutual

/-- Expressions can be read off. What is carried along of calls is that their parts can. -/
theorem Expr.Emittable.legible {e : Expr} :
    e.Emittable → e.Legible ∧ (e.isArrow = false → ∀ c ∈ e.calls, LegibleCall c)
  | @Expr.Generated.ident _ name o hname => by
    have hemit : (Expr.ident name o).Emittable := .ident hname
    exact ⟨hemit.legible_of_calls rfl (by simp [Expr.calls]), by simp [Expr.calls]⟩
  | @Expr.Generated.call _ fn targs args o hfn hemit htargs hargs => by
    have hargs' := fun x hx => (Expr.Emittable.legible (hargs x hx)).1
    have hcalls := (Expr.Emittable.legible hemit).2 hfn
    have hcall : ∀ c ∈ (Expr.call fn targs args o).calls, LegibleCall c := by
      rw [Expr.calls, List.forall_mem_append, List.forall_mem_singleton]
      exact ⟨hcalls, htargs, fun x hx => ⟨hargs x hx, hargs' x hx⟩⟩
    exact ⟨Expr.Emittable.legible_of_calls (.call hfn hemit htargs hargs) rfl hcall, fun _ => hcall⟩
  | .arrow htparams _ hnames htypes hret hbody =>
    ⟨arrow_legible htparams hnames htypes hret (Body.Emittable.legible hbody), fun harrow => by
      cases harrow⟩

theorem Body.Emittable.legible {b : Body} : b.Emittable → b.Legible
  | .expr h => expr_body_legible h (Expr.Emittable.legible h).1
  | .block h => block_body_legible fun st hst => ⟨h st hst, Stmt.Emittable.legible (h st hst)⟩

theorem Stmt.Emittable.legible {st : Stmt} : st.Emittable → st.Legible
  | .const hname htype hvalue => const_legible hname htype (Expr.Emittable.legible hvalue).1
  | .arrow _ h => paren_legible (Expr.Emittable.legible h).1
  | .ret h => ret_legible (Expr.Emittable.legible h).1

end

theorem toList_of_print {stmts : List Stmt} {p : Printed} (h : print stmts = .ok p) :
    p.text.toList = linesChars 0 stmts := by
  simp only [print, textOf] at h
  split at h
  · cases h
  · obtain rfl := Except.ok.inj h
    rfl

theorem erase_eq_of_text_eq {stmts stmts' : List Stmt} {p p' : Printed}
    (h : ∀ st ∈ stmts, st.Emittable) (h' : ∀ st ∈ stmts', st.Emittable) (hp : print stmts = .ok p)
    (hp' : print stmts' = .ok p') (htext : p.text = p'.text) :
    stmts.map Stmt.erase = stmts'.map Stmt.erase := by
  -- Nothing follows the last line of a file, and every statement starts with some character.
  have hends : EndsLines 0 [] := by
    intro st more hst heq
    obtain ⟨c, cs, hstart, -⟩ := hst.start 0
    simp [hstart] at heq
  have hlines : linesChars 0 stmts ++ [] = linesChars 0 stmts' ++ [] := by
    rw [List.append_nil, List.append_nil, ← toList_of_print hp, ← toList_of_print hp', htext]
  exact (linesChars_legible (fun st hst => ⟨h st hst, (h st hst).legible⟩) h' hends hends hlines).1

/-- The statements of every compiled script can be emitted. Statements that can be emitted can be
printed, and where two files of them have the same text they are the same up to places. -/
theorem print_injective :
    (∀ (src : List UInt8) (systemF : Bool) (c : Compilation), (compile src systemF).1 = .ok c →
      ∀ st ∈ c.decls, st.Emittable) ∧
    ∀ stmts stmts' : List Stmt, (∀ st ∈ stmts, st.Emittable) → (∀ st ∈ stmts', st.Emittable) →
      ∃ p p', print stmts = .ok p ∧ print stmts' = .ok p' ∧
        (p.text = p'.text → stmts.map Stmt.erase = stmts'.map Stmt.erase) := by
  refine ⟨fun src systemF c hc => emittable_of_compile hc, fun stmts stmts' h h' => ?_⟩
  obtain ⟨p, hp⟩ := print_of_emittable h
  obtain ⟨p', hp'⟩ := print_of_emittable h'
  exact ⟨p, p', hp, hp', erase_eq_of_text_eq h h' hp hp'⟩

/-- An arrow that returns an arrow, annotated with a function type. -/
def chained (o : Option Location) : List Stmt :=
  [.const "f" none (.arrow ["P"] [("x", .ref "P" [])]
    (some (.func [] [("y", .ref "Q" [])] (.ref "P" [])))
    (.expr (.arrow [] [("y", .ref "Q" [])] none (.expr (.ident "x" o)) o)) o) false false none o]

theorem emittable_chained (o : Option Location) : ∀ st ∈ chained o, st.Emittable := by
  have hatom : ∀ {name : String}, IsWord name → (TypeExpr.ref name []).Emittable :=
    fun h => .ref h (by simp)
  have hP : (TypeExpr.ref "P" []).Emittable := hatom (by decide)
  have hQ : (TypeExpr.ref "Q" []).Emittable := hatom (by decide)
  have hinner : (Expr.arrow [] [("y", .ref "Q" [])] none (.expr (.ident "x" o)) o).Emittable :=
    .arrow (by simp) (by simp) (by decide) (by simpa using hQ) (by simp) (.expr (.ident (by decide)))
  have hret : (TypeExpr.func [] [("y", .ref "Q" [])] (.ref "P" [])).Emittable :=
    .func (by simp) (by decide) (by simpa using hQ) hP
  rw [chained, List.forall_mem_singleton]
  exact .const (by decide) (by simp)
    (.arrow (by decide) (by simp) (by decide) (by simpa using hP) (by simpa using hret) (.expr hinner))

theorem print_injective_chained :
    ∃ p p', print (chained none) = .ok p ∧ print (chained (some ⟨1, 2⟩)) = .ok p' ∧
      p.text = p'.text ∧
      (chained none).map Stmt.erase = (chained (some ⟨1, 2⟩)).map Stmt.erase := by
  obtain ⟨p, p', hp, hp', herase⟩ :=
    print_injective.2 _ _ (emittable_chained none) (emittable_chained (some ⟨1, 2⟩))
  have htexts : (print (chained none)).toOption.map Printed.text =
      (print (chained (some ⟨1, 2⟩))).toOption.map Printed.text := by
    decide +kernel
  have htext : p.text = p'.text := by simpa [hp, hp', Except.toOption] using htexts
  exact ⟨p, p', hp, hp', htext, herase htext⟩

end ProofScript.Program
