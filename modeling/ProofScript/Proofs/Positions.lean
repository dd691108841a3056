import ProofScript.Proofs.Extents
import ProofScript.Proofs.Readability

/-!
# Positions convert both ways

Generated programs are printed in ASCII, so that a character is a byte. A line and a column then
lead to the byte that they are the position of, and a byte has the line and column that lead to it:
both count the line feeds in front of the byte, and the bytes behind the last of them.
-/

namespace ProofScript

open Program

/-! ## Texts of ASCII characters -/

/-- All characters are ASCII. -/
def AsciiChars (cs : List Char) : Prop := ∀ c ∈ cs, c.toNat < 128

instance (cs : List Char) : Decidable (AsciiChars cs) :=
  inferInstanceAs (Decidable (∀ c ∈ cs, c.toNat < 128))

section Texts

variable {α : Type} {c : Char} {cs ds : List Char} {names : List String}

@[simp]
theorem asciiChars_nil : AsciiChars [] := List.forall_mem_nil _

@[simp]
theorem asciiChars_cons : AsciiChars (c :: cs) ↔ c.toNat < 128 ∧ AsciiChars cs :=
  List.forall_mem_cons

@[simp]
theorem asciiChars_append : AsciiChars (cs ++ ds) ↔ AsciiChars cs ∧ AsciiChars ds :=
  List.forall_mem_append

theorem AsciiWord.asciiChars {name : String} (h : AsciiWord name) : AsciiChars name.toList :=
  fun c hc => (h.2 c hc).2

theorem asciiChars_blanks (n : Nat) : AsciiChars (List.replicate n ' ') := by
  intro c hc
  rw [(List.mem_replicate.mp hc).2]
  decide

theorem asciiChars_items {write : α → List Char} {close : Char} {as : List α} {r : List Char}
    (has : ∀ a ∈ as, AsciiChars (write a)) (hclose : close.toNat < 128) (hr : AsciiChars r) :
    AsciiChars (items write close as r) := by
  have hbehind : ∀ as : List α, (∀ a ∈ as, AsciiChars (write a)) →
      AsciiChars (itemsBehind write close as r) := by
    intro as has
    induction as with
    | nil => exact asciiChars_cons.mpr ⟨hclose, hr⟩
    | cons a as ih =>
      rw [List.forall_mem_cons] at has
      simp [itemsBehind, has.1, ih has.2]
  cases as with
  | nil => exact asciiChars_cons.mpr ⟨hclose, hr⟩
  | cons a as =>
    rw [List.forall_mem_cons] at has
    exact asciiChars_append.mpr ⟨has.1, hbehind as has.2⟩

theorem asciiChars_typeArgs {args : List TypeExpr} {r : List Char}
    (hargs : ∀ t ∈ args, AsciiChars t.nestedChars) (hr : AsciiChars r) :
    AsciiChars (typeArgs args r) := by
  cases args with
  | nil => exact hr
  | cons t args =>
    exact asciiChars_cons.mpr ⟨by decide, asciiChars_items hargs (by decide) hr⟩

theorem asciiChars_signature {params : List Param} {r : List Char}
    (hnames : ∀ n ∈ names, AsciiWord n) (hparams : ∀ p ∈ params, AsciiChars (paramChars p))
    (hr : AsciiChars r) : AsciiChars (signature names params r) := by
  have hopened : AsciiChars (items paramChars ')' params r) :=
    asciiChars_items hparams (by decide) hr
  cases names with
  | nil => exact asciiChars_cons.mpr ⟨by decide, hopened⟩
  | cons name names =>
    refine asciiChars_cons.mpr ⟨by decide, asciiChars_items ?_ (by decide) ?_⟩
    · exact fun n hn => (hnames n hn).asciiChars
    · exact asciiChars_cons.mpr ⟨by decide, hopened⟩

end Texts

namespace Program

theorem TypeExpr.asciiChars_nested {t : TypeExpr} (h : AsciiChars t.chars) :
    AsciiChars t.nestedChars := by
  unfold TypeExpr.nestedChars wrapped
  split
  · simpa [TypeExpr.chars] using h
  · exact h

theorem asciiChars_param {p : Param} (hname : AsciiWord p.1) (htype : AsciiChars p.2.chars) :
    AsciiChars (paramChars p) := by
  simp [paramChars, hname.asciiChars, htype]

theorem TypeExpr.Ascii.asciiChars {t : TypeExpr} (h : t.Ascii) : AsciiChars t.chars := by
  induction h with
  | @ref name args hname _ ih =>
    rw [← List.append_nil (TypeExpr.chars _), TypeExpr.chars_ref, asciiChars_append]
    refine ⟨hname.asciiChars, asciiChars_typeArgs (fun t ht => ?_) asciiChars_nil⟩
    exact TypeExpr.asciiChars_nested (ih t ht)
  | @func tparams params ret htparams hnames _ _ ihparams ihret =>
    rw [← List.append_nil (TypeExpr.chars _), TypeExpr.chars_func]
    refine asciiChars_signature htparams (fun p hp => ?_) (by simpa using ihret)
    exact asciiChars_param (hnames p hp) (ihparams p hp)

theorem asciiChars_ascription {type : Option TypeExpr} (h : ∀ t ∈ type, t.Ascii) :
    AsciiChars (written (ascription type)) := by
  cases type with
  | none => exact asciiChars_nil
  | some t =>
    have hchars := (h t rfl).asciiChars
    simpa [ascription, TypeExpr.chars] using hchars

theorem asciiChars_lines {depth : Nat} {stmts : List Stmt}
    (h : ∀ st ∈ stmts, AsciiChars (st.chars depth)) : AsciiChars (linesChars depth stmts) := by
  induction stmts with
  | nil => exact asciiChars_nil
  | cons st rest ih =>
    rw [List.forall_mem_cons] at h
    rw [← List.append_nil (linesChars _ _), linesChars_cons]
    simp [asciiChars_blanks, h.1, ih h.2]

mutual

theorem Expr.Ascii.asciiChars {e : Expr} (depth : Nat) : e.Ascii → AsciiChars (e.chars depth)
  | .ident hname => by
    rw [Expr.chars_ident]
    exact hname.asciiChars
  | .call hfn h htargs hargs => by
    have hcallee := Expr.Ascii.asciiChars depth h
    rw [← List.append_nil (Expr.chars _ _), Expr.chars_call hfn, asciiChars_append]
    refine ⟨hcallee, asciiChars_typeArgs (fun t ht => ?_) (asciiChars_cons.mpr ⟨by decide, ?_⟩)⟩
    · exact TypeExpr.asciiChars_nested (TypeExpr.Ascii.asciiChars (htargs t ht))
    · exact asciiChars_items (fun x hx => Expr.Ascii.asciiChars depth (hargs x hx)) (by decide)
        asciiChars_nil
  | .arrow htparams _ hnames htypes hret hbody => by
    have hbody := Body.Ascii.asciiChars depth hbody
    have hret := asciiChars_ascription hret
    rw [← List.append_nil (Expr.chars _ _), Expr.chars_arrow]
    refine asciiChars_signature htparams (fun p hp => ?_) (by simp [hret, hbody])
    exact asciiChars_param (hnames p hp) (TypeExpr.Ascii.asciiChars (htypes p hp))

theorem Body.Ascii.asciiChars {b : Body} (depth : Nat) : b.Ascii → AsciiChars (b.chars depth)
  | .expr h => by
    rw [Body.chars_expr (h.mono fun _ => AsciiWord.isWord)]
    exact Expr.Ascii.asciiChars depth h
  | .block h => by
    have hlines := asciiChars_lines fun st hst => Stmt.Ascii.asciiChars (depth + 1) (h st hst)
    rw [← List.append_nil (Body.chars _ _), Body.chars_block]
    simp [hlines, asciiChars_blanks]

theorem Stmt.Ascii.asciiChars {st : Stmt} (depth : Nat) : st.Ascii → AsciiChars (st.chars depth)
  | .const hname htype hvalue => by
    have hvalue := Expr.Ascii.asciiChars depth hvalue
    have htype := asciiChars_ascription htype
    rw [← List.append_nil (Stmt.chars _ _), Stmt.chars_const]
    simp [hname.asciiChars, htype, hvalue]
  | .arrow _ h => by
    have hexpr := Expr.Ascii.asciiChars depth h
    rw [← List.append_nil (Stmt.chars _ _), Stmt.chars_arrow]
    simp [hexpr]
  | .ret h => by
    have hexpr := Expr.Ascii.asciiChars depth h
    rw [← List.append_nil (Stmt.chars _ _), Stmt.chars_ret]
    simp [hexpr]

end

mutual

/-- The pieces of text in a layout. -/
def Layout.pieces : Layout → List String
  | text s => [s]
  | gap _ => []
  | node _ parts => piecesAll parts

/-- The pieces of text in parts, in order. -/
def Layout.piecesAll : List Layout → List String
  | [] => []
  | p :: rest => p.pieces ++ piecesAll rest

end

mutual

theorem written_eq_pieces : (l : Layout) → written [l] = l.pieces.flatMap String.toList
  | .text s => by simp [Layout.pieces]
  | .gap _ => rfl
  | .node tag parts => by
    rw [written_node, written_nil, List.append_nil, written_eq_piecesAll parts, Layout.pieces]

theorem written_eq_piecesAll :
    (parts : List Layout) → written parts = (Layout.piecesAll parts).flatMap String.toList
  | [] => rfl
  | p :: rest => by
    rw [written_cons, written_eq_pieces p, written_eq_piecesAll rest, Layout.piecesAll,
      List.flatMap_append]

end

end Program

/-- The declarations of the library are written in ASCII. -/
theorem Library.asciiChars_all : ∀ p ∈ Library.all, AsciiChars (p.decl.chars 0) := by
  -- The test runs on the pieces of the layouts: the lines themselves are far larger terms.
  have hpieces : (Library.all.all fun p => (p.decl.layout 0).pieces.all fun s =>
      s.toList.all fun c => c.toNat < 128) = true := by decide +kernel
  intro p hp c hc
  rw [Stmt.chars, written_eq_pieces] at hc
  obtain ⟨s, hs, hc⟩ := List.mem_flatMap.mp hc
  simp only [List.all_eq_true, decide_eq_true_eq] at hpieces
  exact hpieces p hp s hs c hc

/-- A compiled program is written in ASCII. -/
theorem asciiChars_of_compile {src : List UInt8} {systemF : Bool} {c : Compilation}
    (h : (compile src systemF).1 = .ok c) : AsciiChars c.program.text.toList := by
  obtain ⟨s, hparse, hdecls, -, -, hprimitives, -⟩ := compile_eq_ok h
  rw [toList_of_print (emit_of_compile h)]
  refine asciiChars_lines (List.forall_mem_append.mpr ⟨?_, ?_⟩)
  · intro st hst
    obtain ⟨p, hp, rfl⟩ := List.mem_map.mp hst
    rw [hprimitives] at hp
    exact Library.asciiChars_all p (List.mem_filter.mp hp).1
  · intro st hst
    exact (Generate.theoremDecls_ascii (theorems_worded hparse) hdecls st hst).asciiChars 0

/-! ## Bytes of ASCII texts -/

/-- The byte of an ASCII character. -/
def asciiByte (c : Char) : UInt8 := UInt8.ofNat c.toNat

theorem encodeChar_of_ascii {c : Char} (h : c.toNat < 128) :
    String.utf8EncodeChar c = [asciiByte c] := by
  rw [Text.encodeChar_eq (v := c.toNat) rfl, if_pos (by omega), asciiByte]

theorem asciiByte_eq_lineFeed {c : Char} (h : c.toNat < 128) : asciiByte c = 0x0A ↔ c = '\n' := by
  rw [← UInt8.toNat_inj, asciiByte, Text.toNat_ofNat_byte (by omega), ← Char.toNat_inj]
  rfl

theorem bytes_of_asciiChars {cs : List Char} (h : AsciiChars cs) :
    Text.bytes (String.ofList cs) = cs.map asciiByte := by
  rw [Text.bytes_ofList]
  induction cs with
  | nil => rfl
  | cons c cs ih =>
    rw [asciiChars_cons] at h
    rw [List.flatMap_cons, encodeChar_of_ascii h.1, ih h.2]
    rfl

theorem size_of_asciiChars {cs : List Char} (h : AsciiChars cs) :
    (String.ofList cs).utf8ByteSize = cs.length := by
  rw [← Text.length_bytes, bytes_of_asciiChars h, List.length_map]

/-! ## Lines and columns -/

/-- The characters `before` of a text stand in front of the place with a line and a column, both
counted from zero. -/
inductive Precedes : List Char → Nat → Nat → List Char → Prop
  | start (cs : List Char) : Precedes cs 0 0 []
  | newline {cs before : List Char} {i j : Nat} :
      Precedes cs i j before → Precedes ('\n' :: cs) (i + 1) j ('\n' :: before)
  | first {c : Char} {cs before : List Char} {j : Nat} :
      c ≠ '\n' → Precedes cs 0 j before → Precedes (c :: cs) 0 (j + 1) (c :: before)
  | later {c : Char} {cs before : List Char} {i j : Nat} :
      c ≠ '\n' → Precedes cs (i + 1) j before → Precedes (c :: cs) (i + 1) j (c :: before)

namespace Precedes

variable {cs before : List Char} {i j : Nat}

theorem isPrefix (h : Precedes cs i j before) : before <+: cs := by
  induction h with
  | start cs => exact List.nil_prefix
  | newline _ ih => exact (List.prefix_cons_inj _).mpr ih
  | first _ _ ih => exact (List.prefix_cons_inj _).mpr ih
  | later _ _ ih => exact (List.prefix_cons_inj _).mpr ih

/-- Every part in front of a text stands in front of a place. -/
theorem of_isPrefix (h : before <+: cs) : ∃ i j, Precedes cs i j before := by
  induction before generalizing cs with
  | nil => exact ⟨0, 0, .start cs⟩
  | cons c before ih =>
    obtain ⟨after, rfl⟩ := h
    obtain ⟨i, j, hplace⟩ := ih (List.prefix_append before after)
    by_cases hc : c = '\n'
    · subst hc
      exact ⟨i + 1, j, .newline hplace⟩
    · cases i with
      | zero => exact ⟨0, j + 1, .first hc hplace⟩
      | succ i => exact ⟨i + 1, j, .later hc hplace⟩

/-- Every place on a line, its end included, has a part of the text in front of it. -/
theorem of_line {line : List Char} (hline : (cs.splitOn '\n')[i]? = some line)
    (hj : j ≤ line.length) : ∃ before, Precedes cs i j before := by
  induction cs generalizing i j line with
  | nil =>
    obtain ⟨rfl, rfl⟩ : i = 0 ∧ [] = line := by simpa [List.getElem?_singleton] using hline
    obtain rfl : j = 0 := Nat.le_zero.mp hj
    exact ⟨[], .start []⟩
  | cons c cs ih =>
    rw [List.splitOn_cons_eq_if_modifyHead] at hline
    by_cases hc : c = '\n'
    · subst hc
      rw [if_pos (by simp)] at hline
      cases i with
      | zero =>
        obtain rfl : [] = line := by simpa using hline
        obtain rfl : j = 0 := Nat.le_zero.mp hj
        exact ⟨[], .start _⟩
      | succ i =>
        obtain ⟨before, hplace⟩ := ih hline hj
        exact ⟨_, .newline hplace⟩
    · rw [if_neg (by simpa using hc)] at hline
      obtain ⟨head, rest, hsplit⟩ := List.exists_cons_of_ne_nil (List.splitOn_ne_nil '\n' cs)
      rw [hsplit, List.modifyHead_cons] at hline
      rw [hsplit] at ih
      cases i with
      | zero =>
        obtain rfl : c :: head = line := by simpa using hline
        cases j with
        | zero => exact ⟨[], .start _⟩
        | succ j =>
          obtain ⟨before, hplace⟩ := ih (i := 0) rfl (Nat.le_of_succ_le_succ hj)
          exact ⟨_, .first hc hplace⟩
      | succ i =>
        obtain ⟨before, hplace⟩ := ih (i := i + 1) hline hj
        exact ⟨_, .later hc hplace⟩

/-- Counting over the part in front of a place reaches its line and column. -/
theorem foldl_step (h : Precedes cs i j before) (p : Position) : before.foldl Position.step p =
    ⟨p.offset, p.line + i, (if i = 0 then p.column else 1) + j⟩ := by
  induction h generalizing p with
  | start => rfl
  | @newline cs before i j _ ih =>
    rw [List.foldl_cons, ih, Position.step, if_pos rfl]
    simp [Nat.add_assoc, Nat.add_comm 1]
  | first hc _ ih =>
    rw [List.foldl_cons, ih, Position.step, if_neg hc]
    simp [Nat.add_assoc, Nat.add_comm 1]
  | later hc _ ih =>
    rw [List.foldl_cons, ih, Position.step, if_neg hc]
    simp

/-- The line of a place starts as many bytes in front of it as its column says. -/
theorem lineStart (h : Precedes cs i j before) (hascii : AsciiChars cs) :
    ∃ start, Printed.lineStart? (cs.map asciiByte) i = some start ∧ start + j = before.length := by
  induction h with
  | start cs => exact ⟨0, by cases cs <;> rfl, rfl⟩
  | @newline cs before i j _ ih =>
    rw [asciiChars_cons] at hascii
    obtain ⟨start, hstart, hlength⟩ := ih hascii.2
    refine ⟨start + 1, ?_, by simp only [List.length_cons]; omega⟩
    rw [List.map_cons, Printed.lineStart?, if_pos ((asciiByte_eq_lineFeed hascii.1).mpr rfl),
      hstart]
    rfl
  | @first c cs before j _ _ ih =>
    rw [asciiChars_cons] at hascii
    obtain ⟨start, hstart, hlength⟩ := ih hascii.2
    obtain rfl : 0 = start := by
      cases cs <;> simpa [Printed.lineStart?] using hstart
    exact ⟨0, rfl, by simp only [List.length_cons]; omega⟩
  | @later c cs before i j hc _ ih =>
    rw [asciiChars_cons] at hascii
    obtain ⟨start, hstart, hlength⟩ := ih hascii.2
    refine ⟨start + 1, ?_, by simp only [List.length_cons]; omega⟩
    rw [List.map_cons, Printed.lineStart?, if_neg (by rwa [asciiByte_eq_lineFeed hascii.1]), hstart]
    rfl

end Precedes

/-! ## Printed programs -/

namespace Program.Printed

variable {p : Printed} {before : List Char} {i j : Nat}

/-- The offset behind the part in front of a place has the line and the column of the place. -/
theorem locate_of_precedes (hascii : AsciiChars p.text.toList)
    (h : Precedes p.text.toList i j before) :
    p.locate before.length = ⟨before.length, i + 1, j + 1⟩ := by
  obtain ⟨after, hafter⟩ := h.isPrefix
  have htext : p.text = String.ofList before ++ String.ofList after := by
    rw [← String.ofList_append, hafter, String.ofList_toList]
  rw [← hafter, asciiChars_append] at hascii
  have hsize := size_of_asciiChars hascii.1
  rw [← hsize, locate_of_append htext, Position.advance, String.toList_ofList, h.foldl_step]
  have hcolumn : (if i = 0 then 1 else 1) + j = j + 1 := by split <;> omega
  simp only [Position.start, hcolumn, Nat.zero_add, Nat.add_comm 1 i]

/-- The line and the column of a place lead to the offset behind the part in front of it. -/
theorem offsetOf_of_precedes (hascii : AsciiChars p.text.toList)
    (h : Precedes p.text.toList i j before) : p.offsetOf (i + 1) (j + 1) = before.length := by
  obtain ⟨start, hstart, hlength⟩ := h.lineStart hascii
  have hbytes : Text.bytes p.text = p.text.toList.map asciiByte := by
    rw [← bytes_of_asciiChars hascii, String.ofList_toList]
  have hsize : p.text.utf8ByteSize = p.text.toList.length := by
    rw [← size_of_asciiChars hascii, String.ofList_toList]
  have hle := h.isPrefix.length_le
  rw [offsetOf, if_neg (by omega), hbytes, Int.add_sub_cancel, Int.toNat_natCast, hstart]
  dsimp only
  rw [if_pos (by omega)]
  omega

/-- In an ASCII text, lines and columns convert to offsets and back. -/
theorem offsetOf_locate (hascii : AsciiChars p.text.toList) {o : Nat}
    (ho : o ≤ p.text.utf8ByteSize) : p.offsetOf (p.locate o).line (p.locate o).column = o := by
  have hsize : p.text.utf8ByteSize = p.text.toList.length := by
    rw [← size_of_asciiChars hascii, String.ofList_toList]
  obtain ⟨i, j, hplace⟩ := Precedes.of_isPrefix (List.take_prefix o p.text.toList)
  have hlength : (p.text.toList.take o).length = o := List.length_take_of_le (hsize ▸ ho)
  have hlocate := locate_of_precedes hascii hplace
  have hoffset := offsetOf_of_precedes hascii hplace
  rw [hlength] at hlocate hoffset
  rw [hlocate]
  exact_mod_cast hoffset

/-- In an ASCII text, the places on a line convert to offsets in the text and back. -/
theorem locate_offsetOf (hascii : AsciiChars p.text.toList) {line : List Char}
    (hline : (p.text.toList.splitOn '\n')[i]? = some line) (hj : j ≤ line.length) :
    ∃ o : Nat, p.offsetOf (i + 1) (j + 1) = o ∧ o ≤ p.text.utf8ByteSize ∧
      p.locate o = ⟨o, i + 1, j + 1⟩ := by
  obtain ⟨before, hplace⟩ := Precedes.of_line hline hj
  refine ⟨before.length, offsetOf_of_precedes hascii hplace, ?_, locate_of_precedes hascii hplace⟩
  have hsize := size_of_asciiChars hascii
  rw [String.ofList_toList] at hsize
  exact hsize ▸ hplace.isPrefix.length_le

end Program.Printed

/-- A compiled program is written in ASCII. Every offset from the start to the end of its text has a
line and a column that lead back to it, and every column of a line, the one behind the line
included, leads to an offset in the text that has this line and column. -/
theorem compile_positions {src : List UInt8} {systemF : Bool} {c : Compilation}
    (h : (compile src systemF).1 = .ok c) :
    AsciiChars c.program.text.toList ∧
      (∀ o : Nat, o ≤ c.program.text.utf8ByteSize →
        c.program.offsetOf (c.program.locate o).line (c.program.locate o).column = o) ∧
      ∀ (i : Nat) (line : List Char), (c.program.text.toList.splitOn '\n')[i]? = some line →
        ∀ j ≤ line.length, ∃ o : Nat, c.program.offsetOf (i + 1) (j + 1) = o ∧
          o ≤ c.program.text.utf8ByteSize ∧ c.program.locate o = ⟨o, i + 1, j + 1⟩ := by
  have hascii := asciiChars_of_compile h
  exact ⟨hascii, fun o ho => Printed.offsetOf_locate hascii ho,
    fun i line hline j hj => Printed.locate_offsetOf hascii hline hj⟩

/-- A script with a reserved word for a name and an atom that is named as a type of the library. -/
theorem compile_positions_escaped :
    ∃ c, (compile (Text.bytes "theorem class : A_1 & And => And assume A_1 & And \x7b
        by andElimRight A_1 & And \x7d") false).1 = .ok c ∧
      c.primitives.length = 7 ∧
      AsciiChars c.program.text.toList ∧
      (∀ o : Nat, o ≤ c.program.text.utf8ByteSize →
        c.program.offsetOf (c.program.locate o).line (c.program.locate o).column = o) ∧
      ∀ (i : Nat) (line : List Char), (c.program.text.toList.splitOn '\n')[i]? = some line →
        ∀ j ≤ line.length, ∃ o : Nat, c.program.offsetOf (i + 1) (j + 1) = o ∧
          o ≤ c.program.text.utf8ByteSize ∧ c.program.locate o = ⟨o, i + 1, j + 1⟩ := by
  generalize hsrc : Text.bytes _ = src
  have hchecked : (compile src false).1.toOption.any (fun c => c.primitives.length = 7) = true := by
    rw [← hsrc]
    decide +kernel
  obtain ⟨c, h, hlength⟩ := exists_ok_of_any hchecked
  exact ⟨c, h, of_decide_eq_true hlength, compile_positions h⟩

end ProofScript
