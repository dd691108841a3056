import Mathlib.Data.List.Basic
import ProofScript.Excerpt
import ProofScript.Proofs.Decoding

/-!
# Carets

An excerpt shows the offending line behind a gutter that is as wide as the line number needs, and the
carets below it behind a margin that leaves room for three digits. So the caret stands under the offending
column up to line 999, and further left from line 1000 on.
-/

namespace ProofScript

/-! ## Lines -/

namespace Text

/-- A line is made of characters of the text in order, without line feeds. -/
theorem mem_splitChars {cs l : List Char} (h : l ∈ splitChars cs) : '\n' ∉ l ∧ l.Sublist cs := by
  fun_induction splitChars cs generalizing l with
  | case1 =>
    obtain rfl := List.mem_singleton.mp h
    exact ⟨by simp, .slnil⟩
  | case2 rest ih =>
    rcases List.mem_cons.mp h with rfl | h
    · exact ⟨by simp, List.nil_sublist _⟩
    · exact ⟨(ih h).1, (ih h).2.cons _⟩
  | case3 more _ ih => exact ⟨(ih h).1, (ih h).2.cons _⟩
  | case4 rest _ _ ih =>
    rcases List.mem_cons.mp h with rfl | h
    · exact ⟨by simp, List.nil_sublist _⟩
    · exact ⟨(ih h).1, (ih h).2.cons _⟩
  | case5 c rest hlf _ ih =>
    cases hrest : splitChars rest with
    | nil =>
      rw [hrest, consLine, List.mem_singleton] at h
      rw [h]
      exact ⟨by simpa using fun heq => hlf heq.symm, (List.nil_sublist rest).cons_cons c⟩
    | cons first more =>
      rw [hrest] at ih
      rw [hrest, consLine] at h
      rcases List.mem_cons.mp h with rfl | h
      · obtain ⟨hfirst, hsub⟩ := ih (List.mem_cons_self ..)
        refine ⟨?_, hsub.cons_cons c⟩
        rw [List.mem_cons, not_or]
        exact ⟨fun heq => hlf heq.symm, hfirst⟩
      · obtain ⟨hl, hsub⟩ := ih (List.mem_cons_of_mem _ h)
        exact ⟨hl, hsub.cons c⟩

theorem length_encoded_le {l cs : List Char} (h : l.Sublist cs) :
    (l.flatMap String.utf8EncodeChar).length ≤ (cs.flatMap String.utf8EncodeChar).length := by
  induction h with
  | slnil => exact Nat.le_refl _
  | cons c _ ih => exact Nat.le_trans ih (by simp)
  | cons_cons c _ ih => simpa using ih

theorem utf8ByteSize_le_of_mem_lines {s l : String} (h : l ∈ lines s) :
    '\n' ∉ l.toList ∧ l.utf8ByteSize ≤ s.utf8ByteSize := by
  obtain ⟨cs, hcs, rfl⟩ := List.mem_map.mp h
  obtain ⟨hlf, hsub⟩ := mem_splitChars hcs
  rw [String.toList_ofList]
  refine ⟨hlf, ?_⟩
  rw [← length_bytes, ← length_bytes, bytes_eq_flatMap, bytes_eq_flatMap, String.toList_ofList]
  exact length_encoded_le hsub

theorem utf8ByteSize_pushn_blank (n : Nat) : ("".pushn ' ' n).utf8ByteSize = n := by
  rw [← length_bytes, bytes_pushn_blank, List.length_replicate]

theorem isDigit_of_mem_toString {n : Nat} {c : Char} (h : c ∈ (toString n).toList) :
    c.isDigit = true := by
  rw [Nat.toString_eq_repr, Nat.toList_repr] at h
  exact Nat.isDigit_of_mem_toDigits (by decide) (by decide) h

/-- A number takes as many bytes as it has digits. -/
theorem utf8ByteSize_toString (n : Nat) : (toString n).utf8ByteSize = (toString n).length := by
  have hone : ∀ cs : List Char, (∀ c ∈ cs, c.isDigit = true) →
      (cs.flatMap String.utf8EncodeChar).length = cs.length := by
    intro cs hcs
    induction cs with
    | nil => rfl
    | cons c rest ih =>
      obtain ⟨hc, hrest⟩ := List.forall_mem_cons.mp hcs
      have hsize : c.utf8Size = 1 := by
        rw [Char.utf8Size_eq_one_iff, UInt32.le_iff_toNat_le]
        simp only [Char.isDigit, Bool.and_eq_true, decide_eq_true_eq, UInt32.le_iff_toNat_le] at hc
        exact Nat.le_trans hc.2 (by decide)
      rw [List.flatMap_cons, List.length_append, ih hrest, String.length_utf8EncodeChar, hsize,
        List.length_cons, Nat.add_comm]
  rw [← length_bytes, bytes_eq_flatMap, hone _ fun c hc => isDigit_of_mem_toString hc,
    String.length_toList]

theorem length_toString_le {n : Nat} : (toString n).length ≤ 3 ↔ n ≤ 999 := by
  rw [Nat.toString_eq_repr, Nat.length_repr_le_iff (by decide)]
  omega

end Text

namespace Excerpt

/-! ## Renderings with other escape codes -/

/-- The escape codes of a rendering. -/
structure Palette where
  red : String
  blue : String
  bold : String
  dim : String
  reset : String

/-- The escape codes of a terminal. -/
def Palette.terminal : Palette := ⟨Excerpt.red, Excerpt.blue, Excerpt.bold, Excerpt.dim, Excerpt.reset⟩

/-- No escape codes. -/
def Palette.blank : Palette := ⟨"", "", "", "", ""⟩

/-- One line of the script with given escape codes, the offending one with the carets. -/
def lineIn (p : Palette) (e : Excerpt) (number : Nat) (text : String) : String :=
  let gutter := Text.padLeft 3 (toString number)
  if (number : Int) = e.loc.line then
    " " ++ p.dim ++ p.blue ++ p.bold ++ gutter ++ " | " ++ p.reset ++ text ++ "\n"
      ++ p.dim ++ "".pushn ' ' e.margin.toNat ++ p.red ++ "".pushn '^' (max 1 e.length).toNat
      ++ p.reset ++ "\n"
  else " " ++ p.dim ++ gutter ++ " | " ++ text ++ p.reset ++ "\n"

/-- The border above and below the lines, with given escape codes. -/
def borderIn (p : Palette) : String := " " ++ p.dim ++ Text.padLeft 3 "" ++ " |" ++ p.reset ++ "\n"

/-- What stands above the lines of the script, with given escape codes. -/
def headIn (p : Palette) (e : Excerpt) : String :=
  p.bold ++ p.red ++ "Error:" ++ p.reset ++ " " ++ e.message ++ "\n"
    ++ "  " ++ p.dim ++ p.blue ++ "--> " ++ e.filename ++ ":" ++ toString e.loc.line ++ ":"
    ++ toString e.loc.column ++ p.reset ++ "\n" ++ borderIn p

/-- The error with the lines around it, with given escape codes. -/
def textIn (p : Palette) (e : Excerpt) : String :=
  if e.hasLine then
    let first := (max 1 (e.loc.line - 2)).toNat
    let shown := (((Text.lines e.source).zipIdx 1).drop (first - 1)).take
      ((e.loc.line + 2).toNat + 1 - first)
    headIn p e ++ String.join (shown.map fun (text, number) => e.lineIn p number text) ++ borderIn p
  else e.message

theorem text_eq (e : Excerpt) : e.text = e.textIn .terminal := rfl

/-! ## Lines of a rendering -/

/-- A text that ends with the end of a line. -/
def EndsLine (s : String) : Prop := ∃ front, s = front ++ "\n"

theorem EndsLine.append {s : String} (h : EndsLine s) (t : String) : EndsLine (t ++ s) := by
  obtain ⟨front, rfl⟩ := h
  exact ⟨t ++ front, (String.append_assoc ..).symm⟩

theorem EndsLine.join {s : String} (h : EndsLine s) {l : List String} (hl : ∀ t ∈ l, EndsLine t) :
    EndsLine (s ++ String.join l) := by
  induction l generalizing s with
  | nil => simpa using h
  | cons t rest ih =>
    obtain ⟨ht, hrest⟩ := List.forall_mem_cons.mp hl
    rw [String.join_cons, ← String.append_assoc]
    exact ih (ht.append s) hrest

theorem endsLine_lineIn (p : Palette) (e : Excerpt) (number : Nat) (text : String) :
    EndsLine (e.lineIn p number text) := by
  rw [lineIn]
  split
  · exact ⟨_, rfl⟩
  · exact ⟨_, rfl⟩

theorem endsLine_headIn (p : Palette) (e : Excerpt) : EndsLine (e.headIn p) :=
  EndsLine.append ⟨_, rfl⟩ _

/-- The offending line is shown, in lines of its own. -/
theorem textIn_shows (p : Palette) {e : Excerpt} {i : Nat} {line : String}
    (hloc : e.loc.line = i + 1) (hline : (Text.lines e.source)[i]? = some line) :
    e.hasLine = true ∧ ∃ front back, EndsLine front ∧
      e.textIn p = front ++ e.lineIn p (i + 1) line ++ back := by
  obtain ⟨hi, -⟩ := List.getElem?_eq_some_iff.mp hline
  have hhas : e.hasLine = true := by
    simp only [hasLine, hloc, Bool.and_eq_true, decide_eq_true_eq]
    omega
  refine ⟨hhas, ?_⟩
  rw [textIn, if_pos hhas]
  generalize hfirst : (max 1 (e.loc.line - 2)).toNat - 1 = first
  generalize hcount : (e.loc.line + 2).toNat + 1 - (max 1 (e.loc.line - 2)).toNat = count
  have hbound : first ≤ i ∧ i - first < count := by
    rw [hloc] at hfirst hcount
    omega
  have hshown : (line, i + 1) ∈ (((Text.lines e.source).zipIdx 1).drop first).take count := by
    refine List.mem_iff_getElem?.mpr ⟨i - first, ?_⟩
    rw [List.getElem?_take_of_lt hbound.2, List.getElem?_drop, Nat.add_sub_cancel' hbound.1,
      List.getElem?_zipIdx, hline]
    simp [Nat.add_comm]
  obtain ⟨pre, post, hsplit⟩ := List.append_of_mem hshown
  refine ⟨e.headIn p ++ String.join (pre.map fun (text, number) => e.lineIn p number text),
    String.join (post.map fun (text, number) => e.lineIn p number text) ++ borderIn p, ?_, ?_⟩
  · refine (endsLine_headIn p e).join fun t ht => ?_
    obtain ⟨⟨text, number⟩, -, rfl⟩ := List.mem_map.mp ht
    exact endsLine_lineIn p e number text
  · simp only [hfirst, hcount, hsplit, List.map_append, List.map_cons, String.join_append, String.join_cons,
      String.append_assoc]

/-! ## The caret -/

/-- What stands in front of a line of the script. -/
def gutter (number : Nat) : String := " " ++ Text.padLeft 3 (toString number) ++ " | "

/-- The line below the offending one. -/
def carets (e : Excerpt) : String :=
  "".pushn ' ' e.margin.toNat ++ "".pushn '^' (max 1 e.length).toNat

theorem lineIn_blank {e : Excerpt} {number : Nat} (h : (number : Int) = e.loc.line) (text : String) :
    e.lineIn .blank number text = gutter number ++ text ++ "\n" ++ e.carets ++ "\n" := by
  simp only [lineIn, if_pos h, Palette.blank, gutter, carets, String.append_empty,
    String.append_assoc]

theorem toList_carets (e : Excerpt) : e.carets.toList =
    List.replicate e.margin.toNat ' ' ++ List.replicate (max 1 e.length).toNat '^' := by
  rw [carets, String.toList_append, Text.toList_pushn, Text.toList_pushn]

/-- The first caret stands behind the margin. -/
theorem idxOf_carets (e : Excerpt) :
    '^' ∈ e.carets.toList ∧ e.carets.toList.idxOf '^' = e.margin.toNat := by
  obtain ⟨k, hk⟩ : ∃ k, (max 1 e.length).toNat = k + 1 := ⟨(max 1 e.length).toNat - 1, by omega⟩
  rw [toList_carets, hk, List.replicate_succ]
  refine ⟨by simp, ?_⟩
  rw [List.idxOf_append_of_notMem (by simp), List.length_replicate, List.idxOf_cons_self, Nat.add_zero]

theorem utf8ByteSize_gutter (number : Nat) :
    (gutter number).utf8ByteSize = max 3 (toString number).length + 4 := by
  rw [gutter, Text.padLeft, String.utf8ByteSize_append, String.utf8ByteSize_append,
    String.utf8ByteSize_append, Text.utf8ByteSize_pushn_blank, Text.utf8ByteSize_toString]
  have hblank : (" " : String).utf8ByteSize = 1 := by decide
  have hbar : (" | " : String).utf8ByteSize = 3 := by decide
  omega

theorem not_mem_gutter (number : Nat) : '\n' ∉ (gutter number).toList := by
  rw [gutter, Text.padLeft]
  simp only [String.toList_append, Text.toList_pushn, List.mem_append, List.mem_replicate]
  rintro ((h | ⟨-, h⟩ | h) | h)
  · simp at h
  · simp at h
  · exact absurd (Text.isDigit_of_mem_toString h) (by decide)
  · simp at h

/-- A column of a line of a script that fits into memory breaks no rendering. -/
theorem fault?_eq_none {e : Excerpt} {line : String} (hline : line ∈ Text.lines e.source)
    (hfirst : 1 ≤ e.loc.column) (hlast : e.loc.column ≤ line.utf8ByteSize + 1)
    (hsource : e.source.utf8ByteSize + 7 ≤ memory) (hlength : e.length ≤ memory) :
    e.fault? = none := by
  have hle := (Text.utf8ByteSize_le_of_mem_lines hline).2
  have hmemory : memory < Word.half := by decide
  rw [fault?, margin]
  split
  · rfl
  · rw [if_neg, if_neg]
    · simp only [Bool.or_eq_true, decide_eq_true_eq]
      omega
    · simp only [Bool.or_eq_true, decide_eq_true_eq]
      omega

/-- For every line of a script and every column of it, up to the one behind its last: an excerpt shows
the line behind a gutter and right below it a line whose first caret stands as many columns left of the
shown column as the line number has digits more than three. So the caret is under the column exactly up
to line 999. Columns count bytes, and escape codes do not count. -/
theorem caret_beneath {e : Excerpt} {i : Nat} {line : String} (hloc : e.loc.line = i + 1)
    (hline : (Text.lines e.source)[i]? = some line) (hfirst : 1 ≤ e.loc.column)
    (hlast : e.loc.column ≤ line.utf8ByteSize + 1) :
    e.text = e.textIn .terminal ∧
      (e.source.utf8ByteSize + 7 ≤ memory → e.length ≤ memory → e.fault? = none) ∧
      ∃ front gutter carets back,
        e.textIn .blank = front ++ "\n" ++ (gutter ++ line) ++ "\n" ++ carets ++ "\n" ++ back ∧
        '\n' ∉ (gutter ++ line).toList ∧ '\n' ∉ carets.toList ∧ '^' ∈ carets.toList ∧
        carets.toList.idxOf '^' + ((toString (i + 1)).length - 3 : Nat) =
          gutter.utf8ByteSize + (e.loc.column - 1) ∧
        (carets.toList.idxOf '^' = gutter.utf8ByteSize + (e.loc.column - 1) ↔ e.loc.line ≤ 999) := by
  obtain ⟨hhas, front, back, ⟨front, rfl⟩, htext⟩ := textIn_shows .blank hloc hline
  have hmem : line ∈ Text.lines e.source := List.mem_of_getElem? hline
  have hlf := (Text.utf8ByteSize_le_of_mem_lines hmem).1
  obtain ⟨hcaret, hidx⟩ := e.idxOf_carets
  have hwide := @Text.length_toString_le (i + 1)
  have hgutter := utf8ByteSize_gutter (i + 1)
  refine ⟨text_eq e, fault?_eq_none hmem hfirst hlast, front, gutter (i + 1), e.carets, back,
    ?_, ?_, ?_, hcaret, ?_, ?_⟩
  · rw [htext, lineIn_blank (by rw [hloc]; rfl)]
    simp only [String.append_assoc]
  · rw [String.toList_append, List.mem_append, not_or]
    exact ⟨not_mem_gutter _, hlf⟩
  · rw [toList_carets, List.mem_append, List.mem_replicate, List.mem_replicate]
    simp
  · rw [hidx, hgutter, margin]
    omega
  · rw [hidx, hgutter, margin, hloc]
    omega

/-- An error about the last line of a script of thousand lines. -/
def late : Excerpt :=
  ⟨"boom", "f", ⟨1000, 1⟩, 1, String.ofList (List.replicate 999 '\n' ++ ['x'])⟩

/-- The caret stands one column too far left. -/
theorem caret_beneath_late :
    (Text.lines late.source)[999]? = some "x" ∧ late.fault? = none ∧
      ∃ front gutter carets back,
        late.textIn .blank = front ++ "\n" ++ (gutter ++ "x") ++ "\n" ++ carets ++ "\n" ++ back ∧
        '\n' ∉ (gutter ++ "x").toList ∧ '\n' ∉ carets.toList ∧ '^' ∈ carets.toList ∧
        carets.toList.idxOf '^' + 1 = gutter.utf8ByteSize := by
  have hline : (Text.lines late.source)[999]? = some "x" := by
    rw [late, Text.lines, String.toList_ofList]
    decide +kernel
  have hsize : late.source.utf8ByteSize = 1000 := by
    rw [← Text.length_bytes, late, Text.bytes_ofList]
    decide +kernel
  obtain ⟨-, hfault, front, gutter, carets, back, htext, hshown, hbelow, hcaret, hplace, -⟩ :=
    caret_beneath (e := late) (i := 999) rfl hline (by decide) (by decide)
  refine ⟨hline, hfault ?_ (by decide), front, gutter, carets, back, htext, hshown, hbelow, hcaret, ?_⟩
  · rw [hsize]
    decide
  · have hdigits : (toString (999 + 1)).length = 4 := by decide
    rw [hdigits] at hplace
    have hcolumn : late.loc.column = 1 := rfl
    omega

end Excerpt

end ProofScript
