import Mathlib.Algebra.Ring.Nat
import Mathlib.Data.List.TakeWhile
import ProofScript.Proofs.Lines
import ProofScript.Proofs.RoundTrip
import ProofScript.Server

/-!
# Formatting a document

A request to format a document is answered with no edit, or with one edit of the whole text, which
ends at a position that the server counts itself. The server counts line feeds; an editor, like the
scanner, also ends a line at a carriage return that no line feed follows. So the edit reaches the
end of the text exactly when there is no such carriage return: the lines that it counts are then
those of the editor, and on the last one bytes are never too few.
-/

namespace ProofScript.Server

/-! ## Positions as an editor reads them -/

/-- What an editor counts the characters of a line in. -/
inductive PositionUnit where
  | utf8
  | utf16
  | utf32
deriving DecidableEq, Repr

/-- The number of units that a character takes. -/
def PositionUnit.width : PositionUnit → Char → Nat
  | utf8, c => c.utf8Size
  | utf16, c => if c.val ≤ 0xFFFF then 1 else 2
  | utf32, _ => 1

/-- Does a line end behind the character? A carriage return and a line feed are one line end. -/
def endsLine (c : Char) (after : List Char) : Bool :=
  c = '\n' || c = '\r' && after.head? ≠ some '\n'

/-- The number of characters in front of a position. A position past the end of its line is the end
of this line. -/
def offset (unit : PositionUnit) : Nat → Nat → List Char → Nat
  | _, _, [] => 0
  | 0, k, c :: cs =>
    if c = '\n' ∨ c = '\r' ∨ k < unit.width c then 0
    else offset unit 0 (k - unit.width c) cs + 1
  | n + 1, k, c :: cs => offset unit (if endsLine c cs then n else n + 1) k cs + 1

/-- The number of characters in front of an editor position. -/
def offsetOf (unit : PositionUnit) (p : TextPosition) (cs : List Char) : Nat :=
  offset unit p.line.toNat p.character.toNat cs

/-- The text with an edit made in it. -/
def TextEdit.applyTo (unit : PositionUnit) (e : TextEdit) (text : String) : String :=
  String.ofList (text.toList.take (offsetOf unit e.range.start text.toList) ++ e.text.toList
    ++ text.toList.drop (offsetOf unit e.range.stop text.toList))

/-- Does a line feed follow every carriage return? -/
def pairedReturns : List Char → Bool
  | [] => true
  | c :: cs => (c ≠ '\r' || cs.head? = some '\n') && pairedReturns cs

section Offsets

variable {unit : PositionUnit} {n k : Nat} {c : Char} {cs : List Char}

theorem PositionUnit.width_pos (unit : PositionUnit) (c : Char) : 0 < unit.width c := by
  cases unit with
  | utf8 => exact c.utf8Size_pos
  | utf16 =>
    rw [width]
    split <;> decide
  | utf32 => exact Nat.one_pos

/-- No unit is smaller than a byte. -/
theorem PositionUnit.width_le (unit : PositionUnit) (c : Char) :
    unit.width c ≤ (String.utf8EncodeChar c).length := by
  rw [String.length_utf8EncodeChar]
  cases unit with
  | utf8 => exact Nat.le_refl _
  | utf16 =>
    have hlarge : ¬c.val ≤ 0xFFFF → c.utf8Size = 4 := by
      intro h
      rw [UInt32.le_iff_toNat_le] at h
      simp only [Char.utf8Size, UInt32.le_iff_toNat_le]
      rw [if_neg, if_neg, if_neg]
      all_goals simp at h ⊢; omega
    rw [width]
    split
    · exact c.utf8Size_pos
    · next h => rw [hlarge h]; decide
  | utf32 => exact c.utf8Size_pos

theorem endsLine_lineFeed (after : List Char) : endsLine '\n' after = true := rfl

theorem offset_start (unit : PositionUnit) (cs : List Char) : offset unit 0 0 cs = 0 := by
  cases cs with
  | nil => rfl
  | cons c cs => rw [offset, if_pos (.inr (.inr (unit.width_pos c)))]

theorem offset_le_length (unit : PositionUnit) (n k : Nat) (cs : List Char) :
    offset unit n k cs ≤ cs.length := by
  fun_induction offset unit n k cs with
  | case1 => exact Nat.le_refl _
  | case2 => exact Nat.zero_le _
  | case3 _ _ _ _ ih => exact Nat.succ_le_succ ih
  | case4 _ _ _ _ ih => exact Nat.succ_le_succ ih

/-- A position on a line that a line feed ends does not reach the end of the text. -/
theorem offset_lt_length (h : n < cs.count '\n') : offset unit n k cs < cs.length := by
  fun_induction offset unit n k cs with
  | case1 => simp at h
  | case2 => exact Nat.zero_lt_succ _
  | case3 k c cs hc ih =>
    rw [List.count_cons_of_ne fun heq => hc (.inl heq)] at h
    exact Nat.succ_lt_succ (ih h)
  | case4 n k c cs ih =>
    refine Nat.succ_lt_succ (ih ?_)
    by_cases hlf : c = '\n'
    · subst hlf
      rw [List.count_cons_self] at h
      rw [if_pos (endsLine_lineFeed cs)]
      exact Nat.lt_of_succ_lt_succ h
    · rw [List.count_cons_of_ne hlf] at h
      split <;> omega

/-- The units behind the last line feed. -/
def lastWidth (unit : PositionUnit) (cs : List Char) : Nat :=
  ((cs.reverse.takeWhile (· ≠ '\n')).map unit.width).sum

theorem lastWidth_eq (h : '\n' ∉ cs) : lastWidth unit cs = (cs.map unit.width).sum := by
  have hall : ∀ c ∈ cs.reverse, decide (c ≠ '\n') = true := by
    intro c hc
    rw [List.mem_reverse] at hc
    exact decide_eq_true fun heq => h (heq ▸ hc)
  rw [lastWidth, List.takeWhile_eq_self_iff.mpr hall, List.map_reverse, List.sum_reverse]

theorem lastWidth_le_cons (unit : PositionUnit) (c : Char) (cs : List Char) :
    lastWidth unit cs ≤ lastWidth unit (c :: cs) := by
  rw [lastWidth, lastWidth, List.reverse_cons, List.takeWhile_append]
  split
  · next hlength =>
    rw [(List.takeWhile_prefix _).eq_of_length hlength, List.map_append, List.sum_append]
    exact Nat.le_add_right _ _
  · exact Nat.le_refl _

/-- On the only line, a position that is far enough on reaches the end of the text unless a carriage
return stands in between. -/
theorem offset_zero_eq_length_iff (h : '\n' ∉ cs) (hk : (cs.map unit.width).sum ≤ k) :
    offset unit 0 k cs = cs.length ↔ pairedReturns cs = true := by
  induction cs generalizing k with
  | nil => simp [offset, pairedReturns]
  | cons c cs ih =>
    rw [List.mem_cons, not_or] at h
    rw [List.map_cons, List.sum_cons] at hk
    have hhead : cs.head? ≠ some '\n' := fun heq => h.2 (List.mem_of_head? heq)
    by_cases hcr : c = '\r'
    · subst hcr
      simp [offset, pairedReturns, hhead]
    · have hstep : ¬(c = '\n' ∨ c = '\r' ∨ k < unit.width c) := by
        rintro (heq | heq | hlt)
        · exact h.1 heq.symm
        · exact hcr heq
        · omega
      rw [offset, if_neg hstep, List.length_cons, Nat.succ_inj, ih h.2 (by omega)]
      simp [pairedReturns, hcr]

/-- The line with the number of the line feeds, far enough on, is the end of the text exactly if
line feeds end all lines. -/
theorem offset_eq_length_iff (hk : lastWidth unit cs ≤ k) :
    offset unit (cs.count '\n') k cs = cs.length ↔ pairedReturns cs = true := by
  induction cs with
  | nil => simp [offset, pairedReturns]
  | cons c cs ih =>
    have hrest := ih (Nat.le_trans (lastWidth_le_cons unit c cs) hk)
    by_cases hmem : '\n' ∈ c :: cs
    · obtain ⟨n, hn⟩ := Nat.exists_eq_add_one.mpr (List.count_pos_iff.mpr hmem)
      rw [hn, offset, List.length_cons, Nat.succ_inj]
      by_cases hlf : c = '\n'
      · subst hlf
        rw [List.count_cons_self, Nat.succ_inj] at hn
        rw [← hn, if_pos (endsLine_lineFeed cs), hrest]
        simp [pairedReturns]
      rw [List.count_cons_of_ne hlf] at hn
      by_cases hlone : c = '\r' ∧ cs.head? ≠ some '\n'
      · -- This line end is not counted, so the position lies a line too early.
        have hlt : offset unit n k cs < cs.length := offset_lt_length (by omega)
        rw [if_pos (by simp [endsLine, hlone])]
        simp [pairedReturns, hlone, hlt.ne]
      · rw [if_neg (by simpa [endsLine, hlf] using hlone), ← hn, hrest]
        have hpaired : (c ≠ '\r' || cs.head? = some '\n') = true := by
          simpa [Classical.or_iff_not_imp_left] using hlone
        rw [pairedReturns, hpaired, Bool.true_and]
    · rw [List.count_eq_zero.mpr hmem]
      rw [lastWidth_eq hmem] at hk
      exact offset_zero_eq_length_iff hmem hk

end Offsets

/-! ## The end of a text -/

/-- The byte of a line feed stands for line feeds only. -/
theorem lineFeed_not_mem_encoded {c : Char} (h : c ≠ '\n') : 0x0A ∉ String.utf8EncodeChar c := by
  by_cases hcr : c = '\r'
  · subst hcr
    decide
  · intro hmem
    exact absurd (Text.not_isLineEnd_of_encoded h hcr _ hmem) (by decide)

theorem count_lineFeed (cs : List Char) :
    (cs.flatMap String.utf8EncodeChar).count 0x0A = cs.count '\n' := by
  induction cs with
  | nil => rfl
  | cons c cs ih =>
    rw [List.flatMap_cons, List.count_append, ih]
    by_cases hlf : c = '\n'
    · subst hlf
      rw [List.count_cons_self, Nat.add_comm]
      rfl
    · rw [List.count_cons_of_ne hlf, List.count_eq_zero.mpr (lineFeed_not_mem_encoded hlf),
        Nat.zero_add]

/-- The bytes behind the last line feed, told on the reversed text. -/
theorem width_takeWhile_le (unit : PositionUnit) (cs : List Char) :
    ((cs.takeWhile (· ≠ '\n')).map unit.width).sum ≤
      ((cs.flatMap (List.reverse ∘ String.utf8EncodeChar)).takeWhile (· ≠ 0x0A)).length := by
  induction cs with
  | nil => exact Nat.le_refl _
  | cons c cs ih =>
    by_cases hlf : c = '\n'
    · subst hlf
      exact Nat.zero_le _
    · have hbytes : ∀ b ∈ (String.utf8EncodeChar c).reverse, decide (b ≠ 0x0A) = true := by
        intro b hb
        rw [List.mem_reverse] at hb
        exact decide_eq_true fun heq => lineFeed_not_mem_encoded hlf (heq ▸ hb)
      rw [List.takeWhile_cons_of_pos (by simpa using hlf), List.flatMap_cons, Function.comp_apply,
        List.takeWhile_append_of_pos hbytes, List.map_cons, List.sum_cons, List.length_append,
        List.length_reverse]
      exact Nat.add_le_add (unit.width_le c) ih

theorem lastWidth_le_endOf (unit : PositionUnit) (text : String) :
    lastWidth unit text.toList ≤ (endOf text).character.toNat := by
  rw [endOf, Text.bytes_eq_flatMap, Int.toNat_natCast, List.reverse_flatMap]
  exact width_takeWhile_le unit text.toList.reverse

/-- What the server takes for the end of a text is its end exactly if a line feed follows every
carriage return. -/
theorem offsetOf_endOf (unit : PositionUnit) (text : String) :
    offsetOf unit (endOf text) text.toList = text.toList.length ↔
      pairedReturns text.toList = true := by
  have hline : (endOf text).line.toNat = text.toList.count '\n' := by
    rw [endOf, Text.bytes_eq_flatMap, Int.toNat_natCast, count_lineFeed]
  rw [offsetOf, hline, offset_eq_length_iff (lastWidth_le_endOf unit text)]

/-- An edit up to what the server takes for the end leaves nothing of the text exactly if a line
feed follows every carriage return. -/
theorem applyTo_endOf (unit : PositionUnit) (text new : String) :
    TextEdit.applyTo unit ⟨⟨⟨0, 0⟩, endOf text⟩, new⟩ text = new ↔
      pairedReturns text.toList = true := by
  have hstart : offsetOf unit ⟨0, 0⟩ text.toList = 0 := offset_start unit text.toList
  rw [TextEdit.applyTo, hstart, List.take_zero, List.nil_append, ← String.toList_inj,
    String.toList_ofList, List.append_right_eq_self, List.drop_eq_nil_iff,
    ← offsetOf_endOf unit text]
  exact ⟨Nat.le_antisymm (offset_le_length _ _ _ _), Nat.le_of_eq ∘ Eq.symm⟩

/-! ## Requests -/

section Requests

variable {text : String} {systemF : Bool} {d : Document}

theorem formattingEdits_of_parse (h : parse (Text.bytes text) systemF = .ok d) :
    formattingEdits text systemF =
      if d.text = text then [] else [⟨⟨⟨0, 0⟩, endOf text⟩, d.text⟩] := by
  rw [formattingEdits, h]

/-- The layout of a document that was read needs no edit. -/
theorem formattingEdits_layout {src : List UInt8} (h : parse src systemF = .ok d) :
    formattingEdits d.text systemF = [] := by
  obtain ⟨ts, hts, htext⟩ := documentText_of_text h
  obtain ⟨d', hd', herase⟩ := parse_of_documentText hts htext
  have hsame : d'.text = d.text := by rw [← d'.text_erase, herase, d.text_erase]
  rw [formattingEdits_of_parse hd', if_pos hsame]

theorem format?_eq_of_parse {src : List UInt8} (h : parse src systemF = .ok d) :
    d.format? = some d.text := by
  obtain ⟨ts, -, htext⟩ := documentText_of_parse h
  exact format?_eq_of_documentText htext

theorem formatting_of_find? {s : Server} {uri : String} {doc : OpenDocument}
    (h : s.find? uri = some doc) :
    s.formatting uri = .ok (.edits (formattingEdits doc.text doc.systemF)) := by
  rw [formatting, h]

/-- A document that can be read is formatted by no edit, where it has its layout already, or by one
edit. An editor that makes this edit has the layout exactly if a line feed follows every carriage
return of the text. The layout itself needs no edit, wherever it is opened in the same mode. -/
theorem formatting_settles (unit : PositionUnit) {s : Server} {uri : String} {doc : OpenDocument}
    (hdoc : s.find? uri = some doc) (hparse : parse (Text.bytes doc.text) doc.systemF = .ok d) :
    ∃ layout edits, d.format? = some layout ∧ s.formatting uri = .ok (.edits edits) ∧
      (edits = [] ∧ doc.text = layout ∨
        ∃ e, edits = [e] ∧
          (e.applyTo unit doc.text = layout ↔ pairedReturns doc.text.toList = true)) ∧
      ∀ (s' : Server) uri' doc', s'.find? uri' = some doc' → doc'.text = layout →
        doc'.systemF = doc.systemF → s'.formatting uri' = .ok (.edits []) := by
  refine ⟨d.text, _, format?_eq_of_parse hparse, formatting_of_find? hdoc, ?_, ?_⟩
  · rw [formattingEdits_of_parse hparse]
    by_cases hsame : d.text = doc.text
    · exact .inl ⟨if_pos hsame, hsame.symm⟩
    · exact .inr ⟨_, if_neg hsame, applyTo_endOf unit doc.text d.text⟩
  · intro s' uri' doc' hdoc' htext hmode
    rw [formatting_of_find? hdoc', htext, hmode, formattingEdits_layout hparse]

/-- A script whose first line ends at a carriage return. -/
def returnScript : String := "theorem t : P => P\rassume p : P \x7b by p \x7d"

/-- The edit of such a script ends on its first line, so the rest stays behind the layout. -/
theorem formatting_settles_return :
    ∃ d layout e, parse (Text.bytes returnScript) false = .ok d ∧ d.format? = some layout ∧
      formatting ⟨[("file:///a.proof", ⟨returnScript, 1, false, none⟩)]⟩ "file:///a.proof" =
        .ok (.edits [e]) ∧ e.applyTo .utf16 returnScript ≠ layout := by
  have hdoc : find? ⟨[("file:///a.proof", ⟨returnScript, 1, false, none⟩)]⟩ "file:///a.proof" =
    some ⟨returnScript, 1, false, none⟩ := rfl
  have hsome : formattingEdits returnScript false ≠ [] := by decide +kernel
  have hreturn : pairedReturns returnScript.toList ≠ true := by decide +kernel
  have hok : (parse (Text.bytes returnScript) false).isOk = true := by decide +kernel
  cases hparse : parse (Text.bytes returnScript) false with
  | error e => simp [hparse, Except.isOk, Except.toBool] at hok
  | ok d =>
    obtain ⟨layout, edits, hlayout, hedits, hcases, -⟩ := formatting_settles .utf16 hdoc hparse
    rcases hcases with ⟨rfl, -⟩ | ⟨e, rfl, he⟩
    · rw [formatting_of_find? hdoc, Except.ok.injEq, Answer.edits.injEq] at hedits
      exact absurd hedits hsome
    · exact ⟨d, layout, e, rfl, hlayout, hedits, fun heq => hreturn (he.mp heq)⟩

end Requests

end ProofScript.Server
