import Mathlib.Data.List.Infix
import Mathlib.Data.List.TakeWhile
import ProofScript.Diagnostic.Output

/-!
# A compiler's output is read back

What a compiler reports, line by line, with or without a place, each report perhaps followed by indented
lines that continue its message and by lines that say nothing, is read as it was reported: no report is
taken for the continuation of another, and no continuation goes to the wrong one. A line with a place is
read from its last mark on, so only what stands behind the mark must have none.
-/

namespace ProofScript

open Program

namespace Diagnostic

/-! ## Reports -/

/-- A nonempty run of digits. -/
def Digits (ds : List Char) : Prop := ds ≠ [] ∧ ds.all Char.isDigit = true

/-- `error TSn: ` -/
def label (number : List Char) : List Char :=
  'e' :: 'r' :: 'r' :: 'o' :: 'r' :: ' ' :: 'T' :: 'S' :: (number ++ [':', ' '])

/-- `(line,column): error TSn: ` -/
def mark (line column number : List Char) : List Char :=
  '(' :: (line ++ ',' :: (column ++ ')' :: ':' :: ' ' :: label number))

/-- A text that has a mark somewhere. -/
def Marked (cs : List Char) : Prop :=
  ∃ line column number, Digits line ∧ Digits column ∧ Digits number ∧ mark line column number <:+: cs

/-- A text that starts with a label. -/
def Labelled (cs : List Char) : Prop := ∃ number message, Digits number ∧ cs = label number ++ message

/-- A line that follows a report: a text within white space that continues the message, or any other. -/
inductive Remark where
  | continuation (indent text trail : List Char)
  | other (line : List Char)

namespace Remark

/-- The line itself. -/
def line : Remark → List Char
  | continuation indent text trail => indent ++ text ++ trail
  | other line => line

/-- What the line adds to the message. -/
def text? : Remark → Option (List Char)
  | continuation _ text _ => some text
  | other _ => none

/-- A continuation is indented, its text is all but the white space at its ends, and it has no mark. Any
other line is not indented, and reports nothing of its own. -/
def Legible : Remark → Prop
  | continuation indent text trail =>
    (indent.head? = some ' ' ∨ indent.head? = some '\t') ∧
      (indent ++ trail).all Text.isSpace = true ∧
      text.head?.any (!Text.isSpace ·) = true ∧ text.getLast?.any (!Text.isSpace ·) = true ∧
      ¬Marked (indent ++ text ++ trail)
  | other line =>
    line.head? ≠ some ' ' ∧ line.head? ≠ some '\t' ∧ ¬Marked line ∧ ¬Labelled line

end Remark

/-- A place as a compiler writes it: any text, and the digits of a line and a column. -/
structure Place where
  front : List Char
  line : List Char
  column : List Char

/-- A report, with a place or without, and the lines behind it. -/
structure Report where
  place : Option Place
  number : List Char
  message : List Char
  remarks : List Remark

/-- A message and the texts that continue it, each on a line of its own. -/
def joined (message : List Char) (texts : List (List Char)) : String :=
  String.ofList (List.intercalate ['\n'] (message :: texts))

namespace Report

/-- The first line of a report. -/
def head (r : Report) : List Char :=
  match r.place with
  | some q => q.front ++ mark q.line q.column r.number ++ r.message
  | none => label r.number ++ r.message

/-- The lines of a report. -/
def lines (r : Report) : List (List Char) := r.head :: r.remarks.map Remark.line

/-- The numbers of a report are numbers, those of its place fit a word, and the message has no mark. -/
structure Legible (r : Report) : Prop where
  number : Digits r.number
  place : ∀ q ∈ r.place, Digits q.line ∧ Digits q.column ∧
    Text.digitsValue q.line < Word.half ∧ Text.digitsValue q.column < Word.half
  message : ¬Marked r.message
  remarks : ∀ k ∈ r.remarks, k.Legible

/-- The byte offset of a report, negative where its place is outside the program or it has none. -/
def offset (p : Printed) (r : Report) : Int :=
  match r.place with
  | some q => p.offsetOf (Text.digitsValue q.line) (Text.digitsValue q.column)
  | none => -1

/-- What a report says about a program. -/
def diagnostic (p : Printed) (r : Report) : Diagnostic where
  code := "TS" ++ String.ofList r.number
  message := joined r.message (r.remarks.filterMap Remark.text?)
  position := if 0 ≤ r.offset p then some (p.locate (r.offset p)) else none
  origin := if 0 ≤ r.offset p then p.originAt (r.offset p) else none

end Report

/-- Lines as they are written: without line feeds and carriage returns, each ended by a line feed or by
both, in less than 64 KiB. -/
inductive Written : List (List Char) → List Char → Prop
  | nil : Written [] []
  | lineFeed {line text : List Char} {lines : List (List Char)} :
    '\n' ∉ line → '\r' ∉ line → (String.ofList line).utf8ByteSize + 1 < 65536 → Written lines text →
      Written (line :: lines) (line ++ '\n' :: text)
  | both {line text : List Char} {lines : List (List Char)} :
    '\n' ∉ line → '\r' ∉ line → (String.ofList line).utf8ByteSize + 2 < 65536 → Written lines text →
      Written (line :: lines) (line ++ '\r' :: '\n' :: text)

/-! ## Marks and labels -/

theorem after?_eq_some {word : String} {cs rest : List Char} :
    after? word cs = some rest ↔ cs = word.toList ++ rest := by
  rw [after?, ← String.length_toList]
  constructor
  · intro h
    split at h
    · rename_i hpre
      obtain ⟨more, rfl⟩ := List.isPrefixOf_iff_prefix.mp hpre
      rw [List.drop_left, Option.some.injEq] at h
      rw [h]
    · cases h
  · rintro rfl
    rw [if_pos (List.isPrefixOf_iff_prefix.mpr (List.prefix_append ..)), List.drop_left]

/-- Digits are read up to the first character that is none. -/
theorem digits?_eq_some {cs ds rest : List Char} : digits? cs = some (ds, rest) ↔
    Digits ds ∧ (∀ c ∈ rest.head?, c.isDigit = false) ∧ cs = ds ++ rest := by
  constructor
  · intro h
    rw [digits?] at h
    split at h
    · cases h
    · rename_i hne
      obtain ⟨rfl, rfl⟩ := Prod.mk.inj (Option.some.inj h)
      refine ⟨⟨by simpa using hne, List.all_eq_true.mpr fun d hd => ?_⟩, fun c hc => ?_, ?_⟩
      · exact List.mem_takeWhile_imp hd
      · have hnot := List.head?_dropWhile_not Char.isDigit cs
        rw [Option.mem_def.mp hc] at hnot
        exact hnot
      · exact List.takeWhile_append_dropWhile.symm
  · rintro ⟨⟨hne, hds⟩, hrest, rfl⟩
    have htake : rest.takeWhile Char.isDigit = [] ∧ rest.dropWhile Char.isDigit = rest := by
      cases rest with
      | nil => exact ⟨rfl, rfl⟩
      | cons c more =>
        have hc : c.isDigit = false := hrest c rfl
        exact ⟨List.takeWhile_cons_of_neg (by simp [hc]), List.dropWhile_cons_of_neg (by simp [hc])⟩
    rw [List.all_eq_true] at hds
    rw [digits?, List.takeWhile_append_of_pos hds, List.dropWhile_append_of_pos hds, htake.1, htake.2,
      List.append_nil, if_neg (by simpa using hne)]

/-- A label is read where it stands, and only there. -/
theorem general?_eq_some {cs code message : List Char} : general? cs = some (code, message) ↔
    ∃ number, Digits number ∧ code = 'T' :: 'S' :: number ∧ cs = label number ++ message := by
  have herror : "error ".toList = ['e', 'r', 'r', 'o', 'r', ' '] := by decide +kernel
  have hts : "TS".toList = ['T', 'S'] := by decide +kernel
  have hcolon : ": ".toList = [':', ' '] := by decide +kernel
  simp only [general?, bind, Option.bind_eq_some_iff, after?_eq_some, digits?_eq_some, herror, hts,
    hcolon, Prod.exists, pure, Option.some.injEq, Prod.mk.injEq]
  constructor
  · rintro ⟨_, rfl, _, rfl, number, rest, ⟨hnumber, -, rfl⟩, _, rfl, rfl, rfl⟩
    exact ⟨number, hnumber, rfl, by simp [label]⟩
  · rintro ⟨number, hnumber, rfl, rfl⟩
    refine ⟨_, rfl, _, rfl, number, ':' :: ' ' :: message, ⟨hnumber, ?_, by simp⟩, message, rfl, rfl, rfl⟩
    simp

/-- A text is read as a report without a place exactly where it starts with a label. -/
theorem general?_eq_none {cs : List Char} : general? cs = none ↔ ¬Labelled cs := by
  simp only [Option.eq_none_iff_forall_not_mem, Option.mem_def, Prod.forall, general?_eq_some, Labelled]
  constructor
  · rintro h ⟨number, message, hnumber, hcs⟩
    exact h _ message ⟨number, hnumber, rfl, hcs⟩
  · rintro h _ message ⟨number, hnumber, -, hcs⟩
    exact h ⟨number, message, hnumber, hcs⟩

/-- A mark is read where it stands, and only there. -/
theorem placedHere?_eq_some {cs : List Char} {found : OutputLine} : placedHere? cs = some found ↔
    ∃ line column number message, Digits line ∧ Digits column ∧ Digits number ∧
      found = .placed (clamped line) (clamped column) ('T' :: 'S' :: number) message ∧
      cs = mark line column number ++ message := by
  have hopen : "(".toList = ['('] := by decide +kernel
  have hcomma : ",".toList = [','] := by decide +kernel
  have hclose : "): ".toList = [')', ':', ' '] := by decide +kernel
  simp only [placedHere?, bind, Option.bind_eq_some_iff, after?_eq_some, digits?_eq_some, hopen, hcomma,
    hclose, general?_eq_some, Prod.exists, pure, Option.some.injEq]
  constructor
  · rintro ⟨_, rfl, line, _, ⟨hline, -, rfl⟩, _, rfl, column, _, ⟨hcolumn, -, rfl⟩, _, rfl, code, message,
      ⟨number, hnumber, rfl, rfl⟩, rfl⟩
    exact ⟨line, column, number, message, hline, hcolumn, hnumber, rfl, by simp [mark]⟩
  · rintro ⟨line, column, number, message, hline, hcolumn, hnumber, rfl, rfl⟩
    refine ⟨_, rfl, line, ',' :: (column ++ ')' :: ':' :: ' ' :: (label number ++ message)),
      ⟨hline, by simp, by simp⟩, _, rfl, column, ')' :: ':' :: ' ' :: (label number ++ message),
      ⟨hcolumn, by simp, rfl⟩, _, rfl, _, message, ⟨number, hnumber, rfl, rfl⟩, rfl⟩

/-- A text has a mark if it starts with one or has one later. -/
theorem marked_cons {c : Char} {rest : List Char} :
    Marked (c :: rest) ↔ (∃ found, placedHere? (c :: rest) = some found) ∨ Marked rest := by
  simp only [Marked, List.infix_cons_iff]
  constructor
  · rintro ⟨line, column, number, hline, hcolumn, hnumber, ⟨message, hstart⟩ | hlater⟩
    · exact .inl ⟨_, placedHere?_eq_some.mpr
        ⟨line, column, number, message, hline, hcolumn, hnumber, rfl, hstart.symm⟩⟩
    · exact .inr ⟨line, column, number, hline, hcolumn, hnumber, hlater⟩
  · rintro (⟨found, hfound⟩ | ⟨line, column, number, hline, hcolumn, hnumber, hlater⟩)
    · obtain ⟨line, column, number, message, hline, hcolumn, hnumber, -, hcs⟩ :=
        placedHere?_eq_some.mp hfound
      exact ⟨line, column, number, hline, hcolumn, hnumber, .inl ⟨message, hcs.symm⟩⟩
    · exact ⟨line, column, number, hline, hcolumn, hnumber, .inr hlater⟩

theorem not_marked_nil : ¬Marked [] := by
  rintro ⟨line, column, number, -, -, -, h⟩
  exact absurd (List.infix_nil.mp h) (List.cons_ne_nil _ _)

/-- A text is read as a report with a place exactly where it has a mark. -/
theorem placed?_eq_none : ∀ {cs : List Char}, placed? cs = none ↔ ¬Marked cs
  | [] => by simp [placed?, not_marked_nil]
  | c :: rest => by
    -- The search goes on behind every character, and a mark at the front counts only if none is later.
    rw [placed?, marked_cons, not_or, ← placed?_eq_none, ← Option.isSome_iff_exists]
    cases hrest : placed? rest <;> simp

/-- What a mark behind any text says is read, where none stands behind its start. -/
theorem placed?_append {c : Char} {tail : List Char} {found : OutputLine} (htail : ¬Marked tail)
    (hfound : placedHere? (c :: tail) = some found) :
    ∀ front : List Char, placed? (front ++ c :: tail) = some found
  | [] => by rw [List.nil_append, placed?, placed?_eq_none.mpr htail]; exact hfound
  | d :: front => by rw [List.cons_append, placed?, placed?_append htail hfound front]

/-- A mark starts with a parenthesis, so that one behind a text without any is one of what follows. -/
theorem not_marked_append {message : List Char} (hmessage : ¬Marked message) :
    ∀ {word : List Char}, '(' ∉ word → ¬Marked (word ++ message)
  | [], _ => hmessage
  | c :: word, hword => by
    rw [List.cons_append, marked_cons]
    rintro (⟨found, hfound⟩ | hlater)
    · obtain ⟨line, column, number, rest, -, -, -, -, hcs⟩ := placedHere?_eq_some.mp hfound
      exact hword (by rw [(List.cons.inj hcs).1]; exact List.mem_cons_self)
    · exact not_marked_append hmessage (fun hmem => hword (List.mem_cons_of_mem _ hmem)) hlater

theorem Digits.not_mem_paren {ds : List Char} (h : Digits ds) : '(' ∉ ds :=
  fun hmem => absurd (List.all_eq_true.mp h.2 _ hmem) (by decide)

theorem not_mem_label {number : List Char} (h : Digits number) : '(' ∉ label number := by
  simp [label, h.not_mem_paren]

instance (ds : List Char) : Decidable (Digits ds) := inferInstanceAs (Decidable (_ ∧ _))

instance (cs : List Char) : Decidable (Marked cs) :=
  decidable_of_iff (placed? cs ≠ none) (by rw [ne_eq, placed?_eq_none, not_not])

instance (cs : List Char) : Decidable (Labelled cs) :=
  decidable_of_iff (general? cs ≠ none) (by rw [ne_eq, general?_eq_none, not_not])

instance : ∀ k : Remark, Decidable k.Legible
  | .continuation _ _ _ => inferInstanceAs (Decidable (_ ∧ _))
  | .other _ => inferInstanceAs (Decidable (_ ∧ _))

instance (r : Report) : Decidable r.Legible :=
  decidable_of_iff (Digits r.number ∧ (∀ q ∈ r.place, Digits q.line ∧ Digits q.column ∧
      Text.digitsValue q.line < Word.half ∧ Text.digitsValue q.column < Word.half) ∧
      ¬Marked r.message ∧ ∀ k ∈ r.remarks, k.Legible)
    ⟨fun ⟨hnumber, hplace, hmessage, hremarks⟩ => ⟨hnumber, hplace, hmessage, hremarks⟩,
      fun h => ⟨h.number, h.place, h.message, h.remarks⟩⟩

/-! ## What a line is -/

/-- A carriage return at the end of a line does not count. -/
theorem classify_return (line : List Char) : classify (line ++ ['\r']) = classify line := by
  rw [classify, classify, List.reverse_append, List.reverse_singleton, List.singleton_append,
    List.dropWhile_cons_of_pos (by rfl)]

theorem stripped_eq {line : List Char} (h : '\r' ∉ line) :
    (line.reverse.dropWhile (· == '\r')).reverse = line := by
  rw [List.dropWhile_eq_self_iff.mpr, List.reverse_reverse]
  intro hpos hlast
  exact h (List.mem_reverse.mp (beq_iff_eq.mp hlast ▸ List.getElem_mem hpos))

theorem clamped_of_lt {ds : List Char} (h : Text.digitsValue ds < Word.half) :
    clamped ds = Text.digitsValue ds := by
  rw [clamped]
  omega

/-- The first line of a report is read as the report. -/
theorem extend_head {p : Printed} {r : Report} (hr : r.Legible) (hreturn : '\r' ∉ r.head)
    (found : List Diagnostic) : extend p found (classify r.head) =
      .atOffset p (r.offset p) ("TS" ++ String.ofList r.number) (String.ofList r.message) :: found := by
  have hcode : String.ofList ('T' :: 'S' :: r.number) = "TS" ++ String.ofList r.number := by
    rw [← String.toList_inj]
    simp
  rw [classify, stripped_eq hreturn]
  cases hplace : r.place with
  | some q =>
    obtain ⟨hline, hcolumn, hl, hc⟩ := hr.place q hplace
    -- The rest of the mark has no parenthesis, so a later mark would be one of the message. What stands
    -- in front may have any.
    have htail : ¬Marked (q.line ++ ',' :: (q.column ++ ')' :: ':' :: ' ' :: label r.number)
        ++ r.message) :=
      not_marked_append hr.message (by
        simp [hline.not_mem_paren, hcolumn.not_mem_paren, not_mem_label hr.number])
    have hread : placed? r.head = some (.placed (clamped q.line) (clamped q.column)
        ('T' :: 'S' :: r.number) r.message) := by
      rw [Report.head, hplace]
      simp only [mark, List.append_assoc, List.cons_append] at htail ⊢
      exact placed?_append htail (placedHere?_eq_some.mpr
        ⟨q.line, q.column, r.number, r.message, hline, hcolumn, hr.number, rfl, by simp [mark]⟩) q.front
    simp only [hread, extend, clamped_of_lt hl, clamped_of_lt hc, hcode, Report.offset, hplace]
  | none =>
    have hhead : r.head = label r.number ++ r.message := by rw [Report.head, hplace]
    have hplaced : placed? r.head = none := by
      rw [hhead, placed?_eq_none]
      exact not_marked_append hr.message (not_mem_label hr.number)
    have hgeneral : general? r.head = some ('T' :: 'S' :: r.number, r.message) :=
      general?_eq_some.mpr ⟨r.number, hr.number, rfl, hhead⟩
    simp only [hplaced, hgeneral, extend, hcode, Report.offset, hplace]

/-- White space around a text is trimmed, and nothing of the text. -/
theorem trimBy_append {indent text trail : List Char}
    (hblank : (indent ++ trail).all Text.isSpace = true)
    (hfirst : text.head?.any (!Text.isSpace ·) = true)
    (hlast : text.getLast?.any (!Text.isSpace ·) = true) :
    Text.trimBy Text.isSpace (indent ++ text ++ trail) = text := by
  obtain ⟨c, hc, hcspace⟩ := (Option.any_eq_true _ _).mp hfirst
  obtain ⟨d, hd, hdspace⟩ := (Option.any_eq_true _ _).mp hlast
  obtain ⟨more, rfl⟩ := List.head?_eq_some_iff.mp hc
  obtain ⟨more', hmore'⟩ := List.head?_eq_some_iff.mp (List.head?_reverse.trans hd)
  rw [Bool.not_eq_true'] at hcspace hdspace
  rw [List.all_eq_true] at hblank
  rw [Text.trimBy, List.append_assoc,
    List.dropWhile_append_of_pos (fun x hx => hblank x (List.mem_append_left _ hx)), List.cons_append,
    List.dropWhile_cons_of_neg (by simp [hcspace]), ← List.cons_append, List.reverse_append,
    List.dropWhile_append_of_pos
      (fun x hx => hblank x (List.mem_append_right _ (List.mem_reverse.mp hx))), hmore',
    List.dropWhile_cons_of_neg (by simp [hdspace]), ← hmore', List.reverse_reverse]

/-- A line behind a report is read as the continuation that it is, or says nothing. -/
theorem classify_remark {k : Remark} (hk : k.Legible) (hreturn : '\r' ∉ k.line) :
    classify k.line = k.text?.elim .noise .continuation := by
  rw [classify, stripped_eq hreturn]
  cases k with
  | continuation indent text trail =>
    obtain ⟨hindent, hblank, hfirst, hlast, hmark⟩ := hk
    have htrim := trimBy_append hblank hfirst hlast
    have htext : text.isEmpty = false := by
      cases text with
      | nil => cases hfirst
      | cons => rfl
    obtain ⟨c, rest, rfl, hc⟩ : ∃ c rest, indent = c :: rest ∧ (c = ' ' ∨ c = '\t') := by
      obtain h | h := hindent
      · obtain ⟨rest, rfl⟩ := List.head?_eq_some_iff.mp h
        exact ⟨_, rest, rfl, .inl rfl⟩
      · obtain ⟨rest, rfl⟩ := List.head?_eq_some_iff.mp h
        exact ⟨_, rest, rfl, .inr rfl⟩
    -- A label starts with a letter, where this line has white space.
    have hlabel : ¬Labelled (c :: rest ++ text ++ trail) := by
      rintro ⟨number, message, -, hcs⟩
      obtain rfl | rfl := hc <;> exact absurd (List.cons.inj hcs).1 (by decide)
    have hc' : (c == ' ' || c == '\t') = true := by
      obtain rfl | rfl := hc <;> rfl
    simp only [Remark.line, placed?_eq_none.mpr hmark, general?_eq_none.mpr hlabel, htrim]
    simp only [List.cons_append, hc', htext, Remark.text?, Bool.not_false, Bool.and_self, if_true,
      Option.elim_some]
  | other line =>
    obtain ⟨hspace, htab, hmark, hlabel⟩ := hk
    simp only [Remark.line, placed?_eq_none.mpr hmark, general?_eq_none.mpr hlabel, Remark.text?,
      Option.elim_none]
    cases line with
    | nil => rfl
    | cons c rest =>
      have hc : (c == ' ' || c == '\t') = false := by
        simpa only [List.head?_cons, ne_eq, Option.some.injEq, Bool.or_eq_false_iff, beq_eq_false_iff_ne]
          using And.intro hspace htab
      simp only [hc, Bool.false_and, Bool.false_eq_true, if_false]

/-! ## The lines of an output -/

theorem outputLines_append {line : List Char} (h : '\n' ∉ line) (text : List Char) :
    outputLines (line ++ '\n' :: text) = line :: outputLines text := by
  induction line with
  | nil => rw [List.nil_append, outputLines, if_pos rfl]
  | cons c line ih =>
    rw [List.mem_cons, not_or] at h
    rw [List.cons_append, outputLines, if_neg (Ne.symm h.1), ih h.2]

theorem fits_eq (line : List Char) : fits line = decide ((String.ofList line).utf8ByteSize < 65536) := by
  have hcount : ∀ (cs : List Char) (n : Nat),
      cs.foldl (fun n c => n + c.utf8Size) n = n + (String.ofList cs).utf8ByteSize := by
    intro cs
    induction cs with
    | nil => intro n; rfl
    | cons c cs ih =>
      intro n
      rw [List.foldl_cons, ih, String.ofList_cons, String.utf8ByteSize_append,
        String.utf8ByteSize_singleton, Nat.add_assoc]
  rw [fits, hcount, Nat.zero_add]

namespace Written

variable {lines : List (List Char)} {text : List Char}

/-- Lines are written with either end, as one chooses for each. -/
theorem of_lines (both : List Char → Bool) : ∀ {lines : List (List Char)},
    (∀ line ∈ lines, '\n' ∉ line ∧ '\r' ∉ line ∧ (String.ofList line).utf8ByteSize + 2 < 65536) →
      Written lines (lines.flatMap fun line => line ++ if both line then ['\r', '\n'] else ['\n'])
  | [], _ => .nil
  | line :: lines, h => by
    obtain ⟨⟨hfeed, hreturn, hsize⟩, hlines⟩ := List.forall_mem_cons.mp h
    rw [List.flatMap_cons, List.append_assoc]
    cases both line with
    | true => exact .both hfeed hreturn hsize (of_lines both hlines)
    | false => exact .lineFeed hfeed hreturn (by omega) (of_lines both hlines)

/-- Written lines have no carriage return of their own. -/
theorem no_return (h : Written lines text) : ∀ line ∈ lines, '\r' ∉ line := by
  induction h with
  | nil => simp
  | lineFeed _ hreturn _ _ ih => exact List.forall_mem_cons.mpr ⟨hreturn, ih⟩
  | both _ hreturn _ _ ih => exact List.forall_mem_cons.mpr ⟨hreturn, ih⟩

theorem fits_outputLines (h : Written lines text) : ∀ line ∈ outputLines text, fits line = true := by
  induction h with
  | nil => simp [outputLines]
  | lineFeed hfeed _ hsize _ ih =>
    rw [outputLines_append hfeed]
    exact List.forall_mem_cons.mpr ⟨by rw [fits_eq]; exact decide_eq_true (by omega), ih⟩
  | @both line text _ hfeed _ hsize _ ih =>
    have hreturn : (String.ofList ['\r']).utf8ByteSize = 1 := by decide
    rw [List.append_cons, outputLines_append (by simp [hfeed])]
    refine List.forall_mem_cons.mpr ⟨?_, ih⟩
    rw [fits_eq, String.ofList_append, String.utf8ByteSize_append, hreturn]
    exact decide_eq_true (by omega)

/-- Written lines are read as what they are, whatever ends them. -/
theorem classify_outputLines (h : Written lines text) :
    (outputLines text).map classify = lines.map classify := by
  induction h with
  | nil => rfl
  | lineFeed hfeed _ _ _ ih => rw [outputLines_append hfeed, List.map_cons, List.map_cons, ih]
  | both hfeed _ _ _ ih =>
    -- The carriage return is part of the line that is found, and not of what it says.
    rw [List.append_cons, outputLines_append (by simp [hfeed]), List.map_cons, List.map_cons, ih,
      classify_return]

/-- What is read of an output is what its lines say, one after the other. -/
theorem ofOutput_eq (p : Printed) {output : String} (h : Written lines output.toList) :
    ofOutput p output = ((lines.map classify).foldl (extend p) []).reverse := by
  rw [ofOutput, List.takeWhile_eq_self_iff.mpr h.fits_outputLines, h.classify_outputLines]

end Written

/-! ## Reports from their lines -/

@[simp] theorem joined_nil (message : List Char) : joined message [] = String.ofList message := by
  simp [joined, List.intercalate]

/-- A text that continues a message is part of it for the next one. -/
theorem joined_cons (message text : List Char) (texts : List (List Char)) :
    joined message (text :: texts) = joined (message ++ '\n' :: text) texts := by
  cases texts <;> simp [joined, List.intercalate]

/-- A line behind a report only adds its text to the last message. -/
theorem extend_remark (p : Printed) {k : Remark} (hk : k.Legible) (hreturn : '\r' ∉ k.line)
    (d : Diagnostic) (earlier : List Diagnostic) : extend p (d :: earlier) (classify k.line) =
      { d with message := d.message.map fun m => joined m.toList k.text?.toList } :: earlier := by
  rw [classify_remark hk hreturn]
  cases k with
  | continuation indent text trail =>
    have hmessage : ∀ m : String, m ++ "\n" ++ String.ofList text = joined m.toList [text] := by
      intro m
      rw [joined_cons, joined_nil, ← String.toList_inj]
      simp
    simp only [Remark.text?, Option.elim_some, extend, hmessage, Option.toList_some]
  | other line => simp [Remark.text?, extend]

/-- The lines behind a report add their texts to the last message, one after the other. -/
theorem foldl_extend_remarks (p : Printed) (earlier : List Diagnostic) : ∀ {remarks : List Remark},
    (∀ k ∈ remarks, k.Legible) → (∀ k ∈ remarks, '\r' ∉ k.line) → ∀ d : Diagnostic,
      ((remarks.map Remark.line).map classify).foldl (extend p) (d :: earlier) =
        { d with message := d.message.map fun m =>
            joined m.toList (remarks.filterMap Remark.text?) } :: earlier
  | [], _, _, d => by simp
  | k :: remarks, hlegible, hreturn, d => by
    -- The first line changes the last diagnostic, so that the claim about the others is one about any.
    obtain ⟨hk, hlegible⟩ := List.forall_mem_cons.mp hlegible
    obtain ⟨hkreturn, hreturn⟩ := List.forall_mem_cons.mp hreturn
    rw [List.map_cons, List.map_cons, List.foldl_cons, extend_remark p hk hkreturn,
      foldl_extend_remarks p earlier hlegible hreturn]
    cases htext : k.text? with
    | none => simp [htext]
    | some text => simp [List.filterMap_cons_some htext, joined_cons, Wording.map]

/-- The lines of a report are read as one report, whatever was read before. -/
theorem foldl_extend_report (p : Printed) {r : Report} (hr : r.Legible)
    (hreturn : ∀ line ∈ r.lines, '\r' ∉ line) (found : List Diagnostic) :
    (r.lines.map classify).foldl (extend p) found = r.diagnostic p :: found := by
  obtain ⟨hhead, hremarks⟩ := List.forall_mem_cons.mp hreturn
  rw [Report.lines, List.map_cons, List.foldl_cons, extend_head hr hhead,
    foldl_extend_remarks p found hr.remarks (fun k hk => hremarks _ (List.mem_map_of_mem hk))]
  by_cases hneg : r.offset p < 0
  · simp [Report.diagnostic, atOffset, hneg, Int.not_le.mpr hneg]
  · simp [Report.diagnostic, atOffset, hneg, Int.not_lt.mp hneg]

/-- The lines of reports are read as these reports, in order. -/
theorem foldl_extend_reports (p : Printed) : ∀ {reports : List Report}, (∀ r ∈ reports, r.Legible) →
    (∀ line ∈ reports.flatMap Report.lines, '\r' ∉ line) → ∀ found : List Diagnostic,
      ((reports.flatMap Report.lines).map classify).foldl (extend p) found =
        (reports.map (Report.diagnostic p)).reverse ++ found
  | [], _, _, found => rfl
  | r :: reports, hlegible, hreturn, found => by
    obtain ⟨hr, hlegible⟩ := List.forall_mem_cons.mp hlegible
    rw [List.flatMap_cons, List.forall_mem_append] at hreturn
    rw [List.flatMap_cons, List.map_append, List.foldl_append, foldl_extend_report p hr hreturn.1,
      foldl_extend_reports p hlegible hreturn.2, List.map_cons, List.reverse_cons, List.append_assoc,
      List.singleton_append]

/-- A place in a program is found within it. -/
theorem offsetOf_le (p : Printed) (line column : Int) :
    p.offsetOf line column ≤ p.text.utf8ByteSize := by
  rw [Printed.offsetOf]
  split
  · omega
  · split
    · omega
    · simp only
      split
      · assumption
      · split <;> omega

/-- The offset of a report with a place in the program is the one that its diagnostic names. -/
theorem locate_offset (p : Printed) {r : Report} (h : 0 ≤ r.offset p) :
    ((p.locate (r.offset p)).offset : Int) = r.offset p := by
  have hle : r.offset p ≤ p.text.utf8ByteSize := by
    rw [Report.offset]
    cases r.place with
    | some q => exact offsetOf_le p _ _
    | none =>
      simp only
      omega
  simp only [Printed.locate]
  omega

/-- **Reports are read back as they were written.** Any reports, with a place or without, each perhaps
followed by lines that continue its message and by others that say nothing, written with either line end,
are read as one diagnostic each, in order: the code, the message with its own continuations, and the place
in the program where there is one. -/
theorem ofOutput_written {p : Printed} {reports : List Report} {output : String}
    (hlegible : ∀ r ∈ reports, r.Legible)
    (hwritten : Written (reports.flatMap Report.lines) output.toList) :
    ofOutput p output = reports.map (Report.diagnostic p) ∧
      ∀ r ∈ reports, 0 ≤ r.offset p → ((p.locate (r.offset p)).offset : Int) = r.offset p := by
  refine ⟨?_, fun r _ hr => locate_offset p hr⟩
  rw [hwritten.ofOutput_eq, foldl_extend_reports p hlegible hwritten.no_return, List.append_nil,
    List.reverse_reverse]

/-- Reports with a place in the program, with one outside it and without any; the second one goes on
after a line that says nothing. -/
def sampled : List Report :=
  [ { place := some ⟨"a (1,2)/p.ts".toList, ['1'], ['1', '1']⟩
      number := "2304".toList
      message := "Cannot find it.".toList
      remarks := [] },
    { place := some ⟨"p.ts".toList, ['1'], ['7']⟩
      number := "2322".toList
      message := "Not assignable.".toList
      remarks := [.other "Checking.".toList, .continuation [' ', '\t'] "It is another.".toList [' ']] },
    { place := none
      number := "5023".toList
      message := "Unknown option.".toList
      remarks := [] },
    { place := some ⟨"p.ts".toList, ['9'], ['1']⟩
      number := "1005".toList
      message := "Expected.".toList
      remarks := [.other "Found 4 errors.".toList] } ]

/-- The program of these reports. -/
def assigned : Printed :=
  { stmts := []
    text := "const x = y;\n"
    spans := [⟨⟨.ident, some ⟨3, 7⟩⟩, ⟨10, 1, 11⟩, ⟨11, 1, 12⟩⟩] }

/-- The reports, with both line ends in one output. -/
theorem ofOutput_written_sampled : (∀ r ∈ sampled, r.Legible) ∧
    ∃ output : String, Written (sampled.flatMap Report.lines) output.toList ∧
      ofOutput assigned output =
        [⟨"TS2304", "Cannot find it.", some ⟨10, 1, 11⟩, some ⟨3, 7⟩⟩,
          ⟨"TS2322", "Not assignable.\nIt is another.", some ⟨6, 1, 7⟩, none⟩,
          ⟨"TS5023", "Unknown option.", none, none⟩, ⟨"TS1005", "Expected.", none, none⟩] := by
  have hlegible : ∀ r ∈ sampled, r.Legible := by decide +kernel
  have hlines : ∀ line ∈ sampled.flatMap Report.lines,
      '\n' ∉ line ∧ '\r' ∉ line ∧ (String.ofList line).utf8ByteSize + 2 < 65536 := by decide +kernel
  have hwritten := Written.of_lines (fun line => line.contains '(') hlines
  rw [← String.toList_ofList (l := List.flatMap _ _)] at hwritten
  refine ⟨hlegible, _, hwritten, ?_⟩
  rw [(ofOutput_written (p := assigned) hlegible hwritten).1]
  decide +kernel

end Diagnostic

end ProofScript
