import ProofScript.Program.Position
import ProofScript.Proofs.Decoding
import Mathlib.Data.List.TakeWhile

/-!
# Extents of nodes

The rows of a layout are its nodes in preorder, each with the number of nodes around it, the text
printed for it and its span. The spans of rows nest as the nodes do. So the nodes around an offset
lie in each other, and the last of them in preorder is the deepest.
-/

namespace ProofScript.Program

/-! ## Positions after a text -/

namespace Position

theorem foldl_step_offset (p : Position) (n : Nat) (cs : List Char) :
    cs.foldl step { p with offset := n } = { cs.foldl step p with offset := n } := by
  induction cs generalizing p with
  | nil => rfl
  | cons c cs ih =>
    have hstep : step { p with offset := n } c = { step p c with offset := n } := by
      unfold step
      split <;> rfl
    rw [List.foldl_cons, List.foldl_cons, hstep, ih]

@[simp]
theorem advance_offset (p : Position) (s : String) :
    (p.advance s).offset = p.offset + s.utf8ByteSize := rfl

@[simp]
theorem advance_empty (p : Position) : p.advance "" = p := rfl

theorem advance_append (p : Position) (s t : String) :
    p.advance (s ++ t) = (p.advance s).advance t := by
  simp only [advance, foldl_step_offset, String.toList_append, List.foldl_append,
    String.utf8ByteSize_append, Nat.add_assoc]

end Position

/-- The position of an offset is the one that the text in front of it leads to. -/
theorem Printed.locate_of_append {p : Printed} {before after : String}
    (h : p.text = before ++ after) :
    p.locate before.utf8ByteSize = Position.start.advance before := by
  have hle : before.utf8ByteSize ≤ p.text.utf8ByteSize := by
    rw [h, String.utf8ByteSize_append]
    exact Nat.le_add_right _ _
  have htake : (Text.bytes p.text).take before.utf8ByteSize = Text.bytes before := by
    rw [h, Text.bytes_append, ← Text.length_bytes, List.take_left]
  rw [locate, Int.toNat_natCast, Nat.min_eq_left hle, htake, Text.decode_bytes, Position.advance]
  simp [Position.start]

/-! ## Rows -/

/-- A node of a printed tree: the number of nodes around it, its tag and the text printed for
it. -/
structure Site where
  level : Nat
  tag : NodeTag
  text : String
deriving DecidableEq, Repr, Inhabited

namespace Layout

mutual

/-- The nodes of a layout in preorder, where `level` nodes are around it. -/
def sites (level : Nat) : Layout → List Site
  | text _ => []
  | gap _ => []
  | node tag parts => ⟨level, tag, toTextAll parts⟩ :: sitesAll (level + 1) parts

/-- The nodes of parts in order. -/
def sitesAll (level : Nat) : List Layout → List Site
  | [] => []
  | p :: rest => p.sites level ++ sitesAll level rest

end

mutual

/-- The nodes of a layout with their spans, where its text starts at a given position. -/
def rows (level : Nat) (start : Position) : Layout → List (Site × Span)
  | text _ => []
  | gap _ => []
  | node tag parts =>
    (⟨level, tag, toTextAll parts⟩, ⟨tag, start, start.advance (toTextAll parts)⟩)
      :: rowsAll (level + 1) start parts

/-- The nodes of parts in order with their spans. -/
def rowsAll (level : Nat) (start : Position) : List Layout → List (Site × Span)
  | [] => []
  | p :: rest => p.rows level start ++ rowsAll level (start.advance p.toText) rest

end

mutual

theorem map_fst_rows (level : Nat) (start : Position) :
    (l : Layout) → (l.rows level start).map Prod.fst = l.sites level
  | text _ => rfl
  | gap _ => rfl
  | node tag parts => by
    rw [rows, List.map_cons, map_fst_rowsAll (level + 1) start parts, sites]

theorem map_fst_rowsAll (level : Nat) (start : Position) :
    (parts : List Layout) → (rowsAll level start parts).map Prod.fst = sitesAll level parts
  | [] => rfl
  | p :: rest => by
    rw [rowsAll, List.map_append, map_fst_rows level start p, map_fst_rowsAll level _ rest,
      sitesAll]

end

mutual

theorem map_snd_rows (level : Nat) (start : Position) :
    (l : Layout) → (l.rows level start).map Prod.snd = l.spans start
  | text _ => rfl
  | gap _ => rfl
  | node tag parts => by
    rw [rows, List.map_cons, map_snd_rowsAll (level + 1) start parts, spans]

theorem map_snd_rowsAll (level : Nat) (start : Position) :
    (parts : List Layout) → (rowsAll level start parts).map Prod.snd = spansAll start parts
  | [] => rfl
  | p :: rest => by
    rw [rowsAll, List.map_append, map_snd_rows level start p, map_snd_rowsAll level _ rest,
      spansAll]

end

/-! ## Texts of rows -/

/-- A span whose tag and text are those of a site in a whole text. -/
def Placed (whole : String) (row : Site × Span) : Prop :=
  ∃ before after, whole = before ++ row.1.text ++ after ∧
    row.2 = ⟨row.1.tag, Position.start.advance before,
      Position.start.advance (before ++ row.1.text)⟩

mutual

theorem placed_rows (level : Nat) (before after : String) :
    (l : Layout) → ∀ row ∈ l.rows level (Position.start.advance before),
      Placed (before ++ l.toText ++ after) row
  | text _ => by simp [rows]
  | gap _ => by simp [rows]
  | node tag parts => by
    rw [rows]
    refine List.forall_mem_cons.mpr ⟨⟨before, after, rfl, ?_⟩, ?_⟩
    · rw [Position.advance_append]
    · exact placed_rowsAll (level + 1) before after parts

theorem placed_rowsAll (level : Nat) (before after : String) :
    (parts : List Layout) → ∀ row ∈ rowsAll level (Position.start.advance before) parts,
      Placed (before ++ toTextAll parts ++ after) row
  | [] => by simp [rowsAll]
  | p :: rest => by
    have hfirst := placed_rows level before (toTextAll rest ++ after) p
    have hrest := placed_rowsAll level (before ++ p.toText) after rest
    rw [rowsAll, toTextAll]
    rw [Position.advance_append] at hrest
    simp only [String.append_assoc] at hfirst hrest ⊢
    exact List.forall_mem_append.mpr ⟨hfirst, hrest⟩

end

/-! ## Nesting -/

/-- In preorder, the nodes inside a node are those that follow it and are deeper, up to the first
that is not. Their spans lie in its span, and all later spans start where it has stopped. -/
def Nested : List (Site × Span) → Prop
  | [] => True
  | (site, span) :: rest =>
    (∀ row ∈ rest.takeWhile (site.level < ·.1.level),
        span.start.offset ≤ row.2.start.offset ∧ row.2.stop.offset ≤ span.stop.offset)
      ∧ (∀ row ∈ rest.dropWhile (site.level < ·.1.level),
        span.stop.offset ≤ row.2.start.offset)
      ∧ Nested rest

/-- Rows of nodes beside each other at a level, between two offsets. -/
structure Forest (level start stop : Nat) (rows : List (Site × Span)) : Prop where
  head : ∀ row ∈ rows.head?, row.1.level = level
  level : ∀ row ∈ rows, level ≤ row.1.level
  bounds : ∀ row ∈ rows, start ≤ row.2.start.offset ∧ row.2.stop.offset ≤ stop
  nested : Nested rows

namespace Forest

variable {level start middle stop : Nat} {xs ys : List (Site × Span)}

theorem nil : Forest level start stop [] where
  head := by simp
  level := by simp
  bounds := by simp
  nested := trivial

theorem stops (h : Forest level start stop ys) {n : Nat} (hn : level ≤ n) :
    ys.takeWhile (n < ·.1.level) = [] ∧ ys.dropWhile (n < ·.1.level) = ys := by
  cases ys with
  | nil => exact ⟨rfl, rfl⟩
  | cons row rest =>
    have hlevel : row.1.level = level := h.head row rfl
    have hnot : ¬n < row.1.level := by omega
    exact ⟨List.takeWhile_cons_of_neg (by simpa using hnot),
      List.dropWhile_cons_of_neg (by simpa using hnot)⟩

end Forest

theorem nested_append {level start stop : Nat} {xs ys : List (Site × Span)} (hx : Nested xs)
    (hlevel : ∀ row ∈ xs, level ≤ row.1.level)
    (hbounds : ∀ row ∈ xs, row.2.stop.offset ≤ start) (hy : Forest level start stop ys) :
    Nested (xs ++ ys) := by
  induction xs with
  | nil => exact hy.nested
  | cons x xs ih =>
    obtain ⟨site, span⟩ := x
    obtain ⟨hinside, hbehind, hrest⟩ := hx
    rw [List.forall_mem_cons] at hlevel hbounds
    obtain ⟨htake, hdrop⟩ := hy.stops hlevel.1
    rw [List.cons_append]
    refine ⟨?_, ?_, ih hrest hlevel.2 hbounds.2⟩
    · rw [List.takeWhile_append, htake, List.append_nil]
      split
      · next hall =>
        rw [(List.takeWhile_prefix _).eq_of_length hall] at hinside
        exact hinside
      · exact hinside
    · have hys : ∀ row ∈ ys, span.stop.offset ≤ row.2.start.offset := fun row hrow =>
        Nat.le_trans hbounds.1 (hy.bounds row hrow).1
      rw [List.dropWhile_append, hdrop]
      split
      · exact hys
      · exact List.forall_mem_append.mpr ⟨hbehind, hys⟩

namespace Forest

variable {level start middle stop : Nat} {xs ys : List (Site × Span)}

theorem append (hx : Forest level start middle xs) (hy : Forest level middle stop ys)
    (hstart : start ≤ middle) (hstop : middle ≤ stop) : Forest level start stop (xs ++ ys) where
  head := by
    rw [List.head?_append]
    intro row hrow
    cases h : xs.head? with
    | none => exact hy.head row (by simpa [h] using hrow)
    | some x => exact hx.head row (by simpa [h] using hrow)
  level := List.forall_mem_append.mpr ⟨hx.level, hy.level⟩
  bounds := by
    refine List.forall_mem_append.mpr ⟨fun row hrow => ?_, fun row hrow => ?_⟩
    · exact ⟨(hx.bounds row hrow).1, Nat.le_trans (hx.bounds row hrow).2 hstop⟩
    · exact ⟨Nat.le_trans hstart (hy.bounds row hrow).1, (hy.bounds row hrow).2⟩
  nested :=
    nested_append hx.nested hx.level (fun row hrow => (hx.bounds row hrow).2) hy

/-- A node around a forest. -/
theorem node (site : Site) (span : Span)
    (h : Forest (site.level + 1) span.start.offset span.stop.offset xs) :
    Forest site.level span.start.offset span.stop.offset ((site, span) :: xs) where
  head := by simp
  level := by
    refine List.forall_mem_cons.mpr ⟨Nat.le.refl, fun row hrow => ?_⟩
    exact Nat.le_of_succ_le (h.level row hrow)
  bounds := List.forall_mem_cons.mpr ⟨⟨Nat.le.refl, Nat.le.refl⟩, h.bounds⟩
  nested := by
    have hall : ∀ row ∈ xs, decide (site.level < row.1.level) = true := fun row hrow =>
      decide_eq_true (h.level row hrow)
    refine ⟨?_, ?_, h.nested⟩
    · rw [List.takeWhile_eq_self_iff.mpr hall]
      exact h.bounds
    · rw [List.dropWhile_eq_nil_iff.mpr hall]
      simp

end Forest

mutual

theorem forest_rows (level : Nat) (start : Position) :
    (l : Layout) →
      Forest level start.offset (start.advance l.toText).offset (l.rows level start)
  | text _ => .nil
  | gap _ => .nil
  | node tag parts =>
    .node ⟨level, tag, toTextAll parts⟩ ⟨tag, start, start.advance (toTextAll parts)⟩
      (forest_rowsAll (level + 1) start parts)

theorem forest_rowsAll (level : Nat) (start : Position) :
    (parts : List Layout) →
      Forest level start.offset (start.advance (toTextAll parts)).offset (rowsAll level start parts)
  | [] => .nil
  | p :: rest => by
    have hfirst := forest_rows level start p
    have hrest := forest_rowsAll level (start.advance p.toText) rest
    rw [rowsAll, toTextAll, Position.advance_append]
    exact hfirst.append hrest (Nat.le_add_right _ _) (Nat.le_add_right _ _)

end

end Layout

/-! ## The deepest node around an offset -/

/-- Does a span contain an offset? -/
def Span.Contains (s : Span) (offset : Int) : Prop :=
  s.start.offset ≤ offset ∧ offset < s.stop.offset

instance (s : Span) (offset : Int) : Decidable (s.Contains offset) :=
  inferInstanceAs (Decidable (_ ∧ _))

/-- The number of bytes of a span. -/
def Span.size (s : Span) : Nat := s.stop.offset - s.start.offset

/-- The place that the deepest node around an offset stems from, of all those that stem from
one. -/
def Deepest (rows : List (Site × Span)) (offset : Int) : Option Location → Prop
  | none => ∀ row ∈ rows, row.2.Contains offset → row.1.tag.origin = none
  | some o => ∃ before site span after, rows = before ++ (site, span) :: after
      ∧ span.Contains offset ∧ site.tag.origin = some o
      ∧ ∀ row ∈ before ++ after, row.2.Contains offset → row.1.tag.origin ≠ none →
        row.1.level < site.level

/-- Of two nodes around an offset, the later one in preorder lies in the earlier one. -/
def Inner (offset : Int) (outer inner : Site × Span) : Prop :=
  outer.2.Contains offset → inner.2.Contains offset →
    outer.1.level < inner.1.level ∧ inner.2.size ≤ outer.2.size

theorem Layout.Nested.inner {rows : List (Site × Span)} (h : Layout.Nested rows) (offset : Int) :
    rows.Pairwise (Inner offset) := by
  induction rows with
  | nil => exact .nil
  | cons row rest ih =>
    obtain ⟨site, span⟩ := row
    obtain ⟨hinside, hbehind, hrest⟩ := h
    refine .cons (fun later hlater houter hinner => ?_) (ih hrest)
    rw [← List.takeWhile_append_dropWhile (p := fun row => decide (site.level < row.1.level))
      (l := rest), List.mem_append] at hlater
    simp only [Span.Contains] at houter hinner
    rcases hlater with hlater | hlater
    · have hwithin := hinside later hlater
      have hlevel := List.mem_takeWhile_imp hlater
      refine ⟨by simpa using hlevel, ?_⟩
      show later.2.stop.offset - later.2.start.offset ≤ span.stop.offset - span.start.offset
      omega
    · have hapart := hbehind later hlater
      omega

namespace Printed

theorem shorter_of_skipped {offset : Int} {s : Span} (best : Option (Nat × Location))
    (h : s.Contains offset → s.tag.origin = none) : shorter offset best s = best := by
  unfold shorter
  split
  · rfl
  · next o ho =>
    rw [if_pos]
    have hnot : ¬s.Contains offset := fun hc => by simp [h hc] at ho
    simp only [Span.Contains] at hnot
    omega

theorem shorter_of_contains {offset : Int} {s : Span} {o : Location}
    {best : Option (Nat × Location)} (hs : s.Contains offset) (ho : s.tag.origin = some o)
    (hbest : ∀ b ∈ best, s.size ≤ b.1) : shorter offset best s = some (s.size, o) := by
  have hin : ¬(offset < s.start.offset ∨ s.stop.offset ≤ offset) := by
    simp only [Span.Contains] at hs
    omega
  unfold shorter
  rw [ho]
  simp only [if_neg hin]
  cases best with
  | none => rfl
  | some b => exact if_pos (hbest b rfl)

/-- The search ends at the last row around an offset that has an origin. -/
theorem foldl_shorter {offset : Int} {rows : List (Site × Span)} (best : Option (Nat × Location))
    (htag : ∀ row ∈ rows, row.2.tag = row.1.tag) (hrows : rows.Pairwise (Inner offset))
    (hbest : ∀ b ∈ best, ∀ row ∈ rows, row.2.Contains offset → row.2.size ≤ b.1) :
    ((∀ row ∈ rows, row.2.Contains offset → row.1.tag.origin = none) ∧
      (rows.map Prod.snd).foldl (shorter offset) best = best) ∨
    ∃ before site span after o, rows = before ++ (site, span) :: after ∧ span.Contains offset
      ∧ site.tag.origin = some o
      ∧ (∀ row ∈ after, row.2.Contains offset → row.1.tag.origin = none)
      ∧ (rows.map Prod.snd).foldl (shorter offset) best = some (span.size, o) := by
  induction rows generalizing best with
  | nil => exact .inl ⟨by simp, rfl⟩
  | cons row rest ih =>
    obtain ⟨site, span⟩ := row
    rw [List.forall_mem_cons] at htag
    rw [List.pairwise_cons] at hrows
    rw [List.map_cons, List.foldl_cons]
    by_cases hskip : span.Contains offset → site.tag.origin = none
    · rw [shorter_of_skipped best (by rw [htag.1]; exact hskip)]
      rcases ih best htag.2 hrows.2 fun b hb row hrow => hbest b hb row (by simp [hrow]) with
        ⟨hnone, hfold⟩ | ⟨before, site', span', after, o, rfl, hfound⟩
      · exact .inl ⟨List.forall_mem_cons.mpr ⟨hskip, hnone⟩, hfold⟩
      · exact .inr ⟨(site, span) :: before, site', span', after, o, rfl, hfound⟩
    · rw [Classical.not_imp] at hskip
      obtain ⟨hs, horigin⟩ := hskip
      obtain ⟨o, ho⟩ := Option.ne_none_iff_exists'.mp horigin
      have hnext : shorter offset best span = some (span.size, o) :=
        shorter_of_contains hs (by rw [htag.1]; exact ho)
          fun b hb => hbest b hb (site, span) (by simp) hs
      rw [hnext]
      rcases ih (some (span.size, o)) htag.2 hrows.2 fun b hb row hrow hin => by
          obtain rfl := Option.mem_some.mp hb
          exact (hrows.1 row hrow hs hin).2 with
        ⟨hnone, hfold⟩ | ⟨before, site', span', after, o', rfl, hfound⟩
      · exact .inr ⟨[], site, span, rest, o, rfl, hs, ho, hnone, hfold⟩
      · exact .inr ⟨(site, span) :: before, site', span', after, o', rfl, hfound⟩

/-- The search over nested rows finds the deepest node. -/
theorem deepest_of_nested {offset : Int} {rows : List (Site × Span)}
    (htag : ∀ row ∈ rows, row.2.tag = row.1.tag) (hnested : Layout.Nested rows) :
    Deepest rows offset (((rows.map Prod.snd).foldl (shorter offset) none).map Prod.snd) := by
  have hinner := hnested.inner offset
  rcases foldl_shorter none htag hinner (by simp) with
    ⟨hnone, hfold⟩ | ⟨before, site, span, after, o, rfl, hs, ho, hafter, hfold⟩
  · rw [hfold]
    exact hnone
  · rw [hfold]
    refine ⟨before, site, span, after, rfl, hs, ho, ?_⟩
    intro row hrow hin horigin
    rcases List.mem_append.mp hrow with hrow | hrow
    · exact ((List.pairwise_append.mp hinner).2.2 row hrow (site, span) (by simp) hin hs).1
    · exact absurd (hafter row hrow hin) horigin

end Printed

end ProofScript.Program
