import ProofScript.Proofs.Decoding
import ProofScript.Text.Lines

/-!
# Lines of bytes

The bytes of a script break into lines where its characters do. So the lines of the text are the
decoded lines of its bytes, also where some bytes are no encoding.
-/

namespace ProofScript.Text

/-- Puts bytes in front of the first line. -/
def prependLine (w : List UInt8) : List (List UInt8) → List (List UInt8)
  | [] => [w]
  | line :: rest => (w ++ line) :: rest

/-- The lines of a byte sequence. -/
def byteLines : List UInt8 → List (List UInt8)
  | [] => [[]]
  | b :: rest =>
    if b = 0x0A then [] :: byteLines rest
    else if b = 0x0D then
      if rest.head? = some 0x0A then byteLines rest else [] :: byteLines rest
    else prependLine [b] (byteLines rest)

/-- Is the byte a line feed or a carriage return? -/
def isLineEnd (b : UInt8) : Bool := b = 0x0A || b = 0x0D

theorem isLineEnd_eq_false {b : UInt8} : isLineEnd b = false ↔ b ≠ 0x0A ∧ b ≠ 0x0D := by
  simp [isLineEnd]

/-! ## The first line -/

theorem prependLine_eq (w : List UInt8) {line : List UInt8} {rest ls : List (List UInt8)}
    (h : ls = line :: rest) : prependLine w ls = (w ++ line) :: rest := by
  rw [h, prependLine]

theorem byteLines_eq_cons (bs : List UInt8) : ∃ line rest, byteLines bs = line :: rest := by
  fun_induction byteLines bs with
  | case1 => exact ⟨[], [], rfl⟩
  | case2 rest => exact ⟨[], _, rfl⟩
  | case3 rest _ _ ih => exact ih
  | case4 rest => exact ⟨[], _, rfl⟩
  | case5 b rest _ _ ih =>
    obtain ⟨line, ls, hls⟩ := ih
    exact ⟨_, _, prependLine_eq [b] hls⟩

theorem byteLines_lineFeed (rest : List UInt8) :
    byteLines (0x0A :: rest) = [] :: byteLines rest := by
  rw [byteLines, if_pos rfl]

theorem byteLines_return (rest : List UInt8) :
    byteLines (0x0D :: rest) =
      if rest.head? = some 0x0A then byteLines rest else [] :: byteLines rest := by
  rw [byteLines, if_neg (by decide), if_pos rfl]

theorem byteLines_cons {b : UInt8} (h : isLineEnd b = false) (rest : List UInt8) :
    byteLines (b :: rest) = prependLine [b] (byteLines rest) := by
  rw [isLineEnd_eq_false] at h
  rw [byteLines, if_neg h.1, if_neg h.2]

theorem byteLines_append {w : List UInt8} (hw : ∀ b ∈ w, isLineEnd b = false)
    {after line : List UInt8} {ls : List (List UInt8)} (h : byteLines after = line :: ls) :
    byteLines (w ++ after) = (w ++ line) :: ls := by
  induction w with
  | nil => exact h
  | cons b w ih =>
    rw [List.forall_mem_cons] at hw
    rw [List.cons_append, byteLines_cons hw.1, prependLine_eq [b] (ih hw.2)]
    rfl

/-- The first line is what stands in front of the first line end. -/
theorem isPrefix_of_byteLines {bs line : List UInt8} {ls : List (List UInt8)}
    (h : byteLines bs = line :: ls) : line <+: bs := by
  fun_induction byteLines bs generalizing line ls with
  | case1 =>
    obtain ⟨rfl, -⟩ := List.cons.inj h
    exact List.nil_prefix
  | case2 rest =>
    obtain ⟨rfl, -⟩ := List.cons.inj h
    exact List.nil_prefix
  | case3 rest hhead _ ih =>
    obtain ⟨more, rfl⟩ := List.head?_eq_some_iff.mp hhead
    rw [byteLines, if_pos rfl] at h
    obtain ⟨rfl, -⟩ := List.cons.inj h
    exact List.nil_prefix
  | case4 rest =>
    obtain ⟨rfl, -⟩ := List.cons.inj h
    exact List.nil_prefix
  | case5 b rest _ _ ih =>
    obtain ⟨line', ls', hls⟩ := byteLines_eq_cons rest
    rw [prependLine_eq [b] hls] at h
    obtain ⟨rfl, -⟩ := List.cons.inj h
    exact (List.prefix_cons_inj b).mpr (ih hls)

/-- Bytes that do not start with a line feed go on the last line of the bytes in front of them. -/
theorem exists_byteLines_append (front : List UInt8) {rest : List UInt8}
    (h : rest.head? ≠ some 0x0A) :
    ∃ init last, byteLines front = init ++ [last] ∧
      byteLines (front ++ rest) = init ++ prependLine last (byteLines rest) := by
  have hprepend (v w : List UInt8) :
      prependLine (v ++ w) (byteLines rest) = prependLine v (prependLine w (byteLines rest)) := by
    obtain ⟨line, ls, hls⟩ := byteLines_eq_cons rest
    rw [hls, prependLine, prependLine, prependLine, List.append_assoc]
  fun_induction byteLines front with
  | case1 =>
    obtain ⟨line, ls, hls⟩ := byteLines_eq_cons rest
    exact ⟨[], [], rfl, by rw [hls]; exact hls⟩
  | case2 bs ih =>
    obtain ⟨init, last, hfront, hwhole⟩ := ih
    refine ⟨[] :: init, last, by rw [hfront]; rfl, ?_⟩
    rw [List.cons_append, byteLines_lineFeed, hwhole]
    rfl
  | case3 bs hhead _ ih =>
    obtain ⟨init, last, hfront, hwhole⟩ := ih
    refine ⟨init, last, hfront, ?_⟩
    rw [List.cons_append, byteLines_return, if_pos (by rw [List.head?_append, hhead]; rfl), hwhole]
  | case4 bs hhead _ ih =>
    obtain ⟨init, last, hfront, hwhole⟩ := ih
    have hne : (bs ++ rest).head? ≠ some 0x0A := by
      cases bs with
      | nil => exact h
      | cons b bs => exact hhead
    refine ⟨[] :: init, last, by rw [hfront]; rfl, ?_⟩
    rw [List.cons_append, byteLines_return, if_neg hne, hwhole]
    rfl
  | case5 b bs hlf hcr ih =>
    obtain ⟨init, last, hfront, hwhole⟩ := ih
    rw [List.cons_append, byteLines_cons (isLineEnd_eq_false.mpr ⟨hlf, hcr⟩), hwhole, hfront]
    cases init with
    | nil => exact ⟨[], b :: last, rfl, (hprepend [b] last).symm⟩
    | cons line init => exact ⟨(b :: line) :: init, last, rfl, rfl⟩

/-! ## Lines of characters -/

/-- No byte of an encoding ends a line, except in those of the line ends themselves. -/
theorem not_isLineEnd_of_encoded {c : Char} (hlf : c ≠ '\n') (hcr : c ≠ '\r') :
    ∀ b ∈ String.utf8EncodeChar c, isLineEnd b = false := by
  have hc : Char.ofNat c.val.toNat = c := Char.ofNat_toNat c
  have hne {n : Nat} (h : n < 256) (h' : n ≠ 10) (h'' : n ≠ 13) : isLineEnd (UInt8.ofNat n) = false := by
    rw [isLineEnd_eq_false, ne_eq, ne_eq, ← UInt8.toNat_inj, ← UInt8.toNat_inj, toNat_ofNat_byte h]
    exact ⟨h', h''⟩
  have h10 : c.val.toNat ≠ 10 := fun h => hlf (by rw [← hc, h])
  have h13 : c.val.toNat ≠ 13 := fun h => hcr (by rw [← hc, h])
  rw [encodeChar_eq rfl]
  generalize c.val.toNat = v at h10 h13
  split
  · simpa using hne (by omega) h10 h13
  split
  · simp only [List.forall_mem_cons]
    exact ⟨hne (by omega) (by omega) (by omega), hne (by omega) (by omega) (by omega), by simp⟩
  split
  · simp only [List.forall_mem_cons]
    exact ⟨hne (by omega) (by omega) (by omega), hne (by omega) (by omega) (by omega),
      hne (by omega) (by omega) (by omega), by simp⟩
  · simp only [List.forall_mem_cons]
    exact ⟨hne (by omega) (by omega) (by omega), hne (by omega) (by omega) (by omega),
      hne (by omega) (by omega) (by omega), hne (by omega) (by omega) (by omega), by simp⟩

/-- A character whose bytes do not start with a line end is none. -/
theorem Encodes.ne_lineEnd {c : Char} {b : UInt8} {rest : List UInt8} (h : Encodes c (b :: rest))
    (hb : isLineEnd b = false) : c ≠ '\n' ∧ c ≠ '\r' := by
  rw [isLineEnd_eq_false] at hb
  obtain ⟨after, hafter⟩ := h
  have hne {e : Char} {n : UInt8} (h : String.utf8EncodeChar e = [n]) (hb : b ≠ n) : c ≠ e := by
    rintro rfl
    rw [h] at hafter
    exact hb (List.cons.inj hafter).1.symm
  exact ⟨hne rfl hb.1, hne rfl hb.2⟩

/-- What the bytes start with stands on their first line. -/
theorem Encodes.of_byteLines {c : Char} {b : UInt8} {rest line : List UInt8}
    {ls : List (List UInt8)} (h : Encodes c (b :: rest)) (hb : isLineEnd b = false)
    (hline : byteLines (b :: rest) = line :: ls) : Encodes c line := by
  obtain ⟨hlf, hcr⟩ := h.ne_lineEnd hb
  obtain ⟨after, hafter⟩ := h
  obtain ⟨line', ls', hls⟩ := byteLines_eq_cons after
  rw [← hafter, byteLines_append (not_isLineEnd_of_encoded hlf hcr) hls] at hline
  obtain ⟨rfl, -⟩ := List.cons.inj hline
  exact List.prefix_append _ _

theorem decode_lineFeed (rest : List UInt8) : decode (0x0A :: rest) = '\n' :: decode rest :=
  decode_encoded '\n' rest

theorem decode_return (rest : List UInt8) : decode (0x0D :: rest) = '\r' :: decode rest :=
  decode_encoded '\r' rest

/-- A line feed is decoded from its byte only. -/
theorem head?_decode (bs : List UInt8) :
    (decode bs).head? = some '\n' ↔ bs.head? = some 0x0A := by
  cases bs with
  | nil => simp [decode, decodeUpTo]
  | cons b rest =>
    rw [decode_cons, List.head?_cons, List.head?_cons, Option.some_inj, Option.some_inj]
    constructor
    · intro h
      rcases decodeFirst_cases b rest with hc | hstray
      · rw [h] at hc
        obtain ⟨more, hmore⟩ := hc
        exact (List.cons.inj hmore).1.symm
      · rw [hstray] at h
        exact absurd h (by decide)
    · rintro rfl
      rfl

theorem splitChars_lineFeed (cs : List Char) : splitChars ('\n' :: cs) = [] :: splitChars cs := by
  rw [splitChars.eq_def]
  simp only
  rw [if_pos trivial]

theorem splitChars_return (cs : List Char) :
    splitChars ('\r' :: cs) =
      if cs.head? = some '\n' then splitChars cs else [] :: splitChars cs := by
  rw [splitChars.eq_def]
  simp only
  rw [if_neg (by decide), if_pos trivial]
  split
  · rfl
  · next hne => rw [if_neg fun h => hne _ (List.head?_eq_some_iff.mp h).choose_spec]

theorem splitChars_cons {c : Char} (hlf : c ≠ '\n') (hcr : c ≠ '\r') (cs : List Char) :
    splitChars (c :: cs) = consLine c (splitChars cs) := by
  rw [splitChars.eq_def]
  simp only
  rw [if_neg hlf, if_neg hcr]

/-- A character in front, with the bytes that it is decoded from. -/
theorem splitChars_decode_append {c : Char} {w after : List UInt8} (hlf : c ≠ '\n') (hcr : c ≠ '\r')
    (hw : ∀ b ∈ w, isLineEnd b = false) (hdecode : ∀ line, line <+: after →
      decode (w ++ line) = c :: decode line)
    (h : splitChars (decode after) = (byteLines after).map decode) :
    splitChars (decode (w ++ after)) = (byteLines (w ++ after)).map decode := by
  obtain ⟨line, ls, hls⟩ := byteLines_eq_cons after
  rw [hdecode after List.prefix_rfl, splitChars_cons hlf hcr, h, hls, byteLines_append hw hls,
    List.map_cons, consLine, List.map_cons, hdecode line (isPrefix_of_byteLines hls)]

/-- The lines of a text are the decoded lines of its bytes. -/
theorem splitChars_decode (bs : List UInt8) :
    splitChars (decode bs) = (byteLines bs).map decode := by
  induction hn : bs.length using Nat.strongRecOn generalizing bs with
  | ind n ih =>
  subst hn
  cases bs with
  | nil => rfl
  | cons b rest =>
    have hrest := ih rest.length (by simp) rest rfl
    by_cases hlf : b = 0x0A
    · subst hlf
      rw [decode_lineFeed, splitChars_lineFeed, byteLines_lineFeed, hrest]
      rfl
    by_cases hcr : b = 0x0D
    · subst hcr
      rw [decode_return, splitChars_return, byteLines_return, hrest]
      simp only [head?_decode]
      split <;> rfl
    have hb : isLineEnd b = false := isLineEnd_eq_false.mpr ⟨hlf, hcr⟩
    rcases decodeFirst_cases b rest with hc | hstray
    · generalize (decodeFirst (b :: rest)).1 = c at hc
      obtain ⟨hlf, hcr⟩ := hc.ne_lineEnd hb
      obtain ⟨after, hafter⟩ := hc
      have hpos := length_encodeChar_pos c
      have hlen : after.length < (b :: rest).length := by
        rw [← hafter, List.length_append]
        omega
      rw [← hafter]
      exact splitChars_decode_append hlf hcr (not_isLineEnd_of_encoded hlf hcr)
        (fun line _ => decode_encoded c line) (ih after.length hlen after rfl)
    · refine splitChars_decode_append (w := [b]) (by decide) (by decide) (by simpa using hb)
        (fun line hline => decode_stray ?_) hrest
      rcases decodeFirst_cases b line with hc | hc
      · have hprefix := hc.trans ((List.prefix_cons_inj b).mpr hline)
        exact absurd hprefix (not_encodes_of_stray hstray _)
      · exact hc

theorem lines_ofBytes (bs : List UInt8) : lines (ofBytes bs) = (byteLines bs).map ofBytes := by
  rw [lines, ofBytes, String.toList_ofList, splitChars_decode, List.map_map]
  rfl

end ProofScript.Text
