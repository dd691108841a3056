import ProofScript.Proofs.Bytes

/-!
# Decoding

The first character of a byte sequence is the one whose encoding the bytes start with. Where they
start with no encoding, the replacement character stands for one byte. So every text is decoded
from its own bytes.
-/

namespace ProofScript.Text

/-- The bytes start with the encoding of a character. -/
def Encodes (c : Char) (bs : List UInt8) : Prop := String.utf8EncodeChar c <+: bs

/-! ## The tests of the decoder -/

section Tests

variable {b c d e : UInt8}

theorem leadsOne_iff : b < 0x80 ↔ b.toNat ≤ 0x7F := by
  rw [UInt8.lt_iff_toNat_lt]
  exact Nat.lt_succ_iff

theorem isContinuation_iff : isContinuation c = true ↔ 0x80 ≤ c.toNat ∧ c.toNat ≤ 0xBF := by
  simp [isContinuation, UInt8.le_iff_toNat_le]

theorem leadsTwo_iff :
    (0xC2 ≤ b && b ≤ 0xDF && isContinuation c) = true ↔
      (0xC2 ≤ b.toNat ∧ b.toNat ≤ 0xDF) ∧ (0x80 ≤ c.toNat ∧ c.toNat ≤ 0xBF) := by
  rw [Bool.and_eq_true, isContinuation_iff]
  simp [UInt8.le_iff_toNat_le]

theorem leadsThree_iff :
    (0xE0 ≤ b && b ≤ 0xEF && isContinuation c && isContinuation d
      && (b != 0xE0 || 0xA0 ≤ c) && (b != 0xED || c ≤ 0x9F)) = true ↔
      (0xE0 ≤ b.toNat ∧ b.toNat ≤ 0xEF) ∧ (0x80 ≤ c.toNat ∧ c.toNat ≤ 0xBF)
        ∧ (0x80 ≤ d.toNat ∧ d.toNat ≤ 0xBF)
        ∧ (b.toNat = 0xE0 → 0xA0 ≤ c.toNat) ∧ (b.toNat = 0xED → c.toNat ≤ 0x9F) := by
  simp only [Bool.and_eq_true, isContinuation_iff, UInt8.le_iff_toNat_le, Bool.or_eq_true,
    bne_iff_ne, ne_eq, ← UInt8.toNat_inj, decide_eq_true_eq, UInt8.reduceToNat]
  omega

theorem leadsFour_iff :
    (0xF0 ≤ b && b ≤ 0xF4 && isContinuation c && isContinuation d
      && isContinuation e && (b != 0xF0 || 0x90 ≤ c) && (b != 0xF4 || c ≤ 0x8F)) = true ↔
      (0xF0 ≤ b.toNat ∧ b.toNat ≤ 0xF4) ∧ (0x80 ≤ c.toNat ∧ c.toNat ≤ 0xBF)
        ∧ (0x80 ≤ d.toNat ∧ d.toNat ≤ 0xBF) ∧ (0x80 ≤ e.toNat ∧ e.toNat ≤ 0xBF)
        ∧ (b.toNat = 0xF0 → 0x90 ≤ c.toNat) ∧ (b.toNat = 0xF4 → c.toNat ≤ 0x8F) := by
  simp only [Bool.and_eq_true, isContinuation_iff, UInt8.le_iff_toNat_le, Bool.or_eq_true,
    bne_iff_ne, ne_eq, ← UInt8.toNat_inj, decide_eq_true_eq, UInt8.reduceToNat]
  omega

end Tests

/-! ## Encodings are decoded -/

theorem toNat_ofNat_byte {n : Nat} (h : n < 256) : (UInt8.ofNat n).toNat = n :=
  UInt8.toNat_ofNat_of_lt' h

/-- The encoding by the value of the character. -/
theorem encodeChar_eq {c : Char} {v : Nat} (h : c.val.toNat = v) :
    String.utf8EncodeChar c =
      if v ≤ 0x7F then [UInt8.ofNat v]
      else if v ≤ 0x7FF then [UInt8.ofNat (v / 64 % 32 + 192), UInt8.ofNat (v % 64 + 128)]
      else if v ≤ 0xFFFF then
        [UInt8.ofNat (v / 4096 % 16 + 224), UInt8.ofNat (v / 64 % 64 + 128),
          UInt8.ofNat (v % 64 + 128)]
      else
        [UInt8.ofNat (v / 262144 % 8 + 240), UInt8.ofNat (v / 4096 % 64 + 128),
          UInt8.ofNat (v / 64 % 64 + 128), UInt8.ofNat (v % 64 + 128)] := by
  subst h
  rfl

theorem decodeFirst_encodeChar (c : Char) (rest : List UInt8) :
    decodeFirst (String.utf8EncodeChar c ++ rest) = (c, (String.utf8EncodeChar c).length) := by
  have hvalid : c.val.toNat < 0xD800 ∨ 0xDFFF < c.val.toNat ∧ c.val.toNat < 0x110000 := c.valid
  have hc : Char.ofNat c.val.toNat = c := Char.ofNat_toNat c
  rw [encodeChar_eq rfl]
  generalize c.val.toNat = v at hvalid hc
  have hcont (n : Nat) : (UInt8.ofNat (n % 64 + 128)).toNat = n % 64 + 128 :=
    toNat_ofNat_byte (by omega)
  split
  · have hb : (UInt8.ofNat v).toNat = v := toNat_ofNat_byte (by omega)
    simp only [List.cons_append, decodeFirst]
    rw [if_pos (leadsOne_iff.mpr (by omega)), hb, hc]
    rfl
  split
  · have hb : (UInt8.ofNat (v / 64 % 32 + 192)).toNat = v / 64 % 32 + 192 :=
      toNat_ofNat_byte (by omega)
    simp only [List.cons_append, decodeFirst]
    rw [if_neg (by rw [leadsOne_iff]; omega), if_pos (leadsTwo_iff.mpr (by rw [hb, hcont]; omega)),
      payload, hb, hcont, show (v / 64 % 32 + 192) % 32 * 64 + (v % 64 + 128) % 64 = v by omega, hc]
    rfl
  split
  · have hb : (UInt8.ofNat (v / 4096 % 16 + 224)).toNat = v / 4096 % 16 + 224 :=
      toNat_ofNat_byte (by omega)
    simp only [List.cons_append, decodeFirst]
    rw [if_neg (by rw [leadsOne_iff]; omega), if_neg (by rw [leadsTwo_iff]; omega),
      if_pos (leadsThree_iff.mpr (by rw [hb, hcont, hcont]; omega)),
      payload, payload, hb, hcont, hcont,
      show (v / 4096 % 16 + 224) % 16 * 4096 + (v / 64 % 64 + 128) % 64 * 64
        + (v % 64 + 128) % 64 = v by omega, hc]
    rfl
  · have hb : (UInt8.ofNat (v / 262144 % 8 + 240)).toNat = v / 262144 % 8 + 240 :=
      toNat_ofNat_byte (by omega)
    simp only [List.cons_append, decodeFirst]
    rw [if_neg (by rw [leadsOne_iff]; omega), if_neg (by rw [leadsTwo_iff]; omega),
      if_neg (by rw [leadsThree_iff]; omega),
      if_pos (leadsFour_iff.mpr (by rw [hb, hcont, hcont, hcont]; omega)),
      payload, payload, payload, hb, hcont, hcont, hcont,
      show (v / 262144 % 8 + 240) % 8 * 262144 + (v / 4096 % 64 + 128) % 64 * 4096
        + (v / 64 % 64 + 128) % 64 * 64 + (v % 64 + 128) % 64 = v by omega, hc]
    rfl

theorem decodeFirst_of_encodes {c : Char} {bs : List UInt8} (h : Encodes c bs) :
    decodeFirst bs = (c, (String.utf8EncodeChar c).length) := by
  obtain ⟨rest, rfl⟩ := h
  exact decodeFirst_encodeChar c rest

theorem length_encodeChar_pos (c : Char) : 0 < (String.utf8EncodeChar c).length := by
  rw [String.length_utf8EncodeChar]
  exact c.utf8Size_pos

theorem bytes_eq_flatMap (s : String) : bytes s = s.toList.flatMap String.utf8EncodeChar := by
  rw [← bytes_ofList, String.ofList_toList]

theorem length_bytes (s : String) : (bytes s).length = s.utf8ByteSize := by
  rw [bytes_eq, Array.length_toList]
  rfl

/-! ## What is decoded is an encoding -/

theorem toNat_val_ofNat {n : Nat} (h : n < 0xD800 ∨ 0xDFFF < n ∧ n < 0x110000) :
    (Char.ofNat n).val.toNat = n := by
  rw [Char.ofNat, dif_pos h]
  rfl

theorem ofNat_of_toNat {b : UInt8} {n : Nat} (h : n = b.toNat) : UInt8.ofNat n = b := by
  rw [h, UInt8.ofNat_toNat]

section Decoded

variable {b c d e : UInt8} (rest : List UInt8)

theorem encodes_one (h : b < 0x80) : Encodes (Char.ofNat b.toNat) (b :: rest) :=
  ⟨rest, by rw [utf8EncodeChar_ofNat h]; rfl⟩

theorem encodes_two (h : (0xC2 ≤ b && b ≤ 0xDF && isContinuation c) = true) :
    Encodes (Char.ofNat (b.toNat % 32 * 64 + payload c)) (b :: c :: rest) := by
  rw [leadsTwo_iff] at h
  refine ⟨rest, ?_⟩
  rw [payload, encodeChar_eq (toNat_val_ofNat (by omega)), if_neg (by omega), if_pos (by omega),
    ofNat_of_toNat (b := b) (by omega), ofNat_of_toNat (b := c) (by omega)]
  rfl

theorem encodes_three
    (h : (0xE0 ≤ b && b ≤ 0xEF && isContinuation c && isContinuation d
      && (b != 0xE0 || 0xA0 ≤ c) && (b != 0xED || c ≤ 0x9F)) = true) :
    Encodes (Char.ofNat (b.toNat % 16 * 4096 + payload c * 64 + payload d))
      (b :: c :: d :: rest) := by
  rw [leadsThree_iff] at h
  refine ⟨rest, ?_⟩
  rw [payload, payload, encodeChar_eq (toNat_val_ofNat (by omega)), if_neg (by omega),
    if_neg (by omega), if_pos (by omega), ofNat_of_toNat (b := b) (by omega),
    ofNat_of_toNat (b := c) (by omega), ofNat_of_toNat (b := d) (by omega)]
  rfl

theorem encodes_four
    (h : (0xF0 ≤ b && b ≤ 0xF4 && isContinuation c && isContinuation d
      && isContinuation e && (b != 0xF0 || 0x90 ≤ c) && (b != 0xF4 || c ≤ 0x8F)) = true) :
    Encodes (Char.ofNat (b.toNat % 8 * 262144 + payload c * 4096 + payload d * 64 + payload e))
      (b :: c :: d :: e :: rest) := by
  rw [leadsFour_iff] at h
  refine ⟨rest, ?_⟩
  rw [payload, payload, payload, encodeChar_eq (toNat_val_ofNat (by omega)), if_neg (by omega),
    if_neg (by omega), if_neg (by omega), ofNat_of_toNat (b := b) (by omega),
    ofNat_of_toNat (b := c) (by omega), ofNat_of_toNat (b := d) (by omega),
    ofNat_of_toNat (b := e) (by omega)]
  rfl

end Decoded

/-- The bytes start with the encoding of the first character, or a stray byte stands in front. -/
theorem decodeFirst_cases (b : UInt8) (rest : List UInt8) :
    Encodes (decodeFirst (b :: rest)).1 (b :: rest) ∨
      decodeFirst (b :: rest) = (replacement, 1) := by
  unfold decodeFirst
  simp only
  split
  · exact .inl (encodes_one rest ‹_›)
  match rest with
  | [] => exact .inr rfl
  | c :: rest =>
    simp only
    split
    · exact .inl (encodes_two rest ‹_›)
    match rest with
    | [] => exact .inr rfl
    | d :: rest =>
      simp only
      split
      · exact .inl (encodes_three rest ‹_›)
      match rest with
      | [] => exact .inr rfl
      | e :: rest =>
        simp only
        split
        · exact .inl (encodes_four rest ‹_›)
        · exact .inr rfl

/-- Bytes with a stray byte in front start with no encoding. -/
theorem not_encodes_of_stray {bs : List UInt8} (h : decodeFirst bs = (replacement, 1)) (c : Char) :
    ¬Encodes c bs := by
  intro hc
  rw [decodeFirst_of_encodes hc, Prod.mk.injEq] at h
  obtain ⟨rfl, hlen⟩ := h
  exact absurd hlen (by decide)

/-! ## Decoding piece by piece -/

theorem decodeFirst_pos (b : UInt8) (rest : List UInt8) : 0 < (decodeFirst (b :: rest)).2 := by
  rcases decodeFirst_cases b rest with h | h
  · rw [decodeFirst_of_encodes h]
    exact length_encodeChar_pos _
  · rw [h]
    exact Nat.one_pos

theorem decodeUpTo_congr {bs : List UInt8} {fuel fuel' : Nat} (h : bs.length ≤ fuel)
    (h' : bs.length ≤ fuel') : decodeUpTo fuel bs = decodeUpTo fuel' bs := by
  induction fuel generalizing bs fuel' with
  | zero =>
    obtain rfl : bs = [] := List.eq_nil_of_length_eq_zero (Nat.le_zero.mp h)
    cases fuel' <;> rfl
  | succ fuel ih =>
    cases bs with
    | nil => cases fuel' <;> rfl
    | cons b rest =>
      rw [List.length_cons] at h h'
      obtain ⟨fuel', rfl⟩ : ∃ n, fuel' = n + 1 := Nat.exists_eq_succ_of_ne_zero (by omega)
      have hpos := decodeFirst_pos b rest
      have hlen : ((b :: rest).drop (decodeFirst (b :: rest)).2).length ≤ rest.length := by
        rw [List.length_drop, List.length_cons]
        omega
      simp only [decodeUpTo]
      rw [ih (by omega) (show _ ≤ fuel' by omega)]

theorem decode_cons (b : UInt8) (rest : List UInt8) :
    decode (b :: rest) = (decodeFirst (b :: rest)).1
      :: decode ((b :: rest).drop (decodeFirst (b :: rest)).2) := by
  have hpos := decodeFirst_pos b rest
  have hlen : ((b :: rest).drop (decodeFirst (b :: rest)).2).length ≤ rest.length := by
    rw [List.length_drop, List.length_cons]
    omega
  rw [decode, List.length_cons, decode, ← decodeUpTo_congr hlen Nat.le.refl]
  simp only [decodeUpTo]

theorem decode_encoded (c : Char) (rest : List UInt8) :
    decode (String.utf8EncodeChar c ++ rest) = c :: decode rest := by
  obtain ⟨b, w, hw⟩ := List.exists_cons_of_length_pos (length_encodeChar_pos c)
  have hfirst := decodeFirst_encodeChar c rest
  rw [hw, List.cons_append] at hfirst ⊢
  rw [decode_cons, hfirst, ← List.cons_append, List.drop_left]

theorem decode_stray {b : UInt8} {rest : List UInt8}
    (h : decodeFirst (b :: rest) = (replacement, 1)) :
    decode (b :: rest) = replacement :: decode rest := by
  rw [decode_cons, h]
  rfl

/-- A text is decoded from its bytes. -/
theorem decode_bytes (s : String) : decode (bytes s) = s.toList := by
  rw [bytes_eq_flatMap]
  induction s.toList with
  | nil => rfl
  | cons c cs ih => rw [List.flatMap_cons, decode_encoded, ih]

end ProofScript.Text
