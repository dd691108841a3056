import ProofScript.Text.Utf8

/-!
# The bytes of a text

The bytes of joined texts are joined, and decoding ASCII bytes and encoding them again gives them
back. Words are ASCII, so a name has the bytes it was read from.
-/

namespace ProofScript.Text

theorem toList_loop (bs : ByteArray) (i : Nat) (r : List UInt8) :
    ByteArray.toList.loop bs i r = r.reverse ++ bs.data.toList.drop i := by
  fun_induction ByteArray.toList.loop bs i r with
  | case1 i r h ih =>
    have hlt : i < bs.data.toList.length := by
      rw [Array.length_toList]
      exact h
    have hget : bs.get! i = bs.data.toList[i] := by
      rw [Array.getElem_toList]
      exact getElem!_pos bs.data i h
    rw [ih, List.drop_eq_getElem_cons hlt, hget]
    simp only [List.reverse_cons, List.append_assoc, List.cons_append, List.nil_append]
  | case2 i r h =>
    have hle : bs.data.toList.length ≤ i := by
      rw [Array.length_toList]
      exact Nat.le_of_not_lt h
    rw [List.drop_eq_nil_of_le hle, List.append_nil]

theorem bytes_eq (s : String) : bytes s = s.toByteArray.data.toList := by
  unfold bytes ByteArray.toList
  rw [toList_loop]
  rfl

@[simp] theorem bytes_append (s t : String) : bytes (s ++ t) = bytes s ++ bytes t := by
  simp [bytes_eq]

@[simp] theorem bytes_empty : bytes "" = [] := by
  simp [bytes_eq]

theorem bytes_ofList (cs : List Char) :
    bytes (String.ofList cs) = cs.flatMap String.utf8EncodeChar := by
  simp [bytes_eq, List.utf8Encode]

theorem bytes_of_toList {s : String} {bs : List UInt8}
    (h : s.toList.flatMap String.utf8EncodeChar = bs) : bytes s = bs := by
  rw [← h, ← bytes_ofList, String.ofList_toList]

theorem toList_pushn (c : Char) (n : Nat) : ("".pushn c n).toList = List.replicate n c := by
  rw [String.pushn_eq_repeat_push]
  induction n with
  | zero => rfl
  | succ n ih => rw [Nat.repeat, String.toList_push, ih, List.replicate_succ']

theorem bytes_pushn_blank (n : Nat) : bytes ("".pushn ' ' n) = List.replicate n 0x20 := by
  refine bytes_of_toList ?_
  rw [toList_pushn]
  induction n with
  | zero => rfl
  | succ n ih =>
    rw [List.replicate_succ, List.flatMap_cons, ih, List.replicate_succ]
    rfl

/-! ## ASCII -/

theorem utf8EncodeChar_ofNat {b : UInt8} (h : b < 0x80) :
    String.utf8EncodeChar (Char.ofNat b.toNat) = [b] := by
  have hall : ∀ n < 128, String.utf8EncodeChar (Char.ofNat n) = [n.toUInt8] := by decide
  rw [hall b.toNat (UInt8.lt_iff_toNat_lt.mp h), Nat.toUInt8, UInt8.ofNat_toNat]

theorem decodeUpTo_ascii {bs : List UInt8} (h : ∀ b ∈ bs, b < 0x80) :
    decodeUpTo bs.length bs = bs.map fun b => Char.ofNat b.toNat := by
  induction bs with
  | nil => rfl
  | cons b bs ih =>
    have hb : b < 0x80 := h b (by simp)
    have hbs : ∀ c ∈ bs, c < 0x80 := fun c hc => h c (by simp [hc])
    simp [decodeUpTo, decodeFirst, hb, ih hbs]

theorem bytes_ofBytes {bs : List UInt8} (h : ∀ b ∈ bs, b < 0x80) : bytes (ofBytes bs) = bs := by
  rw [ofBytes, bytes_ofList, decode, decodeUpTo_ascii h, List.flatMap_map]
  induction bs with
  | nil => rfl
  | cons b bs ih =>
    have hb : b < 0x80 := h b (by simp)
    rw [List.flatMap_cons, utf8EncodeChar_ofNat hb, ih fun c hc => h c (by simp [hc])]
    rfl

end ProofScript.Text
