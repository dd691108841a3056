/-!
# Bytes and characters

Scripts are read as bytes. Output is text, so a byte sequence has to be decoded
now and then: each maximal valid encoding is one character, and every other byte
stands for the replacement character.
-/

namespace ProofScript.Text

/-- The bytes of a text in UTF-8. -/
def bytes (s : String) : List UInt8 := s.toUTF8.toList

/-- The character that stands for a byte outside every valid encoding. -/
def replacement : Char := Char.ofNat 0xFFFD

/-- Does the byte continue a multi-byte encoding? -/
def isContinuation (b : UInt8) : Bool := 0x80 ≤ b && b ≤ 0xBF

/-- The low six bits that a continuation byte contributes. -/
def payload (b : UInt8) : Nat := b.toNat % 64

/-- The first character of a nonempty byte sequence and the number of bytes it
takes. Overlong forms, surrogates and values past `10FFFF` are not valid. -/
def decodeFirst : List UInt8 → Char × Nat
  | [] => (replacement, 0)
  | b :: rest =>
    if b < 0x80 then (Char.ofNat b.toNat, 1)
    else match rest with
      | [] => (replacement, 1)
      | c :: rest =>
        if 0xC2 ≤ b && b ≤ 0xDF && isContinuation c then
          (Char.ofNat ((b.toNat % 32) * 64 + payload c), 2)
        else match rest with
          | [] => (replacement, 1)
          | d :: rest =>
            if 0xE0 ≤ b && b ≤ 0xEF && isContinuation c && isContinuation d
                && (b != 0xE0 || 0xA0 ≤ c) && (b != 0xED || c ≤ 0x9F) then
              (Char.ofNat ((b.toNat % 16) * 4096 + payload c * 64 + payload d), 3)
            else match rest with
              | [] => (replacement, 1)
              | e :: _ =>
                if 0xF0 ≤ b && b ≤ 0xF4 && isContinuation c && isContinuation d
                    && isContinuation e && (b != 0xF0 || 0x90 ≤ c) && (b != 0xF4 || c ≤ 0x8F) then
                  (Char.ofNat ((b.toNat % 8) * 262144 + payload c * 4096
                    + payload d * 64 + payload e), 4)
                else (replacement, 1)

/-- Decodes at most `fuel` characters. -/
def decodeUpTo : Nat → List UInt8 → List Char
  | 0, _ => []
  | _, [] => []
  | fuel + 1, bs =>
    let (c, n) := decodeFirst bs
    c :: decodeUpTo fuel (bs.drop n)

/-- All characters of a byte sequence. -/
def decode (bs : List UInt8) : List Char := decodeUpTo bs.length bs

/-- The text of a byte sequence. -/
def ofBytes (bs : List UInt8) : String := String.ofList (decode bs)

end ProofScript.Text
