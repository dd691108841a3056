import ProofScript.Program.Printer
import ProofScript.Word

/-!
# Positions in a printed program

Byte offsets, lines and columns convert into each other, and an offset leads back to the script: to
the innermost node around it that knows where it stems from.
-/

namespace ProofScript.Program.Printed

/-- The position of a byte offset; an offset outside the text is moved to its nearer end. -/
def locate (p : Printed) (offset : Int) : Position :=
  let n := min offset.toNat p.text.utf8ByteSize
  { (Text.decode ((Text.bytes p.text).take n)).foldl Position.step Position.start with offset := n }

/-- The number of bytes in the first `lines` lines of a text, if it has that many line ends. -/
def lineStart? : List UInt8 → Nat → Option Nat
  | _, 0 => some 0
  | [], _ + 1 => none
  | b :: rest, lines + 1 =>
    if b = 0x0A then (lineStart? rest lines).map (· + 1)
    else (lineStart? rest (lines + 1)).map (· + 1)

/-- The byte offset of a line and a byte column, or -1 where the text has no such place. Offsets
are words of 64 bits, so that a column far behind the text may wrap around. -/
def offsetOf (p : Printed) (line column : Int) : Int :=
  if line < 1 ∨ column < 1 then -1
  else match lineStart? (Text.bytes p.text) (line - 1).toNat with
    | none => -1
    | some start =>
      let offset := start + (column - 1)
      if offset ≤ p.text.utf8ByteSize then offset
      else
        let wrapped := Int.bmod offset Word.count
        if p.text.utf8ByteSize < wrapped then -1 else wrapped

/-- Keeps the shorter of two spans, the later one where they are equally long. -/
def shorter (offset : Int) (best : Option (Nat × Location)) (s : Span) : Option (Nat × Location) :=
  match s.tag.origin with
  | none => best
  | some o =>
    if offset < s.start.offset ∨ s.stop.offset ≤ offset then best
    else
      let size := s.stop.offset - s.start.offset
      match best with
      | none => some (size, o)
      | some (least, _) => if size ≤ least then some (size, o) else best

/-- The place in the script that the innermost node around an offset stems from. -/
def originAt (p : Printed) (offset : Int) : Option Location :=
  (p.spans.foldl (shorter offset) none).map Prod.snd

end ProofScript.Program.Printed
