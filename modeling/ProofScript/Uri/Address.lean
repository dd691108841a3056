import ProofScript.Text.Utf8

/-!
# Addresses of hosts

A host may be an address of eight groups of hexadecimal digits with colons between them. The last
two groups may be written as four decimal numbers with dots between them, and one run of zero groups
may be left out, which two colons tell.
-/

namespace ProofScript.Uri

/-- The byte of an ASCII character. -/
def byte (c : Char) : UInt8 := c.toNat.toUInt8

/-- A decimal digit. -/
def isDigit (b : UInt8) : Bool := byte '0' ≤ b && b ≤ byte '9'

/-- The value of a hexadecimal digit. -/
def hexValue? (b : UInt8) : Option UInt8 :=
  if isDigit b then some (b - byte '0')
  else if byte 'a' ≤ b && b ≤ byte 'f' then some (b - byte 'a' + 10)
  else if byte 'A' ≤ b && b ≤ byte 'F' then some (b - byte 'A' + 10)
  else none

/-- The parts of a sequence between the places of a byte. -/
def splitAt (b : UInt8) : List UInt8 → List (List UInt8)
  | [] => [[]]
  | c :: rest =>
    match splitAt b rest with
    | [] => [[c]]
    | part :: more => if c = b then [] :: part :: more else (c :: part) :: more

/-- The texts before and after the first place of a text. -/
def cut? (mark : List UInt8) : List UInt8 → Option (List UInt8 × List UInt8)
  | [] => if mark.isEmpty then some ([], []) else none
  | b :: rest =>
    if mark.isPrefixOf (b :: rest) then some ([], (b :: rest).drop mark.length)
    else (cut? mark rest).map fun (front, back) => (b :: front, back)

/-- Is the text a number below 256 without leading zeros? -/
def isOctet (bs : List UInt8) : Bool :=
  !bs.isEmpty && bs.all isDigit && (bs.length == 1 || bs.head? != some (byte '0'))
    && bs.foldl (fun v b => 10 * v + (b - byte '0').toNat) 0 < 256

/-- Is the text four numbers with dots between them? -/
def isDotted (bs : List UInt8) : Bool :=
  let parts := splitAt (byte '.') bs
  parts.length == 4 && parts.all isOctet

/-- Is the text a group of one to four hexadecimal digits? -/
def isGroup (bs : List UInt8) : Bool :=
  !bs.isEmpty && bs.length ≤ 4 && bs.all fun b => (hexValue? b).isSome

/-- How many groups a text of groups stands for. Where it may end in dots, its last part may be four
numbers, which stand for two groups. -/
def groupCount? (dots : Bool) (bs : List UInt8) : Option Nat :=
  let parts := splitAt (byte ':') bs
  let last := parts.getLast?.getD []
  if parts.all isGroup then some parts.length
  else if dots && parts.dropLast.all isGroup && isDotted last then some (parts.length + 1)
  else none

/-- Is the text an address? Two colons stand for at least one group. -/
def isAddress (bs : List UInt8) : Bool :=
  match cut? [byte ':', byte ':'] bs with
  | none => groupCount? true bs == some 8
  | some (front, back) =>
    match side false front, side true back with
    | some m, some n => m + n < 8
    | _, _ => false
where
  /-- The groups on one side of two colons, perhaps none. -/
  side (dots : Bool) (bs : List UInt8) : Option Nat :=
    if bs.isEmpty then some 0 else groupCount? dots bs

end ProofScript.Uri
