/-!
# Digests

A digest is 256 bits. It is kept as one number whose most significant byte is the first byte of
the digest, so that comparing numbers compares byte strings, and bit `d` counted from the top is
bit `d` of the byte string.

- `Digest.toBytes`, `Digest.ofBytes`: the byte string, and the digest that a byte string starts.
- `Digest.hex`, `Digest.short`: the written forms.
-/

namespace ShardLedger

/-- A 256-bit digest, read as one big-endian number. -/
abbrev Digest := BitVec 256

namespace Digest

/-- The number of bytes of a digest. -/
def byteCount : Nat := 32

/-- Byte `i` of a digest, counted from the most significant one. -/
def byte (d : Digest) (i : Nat) : UInt8 :=
  UInt8.ofNat (d.toNat >>> (8 * (byteCount - 1 - i)))

/-- The bytes of a digest, most significant first. -/
def toBytes (d : Digest) : List UInt8 :=
  (List.range byteCount).map d.byte

/-- The digest whose first bytes are the given ones and whose other bytes are zero. Bytes
beyond the thirty-second are not looked at. -/
def ofBytes (bytes : List UInt8) : Digest :=
  let used := bytes.take byteCount
  BitVec.ofNat 256
    (used.foldl (fun n b => n * 256 + b.toNat) 0 <<< (8 * (byteCount - used.length)))

/-- The lowercase digit for a value below sixteen. -/
def hexDigit (n : Nat) : Char :=
  if n < 10 then Char.ofNat ('0'.toNat + n) else Char.ofNat ('a'.toNat + (n - 10))

/-- The two hexadecimal digits of a byte. -/
def hexByte (b : UInt8) : List Char :=
  [hexDigit (b.toNat / 16), hexDigit (b.toNat % 16)]

/-- A digest as 64 lowercase hexadecimal digits. -/
def hex (d : Digest) : String :=
  String.ofList (d.toBytes.flatMap hexByte)

/-- The first twelve hexadecimal digits, by which texts for people name a digest. -/
def short (d : Digest) : String :=
  String.ofList ((d.toBytes.take 6).flatMap hexByte)

/-- The value of a hexadecimal digit of either case. -/
def hexValue? (c : Char) : Option Nat :=
  if '0' ≤ c ∧ c ≤ '9' then some (c.toNat - '0'.toNat)
  else if 'a' ≤ c ∧ c ≤ 'f' then some (c.toNat - 'a'.toNat + 10)
  else if 'A' ≤ c ∧ c ≤ 'F' then some (c.toNat - 'A'.toNat + 10)
  else none

/-- The bytes that an even number of hexadecimal digits writes. -/
def bytesOfHex? : List Char → Option (List UInt8)
  | [] => some []
  | [_] => none
  | high :: low :: rest => do
    let h ← hexValue? high
    let l ← hexValue? low
    let bytes ← bytesOfHex? rest
    return UInt8.ofNat (16 * h + l) :: bytes

@[simp] theorem length_toBytes (d : Digest) : d.toBytes.length = byteCount := by
  simp [toBytes]

end Digest

end ShardLedger
