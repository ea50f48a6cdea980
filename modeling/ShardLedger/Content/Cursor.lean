import ShardLedger.Error

/-!
# Routing by fingerprint bits

Every content item carries two fingerprints of 256 bits. A split looks at one bit position, named
by its cursor: where both fingerprints hold 0 there the item goes left, where both hold 1 it goes
right, and where they differ it stays. A child splits one bit deeper than its parent did.

- `Cursor`: a bit position, counted from the top.
- `Cursor.route`: where two fingerprints go.
- `Cursor.deeper`: the next position, if there is one.
-/

namespace ShardLedger

/-- A routing fingerprint. -/
structure Fingerprint where
  digest : Digest
deriving DecidableEq, Inhabited

namespace Fingerprint

/-- The fingerprint of a byte string. -/
def ofBytes (bytes : List UInt8) : Fingerprint := ⟨Blake3.hash bytes⟩

/-- The bit at a position, counted from the top. -/
def bit (f : Fingerprint) (depth : Nat) : Bool := f.digest.getMsbD depth

/-- The fingerprint with its kind, by its first two bytes. -/
def describe (f : Fingerprint) : String :=
  let start := String.ofList ((f.digest.toBytes.take 2).flatMap Digest.hexByte)
  s!"Fingerprint({start}..)"

end Fingerprint

/-- Where a split sends an item. -/
inductive Route where
  | left
  | right
  /-- The item stays with the chain that splits. -/
  | center
deriving DecidableEq, Inhabited

/-- The name of a route. -/
def Route.text : Route → String
  | left => "Left"
  | right => "Right"
  | center => "Center"

/-- The number of bit positions. -/
def maskBits : Nat := 256

/-- A bit position in a fingerprint. -/
structure Cursor where
  depth : Nat
  lt : depth < maskBits
deriving DecidableEq

namespace Cursor

/-- The topmost bit. -/
def top : Cursor := ⟨0, by decide⟩

instance : Inhabited Cursor := ⟨top⟩

/-- The cursor at a depth. -/
def atDepth (depth : Nat) : Except LedgerError Cursor :=
  if h : depth < maskBits then .ok ⟨depth, h⟩ else .error (.maskExhausted depth)

/-- The byte that holds the bit. -/
def byteIndex (c : Cursor) : Nat := c.depth / 8

/-- The place of the bit in its byte, from high to low. -/
def bitOffset (c : Cursor) : Nat := c.depth % 8

/-- Where two fingerprints go. -/
def route (c : Cursor) (first second : Fingerprint) : Route :=
  match first.bit c.depth, second.bit c.depth with
  | false, false => .left
  | true, true => .right
  | _, _ => .center

/-- The next lower bit; the last bit has none. -/
def deeper (c : Cursor) : Except LedgerError Cursor :=
  if h : c.depth + 1 < maskBits then .ok ⟨c.depth + 1, h⟩ else .error (.maskExhausted c.depth)

/-- Move down so many bits, stopping at the first failure. The cursor reached is returned beside
the error. -/
def advance : Nat → Cursor → Cursor × Option LedgerError
  | 0, c => (c, none)
  | n + 1, c =>
    match c.deeper with
    | .ok next => advance n next
    | .error e => (c, some e)

/-- The routes met by moving down so many bits, each read before the move. -/
def walk (first second : Fingerprint) : Nat → Cursor → Except LedgerError (List Route)
  | 0, _ => .ok []
  | n + 1, c => do
    let next ← c.deeper
    let rest ← walk first second n next
    return c.route first second :: rest

end Cursor

end ShardLedger
