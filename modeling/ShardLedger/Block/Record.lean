import ShardLedger.Block.Basic
import ShardLedger.Document.Basic

/-!
# Blocks as documents

The record form in which blocks are exchanged: identities are lists of 32 byte values, and every
field is required. Records may be given by name, unknown fields being passed over, or as the
list of all their fields in order.

- `Block.toDocument`, `Block.ofDocument?`.
-/

namespace ShardLedger

/-- A digest as the list of its byte values. -/
def Digest.toDocument (d : Digest) : Document :=
  .list (d.toBytes.map fun b => .nat b.toNat)

/-- A digest from the list of exactly 32 byte values. -/
def Digest.ofDocument? (d : Document) : Option Digest := do
  let items ← d.items?
  if items.length ≠ Digest.byteCount then none
  let bytes ← items.mapM (Document.natBelow? 256)
  return Digest.ofBytes (bytes.map UInt8.ofNat)

/-- The fields of a record, all of which are required. -/
def Document.fields? (names : List String) (d : Document) : Option (List Document) := do
  match d with
  | .moment _ => none
  | _ => (← d.record? false names).mapM id

/-- A 64-bit word. -/
def Document.uint64? (d : Document) : Option UInt64 := d.word?.map UInt64.ofNat

/-- A content reference as a document. -/
def ContentRef.toDocument (r : ContentRef) : Document :=
  .table [("id", r.id.digest.toDocument), ("size", .nat r.size.toNat)]

/-- A content reference from its record. -/
def ContentRef.ofDocument? (d : Document) : Option ContentRef := do
  match ← d.fields? ["id", "size"] with
  | [id, size] => return ⟨⟨← Digest.ofDocument? id⟩, ← size.uint64?⟩
  | _ => none

/-- A rank pair as a document. -/
def Rank.toDocument (r : Rank) : Document :=
  .table [("current", .nat r.current.toNat), ("next", .nat r.next.toNat)]

/-- A rank pair from its record. -/
def Rank.ofDocument? (d : Document) : Option Rank := do
  match ← d.fields? ["current", "next"] with
  | [current, next] => return ⟨← current.uint64?, ← next.uint64?⟩
  | _ => none

namespace Block

/-- The fields of a block's record. -/
def fieldNames : List String :=
  ["id", "previous", "chain", "content", "weight", "rank", "proposer"]

/-- A block as a document. -/
def toDocument (b : Block) : Document :=
  .table
    [("id", b.id.digest.toDocument),
     ("previous", .list (b.previous.map (·.digest.toDocument))),
     ("chain", .nat b.chain.number),
     ("content", .list (b.content.map ContentRef.toDocument)),
     ("weight", .nat b.weight.toNat),
     ("rank", b.rank.toDocument),
     ("proposer", .text b.proposer)]

/-- A block from its record. -/
def ofDocument? (d : Document) : Option Block := do
  match ← d.fields? fieldNames with
  | [id, previous, chain, content, weight, rank, proposer] =>
    return {
      id := ⟨← Digest.ofDocument? id⟩
      previous := ← (← previous.items?).mapM fun p => (Digest.ofDocument? p).map BlockId.mk
      chain := ChainId.ofWord (← chain.uint64?)
      content := ← (← content.items?).mapM ContentRef.ofDocument?
      weight := ← weight.uint64?
      rank := ← Rank.ofDocument? rank
      proposer := ← proposer.text? }
  | _ => none

end Block

end ShardLedger
