import ShardLedger.Word
import ShardLedger.Id
import ShardLedger.Chain.Id
import ShardLedger.Block.Rank

/-!
# Blocks

A block extends earlier blocks of its chain and carries a batch of content. Its draft holds all
that a proposer chooses; the block adds the identity, which is the digest of the draft unless it
is assigned from outside.

- `Draft.preimage`: the byte string whose digest names the block. Every field has a fixed width
  or is counted, but for the proposer at the end, so the string tells the draft.
- `Block.ofDraft`, `Block.genesis`.
-/

namespace ShardLedger

/-- A reference to a content item inside a batch. -/
structure ContentRef where
  id : ContentId
  size : UInt64
deriving DecidableEq, Inhabited

/-- What a proposer chooses for a block. -/
structure Draft where
  previous : List BlockId
  chain : ChainId
  content : List ContentRef
  weight : UInt64
  rank : Rank
  proposer : String
deriving DecidableEq, Inhabited

/-- A block: a draft and the identity it goes by. -/
structure Block extends Draft where
  id : BlockId
deriving DecidableEq, Inhabited

namespace Draft

/-- A draft of weight one and without content that follows `previous`. -/
def extending (chain : ChainId) (previous : BlockId) (rank : Rank) : Draft :=
  { previous := [previous], chain, content := [], weight := 1, rank, proposer := "" }

/-- The bytes of a content reference: the item, then its size. -/
def refBytes (r : ContentRef) : List UInt8 :=
  r.id.digest.toBytes ++ wordBytes r.size

/-- The byte string that the digest of a draft is taken of. -/
def preimage (d : Draft) : List UInt8 :=
  wordBytes (UInt64.ofNat d.previous.length)
    ++ d.previous.flatMap (·.digest.toBytes)
    ++ wordBytes (UInt64.ofNat d.chain.number)
    ++ wordBytes (UInt64.ofNat d.content.length)
    ++ d.content.flatMap refBytes
    ++ wordBytes d.weight
    ++ wordBytes d.rank.current
    ++ wordBytes d.rank.next
    ++ d.proposer.toUTF8.data.toList

/-- The identity that the fields of a draft determine. -/
def digest (d : Draft) : BlockId := ⟨Blake3.hash d.preimage⟩

end Draft

namespace Block

/-- The block of a draft, named by the digest of its fields. -/
def ofDraft (d : Draft) : Block := { d with id := d.digest }

/-- The block that stands before the first block of a chain: it has no parent, no weight and
rank zero. -/
def genesis (chain : ChainId) : Block :=
  { previous := [], chain, content := [], weight := 0, rank := ⟨0, 0⟩, proposer := ""
    id := BlockId.ofLabel s!"arbor-genesis-{chain.number}" }

/-- The parent, for a block that names exactly one previous block. -/
def parent? (b : Block) : Option BlockId :=
  match b.previous with
  | [parent] => some parent
  | _ => none

/-- The content items that a block carries. -/
def contentIds (b : Block) : List ContentId := b.content.map (·.id)

end Block

end ShardLedger
