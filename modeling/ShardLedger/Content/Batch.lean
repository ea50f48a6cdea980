import ShardLedger.Content.Store
import ShardLedger.Reach

/-!
# Batches

The content of a new block: pending items in scan order, without those that a block before it
already carries, until the batch is full. A batch is full when what it holds, together with the
space used elsewhere, reaches the allowed size less a reserve. Fullness is asked before each
item, so the last item may overshoot, and an item larger than a whole batch still finds its place.

- `consumedBy`: the content of the blocks reachable backwards.
- `ContentStore.batch`: the batch.
-/

namespace ShardLedger

/-- The content of every block that is reachable backwards from the references through the known
blocks. -/
def consumedBy (blocks : BlockMap Block) (refs : List BlockId) : ContentSet :=
  (reach (fun (b : Block) => b.previous) blocks refs).foldl
    (fun ids entry => ids.insertMany entry.2.contentIds) ∅

namespace ContentStore

/-- Take references, in order, while the space used is below the limit. -/
def fill (limit : Nat) : Nat → List ContentRef → List ContentRef
  | _, [] => []
  | used, r :: rest =>
    if used < limit then r :: fill limit (addCapped used r.size.toNat) rest else []

/-- A batch of pending items that the blocks behind `refs` do not carry yet, for a block that may
hold `maxSize` bytes of which `used` are taken and `reserve` are kept free. -/
def batch (s : ContentStore) (blocks : BlockMap Block) (refs : List BlockId)
    (used maxSize reserve : Nat) : List ContentRef :=
  let consumed := consumedBy blocks refs
  fill (maxSize - reserve) used
    ((s.toList.filter fun item => !consumed.contains item.id).map ContentItem.ref)

end ContentStore

end ShardLedger
