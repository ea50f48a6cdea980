import ShardLedger.Content.Cursor
import ShardLedger.Block.Basic

/-!
# Pending content

The content items that wait on one chain, scanned in the order of their identities. A split
partitions a store by the bits at a cursor; a merge pours the stores of the children back.

- `ContentStore.submit`, `ContentStore.delete`, `ContentStore.deleteMany`.
- `ContentStore.separate`: the items that go left, those that go right and those that stay.
- `ContentStore.absorb`: pour other stores into this one.
- `ContentStore.aggregate`: the same, with what is left of the others.
-/

namespace ShardLedger

/-- A pending item with its two routing fingerprints. -/
structure ContentItem where
  id : ContentId
  first : Fingerprint
  second : Fingerprint
  size : UInt64
deriving DecidableEq

namespace ContentItem

/-- The item of a payload, named by the payload's digest. -/
def ofPayload (payload : List UInt8) (first second : Fingerprint) : ContentItem :=
  { id := ⟨Blake3.hash payload⟩, first, second, size := UInt64.ofNat payload.length }

/-- Where a split at the cursor sends the item. -/
def route (item : ContentItem) (c : Cursor) : Route := c.route item.first item.second

/-- The reference by which a batch names the item. -/
def ref (item : ContentItem) : ContentRef := ⟨item.id, item.size⟩

end ContentItem

/-- The items that wait on one chain. -/
structure ContentStore where
  items : Std.ExtTreeMap ContentId ContentItem
deriving DecidableEq

namespace ContentStore

/-- The store without items. -/
def empty : ContentStore := ⟨∅⟩

instance : Inhabited ContentStore := ⟨empty⟩

/-- Whether an item is stored. -/
def contains (s : ContentStore) (id : ContentId) : Bool := s.items.contains id

/-- Store an item unless its identity is taken, and tell whether it was new. -/
def submit (s : ContentStore) (item : ContentItem) : ContentStore × Bool :=
  if s.contains item.id then (s, false) else (⟨s.items.insert item.id item⟩, true)

/-- Remove an item and return it. -/
def delete (s : ContentStore) (id : ContentId) : ContentStore × Option ContentItem :=
  (⟨s.items.erase id⟩, s.items[id]?)

/-- Remove every listed item that is there, and count them. -/
def deleteMany (s : ContentStore) (ids : List ContentId) : ContentStore × Nat :=
  ids.foldl (fun (s, n) id =>
    match s.delete id with
    | (s, some _) => (s, n + 1)
    | (s, none) => (s, n)) (s, 0)

/-- The number of stored items. -/
def size (s : ContentStore) : Nat := s.items.size

/-- Whether nothing is stored. -/
def isEmpty (s : ContentStore) : Bool := s.items.isEmpty

/-- The stored items in scan order. -/
def toList (s : ContentStore) : List ContentItem := s.items.values

/-- The identities of the stored items in scan order. -/
def ids (s : ContentStore) : List ContentId := s.items.keys

/-- The sum of the sizes of the stored items, which wraps. -/
def pendingBytes (s : ContentStore) : UInt64 := s.toList.foldl (fun n item => n + item.size) 0

/-- The items that a split at the cursor sends to `r`. -/
def routed (s : ContentStore) (c : Cursor) (r : Route) : ContentStore :=
  ⟨s.items.filter fun _ item => item.route c = r⟩

/-- The parts of a store after a split. -/
structure Parts where
  left : ContentStore
  right : ContentStore
  center : ContentStore

/-- Partition a store at a cursor. -/
def separate (s : ContentStore) (c : Cursor) : Parts :=
  { left := s.routed c .left, right := s.routed c .right, center := s.routed c .center }

/-- Pour other stores into this one, in order, and count the items they held. An item that is
poured in replaces a stored one of the same identity. -/
def absorb (s : ContentStore) (others : List ContentStore) : ContentStore × Nat :=
  (⟨others.foldl (fun items other => items ∪ other.items) s.items⟩, total (others.map size))

/-- Move every item of other stores into this one. Each of the others is left empty, and the items
that moved are counted. -/
def aggregate (s : ContentStore) (others : List ContentStore) :
    ContentStore × List ContentStore × Nat :=
  let (merged, moved) := s.absorb others
  (merged, others.map fun _ => empty, moved)

end ContentStore

end ShardLedger
