import ShardLedger.Fork.Graph

/-!
# Questions to a fork graph

- `ForkGraph.weight`: the weight of a live block.
- `ForkGraph.leadsToHeaviest`: whether a block lies on the way to a tip of maximum weight.
- `ForkGraph.descendantsAt`: the blocks so many hops ahead.
- `ForkGraph.ancestorsAt`: the blocks so many steps back, no further than the anchor.

The answers are in the order of the blocks, and hold live blocks only.
-/

namespace ShardLedger

namespace ForkGraph

/-- The live node of a block. -/
def node (g : ForkGraph) (id : BlockId) : Except LedgerError ForkNode :=
  match g.nodes[id]? with
  | some node => .ok node
  | none => .error (.blockNotFound id)

/-- The weight of a live block. -/
def weight (g : ForkGraph) (id : BlockId) : Except LedgerError Nat :=
  (g.node id).map (·.weight)

/-- Whether a live block is a tip of maximum weight or leads to one. -/
def leadsToHeaviest (g : ForkGraph) (id : BlockId) : Except LedgerError Bool := do
  let _ ← g.node id
  let ahead := reach (fun (n : ForkNode) => n.following.toList) g.nodes [id]
  return ahead.any fun (tip, node) =>
    node.following.isEmpty && g.tips.contains tip && node.weight == g.maxTipWeight

/-- The followers of a set of blocks. -/
def followersOf (g : ForkGraph) (frontier : BlockSet) : BlockSet :=
  frontier.foldl (fun found id =>
    match g.nodes[id]? with
    | some node => found ∪ node.following
    | none => found) ∅

/-- Replace a set by its followers so many times, or until it is empty. -/
def ahead (g : ForkGraph) : Nat → BlockSet → BlockSet
  | 0, frontier => frontier
  | n + 1, frontier => if frontier.isEmpty then frontier else g.ahead n (g.followersOf frontier)

/-- The blocks exactly `distance` hops ahead of a live block. -/
def descendantsAt (g : ForkGraph) (id : BlockId) (distance : Int) :
    Except LedgerError (List BlockId) := do
  if distance < 0 then throw (.invalidArgument (.negativeDistance distance))
  let _ ← g.node id
  return (g.ahead distance.toNat ((∅ : BlockSet).insert id)).toList

/-- Step back so many times, or until there is no live node to step to. -/
def back (g : ForkGraph) : Nat → BlockId → BlockId
  | 0, id => id
  | n + 1, id =>
    match g.nodes[id]?.bind (·.previous) with
    | some previous => if g.contains previous then g.back n previous else id
    | none => id

/-- The blocks `depth` steps back from each of some live blocks. -/
def ancestorsAt (g : ForkGraph) (ids : List BlockId) (depth : Int) :
    Except LedgerError (List BlockId) := do
  if depth < 0 then throw (.invalidArgument (.negativeDepth depth))
  let found ← ids.mapM fun id => do
    let _ ← g.node id
    return g.back depth.toNat id
  return ((∅ : BlockSet).insertMany found).toList

end ForkGraph

end ShardLedger
