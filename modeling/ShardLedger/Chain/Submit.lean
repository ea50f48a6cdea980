import ShardLedger.Chain.Basic

/-!
# Submitting blocks to a chain

A submitted block is first screened by itself, then met with what the chain knows. It is turned
away, put in the backlog, or released together with the blocks that waited for it; the released
blocks are then applied to the fork graph one by one.

- `Chain.screen`: the checks that need the block alone.
- `Chain.receive`: what the chain makes of a screened block.
- `Chain.apply`: one released block enters the fork graph.
- `Chain.enqueue`: a finalized block is put in line for the global order.
-/

namespace ShardLedger

namespace Chain

/-- The parent of a well-formed block for this chain, or why the block is not one. -/
def screen (rules : Rules) (chain : ChainId) (block : Block) : Except Rejection BlockId :=
  match block.parent? with
  | none => .error (.malformedPrevious block.previous.length)
  | some parent =>
    if block.chain ≠ chain then .error (.wrongChain chain block.chain)
    else if !block.rank.isOrdered then .error (.rankOutOfOrder block.rank)
    else if !rules.accepts block then .error .invalid
    else .ok parent

/-- What a chain makes of a block. -/
inductive Verdict where
  /-- The matter is settled. -/
  | done (outcome : Outcome)
  /-- These blocks are to be applied, in order. -/
  | released (blocks : List Block)

/-- What the chain makes of a screened block. A block whose parent is not live waits for it,
unless its rank shows that the parent can never come. A block ranked below its live parent is
turned away, and so is everything that waits for it. -/
def receive (c : Chain) (block : Block) (parent : BlockId) : Chain × Verdict :=
  if c.retired then (c, .done (.rejected (.retired c.id)))
  else if c.knows block.id then (c, .done .duplicate)
  else match c.blocks[parent]? with
    | none =>
      if block.rank.current < c.nextRank then
        (c, .done (.rejected (.stale c.nextRank block.rank.current)))
      else
        ({ c with buffered := c.buffered.insert block.id block
                  backlog := c.backlog.enlist block [parent] }, .done .buffered)
    | some parentBlock =>
      if block.rank.current < parentBlock.rank.next then
        let (backlog, behind) := c.backlog.discard block
        (({ c with backlog } : Chain).forget (behind.map (·.id)),
         .done (.rejected (.rankBelowParent parentBlock.rank.next block.rank.current)))
      else
        let (backlog, ready) := c.backlog.release block
        (({ c with backlog } : Chain).forget (ready.map (·.id)), .released ready)

/-- The result of applying one block. -/
structure Applied where
  chain : Chain
  weight : Nat
  step : ForkStep

/-- Let a released block enter the fork graph, with its weight along the path. Nothing is
returned if the parent is gone or asks for a higher rank. -/
def apply (c : Chain) (block : Block) : Option Applied := do
  let parent ← block.parent?
  let parentBlock ← c.blocks[parent]?
  if block.rank.current < parentBlock.rank.next then none
  match c.graph.add block.id parent block.weight.toNat with
  | .error _ => none
  | .ok (graph, step) =>
    let weight := match c.graph.weight parent with
      | .ok w => addCapped w block.weight.toNat
      | .error _ => block.weight.toNat
    return { chain := { c with graph, blocks := c.blocks.insert block.id block }, weight, step }

/-- The blocks that a step finalized, and the chain that holds the live blocks only. -/
def collect (c : Chain) (step : ForkStep) : Chain × List Block :=
  let kept := step.pruned.foldl (fun m id => m.erase id) c.blocks
  ({ c with blocks := kept.filter fun id _ => c.graph.contains id },
   step.finalized.filterMap fun id => kept[id]?)

/-- Put a finalized block in line for the global order. The chain becomes permanent once it has
finalized enough blocks. -/
def enqueue (c : Chain) (config : Config) (block : Block) : Chain :=
  { c with
    undelivered := c.undelivered ++ [block]
    nextRank := if c.nextRank < block.rank.next then block.rank.next else c.nextRank
    permanent :=
      c.permanent || config.priority.minFinalizedBlocks ≤ c.graph.finalizedCount }

end Chain

end ShardLedger
