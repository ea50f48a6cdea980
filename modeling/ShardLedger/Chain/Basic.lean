import ShardLedger.Chain.Load
import ShardLedger.Chain.Outcome
import ShardLedger.Content.Batch
import ShardLedger.Fork.Query
import ShardLedger.Fork.Backlog

/-!
# Chains

One chain: its fork graph with the blocks that are live in it, the blocks that wait for a parent,
the content that waits for a block, and the finalized blocks that wait for their place in the
global order.

- `Chain.proposal`: what the next block should extend and carry.
- `Chain.stats`, `Chain.load`: snapshots.
- `Chain.discardPending`: give up a waiting block.
-/

namespace ShardLedger

/-- What the next block of a chain should extend and carry. -/
structure Proposal where
  chain : ChainId
  previous : BlockId
  content : List ContentRef
  /-- The lowest rank that the block may carry. -/
  minRank : UInt64
deriving DecidableEq

/-- A draft of weight one that carries the proposal's batch at a rank. -/
def Proposal.draft (p : Proposal) (rank : Rank) : Draft :=
  { Draft.extending p.chain p.previous rank with content := p.content }

/-- One chain of a ledger. -/
structure Chain where
  id : ChainId
  /-- The block that the chain starts from. -/
  genesis : BlockId
  graph : ForkGraph
  backlog : Backlog
  /-- The blocks of the backlog. -/
  buffered : BlockMap Block
  /-- The blocks that are live in the graph. -/
  blocks : BlockMap Block
  content : ContentStore
  /-- The bit by which a split partitions the content. -/
  cursor : Cursor
  /-- The finalized blocks that are not in the global order yet, oldest first. -/
  undelivered : List Block
  /-- The highest `rank.next` that has been finalized. -/
  nextRank : UInt64
  /-- Whether the chain was merged into its parent and takes no more blocks. -/
  retired : Bool
  /-- Whether the chain has finalized enough blocks to stay on offer. -/
  permanent : Bool
deriving DecidableEq

namespace Chain

/-- A chain that starts from a block, with this graph, content and cursor. -/
def start (id : ChainId) (genesis : Block) (graph : ForkGraph) (content : ContentStore)
    (cursor : Cursor) : Chain :=
  { id, genesis := genesis.id, graph, backlog := .empty, buffered := ∅
    blocks := (∅ : BlockMap Block).insert genesis.id genesis
    content, cursor, undelivered := [], nextRank := genesis.rank.next
    retired := false, permanent := false }

/-- The fork graph of a chain that starts from a block. -/
def newGraph (config : Config) (genesis : BlockId) : Except LedgerError ForkGraph :=
  ForkGraph.create genesis config.fork.finalizedWeight config.fork.recordHistory

/-- The root chain of a ledger. It is permanent from the start. -/
def root (config : Config) : Except LedgerError Chain := do
  let genesis := Block.genesis .root
  let graph ← newGraph config genesis.id
  return { start .root genesis graph .empty .top with permanent := true }

/-- Whether a block is live or waiting. -/
def knows (c : Chain) (id : BlockId) : Bool := c.blocks.contains id || c.buffered.contains id

/-- A sample for the load policy. -/
def load (c : Chain) : ChainLoad :=
  { chain := c.id, depth := c.id.depth, pendingItems := c.content.size
    pendingBytes := c.content.pendingBytes, finalizedBlocks := c.graph.finalizedCount }

/-- A snapshot. Whether the chain is split is known only to the tree that holds it. -/
def stats (c : Chain) (isSplit : Bool) : ChainStats :=
  { chain := c.id, depth := c.id.depth, liveBlocks := c.graph.nodes.size
    bufferedBlocks := c.buffered.size, missingDependencies := c.backlog.missingCount
    tips := c.graph.tips.size, finalizedBlocks := c.graph.finalizedCount
    undeliveredBlocks := c.undelivered.length, nextRank := c.nextRank
    pendingContent := c.content.size, pendingBytes := c.content.pendingBytes
    priorityTip := c.graph.priorityTip, permanent := c.permanent, retired := c.retired
    isSplit }

/-- What the next block should extend and carry: it follows the priority tip, with content that
no live block behind the tip carries. -/
def proposal (c : Chain) (config : Config) (maxSize : Nat) : Proposal :=
  let tip := c.graph.priorityTip
  { chain := c.id, previous := tip
    content := c.content.batch c.blocks [tip] 0 maxSize config.content.reserve
    minRank := (c.blocks[tip]?.map (·.rank.next)).getD 0 }

/-- Forget waiting blocks. -/
def forget (c : Chain) (ids : List BlockId) : Chain :=
  { c with buffered := ids.foldl (fun m id => m.erase id) c.buffered }

/-- Give up a waiting block and everything that waits behind it; the dropped blocks are listed.
Nothing happens if the block does not wait. -/
def discardPending (c : Chain) (id : BlockId) : Chain × List BlockId :=
  match c.buffered[id]? with
  | none => (c, [])
  | some block =>
    let (backlog, behind) := c.backlog.discard block
    let dropped := block.id :: behind.map (·.id)
    (({ c with backlog } : Chain).forget (id :: dropped), dropped)

/-- Stop taking blocks, and give up the waiting ones. -/
def retire (c : Chain) : Chain :=
  { c with retired := true, buffered := ∅, backlog := .empty }

/-- Remove content that a finalized block carries. -/
def consume (c : Chain) (ids : List ContentId) : Chain :=
  { c with content := (c.content.deleteMany ids).1 }

/-- The rank of the oldest finalized block that is not in the global order yet. -/
def headRank? (c : Chain) : Option UInt64 := c.undelivered.head?.map (·.rank.current)

/-- Take the oldest finalized block that is not in the global order yet. -/
def pop (c : Chain) : Chain × Option Block :=
  ({ c with undelivered := c.undelivered.tail }, c.undelivered.head?)

/-- The chain as one line. -/
def describe (c : Chain) : String :=
  s!"ChainController \x7b id: {c.id.describe}, genesis: {c.genesis.describe}, retired: {c.retired}, .. \x7d"

end Chain

end ShardLedger
