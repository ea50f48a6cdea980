import ShardLedger.Block.Basic
import ShardLedger.Config.Basic

/-!
# Load, state and policies

What a policy may look at, and the policies that a ledger runs under. A policy is a plain
function; a few ready-made ones stand here.

- `ChainLoad`, `ChainStats`: samples of a chain.
- `LoadPolicy`: when a chain splits and when two chains merge.
- `Rules`: the configuration of a ledger and its policies.
-/

namespace ShardLedger

/-- What the decision to split or merge looks at. -/
structure ChainLoad where
  chain : ChainId
  depth : Nat
  pendingItems : Nat
  pendingBytes : UInt64
  finalizedBlocks : Nat
deriving DecidableEq

/-- A snapshot of one chain. -/
structure ChainStats where
  chain : ChainId
  depth : Nat
  liveBlocks : Nat
  bufferedBlocks : Nat
  missingDependencies : Nat
  tips : Nat
  finalizedBlocks : Nat
  undeliveredBlocks : Nat
  nextRank : UInt64
  pendingContent : Nat
  pendingBytes : UInt64
  priorityTip : BlockId
  permanent : Bool
  retired : Bool
  isSplit : Bool
deriving DecidableEq

/-- When to split a chain, and when to merge two children into their parent. -/
structure LoadPolicy where
  shouldSpawn : ChainLoad → Bool
  shouldMerge : ChainLoad → ChainLoad → ChainLoad → Bool

namespace LoadPolicy

/-- Never split and never merge. -/
def static : LoadPolicy := ⟨fun _ => false, fun _ _ _ => false⟩

/-- Split above so many pending items; merge two children that both hold fewer than so many. -/
def threshold (spawnAbove mergeBelow : Nat) : LoadPolicy where
  shouldSpawn load := spawnAbove < load.pendingItems
  shouldMerge _ left right := left.pendingItems < mergeBelow && right.pendingItems < mergeBelow

end LoadPolicy

/-- Offer the chains that take blocks and have finalized enough of them, or once did. -/
def stablePriority (minFinalizedBlocks : Nat) (stats : ChainStats) : Bool :=
  !stats.retired && (stats.permanent || minFinalizedBlocks ≤ stats.finalizedBlocks)

/-- The configuration of a ledger and its policies. -/
structure Rules where
  config : Config
  /-- Which blocks are valid. -/
  accepts : Block → Bool
  /-- When chains split and merge. -/
  load : LoadPolicy
  /-- Which chains are offered to proposers. -/
  offers : ChainStats → Bool

namespace Rules

/-- The default policies: every block is valid, chains stay as they are, and a chain is offered
as `stablePriority` says. -/
def ofConfig (config : Config) : Rules :=
  { config
    accepts := fun _ => true
    load := .static
    offers := stablePriority config.priority.minFinalizedBlocks }

/-- The rules as one line: the configuration, and how many observers are told of events. -/
def describe (rules : Rules) (observers : Nat) : String :=
  s!"LedgerContext \x7b config: {rules.config.describe}, observers: {observers}, .. \x7d"

end Rules

end ShardLedger
