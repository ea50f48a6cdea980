import ShardLedger.Block.Basic

/-!
# Outcomes of a submission

What became of a submitted block, and why a block was turned away. Turning a block away is an
outcome, not an error.
-/

namespace ShardLedger

/-- Why a block was turned away. -/
inductive Rejection where
  /-- The block does not name exactly one previous block. -/
  | malformedPrevious (count : Nat)
  | wrongChain (expected got : ChainId)
  | unknownChain (chain : ChainId)
  /-- The validator refused the block. -/
  | invalid
  /-- The rank pair points backwards. -/
  | rankOutOfOrder (rank : Rank)
  /-- The rank is below the one that the parent asks for. -/
  | rankBelowParent (required got : UInt64)
  /-- The parent is gone, and the rank is behind what has been finalized. -/
  | stale (nextRank got : UInt64)
  /-- The chain was merged into its parent. -/
  | retired (chain : ChainId)
deriving DecidableEq

namespace Rejection

/-- The reason in words. -/
def message : Rejection → String
  | malformedPrevious count => s!"expected one previous block, got {count}"
  | wrongChain expected got =>
    s!"block for chain {got.number} submitted to chain {expected.number}"
  | unknownChain chain => s!"chain {chain.number} is not registered"
  | invalid => "rejected by the validity oracle"
  | rankOutOfOrder rank => s!"rank {rank.current} exceeds next rank {rank.next}"
  | rankBelowParent required got => s!"rank {got} is below the parent's next rank {required}"
  | stale nextRank got => s!"rank {got} is behind the finalized next rank {nextRank}"
  | retired chain => s!"chain {chain.number} has been merged"

/-- The reason with the names of its parts. -/
def describe : Rejection → String
  | malformedPrevious count => s!"MalformedPrevious \x7b count: {count} \x7d"
  | wrongChain expected got =>
    s!"WrongChain \x7b expected: {expected.describe}, got: {got.describe} \x7d"
  | unknownChain chain => s!"UnknownChain({chain.describe})"
  | invalid => "Invalid"
  | rankOutOfOrder rank => s!"RankOutOfOrder({rank.describe})"
  | rankBelowParent required got =>
    s!"RankBelowParent \x7b required: {required}, got: {got} \x7d"
  | stale nextRank got => s!"Stale \x7b next_rank: {nextRank}, got: {got} \x7d"
  | retired chain => s!"Retired({chain.describe})"

end Rejection

/-- What became of a submitted block. -/
inductive Outcome where
  /-- So many blocks entered the fork graph: the submitted one, and blocks that waited for it. -/
  | applied (count : Nat)
  /-- The parent is unknown, and the block waits for it. -/
  | buffered
  /-- The block is live or waits already. -/
  | duplicate
  | rejected (reason : Rejection)
deriving DecidableEq

namespace Outcome

/-- Whether the chain took the block. -/
def isAccepted : Outcome → Bool
  | applied _ | buffered => true
  | duplicate | rejected _ => false

/-- The reason, for a block that was turned away. -/
def rejection? : Outcome → Option Rejection
  | rejected reason => some reason
  | _ => none

/-- The outcome with the names of its parts. -/
def describe : Outcome → String
  | applied count => s!"Applied \x7b applied: {count} \x7d"
  | buffered => "Buffered"
  | duplicate => "Duplicate"
  | rejected reason => s!"Rejected({reason.describe})"

end Outcome

/-- What an observer of a ledger is told. -/
inductive Event where
  /-- A block entered the fork graph of its chain, at this weight. -/
  | applied (chain : ChainId) (block : BlockId) (weight : Nat)
  /-- A chain finalized blocks, oldest first, and discarded the blocks of dead forks. -/
  | finalized (chain : ChainId) (ordered discarded : List BlockId)
  /-- A block took its place in the global order. -/
  | linearized (seq : Nat) (block : Block)
deriving DecidableEq

end ShardLedger
