import ShardLedger.Chain.Basic
import ShardLedger.Fork.Summary

/-!
# Summaries of chains

Loads, snapshots, proposals, outcomes and events, by the names of their parts.
-/

namespace ShardLedger

/-- A load sample. -/
def ChainLoad.summary (l : ChainLoad) : Document :=
  .table
    [("chain", l.chain.summary), ("depth", .nat l.depth), ("pending_items", .nat l.pendingItems),
     ("pending_bytes", .word l.pendingBytes), ("finalized_blocks", .nat l.finalizedBlocks)]

/-- A snapshot of a chain. -/
def ChainStats.summary (s : ChainStats) : Document :=
  .table
    [("chain", s.chain.summary), ("depth", .nat s.depth), ("live_blocks", .nat s.liveBlocks),
     ("buffered_blocks", .nat s.bufferedBlocks),
     ("missing_dependencies", .nat s.missingDependencies), ("tips", .nat s.tips),
     ("finalized_blocks", .nat s.finalizedBlocks),
     ("undelivered_blocks", .nat s.undeliveredBlocks), ("next_rank", .word s.nextRank),
     ("pending_content", .nat s.pendingContent), ("pending_bytes", .word s.pendingBytes),
     ("priority_tip", s.priorityTip.summary), ("permanent", .flag s.permanent),
     ("retired", .flag s.retired), ("split", .flag s.isSplit)]

/-- What the next block should extend and carry. -/
def Proposal.summary (p : Proposal) : Document :=
  .table
    [("chain", p.chain.summary), ("previous", p.previous.summary),
     ("content", .each ContentRef.summary p.content), ("min_rank", .word p.minRank)]

/-- The fields of an outcome. Only a rejection has a message. -/
def Outcome.fields (o : Outcome) : List (String × Document) :=
  [("outcome", .text o.describe), ("accepted", .flag o.isAccepted)]
    ++ o.rejection?.toList.map fun reason => ("message", .text reason.message)

/-- What an observer is told. -/
def Event.summary : Event → Document
  | .applied chain block weight =>
    .table [("applied", block.summary), ("chain", chain.summary), ("weight", .nat weight)]
  | .finalized chain ordered discarded =>
    .table
      [("finalized", .each BlockId.summary ordered),
       ("discarded", .each BlockId.summary discarded), ("chain", chain.summary)]
  | .linearized seq block =>
    .table
      [("linearized", block.id.summary), ("seq", .nat seq), ("chain", block.chain.summary),
       ("rank", .word block.rank.current)]

end ShardLedger
