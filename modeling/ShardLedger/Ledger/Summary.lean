import ShardLedger.Chain.Summary
import ShardLedger.Ledger.Pass

/-!
# Summaries of ledgers

A branch, a pass and a whole ledger at one moment, by the names of their parts.
-/

namespace ShardLedger

/-- The topmost chain of a branch, with the numbers of its children. -/
def Branch.summary (b : Branch) : Document :=
  let c := b.chain
  .table
    [("id", c.id.summary), ("genesis", c.genesis.summary), ("cursor", c.cursor.summary),
     ("children", .optional (fun (l, r) => .list [l.chain.id.summary, r.chain.id.summary])
       b.children?),
     ("retired", .flag c.retired), ("permanent", .flag c.permanent),
     ("next_rank", .word c.nextRank), ("floor", .word b.floor),
     ("undelivered", .nat c.undelivered.length), ("head_rank", .optional .word c.headRank?),
     ("head", .list [c.graph.priorityTip.summary])]

/-- The loads that a merge of the children of a split chain looks at. -/
def Branch.mergeSummary (b : Branch) : Document :=
  .optional (fun (parent, left, right) => .each ChainLoad.summary [parent, left, right])
    b.mergeLoads?

/-- A block in its place in the global order, with its rank. -/
def Linearized.summary (l : Linearized) : Document :=
  .list [.nat l.seq, l.chain.summary, .word l.block.rank.current]

/-- What a pass did. -/
def PassReport.summary (r : PassReport) : Document :=
  .table
    [("registered", .each ChainId.summary r.registered),
     ("merged", .each ChainId.summary r.merged), ("removed", .each ChainId.summary r.removed),
     ("linearized", .nat r.linearized), ("idle", .flag r.isIdle)]

/-- The registered chains, those on offer, and how far the global order has come. -/
def Ledger.summary (l : Ledger) (rules : Rules) : Document :=
  .table
    [("chains", .each ChainId.summary l.registered),
     ("available", .each ChainId.summary (l.available rules)), ("bar", .word l.confirmBar),
     ("linearized", .nat l.linearizer.delivered)]

end ShardLedger
