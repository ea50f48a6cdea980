import ShardLedger.Block.Summary
import ShardLedger.Fork.Graph

/-!
# Summaries of fork graphs

A graph at one moment: its tips, its anchor, and what it has finalized.
-/

namespace ShardLedger

/-- The finalized blocks with their weights, if a record is kept. -/
def ForkGraph.historySummary (g : ForkGraph) : Document :=
  .optional (.each fun (id, weight) => .list [id.summary, .nat weight]) g.history

/-- A graph by its tips, its anchor and its counts. The next block follows the head. -/
def ForkGraph.summary (g : ForkGraph) : Document :=
  .table
    [("tips", .each BlockId.summary g.tips.toList), ("tip", g.priorityTip.summary),
     ("head", .list [g.priorityTip.summary]), ("last_finalized", g.anchor.summary),
     ("count", .nat g.finalizedCount), ("len", .nat g.nodes.size),
     ("empty", .flag g.nodes.isEmpty), ("w", .nat g.finalizedWeight),
     ("history", g.historySummary)]

/-- A live node of the given name. -/
def ForkNode.summary (id : BlockId) (n : ForkNode) : Document :=
  .table
    [("id", id.summary), ("previous", .each BlockId.summary n.previous.toList),
     ("following", .each BlockId.summary n.following.toList), ("weight", .nat n.weight)]

/-- A step, with the graph that it led to. -/
def ForkStep.summary (s : ForkStep) (g : ForkGraph) : Document :=
  .table
    [("finalized", .each BlockId.summary s.finalized), ("pruned", .each BlockId.summary s.pruned),
     ("empty", .flag s.isEmpty), ("tip", g.priorityTip.summary), ("len", .nat g.nodes.size)]

end ShardLedger
