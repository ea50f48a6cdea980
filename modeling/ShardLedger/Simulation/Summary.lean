import ShardLedger.Ledger.Summary
import ShardLedger.Simulation.Audit

/-!
# Summaries of runs

The trace of a run, what is looked at after it, and what its audit found. Blocks and items are
named by their short forms.
-/

namespace ShardLedger

/-- An entry of a trace: the round, the kind of the entry, and its parts. -/
def Trace.summary (round : Nat) (what : Trace) : Document :=
  let parts : List Document := match what with
    | .content item chain => [.text "content", .text item.short, chain.summary]
    | .invalidated item chain =>
      [.text "invalidated", .text item.short, .optional ChainId.summary chain]
    | .proposed proposer chain block forked =>
      [.text "proposed", .text proposer, chain.summary, .text block.short, .flag forked]
    | .delivered block outcome =>
      [.text "delivered", .text block.short, .text outcome.describe]
    | .pass report =>
      [.text "tick", .each ChainId.summary report.registered,
       .each ChainId.summary report.merged, .each ChainId.summary report.removed,
       .nat report.linearized]
  .list (.nat round :: parts)

/-- A chain as it stood at the end of a run. -/
def ChainSnapshot.summary (c : ChainSnapshot) : Document :=
  .table
    [("id", c.id.summary), ("retired", .flag c.retired),
     ("children", .optional (fun (l, r) => .list [l.summary, r.summary]) c.children),
     ("pending", .each (fun item => .text item.short) c.pending),
     ("head", .optional .word c.undeliveredHead)]

/-- The fields of what is looked at after a run, without the trace. -/
def RunResult.fields (r : RunResult) : List (String × Document) :=
  [("stats", r.tally.toDocument), ("trace_len", .nat r.trace.length),
   ("root_genesis", r.rootGenesis.summary), ("blocks", .nat r.blocks.size),
   ("finalized", .each (fun (chain, id) => .list [chain.summary, .text id.short]) r.finalized),
   ("linearized", .each (fun b =>
     .list [.text b.id.short, b.chain.summary, .word b.rank.current]) r.linearized),
   ("submitted", .nat r.submitted.size),
   ("invalidated", .each (fun item => .text item.short) r.invalidated.toList),
   ("chains", .each ChainSnapshot.summary r.chains), ("final_bar", .word r.finalBar),
   ("interesting", .flag r.interesting)]

/-- Whether an audit passed, and the violations that it found. -/
def Audit.summary (violations : List Violation) : Document :=
  .table
    [("passed", .flag violations.isEmpty),
     ("violations", .each (fun v => .text v.message) violations)]

end ShardLedger
