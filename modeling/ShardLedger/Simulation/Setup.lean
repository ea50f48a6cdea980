import ShardLedger.Config.Basic
import ShardLedger.Chain.Load
import ShardLedger.Simulation.Delivery

/-!
# The setup of a simulation

What one simulated run depends on. The defaults keep the ledger small and restless, so that short
runs split, merge and fork.
-/

namespace ShardLedger

/-- Why a simulation or a campaign cannot start. -/
inductive SetupError where
  | noRounds
  | noProposers
  | badLedger (reason : LedgerError)
  | noSeeds
  /-- Content would still arrive after the last round. -/
  | contentOutlasts (contentRounds rounds : Nat)
deriving DecidableEq

/-- The reason in words. -/
def SetupError.message : SetupError → String
  | noRounds => "rounds must be > 0"
  | noProposers => "proposers must be > 0"
  | badLedger reason => s!"invalid ledger configuration: {reason.message}"
  | noSeeds => "seed_range must not be empty"
  | contentOutlasts contentRounds rounds =>
    s!"content_rounds ({contentRounds}) must not exceed rounds ({rounds})"

/-- What one run depends on. -/
structure Setup where
  seed : UInt64 := 0
  rounds : Nat := 64
  proposers : Nat := 3
  /-- The content items that arrive in a round. -/
  itemsPerRound : Nat := 4
  /-- The rounds, from the start, in which content arrives. -/
  contentRounds : Nat := 32
  /-- The chance in percent that a proposal extends an older tip. -/
  forkPercent : Nat := 10
  /-- The chance in percent that a proposer looks beyond the chains on offer. -/
  explorePercent : Nat := 40
  /-- The chance in percent that a round invalidates an item. -/
  invalidatePercent : Nat := 5
  /-- A chain with more pending items splits. -/
  spawnAbove : Nat := 10
  /-- Two leaves that both hold fewer items merge. -/
  mergeBelow : Nat := 3
  faults : Faults := {}
  ledger : Config :=
    { fork := { finalizedWeight := 2 }
      tree := { maxChains := 15, maxDepth := 3 }
      content := { maxBatchSize := 4096, reserve := 256 } }
deriving DecidableEq, Inhabited

namespace Setup

/-- The first reason why a run cannot start. -/
def validate (s : Setup) : Except SetupError Unit :=
  if s.rounds = 0 then .error .noRounds
  else if s.proposers = 0 then .error .noProposers
  else match s.ledger.validate with
    | .error e => .error (.badLedger e)
    | .ok () => .ok ()

/-- The rules of the simulated ledger. -/
def rules (s : Setup) : Rules :=
  { Rules.ofConfig s.ledger with load := .threshold s.spawnAbove s.mergeBelow }

/-- The setup as a document. -/
def toDocument (s : Setup) : Document :=
  .table
    [("seed", .nat s.seed.toNat), ("rounds", .nat s.rounds), ("proposers", .nat s.proposers),
     ("items_per_round", .nat s.itemsPerRound), ("content_rounds", .nat s.contentRounds),
     ("fork_rate_percent", .nat s.forkPercent), ("explore_rate_percent", .nat s.explorePercent),
     ("invalidate_rate_percent", .nat s.invalidatePercent), ("spawn_above", .nat s.spawnAbove),
     ("merge_below", .nat s.mergeBelow),
     ("fault", .table
       [("max_delay_rounds", .nat s.faults.maxDelay),
        ("duplicate_rate_percent", .nat s.faults.duplicatePercent),
        ("reorder_rate_percent", .nat s.faults.reorderPercent)]),
     ("ledger", s.ledger.toDocument)]

end Setup

end ShardLedger
