import ShardLedger.Simulation.Audit

/-!
# Campaigns

A campaign runs one setup under many seeds, audits every run and remembers the seeds that failed.

- `Campaign.run`: all seeds, with a report.
- `Campaign.runSeed`: one seed, with its audit.
- `Campaign.replay`: one seed of a campaign that may start.
-/

namespace ShardLedger

/-- The seeds of a campaign and the setup that they share. The seeds are those from `seedStart`
up to `seedEnd`, which is left out. -/
structure Campaign where
  seedStart : Nat := 0
  seedEnd : Nat := 100
  setup : Setup := {}
deriving DecidableEq, Inhabited

/-- A seed whose audit found violations. -/
structure SeedFailure where
  seed : Nat
  violations : List Violation
deriving DecidableEq

/-- What a campaign found. -/
structure CampaignReport where
  seedsRun : Nat := 0
  seedsPassed : Nat := 0
  failures : List SeedFailure := []
  /-- The runs in which chains were both split off and merged. -/
  interesting : Nat := 0
  /-- The blocks placed in the global order, over all runs. -/
  linearized : Nat := 0
deriving DecidableEq

namespace CampaignReport

/-- The first seed that failed. -/
def firstFailure? (r : CampaignReport) : Option Nat := r.failures.head?.map (·.seed)

/-- Whether no seed failed. -/
def allPassed (r : CampaignReport) : Bool := r.failures.isEmpty

/-- The report as a document. -/
def toDocument (r : CampaignReport) : Document :=
  .table
    [("seeds_run", .nat r.seedsRun), ("seeds_passed", .nat r.seedsPassed),
     ("first_failure", match r.firstFailure? with
       | some seed => .nat seed
       | none => .null),
     ("failures", .list (r.failures.map fun f =>
       .table [("seed", .nat f.seed),
               ("violations", .list (f.violations.map fun v => .text v.message))])),
     ("interesting_states_reached", .nat r.interesting),
     ("blocks_linearized", .nat r.linearized)]

end CampaignReport

namespace Campaign

/-- The setup for one seed. -/
def setupFor (c : Campaign) (seed : Nat) : Setup := { c.setup with seed := UInt64.ofNat seed }

/-- The first reason why a campaign cannot start. -/
def validate (c : Campaign) : Except SetupError Unit :=
  if c.seedEnd ≤ c.seedStart then .error .noSeeds
  else if c.setup.proposers = 0 then .error .noProposers
  else if c.setup.rounds = 0 then .error .noRounds
  else if c.setup.rounds < c.setup.contentRounds then
    .error (.contentOutlasts c.setup.contentRounds c.setup.rounds)
  else .ok ()

/-- A run under one seed, with the violations that its audit found. -/
def runSeed (c : Campaign) (seed : Nat) : Except SetupError (RunResult × List Violation) := do
  let result ← Simulation.run (c.setupFor seed)
  return (result, Audit.all result)

/-- The report with one more run. -/
def addRun (report : CampaignReport) (seed : Nat) (result : RunResult)
    (violations : List Violation) : CampaignReport :=
  { seedsRun := report.seedsRun + 1
    seedsPassed := if violations.isEmpty then report.seedsPassed + 1 else report.seedsPassed
    failures :=
      if violations.isEmpty then report.failures else report.failures ++ [⟨seed, violations⟩]
    interesting := if result.interesting then report.interesting + 1 else report.interesting
    linearized := report.linearized + result.linearized.length }

/-- Run so many seeds from the given one on. -/
def runFrom (c : Campaign) : Nat → Nat → CampaignReport → Except SetupError CampaignReport
  | 0, _, report => .ok report
  | count + 1, seed, report => do
    let (result, violations) ← c.runSeed seed
    c.runFrom count (seed + 1) (addRun report seed result violations)

/-- Run every seed. -/
def run (c : Campaign) : Except SetupError CampaignReport := do
  c.validate
  c.runFrom (c.seedEnd - c.seedStart) c.seedStart {}

/-- Run one seed of a campaign that may start. -/
def replay (c : Campaign) (seed : Nat) : Except SetupError (RunResult × List Violation) := do
  c.validate
  c.runSeed seed

end Campaign

end ShardLedger
