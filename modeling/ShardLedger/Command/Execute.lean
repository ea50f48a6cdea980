import ShardLedger.Command.Arguments
import ShardLedger.Command.Usage
import ShardLedger.Document.Json

/-!
# Commands

What the program prints for a command line, and the code that it ends with: 0 if all is well, 1
if an audit found violations or a campaign cannot start, 2 if the words make no sense.

- `Command.execute`: the output of a command line.
-/

namespace ShardLedger

/-- What the program prints, and the code that it ends with. -/
structure Output where
  code : Nat
  printed : String := ""
  complaint : String := ""
deriving DecidableEq

namespace Command

/-- Lines of text. -/
def lines (ls : List String) : String := String.join (ls.map (· ++ "\n"))

/-- The line of a violation. -/
def violationLine (v : Violation) : String := s!"  - {v.message}"

/-- A campaign's report in text. At most five failures are spelled out. -/
def campaignText (c : Campaign) (r : CampaignReport) : String :=
  let setup := c.setup
  let failed := r.failures.length
  lines
    ([s!"campaign seeds_run={r.seedsRun} rounds={setup.rounds} proposers={setup.proposers} fork_rate={setup.forkPercent}%",
      s!"results passed={r.seedsPassed} failed={failed} interesting_states={r.interesting} linearized={r.linearized}"]
     ++ (r.failures.take 5).flatMap (fun f =>
       s!"failure seed={f.seed} violations={f.violations.length}" :: f.violations.map violationLine)
     ++ (if 5 < failed then [s!"failures_truncated count={failed - 5}"] else [])
     ++ match r.firstFailure? with
       | some seed => [s!"hint arbor-sim replay --seed {seed} --rounds {setup.rounds}"]
       | none => [])

/-- A replayed run in text. -/
def replayText (seed : Nat) (r : RunResult) (violations : List Violation) : String :=
  let tally := r.tally
  lines
    ([s!"replay seed={seed} trace_events={r.trace.length} proposed={tally.proposed} forked={tally.forked}",
      s!"tree spawned={tally.spawned} merges={tally.merges} linearized={r.linearized.length} final_bar={r.finalBar}",
      s!"oracle passed={violations.isEmpty}"]
     ++ violations.map violationLine)

/-- A replayed run as a document. -/
def replayDocument (seed : Nat) (r : RunResult) (violations : List Violation) : Document :=
  .table
    [("seed", .nat seed), ("trace_events", .nat r.trace.length),
     ("proposed", .nat r.tally.proposed), ("forked", .nat r.tally.forked),
     ("spawned_chains", .nat r.tally.spawned), ("merges", .nat r.tally.merges),
     ("linearized", .nat r.linearized.length), ("final_bar", .nat r.finalBar.toNat),
     ("oracle_passed", .flag violations.isEmpty),
     ("violations", .list (violations.map fun v => .text v.message)),
     ("interesting_state_reached", .flag r.interesting)]

/-- The output of a result, unless it could not be had. -/
def report {α : Type} (result : Except SetupError α) (passed : α → Bool) (text : α → String) :
    Output :=
  match result with
  | .error e => { code := 1, complaint := s!"Error: {e.message}\n" }
  | .ok a => { code := if passed a then 0 else 1, printed := text a }

/-- The output of a request. -/
def respond : Request → Output
  | .version => { code := 0, printed := versionText }
  | .help command => { code := 0, printed := usage command }
  | .misuse => { code := 2, complaint := programUsage }
  | .run format c =>
    report c.run CampaignReport.allPassed fun r =>
      match format with
      | .text => campaignText c r
      | .json => r.toDocument.toJson ++ "\n"
  | .replay format seed c =>
    report (c.replay seed) (fun (_, violations) => violations.isEmpty) fun (r, violations) =>
      match format with
      | .text => replayText seed r violations
      | .json => (replayDocument seed r violations).toJson ++ "\n"

/-- The output of a command line. -/
def execute (words : List String) : Output := respond (parse words)

end Command

end ShardLedger
