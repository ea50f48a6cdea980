import ShardLedger.Ledger.Pass
import ShardLedger.Simulation.Proposer
import ShardLedger.Simulation.Setup

/-!
# One simulated run

A run drives one ledger through rounds. In each round content arrives, perhaps an item is
invalidated, every proposer takes a turn, the blocks that are due are delivered, and the ledger
makes a pass. After the last round everything on its way is delivered and the ledger settles.

- `Simulation.run`: the whole run from a setup.
- `RunResult`: what is looked at afterwards.
-/

namespace ShardLedger

/-- Something that happened in a run. -/
inductive Trace where
  | content (item : ContentId) (chain : ChainId)
  | invalidated (item : ContentId) (chain : Option ChainId)
  | proposed (proposer : String) (chain : ChainId) (block : BlockId) (forked : Bool)
  | delivered (block : BlockId) (outcome : Outcome)
  | pass (report : PassReport)
deriving DecidableEq

/-- What a run counts. -/
structure Tally where
  proposed : Nat := 0
  forked : Nat := 0
  applied : Nat := 0
  buffered : Nat := 0
  duplicates : Nat := 0
  rejected : Nat := 0
  spawned : Nat := 0
  merges : Nat := 0
  removed : Nat := 0
deriving DecidableEq, Inhabited

namespace Tally

/-- Count a delivered block. -/
def countOutcome (t : Tally) : Outcome → Tally
  | .applied n => { t with applied := t.applied + n }
  | .buffered => { t with buffered := t.buffered + 1 }
  | .duplicate => { t with duplicates := t.duplicates + 1 }
  | .rejected _ => { t with rejected := t.rejected + 1 }

/-- Count what a pass did. -/
def countPass (t : Tally) (report : PassReport) : Tally :=
  { t with
    spawned := t.spawned + report.registered.length
    merges := t.merges + report.merged.length
    removed := t.removed + report.removed.length }

/-- The counts as a document. -/
def toDocument (t : Tally) : Document :=
  .table
    [("proposed", .nat t.proposed), ("forked", .nat t.forked), ("applied", .nat t.applied),
     ("buffered", .nat t.buffered), ("duplicates", .nat t.duplicates),
     ("rejected", .nat t.rejected), ("spawned_chains", .nat t.spawned),
     ("merges", .nat t.merges), ("removed_chains", .nat t.removed)]

end Tally

/-- A registered chain at the end of a run. -/
structure ChainSnapshot where
  id : ChainId
  retired : Bool
  children : Option (ChainId × ChainId)
  /-- The pending items, in order. -/
  pending : List ContentId
  /-- The rank of the oldest finalized block without a place in the global order. -/
  undeliveredHead : Option UInt64
deriving DecidableEq

/-- A registered chain as it stands. -/
def Branch.snapshot (b : Branch) : ChainSnapshot :=
  { id := b.chain.id, retired := b.chain.retired
    children := b.children?.map fun (l, r) => (l.chain.id, r.chain.id)
    pending := b.chain.content.ids, undeliveredHead := b.chain.headRank? }

/-- What is looked at after a run. -/
structure RunResult where
  trace : List (Nat × Trace)
  tally : Tally
  rootGenesis : BlockId
  /-- Every block that a proposer built. -/
  blocks : BlockMap Block
  /-- Every block reported finalized, with its chain, in the order of the reports. -/
  finalized : List (ChainId × BlockId)
  /-- The global order. -/
  linearized : List Block
  submitted : ContentSet
  invalidated : ContentSet
  chains : List ChainSnapshot
  finalBar : UInt64
  /-- Whether chains were both split off and merged. -/
  interesting : Bool

/-- A run in progress. -/
structure Simulation where
  rng : Rng
  ledger : Ledger
  delivery : Delivery
  proposers : List Proposer
  trace : List (Nat × Trace)
  tally : Tally
  blocks : BlockMap Block
  /-- The items that were new when they arrived, in order. -/
  submitted : List ContentId
  invalidated : ContentSet
  /-- What an observer of the ledger was told. -/
  events : List Event

namespace Simulation

/-- A run before its first round. -/
def start (setup : Setup) (ledger : Ledger) : Simulation :=
  { rng := .ofSeed setup.seed, ledger, delivery := .start setup.faults
    proposers := (List.range setup.proposers).map fun i =>
      Proposer.create i setup.forkPercent setup.explorePercent
    trace := [], tally := {}, blocks := ∅, submitted := [], invalidated := ∅, events := [] }

/-- Note something that happened. -/
def note (s : Simulation) (round : Nat) (what : Trace) : Simulation :=
  { s with trace := s.trace ++ [(round, what)] }

/-- The payload of a drawn item: some noise, and the round and the index, which keep the payloads
apart. -/
def drawPayload (r : Rng) (round index : Nat) : List UInt8 × Rng :=
  let extra := r.bounded 48
  let noise := extra.2.bytes (16 + extra.1)
  (noise.1 ++ wordBytes (UInt64.ofNat round) ++ wordBytes (UInt64.ofNat index), noise.2)

/-- A drawn item. Its fingerprints agree on up to three leading bytes, so that items come to rest
at every depth of the tree. -/
def drawItem (r : Rng) (round index : Nat) : ContentItem × Rng :=
  let payload := drawPayload r round index
  let first := payload.2.bytes 32
  let second := first.2.bytes 32
  let shared := second.2.bounded 4
  (ContentItem.ofPayload payload.1 ⟨Digest.ofBytes first.1⟩
     ⟨Digest.ofBytes (first.1.take shared.1 ++ second.1.drop shared.1)⟩, shared.2)

/-- An item arrives. -/
def submitItem (s : Simulation) (round index : Nat) : Simulation :=
  let (item, rng) := drawItem s.rng round index
  let (ledger, chain, new) := s.ledger.submitContent item
  let s := { s with rng, ledger }
  if new then
    { s with submitted := s.submitted ++ [item.id] }.note round (.content item.id chain)
  else s

/-- The content of a round arrives. -/
def submitContent (setup : Setup) (s : Simulation) (round : Nat) : Simulation :=
  if setup.contentRounds ≤ round then s
  else (List.range setup.itemsPerRound).foldl (fun s index => s.submitItem round index) s

/-- Perhaps an item is invalidated; no item is invalidated twice. -/
def invalidate (setup : Setup) (s : Simulation) (round : Nat) : Simulation :=
  match s.rng.hit setup.invalidatePercent with
  | (false, rng) => { s with rng }
  | (true, rng) =>
    match rng.pick s.submitted with
    | (none, rng) => { s with rng }
    | (some item, rng) =>
      if s.invalidated.contains item then { s with rng }
      else
        let (ledger, chain) := s.ledger.invalidate item
        { s with rng, ledger, invalidated := s.invalidated.insert item }.note round
          (.invalidated item chain)

/-- A proposer takes its turn, and its block sets out. The proposer is returned. -/
def turn (setup : Setup) (s : Simulation) (round : Nat) (p : Proposer) : Simulation × Proposer :=
  match p.turn setup.rules s.ledger (UInt64.ofNat round) setup.ledger.content.maxBatchSize
    s.rng with
  | (p, none, rng) => ({ s with rng }, p)
  | (p, some made, rng) =>
    let tally := { s.tally with
      proposed := s.tally.proposed + 1
      forked := if made.forked then s.tally.forked + 1 else s.tally.forked }
    let block := made.block
    let s := { s with rng, tally, blocks := s.blocks.insert block.id block }.note round
      (.proposed p.name block.chain block.id made.forked)
    let (delivery, _, rng) := s.delivery.send block round s.rng
    ({ s with delivery, rng }, p)

/-- Every proposer takes its turn. -/
def turns (setup : Setup) (s : Simulation) (round : Nat) : Simulation :=
  let (s, proposers) := s.proposers.foldl (fun (s, done) p =>
    let (s, p) := s.turn setup round p
    (s, done ++ [p])) (s, [])
  { s with proposers }

/-- A block arrives. -/
def arrive (setup : Setup) (s : Simulation) (round : Nat) (block : Block) : Simulation :=
  let (ledger, outcome, events) := s.ledger.submitBlock setup.rules block
  { s with ledger, tally := s.tally.countOutcome outcome, events := s.events ++ events }.note round
    (.delivered block.id outcome)

/-- Note a pass, unless it did nothing. -/
def notePass (s : Simulation) (round : Nat) (pass : Ledger.Pass) : Simulation :=
  let s := { s with tally := s.tally.countPass pass.report, events := s.events ++ pass.events }
  if pass.report.isIdle then s else s.note round (.pass pass.report)

/-- One round. -/
def round (setup : Setup) (s : Simulation) (n : Nat) : Simulation :=
  let s := ((s.submitContent setup n).invalidate setup n).turns setup n
  let (delivery, arrived, rng) := s.delivery.deliver n s.rng
  let s := arrived.blocks.foldl (fun s block => s.arrive setup n block) { s with delivery, rng }
  let pass := s.ledger.tick setup.rules
  { s with ledger := pass.ledger }.notePass n pass

/-- After the last round: everything arrives, and the ledger settles. -/
def finish (setup : Setup) (s : Simulation) : Simulation :=
  let (delivery, blocks) := s.delivery.drain
  let s := blocks.foldl (fun s block => s.arrive setup setup.rounds block) { s with delivery }
  let (ledger, passes) := s.ledger.settle setup.rules
  passes.foldl (fun s pass => s.notePass setup.rounds pass) { s with ledger }

/-- What is looked at after a run. -/
def result (s : Simulation) : RunResult :=
  { trace := s.trace, tally := s.tally, rootGenesis := s.ledger.root.chain.genesis
    blocks := s.blocks
    finalized := s.events.flatMap fun
      | .finalized chain ordered _ => ordered.map fun id => (chain, id)
      | _ => []
    linearized := s.events.filterMap fun
      | .linearized _ block => some block
      | _ => none
    submitted := (∅ : ContentSet).insertMany s.submitted
    invalidated := s.invalidated
    chains := s.ledger.registeredBranches.map Branch.snapshot
    finalBar := s.ledger.confirmBar
    interesting := decide (0 < s.tally.spawned) && decide (0 < s.tally.merges) }

/-- A whole run. -/
def run (setup : Setup) : Except SetupError RunResult := do
  setup.validate
  match Ledger.create setup.rules with
  | .error e => .error (.badLedger e)
  | .ok ledger =>
    let s := (List.range setup.rounds).foldl (fun s n => s.round setup n) (start setup ledger)
    return (s.finish setup).result

end Simulation

end ShardLedger
