import ShardLedger.Ledger.Basic

/-!
# Passes

A pass over a ledger has four stages, each a function of its own:

1. `Ledger.registerSpawned`: chains that were split off are registered.
2. `Ledger.mergeIdle`: pairs of idle leaves are folded back into their parents.
3. `Ledger.linearize`: finalized blocks below the bar are placed in the global order.
4. `Ledger.removeDrained`: merged chains with nothing left to place are removed.

`Ledger.tick` runs the four stages once, and `Ledger.settle` runs passes until one does nothing.
-/

namespace ShardLedger

/-- What a pass did. -/
structure PassReport where
  registered : List ChainId
  merged : List ChainId
  removed : List ChainId
  linearized : Nat
deriving DecidableEq

/-- Whether a pass did nothing. -/
def PassReport.isIdle (r : PassReport) : Bool :=
  r.registered.isEmpty && r.merged.isEmpty && r.removed.isEmpty && r.linearized == 0

namespace Ledger

/-! ### Registering -/

/-- Register the chains that were split off, in the order of the splits. -/
def registerSpawned (l : Ledger) : Ledger × List ChainId :=
  ({ l with registered := l.registered ++ l.roster.spawned
            roster := { l.roster with spawned := [] } }, l.roster.spawned)

/-! ### Merging -/

/-- The number of live registered chains. -/
def activeCount (l : Ledger) : Nat := (l.registered.filter fun id => (l.live? id).isSome).length

/-- Fold the children of a chain back into it, if both are leaves and the load policy asks for
it. -/
def mergeAt? (l : Ledger) (rules : Rules) (id : ChainId) : Option Ledger := do
  let b ← l.live? id
  let (parent, left, right) ← b.mergeLoads?
  if rules.load.shouldMerge parent left right then
    let (merged, left, right) ← b.merge?
    return { l with
      root := Branch.replace merged id.path l.root
      retired := l.retired ++ [left, right]
      leaving := l.leaving ++ [left.id, right.id] }
  else none

/-- The result of one round of merges. -/
structure MergeRound where
  ledger : Ledger
  merged : List ChainId
  /-- Whether a further merge would leave too few chains. -/
  stopped : Bool

/-- The least number of live chains of which two may be merged away. Like the count that it is
compared with it is a word, so the sum wraps. -/
def mergeBound (rules : Rules) : UInt64 := UInt64.ofNat rules.config.tree.minChains + 2

/-- Merge below each of the given chains in turn, while enough of the `active` chains are left. -/
def mergeRound (rules : Rules) : List ChainId → UInt64 → Ledger → MergeRound
  | [], _, l => ⟨l, [], false⟩
  | id :: rest, active, l =>
    if active < mergeBound rules then ⟨l, [], true⟩
    else match l.mergeAt? rules id with
      | none => mergeRound rules rest active l
      | some l =>
        let round := mergeRound rules rest (active - 2) l
        { round with merged := id :: round.merged }

/-- Rounds of merges, until one merges nothing or is stopped. -/
def mergeRounds (rules : Rules) : Nat → Ledger → Ledger × List ChainId
  | 0, l => (l, [])
  | fuel + 1, l =>
    let round := mergeRound rules l.registered (UInt64.ofNat l.activeCount) l
    if round.stopped || round.merged.isEmpty then (round.ledger, round.merged)
    else
      let (l, later) := mergeRounds rules fuel round.ledger
      (l, round.merged ++ later)

/-- Merge until nothing is left to merge. Every round but the last one undoes a split, so there
are no more rounds than splits and one. -/
def mergeIdle (l : Ledger) (rules : Rules) : Ledger × List ChainId :=
  mergeRounds rules (l.root.splits + 1) l

/-! ### Placing -/

/-- Place the finalized blocks below the bar in the global order. -/
def linearize (l : Ledger) : Ledger × List Linearized :=
  let (linearizer, delivered, left) := l.linearizer.run l.sources
  (left.foldl (fun l s => l.update s.chain fun c => { c with undelivered := s.queue })
     { l with linearizer }, delivered)

/-! ### Removing -/

/-- Whether a merged chain can be removed: it is registered and has nothing left to place. -/
def isDrained (l : Ledger) (id : ChainId) : Bool :=
  if id ∈ l.registered then
    match l.branch? id with
    | some b => b.chain.undelivered.isEmpty
    | none => true
  else !l.roster.spawned.contains id

/-- Remove a merged chain. -/
def remove (l : Ledger) (id : ChainId) : Ledger :=
  { l with
    retired := l.retired.filter (·.id ≠ id)
    registered := l.registered.erase id
    roster := l.roster.release id
    leaving := l.leaving.erase id }

/-- Remove the merged chains that are drained, in the order of the merges. The chains that left
are returned beside their numbers. -/
def removeDrained (l : Ledger) : Ledger × List ChainId × List Chain :=
  let drained := l.leaving.filter l.isDrained
  (drained.foldl remove l, drained,
   drained.filterMap fun id => (l.branch? id).map (·.chain))

/-! ### Whole passes -/

/-- The result of a pass. -/
structure Pass where
  ledger : Ledger
  report : PassReport
  /-- The blocks placed in the global order. -/
  delivered : List Linearized
  /-- The merged chains that left the ledger. -/
  departed : List Chain

/-- What observers are told of a pass. -/
def Pass.events (p : Pass) : List Event :=
  p.delivered.map fun d => .linearized d.seq d.block

/-- One pass. -/
def tick (l : Ledger) (rules : Rules) : Pass :=
  let (l, registered) := l.registerSpawned
  let (l, merged) := l.mergeIdle rules
  let (l, delivered) := l.linearize
  let (l, removed, departed) := l.removeDrained
  { ledger := l, delivered, departed
    report := { registered, merged, removed, linearized := delivered.length } }

/-- Passes until one does nothing. That last one is left out. -/
def settleWithin (rules : Rules) : Nat → Ledger → Ledger × List Pass
  | 0, l => (l, [])
  | fuel + 1, l =>
    let pass := l.tick rules
    if pass.report.isIdle then (pass.ledger, [])
    else
      let (l, later) := settleWithin rules fuel pass.ledger
      (l, pass :: later)

/-- A bound on the passes that still find something to do: a pass registers a chain, undoes a
split and lets two chains leave, places a block, or removes a chain. -/
def pendingWork (l : Ledger) : Nat :=
  l.roster.spawned.length + 3 * l.root.splits + l.leaving.length
    + total ((l.root.chains ++ l.retired).map (·.undelivered.length))

/-- Passes until one does nothing. -/
def settle (l : Ledger) (rules : Rules) : Ledger × List Pass :=
  settleWithin rules (l.pendingWork + 1) l

end Ledger

end ShardLedger
