import ShardLedger.Block.Basic
import ShardLedger.Simulation.Random

/-!
# Faulty delivery

The way of blocks from proposers to the ledger. A block may be late, may arrive twice, and the
blocks that arrive in one round may arrive in any order. Nothing is lost.

- `Delivery.send`: a block sets out, and perhaps a copy of it.
- `Delivery.deliver`: the blocks due by a round.
- `Delivery.drain`: everything left, by due round.
-/

namespace ShardLedger

/-- How faulty delivery is. -/
structure Faults where
  /-- The longest delay in rounds. -/
  maxDelay : Nat := 2
  /-- The chance in percent that a block is sent twice. -/
  duplicatePercent : Nat := 5
  /-- The chance in percent that the blocks of a round are shuffled. -/
  reorderPercent : Nat := 20
deriving DecidableEq, Inhabited

/-- A block on its way. -/
structure InFlight where
  /-- The round by which it arrives. -/
  due : Nat
  block : Block
deriving DecidableEq

/-- The blocks on their way, in the order in which they were sent. -/
structure Delivery where
  faults : Faults
  pending : List InFlight
deriving DecidableEq

namespace Delivery

/-- Nothing is on its way. -/
def start (faults : Faults) : Delivery := ⟨faults, []⟩

/-- What happened to a block that was sent. -/
structure Sent where
  duplicated : Bool
  delay : Nat
deriving DecidableEq

/-- Send a block. A copy, if there is one, has a delay of its own and may overtake the block. -/
def send (q : Delivery) (block : Block) (round : Nat) (r : Rng) : Delivery × Sent × Rng :=
  let (delay, r) := r.bounded (q.faults.maxDelay + 1)
  let sent : InFlight := ⟨addCapped round delay, block⟩
  let (duplicated, r) := r.hit q.faults.duplicatePercent
  if duplicated then
    let (extra, r) := r.bounded (q.faults.maxDelay + 1)
    let copy : InFlight := ⟨addCapped round extra, block⟩
    ({ q with pending := q.pending ++ [copy, sent] }, ⟨true, delay⟩, r)
  else ({ q with pending := q.pending ++ [sent] }, ⟨false, delay⟩, r)

/-- The blocks that arrive in a round. -/
structure Delivered where
  blocks : List Block
  reordered : Bool
deriving DecidableEq

/-- Take every block due by a round, in the order of sending unless it is shuffled. Fewer than two
blocks are not shuffled. -/
def deliver (q : Delivery) (round : Nat) (r : Rng) : Delivery × Delivered × Rng :=
  let (ready, later) := q.pending.partition (·.due ≤ round)
  let q := { q with pending := later }
  let blocks := ready.map (·.block)
  if blocks.length ≤ 1 then (q, ⟨blocks, false⟩, r)
  else
    let (reordered, r) := r.hit q.faults.reorderPercent
    if reordered then
      let (blocks, r) := r.shuffle blocks
      (q, ⟨blocks, true⟩, r)
    else (q, ⟨blocks, false⟩, r)

/-- Take everything left, by due round; what is due in one round stays in the order of sending. -/
def drain (q : Delivery) : Delivery × List Block :=
  ({ q with pending := [] }, (q.pending.mergeSort fun a b => a.due ≤ b.due).map (·.block))

end Delivery

end ShardLedger
