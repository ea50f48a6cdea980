import ShardLedger.Ledger.Basic
import ShardLedger.Simulation.Random

/-!
# Simulated proposers

A proposer takes turns. In each it picks a chain, asks for a proposal and ranks the block by the
round. Now and then it uses the proposal of its last turn on that chain again, so that the block
extends an older tip and forks.
-/

namespace ShardLedger

/-- A proposer that draws its decisions. -/
structure Proposer where
  name : String
  /-- The chance in percent of using an older proposal. -/
  forkPercent : Nat
  /-- The chance in percent of looking beyond the chains on offer. -/
  explorePercent : Nat
  /-- The last proposal seen on each chain. -/
  last : List (ChainId × Proposal)
  /-- The number of blocks built. -/
  proposed : Nat

/-- A block that a proposer built. -/
structure Proposed where
  block : Block
  /-- Whether it was built on an older proposal. -/
  forked : Bool

namespace Proposer

/-- A proposer named by its index. -/
def create (index forkPercent explorePercent : Nat) : Proposer :=
  { name := s!"proposer-{index}", forkPercent, explorePercent, last := [], proposed := 0 }

/-- The last proposal seen on a chain. -/
def last? (p : Proposer) (chain : ChainId) : Option Proposal :=
  (p.last.find? (·.1 = chain)).map (·.2)

/-- Remember a proposal as the last one seen on its chain. -/
def remember (p : Proposer) (proposal : Proposal) : Proposer :=
  { p with last := (proposal.chain, proposal) :: p.last.filter (·.1 ≠ proposal.chain) }

/-- The chains that a turn may choose from: those on offer, or now and then every live one. A
young chain is not on offer before it has finalized something. -/
def candidates (p : Proposer) (rules : Rules) (l : Ledger) (r : Rng) : List ChainId × Rng :=
  let (explore, r) := r.hit p.explorePercent
  if explore then
    ((l.registeredBranches.filter fun b => !b.chain.retired).map (·.chain.id), r)
  else (l.available rules, r)

/-- One turn: a block for the round, or nothing if no chain is open. -/
def turn (p : Proposer) (rules : Rules) (l : Ledger) (round : UInt64) (maxSize : Nat) (r : Rng) :
    Proposer × Option Proposed × Rng :=
  let (chains, r) := p.candidates rules l r
  match r.pick chains with
  | (none, r) => (p, none, r)
  | (some chain, r) =>
    match l.proposal rules chain maxSize with
    | .error _ => (p, none, r)
    | .ok fresh =>
      let stale := (p.last? chain).filter fun stale => stale.previous ≠ fresh.previous
      let (proposal, forked, r) :=
        match stale with
        | none => (fresh, false, r)
        | some stale =>
          let (fork, r) := r.hit p.forkPercent
          (if fork then stale else fresh, fork, r)
      let current := if round < proposal.minRank then proposal.minRank else round
      let draft := { proposal.draft ⟨current, current + 1⟩ with
        proposer := s!"{p.name}#{p.proposed}" }
      let p := p.remember fresh
      ({ p with proposed := p.proposed + 1 }, some ⟨Block.ofDraft draft, forked⟩, r)

end Proposer

end ShardLedger
