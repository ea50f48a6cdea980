import ShardLedger.Proofs.Tree.Settling

/-!
# A block enters a branch

`Branch.apply` lets a released block enter the topmost chain. On a running chain that finalizes a
linked run of blocks, which begins after the old anchor and ends with the new one.

- `Chain.Running`: a sound chain that takes blocks, with the block that its anchor stands on.
- `Event.finalizations`: what an event reports as finalized.
- `Branch.apply_eq`: all that one block does.
-/

namespace ShardLedger

/-- A sound chain that takes blocks, anchored at `top`. -/
structure Chain.Running (seen : List Block) (c : Chain) (top : Block) : Prop where
  sound : c.Sound seen
  live : c.retired = false
  anchor : c.blocks[c.graph.anchor]? = some top
  nextRank : c.nextRank = top.rank.next

/-- What an event reports as finalized: the identity of each block, with the chain. -/
def Event.finalizations : Event → List (ChainId × BlockId)
  | .finalized chain ordered _ => ordered.map (chain, ·)
  | _ => []

/-- The blocks that a block is reported to have finalized. -/
theorem Chain.Applied.finalizations_reports (a : Applied) (chain : ChainId)
    (block : BlockId) :
    (a.reports chain block).flatMap Event.finalizations = a.step.finalized.map (chain, ·) := by
  unfold reports
  split
  · rw [(ForkStep.isEmpty_iff.1 ‹_›).1]
    rfl
  · exact List.append_nil _

namespace Chain

variable {seen : List Block} {c d : Chain} {top : Block}

theorem Running.of_bare (h : c.Running seen top) (heq : d.bare = c.bare) : d.Running seen top := by
  rw [eq_of_bare heq]
  exact ⟨h.sound.congr rfl rfl rfl h.sound.waiting, h.live, h.anchor, h.nextRank⟩

/-- A chain that was split off is running, anchored at its seed. -/
theorem running_start {config : Config} {id : ChainId} {seed : Block} {graph : ForkGraph}
    {content : ContentStore} {cursor : Cursor} (hg : newGraph config seed.id = .ok graph) :
    (start id seed graph content cursor).Running seen seed := by
  have hanchor : graph.anchor = seed.id := (ForkGraph.create_fresh hg).anchor
  refine ⟨sound_start hg, rfl, ?_, rfl⟩
  show ((∅ : BlockMap Block).insert seed.id seed)[graph.anchor]? = some seed
  rw [Lookup.get_insert, if_pos hanchor.symm]

/-- Changes to what waits leave a chain running. -/
theorem Running.rest {backlog : Backlog} {buffered : BlockMap Block} (h : c.Running seen top)
    (hs : ({ c with backlog, buffered } : Chain).Sound seen) :
    ({ c with backlog, buffered } : Chain).Running seen top :=
  ⟨hs, h.live, h.anchor, h.nextRank⟩

/-- A running chain that lets a block in and puts what it finalizes in line is still running. -/
theorem Running.enter (config : Config) {block : Block} {a : Applied} (h : c.Running seen top)
    (he : Entered seen c top block a) :
    (a.outcome.1.enqueueAll config a.outcome.2).Running seen (a.outcome.2.getLastD top) := by
  obtain ⟨nextRank, permanent, heq⟩ := enqueueAll_eq config a.outcome.2 a.outcome.1
  have hnext : (a.outcome.1.enqueueAll config a.outcome.2).nextRank =
      (a.outcome.2.getLastD top).rank.next := by
    refine nextRank_enqueueAll config he.links ?_
    rw [he.rest]
    exact h.nextRank
  have hgraph : a.outcome.1.graph = a.chain.graph := by
    rw [he.rest]
  rw [heq] at hnext ⊢
  refine ⟨he.sound.congr rfl rfl rfl he.sound.waiting, ?_, ?_, hnext⟩
  · show a.outcome.1.retired = false
    rw [he.rest]
    exact h.live
  · show a.outcome.1.blocks[a.outcome.1.graph.anchor]? = _
    rw [hgraph]
    exact he.anchor

end Chain

namespace Branch

variable {seen : List Block} {b : Branch} {block top : Block}

/-- Either the block stays outside and nothing happens, or it enters the topmost chain, and the run
of blocks that it finalizes is reported and put in line. -/
theorem apply_eq (rules : Rules) (roster : Roster) (h : b.chain.Running seen top)
    (hb : Admitted seen b.chain.id block) :
    b.apply rules roster block = (b, roster, []) ∨
      ∃ a b' roster' events, Chain.Entered seen b.chain top block a ∧
        b.apply rules roster block = (b', roster', events) ∧
        settleAll rules roster (b.withChain a.outcome.1) a.outcome.2 = (b', roster') ∧
        events.flatMap Event.finalizations = a.outcome.2.map fun x => (b.chain.id, x.id) := by
  cases ha : b.chain.apply block with
  | none => exact Or.inl (apply_of_none ha)
  | some a =>
    have he := Chain.apply_entered h.sound hb h.anchor ha
    refine Or.inr ⟨a, _, _, _, he, apply_of_some ha, rfl, ?_⟩
    rw [a.finalizations_reports, ← he.ids, List.map_map]
    rfl

/-- The topmost chain is still running once the blocks have been finalized. -/
theorem Settled.running {rules : Rules} {roster roster' : Roster} {b' : Branch} {a : Chain.Applied}
    (hs : Settled rules roster (b.withChain a.outcome.1) a.outcome.2 b' roster')
    (h : b.chain.Running seen top) (he : Chain.Entered seen b.chain top block a) :
    b'.chain.Running seen (a.outcome.2.getLastD top) := by
  refine (h.enter rules.config he).of_bare ?_
  rw [hs.top, chain_withChain, Chain.enqueueAll_bare]

end Branch

end ShardLedger
