import Mathlib.Data.List.Count
import ShardLedger.Proofs.Content.Depot
import ShardLedger.Proofs.Fork.Turnover
import ShardLedger.Proofs.Tree.Entering
import ShardLedger.Proofs.Tree.Life

/-!
# A chain told by its events

An observer who adds up the events of a chain knows its fork graph: whatever entered has been
finalized, or discarded, or is live below the anchor. And the blocks that were finalized lead in one
line from the block that the chain started from to the anchor.

## Proof structure

One block that enters turns over the graph (`ForkGraph.Stages.turnover`) and finalizes a linked run
of blocks (`Chain.apply_entered`). `Chain.kept_recorded` adds both to the account, and
`Chain.Becomes.keeps` does so for the whole life of a chain.

- `Chain.Recorded`: the account, kept block by block.
- `Chain.Balanced`, `Chain.Life.balanced`: what it comes to.
-/

namespace ShardLedger

namespace Chain

variable {rules : Rules} {config : Config} {seen queue xs : List Block} {c d : Chain}
  {id : ChainId} {log : List Receipt} {events : List Event} {genesis x : Block} {a : Applied}

/-- What was reported of chain `id`, which started from `genesis`, and what it put in line add up to
what it is. -/
structure Recorded (seen : List Block) (id : ChainId) (genesis : Block) (events : List Event)
    (queue : List Block) (c : Chain) : Prop where
  chain : c.id = id
  own : ∀ e ∈ events, e.chain? = some id
  balance : (enteredIn events).Perm
    (finalizedIn events ++ discardedIn events ++ c.graph.others)
  queued : queue.map (·.id) = finalizedIn events
  links : Links seen id genesis queue
  anchor : c.blocks[c.graph.anchor]? = some (queue.getLastD genesis)

theorem Recorded.akin (h : Recorded seen id genesis events queue c) (hakin : Akin c d) :
    Recorded seen id genesis events queue d where
  chain := hakin.id.trans h.chain
  own := h.own
  balance := by
    rw [hakin.graph]
    exact h.balance
  queued := h.queued
  links := h.links
  anchor := by
    rw [hakin.graph, hakin.blocks]
    exact h.anchor

theorem Applied.chain?_reports (a : Applied) {id : ChainId} {block : BlockId} :
    ∀ e ∈ a.reports id block, e.chain? = some id := by
  intro e he
  unfold reports at he
  rcases List.mem_cons.1 he with rfl | he
  · rfl
  · split at he
    · cases he
    · rw [List.mem_singleton.1 he]
      rfl

/-- One block more has entered, and so many nodes have left. -/
theorem balance_append {entered finalized discarded others others' finalized' discarded' :
    List BlockId} {id : BlockId} (h : entered.Perm (finalized ++ discarded ++ others))
    (hstep : (id :: others).Perm (finalized' ++ discarded' ++ others')) :
    (entered ++ [id]).Perm
      ((finalized ++ finalized') ++ (discarded ++ discarded') ++ others') := by
  refine List.perm_iff_count.2 fun n => ?_
  have hold := h.count_eq n
  have hnew := hstep.count_eq n
  simp only [List.count_append, List.count_cons, List.count_nil] at hold hnew ⊢
  omega

/-- The stages that a block goes through when it enters. -/
theorem Sound.stages (h : c.Sound seen) (ha : c.apply x = some a) :
    ∃ parent above g₁ g₂, x.parent? = some parent ∧ c.blocks[parent]? = some above ∧
      above.rank.next ≤ x.rank.current ∧ ForkGraph.Stages c.graph g₁ g₂ a.chain.graph x.id parent
        x.weight.toNat a.step := by
  obtain ⟨parent, above, node, graph, hparent, habove, hrank, -, hadd, heq⟩ := apply_eq_some ha
  obtain ⟨g₁, g₂, hs⟩ := ForkGraph.add_stages h.isTree hadd
  obtain rfl : a.chain.graph = graph := by rw [heq]
  exact ⟨parent, above, g₁, g₂, hparent, habove, hrank, hs⟩

theorem Recorded.enter (config : Config) (h : Recorded seen id genesis events queue c)
    (horderly : c.Orderly seen) (hready : c.Ready seen (x :: xs)) (ha : c.apply x = some a) :
    Recorded seen id genesis (events ++ a.reports c.id x.id) (queue ++ a.outcome.2)
      (a.outcome.1.enqueueAll config a.outcome.2) := by
  have he := apply_entered horderly.toSound (hready.admitted x (List.mem_cons_self ..)) h.anchor ha
  obtain ⟨parent, above, g₁, g₂, -, -, -, hs⟩ := horderly.stages ha
  obtain ⟨undelivered, nextRank, permanent, heq⟩ := he.enqueueAll_eq config
  have hid := h.chain
  rw [heq]
  refine ⟨hid, ?_, ?_, ?_, ?_, ?_⟩
  · intro e hin
    rcases List.mem_append.1 hin with hin | hin
    · exact h.own e hin
    · exact hid ▸ a.chain?_reports e hin
  · simpa using balance_append h.balance (hs.turnover horderly.isTree).balance
  · simp [h.queued, he.ids]
  · exact links_append.2 ⟨h.links, hid ▸ he.links⟩
  · rw [getLastD_append]
    exact he.anchor

theorem kept_recorded (config : Config) (seen : List Block) (id : ChainId) (genesis : Block) :
    Kept config seen (Recorded seen id genesis) where
  akin hakin h := h.akin hakin
  enter horderly hready ha h := h.enter config horderly hready ha

/-- A chain that has just started has nothing to report. -/
theorem recorded_start {graph : ForkGraph} {content : ContentStore} {cursor : Cursor}
    (hg : newGraph config genesis.id = .ok graph) :
    Recorded seen id genesis [] [] (start id genesis graph content cursor) := by
  have hrunning : (start id genesis graph content cursor).Running seen genesis := running_start hg
  have hnone : graph.others = [] := by
    refine List.eq_nil_iff_forall_not_mem.2 fun n hn => ?_
    obtain ⟨hna, hlive⟩ := ForkGraph.mem_others.1 hn
    -- the only live block is the one that the chain starts from, and that is the anchor
    obtain ⟨b, hb⟩ := (hrunning.sound.blocks_live n).2 hlive
    have honly : ((∅ : BlockMap Block).insert genesis.id genesis)[n]? = some b := hb
    rw [Lookup.get_insert, Std.ExtTreeMap.getElem?_empty] at honly
    have hanchor := hrunning.sound.blocks_id _ _ hrunning.anchor
    split at honly
    · exact hna (‹genesis.id = n› ▸ hanchor)
    · cases honly
  refine ⟨rfl, fun e he => (nomatch he), ?_, rfl, trivial, hrunning.anchor⟩
  show [].Perm ([] ++ [] ++ graph.others)
  rw [hnone]
  exact .nil

/-! ### The account of a life -/

/-- What the events of a chain say of it, which started from `genesis`: each of them names the
chain, what entered is accounted for, and what was finalized leads from `genesis` to the anchor, one
submitted block after the other. -/
structure Balanced (genesis : Block) (log : List Receipt) (c : Chain) : Prop where
  own : ∀ e ∈ eventsIn log, e.chain? = some c.id
  balance : (enteredIn (eventsIn log)).Perm
    (finalizedIn (eventsIn log) ++ discardedIn (eventsIn log) ++ c.graph.others)
  anchor : c.graph.anchor = (finalizedIn (eventsIn log)).getLastD genesis.id
  finalized : (queuedIn log).map (·.id) = finalizedIn (eventsIn log)
  links : Links (submittedIn log) c.id genesis (queuedIn log)

/-- The submitted blocks that count. -/
def acceptedIn (rules : Rules) (log : List Receipt) : List Block :=
  (submittedIn log).filter rules.accepts

theorem mem_acceptedIn {b : Block} :
    b ∈ acceptedIn rules log ↔ b ∈ submittedIn log ∧ rules.accepts b = true := List.mem_filter

theorem mem_acceptedIn_of_accepts :
    ∀ b ∈ submittedIn log, rules.accepts b = true → b ∈ acceptedIn rules log :=
  fun _ hb haccepts => mem_acceptedIn.2 ⟨hb, haccepts⟩

theorem acceptedIn_subset : acceptedIn rules log ⊆ submittedIn log :=
  fun _ hb => (mem_acceptedIn.1 hb).1

theorem Life.recorded (h : Life rules genesis log c) :
    c.Orderly (acceptedIn rules log) ∧
      Recorded (acceptedIn rules log) c.id genesis (eventsIn log) (queuedIn log) c := by
  obtain ⟨id, graph, content, cursor, hgraph, -, hlife⟩ := h
  have hrecorded := hlife.keeps (kept_recorded _ _ id genesis) (orderly_start hgraph)
    mem_acceptedIn_of_accepts (recorded_start hgraph)
  obtain rfl := hrecorded.chain
  exact ⟨hlife.orderly (orderly_start hgraph) mem_acceptedIn_of_accepts, hrecorded⟩

/-- Throughout the life of a chain, its events account for all of its fork graph. -/
theorem Life.balanced (h : Life rules genesis log c) : Balanced genesis log c := by
  obtain ⟨horderly, hrecorded⟩ := h.recorded
  refine ⟨hrecorded.own, hrecorded.balance, ?_, hrecorded.queued,
    hrecorded.links.mono acceptedIn_subset⟩
  rw [← hrecorded.queued, List.getLastD_map]
  exact (horderly.blocks_id _ _ hrecorded.anchor).symm

end Chain

namespace Branch

/-- Three branches: block 5 alone, blocks 6 and 7, and blocks 1 to 3. -/
def sampleForks : List Block :=
  [sampleAfter 0 5 ⟨1, 1⟩, sampleAfter 0 1 ⟨1, 1⟩, sampleAfter 0 6 ⟨1, 1⟩, sampleAfter 1 2 ⟨1, 1⟩,
    sampleAfter 6 7 ⟨1, 1⟩, sampleAfter 2 3 ⟨1, 1⟩]

/-- With block 3 the first branch is dead, with block 4 the second one is. -/
theorem sample_balanced : ∃ (log : List Receipt) (c : Chain),
    Chain.Life (sampleRules 2) sampleSeed log c ∧
    submittedIn log = sampleForks ++ [sampleAfter 3 4 ⟨1, 1⟩] ∧
    finalizedIn (eventsIn log) = [⟨1⟩, ⟨2⟩] ∧
    discardedIn (eventsIn log) = [⟨5⟩, ⟨7⟩, ⟨6⟩] ∧
    Chain.Balanced sampleSeed log c := by
  obtain ⟨graph, hgraph, hfinalized, hdiscarded⟩ : ∃ graph,
      Chain.newGraph (sampleRules 2).config sampleSeed.id = .ok graph ∧
      finalizedIn (eventsIn (sampleRun (sampleRules 2) graph
        (sampleForks ++ [sampleAfter 3 4 ⟨1, 1⟩])).2) = [⟨1⟩, ⟨2⟩] ∧
      discardedIn (eventsIn (sampleRun (sampleRules 2) graph
        (sampleForks ++ [sampleAfter 3 4 ⟨1, 1⟩])).2) = [⟨5⟩, ⟨7⟩, ⟨6⟩] :=
    ⟨_, rfl, by decide +kernel, by decide +kernel⟩
  have hlife := sample_life hgraph (sampleForks ++ [sampleAfter 3 4 ⟨1, 1⟩])
  exact ⟨_, _, hlife, submittedIn_deliver .., hfinalized, hdiscarded, hlife.balanced⟩

end Branch

end ShardLedger
