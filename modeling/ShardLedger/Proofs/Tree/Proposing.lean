import ShardLedger.Proofs.Chain.Line
import ShardLedger.Proofs.Content.Depot
import ShardLedger.Proofs.Tree.Buffering
import ShardLedger.Proofs.Tree.Life

/-!
# Blocks made from a proposal

A proposal names the priority tip, which is live, and the rank that the tip asks for. So a block
that is made from it right away passes every check, and enters: nothing that the chain knows stands
in its way. If nothing waits for it, it enters alone, and the next proposal extends it.

- `Chain.Orderly.proposed`: what a proposal names.
- `Backlog.release_alone`, `Branch.apply_after_tip`: a block is released alone, and enters after the
  priority tip.
- `Branch.proposed_applied`: the block is applied.
-/

namespace ShardLedger

variable {rules : Rules} {seen : List Block} {roster : Roster} {block x : Block}

/-- A block that nothing waits for sets nothing free. -/
theorem Backlog.release_alone {q : Backlog} (h : q.waiting[block.id]? = none) :
    q.release block = (q, [block]) := by
  unfold release
  rw [releaseAll_nil h]

namespace Chain

variable {c : Chain} {parent : BlockId}

/-- A proposal names a live block, and the rank that this asks for. -/
theorem Orderly.proposed (h : c.Orderly seen) (config : Config) (maxSize : Nat) :
    ∃ above, c.blocks[(c.proposal config maxSize).previous]? = some above ∧
      (c.proposal config maxSize).minRank = above.rank.next := by
  obtain ⟨above, habove⟩ := (h.blocks_live _).2 h.priority.live
  refine ⟨above, habove, ?_⟩
  show (c.blocks[c.graph.priorityTip]?.map (·.rank.next)).getD 0 = _
  rw [habove]
  rfl

/-- Where no waiting block follows a block, the backlog has no list for it. -/
theorem Tended.unawaited (h : c.Tended seen) {id : BlockId}
    (hnone : ∀ (n : BlockId) (y : Block), c.buffered[n]? = some y → y.parent? ≠ some id) :
    c.backlog.waiting[id]? = none := by
  cases hw : c.backlog.waiting[id]? with
  | none => rfl
  | some waiters =>
    obtain ⟨y, hy⟩ := List.exists_mem_of_ne_nil _ (h.lined id waiters hw).1
    have hlisted : c.backlog.Listed id y := by
      unfold Backlog.Listed
      rwa [hw]
    obtain ⟨hheld, hparent⟩ := h.held id y hlisted
    exact absurd hparent (hnone _ _ hheld)

end Chain

namespace Branch

variable {b : Branch} {a : Chain.Applied}

/-- A block that enters after the priority tip becomes the priority tip. -/
theorem apply_after_tip (h : b.chain.Orderly seen) (hready : b.chain.Ready seen [x])
    (hparent : x.parent? = some b.chain.graph.priorityTip) (ha : b.chain.apply x = some a) :
    (b.apply rules roster x).1.chain.graph.priorityTip = x.id := by
  obtain ⟨top, htop, -⟩ := h.anchored
  have he := Chain.apply_entered h.toSound (hready.admitted x (List.mem_singleton_self x)) htop ha
  obtain ⟨parent, above, node, graph, hp, -, -, -, hadd, happlied⟩ := Chain.apply_eq_some ha
  obtain rfl : parent = b.chain.graph.priorityTip := Option.some.inj (hp.symm.trans hparent)
  obtain rfl : a.chain.graph = graph := by rw [happlied]
  obtain ⟨undelivered, nextRank, permanent, heq⟩ := he.enqueueAll_eq rules.config
  have hgraph : (b.apply rules roster x).1.chain.graph = a.chain.graph := by
    rw [Chain.eq_of_bare (apply_top ha), heq]
  rw [hgraph]
  exact (ForkGraph.add_after_tip h.isTree h.priority hadd).1

/-- Where one block is released and enters, the count is one. -/
theorem applyAll_one (roster : Roster) (ha : b.chain.apply x = some a) :
    (applyAll rules roster b [x]).1 = (b.apply rules roster x).1 ∧
      (applyAll rules roster b [x]).2.2.1 = 1 := by
  obtain ⟨later, hevents, -⟩ := apply_events rules roster ha
  unfold applyAll
  dsimp only
  rw [hevents]
  exact ⟨rfl, rfl⟩

/-- A block that is made from a proposal enters. If no waiting block follows it, it is the only one
that does, and the priority tip from then on. -/
theorem proposed_applied (h : b.chain.Reachable rules) (hrunning : b.chain.retired = false)
    {maxSize : Nat} (hmakes : (b.chain.proposal rules.config maxSize).Makes block)
    (hrank : (b.chain.proposal rules.config maxSize).minRank ≤ block.rank.current)
    (hordered : block.rank.current ≤ block.rank.next) (haccepts : rules.accepts block = true)
    (hnew : b.chain.knows block.id = false) (roster : Roster) :
    (∃ n, (b.submit rules roster block).outcome = .applied n ∧ 1 ≤ n) ∧
      ((∀ (n : BlockId) (y : Block), b.chain.buffered[n]? = some y → y.parent? ≠ some block.id) →
        (b.submit rules roster block).outcome = .applied 1 ∧
          (b.submit rules roster block).branch.chain.graph.priorityTip = block.id) := by
  obtain ⟨seen, htended⟩ := h.tended
  replace htended := htended.mono (List.subset_cons_self block seen)
  have hparent : block.parent? = some b.chain.graph.priorityTip := by
    unfold Block.parent?
    rw [hmakes.2.1]
    rfl
  have hadmitted : Admitted (block :: seen) b.chain.id block :=
    ⟨List.mem_cons_self .., hmakes.1.symm, hordered⟩
  obtain ⟨above, habove, hmin⟩ := htended.toOrderly.proposed rules.config maxSize
  have hscreen := Chain.screen_of_admitted hadmitted haccepts hparent
  have hreceive := Chain.receive_releases hrunning hnew habove (hmin ▸ hrank)
  have hsubmit : b.submit rules roster block = _ := submit_released hscreen hreceive
  refine ⟨⟨_, congrArg Submission.outcome hsubmit, ?_⟩, fun hnone => ?_⟩
  · exact applied_pos htended.toOrderly (List.mem_cons_self ..)
      (congrArg Submission.outcome hsubmit)
  · -- the block is all that is released
    obtain ⟨horderly, hready⟩ := htended.toOrderly.release hadmitted hnew
    rw [Backlog.release_alone (htended.unawaited hnone)] at hsubmit horderly hready
    rw [← chain_withChain (Chain.forget _ _) b] at horderly hready
    obtain ⟨a, ha⟩ := horderly.apply_isSome (hready.fresh block (List.mem_singleton_self _)) hparent
      (by rw [chain_withChain]; exact habove) (hmin ▸ hrank)
    obtain ⟨hbranch, hcount⟩ := applyAll_one roster ha
    rw [hsubmit]
    dsimp only
    rw [hcount, hbranch]
    exact ⟨rfl, apply_after_tip horderly hready (by rw [chain_withChain]; exact hparent) ha⟩

/-- Chain 2 with two blocks after block zero, of which the first is the priority tip, and a block
that waits. -/
def sampleForked (graph : ForkGraph) : Branch :=
  (sampleRun (sampleRules 1) graph
    [sampleAfter 0 1 ⟨1, 2⟩, sampleAfter 0 2 ⟨1, 5⟩, sampleAfter 8 9 ⟨9, 9⟩]).1

/-- Block 3 is made from a proposal. It removes the other branch of the fork, and finalizes its
parent. -/
theorem sample_proposed_applied : ∃ b : Branch, b.chain.Reachable (sampleRules 1) ∧
    (b.chain.proposal (sampleRules 1).config 0).Makes (sampleAfter 1 3 ⟨2, 2⟩) ∧
    (b.submit (sampleRules 1) ⟨[], []⟩ (sampleAfter 1 3 ⟨2, 2⟩)).outcome = .applied 1 ∧
    (b.submit (sampleRules 1) ⟨[], []⟩ (sampleAfter 1 3 ⟨2, 2⟩)).branch.chain.graph.priorityTip =
      ⟨3⟩ := by
  obtain ⟨graph, hgraph, hrunning, hmakes, hrank, hnew, hbuffered⟩ : ∃ graph,
      Chain.newGraph (sampleRules 1).config sampleSeed.id = .ok graph ∧
      (sampleForked graph).chain.retired = false ∧
      ((sampleForked graph).chain.proposal (sampleRules 1).config 0).Makes
        (sampleAfter 1 3 ⟨2, 2⟩) ∧
      ((sampleForked graph).chain.proposal (sampleRules 1).config 0).minRank ≤ 2 ∧
      (sampleForked graph).chain.knows ⟨3⟩ = false ∧
      (sampleForked graph).chain.buffered =
        (∅ : BlockMap Block).insert ⟨9⟩ (sampleAfter 8 9 ⟨9, 9⟩) :=
    ⟨_, rfl, by decide +kernel, by decide +kernel, by decide +kernel, by decide +kernel,
      by decide +kernel⟩
  have hreach : (sampleForked graph).chain.Reachable (sampleRules 1) :=
    (becomes_deliver _ _ _).reachable (.start hgraph)
  obtain ⟨-, halone⟩ := proposed_applied hreach hrunning hmakes hrank (by decide) rfl hnew ⟨[], []⟩
  refine ⟨_, hreach, hmakes, halone fun n y hy => ?_⟩
  rw [hbuffered, Lookup.get_insert, Std.ExtTreeMap.getElem?_empty] at hy
  split at hy
  · cases hy
    decide
  · cases hy

end Branch

end ShardLedger
