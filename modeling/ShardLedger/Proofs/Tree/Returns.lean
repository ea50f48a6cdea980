import ShardLedger.Proofs.Tree.Gone

/-!
# Finalized blocks that come back

A block that was finalized never enters again, for its parent is gone. It is turned away as stale if
the chain has finalized a higher rank since. But ranks need not grow, and where they have not, the
block is taken for one that may still attach: it is put in line to wait for a parent that never
comes.

- `Links.rank_le_last`: ranks along a run.
- `Chain.Life.finalized_back`: what comes of a finalized block that is submitted again.
-/

namespace ShardLedger

/-- The last block of a run asks for at least what each of its blocks asks for. -/
theorem Links.rank_le_last {seen xs : List Block} {id : ChainId} {a b : Block}
    (h : Links seen id a xs) (hb : b ∈ xs) : b.rank.next ≤ (xs.getLastD a).rank.next := by
  obtain ⟨before, after, rfl⟩ := List.append_of_mem hb
  rw [getLastD_append, List.getLastD_cons]
  exact ((links_append.1 h).2.2.above (UInt64.le_refl _)).2 _ List.getLastD_mem_cons

namespace Branch

variable {rules : Rules} {roster : Roster} {seen queue : List Block} {b : Branch} {W : Nat}
  {id : ChainId} {events : List Event} {genesis f : Block}

/-- The block is turned away, and what waits on the chain is left as it is. -/
structure TurnsAway (rules : Rules) (roster : Roster) (b : Branch) (f : Block) : Prop where
  outcome : (b.submit rules roster f).outcome = .duplicate ∨
    ∃ reason, (b.submit rules roster f).outcome = .rejected reason
  buffered : (b.submit rules roster f).branch.chain.buffered = b.chain.buffered
  backlog : (b.submit rules roster f).branch.chain.backlog = b.chain.backlog

/-- The chain takes blocks, does not know the block, and has finalized no rank above that of the
block. -/
structure Unrecognized (b : Branch) (f : Block) : Prop where
  running : b.chain.retired = false
  new : b.chain.knows f.id = false
  rank : f.rank.current = b.chain.nextRank

theorem turnsAway_of_receive {p : BlockId} {outcome : Outcome} (roster : Roster)
    (hscreen : Chain.screen rules b.chain.id f = .ok p)
    (hreceive : b.chain.receive f p = (b.chain, .done outcome))
    (hout : outcome = .duplicate ∨ ∃ reason, outcome = .rejected reason) :
    b.TurnsAway rules roster f := by
  have hsubmit : b.submit rules roster f = _ := submit_done hscreen hreceive
  refine ⟨?_, ?_, ?_⟩
  · rwa [hsubmit]
  · rw [hsubmit, chain_withChain]
  · rw [hsubmit, chain_withChain]

section

variable (h : Chain.Buried W seen id genesis events queue b.chain) (hf : f ∈ queue)
include h hf

theorem parent_gone : ∃ p, f.parent? = some p ∧ ¬b.chain.graph.Live p := by
  obtain ⟨q, hq, hparent⟩ := h.links.above_passed hf
  refine ⟨q.id, hparent, h.not_live _ (.inl ?_)⟩
  rw [passedIn, ← h.queued, ← List.map_cons, ← List.map_dropLast]
  exact List.mem_map_of_mem hq

/-- The chain has finalized at least the rank that a finalized block asks for. -/
theorem rank_le_nextRank (horderly : b.chain.Orderly seen) : f.rank.next ≤ b.chain.nextRank := by
  obtain ⟨top, htop, hnext⟩ := horderly.anchored
  rw [h.anchor, Option.some.injEq] at htop
  rw [hnext, ← htop]
  exact h.links.rank_le_last hf

/-- A finalized block that comes again waits for its parent where it is not recognized, and is
turned away otherwise. -/
theorem finalized_again (roster : Roster) (horderly : b.chain.Orderly seen)
    (haccepts : rules.accepts f = true) :
    (b.Unrecognized f ∧ (b.submit rules roster f).outcome = .buffered) ∨
      (¬b.Unrecognized f ∧ b.TurnsAway rules roster f) := by
  obtain ⟨p, hparent, hdead⟩ := parent_gone h hf
  have hnone := horderly.not_held hdead
  have hadmitted := h.links.admitted f hf
  have hscreen : Chain.screen rules b.chain.id f = .ok p := by
    rw [h.chain]
    exact Chain.screen_of_admitted hadmitted haccepts hparent
  rcases hreceive : b.chain.receive f p with ⟨c, verdict⟩
  cases Chain.received hreceive with
  | retired hretired =>
    refine .inr ⟨fun hnot => Bool.noConfusion (hnot.running.symm.trans hretired), ?_⟩
    exact turnsAway_of_receive roster hscreen hreceive (.inr ⟨_, rfl⟩)
  | known _ hknows =>
    refine .inr ⟨fun hnot => Bool.noConfusion (hnot.new.symm.trans hknows), ?_⟩
    exact turnsAway_of_receive roster hscreen hreceive (.inl rfl)
  | stale _ _ _ hrank =>
    refine .inr ⟨fun hnot => absurd hrank (hnot.rank ▸ UInt64.lt_irrefl _), ?_⟩
    exact turnsAway_of_receive roster hscreen hreceive (.inr ⟨_, rfl⟩)
  | buffered hretired hnew _ hrank =>
    -- the rank of a finalized block is never above what has been finalized
    have hle := UInt64.le_trans hadmitted.ordered (rank_le_nextRank h hf horderly)
    refine .inl ⟨⟨hretired, hnew, UInt64.le_antisymm hle hrank⟩, ?_⟩
    rw [submit_done hscreen hreceive]
  | below _ _ habove => cases hnone.symm.trans habove
  | released _ _ habove => cases hnone.symm.trans habove

end

end Branch

/-- Where no two blocks share an identity, a block that the chain finalized and that is submitted
again never enters. It is turned away, and what waits is left as it is, unless the chain does not
recognize it: then it waits, for a parent that is gone. -/
theorem Chain.Life.finalized_back {rules : Rules} {genesis f : Block} {log : List Receipt}
    {b : Branch} (h : Life rules genesis log b.chain)
    (hcoherent : Coherent (genesis :: submittedIn log)) (hf : f ∈ queuedIn log) (roster : Roster) :
    (b.TurnsAway rules roster f ↔ ¬b.Unrecognized f) ∧
      ((b.submit rules roster f).outcome = .buffered ↔ b.Unrecognized f) := by
  obtain ⟨horderly, hburied⟩ := h.buried hcoherent
  have haccepts := (mem_acceptedIn.1 (hburied.links.admitted f hf).mem).2
  rcases Branch.finalized_again hburied hf roster horderly haccepts with
    ⟨hnew, hout⟩ | ⟨hknown, haway⟩
  · refine ⟨iff_of_false (fun haway => ?_) (not_not.2 hnew), iff_of_true hout hnew⟩
    rcases haway.outcome with heq | ⟨reason, heq⟩ <;> cases hout.symm.trans heq
  · refine ⟨iff_of_true haway hknown, iff_of_false (fun hout => ?_) hknown⟩
    rcases haway.outcome with heq | ⟨reason, heq⟩ <;> cases hout.symm.trans heq

namespace Branch

/-- Three blocks in a row, of rank zero. -/
def sampleFlat : List Block :=
  [sampleAfter 0 1 ⟨0, 0⟩, sampleAfter 1 2 ⟨0, 0⟩, sampleAfter 2 3 ⟨0, 0⟩]

/-- Three blocks in a row, of growing ranks. -/
def sampleGrowing : List Block :=
  [sampleAfter 0 1 ⟨1, 2⟩, sampleAfter 1 2 ⟨2, 3⟩, sampleAfter 2 3 ⟨3, 4⟩]

/-- All ranks are zero. Block 1 was finalized and is not recognized when it comes again. -/
theorem sample_finalized_waits : ∃ (log : List Receipt) (b : Branch),
    Chain.Life (sampleRules 1) sampleSeed log b.chain ∧
    Coherent (sampleSeed :: submittedIn log) ∧
    queuedIn log = [sampleAfter 0 1 ⟨0, 0⟩, sampleAfter 1 2 ⟨0, 0⟩] ∧
    b.chain.buffered.size = 0 ∧ b.chain.backlog.missingCount = 0 ∧
    (b.submit (sampleRules 1) ⟨[], []⟩ (sampleAfter 0 1 ⟨0, 0⟩)).outcome = .buffered ∧
    (b.submit (sampleRules 1) ⟨[], []⟩ (sampleAfter 0 1 ⟨0, 0⟩)).branch.chain.buffered.size = 1 ∧
    (b.submit (sampleRules 1) ⟨[], []⟩
      (sampleAfter 0 1 ⟨0, 0⟩)).branch.chain.backlog.missingCount = 1 := by
  obtain ⟨graph, hgraph, hqueued, hrest⟩ : ∃ graph,
      Chain.newGraph (sampleRules 1).config sampleSeed.id = .ok graph ∧
      queuedIn (sampleRun (sampleRules 1) graph sampleFlat).2 =
        [sampleAfter 0 1 ⟨0, 0⟩, sampleAfter 1 2 ⟨0, 0⟩] ∧
      (sampleRun (sampleRules 1) graph sampleFlat).1.chain.buffered.size = 0 ∧
      (sampleRun (sampleRules 1) graph sampleFlat).1.chain.backlog.missingCount = 0 ∧
      ((sampleRun (sampleRules 1) graph sampleFlat).1.submit (sampleRules 1) ⟨[], []⟩
        (sampleAfter 0 1 ⟨0, 0⟩)).outcome = .buffered ∧
      ((sampleRun (sampleRules 1) graph sampleFlat).1.submit (sampleRules 1) ⟨[], []⟩
        (sampleAfter 0 1 ⟨0, 0⟩)).branch.chain.buffered.size = 1 ∧
      ((sampleRun (sampleRules 1) graph sampleFlat).1.submit (sampleRules 1) ⟨[], []⟩
        (sampleAfter 0 1 ⟨0, 0⟩)).branch.chain.backlog.missingCount = 1 :=
    ⟨_, rfl, by decide +kernel, by decide +kernel, by decide +kernel, by decide +kernel,
      by decide +kernel, by decide +kernel⟩
  refine ⟨_, _, sample_life hgraph sampleFlat, ?_, hqueued, hrest⟩
  rw [sampleRun, submittedIn_deliver]
  decide

/-- Where ranks grow, block 1 is turned away. -/
theorem sample_finalized_back : ∃ (log : List Receipt) (b : Branch),
    Chain.Life (sampleRules 1) sampleSeed log b.chain ∧
    Coherent (sampleSeed :: submittedIn log) ∧
    sampleAfter 0 1 ⟨1, 2⟩ ∈ queuedIn log ∧ b.chain.nextRank = 3 ∧
    b.TurnsAway (sampleRules 1) ⟨[], []⟩ (sampleAfter 0 1 ⟨1, 2⟩) := by
  obtain ⟨graph, hgraph, hqueued, hrank⟩ : ∃ graph,
      Chain.newGraph (sampleRules 1).config sampleSeed.id = .ok graph ∧
      sampleAfter 0 1 ⟨1, 2⟩ ∈ queuedIn (sampleRun (sampleRules 1) graph sampleGrowing).2 ∧
      (sampleRun (sampleRules 1) graph sampleGrowing).1.chain.nextRank = 3 :=
    ⟨_, rfl, by decide +kernel, by decide +kernel⟩
  have hlife := sample_life hgraph sampleGrowing
  have hcoherent : Coherent
      (sampleSeed :: submittedIn (sampleRun (sampleRules 1) graph sampleGrowing).2) := by
    rw [sampleRun, submittedIn_deliver]
    decide
  refine ⟨_, _, hlife, hcoherent, hqueued, hrank,
    (hlife.finalized_back hcoherent hqueued ⟨[], []⟩).1.2 fun hnew => ?_⟩
  have hcurrent := hnew.rank
  rw [hrank] at hcurrent
  revert hcurrent
  decide

end Branch

end ShardLedger
