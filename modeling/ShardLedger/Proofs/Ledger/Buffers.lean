import ShardLedger.Proofs.Ledger.Reached
import ShardLedger.Proofs.Tree.Buffering

/-!
# Buffers in a run

Every chain of a run is in a state that `Chain.Reachable` knows of, so its records of waiting blocks
are in step, and no block waits forever because one of the records has lost it.

- `Run.buffers_agree`: the records of waiting blocks, and what a submission that is applied does to
  them.
-/

namespace ShardLedger

namespace Run

/-- Chains are in reachable states, those of a run too; and on a chain in such a state the buffer and
the backlog are in step, and a block that is applied frees exactly what was behind it. -/
theorem buffers_agree (rules : Rules) :
    (∀ ops r, Run.after rules ops = .ok r → r.ledger.Reached rules) ∧
      ∀ (b : Branch), b.chain.Reachable rules → b.chain.InStep ∧
        ∀ (roster : Roster) (block : Block) (n : Nat),
          (b.submit rules roster block).outcome = .applied n → b.Frees rules roster block := by
  refine ⟨fun _ _ hr => reached hr, fun b h => ?_⟩
  obtain ⟨seen, htended⟩ := h.tended
  exact ⟨htended.inStep, fun roster block n hout => Branch.submit_frees htended.toOrderly hout⟩

/-- The third block waits behind the first one, through the second; when the first one is applied,
both are freed. -/
theorem sample_buffers_agree :
    (∃ r, Run.after sampleRules sampleOps = .ok r ∧ r.ledger.Reached sampleRules) ∧
    ∃ b : Branch, b.chain.Reachable sampleReplayRules ∧
      b.chain.backlog.Behind ⟨1⟩ (sampleReplayBlock 3 3) ∧ b.chain.InStep ∧
      (b.submit sampleReplayRules ⟨[], []⟩ (sampleReplayBlock 1 1)).outcome = .applied 3 ∧
      b.Frees sampleReplayRules ⟨[], []⟩ (sampleReplayBlock 1 1) := by
  obtain ⟨r, hr⟩ := @exists_after sampleRules (by decide) sampleOps
  obtain ⟨graph, hgraph, hsecond, hthird, hout⟩ : ∃ graph,
      Chain.newGraph sampleReplayRules.config ⟨0⟩ = .ok graph ∧
      (sampleReplay graph).chain.backlog.waiting[(⟨1⟩ : BlockId)]? = some [sampleReplayBlock 2 2] ∧
      (sampleReplay graph).chain.backlog.waiting[(⟨2⟩ : BlockId)]? = some [sampleReplayBlock 3 3] ∧
      ((sampleReplay graph).submit sampleReplayRules ⟨[], []⟩ (sampleReplayBlock 1 1)).outcome =
        .applied 3 :=
    ⟨_, rfl, by decide +kernel, by decide +kernel, by decide +kernel⟩
  have hreach : (sampleReplay graph).chain.Reachable sampleReplayRules :=
    .submit _ _ (.submit (b := .leaf _) _ _ (.start hgraph))
  obtain ⟨hinstep, hfrees⟩ := (buffers_agree sampleReplayRules).2 (sampleReplay graph) hreach
  refine ⟨⟨r, hr, (buffers_agree sampleRules).1 sampleOps r hr⟩, sampleReplay graph, hreach,
    .through (.direct (x := sampleReplayBlock 2 2) ?_) ?_, hinstep, hout,
    hfrees ⟨[], []⟩ (sampleReplayBlock 1 1) 3 hout⟩
  · unfold Backlog.Listed
    rw [hsecond]
    exact List.mem_singleton_self _
  · unfold Backlog.Listed
    rw [show (sampleReplayBlock 2 2).id = ⟨2⟩ from rfl, hthird]
    exact List.mem_singleton_self _

end Run

end ShardLedger
