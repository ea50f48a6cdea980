import ShardLedger.Chain.Basic
import ShardLedger.Proofs.Chain.Sound
import ShardLedger.Proofs.Content.Batch

/-!
# What a chain offers

A proposal extends the priority tip, which is reached from the anchor by a line of live blocks. Its
batch holds stored items that no block of that line carries.

- `Chain.Sound.line`: the line from the anchor to a live block.
- `Chain.Sound.proposal_spec`: what a proposal promises.
-/

namespace ShardLedger

namespace Chain

variable {seen : List Block} {c : Chain} {top : Block}

/-- Every live block is reached from the anchor by a line, and whatever walk meets the block goes
back over the whole line. -/
theorem Sound.line (h : c.Sound seen) (htop : c.blocks[c.graph.anchor]? = some top) {n : BlockId}
    {b : Block} (hb : c.blocks[n]? = some b) :
    ∃ ahead, Links seen c.id top ahead ∧ ahead.getLastD top = b ∧
      ∀ ids, (n, b) ∈ reach (fun (b : Block) => b.previous) c.blocks ids →
        ∀ y ∈ ahead, ∃ m, (m, y) ∈ reach (fun (b : Block) => b.previous) c.blocks ids := by
  obtain ⟨height, hheight⟩ := h.isTree.grounded
  induction hk : height n using Nat.strongRecOn generalizing n b with
  | _ k ih =>
    by_cases hn : n = c.graph.anchor
    · subst hn
      rw [htop, Option.some.injEq] at hb
      exact ⟨[], trivial, hb, fun _ _ _ hy => nomatch hy⟩
    · -- the line to the block above, and then the block
      obtain ⟨node, hnode⟩ := (h.blocks_live n).1 ⟨b, hb⟩
      obtain ⟨p, above, hprev, habove⟩ := h.isTree.previous_live n node hnode hn
      have hunder : c.graph.Under n p := ⟨hn, node, hnode, hprev⟩
      obtain ⟨a, ha⟩ := (h.blocks_live p).2 ⟨above, habove⟩
      obtain ⟨ahead, hlinks, hlast, hreach⟩ := ih _ (hk ▸ hheight n p hunder) ha rfl
      have hfollows := h.linked n p hunder a b ha hb
      refine ⟨ahead ++ [b], links_append.2 ⟨hlinks, ?_⟩, List.getLastD_concat .., ?_⟩
      · rw [hlast]
        exact ⟨hfollows, trivial⟩
      · intro ids hmem y hy
        have hp : p ∈ b.previous := by
          rw [← h.blocks_id p a ha]
          exact Block.previous_of_parent hfollows.parent
        rcases List.mem_append.1 hy with hy | hy
        · exact hreach ids (reach_closed hmem hp ha) y hy
        · rw [List.mem_singleton.1 hy]
          exact ⟨n, hmem⟩

/-- A proposal extends a line of live blocks, and its batch holds stored items that none of these
blocks carries. -/
theorem Sound.proposal_spec (h : c.Sound seen) (htop : c.blocks[c.graph.anchor]? = some top)
    (hkeyed : c.content.Keyed) (config : Config) (maxSize : Nat) :
    ∃ ahead, Links seen c.id top ahead ∧
      (c.proposal config maxSize).previous = (ahead.getLastD top).id ∧
      ∀ r ∈ (c.proposal config maxSize).content,
        c.content.Holds r.id ∧ ∀ y ∈ ahead, r.id ∉ y.contentIds := by
  obtain ⟨node, hnode, -⟩ := h.priority
  obtain ⟨tip, htip⟩ := (h.blocks_live _).2 ⟨node, hnode⟩
  obtain ⟨ahead, hlinks, hlast, hreach⟩ := h.line htop htip
  refine ⟨ahead, hlinks, ?_, fun r hr => ?_⟩
  · rw [hlast]
    exact (h.blocks_id _ _ htip).symm
  · obtain ⟨hholds, hout⟩ := ContentStore.mem_batch hkeyed hr
    refine ⟨hholds, fun y hy => ?_⟩
    obtain ⟨m, hm⟩ := hreach _ (reach_start (List.mem_singleton_self _) htip) y hy
    exact hout m y hm

end Chain

end ShardLedger
