import ShardLedger.Proofs.Simulation.Transit
import ShardLedger.Simulation.Run

/-!
# What draws leave as it is

A simulation draws at every step, and most of what follows does not depend on what is drawn: an item
is picked from those on offer, a block that arrives had set out, and a proposer builds on what it
was offered, now or earlier.

- `Rng.mem_of_pick`: an item that is picked.
- `Delivery.mem_send`, `Delivery.mem_deliver`, `Delivery.mem_drain`: the way of the blocks.
- `Proposer.turn_idle`, `Proposer.turn_made`: a turn without a block and one with a block.
-/

namespace ShardLedger

namespace Rng

variable {α : Type} {rng rng' : Rng} {x : α} {items : List α}

/-- What is picked is one of the items. -/
theorem mem_of_pick (h : rng.pick items = (some x, rng')) : x ∈ items := by
  unfold pick at h
  split at h
  · cases h
  · generalize rng.bounded items.length = drawn at h
    exact List.mem_of_getElem? (congrArg Prod.fst h)

end Rng

namespace Delivery

variable {q : Delivery} {round : Nat} {rng : Rng} {b : Block}

/-- Nothing but the block and its copy sets out. -/
theorem mem_send {f : InFlight} (h : f ∈ (q.send b round rng).1.pending) :
    f ∈ q.pending ∨ f.block = b := by
  obtain ⟨copies, hqueue, hblocks, -, -⟩ := q.send_spec b round rng
  rw [hqueue] at h
  refine (List.mem_append.1 h).imp_right fun hf => ?_
  have hblock : f.block ∈ copies.map (·.block) := List.mem_map_of_mem hf
  rw [hblocks] at hblock
  split at hblock <;> simpa using hblock

/-- What arrives was on its way, and so is what stays. -/
theorem mem_deliver (q : Delivery) (round : Nat) (rng : Rng) :
    (q.deliver round rng).1.pending ⊆ q.pending ∧
      ∀ b ∈ (q.deliver round rng).2.1.blocks, ∃ f ∈ q.pending, f.block = b := by
  obtain ⟨hqueue, hblocks, -⟩ := q.deliver_spec round rng
  refine ⟨hqueue ▸ List.filter_sublist.subset, fun b hb => ?_⟩
  obtain ⟨f, hf, rfl⟩ := List.mem_map.1 (hblocks.subset hb)
  exact ⟨f, (List.mem_filter.1 hf).1, rfl⟩

theorem mem_drain (h : b ∈ q.drain.2) : ∃ f ∈ q.pending, f.block = b := by
  obtain ⟨f, hf, rfl⟩ := List.mem_map.1 h
  exact ⟨f, List.mem_mergeSort.1 hf, rfl⟩

end Delivery

namespace Proposer

variable {p p' : Proposer} {rules : Rules} {l : Ledger} {round : UInt64} {maxSize : Nat}
  {rng rng' : Rng} {made : Proposed}

/-- A proposer that builds no block is as it was. -/
theorem turn_idle (h : p.turn rules l round maxSize rng = (p', none, rng')) : p' = p := by
  unfold turn at h
  dsimp only at h
  split at h
  · exact (congrArg Prod.fst h).symm
  · split at h
    · exact (congrArg Prod.fst h).symm
    · cases congrArg (·.2.1) h

/-- The block of a turn is made from a fresh proposal, or from the one that is remembered. -/
theorem turn_made (h : p.turn rules l round maxSize rng = (p', some made, rng')) :
    ∃ chain fresh proposal rank proposer, l.proposal rules chain maxSize = .ok fresh ∧
      (proposal = fresh ∨ ∃ entry ∈ p.last, entry.2 = proposal) ∧
      p'.last = (p.remember fresh).last ∧
      made.block = Block.ofDraft { proposal.draft rank with proposer } := by
  unfold turn at h
  dsimp only at h
  split at h
  · cases congrArg (·.2.1) h
  · rename_i chain _ _
    split at h
    · cases congrArg (·.2.1) h
    · rename_i fresh hfresh
      have hp : p'.last = (p.remember fresh).last := (congrArg (·.1.last) h).symm
      have hmade := Option.some.inj (congrArg (·.2.1) h)
      refine ⟨chain, fresh, _, _, _, hfresh, ?_, hp, (congrArg Proposed.block hmade).symm⟩
      split
      · exact Or.inl rfl
      · rename_i stale hstale
        dsimp only
        split
        · right
          obtain ⟨hfound, -⟩ := Option.filter_eq_some_iff.1 hstale
          obtain ⟨entry, hentry, rfl⟩ := Option.map_eq_some_iff.1 hfound
          exact ⟨entry, List.mem_of_find?_eq_some hentry, rfl⟩
        · exact Or.inl rfl

end Proposer

end ShardLedger
