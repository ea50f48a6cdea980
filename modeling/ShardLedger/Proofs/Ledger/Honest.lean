import ShardLedger.Proofs.Ledger.OneStore

/-!
# Honest runs

In an honest run blocks are made from proposals, identities are not shared, and items are submitted
once and withdrawn only after that. Then every item has one fate at a time: it waits on one chain,
it was withdrawn, or a finalized block lists it; and no item that waits has met another fate.

- `Run.Honest`: such a run.
- `Run.fate`: a submitted item waits, was withdrawn or is listed, in any run.
- `Run.Honest.once`, `Run.Honest.withdrawn`, `Run.Honest.listed`: what waits does so on one chain,
  was not withdrawn, and is not listed by a finalized block.
- `Run.Tracks.attached`: finalized blocks extend finalized blocks, in any run.
-/

namespace ShardLedger

namespace Run

variable {seen : List Block} {rules : Rules} {ops : List Operation} {r : Run} {x : ContentId}

/-- Items are withdrawn only after they were submitted. -/
def Timely (ops : List Operation) : Prop :=
  ∀ before x later, ops = before ++ .invalidate x :: later → x ∈ (itemsOf before).map (·.id)

/-- Blocks are made from proposals, identities are not shared, and items are submitted once and
withdrawn only after that. -/
structure Honest (rules : Rules) (ops : List Operation) : Prop where
  faithful : Faithful rules ops
  clear : Clear ops
  timely : Timely ops

/-! ### Finalized blocks -/

/-- The blocks that chains have finalized are those that were reported. -/
theorem Tracks.reported (h : r.Tracks seen rules) :
    (r.finalizations.map (·.2)).Perm (r.finalizedBlocks.map (·.id)) := by
  unfold finalizedBlocks
  rw [List.map_append, List.map_map]
  exact h.perm

theorem Tracks.finalizedBlocks_subset (h : r.Tracks seen rules) : r.finalizedBlocks ⊆ seen := by
  obtain ⟨fin, -, hsteps⟩ := h.board
  have htotal := hsteps.conserved.total
  rw [List.map_map, Ledger.queued_lanes] at htotal
  intro b hb
  obtain ⟨entry, hentry, rfl⟩ := List.mem_map.1 (htotal.symm.subset hb)
  exact (hsteps.admitted entry hentry).mem

/-- A block that a chain has finalized extends another one, or the genesis. -/
theorem Tracks.attached (h : r.Tracks seen rules) {b : Block} (hb : b ∈ r.finalizedBlocks) :
    ∃ p, b.parent? = some p ∧
      (p = (Block.genesis .root).id ∨ ∃ a ∈ r.finalizedBlocks, a.id = p) := by
  obtain ⟨fin, -, hsteps⟩ := h.board
  have hblocks := hsteps.ancestral.blocks
  rw [List.map_map, Ledger.queued_lanes] at hblocks
  have hblocks : ParentsFirst [] r.finalizedBlocks := hblocks
  obtain ⟨pre, post, heq⟩ := List.append_of_mem hb
  rw [heq] at hblocks
  rcases hblocks.rooted with hroot | ⟨a, ha, hdescends⟩
  · exact ⟨_, hroot, Or.inl rfl⟩
  · refine ⟨_, hdescends.parent, Or.inr ⟨a, ?_, rfl⟩⟩
    rw [heq]
    exact List.mem_append_left _ ha

/-! ### Items -/

/-- An item that was submitted waits on some chain, was withdrawn, or is listed by a block that a
chain has finalized. -/
theorem fate (h : Run.after rules ops = .ok r) {item : ContentItem} (hitem : item ∈ itemsOf ops) :
    r.ledger.root.Holds item.id ∨ item.id ∈ withdrawnOf ops ∨
      ∃ b ∈ r.finalizedBlocks, item.id ∈ b.contentIds := by
  obtain ⟨op, hop, hsome⟩ := List.mem_filterMap.1 hitem
  cases op with
  | submitContent item' =>
    obtain rfl : item' = item := Option.some.inj hsome
    obtain ⟨before, later, rfl⟩ := List.append_of_mem hop
    rw [List.append_cons] at h
    obtain ⟨l, hl, -⟩ := after_eq h
    have h₁ := after_perform (after_of_create hl before) (.submitContent item')
    obtain ⟨log, hlater⟩ := advances h₁ h
    -- it is stored, and if it is gone by now, a withdrawal or a finalized block took it
    have hstored := Ledger.submitContent_holds
      (before.foldl (perform rules) (start l)).ledger item'
    by_cases hgone : item'.id ∈ withdrawnOf later ++ log.flatMap (·.contentIds)
    · rcases List.mem_append.1 hgone with hgone | hgone
      · refine Or.inr (Or.inl ?_)
        rw [List.append_cons, withdrawnOf_append]
        exact List.mem_append_right _ hgone
      · obtain ⟨b, hb, hlisted⟩ := List.mem_flatMap.1 hgone
        exact Or.inr (Or.inr ⟨b, hlater.account.symm.subset (List.mem_append_right _ hb), hlisted⟩)
    · exact Or.inl (hlater.shifts.root.holds item'.id hstored hgone)
  | _ => cases hsome

section Honest

variable (hhonest : Honest rules ops) (h : Run.after rules ops = .ok r)
include hhonest h

/-- An item waits on one chain at most. -/
theorem Honest.once : r.ledger.Once x := by
  refine pending_once_of_agree h fun i hi j hj hid => ?_
  rw [List.inj_on_of_nodup_map hhonest.clear.items hi hj hid]
  exact ⟨rfl, rfl⟩

/-- What was withdrawn does not wait. -/
theorem Honest.withdrawn (hx : x ∈ withdrawnOf ops) (id : ChainId) : ¬r.ledger.Pending id x := by
  obtain ⟨op, hop, hsome⟩ := List.mem_filterMap.1 hx
  cases op with
  | invalidate y =>
    obtain rfl : y = x := Option.some.inj hsome
    obtain ⟨before, later, rfl⟩ := List.append_of_mem hop
    have hearlier := hhonest.timely before y later rfl
    have hitems := hhonest.clear.items
    obtain ⟨l, hl, -⟩ := after_eq h
    have h₀ := after_of_create hl before
    have h₁ := after_perform h₀ (.invalidate y)
    rw [List.append_cons] at h
    obtain ⟨log, hlater⟩ := advances h₁ h
    rw [itemsOf_append, List.map_append] at hitems
    obtain ⟨hbefore, -, hdisj⟩ := List.nodup_append.1 hitems
    -- it was taken out of the one store in which it waited
    have honce : (before.foldl (perform rules) (start l)).ledger.Once y := by
      refine pending_once_of_agree h₀ fun i hi j hj hid => ?_
      rw [List.inj_on_of_nodup_map hbefore hi hj hid]
      exact ⟨rfl, rfl⟩
    have hcleared := (tidy h₀).invalidate_clears honce
    intro hp
    obtain ⟨c, hc, item, hitem⟩ := (tidy h).pending_iff.1 hp
    rcases hlater.shifts.root.stores y item ⟨_, c, hc, hitem⟩ with ⟨q, d, hd, hold⟩ | ⟨hcame, hid⟩
    · exact hcleared _ ((tidy h₁).pending_of_chainAt hd ⟨item, hold⟩).2.2
    · -- and did not come back
      have hlate : item ∈ itemsOf (.invalidate y :: later) := hcame
      exact hdisj _ hearlier _ (List.mem_map_of_mem hlate) hid.symm
  | _ => cases hsome

/-- What a finalized block lists does not wait. -/
theorem Honest.listed {b : Block} (hb : b ∈ blocksOf ops)
    (hfinal : b.id ∈ r.finalizations.map (·.2)) (hx : x ∈ b.contentIds) (id : ChainId) :
    ¬r.ledger.Pending id x := by
  intro hp
  obtain ⟨d, hd⟩ := exists_stocks h hhonest.clear hhonest.faithful
  rw [hd.finalized, List.map_map] at hfinal
  obtain ⟨a, ha, hid⟩ := List.mem_map.1 hfinal
  obtain rfl : a = b := hhonest.clear.coherent a
    (List.mem_cons_of_mem _ (hd.lawful.submitted a ha)) b (List.mem_cons_of_mem _ hb) hid
  obtain ⟨q, hq⟩ := hd.shows.exists_holds (tidy h).arranged hp
  exact hd.lawful.gone a ha x hx q hq

end Honest

end Run

end ShardLedger
