import ShardLedger.Proofs.Simulation.Auditing
import ShardLedger.Proofs.Tree.Paths

/-!
# The criteria of an audit

An audit goes through the outcome of a run in several passes, which collect sets, look chains up and
count. Here its verdict is said of the lists of the outcome alone. The outcome may be any: no run
need have led to it, and it may list a chain twice.

- `RunResult.LastOf`: the entry that stands for a chain.
- `RunResult.chain?_eq_some_iff`, `RunResult.sole_iff`, `RunResult.linked_iff`: what is looked up
  and counted.
- `Audit.passes_iff`: what an audit passes.
-/

namespace ShardLedger

theorem ChainId.isRoot_eq_false_iff {c : ChainId} : c.isRoot = false ↔ c ≠ .root := by
  unfold isRoot
  rw [beq_eq_false_iff_ne]
  exact not_congr ⟨fun h => eq_of_number h, congrArg number⟩

theorem Block.parent?_eq_some_iff {b : Block} {parent : BlockId} :
    b.parent? = some parent ↔ b.previous = [parent] := by
  unfold Block.parent?
  constructor
  · intro h
    split at h
    · rename_i only hprevious
      rw [hprevious, Option.some.inj h]
    · cases h
  · intro h
    rw [h]

namespace RunResult

variable {r : RunResult} {id : ChainId} {c : ChainSnapshot}

/-- The last of the entries of a chain. -/
def LastOf (r : RunResult) (id : ChainId) (c : ChainSnapshot) : Prop :=
  ∃ earlier later, r.chains = earlier ++ c :: later ∧ c.id = id ∧ ∀ d ∈ later, d.id ≠ id

theorem chain?_eq_some_iff : Audit.chain? r id = some c ↔ r.LastOf id c := by
  unfold Audit.chain? LastOf
  rw [List.find?_eq_some_iff_append, decide_eq_true_eq]
  constructor
  · rintro ⟨hid, later, earlier, heq, hlater⟩
    refine ⟨earlier.reverse, later.reverse, ?_, hid, fun d hd heq => ?_⟩
    · rw [← List.reverse_reverse r.chains, heq]
      simp
    · simpa [heq] using hlater d (List.mem_reverse.1 hd)
  · rintro ⟨earlier, later, heq, hid, hlater⟩
    refine ⟨hid, later.reverse, earlier.reverse, ?_, fun d hd => ?_⟩
    · rw [heq]
      simp
    · simpa using hlater d (List.mem_reverse.1 hd)

/-- A chain is linked if the last entry of its parent is live and names it. -/
theorem linked_iff : r.Linked id ↔ ∃ upper parent left right, 1 < id.number ∧
    upper.number = id.number / 2 ∧ r.LastOf upper parent ∧ parent.retired = false ∧
      parent.children = some (left, right) ∧ (id = left ∨ id = right) := by
  unfold Linked
  simp only [ChainId.parent?_eq_some_iff, chain?_eq_some_iff, and_assoc]

/-- If an item is pending in one chain at most, any two of them have no pending item in common. -/
theorem sole_iff : ∀ {chains : List ChainSnapshot},
    (∀ x, (chains.filter (·.pending.contains x)).length ≤ 1) ↔
      chains.Pairwise fun c d => ∀ x ∈ c.pending, x ∉ d.pending
  | [] => iff_of_true (fun _ => Nat.zero_le 1) .nil
  | c :: rest => by
    rw [List.pairwise_cons, ← sole_iff]
    constructor
    · refine fun h => ⟨fun d hd x hc hx => ?_, fun x => ?_⟩
      · -- the first chain holds the item already
        have hone := h x
        rw [List.filter_cons, if_pos (List.contains_iff_mem.2 hc), List.length_cons] at hone
        have hnone : rest.filter (·.pending.contains x) = [] :=
          List.eq_nil_of_length_eq_zero (by omega)
        exact List.filter_eq_nil_iff.1 hnone d hd (List.contains_iff_mem.2 hx)
      · exact Nat.le_trans ((List.sublist_cons_self c rest).filter _).length_le (h x)
    · rintro ⟨hfirst, hrest⟩ x
      rw [List.filter_cons]
      split
      · rename_i hc
        rw [List.filter_eq_nil_iff.2 fun d hd hx =>
          hfirst d hd x (List.contains_iff_mem.1 hc) (List.contains_iff_mem.1 hx)]
        exact Nat.le_refl 1
      · exact hrest x

end RunResult

namespace Audit

/-- An audit of any outcome finds nothing exactly if the global order and the finalized blocks are
without repetition, ranks never decrease, all that is in the global order is finalized, each
finalized block is known and extends another one or the genesis, pending items are in one chain,
neither carried nor withdrawn, no item is lost, nothing below the final bar waits for its place, and
live chains are linked from the last entries of live parents. -/
theorem passes_iff (r : RunResult) : all r = [] ↔
    (r.linearized.map (·.id)).Nodup ∧
    (r.linearized.map (·.rank.current)).Pairwise (· ≤ ·) ∧
    (r.finalized.map (·.2)).Nodup ∧
    (∀ b ∈ r.linearized, b.id ∈ r.finalized.map (·.2)) ∧
    (∀ id ∈ r.finalized.map (·.2), ∃ b parent, r.blocks[id]? = some b ∧ b.previous = [parent] ∧
      (parent = r.rootGenesis ∨ parent ∈ r.finalized.map (·.2))) ∧
    (r.chains.Pairwise fun c d => ∀ x ∈ c.pending, x ∉ d.pending) ∧
    (∀ c ∈ r.chains, ∀ x ∈ c.pending, ¬r.Carried x ∧ x ∉ r.invalidated) ∧
    (∀ x ∈ r.submitted, x ∉ r.invalidated → r.Waits x ∨ r.Carried x) ∧
    (∀ c ∈ r.chains, ∀ rank, c.undeliveredHead = some rank → ¬rank < r.finalBar) ∧
    ∀ c ∈ r.chains, c.retired = false → c.id ≠ .root → ∃ upper parent left right,
      1 < c.id.number ∧ upper.number = c.id.number / 2 ∧ r.LastOf upper parent ∧
        parent.retired = false ∧ parent.children = some (left, right) ∧
          (c.id = left ∨ c.id = right) := by
  rw [all_eq_nil_iff]
  simp only [← Block.parent?_eq_some_iff, ← RunResult.sole_iff, ← RunResult.linked_iff,
    ← ChainId.isRoot_eq_false_iff, UInt64.not_lt]
  constructor
  · intro h
    exact ⟨h.once, h.ranked, h.finalized_once, h.finalized, h.attached, h.sole,
      fun c hc x hx => ⟨h.consumed x ⟨c, hc, hx⟩, h.withdrawn x ⟨c, hc, hx⟩⟩, h.kept,
      h.delivered, h.linked⟩
  · rintro ⟨honce, hranked, hfonce, hfinal, hattached, hsole, hpending, hkept, hdelivered, hlinked⟩
    exact
      { once := honce, ranked := hranked, finalized_once := hfonce, finalized := hfinal
        attached := hattached, sole := hsole
        consumed := fun x ⟨c, hc, hx⟩ => (hpending c hc x hx).1
        withdrawn := fun x ⟨c, hc, hx⟩ => (hpending c hc x hx).2
        kept := hkept, delivered := hdelivered, linked := hlinked }

end Audit

end ShardLedger
