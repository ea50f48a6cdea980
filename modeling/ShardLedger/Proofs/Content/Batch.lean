import ShardLedger.Content.Batch
import ShardLedger.Proofs.Content.Store
import ShardLedger.Proofs.Reach

/-!
# What a batch leaves out

A batch is taken from what the store holds, less what the blocks behind it carry. The walk
backwards misses none of them, and it meets nothing else.

- `contains_consumedBy`: exactly what the blocks behind a batch carry.
- `ContentStore.mem_batch`: what is in a batch.
-/

namespace ShardLedger

/-- What some blocks carry is collected, and nothing else. -/
theorem contains_consumedBy {blocks : BlockMap Block} {refs : List BlockId} {x : ContentId} :
    (consumedBy blocks refs).contains x = true ↔
      ∃ n b, (n, b) ∈ reach (fun (b : Block) => b.previous) blocks refs ∧ x ∈ b.contentIds := by
  have hfold : ∀ (entries : List (BlockId × Block)) (ids : ContentSet),
      (entries.foldl (fun ids entry => ids.insertMany entry.2.contentIds) ids).contains x = true ↔
        ids.contains x = true ∨ ∃ n b, (n, b) ∈ entries ∧ x ∈ b.contentIds := by
    intro entries
    induction entries with
    | nil => exact fun ids => (or_iff_left fun ⟨_, _, h, _⟩ => nomatch h).symm
    | cons entry rest ih =>
      intro ids
      rw [List.foldl_cons, ih, Std.ExtTreeSet.contains_insertMany_list, Bool.or_eq_true,
        List.contains_iff_mem, or_assoc]
      refine or_congr_right ⟨?_, ?_⟩
      · rintro (hx | ⟨n, b, h, hx⟩)
        · exact ⟨entry.1, entry.2, List.mem_cons_self .., hx⟩
        · exact ⟨n, b, List.mem_cons_of_mem _ h, hx⟩
      · rintro ⟨n, b, h, hx⟩
        rcases List.mem_cons.1 h with rfl | h
        · exact .inl hx
        · exact .inr ⟨n, b, h, hx⟩
  refine (hfold _ ∅).trans (or_iff_right fun h => ?_)
  rw [Std.ExtTreeSet.contains_empty] at h
  cases h

namespace ContentStore

theorem fill_sublist (limit : Nat) (refs : List ContentRef) :
    ∀ used, (fill limit used refs).Sublist refs := by
  induction refs with
  | nil => exact fun _ => List.Sublist.refl _
  | cons r rest ih =>
    intro used
    unfold fill
    split
    · exact (ih _).cons_cons r
    · exact List.nil_sublist _

/-- What is in a batch is stored, and no block behind the batch carries it. -/
theorem mem_batch {s : ContentStore} {blocks : BlockMap Block} {refs : List BlockId}
    {used maxSize reserve : Nat} {r : ContentRef} (hs : s.Keyed)
    (h : r ∈ s.batch blocks refs used maxSize reserve) :
    s.Holds r.id ∧ ∀ n b, (n, b) ∈ reach (fun (b : Block) => b.previous) blocks refs →
      r.id ∉ b.contentIds := by
  obtain ⟨item, hitem, rfl⟩ := List.mem_map.1 ((fill_sublist _ _ _).subset h)
  obtain ⟨hitem, hconsumed⟩ := List.mem_filter.1 hitem
  constructor
  · obtain ⟨x, hx⟩ := Lookup.mem_values.1 hitem
    rw [← hs x item hx] at hx
    exact ⟨item, hx⟩
  · intro n b hreach hx
    have hcontains := contains_consumedBy.2 ⟨n, b, hreach, hx⟩
    have hid : item.ref.id = item.id := rfl
    rw [hid] at hcontains
    simp [hcontains] at hconsumed

end ContentStore

end ShardLedger
