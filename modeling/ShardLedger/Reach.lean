import ShardLedger.Id

/-!
# Reaching through a map

Walks over a finite map whose values name further keys. Every entry that a walk meets is taken out
of the map, so a walk ends on any map, cycles included, and meets each entry once.

- `pull`: take the entries of the given keys out of a map.
- `reach`: take out all entries that can be reached from the given keys.
-/

namespace ShardLedger

variable {α : Type}

/-- Taking out an entry that is there makes a map smaller by one. -/
theorem size_erase_add_one {entries : BlockMap α} {id : BlockId} {entry : α}
    (h : entries[id]? = some entry) : (entries.erase id).size + 1 = entries.size := by
  have hmem : entries.contains id = true := by
    rw [Std.ExtTreeMap.contains_eq_isSome_getElem?, h]; rfl
  have hne : entries.size ≠ 0 := fun h0 => by
    rw [Std.ExtTreeMap.eq_empty_iff_size_eq_zero.2 h0] at h
    simp at h
  rw [Std.ExtTreeMap.size_erase, if_pos hmem]
  omega

/-- Take the entries of the given keys out of a map; keys that the map does not hold, or that
come a second time, are passed over. -/
def pull (entries : BlockMap α) : List BlockId → List (BlockId × α) × BlockMap α
  | [] => ([], entries)
  | id :: rest =>
    match entries[id]? with
    | none => pull entries rest
    | some entry =>
      let (found, left) := pull (entries.erase id) rest
      ((id, entry) :: found, left)

/-- Each entry found has left the map. -/
theorem size_pull (entries : BlockMap α) (ids : List BlockId) :
    (pull entries ids).2.size + (pull entries ids).1.length = entries.size := by
  induction ids generalizing entries with
  | nil => simp [pull]
  | cons id rest ih =>
    cases h : entries[id]? with
    | none => simpa [pull, h] using ih entries
    | some entry =>
      have := ih (entries.erase id)
      have := size_erase_add_one h
      simp only [pull, h, List.length_cons]
      omega

/-- The entries that can be reached from the given keys, where `next` tells the keys that an
entry names; the nearest come first. -/
def reach (next : α → List BlockId) (entries : BlockMap α) (ids : List BlockId) :
    List (BlockId × α) :=
  match _h : pull entries ids with
  | ([], _) => []
  | (entry :: found, left) =>
    entry :: found ++ reach next left ((entry :: found).flatMap fun e => next e.2)
termination_by entries.size
decreasing_by
  have := size_pull entries ids
  simp only [_h, List.length_cons] at this
  omega

end ShardLedger
