import Mathlib.Data.List.Induction
import ShardLedger.Proofs.Content.Store
import ShardLedger.Proofs.Tree.Paths

/-!
# Where items are bound

An item is bound for a place in the tree if both its fingerprints show the turns that lead there, a
0 for every turn to the left and a 1 for every turn to the right. The same turns are the binary
digits of the chain number, below the leading one.

- `ChainId.log2_descend`, `ChainId.testBit_descend`: the digits of a number reached by a path.
- `ContentItem.BoundFor`: both fingerprints show the turns of a path.
- `ContentItem.boundFor_concat`: one more turn is what a split at that depth decides.
-/

namespace ShardLedger

/-- The bit that stands for a turn. -/
def Side.bit : Side → Bool
  | left => false
  | right => true

/-- The part of a store that goes to a side. -/
def Side.route : Side → Route
  | left => .left
  | right => .right

namespace ChainId

variable {p : List Side} {c : ChainId}

/-- One more turn appends a binary digit. -/
theorem descend_concat (n : Nat) (p : List Side) (side : Side) :
    descend n (p ++ [side]) = 2 * descend n p + side.bit.toNat := by
  rw [descend_append]
  cases side <;> rfl

/-- A number has one digit more than there are turns on the way to it. -/
theorem log2_descend (p : List Side) : (descend 1 p).log2 = p.length := by
  induction p using List.reverseRecOn with
  | nil => rfl
  | append_singleton p side ih =>
    have hpos : 0 < descend 1 p := descend_pos Nat.one_pos p
    have hbit : side.bit.toNat ≤ 1 := Bool.toNat_le _
    rw [descend_concat, Nat.log2_def, if_pos (by omega), List.length_append, ← ih]
    have hhalf : (2 * descend 1 p + side.bit.toNat) / 2 = descend 1 p := by omega
    rw [hhalf]
    rfl

/-- The digits of a number, from the one below the leading one on, are the turns on the way. -/
theorem testBit_descend {i : Nat} {side : Side} (h : p[i]? = some side) :
    (descend 1 p).testBit (p.length - 1 - i) = side.bit := by
  induction p using List.reverseRecOn with
  | nil => cases h
  | append_singleton p last ih =>
    have hbit : last.bit.toNat ≤ 1 := Bool.toNat_le _
    rw [descend_concat, List.length_append, List.length_singleton]
    rcases Nat.lt_or_ge i p.length with hi | hi
    · -- all but the last digit are those of half the number
      rw [List.getElem?_append_left hi] at h
      have hplace : p.length + 1 - 1 - i = (p.length - 1 - i) + 1 := by omega
      have hhalf : (2 * descend 1 p + last.bit.toNat) / 2 = descend 1 p := by omega
      rw [hplace, Nat.testBit_succ, hhalf]
      exact ih h
    · rw [List.getElem?_append_right hi, List.getElem?_singleton] at h
      split at h
      · rw [Option.some.injEq] at h
        subst h
        have hplace : p.length + 1 - 1 - i = 0 := by omega
        rw [hplace, Nat.testBit_zero]
        cases last <;> simp [Side.bit]
      · cases h

theorem depth_eq (h : c.number = descend 1 p) : c.depth = p.length := by
  unfold depth
  rw [h, log2_descend]

end ChainId

namespace ContentItem

variable {item : ContentItem} {p q : List Side} {side : Side} {c : Cursor}

/-- A split sends an item to a side if both fingerprints say so. -/
theorem route_eq_side : item.route c = side.route ↔
    item.first.bit c.depth = side.bit ∧ item.second.bit c.depth = side.bit := by
  unfold route Cursor.route
  cases item.first.bit c.depth <;> cases item.second.bit c.depth <;> cases side <;>
    simp [Side.bit, Side.route]

/-- An item stays where its fingerprints disagree. -/
theorem route_eq_center : item.route c = .center ↔
    item.first.bit c.depth ≠ item.second.bit c.depth := by
  unfold route Cursor.route
  cases item.first.bit c.depth <;> cases item.second.bit c.depth <;> simp

/-- Both fingerprints show the turns of the path, from the topmost bit on. -/
def BoundFor (item : ContentItem) (p : List Side) : Prop :=
  ∀ (i : Nat) (side : Side), p[i]? = some side →
    item.first.bit i = side.bit ∧ item.second.bit i = side.bit

/-- Every item is bound for the root. -/
theorem boundFor_nil (item : ContentItem) : item.BoundFor [] := by
  intro i side h
  cases h

theorem BoundFor.of_append (h : item.BoundFor (p ++ q)) : item.BoundFor p := by
  intro i side hi
  obtain ⟨hlt, -⟩ := List.getElem?_eq_some_iff.1 hi
  exact h i side ((List.getElem?_append_left hlt).trans hi)

/-- To be bound one turn further down is to be sent there by a split at that depth. -/
theorem boundFor_concat (hc : c.depth = p.length) :
    item.BoundFor (p ++ [side]) ↔ item.BoundFor p ∧ item.route c = side.route := by
  rw [route_eq_side, hc]
  constructor
  · intro h
    exact ⟨h.of_append, h p.length side List.getElem?_concat_length⟩
  · rintro ⟨hp, hlast⟩ i s hi
    rcases Nat.lt_or_ge i p.length with hlt | hge
    · exact hp i s ((List.getElem?_append_left hlt).symm.trans hi)
    · rw [List.getElem?_append_right hge, List.getElem?_singleton] at hi
      split at hi
      · rw [Option.some.injEq] at hi
        have hplace : i = p.length := by omega
        rw [hplace, ← hi]
        exact hlast
      · cases hi

/-- An item that is bound for the place of a chain shows the digits of its number. -/
theorem BoundFor.bits {id : ChainId} (h : item.BoundFor p)
    (hid : id.number = ChainId.descend 1 p) :
    ∀ i < id.depth, item.first.bit i = id.number.testBit (id.depth - 1 - i) ∧
      item.second.bit i = id.number.testBit (id.depth - 1 - i) := by
  intro i hi
  rw [ChainId.depth_eq hid] at hi ⊢
  obtain ⟨hfirst, hsecond⟩ := h i p[i] (List.getElem?_eq_getElem hi)
  rw [hid, ChainId.testBit_descend (List.getElem?_eq_getElem hi)]
  exact ⟨hfirst, hsecond⟩

end ContentItem

theorem Cursor.deeper_depth {c c' : Cursor} (h : c.deeper = .ok c') : c'.depth = c.depth + 1 := by
  unfold deeper at h
  split at h
  · rw [Except.ok.injEq] at h
    rw [← h]
  · cases h

end ShardLedger
