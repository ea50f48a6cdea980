import ShardLedger.Word

/-!
# Sums that stop

A sum that stops at the largest word is at least its first part, as long as that part is a word
itself, and it grows with its parts.

- `le_addCapped`, `addCapped_le`: its bounds.
- `addCapped_mono`, `addCapped_addCapped`: larger parts and further parts.
-/

namespace ShardLedger

theorem toNat_le_maxWord (w : UInt64) : w.toNat ≤ maxWord := Nat.le_sub_one_of_lt w.toNat_lt

theorem le_addCapped {a : Nat} (h : a ≤ maxWord) (b : Nat) : a ≤ addCapped a b :=
  Nat.le_min.2 ⟨Nat.le_add_right a b, h⟩

theorem addCapped_le (a b : Nat) : addCapped a b ≤ maxWord := Nat.min_le_right ..

theorem addCapped_mono (a : Nat) {b c : Nat} (h : b ≤ c) : addCapped a b ≤ addCapped a c := by
  unfold addCapped
  omega

theorem addCapped_addCapped (used a b : Nat) :
    addCapped (addCapped used a) b = addCapped used (a + b) := by
  unfold addCapped
  omega

end ShardLedger
