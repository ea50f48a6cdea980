/-!
# Sorting by a key

A merge sort by a key puts the keys in order and leaves the elements of one key as they stood. The
ranks of a global order and the rounds of a last delivery are such keys.

- `pairwise_mergeSort_key`: the keys never decrease.
- `filter_mergeSort_key`: the elements of one key stay in their order.
-/

namespace ShardLedger

variable {α κ : Type} [LE κ] [DecidableLE κ] [Std.IsLinearPreorder κ] (key : α → κ)

theorem key_le_trans (x y z : α) (hxy : decide (key x ≤ key y) = true)
    (hyz : decide (key y ≤ key z) = true) : decide (key x ≤ key z) = true :=
  decide_eq_true (Std.le_trans (of_decide_eq_true hxy) (of_decide_eq_true hyz))

theorem key_le_total (x y : α) : (decide (key x ≤ key y) || decide (key y ≤ key x)) = true := by
  rw [Bool.or_eq_true, decide_eq_true_eq, decide_eq_true_eq]
  exact Std.le_total

theorem pairwise_mergeSort_key (xs : List α) :
    (xs.mergeSort fun x y => key x ≤ key y).Pairwise fun x y => key x ≤ key y :=
  (List.pairwise_mergeSort (key_le_trans key) (key_le_total key) xs).imp of_decide_eq_true

theorem filter_mergeSort_key [DecidableEq κ] (xs : List α) (k : κ) :
    (xs.mergeSort fun x y => key x ≤ key y).filter (fun x => key x = k) =
      xs.filter fun x => key x = k := by
  have hties :
      (xs.filter fun x => key x = k).Pairwise fun x y => decide (key x ≤ key y) = true := by
    refine List.pairwise_of_forall_mem_list fun x hx y hy => ?_
    have hx := of_decide_eq_true (List.mem_filter.1 hx).2
    have hy := of_decide_eq_true (List.mem_filter.1 hy).2
    rw [hx, hy]
    exact decide_eq_true (Std.le_refl k)
  have hsub :=
    List.sublist_mergeSort (key_le_trans key) (key_le_total key) hties List.filter_sublist
  have hboth := hsub.filter fun x => decide (key x = k)
  rw [List.filter_filter] at hboth
  simp only [Bool.and_self] at hboth
  exact (hboth.eq_of_length ((List.mergeSort_perm xs _).filter _).length_eq.symm).symm

end ShardLedger
