import ShardLedger.Reach

/-!
# Lookups in maps and sets

What a lookup finds after an insertion or a removal, for keys whose comparison tells them apart.
Everything about fork graphs, backlogs and stores that follows rests on these equations.
-/

namespace ShardLedger

namespace Lookup

variable {κ α : Type} [Ord κ] [Std.TransOrd κ] [Std.LawfulEqOrd κ] [DecidableEq κ]

/-- An insertion is found at its key and changes nothing elsewhere. -/
theorem get_insert (m : Std.ExtTreeMap κ α) (k a : κ) (v : α) :
    (m.insert k v)[a]? = if k = a then some v else m[a]? := by
  simp only [Std.ExtTreeMap.getElem?_insert, Std.LawfulEqCmp.compare_eq_iff_eq]

/-- A removal leaves nothing at its key and changes nothing elsewhere. -/
theorem get_erase (m : Std.ExtTreeMap κ α) (k a : κ) :
    (m.erase k)[a]? = if k = a then none else m[a]? := by
  simp only [Std.ExtTreeMap.getElem?_erase, Std.LawfulEqCmp.compare_eq_iff_eq]

omit [Std.LawfulEqOrd κ] [DecidableEq κ] in
/-- A map holds a key exactly if a lookup finds something. -/
theorem contains_iff {m : Std.ExtTreeMap κ α} {k : κ} :
    m.contains k = true ↔ ∃ v, m[k]? = some v := by
  rw [Std.ExtTreeMap.contains_eq_isSome_getElem?, Option.isSome_iff_exists]

omit [Std.LawfulEqOrd κ] [DecidableEq κ] in
/-- A map lacks a key exactly if a lookup finds nothing. -/
theorem contains_eq_false {m : Std.ExtTreeMap κ α} {k : κ} :
    m.contains k = false ↔ m[k]? = none := by
  rw [Std.ExtTreeMap.contains_eq_isSome_getElem?, Option.isSome_eq_false_iff,
    Option.isNone_iff_eq_none]

omit [DecidableEq κ] in
theorem mem_insert {s : Std.ExtTreeSet κ} {k a : κ} : a ∈ s.insert k ↔ k = a ∨ a ∈ s := by
  simp only [Std.ExtTreeSet.mem_insert, Std.LawfulEqCmp.compare_eq_iff_eq]

omit [DecidableEq κ] in
theorem mem_erase {s : Std.ExtTreeSet κ} {k a : κ} : a ∈ s.erase k ↔ k ≠ a ∧ a ∈ s := by
  rw [Std.ExtTreeSet.mem_erase, ne_eq, Std.LawfulEqCmp.compare_eq_iff_eq]

/-- Removing keys one after the other leaves what none of them names. -/
theorem get_eraseAll (ids : List κ) (m : Std.ExtTreeMap κ α) (a : κ) :
    (ids.foldl (fun m id => m.erase id) m)[a]? = if a ∈ ids then none else m[a]? := by
  induction ids generalizing m with
  | nil => simp
  | cons id rest ih =>
    rw [List.foldl_cons, ih, get_erase]
    by_cases ha : a ∈ rest
    · rw [if_pos ha, if_pos (List.mem_cons_of_mem _ ha)]
    · rw [if_neg ha]
      by_cases hid : id = a
      · rw [if_pos hid, if_pos (hid ▸ List.mem_cons_self ..)]
      · rw [if_neg hid, if_neg (by simp [ha, Ne.symm hid])]

omit [Std.LawfulEqOrd κ] [DecidableEq κ] in
/-- The values of a map are those of its entries, in order. -/
theorem values_eq (m : Std.ExtTreeMap κ α) : m.values = m.toList.map Prod.snd := by
  -- down to the trees that represent the map
  obtain ⟨⟨q⟩⟩ := m
  induction q using Quotient.inductionOn with
  | _ d =>
    show d.inner.values = (Std.DTreeMap.Internal.Impl.Const.toList d.inner).map Prod.snd
    rw [Std.DTreeMap.Internal.Impl.values_eq_map_snd,
      Std.DTreeMap.Internal.Impl.Const.toList_eq_toListModel_map, List.map_map]
    rfl

omit [DecidableEq κ] in
/-- The values of a map are what lookups find. -/
theorem mem_values {m : Std.ExtTreeMap κ α} {v : α} : v ∈ m.values ↔
    ∃ k : κ, m[k]? = some v := by
  rw [values_eq, List.mem_map]
  constructor
  · rintro ⟨⟨k, w⟩, hmem, rfl⟩
    exact ⟨k, Std.ExtTreeMap.mem_toList_iff_getElem?_eq_some.1 hmem⟩
  · rintro ⟨k, hk⟩
    exact ⟨(k, v), Std.ExtTreeMap.mem_toList_iff_getElem?_eq_some.2 hk, rfl⟩

omit [Std.LawfulEqOrd κ] [DecidableEq κ] in
/-- A walk that collects elements ends with those of its stops. -/
theorem mem_foldl_iff {x : κ} {step : Std.ExtTreeSet κ → α → Std.ExtTreeSet κ} {p : α → Prop}
    (hstep : ∀ found a, x ∈ step found a ↔ x ∈ found ∨ p a) (stops : List α) :
    x ∈ stops.foldl step ∅ ↔ ∃ a ∈ stops, p a := by
  have hwalk : ∀ (stops : List α) (found : Std.ExtTreeSet κ),
      x ∈ stops.foldl step found ↔ x ∈ found ∨ ∃ a ∈ stops, p a := by
    intro stops
    induction stops with
    | nil => simp
    | cons a rest ih =>
      intro found
      rw [List.foldl_cons, ih, hstep, or_assoc]
      simp only [List.mem_cons, exists_eq_or_imp]
  exact (hwalk stops ∅).trans (or_iff_right Std.ExtTreeSet.not_mem_empty)

end Lookup

end ShardLedger
