import ShardLedger.Content.Store
import ShardLedger.Proofs.Lookup

/-!
# What a store holds

How the operations on a store change what it holds. Taking items out, by hand or by a split, only
makes a store smaller; a split sends every item to one of three parts; pouring stores together
adds nothing.

- `ContentStore.Holds`, `ContentStore.Keyed`: an item is stored, and under its own identity.
- `ContentStore.Within`: a store that is part of another.
-/

namespace ShardLedger

namespace ContentStore

variable {s t : ContentStore} {x y : ContentId} {item : ContentItem}

/-- An item of that identity is stored. -/
def Holds (s : ContentStore) (x : ContentId) : Prop := ∃ item, s.items[x]? = some item

/-- Every item is stored under its own identity. -/
def Keyed (s : ContentStore) : Prop :=
  ∀ (x : ContentId) (item : ContentItem), s.items[x]? = some item → item.id = x

/-- What the store holds, the other one holds as well. -/
def Within (s t : ContentStore) : Prop :=
  ∀ (x : ContentId) (item : ContentItem), s.items[x]? = some item → t.items[x]? = some item

theorem Within.holds (h : s.Within t) (hx : s.Holds x) : t.Holds x := by
  obtain ⟨item, hitem⟩ := hx
  exact ⟨item, h x item hitem⟩

theorem Within.keyed (h : s.Within t) (ht : t.Keyed) : s.Keyed := by
  intro x item hitem
  exact ht x item (h x item hitem)

theorem not_holds_empty : ¬empty.Holds x := by
  rintro ⟨item, hitem⟩
  simp [empty] at hitem

theorem keyed_empty : empty.Keyed := by
  intro x item hitem
  simp [empty] at hitem

/-! ### Coming in -/

theorem holds_submit (h : (s.submit item).1.Holds x) : s.Holds x ∨ x = item.id := by
  unfold submit at h
  split at h
  · exact Or.inl h
  · obtain ⟨found, hfound⟩ := h
    rw [Lookup.get_insert] at hfound
    split at hfound
    · exact Or.inr (Eq.symm ‹_›)
    · exact Or.inl ⟨found, hfound⟩

theorem Keyed.submit (h : s.Keyed) : (s.submit item).1.Keyed := by
  unfold ContentStore.submit
  split
  · exact h
  · intro x found hfound
    rw [Lookup.get_insert] at hfound
    split at hfound
    · rw [Option.some.injEq] at hfound
      rw [← hfound]
      assumption
    · exact h x found hfound

/-- What is stored afterwards was stored before, or is the item that came in. -/
theorem get_submit {found : ContentItem} (h : (s.submit item).1.items[x]? = some found) :
    s.items[x]? = some found ∨ (found = item ∧ item.id = x) := by
  unfold submit at h
  split at h
  · exact Or.inl h
  · rw [Lookup.get_insert] at h
    split at h
    · exact Or.inr ⟨(Option.some.inj h).symm, ‹_›⟩
    · exact Or.inl h

theorem contains_iff_holds : s.contains x = true ↔ s.Holds x := Lookup.contains_iff

/-- An item whose identity is taken changes nothing. -/
theorem submit_of_holds (h : s.Holds item.id) : s.submit item = (s, false) :=
  if_pos (contains_iff_holds.2 h)

/-- An item is refused exactly if its identity is taken. -/
theorem submit_eq_false : (s.submit item).2 = false ↔ s.Holds item.id := by
  rw [← contains_iff_holds]
  unfold submit
  split <;> simp [*]

theorem holds_submit_self (s : ContentStore) (item : ContentItem) :
    (s.submit item).1.Holds item.id := by
  by_cases h : s.Holds item.id
  · rw [submit_of_holds h]
    exact h
  · unfold submit
    rw [if_neg fun hc => h (contains_iff_holds.1 hc)]
    exact ⟨item, by rw [Lookup.get_insert, if_pos rfl]⟩

theorem Holds.submit (h : s.Holds x) (item : ContentItem) : (s.submit item).1.Holds x := by
  by_cases hx : item.id = x
  · subst hx
    exact holds_submit_self s item
  · obtain ⟨found, hfound⟩ := h
    unfold ContentStore.submit
    split
    · exact ⟨found, hfound⟩
    · exact ⟨found, by rw [Lookup.get_insert, if_neg hx, hfound]⟩

/-! ### Going out -/

theorem delete_within (s : ContentStore) (y : ContentId) : (s.delete y).1.Within s := by
  intro x found hfound
  unfold delete at hfound
  rw [Lookup.get_erase] at hfound
  split at hfound
  · cases hfound
  · exact hfound

theorem not_holds_delete (s : ContentStore) (x : ContentId) : ¬(s.delete x).1.Holds x := by
  rintro ⟨found, hfound⟩
  unfold delete at hfound
  rw [Lookup.get_erase, if_pos rfl] at hfound
  cases hfound

theorem Holds.delete (h : s.Holds x) (hne : x ≠ y) : (s.delete y).1.Holds x := by
  obtain ⟨found, hfound⟩ := h
  refine ⟨found, ?_⟩
  unfold ContentStore.delete
  rw [Lookup.get_erase, if_neg (Ne.symm hne), hfound]

theorem items_deleteMany (s : ContentStore) (ids : List ContentId) :
    (s.deleteMany ids).1.items = ids.foldl (fun m id => m.erase id) s.items := by
  unfold deleteMany
  -- the number of removed items does not matter
  refine (List.foldl_hom (fun acc : ContentStore × Nat => acc.1.items) fun acc id => ?_).symm
  have hdelete : (acc.1.delete id).1.items = acc.1.items.erase id := rfl
  dsimp only
  split
  · rename_i heq
    rw [heq] at hdelete
    exact hdelete.symm
  · rename_i heq
    rw [heq] at hdelete
    exact hdelete.symm

theorem get_deleteMany (s : ContentStore) (ids : List ContentId) (x : ContentId) :
    (s.deleteMany ids).1.items[x]? = if x ∈ ids then none else s.items[x]? := by
  rw [items_deleteMany, Lookup.get_eraseAll]

theorem deleteMany_within (s : ContentStore) (ids : List ContentId) :
    (s.deleteMany ids).1.Within s := by
  intro x found hfound
  rw [get_deleteMany] at hfound
  split at hfound
  · cases hfound
  · exact hfound

theorem not_holds_deleteMany {ids : List ContentId} (hx : x ∈ ids) :
    ¬(s.deleteMany ids).1.Holds x := by
  rintro ⟨found, hfound⟩
  rw [get_deleteMany, if_pos hx] at hfound
  cases hfound

theorem Holds.deleteMany {ids : List ContentId} (h : s.Holds x) (hx : x ∉ ids) :
    (s.deleteMany ids).1.Holds x := by
  obtain ⟨found, hfound⟩ := h
  exact ⟨found, by rw [get_deleteMany, if_neg hx, hfound]⟩

/-! ### Splits and merges -/

theorem get_routed (s : ContentStore) (c : Cursor) (r : Route) (x : ContentId) :
    (s.routed c r).items[x]? = s.items[x]?.filter fun item => item.route c = r :=
  Std.ExtTreeMap.getElem?_filter'

theorem routed_within (s : ContentStore) (c : Cursor) (r : Route) : (s.routed c r).Within s := by
  intro x found hfound
  rw [get_routed, Option.filter_eq_some_iff] at hfound
  exact hfound.1

/-- Every item goes its way. -/
theorem get_routed_self {c : Cursor} (h : s.items[x]? = some item) :
    (s.routed c (item.route c)).items[x]? = some item := by
  rw [get_routed, h, Option.filter_some, if_pos (decide_eq_true rfl)]

theorem route_of_routed {c : Cursor} {r : Route} (h : (s.routed c r).items[x]? = some item) :
    item.route c = r := by
  rw [get_routed, Option.filter_eq_some_iff] at h
  exact of_decide_eq_true h.2

/-- No item goes two ways. -/
theorem routed_unique {c : Cursor} {r r' : Route} (h : (s.routed c r).Holds x)
    (h' : (s.routed c r').Holds x) : r = r' := by
  obtain ⟨found, hfound⟩ := h
  obtain ⟨found', hfound'⟩ := h'
  rw [get_routed, Option.filter_eq_some_iff] at hfound hfound'
  rw [hfound.1, Option.some.injEq] at hfound'
  rw [← of_decide_eq_true hfound.2, ← of_decide_eq_true hfound'.2, hfound'.1]

/-- What is poured together was in one of the stores. -/
theorem get_absorb {l r : ContentStore} (h : (s.absorb [l, r]).1.items[x]? = some item) :
    s.items[x]? = some item ∨ l.items[x]? = some item ∨ r.items[x]? = some item := by
  unfold absorb at h
  simp only [List.foldl_cons, List.foldl_nil, Std.ExtTreeMap.getElem?_union,
    Option.or_eq_some_iff] at h
  rcases h with h | ⟨-, h | ⟨-, h⟩⟩
  · exact Or.inr (Or.inr h)
  · exact Or.inr (Or.inl h)
  · exact Or.inl h

/-- Nothing is lost where stores are poured together. -/
theorem holds_absorb {l r : ContentStore} (h : s.Holds x ∨ l.Holds x ∨ r.Holds x) :
    (s.absorb [l, r]).1.Holds x := by
  unfold absorb Holds
  simp only [List.foldl_cons, List.foldl_nil, Std.ExtTreeMap.getElem?_union]
  rcases h with ⟨found, h⟩ | ⟨found, h⟩ | ⟨found, h⟩
  · cases r.items[x]? <;> cases l.items[x]? <;> simp [h]
  · cases r.items[x]? <;> simp [h]
  · simp [h]

theorem Keyed.absorb {l r : ContentStore} (h : s.Keyed) (hl : l.Keyed) (hr : r.Keyed) :
    (s.absorb [l, r]).1.Keyed := by
  intro x found hfound
  rcases get_absorb hfound with hfound | hfound | hfound
  · exact h x found hfound
  · exact hl x found hfound
  · exact hr x found hfound

end ContentStore

end ShardLedger
