import ShardLedger.Proofs.Lookup

/-!
# What a walk through a map meets

A walk takes every entry that it meets out of the map and goes on to all that the entry names. So it
misses nothing that can be reached, on any map, and it meets nothing else.

- `reach_start`, `reach_closed`: a walk covers all that can be reached.
- `Reaches`, `mem_reach_iff`: exactly what a walk meets.
-/

namespace ShardLedger

variable {α : Type} {next : α → List BlockId} {entries : BlockMap α} {ids : List BlockId}
  {n m : BlockId} {e e' : α}

/-- An entry that is asked for is found. -/
theorem mem_pull (hn : n ∈ ids) (he : entries[n]? = some e) :
    (n, e) ∈ (pull entries ids).1 := by
  induction ids generalizing entries with
  | nil => cases hn
  | cons id rest ih =>
    unfold pull
    cases hid : entries[id]? with
    | none =>
      have hne : n ≠ id := by
        rintro rfl
        rw [he] at hid
        cases hid
      exact ih ((List.mem_cons.1 hn).resolve_left hne) he
    | some found =>
      by_cases hne : n = id
      · subst hne
        rw [he, Option.some.injEq] at hid
        exact hid ▸ List.mem_cons_self ..
      · refine List.mem_cons_of_mem _ (ih ((List.mem_cons.1 hn).resolve_left hne) ?_)
        rw [Lookup.get_erase, if_neg (Ne.symm hne)]
        exact he

/-- An entry is found, or is left. -/
theorem pull_or_left (ids : List BlockId) (he : entries[n]? = some e) :
    (n, e) ∈ (pull entries ids).1 ∨ (pull entries ids).2[n]? = some e := by
  -- every identity takes its own entry out and leaves the others
  induction ids generalizing entries with
  | nil => exact Or.inr he
  | cons id rest ih =>
    unfold pull
    cases hid : entries[id]? with
    | none => exact ih he
    | some found =>
      by_cases hne : n = id
      · subst hne
        rw [he, Option.some.injEq] at hid
        exact Or.inl (hid ▸ List.mem_cons_self ..)
      · refine (ih ?_).imp_left (List.mem_cons_of_mem _)
        rw [Lookup.get_erase, if_neg (Ne.symm hne)]
        exact he

/-- A walk finds what it starts from, and then what those entries name. -/
theorem reach_eq (next : α → List BlockId) (entries : BlockMap α) (ids : List BlockId) :
    reach next entries ids = (pull entries ids).1 ++
      reach next (pull entries ids).2 ((pull entries ids).1.flatMap fun e => next e.2) := by
  rw [reach]
  split
  · rename_i left h
    rw [h, reach]
    rfl
  · rename_i entry found left h
    rw [h]

theorem reach_start (hn : n ∈ ids) (he : entries[n]? = some e) :
    (n, e) ∈ reach next entries ids := by
  rw [reach_eq]
  exact List.mem_append_left _ (mem_pull hn he)

/-- Where a walk goes on, it has taken something out of the map. -/
theorem size_pull_lt (h : (n, e) ∈ reach next (pull entries ids).2
    ((pull entries ids).1.flatMap fun e => next e.2)) :
    (pull entries ids).2.size < entries.size := by
  have hsize := size_pull entries ids
  have hpos : 0 < (pull entries ids).1.length := by
    refine List.length_pos_iff.2 fun hnil => ?_
    rw [hnil, List.flatMap_nil, reach] at h
    exact List.not_mem_nil h
  omega

/-- A walk goes on to all that an entry names. -/
theorem reach_closed {α : Type} {next : α → List BlockId} {n m : BlockId} {e e' : α}
    {entries : BlockMap α} {ids : List BlockId} (h : (n, e) ∈ reach next entries ids)
    (hm : m ∈ next e) (he' : entries[m]? = some e') : (m, e') ∈ reach next entries ids := by
  rw [reach_eq] at h ⊢
  rcases pull_or_left ids he' with hpull | hleft
  · exact List.mem_append_left _ hpull
  · refine List.mem_append_right _ ?_
    -- the entry that is named was left over, so it is met later on
    rcases List.mem_append.1 h with hfound | hrest
    · exact reach_start (List.mem_flatMap.2 ⟨(n, e), hfound, hm⟩) hleft
    · have hsize := size_pull_lt hrest
      exact reach_closed hrest hm hleft
termination_by entries.size
decreasing_by exact hsize

/-- What is found was asked for, and was there. -/
theorem of_mem_pull (h : (n, e) ∈ (pull entries ids).1) : n ∈ ids ∧ entries[n]? = some e := by
  induction ids generalizing entries with
  | nil => cases h
  | cons id rest ih =>
    unfold pull at h
    cases hid : entries[id]? with
    | none =>
      rw [hid] at h
      obtain ⟨hn, he⟩ := ih h
      exact ⟨List.mem_cons_of_mem _ hn, he⟩
    | some found =>
      rw [hid] at h
      rcases List.mem_cons.1 h with heq | h
      · cases heq
        exact ⟨List.mem_cons_self .., hid⟩
      · obtain ⟨hn, he⟩ := ih h
        rw [Lookup.get_erase] at he
        split at he
        · cases he
        · exact ⟨List.mem_cons_of_mem _ hn, he⟩

/-- What is left was there. -/
theorem of_pull_left (h : (pull entries ids).2[n]? = some e) : entries[n]? = some e := by
  induction ids generalizing entries with
  | nil => exact h
  | cons id rest ih =>
    unfold pull at h
    cases hid : entries[id]? with
    | none =>
      rw [hid] at h
      exact ih h
    | some found =>
      rw [hid] at h
      have he := ih h
      rw [Lookup.get_erase] at he
      split at he
      · cases he
      · exact he

/-- Entry `e` of key `n` is named by one of the given keys, or by an entry that is reached from
them. -/
inductive Reaches (next : α → List BlockId) (lookup : BlockId → Option α) (ids : List BlockId) :
    BlockId → α → Prop where
  | start {n : BlockId} {e : α} (hn : n ∈ ids) (he : lookup n = some e) :
      Reaches next lookup ids n e
  | on {n m : BlockId} {e e' : α} (h : Reaches next lookup ids n e) (hm : m ∈ next e)
      (he' : lookup m = some e') :
      Reaches next lookup ids m e'

/-- A walk through what is left of the entries meets only what can be reached. -/
theorem reaches_of_mem_reach {α : Type} {next : α → List BlockId} {lookup : BlockId → Option α}
    {start : List BlockId} {n : BlockId} {e : α} {entries : BlockMap α} {ids : List BlockId}
    (hsub : ∀ (k : BlockId) (v : α), entries[k]? = some v → lookup k = some v)
    (hids : ∀ k ∈ ids, ∀ v, lookup k = some v → Reaches next lookup start k v)
    (h : (n, e) ∈ reach next entries ids) : Reaches next lookup start n e := by
  rw [reach_eq] at h
  rcases List.mem_append.1 h with hfound | hrest
  · obtain ⟨hn, he⟩ := of_mem_pull hfound
    exact hids n hn e (hsub n e he)
  · have hsize := size_pull_lt hrest
    refine reaches_of_mem_reach (fun k v hv => hsub k v (of_pull_left hv))
      (fun k hk v hv => ?_) hrest
    obtain ⟨⟨m, w⟩, hm, hk⟩ := List.mem_flatMap.1 hk
    obtain ⟨hin, hw⟩ := of_mem_pull hm
    exact (hids m hin w (hsub m w hw)).on hk hv
termination_by entries.size
decreasing_by exact hsize

theorem mem_reach_iff :
    (n, e) ∈ reach next entries ids ↔ Reaches next (fun k => entries[k]?) ids n e := by
  refine ⟨reaches_of_mem_reach (fun _ _ hv => hv) fun _ hk _ hv => .start hk hv, fun h => ?_⟩
  induction h with
  | start hn he => exact reach_start hn he
  | on _ hm he' ih => exact reach_closed ih hm he'

end ShardLedger
