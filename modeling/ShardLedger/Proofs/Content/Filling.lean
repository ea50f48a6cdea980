import Mathlib.Data.Fintype.EquivFin
import ShardLedger.Proofs.Capped
import ShardLedger.Proofs.Content.Batch

/-!
# What a batch takes

A batch takes pending items in the order of their identities, and stops where it is full. Whether it
is full is asked before each item, so the last one may overshoot. Sums stop at the largest word, and
the limit is a word as well: once a sum is capped the batch is full.

- `exists_map`: a map stands for any lookup.
- `Filled`, `ContentStore.fill_filled`: what is taken from a list of references.
- `ContentStore.Remaining`, `ContentStore.exists_remaining`: what a batch chooses from.
- `ContentStore.batch_filled`: what is in a batch, whatever blocks are behind it.
-/

namespace ShardLedger

variable {used limit : Nat} {r : ContentRef} {p : List ContentRef}

/-! ### Lookups -/

/-- There are finitely many identities, so every lookup is that of some map. -/
theorem exists_map {α : Type} (lookup : BlockId → Option α) :
    ∃ m : BlockMap α, ∀ n : BlockId, m[n]? = lookup n := by
  have hsome : ∀ ids : List BlockId, ∃ m : BlockMap α, ∀ n ∈ ids, m[n]? = lookup n := by
    intro ids
    induction ids with
    | nil => exact ⟨∅, fun n hn => nomatch hn⟩
    | cons id rest ih =>
      obtain ⟨m, hm⟩ := ih
      cases hid : lookup id with
      | none =>
        refine ⟨m.erase id, fun n hn => ?_⟩
        rw [Lookup.get_erase]
        split
        · rename_i heq
          rw [← heq, hid]
        · rename_i hne
          exact hm n ((List.mem_cons.1 hn).resolve_left (Ne.symm hne))
      | some v =>
        refine ⟨m.insert id v, fun n hn => ?_⟩
        rw [Lookup.get_insert]
        split
        · rename_i heq
          rw [← heq, hid]
        · rename_i hne
          exact hm n ((List.mem_cons.1 hn).resolve_left (Ne.symm hne))
  have hfinite : Finite BlockId := by
    refine Finite.of_injective (β := Fin (2 ^ 256)) (fun n => n.digest.toFin) fun n n' h => ?_
    cases n
    cases n'
    exact congrArg BlockId.mk (BitVec.eq_of_toFin_eq h)
  obtain ⟨ids, -, hall⟩ := Finite.exists_univ_list BlockId
  obtain ⟨m, hm⟩ := hsome ids
  exact ⟨m, fun n => hm n (hall n)⟩

/-! ### Taking references -/

/-- The sizes of some references together. -/
def sizes (refs : List ContentRef) : Nat := total (refs.map (·.size.toNat))

@[simp] theorem sizes_nil : sizes [] = 0 := rfl

@[simp] theorem sizes_cons (r : ContentRef) (rest : List ContentRef) :
    sizes (r :: rest) = r.size.toNat + sizes rest := rfl

/-- There was room for each of the references when its turn came. -/
def HasRoom (limit used : Nat) (p : List ContentRef) : Prop :=
  ∀ before r after, p = before ++ r :: after → addCapped used (sizes before) < limit

theorem hasRoom_nil : HasRoom limit used [] := by
  intro before r after h
  cases before <;> cases h

theorem hasRoom_cons (hused : used ≤ maxWord) : HasRoom limit used (r :: p) ↔
    used < limit ∧ HasRoom limit (addCapped used r.size.toNat) p := by
  have hzero : addCapped used (sizes []) = used := Nat.min_eq_left hused
  constructor
  · intro h
    refine ⟨hzero ▸ h [] r p rfl, fun before y after heq => ?_⟩
    rw [addCapped_addCapped, ← sizes_cons]
    exact h (r :: before) y after (congrArg (r :: ·) heq)
  · rintro ⟨hlt, h⟩ before y after heq
    cases before with
    | nil => exact hzero.symm ▸ hlt
    | cons x before =>
      cases heq
      rw [sizes_cons, ← addCapped_addCapped]
      exact h before y after rfl

/-- The longest part of `rest` from the front on for which there is room. -/
structure Filled (limit used : Nat) (rest p : List ContentRef) : Prop where
  front : p <+: rest
  hasRoom : HasRoom limit used p
  longest : ∀ q, q <+: rest → HasRoom limit used q → q <+: p
  /-- All is taken, or the limit is reached. -/
  full : p = rest ∨ limit ≤ addCapped used (sizes p)

namespace ContentStore

theorem fill_filled : ∀ (rest : List ContentRef) {used : Nat}, used ≤ maxWord →
    Filled limit used rest (fill limit used rest)
  | [], _, _ =>
    { front := List.prefix_refl [], hasRoom := hasRoom_nil, longest := fun _ hq _ => hq
      full := .inl rfl }
  | r :: rest, used, hused => by
    unfold fill
    split
    · rename_i hlt
      have hlater := fill_filled rest (addCapped_le used r.size.toNat)
      refine { front := (List.prefix_cons_inj r).2 hlater.front
               hasRoom := (hasRoom_cons hused).2 ⟨hlt, hlater.hasRoom⟩
               longest := fun q hq hroom => ?_, full := ?_ }
      · cases q with
        | nil => exact List.nil_prefix
        | cons x q =>
          obtain ⟨rfl, htail⟩ := List.cons_prefix_cons.1 hq
          exact (List.prefix_cons_inj x).2 (hlater.longest q htail ((hasRoom_cons hused).1 hroom).2)
      · rw [sizes_cons, ← addCapped_addCapped]
        exact hlater.full.imp_left (congrArg (r :: ·))
    · rename_i hfull
      refine { front := List.nil_prefix, hasRoom := hasRoom_nil
               longest := fun q hq hroom => ?_, full := .inr ?_ }
      · cases q with
        | nil => exact List.prefix_refl []
        | cons x q => exact absurd ((hasRoom_cons hused).1 hroom).1 hfull
      · rw [sizes_nil]
        exact (Nat.not_lt.1 hfull).trans (Nat.min_eq_left hused).ge

/-! ### What there is to take -/

/-- The stored items in the order of their identities, without those that a block carries which is
reached backwards from the references. -/
structure Remaining (s : ContentStore) (lookup : BlockId → Option Block) (refs : List BlockId)
    (rest : List (ContentId × ContentItem)) : Prop where
  sorted : rest.Pairwise fun e f => compare e.1 f.1 = .lt
  mem_iff : ∀ (x : ContentId) (item : ContentItem), (x, item) ∈ rest ↔ s.items[x]? = some item ∧
    ∀ n b, Reaches (fun (b : Block) => b.previous) lookup refs n b → item.id ∉ b.contentIds
  keyed : s.Keyed → ∀ e ∈ rest, e.2.id = e.1

theorem exists_remaining (s : ContentStore) (blocks : BlockMap Block) (refs : List BlockId)
    (used maxSize reserve : Nat) : ∃ rest, s.Remaining (fun n => blocks[n]?) refs rest ∧
      s.batch blocks refs used maxSize reserve =
        fill (maxSize - reserve) used (rest.map (·.2.ref)) := by
  let free (e : ContentId × ContentItem) : Bool := !(consumedBy blocks refs).contains e.2.id
  have hmem : ∀ (x : ContentId) (item : ContentItem), (x, item) ∈ s.items.toList.filter free ↔
      s.items[x]? = some item ∧ ∀ n b,
        Reaches (fun (b : Block) => b.previous) (fun n => blocks[n]?) refs n b →
          item.id ∉ b.contentIds := by
    intro x item
    rw [List.mem_filter, Std.ExtTreeMap.mem_toList_iff_getElem?_eq_some, Bool.not_eq_true',
      ← Bool.not_eq_true, contains_consumedBy]
    refine and_congr_right fun _ => ⟨fun h n b hb hx => h ⟨n, b, mem_reach_iff.2 hb, hx⟩, ?_⟩
    rintro h ⟨n, b, hb, hx⟩
    exact h n b (mem_reach_iff.1 hb) hx
  refine ⟨s.items.toList.filter free, ⟨?_, hmem, fun hs e he => ?_⟩, ?_⟩
  · exact Std.ExtTreeMap.ordered_keys_toList.filter _
  · exact hs e.1 e.2 ((hmem e.1 e.2).1 he).1
  · unfold batch ContentStore.toList
    dsimp only
    rw [Lookup.values_eq, List.filter_map, List.map_map]
    rfl

/-- A batch takes all that is left of the store as far as there is room, in the order of the
identities, whatever the references lead to. -/
theorem batch_filled (s : ContentStore) (lookup : BlockId → Option Block) (refs : List BlockId)
    (used maxSize reserve : UInt64) :
    (∃ blocks : BlockMap Block, ∀ n : BlockId, blocks[n]? = lookup n) ∧
      ∀ blocks : BlockMap Block, (∀ n : BlockId, blocks[n]? = lookup n) →
        ∃ rest, s.Remaining lookup refs rest ∧
          Filled (maxSize.toNat - reserve.toNat) used.toNat (rest.map (·.2.ref))
            (s.batch blocks refs used.toNat maxSize.toNat reserve.toNat) ∧
          ∀ r ∈ s.batch blocks refs used.toNat maxSize.toNat reserve.toNat, ∀ n b,
            Reaches (fun (b : Block) => b.previous) lookup refs n b → r.id ∉ b.contentIds := by
  refine ⟨exists_map lookup, fun blocks hblocks => ?_⟩
  obtain ⟨rest, hrest, hbatch⟩ :=
    s.exists_remaining blocks refs used.toNat maxSize.toNat reserve.toNat
  rw [show (fun n : BlockId => blocks[n]?) = lookup from funext hblocks] at hrest
  rw [hbatch]
  have hfilled : Filled (maxSize.toNat - reserve.toNat) used.toNat (rest.map (·.2.ref)) _ :=
    fill_filled _ (Nat.le_pred_of_lt used.toNat_lt)
  refine ⟨rest, hrest, hfilled, fun r hr n b hb => ?_⟩
  obtain ⟨⟨x, item⟩, he, rfl⟩ := List.mem_map.1 (hfilled.front.subset hr)
  exact ((hrest.mem_iff x item).1 he).2 n b hb

/-- Two blocks that name each other. The second one carries item 1. -/
def sampleCycle : BlockMap Block :=
  let block (p n : BlockId) (content : List ContentRef) : Block :=
    { previous := [p], chain := .root, content, weight := 1, rank := ⟨1, 2⟩, proposer := ""
      id := n }
  ((∅ : BlockMap Block).insert ⟨1⟩ (block ⟨2⟩ ⟨1⟩ [])).insert ⟨2⟩ (block ⟨1⟩ ⟨2⟩ [⟨⟨1⟩, 4⟩])

/-- Items 1 to 4 with their sizes. -/
def sampleStore : ContentStore :=
  let sizes : List (ContentId × UInt64) := [(⟨4⟩, 1), (⟨2⟩, 4), (⟨1⟩, 4), (⟨3⟩, 9)]
  sizes.foldl (fun s (id, size) => (s.submit ⟨id, ⟨0⟩, ⟨0⟩, size⟩).1) empty

/-- Item 3 overshoots the limit of six, and item 4 is left out. -/
theorem sample_batch_filled : ∃ rest, sampleStore.Remaining (fun n => sampleCycle[n]?) [⟨1⟩] rest ∧
    Filled 6 1 (rest.map (·.2.ref)) [⟨⟨2⟩, 4⟩, ⟨⟨3⟩, 9⟩] := by
  have hbatch : sampleStore.batch sampleCycle [⟨1⟩] (1 : UInt64).toNat (8 : UInt64).toNat
      (2 : UInt64).toNat = [⟨⟨2⟩, 4⟩, ⟨⟨3⟩, 9⟩] := by decide +kernel
  obtain ⟨rest, hrest, hfilled, -⟩ :=
    (batch_filled sampleStore (fun n => sampleCycle[n]?) [⟨1⟩] 1 8 2).2 sampleCycle fun _ => rfl
  rw [hbatch] at hfilled
  exact ⟨rest, hrest, hfilled⟩

end ContentStore

end ShardLedger
