import Mathlib.Data.List.Nodup
import ShardLedger.Ledger.Pass
import ShardLedger.Proofs.Order.Board
import ShardLedger.Proofs.Tree.Entering

/-!
# Arranged ledgers

The invariant that ties the parts of a ledger together: the live chains stand where their numbers
say and are running, the merged ones are retired and no longer live, and the order of registration
lists each of them once.

- `Ledger.order`, `Ledger.chain?`, `Ledger.lanes`: the lanes of a ledger.
- `Ledger.Arranged`: the invariant.
- `Ledger.Grows`: a change to one live chain, which may give birth to others.
- `Ledger.Arranged.grow`, `Ledger.Grows.lanes`: such a change keeps the invariant, and what it
  does to the lanes.
-/

namespace ShardLedger

/-- A chain as a lane of the board. -/
def Lane.of (c : Chain) : Lane :=
  { chain := c.id
    anchor? := if c.retired then none else c.blocks[c.graph.anchor]?
    queue := c.undelivered }

theorem Lane.of_bare (c : Chain) : Lane.of c.bare = Lane.of c := rfl

theorem Lane.of_running {seen : List Block} {c : Chain} {top : Block} (h : c.Running seen top) :
    Lane.of c = ⟨c.id, some top, c.undelivered⟩ := by
  unfold Lane.of
  rw [h.live, h.anchor]
  rfl

namespace Ledger

/-- The chains that are registered or yet to be, oldest first. -/
def order (l : Ledger) : List ChainId := l.registered ++ l.roster.spawned

/-- A chain of the ledger, live or retired. -/
def chain? (l : Ledger) (id : ChainId) : Option Chain := (l.branch? id).map Branch.chain

/-- The lanes of the ledger, in the order of registration. -/
def lanes (l : Ledger) : List Lane := l.order.filterMap fun id => (l.chain? id).map Lane.of

/-- What holds of a ledger at any time. -/
structure Arranged (seen : List Block) (l : Ledger) : Prop where
  numbered : l.root.Numbered 1
  running : ∀ p c, l.root.chainAt p = some c → ∃ top, c.Running seen top
  halted : ∀ c ∈ l.retired, c.retired = true ∧ 0 < c.id.number ∧
    l.root.chainAt c.id.path = none
  retired_nodup : (l.retired.map (·.id)).Nodup
  order_nodup : l.order.Nodup
  mem_order : ∀ id ∈ l.order, 0 < id.number ∧ ∃ c, l.chain? id = some c
  live_mem : ∀ p c, l.root.chainAt p = some c → c.id ∈ l.order
  retired_mem : ∀ c ∈ l.retired, c.id ∈ l.order
  occupied : ∀ id ∈ l.order, id ∈ l.roster.occupied
  leaving : l.leaving = l.retired.map (·.id)
  root_registered : .root ∈ l.registered

variable {seen : List Block} {l l' : Ledger} {id : ChainId} {c d : Chain} {born : List Chain}

theorem chain?_eq (l : Ledger) (id : ChainId) :
    l.chain? id = match l.root.chainAt id.path with
      | some c => some c
      | none => l.retired.find? (·.id = id) := by
  unfold chain? branch? live? Branch.chainAt
  cases l.root.at? id.path with
  | some b => rfl
  | none =>
    dsimp only [Option.map_none]
    cases l.retired.find? (·.id = id) with
    | none => rfl
    | some c => rfl

theorem chain?_live (h : l.root.chainAt id.path = some c) : l.chain? id = some c := by
  rw [chain?_eq, h]

/-- A chain that is found has the number that was asked for. -/
theorem Arranged.chain?_id (h : l.Arranged seen) (hid : 0 < id.number)
    (hc : l.chain? id = some c) : c.id = id := by
  rw [chain?_eq] at hc
  split at hc
  · rename_i d hd
    rw [Option.some.injEq] at hc
    subst hc
    exact ChainId.path_injective (h.numbered.pos Nat.one_pos hd) hid (h.numbered.path_eq hd)
  · simpa using List.find?_some hc

theorem Arranged.branch?_id {b : Branch} (h : l.Arranged seen) (hid : id ∈ l.order)
    (hb : l.branch? id = some b) : b.chain.id = id := by
  refine h.chain?_id (h.mem_order id hid).1 ?_
  unfold chain?
  rw [hb]
  rfl

/-- The chains that are found are the live ones and the retired ones. -/
theorem Arranged.chain?_iff (h : l.Arranged seen) (hid : 0 < id.number) :
    l.chain? id = some c ↔
      l.root.chainAt id.path = some c ∨ (c ∈ l.retired ∧ c.id = id) := by
  rw [chain?_eq]
  split
  · rename_i d hd
    constructor
    · rintro hc
      exact Or.inl (hd.trans hc)
    · rintro (hc | ⟨hc, rfl⟩)
      · rw [← hc, hd]
      · rw [(h.halted c hc).2.2] at hd
        cases hd
  · rename_i hnone
    rw [hnone]
    constructor
    · intro hc
      exact Or.inr ⟨List.mem_of_find?_eq_some hc, by simpa using List.find?_some hc⟩
    · rintro (hc | ⟨hc, rfl⟩)
      · cases hc
      · obtain ⟨d, hd⟩ : ∃ d, l.retired.find? (·.id = c.id) = some d :=
          Option.isSome_iff_exists.1 (List.find?_isSome.2 ⟨c, hc, decide_eq_true rfl⟩)
        have hid : d.id = c.id := by simpa using List.find?_some hd
        rw [hd, List.inj_on_of_nodup_map h.retired_nodup (List.mem_of_find?_eq_some hd) hc hid]

/-- No retired chain has the number of a live one. -/
theorem Arranged.not_retired (h : l.Arranged seen) (hc : l.root.chainAt id.path = some c) :
    ∀ e ∈ l.retired, e.id ≠ id := by
  rintro e he rfl
  rw [(h.halted e he).2.2] at hc
  cases hc

theorem Arranged.order_ne (h : l.Arranged seen) {a b : ChainId} (ha : a ∈ l.order)
    (hb : 0 < b.number) (hne : a ≠ b) : a.path ≠ b.path := fun hp =>
  hne (ChainId.path_injective (h.mem_order a ha).1 hb hp)

/-! ### Changes to one live chain -/

/-- The live chain `id` becomes `d`, content apart, and the chains `born` are split off. -/
structure Grows (l l' : Ledger) (id : ChainId) (d : Chain) (born : List Chain) : Prop where
  retired : l'.retired = l.retired
  registered : l'.registered = l.registered
  leaving : l'.leaving = l.leaving
  linearizer : l'.linearizer = l.linearizer
  spawned : l'.roster.spawned = l.roster.spawned ++ born.map (·.id)
  occupied : l'.roster.occupied = l.roster.occupied ++ born.map (·.id)
  top : l'.root.bareAt id.path = some d.bare
  newborn : ∀ x ∈ born, l'.root.bareAt x.id.path = some x.bare
  rest : ∀ p, p ≠ id.path → (∀ x ∈ born, p ≠ x.id.path) → l'.root.bareAt p = l.root.bareAt p

/-- What the chains that are split off have to be. -/
structure Newborn (seen : List Block) (l : Ledger) (born : List Chain) : Prop where
  running : ∀ x ∈ born, ∃ top, x.Running seen top
  pos : ∀ x ∈ born, 0 < x.id.number
  nodup : (born.map (·.id)).Nodup
  fresh : ∀ x ∈ born, x.id ∉ l.roster.occupied

theorem newborn_nil (seen : List Block) (l : Ledger) : Newborn seen l [] where
  running _ h := nomatch h
  pos _ h := nomatch h
  nodup := List.nodup_nil
  fresh _ h := nomatch h

theorem Grows.order (hg : Grows l l' id d born) : l'.order = l.order ++ born.map (·.id) := by
  unfold Ledger.order
  rw [hg.registered, hg.spawned, List.append_assoc]

theorem Newborn.not_mem_order (h : l.Arranged seen)
    (hb : Newborn seen l born) {x : Chain} (hx : x ∈ born) : x.id ∉ l.order :=
  fun hmem => hb.fresh x hx (h.occupied _ hmem)

/-- A chain of the order is none of the new ones. -/
theorem Newborn.path_ne (h : l.Arranged seen) (hb : Newborn seen l born)
    (hid : id ∈ l.order) : ∀ x ∈ born, id.path ≠ x.id.path := fun x hx =>
  h.order_ne hid (hb.pos x hx) fun heq => hb.not_mem_order h hx (heq ▸ hid)

/-- What a lookup finds after a change to one live chain. -/
theorem Grows.chain?_same (h : l.Arranged seen) (hg : Grows l l' id d born)
    (hb : Newborn seen l born) (hid : 0 < id.number) {a : ChainId} (ha : a ∈ l.order)
    (hne : a ≠ id) : (l'.chain? a).map Chain.bare = (l.chain? a).map Chain.bare := by
  have hbare : l'.root.bareAt a.path = l.root.bareAt a.path :=
    hg.rest _ (h.order_ne ha hid hne) (hb.path_ne h ha)
  rw [chain?_eq, chain?_eq, hg.retired]
  -- a chain that was not live is still looked up among the retired ones
  cases hl : l.root.chainAt a.path with
  | none =>
    rw [Branch.bareAt_eq_none.2 hl, Branch.bareAt_eq_none] at hbare
    rw [hbare]
  | some c =>
    rw [Branch.bareAt_eq_some.2 ⟨c, hl, rfl⟩, Branch.bareAt_eq_some] at hbare
    obtain ⟨c', hc', heq⟩ := hbare
    rw [hc']
    exact congrArg some heq

/-- Every live chain is the changed one, a new one, or as it was. -/
theorem Grows.live_cases (hg : Grows l l' id d born) {p : List Side} {e : Chain}
    (he : l'.root.chainAt p = some e) :
    (p = id.path ∧ e.bare = d.bare) ∨ (∃ x ∈ born, p = x.id.path ∧ e.bare = x.bare) ∨
      ∃ e₀, l.root.chainAt p = some e₀ ∧ e.bare = e₀.bare := by
  have hbare := Branch.bareAt_eq_some.2 ⟨e, he, rfl⟩
  by_cases hp : p = id.path
  · rw [hp, hg.top, Option.some.injEq] at hbare
    exact Or.inl ⟨hp, hbare.symm⟩
  · by_cases hx : ∃ x ∈ born, p = x.id.path
    · obtain ⟨x, hx, rfl⟩ := hx
      rw [hg.newborn x hx, Option.some.injEq] at hbare
      exact Or.inr (Or.inl ⟨x, hx, rfl, hbare.symm⟩)
    · rw [hg.rest p hp fun x hmem heq => hx ⟨x, hmem, heq⟩] at hbare
      obtain ⟨e₀, he₀, heq⟩ := Branch.bareAt_eq_some.1 hbare
      exact Or.inr (Or.inr ⟨e₀, he₀, heq.symm⟩)

/-- Where a retired chain stood, there is still no live one. -/
theorem Grows.not_live (h : l.Arranged seen) (hg : Grows l l' id d born)
    (hb : Newborn seen l born) (hc : l.root.chainAt id.path = some c) {e : Chain}
    (he : e ∈ l.retired) : l'.root.chainAt e.id.path = none := by
  have hnone := (h.halted e he).2.2
  -- the place of the changed chain is taken
  have hne : e.id.path ≠ id.path := fun hp => by
    rw [hp, hc] at hnone
    cases hnone
  rw [← Branch.bareAt_eq_none] at hnone ⊢
  rwa [hg.rest _ hne (hb.path_ne h (h.retired_mem e he))]

/-- The chains of the order are found, the new ones among them. -/
theorem Grows.exists_chain (h : l.Arranged seen) (hg : Grows l l' id d born)
    (hb : Newborn seen l born) (hid : 0 < id.number) {a : ChainId} (ha : a ∈ l'.order) :
    0 < a.number ∧ ∃ e, l'.chain? a = some e := by
  rw [hg.order] at ha
  rcases List.mem_append.1 ha with ha | ha
  · obtain ⟨hpos, e, he⟩ := h.mem_order a ha
    refine ⟨hpos, ?_⟩
    by_cases hne : a = id
    · subst hne
      obtain ⟨e', he', -⟩ := Branch.bareAt_eq_some.1 hg.top
      exact ⟨e', chain?_live he'⟩
    · have hsame := hg.chain?_same h hb hid ha hne
      rw [he] at hsame
      obtain ⟨e', he', -⟩ := Option.map_eq_some_iff.1 hsame
      exact ⟨e', he'⟩
  · obtain ⟨x, hx, rfl⟩ := List.mem_map.1 ha
    obtain ⟨e', he', -⟩ := Branch.bareAt_eq_some.1 (hg.newborn x hx)
    exact ⟨hb.pos x hx, e', chain?_live he'⟩

/-- A change to a running chain that leaves it running keeps a ledger arranged. -/
theorem Arranged.grow {top : Block} (h : l.Arranged seen)
    (hg : Grows l l' id d born) (hb : Newborn seen l born) (hid : id ∈ l.order)
    (hc : l.root.chainAt id.path = some c) (hd : d.Running seen top) (hdid : d.id = id) :
    l'.Arranged seen := by
  have hpos := (h.mem_order id hid).1
  refine
    { numbered := fun p e he => ?_, running := fun p e he => ?_, halted := fun e he => ?_
      retired_nodup := hg.retired ▸ h.retired_nodup, order_nodup := ?_
      mem_order := fun a ha => hg.exists_chain h hb hpos ha, live_mem := fun p e he => ?_
      retired_mem := fun e he => ?_, occupied := fun a ha => ?_
      leaving := by rw [hg.leaving, hg.retired]; exact h.leaving
      root_registered := hg.registered ▸ h.root_registered }
  · -- the numbers: a chain that is as it was apart from its content keeps its number
    rcases hg.live_cases he with ⟨rfl, heq⟩ | ⟨x, hx, rfl, heq⟩ | ⟨e₀, he₀, heq⟩
    · rw [Chain.id_of_bare heq, hdid]
      exact ChainId.number_eq hpos
    · rw [Chain.id_of_bare heq]
      exact ChainId.number_eq (hb.pos x hx)
    · rw [Chain.id_of_bare heq]
      exact h.numbered p e₀ he₀
  · rcases hg.live_cases he with ⟨rfl, heq⟩ | ⟨x, hx, rfl, heq⟩ | ⟨e₀, he₀, heq⟩
    · exact ⟨top, hd.of_bare heq⟩
    · obtain ⟨t, ht⟩ := hb.running x hx
      exact ⟨t, ht.of_bare heq⟩
    · obtain ⟨t, ht⟩ := h.running p e₀ he₀
      exact ⟨t, ht.of_bare heq⟩
  · rw [hg.retired] at he
    obtain ⟨hret, hepos, -⟩ := h.halted e he
    exact ⟨hret, hepos, hg.not_live h hb hc he⟩
  · rw [hg.order]
    refine List.nodup_append.2 ⟨h.order_nodup, hb.nodup, ?_⟩
    rintro a ha a' ha' rfl
    obtain ⟨x, hx, rfl⟩ := List.mem_map.1 ha'
    exact hb.not_mem_order h hx ha
  · rw [hg.order]
    rcases hg.live_cases he with ⟨rfl, heq⟩ | ⟨x, hx, rfl, heq⟩ | ⟨e₀, he₀, heq⟩
    · rw [Chain.id_of_bare heq, hdid]
      exact List.mem_append_left _ hid
    · rw [Chain.id_of_bare heq]
      exact List.mem_append_right _ (List.mem_map_of_mem hx)
    · rw [Chain.id_of_bare heq]
      exact List.mem_append_left _ (h.live_mem p e₀ he₀)
  · rw [hg.retired] at he
    rw [hg.order]
    exact List.mem_append_left _ (h.retired_mem e he)
  · rw [hg.order] at ha
    rw [hg.occupied]
    rcases List.mem_append.1 ha with ha | ha
    · exact List.mem_append_left _ (h.occupied a ha)
    · exact List.mem_append_right _ ha

end Ledger

end ShardLedger
