import ShardLedger.Proofs.Chain.Orderly
import ShardLedger.Proofs.Fork.Behind

/-!
# The buffer and the backlog

A chain records a waiting block twice: by its name, and on the list of the parent that it waits
for. Blocks come to wait and stop waiting in several ways, and each of them changes both records.

- `Chain.InStep`: what the two records say of each other and of the fork graph.
- `Chain.Tended`: the invariant behind it, and `Chain.Tended.inStep`.
- `Chain.Tended.buffer`, `Chain.Tended.release`, `Chain.Tended.discard`: blocks come and go.
- `Chain.Tended.enter`: a block enters the graph.
-/

namespace ShardLedger

namespace Chain

variable {seen seen' : List Block} {c d : Chain} {block x : Block} {parent id n : BlockId}
  {xs out : List Block}

/-- The named blocks are the listed ones, and neither they nor what they wait for is live. -/
structure InStep (c : Chain) : Prop where
  names : ∀ n : BlockId, (∃ b, c.buffered[n]? = some b) ↔ ∃ k b, c.backlog.Listed k b ∧ b.id = n
  /-- A waiting block stands once on the list of its only parent, and on no other list. -/
  once : ∀ (n : BlockId) (b : Block), c.buffered[n]? = some b →
    ∃ p waiters, b.previous = [p] ∧ c.backlog.waiting[p]? = some waiters ∧ b ∈ waiters ∧
      (waiters.map (·.id)).count n = 1 ∧ ∀ k w, c.backlog.Listed k w → w.id = n → k = p
  waiting_dead : ∀ (n : BlockId) (b : Block), c.buffered[n]? = some b → ¬c.graph.Live n
  missing_dead : ∀ k, c.backlog.isMissing k = true → ¬c.graph.Live k
  nonempty : ∀ k : BlockId, c.backlog.waiting[k]? ≠ some []

/-- An orderly chain that lists every waiting block, under a parent that is not live. -/
structure Tended (seen : List Block) (c : Chain) : Prop extends Orderly seen c where
  listed : ∀ (n : BlockId) (b : Block), c.buffered[n]? = some b → ∃ k, c.backlog.Listed k b
  lined : c.backlog.Lined
  missing : ∀ (k : BlockId) (waiters : List Block), c.backlog.waiting[k]? = some waiters →
    ¬c.graph.Live k

theorem Tended.inStep (h : c.Tended seen) : c.InStep where
  names n := by
    constructor
    · rintro ⟨b, hb⟩
      obtain ⟨k, hk⟩ := h.listed n b hb
      exact ⟨k, b, hk, h.buffered_id n b hb⟩
    · rintro ⟨k, b, hk, rfl⟩
      exact ⟨b, (h.held k b hk).1⟩
  once n b hb := by
    obtain ⟨p, hp⟩ := h.listed n b hb
    have hid := h.buffered_id n b hb
    obtain ⟨waiters, hw, hin⟩ : ∃ waiters, c.backlog.waiting[p]? = some waiters ∧ b ∈ waiters := by
      unfold Backlog.Listed at hp
      cases hw : c.backlog.waiting[p]? with
      | none => exact nomatch hw ▸ hp
      | some waiters => exact ⟨waiters, rfl, by rwa [hw] at hp⟩
    refine ⟨p, waiters, Block.previous_eq (h.held p b hp).2, hw, hin, ?_, fun k w hk hw => ?_⟩
    · rw [(h.lined p waiters hw).2.count, if_pos (List.mem_map.2 ⟨b, hin, hid⟩)]
    · -- whoever goes by the same name is the same block, and has one parent
      obtain ⟨hheld, hparent⟩ := h.held k w hk
      rw [hw, hb, Option.some.injEq] at hheld
      rw [← hheld, (h.held p b hp).2, Option.some.injEq] at hparent
      exact hparent.symm
  waiting_dead := h.apart
  missing_dead k hk := by
    obtain ⟨waiters, hw⟩ := Lookup.contains_iff.1 hk
    exact h.missing k waiters hw
  nonempty k hk := (h.lined k [] hk).1 rfl

/-! ### What the invariant looks at -/

theorem Tended.mono (h : c.Tended seen) (hsub : seen ⊆ seen') : c.Tended seen' :=
  { h with toOrderly := h.toOrderly.mono hsub }

theorem Tended.rest (h : c.Tended seen) (content : ContentStore) (undelivered : List Block)
    (retired permanent : Bool) :
    ({ c with content, undelivered, retired, permanent } : Chain).Tended seen :=
  { h with toOrderly := h.toOrderly.rest content undelivered retired permanent }

theorem Tended.of_bare (h : c.Tended seen) (heq : d.bare = c.bare) : d.Tended seen := by
  rw [eq_of_bare heq]
  exact h.rest d.content c.undelivered c.retired c.permanent

/-- A chain on which nothing waits. -/
theorem Orderly.tended (h : c.Orderly seen) (hbuffered : c.buffered = ∅)
    (hbacklog : c.backlog = .empty) : c.Tended seen where
  toOrderly := h
  listed _ _ hb := absurd (hbuffered ▸ hb) not_buffered_empty
  lined := hbacklog ▸ Backlog.lined_empty
  missing k waiters hw := by
    rw [hbacklog, show Backlog.empty.waiting[k]? = (none : Option (List Block)) from
      Std.ExtTreeMap.getElem?_empty] at hw
    cases hw

theorem Tended.retire (h : c.Tended seen) : c.retire.Tended seen := h.toOrderly.retire.tended rfl rfl

/-! ### Waiting blocks come and go -/

/-- A block of an unknown name is not on any list. -/
theorem Orderly.not_listed (h : c.Orderly seen) (hnew : c.knows block.id = false) :
    ∀ k b, c.backlog.Listed k b → b.id ≠ block.id := by
  intro k b hb heq
  obtain ⟨hheld, -⟩ := h.held k b hb
  rw [heq, (h.unknown hnew).2] at hheld
  cases hheld

/-- A block waits for a parent that is not live. -/
theorem Tended.buffer (h : c.Tended seen) (hb : Admitted seen c.id block)
    (hparent : block.parent? = some parent) (hnew : c.knows block.id = false)
    (hgone : c.blocks[parent]? = none) :
    ({ c with buffered := c.buffered.insert block.id block
              backlog := c.backlog.enlist block [parent] } : Chain).Tended seen where
  toOrderly := h.toOrderly.enlist hb hparent hnew
  listed n b hn := by
    have hlisted : ∀ k, (c.backlog.enlist block [parent]).Listed k b ↔ _ := fun k =>
      Backlog.listed_enlist_iff (h.not_listed hnew parent)
    rw [Lookup.get_insert] at hn
    split at hn
    · cases hn
      exact ⟨parent, (hlisted parent).2 (.inr ⟨rfl, rfl⟩)⟩
    · obtain ⟨k, hk⟩ := h.listed n b hn
      exact ⟨k, (hlisted k).2 (.inl hk)⟩
  lined := h.lined.enlist _ _
  missing k waiters hw hlive := by
    have hw : (c.backlog.enlistUnder block parent).waiting[k]? = some waiters := hw
    rw [Backlog.enlistUnder_eq (h.not_listed hnew parent), Lookup.get_insert] at hw
    split at hw
    · rename_i hk
      obtain ⟨a, ha⟩ := (h.blocks_live k).2 hlive
      rw [← hk, hgone] at ha
      cases ha
    · exact h.missing k waiters hw hlive

/-- Whatever is behind some blocks is taken off the lists and forgotten, together with the blocks
themselves. -/
theorem Tended.forget (h : c.Tended seen) {q q' : Backlog} {stack ids : List BlockId}
    (horderly : (({ c with backlog := q' } : Chain).forget ids).Orderly seen)
    (hlined : q.Lined) (hkeys : ∀ k : BlockId, c.backlog.waiting[k]? = none → q.waiting[k]? = none)
    (hs : Backlog.Swept q stack q' out)
    (hstays : ∀ k b, c.backlog.Listed k b → b.id ∉ ids → q.Listed k b ∧ b.id ∉ out.map (·.id)) :
    (({ c with backlog := q' } : Chain).forget ids).Tended seen where
  toOrderly := horderly
  listed n b hn := by
    have hn : (ids.foldl (fun m id => m.erase id) c.buffered)[n]? = some b := hn
    rw [Lookup.get_eraseAll] at hn
    split at hn
    · cases hn
    · rename_i hnot
      obtain ⟨k, hk⟩ := h.listed n b hn
      obtain ⟨hq, hout⟩ := hstays k b hk (h.buffered_id n b hn ▸ hnot)
      exact ⟨k, hs.stays hq hout⟩
  lined := hlined.swept hs
  missing k waiters hw := by
    have hw : q'.waiting[k]? = some waiters := hw
    cases hold : c.backlog.waiting[k]? with
    | none =>
      rcases hs.kept k with hnone | hsame
      · rw [hnone] at hw
        cases hw
      · rw [hsame, hkeys k hold] at hw
        cases hw
    | some before => exact h.missing k before hold

/-- Released blocks wait no more, and nothing waits for them. -/
theorem Tended.release (h : c.Tended seen) (hb : Admitted seen c.id block)
    (hnew : c.knows block.id = false) :
    (({ c with backlog := (c.backlog.release block).1 } : Chain).forget
      ((c.backlog.release block).2.map (·.id))).Tended seen ∧
      ∀ y ∈ (c.backlog.release block).2, (c.backlog.release block).1.waiting[y.id]? = none := by
  obtain ⟨free, hfree, hs⟩ := Backlog.release_swept h.held (h.not_listed hnew)
  refine ⟨h.forget (h.toOrderly.release hb hnew).1 h.lined (fun _ hk => hk) hs
    fun k b hk hids => ?_, fun y hy => ?_⟩
  · rw [hfree, List.map_cons, List.mem_cons, not_or] at hids
    exact ⟨hk, hids.2⟩
  · rw [hfree] at hy
    rcases List.mem_cons.1 hy with rfl | hy
    · exact hs.gone _ (.inl (List.mem_singleton_self _))
    · exact hs.gone _ (.inr (List.mem_map_of_mem hy))

/-- What a release forgets is the block and all that was behind it. -/
theorem Orderly.mem_released (h : c.Orderly seen) (hnew : c.knows block.id = false) :
    n ∈ (c.backlog.release block).2.map (·.id) ↔
      n = block.id ∨ ∃ x, c.backlog.Behind block.id x ∧ x.id = n := by
  obtain ⟨free, hfree, hs⟩ := Backlog.release_swept h.held (h.not_listed hnew)
  rw [hfree, List.map_cons, List.mem_cons, hs.mem_singleton_iff]

/-- What is behind a block is known by its name. -/
theorem Orderly.behind_buffered (h : c.Orderly seen) (hx : c.backlog.Behind id x) :
    c.buffered[x.id]? = some x := by
  obtain ⟨k, hk⟩ := hx.listed
  exact (h.held k x hk).1

/-- The name tells the block. -/
theorem Orderly.behind_named (h : c.Orderly seen) {y : Block} (hy : c.buffered[n]? = some y) :
    (∃ x, c.backlog.Behind id x ∧ x.id = n) ↔ c.backlog.Behind id y := by
  refine ⟨?_, fun hbehind => ⟨y, hbehind, h.buffered_id n y hy⟩⟩
  rintro ⟨x, hx, rfl⟩
  rw [h.behind_buffered hx, Option.some.injEq] at hy
  exact hy ▸ hx

/-- Names are forgotten, of the waiting blocks exactly those behind `id`. -/
theorem Orderly.forget_behind (h : c.Orderly seen) {ids : List BlockId}
    (hids : ∀ n : BlockId, (∃ y, c.buffered[n]? = some y) →
      (n ∈ ids ↔ ∃ x, c.backlog.Behind id x ∧ x.id = n)) (n : BlockId) (y : Block) :
    (ids.foldl (fun m id => m.erase id) c.buffered)[n]? = some y ↔
      c.buffered[n]? = some y ∧ ¬c.backlog.Behind id y := by
  rw [Lookup.get_eraseAll]
  split
  · rename_i hn
    refine ⟨fun hy => (nomatch hy), fun ⟨hy, hnot⟩ => ?_⟩
    exact absurd ((h.behind_named hy).1 ((hids n ⟨y, hy⟩).1 hn)) hnot
  · rename_i hn
    refine ⟨fun hy => ⟨hy, fun hbehind => ?_⟩, And.left⟩
    exact hn ((hids n ⟨y, hy⟩).2 ((h.behind_named hy).2 hbehind))

/-- What is behind a block that is given up goes with it. -/
theorem Tended.discard (h : c.Tended seen) {ids : List BlockId}
    (horderly : (({ c with backlog := (c.backlog.discard block).1 } : Chain).forget ids).Orderly seen)
    (hstruck : ∀ k b, (c.backlog.strike block.id block.previous).Listed k b → b.id ≠ block.id)
    (hids : ∀ k b, c.backlog.Listed k b → b.id ∉ ids →
      b.id ≠ block.id ∧ b.id ∉ (c.backlog.discard block).2.map (·.id)) :
    (({ c with backlog := (c.backlog.discard block).1 } : Chain).forget ids).Tended seen := by
  refine h.forget horderly (h.lined.strike block.id block.previous) (fun k hk => ?_)
    (Backlog.discard_swept h.held hstruck) fun k b hk hnot => ?_
  · -- striking a block gives no list to what had none
    cases hstrike : (c.backlog.strike block.id block.previous).waiting[k]? with
    | none => rfl
    | some waiters =>
      obtain ⟨b, hb⟩ := List.exists_mem_of_ne_nil _
        ((h.lined.strike block.id block.previous) k waiters hstrike).1
      have hlisted : (c.backlog.strike block.id block.previous).Listed k b := by
        unfold Backlog.Listed
        rwa [hstrike]
      exact absurd ((Backlog.listed_strike block.previous).1 hlisted).1
        (Backlog.not_listed_of_none hk)
  · obtain ⟨hne, hout⟩ := hids k b hk hnot
    exact ⟨(Backlog.listed_strike block.previous).2 ⟨hk, fun _ => hne⟩, hout⟩

theorem Tended.discardPending (h : c.Tended seen) (id : BlockId) :
    (c.discardPending id).1.Tended seen := by
  have horderly := h.toOrderly.discardPending id
  unfold Chain.discardPending at horderly ⊢
  split at horderly
  · exact h
  · rename_i block hblock
    have hid := h.buffered_id id block hblock
    refine h.discard horderly (fun k b hb heq => ?_) fun k b hk hnot => ?_
    · -- whatever goes by the name of the block is the block, which was struck from its only list
      obtain ⟨hlisted, hstruck⟩ := (Backlog.listed_strike block.previous).1 hb
      obtain ⟨hheld, hparent⟩ := h.held k b hlisted
      rw [heq, hid, hblock, Option.some.injEq] at hheld
      exact hstruck (Block.previous_of_parent (hheld ▸ hparent)) heq
    · rw [List.mem_cons, List.mem_cons, not_or, not_or] at hnot
      exact hnot.2

/-! ### Entering -/

/-- A block for which nothing waits enters the graph. -/
theorem Tended.enter (h : c.Tended seen) (hready : c.Ready seen (x :: xs))
    (hnone : c.backlog.waiting[x.id]? = none) {a : Applied} (ha : c.apply x = some a)
    (config : Config) : (a.outcome.1.enqueueAll config a.outcome.2).Tended seen := by
  have horderly := (h.toOrderly.enter hready ha config).1
  obtain ⟨top, htop, -⟩ := h.anchored
  have he := apply_entered h.toSound (hready.admitted x (List.mem_cons_self ..)) htop ha
  obtain ⟨parent, -, node, graph, -, -, -, -, hadd, happlied⟩ := apply_eq_some ha
  have hgrown := ForkGraph.add_grown h.isTree hadd
  obtain rfl : a.chain.graph = graph := by rw [happlied]
  obtain ⟨undelivered, nextRank, permanent, heq⟩ := he.enqueueAll_eq config
  rw [heq] at horderly ⊢
  refine { toOrderly := horderly, listed := h.listed, lined := h.lined
           missing := fun k waiters hw hlive => ?_ }
  rcases (hgrown.live k hlive).2 with rfl | hold
  · rw [show c.backlog.waiting[x.id]? = some waiters from hw] at hnone
    cases hnone
  · exact h.missing k waiters hw hold

end Chain

end ShardLedger
