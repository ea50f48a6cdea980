import ShardLedger.Proofs.Fork.Weights
import ShardLedger.Proofs.Tree.Settling

/-!
# Orderly chains

A chain keeps the blocks of its fork graph in a map of their own, those that wait in another one,
and of the finalized ones the rank that comes next. Nothing compares these records, but none of
them ever drifts away from the graph.

- `Chain.Agrees`: what the records say of each other.
- `Chain.Orderly`: the invariant behind it, and `Chain.Orderly.agrees`.
- `Chain.Ready`: released blocks, which the graph takes in their order.
- `Chain.Orderly.receive`, `Chain.Orderly.enter`: a block is received, and one enters.
-/

namespace ShardLedger

namespace Chain

variable {seen seen' : List Block} {c d : Chain} {block : Block} {parent : BlockId}
  {xs : List Block}

/-- The live blocks, the fork graph and the rank that comes next agree. -/
structure Agrees (c : Chain) : Prop where
  /-- The blocks are those of the live nodes. -/
  live : ∀ n : BlockId, (∃ b, c.blocks[n]? = some b) ↔ ∃ node, c.graph.nodes[n]? = some node
  named : ∀ (n : BlockId) (b : Block), c.blocks[n]? = some b → b.id = n
  /-- Every node but the anchor follows the parent that its block names, adds the weight of the
  block to that of the parent, and is ranked as the parent asks. -/
  below : ∀ (n : BlockId) (node : ForkNode) (b : Block), n ≠ c.graph.anchor →
    c.graph.nodes[n]? = some node → c.blocks[n]? = some b →
    ∃ p above a, node.previous = some p ∧ b.parent? = some p ∧ c.graph.nodes[p]? = some above ∧
      c.blocks[p]? = some a ∧ node.weight = addCapped above.weight b.weight.toNat ∧
      a.rank.next ≤ b.rank.current
  anchored : ∃ top, c.blocks[c.graph.anchor]? = some top ∧ c.nextRank = top.rank.next
  least : ∀ (n : BlockId) (b : Block), c.blocks[n]? = some b → c.nextRank ≤ b.rank.next

/-- A sound chain that knows the block of its anchor, the weights and the waiting blocks. -/
structure Orderly (seen : List Block) (c : Chain) : Prop extends Sound seen c where
  anchored : ∃ top, c.blocks[c.graph.anchor]? = some top ∧ c.nextRank = top.rank.next
  weights : ∀ n p, c.graph.Under n p → ∀ b, c.blocks[n]? = some b →
    c.graph.weightOf n = addCapped (c.graph.weightOf p) b.weight.toNat
  held : c.backlog.HeldIn c.buffered
  buffered_id : ∀ (n : BlockId) (b : Block), c.buffered[n]? = some b → b.id = n
  /-- No block waits and is live. -/
  apart : ∀ (n : BlockId) (b : Block), c.buffered[n]? = some b → ¬c.graph.Live n

/-- The ranks that blocks ask for grow from the anchor on. -/
theorem Orderly.nextRank_le (h : c.Orderly seen) {n : BlockId} {b : Block}
    (hb : c.blocks[n]? = some b) : c.nextRank ≤ b.rank.next := by
  have hdesc := h.isTree.descends_anchor ((h.blocks_live n).1 ⟨b, hb⟩)
  induction hdesc using Relation.ReflTransGen.head_induction_on generalizing b with
  | refl =>
    obtain ⟨top, htop, hnext⟩ := h.anchored
    rw [hb, Option.some.injEq] at htop
    rw [hnext, htop]
    exact UInt64.le_refl _
  | head hu _ ih =>
    obtain ⟨a, ha⟩ := (h.blocks_live _).2 (h.isTree.above_live hu)
    have hlink := h.linked _ _ hu a b ha hb
    exact UInt64.le_trans (ih ha) (UInt64.le_trans hlink.rank_le hlink.ordered)

theorem Orderly.agrees (h : c.Orderly seen) : c.Agrees where
  live := h.blocks_live
  named := h.blocks_id
  below n node b hna hn hb := by
    obtain ⟨p, above, hprev, habove⟩ := h.isTree.previous_live n node hn hna
    have hu : c.graph.Under n p := ⟨hna, node, hn, hprev⟩
    obtain ⟨a, ha⟩ := (h.blocks_live p).2 ⟨above, habove⟩
    have hlink := h.linked n p hu a b ha hb
    have hw := h.weights n p hu b hb
    rw [ForkGraph.weightOf_eq hn, ForkGraph.weightOf_eq habove] at hw
    exact ⟨p, above, a, hprev, h.blocks_id p a ha ▸ hlink.parent, habove, ha, hw, hlink.rank_le⟩
  anchored := h.anchored
  least _ _ := h.nextRank_le

/-! ### What the invariant looks at -/

/-- Further blocks may have been seen. -/
theorem Orderly.mono (h : c.Orderly seen) (hsub : seen ⊆ seen') : c.Orderly seen' :=
  { h with
    linked := fun n p hu a b ha hb =>
      have hlink := h.linked n p hu a b ha hb
      ⟨hlink.toAdmitted.mono hsub, hlink.parent, hlink.rank_le⟩
    waiting := fun id waiters hw b hb => (h.waiting id waiters hw b hb).mono hsub }

/-- It looks at neither content nor queue, nor at what the chain is used for. -/
theorem Orderly.rest (h : c.Orderly seen) (content : ContentStore) (undelivered : List Block)
    (retired permanent : Bool) :
    ({ c with content, undelivered, retired, permanent } : Chain).Orderly seen :=
  { h with }

theorem Orderly.of_bare (h : c.Orderly seen) (heq : d.bare = c.bare) : d.Orderly seen := by
  rw [eq_of_bare heq]
  exact h.rest d.content c.undelivered c.retired c.permanent

theorem not_buffered_empty {n : BlockId} {b : Block} : ¬(∅ : BlockMap Block)[n]? = some b := by
  rw [Std.ExtTreeMap.getElem?_empty]
  exact fun h => nomatch h

/-- A chain that has just started. -/
theorem orderly_start {config : Config} {id : ChainId} {genesis : Block} {graph : ForkGraph}
    {content : ContentStore} {cursor : Cursor} (hg : newGraph config genesis.id = .ok graph) :
    (start id genesis graph content cursor).Orderly seen := by
  have hfresh := ForkGraph.create_fresh hg
  refine { toSound := sound_start hg, anchored := ⟨genesis, ?_, rfl⟩
           weights := fun n p hu => absurd hu hfresh.not_under
           held := fun _ _ hb => absurd hb Backlog.not_listed_empty
           buffered_id := fun _ _ hb => absurd hb not_buffered_empty
           apart := fun _ _ hb => absurd hb not_buffered_empty }
  show ((∅ : BlockMap Block).insert genesis.id genesis)[graph.anchor]? = _
  rw [hfresh.anchor, Lookup.get_insert, if_pos rfl]

/-! ### Waiting blocks leave -/

/-- Blocks leave the backlog and their names are forgotten. -/
theorem Orderly.forget (h : c.Orderly seen) {backlog : Backlog} {ids : List BlockId}
    (hleft : ∀ k b, backlog.Listed k b → c.backlog.Listed k b)
    (hids : ∀ k b, backlog.Listed k b → b.id ∉ ids) :
    (({ c with backlog } : Chain).forget ids).Orderly seen := by
  have hbuffered : ∀ (n : BlockId) (b : Block),
      (ids.foldl (fun m id => m.erase id) c.buffered)[n]? = some b → c.buffered[n]? = some b := by
    intro n b hb
    rw [Lookup.get_eraseAll] at hb
    split at hb
    · cases hb
    · exact hb
  exact
    { h with
      waiting := Backlog.all_iff.2 fun k b hb => Backlog.all_iff.1 h.waiting k b (hleft k b hb)
      held := (h.held.mono hleft).erase hids
      buffered_id := fun n b hb => h.buffered_id n b (hbuffered n b hb)
      apart := fun n b hb => h.apart n b (hbuffered n b hb) }

/-- A block is discarded: it waits no more, and nothing that is left waits behind it. -/
theorem Orderly.discarded (h : c.Orderly seen) (block : Block) {k : BlockId} {b : Block}
    (hb : (c.backlog.discard block).1.Listed k b) :
    c.backlog.Listed k b ∧ b.id ∉ (c.backlog.discard block).2.map (·.id) ∧
      (k ∈ block.previous → b.id ≠ block.id) := by
  have hstrike := ((c.backlog.discard_loses block).left k b hb)
  have hold := (Backlog.listed_strike block.previous).1 hstrike
  refine ⟨hold.1, ?_, hold.2⟩
  exact (h.held.mono (c.backlog.strike_loses block.id block.previous).left).apart
    (c.backlog.discard_loses block) hb

theorem Orderly.discardPending (h : c.Orderly seen) (id : BlockId) :
    (c.discardPending id).1.Orderly seen := by
  unfold Chain.discardPending
  split
  · exact h
  · rename_i block hblock
    have hid := h.buffered_id id block hblock
    refine h.forget (fun k b hb => (h.discarded block hb).1) fun k b hb => ?_
    obtain ⟨hlisted, hbehind, hstruck⟩ := h.discarded block hb
    -- whatever goes by the name of the block is the block, which was struck from its only list
    have hne : b.id ≠ block.id := by
      intro heq
      obtain ⟨hheld, hparent⟩ := h.held k b hlisted
      rw [heq, hid, hblock, Option.some.injEq] at hheld
      exact hstruck (Block.previous_of_parent (hheld ▸ hparent)) heq
    rw [List.mem_cons, List.mem_cons, ← hid]
    rintro (heq | heq | hin)
    · exact hne heq
    · exact hne heq
    · exact hbehind hin

theorem Orderly.retire (h : c.Orderly seen) : c.retire.Orderly seen :=
  { h with
    waiting := Backlog.all_empty
    held := fun _ _ hb => absurd hb Backlog.not_listed_empty
    buffered_id := fun _ _ hb => absurd hb not_buffered_empty
    apart := fun _ _ hb => absurd hb not_buffered_empty }

/-! ### Receiving -/

/-- Released blocks, to be applied in this order. None of them is live or waits, and no two of them
share a name. -/
structure Ready (seen : List Block) (c : Chain) (xs : List Block) : Prop where
  admitted : ∀ x ∈ xs, Admitted seen c.id x
  nodup : (xs.map (·.id)).Nodup
  fresh : ∀ x ∈ xs, ¬c.graph.Live x.id
  unbuffered : ∀ x ∈ xs, c.buffered[x.id]? = none

theorem Ready.of_bare (h : c.Ready seen xs) (heq : d.bare = c.bare) : d.Ready seen xs := by
  rw [eq_of_bare heq]
  exact ⟨h.admitted, h.nodup, h.fresh, h.unbuffered⟩

theorem Ready.tail (h : c.Ready seen (block :: xs)) : c.Ready seen xs where
  admitted x hx := h.admitted x (List.mem_cons_of_mem _ hx)
  nodup := (List.nodup_cons.1 h.nodup).2
  fresh x hx := h.fresh x (List.mem_cons_of_mem _ hx)
  unbuffered x hx := h.unbuffered x (List.mem_cons_of_mem _ hx)

/-- A name that the chain does not know is neither live nor in use for a waiting block. -/
theorem Sound.unknown (h : c.Sound seen) {id : BlockId} (hnew : c.knows id = false) :
    ¬c.graph.Live id ∧ c.buffered[id]? = none := by
  obtain ⟨hdead, hunknown⟩ := Bool.or_eq_false_iff.1 hnew
  rw [Lookup.contains_eq_false] at hdead hunknown
  refine ⟨fun hlive => ?_, hunknown⟩
  obtain ⟨b, hb⟩ := (h.blocks_live id).2 hlive
  rw [hdead] at hb
  cases hb

/-- A block waits for its parent, under a name that was not in use. -/
theorem Orderly.enlist (h : c.Orderly seen) (hb : Admitted seen c.id block)
    (hparent : block.parent? = some parent) (hnew : c.knows block.id = false) :
    ({ c with buffered := c.buffered.insert block.id block
              backlog := c.backlog.enlist block [parent] } : Chain).Orderly seen := by
  obtain ⟨hdead, hunknown⟩ := h.unknown hnew
  have hbuffered : ∀ (n : BlockId) (b : Block),
      (c.buffered.insert block.id block)[n]? = some b →
        (block.id = n ∧ block = b) ∨ c.buffered[n]? = some b := by
    intro n b hn
    rw [Lookup.get_insert] at hn
    split at hn
    · exact .inl ⟨‹_›, Option.some.inj hn⟩
    · exact .inr hn
  refine { h with
    waiting := Backlog.All.enlist hb _ h.waiting
    held := h.held.enlist hunknown hparent
    buffered_id := fun n b hn => ?_
    apart := fun n b hn => ?_ }
  · rcases hbuffered n b hn with ⟨rfl, rfl⟩ | hn
    · rfl
    · exact h.buffered_id n b hn
  · rcases hbuffered n b hn with ⟨rfl, -⟩ | hn
    · exact hdead
    · exact h.apart n b hn

/-- A block that the chain does not know is released, together with what it sets free. -/
theorem Orderly.release (h : c.Orderly seen) (hb : Admitted seen c.id block)
    (hnew : c.knows block.id = false) :
    let out := c.backlog.release block
    let c' := ({ c with backlog := out.1 } : Chain).forget (out.2.map (·.id))
    c'.Orderly seen ∧ c'.Ready seen out.2 := by
  intro out c'
  obtain ⟨hdead, hunknown⟩ := h.unknown hnew
  obtain ⟨free, hfree, hloses⟩ := c.backlog.release_loses block
  have hready : out.2 = block :: free := hfree
  refine ⟨h.forget hloses.left fun k b hlisted => ?_, ?_⟩
  · rw [hready, List.map_cons, List.mem_cons, not_or]
    refine ⟨fun heq => ?_, h.held.apart hloses hlisted⟩
    obtain ⟨hheld, -⟩ := h.held k b (hloses.left k b hlisted)
    rw [heq, hunknown] at hheld
    cases hheld
  · refine ⟨(h.waiting.release hb).2, c.backlog.release_nodup block, fun x hx hlive => ?_,
      fun x hx => ?_⟩
    · rw [hready] at hx
      rcases List.mem_cons.1 hx with rfl | hx
      · exact hdead hlive
      · obtain ⟨k, hlisted, -⟩ := hloses.taken x hx
        exact h.apart x.id x (h.held k x hlisted).1 hlive
    · show ((out.2.map (·.id)).foldl (fun m id => m.erase id) c.buffered)[x.id]? = none
      rw [Lookup.get_eraseAll, if_pos (List.mem_map_of_mem hx)]

theorem Orderly.receive (h : c.Orderly seen) (hb : Admitted seen c.id block)
    (hparent : block.parent? = some parent) :
    (c.receive block parent).1.Orderly seen ∧
      ∀ xs, (c.receive block parent).2 = .released xs →
        (c.receive block parent).1.Ready seen xs := by
  have hreceived : Received c block parent (c.receive block parent).1 (c.receive block parent).2 :=
    received rfl
  generalize (c.receive block parent).1 = d, (c.receive block parent).2 = verdict at hreceived ⊢
  cases hreceived with
  | retired => exact ⟨h, fun _ hxs => nomatch hxs⟩
  | known => exact ⟨h, fun _ hxs => nomatch hxs⟩
  | stale => exact ⟨h, fun _ hxs => nomatch hxs⟩
  | buffered _ hnew => exact ⟨h.enlist hb hparent hnew, fun _ hxs => nomatch hxs⟩
  | below =>
    exact ⟨h.forget (fun k b hl => (h.discarded block hl).1)
      fun k b hl => (h.discarded block hl).2.1, fun _ hxs => nomatch hxs⟩
  | released _ hnew =>
    obtain ⟨horderly, hready⟩ := h.release hb hnew
    refine ⟨horderly, fun xs hxs => ?_⟩
    cases hxs
    exact hready

/-! ### Entering -/

/-- The graph takes every unknown block that follows a live one. -/
theorem Sound.add_ok (h : c.Sound seen) (hfresh : ¬c.graph.Live block.id) {above : Block}
    (habove : c.blocks[parent]? = some above) : ∃ graph step,
      c.graph.add block.id parent block.weight.toNat = .ok (graph, step) :=
  ForkGraph.add_ok hfresh ((h.blocks_live parent).1 ⟨above, habove⟩) _

/-- So a released block enters if its parent is still live and asks for no higher rank. -/
theorem Sound.apply_isSome (h : c.Sound seen) (hfresh : ¬c.graph.Live block.id)
    (hparent : block.parent? = some parent) {above : Block}
    (habove : c.blocks[parent]? = some above) (hrank : above.rank.next ≤ block.rank.current) :
    ∃ a, c.apply block = some a := by
  obtain ⟨graph, step, hadd⟩ := h.add_ok hfresh habove
  simp only [Chain.apply, hparent, habove, hadd, Option.bind_eq_bind, Option.bind_some,
    if_neg (UInt64.not_lt.2 hrank)]
  exact ⟨_, rfl⟩

/-- The blocks that are live after a step were live before, or have just come in. -/
theorem Applied.outcome_blocks {a : Applied} {n : BlockId} {b : Block}
    (h : a.outcome.1.blocks[n]? = some b) : a.chain.blocks[n]? = some b := by
  unfold outcome at h
  split at h
  · exact h
  · rw [collect_blocks] at h
    split at h
    · exact h
    · cases h

/-- Once a block has entered and what it finalized is in line, the graph, the blocks and the queue
with its rank are different, and nothing else. -/
theorem Entered.enqueueAll_eq {top : Block} {a : Applied} (he : Entered seen c top block a)
    (config : Config) : ∃ undelivered nextRank permanent,
      a.outcome.1.enqueueAll config a.outcome.2 =
        { c with graph := a.chain.graph, blocks := a.outcome.1.blocks
                 undelivered, nextRank, permanent } := by
  obtain ⟨nextRank, permanent, heq⟩ := Chain.enqueueAll_eq config a.outcome.2 a.outcome.1
  refine ⟨c.undelivered ++ a.outcome.2, nextRank, permanent, ?_⟩
  rw [heq, he.rest]

theorem Orderly.enter (h : c.Orderly seen) (hready : c.Ready seen (block :: xs)) {a : Applied}
    (ha : c.apply block = some a) (config : Config) :
    (a.outcome.1.enqueueAll config a.outcome.2).Orderly seen ∧
      (a.outcome.1.enqueueAll config a.outcome.2).Ready seen xs := by
  obtain ⟨top, htop, hnext⟩ := h.anchored
  obtain ⟨hfirst, hrest⟩ := List.forall_mem_cons.1 hready.unbuffered
  have he := apply_entered h.toSound (hready.admitted block (List.mem_cons_self ..)) htop ha
  obtain ⟨parent, above, node, graph, hparent, habove, hrank, hnode, hadd, happlied⟩ :=
    apply_eq_some ha
  obtain ⟨g₁, g₂, hs⟩ := ForkGraph.add_stages h.isTree hadd
  have hgrown := ForkGraph.add_grown h.isTree hadd
  obtain rfl : a.chain.graph = graph := by rw [happlied]
  have hblocks : a.chain.blocks = c.blocks.insert block.id block := by rw [happlied]
  have hlast : (a.outcome.1.enqueueAll config a.outcome.2).nextRank =
      (a.outcome.2.getLastD top).rank.next := by
    refine nextRank_enqueueAll config he.links ?_
    rw [he.rest]
    exact hnext
  have hsound := he.sound
  rw [he.rest] at hsound
  obtain ⟨undelivered, nextRank, permanent, heq⟩ := he.enqueueAll_eq config
  rw [heq] at hlast ⊢
  refine ⟨{ hsound with
    anchored := ⟨_, he.anchor, hlast⟩
    weights := fun n p hu b hb => ?_
    held := h.held, buffered_id := h.buffered_id
    apart := fun n b hb hlive => ?_ },
    ⟨hready.tail.admitted, hready.tail.nodup, fun x hx hlive => ?_, hrest⟩⟩
  · have hold := Applied.outcome_blocks hb
    rw [hblocks, Lookup.get_insert] at hold
    rcases hs.edge h.isTree.toRooted hgrown hu with ⟨rfl, -, hw⟩ | ⟨hne, hu, hw, hwp⟩
    · rw [if_pos rfl, Option.some.injEq] at hold
      rw [← hold]
      exact hw
    · rw [if_neg (Ne.symm hne)] at hold
      show a.chain.graph.weightOf n = addCapped (a.chain.graph.weightOf p) _
      rw [hw, hwp]
      exact h.weights n p hu b hold
  · rcases (hgrown.live n hlive).2 with rfl | hold
    · rw [show c.buffered[block.id]? = some b from hb] at hfirst
      cases hfirst
    · exact h.apart n b hb hold
  · rcases (hgrown.live x.id hlive).2 with heq | hold
    · exact (List.nodup_cons.1 hready.nodup).1 (List.mem_map.2 ⟨x, hx, heq⟩)
    · exact hready.tail.fresh x hx hold

end Chain

end ShardLedger
