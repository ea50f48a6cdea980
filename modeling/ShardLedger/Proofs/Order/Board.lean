import Mathlib.Data.List.Basic
import Mathlib.Logic.Relation
import ShardLedger.Proofs.Chain.Sound

/-!
# The board

All that the global order depends on, apart from the ledger that keeps it: a lane for every
registered or spawned chain, in the order of registration, with the queue of what the chain has
finalized; and the record of what was finalized and what was delivered. Four steps change a
board. `Board.Ranked` is the first invariant of the steps: whatever is delivered from now on is
ranked no lower than what was delivered before.

- `Lane`, `Board`, `Board.Step`, `Board.Steps`.
- `Board.Steps.finalizeAll`: a linked run of blocks is finalized one by one.
- `Board.Steps.ranked`: delivered ranks never decrease.
-/

namespace ShardLedger

/-- A chain as the global order sees it over time. -/
structure Lane where
  chain : ChainId
  /-- The block that the next finalized one will follow; none once the chain has retired. -/
  anchor? : Option Block
  /-- The finalized blocks that are not delivered yet, oldest first. -/
  queue : List Block

/-- The lanes in the order of registration, and what happened so far, each block with the chain
that it was finalized or delivered on. -/
structure Board where
  lanes : List Lane
  finalized : List (ChainId × Block)
  delivered : List (ChainId × Block)

namespace Board

/-- The board of a ledger with the root chain alone. -/
def start : Board :=
  { lanes := [⟨.root, some (Block.genesis .root), []⟩], finalized := [], delivered := [] }

/-- The blocks that are finalized but not delivered, in the order of the lanes. -/
def queued (lanes : List Lane) : List Block := lanes.flatMap (·.queue)

variable {seen : List Block}

/-- What can happen to a board. -/
inductive Step (seen : List Block) : Board → Board → Prop
  /-- A chain finalizes a block, and may split into two new chains that start from that block. -/
  | finalize {pre post : List Lane} {fin del : List (ChainId × Block)} {id : ChainId}
      {a b : Block} {q : List Block} (born : List ChainId) (follows : Follows seen id a b)
      (nodup : born.Nodup) (children : ∀ c ∈ born, c.parent? = some id)
      (fresh : ∀ lane ∈ pre ++ ⟨id, some a, q⟩ :: post, lane.chain ∉ born) :
      Step seen ⟨pre ++ ⟨id, some a, q⟩ :: post, fin, del⟩
        ⟨pre ++ ⟨id, some b, q ++ [b]⟩ :: post ++ born.map (⟨·, some b, []⟩),
          fin ++ [(id, b)], del⟩
  /-- A chain is merged into its parent. -/
  | retire {pre post : List Lane} {fin del : List (ChainId × Block)} {id : ChainId}
      {a : Option Block} {q : List Block} :
      Step seen ⟨pre ++ ⟨id, a, q⟩ :: post, fin, del⟩ ⟨pre ++ ⟨id, none, q⟩ :: post, fin, del⟩
  /-- The first of the lowest heads is delivered, if no chain may still finalize so low a block. -/
  | deliver {pre post : List Lane} {fin del : List (ChainId × Block)} {id : ChainId}
      {a : Option Block} {b : Block} {q : List Block}
      (before : ∀ lane ∈ pre, ∀ h ∈ lane.queue.head?, b.rank.current < h.rank.current)
      (after : ∀ lane ∈ post, ∀ h ∈ lane.queue.head?, b.rank.current ≤ h.rank.current)
      (settled : ∀ lane ∈ pre ++ ⟨id, a, b :: q⟩ :: post, ∀ top ∈ lane.anchor?,
        b.rank.current ≤ top.rank.next) :
      Step seen ⟨pre ++ ⟨id, a, b :: q⟩ :: post, fin, del⟩
        ⟨pre ++ ⟨id, a, q⟩ :: post, fin, del ++ [(id, b)]⟩
  /-- A retired chain with nothing left to deliver is removed. -/
  | close {pre post : List Lane} {fin del : List (ChainId × Block)} {id : ChainId} :
      Step seen ⟨pre ++ ⟨id, none, []⟩ :: post, fin, del⟩ ⟨pre ++ post, fin, del⟩

/-- Any number of steps. -/
abbrev Steps (seen : List Block) : Board → Board → Prop := Relation.ReflTransGen (Step seen)

/-- What every step keeps, any number of steps keeps. -/
theorem Steps.induct {P : Board → Prop} (hP : ∀ b b', Step seen b b' → P b → P b') {b b' : Board}
    (hs : Steps seen b b') (h : P b) : P b' := by
  induction hs with
  | refl => exact h
  | tail _ hstep ih => exact hP _ _ hstep ih

section Finalizing

variable {pre post : List Lane} {del : List (ChainId × Block)} {id : ChainId}

/-- A chain that does not split finalizes a linked run of blocks. -/
theorem Steps.finalizeAll : ∀ {xs : List Block} {a : Block} {q : List Block}
    {fin : List (ChainId × Block)}, Links seen id a xs →
      Steps seen ⟨pre ++ ⟨id, some a, q⟩ :: post, fin, del⟩
        ⟨pre ++ ⟨id, some (xs.getLastD a), q ++ xs⟩ :: post, fin ++ xs.map (id, ·), del⟩
  | [], a, q, fin, _ => by
    rw [List.append_nil, List.map_nil, List.append_nil]
    exact .refl
  | b :: rest, a, q, fin, ⟨hab, hrest⟩ => by
    have hone := @Step.finalize seen pre post fin del id a b q [] hab List.nodup_nil
      (fun _ h => nomatch h) (fun _ _ => List.not_mem_nil)
    rw [List.map_nil, List.append_nil] at hone
    have hmore := @Steps.finalizeAll rest b (q ++ [b]) (fin ++ [(id, b)]) hrest
    rw [List.append_assoc, List.append_assoc] at hmore
    rw [List.getLastD_cons]
    exact .head hone hmore

/-- A chain that splits finalizes a linked run of blocks, one of which is the seed. -/
theorem Steps.finalizeSplit {before after : List Block} {seed a : Block} {q : List Block}
    {fin : List (ChainId × Block)} {born : List ChainId}
    (hlinks : Links seen id a (before ++ seed :: after)) (hnodup : born.Nodup)
    (hchildren : ∀ c ∈ born, c.parent? = some id)
    (hfresh : ∀ c ∈ born, ∀ lane ∈ pre ++ ⟨id, some a, q⟩ :: post, lane.chain ≠ c) :
    Steps seen ⟨pre ++ ⟨id, some a, q⟩ :: post, fin, del⟩
      ⟨pre ++ ⟨id, some ((before ++ seed :: after).getLastD a), q ++ (before ++ seed :: after)⟩ ::
          (post ++ born.map (⟨·, some seed, []⟩)),
        fin ++ (before ++ seed :: after).map (id, ·), del⟩ := by
  obtain ⟨hbefore, hseed, hafter⟩ := links_append.1 hlinks
  -- the blocks before the seed, then the seed with the split, then the rest
  have hfirst := @Steps.finalizeAll seen pre post del id before a q fin hbefore
  have hsplit := @Step.finalize seen pre post (fin ++ before.map (id, ·)) del id
    (before.getLastD a) seed (q ++ before) born hseed hnodup hchildren (by
      intro lane hl hmem
      rcases List.mem_append.1 hl with hl | hl
      · exact hfresh _ hmem lane (List.mem_append_left _ hl) rfl
      · rcases List.mem_cons.1 hl with rfl | hl
        · exact hfresh _ hmem _ (List.mem_append_right _ (List.mem_cons_self ..)) rfl
        · exact hfresh _ hmem lane (List.mem_append_right _ (List.mem_cons_of_mem _ hl)) rfl)
  have hlast := @Steps.finalizeAll seen pre (post ++ born.map (⟨·, some seed, []⟩)) del id after
    seed (q ++ before ++ [seed]) (fin ++ before.map (id, ·) ++ [(id, seed)]) hafter
  rw [List.append_assoc pre, List.cons_append] at hsplit
  have hall := (hfirst.tail hsplit).trans hlast
  rw [getLastD_append, List.getLastD_cons]
  simpa only [List.append_assoc, List.singleton_append, List.map_append, List.map_cons] using hall

end Finalizing

/-- Where one lane was exchanged, every lane is the new one or was there before. -/
theorem mem_exchange {pre post : List Lane} {old new lane : Lane} (h : lane ∈ pre ++ new :: post) :
    lane = new ∨ lane ∈ pre ++ old :: post := by
  rcases List.mem_append.1 h with h | h
  · exact Or.inr (List.mem_append_left _ h)
  · rcases List.mem_cons.1 h with rfl | h
    · exact Or.inl rfl
    · exact Or.inr (List.mem_append_right _ (List.mem_cons_of_mem _ h))

theorem mem_middle (pre post : List Lane) (lane : Lane) : lane ∈ pre ++ lane :: post :=
  List.mem_append_right _ (List.mem_cons_self ..)

/-- Where a lane was taken out, every other one was there before. -/
theorem mem_of_removed {pre post : List Lane} {old lane : Lane} (h : lane ∈ pre ++ post) :
    lane ∈ pre ++ old :: post := by
  rcases List.mem_append.1 h with h | h
  · exact List.mem_append_left _ h
  · exact List.mem_append_right _ (List.mem_cons_of_mem _ h)

theorem queued_append (xs ys : List Lane) : queued (xs ++ ys) = queued xs ++ queued ys :=
  List.flatMap_append

theorem queued_middle {pre post : List Lane} (lane : Lane) :
    queued (pre ++ lane :: post) = queued pre ++ (lane.queue ++ queued post) :=
  queued_append ..

theorem queued_newborn {lanes : List Lane} (born : List ChainId) (top : Option Block) :
    queued (lanes ++ born.map (⟨·, top, []⟩)) = queued lanes := by
  rw [queued_append, List.append_right_eq_self]
  refine List.flatMap_eq_nil_iff.2 fun lane hl => ?_
  obtain ⟨c, -, rfl⟩ := List.mem_map.1 hl
  rfl

end Board

/-! ### Ranks -/

/-- Neither the queue of a lane nor what its chain may still finalize ranks below what was
delivered. -/
structure Lane.Ranked (delivered : List (ChainId × Block)) (lane : Lane) : Prop where
  sorted : (lane.queue.map (·.rank.current)).Pairwise (· ≤ ·)
  queue_anchor : ∀ top ∈ lane.anchor?, ∀ x ∈ lane.queue, x.rank.current ≤ top.rank.next
  delivered_queue : ∀ d ∈ delivered, ∀ x ∈ lane.queue, d.2.rank.current ≤ x.rank.current
  delivered_anchor : ∀ d ∈ delivered, ∀ top ∈ lane.anchor?, d.2.rank.current ≤ top.rank.next

namespace Lane

variable {seen : List Block} {del : List (ChainId × Block)} {id : ChainId} {a b : Block}
  {a? : Option Block} {q : List Block}

/-- The head of a sorted queue is its lowest block. -/
theorem Ranked.head_le {lane : Lane} (h : lane.Ranked del) {x head : Block}
    (hx : x ∈ lane.queue) (hhead : head ∈ lane.queue.head?) :
    head.rank.current ≤ x.rank.current := by
  have hsorted := h.sorted
  cases hq : lane.queue with
  | nil =>
    rw [hq] at hx
    cases hx
  | cons y rest =>
    rw [hq, List.head?_cons, Option.mem_some_iff] at hhead
    subst hhead
    rw [hq] at hx
    rcases List.mem_cons.1 hx with rfl | hx
    · exact UInt64.le_refl _
    · -- the head comes first in a sorted queue
      rw [hq, List.map_cons, List.pairwise_cons] at hsorted
      exact hsorted.1 _ (List.mem_map_of_mem hx)

/-- The next block of a chain ranks above all that is queued or delivered. -/
theorem Ranked.extend (h : Ranked del ⟨id, some a, q⟩) (hb : Follows seen id a b) :
    Ranked del ⟨id, some b, q ++ [b]⟩ where
  sorted := by
    rw [List.map_append, List.pairwise_append]
    refine ⟨h.sorted, List.pairwise_singleton _ _, ?_⟩
    intro r hr r' hr'
    obtain ⟨x, hx, rfl⟩ := List.mem_map.1 hr
    obtain ⟨y, hy, rfl⟩ := List.mem_map.1 hr'
    rw [List.mem_singleton.1 hy]
    exact UInt64.le_trans (h.queue_anchor a rfl x hx) hb.rank_le
  queue_anchor top htop x hx := by
    rw [Option.mem_some_iff] at htop
    subst htop
    rcases List.mem_append.1 hx with hx | hx
    · exact UInt64.le_trans (UInt64.le_trans (h.queue_anchor a rfl x hx) hb.rank_le) hb.ordered
    · rw [List.mem_singleton.1 hx]
      exact hb.ordered
  delivered_queue d hd x hx := by
    rcases List.mem_append.1 hx with hx | hx
    · exact h.delivered_queue d hd x hx
    · rw [List.mem_singleton.1 hx]
      exact UInt64.le_trans (h.delivered_anchor d hd a rfl) hb.rank_le
  delivered_anchor d hd top htop := by
    rw [Option.mem_some_iff] at htop
    subst htop
    exact UInt64.le_trans (UInt64.le_trans (h.delivered_anchor d hd a rfl) hb.rank_le) hb.ordered

/-- A chain that was just split off starts where its parent stands. -/
theorem Ranked.newborn (h : Ranked del ⟨id, some b, q⟩) (c : ChainId) :
    Ranked del ⟨c, some b, []⟩ where
  sorted := List.Pairwise.nil
  queue_anchor _ _ _ hx := nomatch hx
  delivered_queue _ _ _ hx := nomatch hx
  delivered_anchor := h.delivered_anchor

theorem Ranked.retire (h : Ranked del ⟨id, a?, q⟩) : Ranked del ⟨id, none, q⟩ where
  sorted := h.sorted
  queue_anchor _ htop := nomatch htop
  delivered_queue := h.delivered_queue
  delivered_anchor _ _ _ htop := nomatch htop

/-- A lane stays ranked when a block is delivered that lies below it. -/
theorem Ranked.deliver {lane : Lane} (h : lane.Ranked del)
    (hqueue : ∀ x ∈ lane.queue, b.rank.current ≤ x.rank.current)
    (hanchor : ∀ top ∈ lane.anchor?, b.rank.current ≤ top.rank.next) (c : ChainId) :
    lane.Ranked (del ++ [(c, b)]) where
  sorted := h.sorted
  queue_anchor := h.queue_anchor
  delivered_queue d hd x hx := by
    rcases List.mem_append.1 hd with hd | hd
    · exact h.delivered_queue d hd x hx
    · rw [List.mem_singleton.1 hd]
      exact hqueue x hx
  delivered_anchor d hd top htop := by
    rcases List.mem_append.1 hd with hd | hd
    · exact h.delivered_anchor d hd top htop
    · rw [List.mem_singleton.1 hd]
      exact hanchor top htop

theorem Ranked.tail (h : Ranked del ⟨id, a?, b :: q⟩) : Ranked del ⟨id, a?, q⟩ where
  sorted := by
    have := h.sorted
    rw [List.map_cons, List.pairwise_cons] at this
    exact this.2
  queue_anchor top htop x hx := h.queue_anchor top htop x (List.mem_cons_of_mem _ hx)
  delivered_queue d hd x hx := h.delivered_queue d hd x (List.mem_cons_of_mem _ hx)
  delivered_anchor := h.delivered_anchor

end Lane

namespace Board

variable {seen : List Block}

/-- All lanes are ranked, and the delivered ranks never decrease. -/
structure Ranked (b : Board) : Prop where
  lanes : ∀ lane ∈ b.lanes, lane.Ranked b.delivered
  sorted : (b.delivered.map (·.2.rank.current)).Pairwise (· ≤ ·)

theorem ranked_start : start.Ranked where
  lanes lane hl := by
    rw [List.mem_singleton.1 hl]
    exact
      { sorted := List.Pairwise.nil
        queue_anchor := fun _ _ _ hx => nomatch hx
        delivered_queue := fun _ hd => nomatch hd
        delivered_anchor := fun _ hd => nomatch hd }
  sorted := List.Pairwise.nil

/-- The block that is delivered ranks no higher than any block that stays queued. -/
theorem Ranked.lowest {pre post : List Lane} {fin del : List (ChainId × Block)} {id : ChainId}
    {a : Option Block} {b : Block} {q : List Block}
    (h : Ranked ⟨pre ++ ⟨id, a, b :: q⟩ :: post, fin, del⟩)
    (before : ∀ lane ∈ pre, ∀ h ∈ lane.queue.head?, b.rank.current < h.rank.current)
    (after : ∀ lane ∈ post, ∀ h ∈ lane.queue.head?, b.rank.current ≤ h.rank.current) :
    ∀ lane ∈ pre ++ ⟨id, a, b :: q⟩ :: post, ∀ x ∈ lane.queue,
      b.rank.current ≤ x.rank.current := by
  intro lane hl x hx
  have hhead : ∀ y ∈ lane.queue.head?, b.rank.current ≤ y.rank.current := by
    rcases List.mem_append.1 hl with hl | hl
    · exact fun y hy => UInt64.le_of_lt (before lane hl y hy)
    · rcases List.mem_cons.1 hl with rfl | hl
      · rintro y hy
        rw [Option.mem_some_iff.1 hy]
        exact UInt64.le_refl _
      · exact after lane hl
  cases hq : lane.queue.head? with
  | none =>
    rw [List.head?_eq_none_iff.1 hq] at hx
    cases hx
  | some y => exact UInt64.le_trans (hhead y hq) ((h.lanes lane hl).head_le hx hq)

theorem Ranked.step {b b' : Board} (hs : Step seen b b') (h : b.Ranked) : b'.Ranked := by
  cases hs with
  | @finalize pre post fin del id a b q born follows =>
    -- the lane that finalizes is extended, and its children start from the new anchor
    have hnew := (h.lanes _ (mem_middle pre post ⟨id, some a, q⟩)).extend follows
    refine ⟨fun lane hl => ?_, h.sorted⟩
    rcases List.mem_append.1 hl with hl | hl
    · rcases mem_exchange hl with rfl | hold
      · exact hnew
      · exact h.lanes lane hold
    · obtain ⟨c, -, rfl⟩ := List.mem_map.1 hl
      exact hnew.newborn c
  | @retire pre post fin del id a q =>
    refine ⟨fun lane hl => ?_, h.sorted⟩
    rcases mem_exchange hl with rfl | hold
    · exact (h.lanes _ (mem_middle pre post ⟨id, a, q⟩)).retire
    · exact h.lanes lane hold
  | @deliver pre post fin del id a b q before after settled =>
    -- every lane stays ranked with one block more delivered, then the head leaves its queue
    have hmid := mem_middle pre post ⟨id, a, b :: q⟩
    have hlow := h.lowest before after
    have hall : ∀ lane ∈ pre ++ ⟨id, a, b :: q⟩ :: post, lane.Ranked (del ++ [(id, b)]) :=
      fun lane hl => (h.lanes lane hl).deliver (hlow lane hl) (settled lane hl) id
    refine ⟨fun lane hl => ?_, ?_⟩
    · rcases mem_exchange hl with rfl | hold
      · exact (hall _ hmid).tail
      · exact hall lane hold
    · show ((del ++ [(id, b)]).map _).Pairwise _
      rw [List.map_append, List.pairwise_append]
      refine ⟨h.sorted, List.pairwise_singleton _ _, ?_⟩
      intro r hr r' hr'
      obtain ⟨d, hd, rfl⟩ := List.mem_map.1 hr
      obtain ⟨d', hd', rfl⟩ := List.mem_map.1 hr'
      rw [List.mem_singleton.1 hd']
      exact (h.lanes _ hmid).delivered_queue d hd b (List.mem_cons_self ..)
  | close => exact ⟨fun lane hl => h.lanes lane (mem_of_removed hl), h.sorted⟩

/-- On every board that can be reached, the delivered ranks never decrease. -/
theorem Steps.ranked {b : Board} (hs : Steps seen start b) : b.Ranked :=
  hs.induct (fun _ _ => Ranked.step) ranked_start

end Board

end ShardLedger
