import Mathlib.Data.List.Nodup
import ShardLedger.Proofs.Order.Board

/-!
# Nothing is lost and nothing comes twice

What a chain finalized is what was delivered of it, followed by its queue. And if an identity
stands for one block only, no block is finalized a second time: a block can follow an anchor only
once, because the chain moves on to a block that nothing has followed yet. That covers chains
that were removed and split off again under the same number.

- `Board.Conserved`: the account of every chain and of all chains together.
- `Board.Single`: no block of coherent ones is finalized twice.
-/

namespace ShardLedger

namespace Board

variable {seen : List Block}

/-- The part of a record that is about chain `id`. -/
def onChain (id : ChainId) (record : List (ChainId × Block)) : List Block :=
  (record.filter fun entry => entry.1 = id).map (·.2)

/-- The queue of chain `id`, if it has a lane. -/
def queueOf (lanes : List Lane) (id : ChainId) : List Block :=
  (lanes.filter fun lane => lane.chain = id).flatMap (·.queue)

theorem onChain_append (id : ChainId) (xs ys : List (ChainId × Block)) :
    onChain id (xs ++ ys) = onChain id xs ++ onChain id ys := by
  unfold onChain
  rw [List.filter_append, List.map_append]

theorem onChain_same (id : ChainId) (b : Block) : onChain id [(id, b)] = [b] := by
  simp [onChain]

theorem onChain_other {id c : ChainId} (h : c ≠ id) (b : Block) : onChain id [(c, b)] = [] := by
  simp [onChain, h]

/-- What was finalized and what was delivered agree up to the queues. -/
structure Conserved (b : Board) : Prop where
  lanes_nodup : (b.lanes.map (·.chain)).Nodup
  chain : ∀ id, onChain id b.finalized = onChain id b.delivered ++ queueOf b.lanes id
  total : (b.finalized.map (·.2)).Perm (b.delivered.map (·.2) ++ queued b.lanes)

theorem conserved_start : start.Conserved where
  lanes_nodup := List.nodup_singleton _
  chain id := by
    unfold queueOf start
    by_cases h : ChainId.root = id <;> simp [onChain, h]
  total := List.Perm.refl _

variable {pre post : List Lane}

/-- The queue of one lane between the others. -/
theorem queueOf_middle (lane : Lane) (id : ChainId) :
    queueOf (pre ++ lane :: post) id =
      queueOf pre id ++ (if lane.chain = id then lane.queue else []) ++
        queueOf post id := by
  unfold queueOf
  rw [List.filter_append, List.filter_cons, List.flatMap_append, List.append_assoc]
  congr 1
  by_cases h : lane.chain = id
  · simp [h]
  · simp [h]

/-- A chain without a lane has no queue. -/
theorem queueOf_eq_nil {lanes : List Lane} {id : ChainId}
    (h : id ∉ lanes.map (·.chain)) : queueOf lanes id = [] := by
  unfold queueOf
  rw [List.filter_eq_nil_iff.2]
  · rfl
  · intro lane hl hid
    exact h (List.mem_map.2 ⟨lane, hl, of_decide_eq_true hid⟩)

/-- Lanes with nothing in their queues add nothing. -/
theorem queueOf_newborn {lanes : List Lane} (born : List ChainId) (top : Option Block)
    (id : ChainId) : queueOf (lanes ++ born.map (⟨·, top, []⟩)) id =
      queueOf lanes id := by
  unfold queueOf
  rw [List.filter_append, List.flatMap_append, List.append_right_eq_self]
  refine List.flatMap_eq_nil_iff.2 fun lane hl => ?_
  obtain ⟨c, -, rfl⟩ := List.mem_map.1 (List.mem_filter.1 hl).1
  rfl

/-- The lane of a chain is its only one. -/
theorem not_mem_of_nodup {lane : Lane} (h : ((pre ++ lane :: post).map (·.chain)).Nodup) :
    lane.chain ∉ pre.map (·.chain) ∧ lane.chain ∉ post.map (·.chain) := by
  rw [List.map_append, List.map_cons, List.nodup_append] at h
  obtain ⟨-, hpost, hne⟩ := h
  refine ⟨fun hpre => hne _ hpre _ (List.mem_cons_self ..) rfl, ?_⟩
  exact (List.nodup_cons.1 hpost).1

/-- The queue of a chain is that of its one lane. -/
theorem queueOf_of_mem {lanes : List Lane} {lane : Lane} (hnodup : (lanes.map (·.chain)).Nodup)
    (hl : lane ∈ lanes) : queueOf lanes lane.chain = lane.queue := by
  obtain ⟨pre, post, rfl⟩ := List.append_of_mem hl
  obtain ⟨hpre, hpost⟩ := not_mem_of_nodup hnodup
  rw [queueOf_middle, queueOf_eq_nil hpre, queueOf_eq_nil hpost, if_pos rfl, List.append_nil]
  rfl

section

variable {fin del : List (ChainId × Block)} {id : ChainId} {top? : Option Block} {b : Block}
  {q : List Block}

/-- What a chain finalizes is added to its queue. -/
theorem Conserved.finalize (h : Conserved ⟨pre ++ ⟨id, top?, q⟩ :: post, fin, del⟩)
    {born : List ChainId} (nodup : born.Nodup)
    (fresh : ∀ lane ∈ pre ++ ⟨id, top?, q⟩ :: post, lane.chain ∉ born) :
    Conserved ⟨pre ++ ⟨id, some b, q ++ [b]⟩ :: post ++ born.map (⟨·, some b, []⟩),
      fin ++ [(id, b)], del⟩ := by
  obtain ⟨hpre, hpost⟩ := not_mem_of_nodup h.lanes_nodup
  have htotal := h.total
  refine ⟨?_, fun c => ?_, ?_⟩
  · -- the new chains are none of the old ones
    have hold := h.lanes_nodup
    rw [List.map_append, List.map_cons] at hold
    rw [List.map_append, List.map_append, List.map_cons, List.map_map]
    show (_ ++ born.map fun c => c).Nodup
    rw [List.map_id']
    refine List.nodup_append.2 ⟨hold, nodup, ?_⟩
    rintro c hc c' hc' rfl
    rw [← List.map_cons (f := fun lane : Lane => lane.chain) (a := ⟨id, top?, q⟩),
      ← List.map_append] at hc
    obtain ⟨lane, hl, rfl⟩ := List.mem_map.1 hc
    exact fresh lane hl hc'
  · have hchain := h.chain c
    rw [queueOf_newborn, onChain_append, hchain, queueOf_middle, queueOf_middle]
    -- behind the lane no other one is of this chain, so the block ends up last
    by_cases hc : id = c
    · subst hc
      rw [onChain_same, if_pos rfl, if_pos rfl, queueOf_eq_nil hpost]
      simp only [List.append_nil, List.append_assoc]
    · rw [onChain_other hc, if_neg hc, if_neg hc, List.append_nil]
  · rw [queued_middle] at htotal
    rw [queued_newborn, queued_middle, List.map_append]
    refine (htotal.append_right _).trans ?_
    simp only [List.map_cons, List.map_nil, List.append_assoc, List.perm_append_left_iff]
    exact List.perm_append_comm

theorem Conserved.retire (h : Conserved ⟨pre ++ ⟨id, top?, q⟩ :: post, fin, del⟩) :
    Conserved ⟨pre ++ ⟨id, none, q⟩ :: post, fin, del⟩ := by
  have hnodup := h.lanes_nodup
  have htotal := h.total
  refine ⟨?_, fun c => ?_, ?_⟩
  · rw [List.map_append, List.map_cons] at hnodup ⊢
    exact hnodup
  · have hchain := h.chain c
    rw [queueOf_middle] at hchain ⊢
    exact hchain
  · rw [queued_middle] at htotal ⊢
    exact htotal

/-- What is delivered is taken from the front of a queue. -/
theorem Conserved.deliver (h : Conserved ⟨pre ++ ⟨id, top?, b :: q⟩ :: post, fin, del⟩) :
    Conserved ⟨pre ++ ⟨id, top?, q⟩ :: post, fin, del ++ [(id, b)]⟩ := by
  obtain ⟨hpre, hpost⟩ := not_mem_of_nodup h.lanes_nodup
  have hnodup := h.lanes_nodup
  have htotal := h.total
  refine ⟨?_, fun c => ?_, ?_⟩
  · rw [List.map_append, List.map_cons] at hnodup ⊢
    exact hnodup
  · have hchain := h.chain c
    rw [queueOf_middle] at hchain
    rw [hchain, queueOf_middle, onChain_append]
    -- ahead of the lane no other one is of this chain, so the block was the first to wait
    by_cases hc : id = c
    · subst hc
      rw [onChain_same, if_pos rfl, if_pos rfl, queueOf_eq_nil hpre]
      simp only [List.nil_append, List.append_assoc, List.cons_append]
    · rw [onChain_other hc, if_neg hc, if_neg hc, List.append_nil, List.append_nil]
  · rw [queued_middle] at htotal ⊢
    refine htotal.trans ?_
    rw [List.map_append]
    simp only [List.map_cons, List.map_nil, List.append_assoc, List.perm_append_left_iff,
      List.cons_append, List.nil_append]
    exact List.perm_middle

theorem Conserved.close (h : Conserved ⟨pre ++ ⟨id, none, []⟩ :: post, fin, del⟩) :
    Conserved ⟨pre ++ post, fin, del⟩ := by
  have hnodup := h.lanes_nodup
  have htotal := h.total
  refine ⟨?_, fun c => ?_, ?_⟩
  · rw [List.map_append, List.map_cons] at hnodup
    rw [List.map_append]
    exact (List.nodup_middle.1 hnodup).of_cons
  · have hchain := h.chain c
    rw [queueOf_middle] at hchain
    rw [hchain, ite_self, List.append_nil]
    unfold queueOf
    rw [List.filter_append, List.flatMap_append]
  · rw [queued_middle] at htotal
    rw [queued_append]
    exact htotal

end

theorem Conserved.step {b b' : Board} (hs : Step seen b b') (h : b.Conserved) :
    b'.Conserved := by
  cases hs with
  | finalize born follows nodup children fresh => exact h.finalize nodup fresh
  | retire => exact h.retire
  | deliver => exact h.deliver
  | close => exact h.close

/-- On every board that can be reached, the account is right. -/
theorem Steps.conserved {b : Board} (hs : Steps seen start b) : b.Conserved :=
  hs.induct (fun _ _ => Conserved.step) conserved_start

end Board

/-! ### Once only -/

namespace Board

variable {seen : List Block}

/-- The identities of the blocks that were finalized. -/
def finalizedIds (b : Board) : List BlockId := b.finalized.map (·.2.id)

/-- Whatever a chain finalized was submitted to it. -/
theorem Steps.admitted {b : Board} (hs : Steps seen start b) :
    ∀ entry ∈ b.finalized, Admitted seen entry.1 entry.2 := by
  refine Steps.induct (P := fun b => ∀ entry ∈ b.finalized, Admitted seen entry.1 entry.2)
    (fun b b' hstep h => ?_) hs fun _ he => nomatch he
  cases hstep with
  | finalize born follows =>
    intro entry he
    rcases List.mem_append.1 he with he | he
    · exact h entry he
    · rw [List.mem_singleton.1 he]
      exact follows.toAdmitted
  | retire => exact h
  | deliver => exact h
  | close => exact h

/-- Every block was finalized once, after the block that it follows. What a chain may finalize
next, it has not finalized before. -/
structure Single (b : Board) : Prop where
  root_apart : (Block.genesis .root).id ∉ b.finalizedIds
  /-- Anchors are blocks that were finalized. -/
  anchor : ∀ lane ∈ b.lanes, ∀ top ∈ lane.anchor?,
    top = Block.genesis .root ∨ top.id ∈ b.finalizedIds
  parent : ∀ entry ∈ b.finalized, ∃ p, entry.2.parent? = some p ∧
    (p = (Block.genesis .root).id ∨ p ∈ b.finalizedIds)
  /-- On its own chain, nothing that was finalized follows the anchor. -/
  unfollowed : ∀ lane ∈ b.lanes, ∀ top ∈ lane.anchor?, ∀ entry ∈ b.finalized,
    entry.1 = lane.chain → entry.2.parent? ≠ some top.id
  nodup : b.finalizedIds.Nodup

theorem single_start : start.Single where
  root_apart h := nomatch h
  anchor lane hl top htop := by
    rw [List.mem_singleton.1 hl, Option.mem_some_iff] at htop
    exact Or.inl htop.symm
  parent _ h := nomatch h
  unfollowed _ _ _ _ _ h := nomatch h
  nodup := List.nodup_nil

/-- A block that may follow an anchor is new. -/
theorem Single.fresh {b : Board} (h : b.Single)
    (hcoherent : Coherent (Block.genesis .root :: seen))
    (hadmitted : ∀ entry ∈ b.finalized, Admitted seen entry.1 entry.2) {lane : Lane} {a x : Block}
    (hl : lane ∈ b.lanes) (ha : lane.anchor? = some a) (hx : Follows seen lane.chain a x) :
    x.id ≠ (Block.genesis .root).id ∧ x.id ∉ b.finalizedIds := by
  constructor
  · -- the genesis names no parent
    intro hid
    have heq := hcoherent x (List.mem_cons_of_mem _ hx.mem) _ (List.mem_cons_self ..) hid
    have hparent := hx.parent
    rw [heq] at hparent
    cases hparent
  · -- it would be the block of that identity, and that one does not follow the anchor
    intro hmem
    obtain ⟨entry, he, hid⟩ := List.mem_map.1 hmem
    have hold := hadmitted entry he
    have heq := hcoherent _ (List.mem_cons_of_mem _ hold.mem) x
      (List.mem_cons_of_mem _ hx.mem) hid
    refine h.unfollowed lane hl a ha entry he ?_ (heq ▸ hx.parent)
    rw [← hold.chain, heq, hx.chain]

/-- Nothing that was finalized follows a new block. -/
theorem Single.unfollowed_of_fresh {b : Board} (h : b.Single) {id : BlockId}
    (hroot : id ≠ (Block.genesis .root).id) (hnew : id ∉ b.finalizedIds) :
    ∀ entry ∈ b.finalized, entry.2.parent? ≠ some id := by
  intro entry he hparent
  obtain ⟨p, hp, hfrom⟩ := h.parent entry he
  rw [hparent, Option.some.injEq] at hp
  subst hp
  exact hfrom.elim hroot hnew

section

variable {pre post : List Lane} {fin del : List (ChainId × Block)} {id : ChainId}
  {top? : Option Block} {a x : Block} {q : List Block} {born : List ChainId}

/-- After a block was finalized, every anchor is that block, or the lane is of another chain and
was there before. -/
theorem anchor_finalize (hnodup : ((pre ++ ⟨id, top?, q⟩ :: post).map (·.chain)).Nodup)
    {lane : Lane}
    (hl : lane ∈ (pre ++ ⟨id, some x, q ++ [x]⟩ :: post) ++ born.map (⟨·, some x, []⟩))
    {top : Block} (htop : top ∈ lane.anchor?) :
    top = x ∨ (lane.chain ≠ id ∧ lane ∈ pre ++ ⟨id, top?, q⟩ :: post) := by
  obtain ⟨hpre, hpost⟩ := not_mem_of_nodup hnodup
  rcases List.mem_append.1 hl with hl | hl
  · rcases List.mem_append.1 hl with hl | hl
    · exact Or.inr ⟨fun hid => hpre (List.mem_map.2 ⟨lane, hl, hid⟩), List.mem_append_left _ hl⟩
    · rcases List.mem_cons.1 hl with rfl | hl
      · exact Or.inl (Option.mem_some_iff.1 htop).symm
      · exact Or.inr ⟨fun hid => hpost (List.mem_map.2 ⟨lane, hl, hid⟩),
          List.mem_append_right _ (List.mem_cons_of_mem _ hl)⟩
  · obtain ⟨c, -, rfl⟩ := List.mem_map.1 hl
    exact Or.inl (Option.mem_some_iff.1 htop).symm

/-- The board after a new block was finalized. The block follows something that was there before,
hence not itself. -/
theorem Single.finalize (h : Single ⟨pre ++ ⟨id, some a, q⟩ :: post, fin, del⟩)
    (hnodup : ((pre ++ ⟨id, some a, q⟩ :: post).map (·.chain)).Nodup)
    (follows : Follows seen id a x) (hroot : x.id ≠ (Block.genesis .root).id)
    (hnew : x.id ∉ fin.map (·.2.id)) :
    Single ⟨(pre ++ ⟨id, some x, q ++ [x]⟩ :: post) ++ born.map (⟨·, some x, []⟩),
      fin ++ [(id, x)], del⟩ := by
  have hanchor := h.anchor _ (mem_middle pre post ⟨id, some a, q⟩) a rfl
  have hids : finalizedIds ⟨(pre ++ ⟨id, some x, q ++ [x]⟩ :: post) ++
      born.map (⟨·, some x, []⟩), fin ++ [(id, x)], del⟩ = fin.map (·.2.id) ++ [x.id] :=
    List.map_append
  refine { root_apart := ?_, anchor := ?_, parent := ?_, unfollowed := ?_, nodup := ?_ }
  · rw [hids]
    intro hmem
    rcases List.mem_append.1 hmem with hmem | hmem
    · exact h.root_apart hmem
    · exact hroot (List.mem_singleton.1 hmem).symm
  · intro lane hl top htop
    rw [hids]
    rcases anchor_finalize hnodup hl htop with rfl | ⟨-, hold⟩
    · exact Or.inr (List.mem_append_right _ (List.mem_singleton_self _))
    · exact (h.anchor lane hold top htop).imp_right fun hm => List.mem_append_left _ hm
  · intro entry he
    rw [hids]
    rcases List.mem_append.1 he with he | he
    · obtain ⟨p, hp, hfrom⟩ := h.parent entry he
      exact ⟨p, hp, hfrom.imp_right fun hm => List.mem_append_left _ hm⟩
    · rw [List.mem_singleton.1 he]
      exact ⟨a.id, follows.parent, hanchor.imp (congrArg Block.id)
        fun hm => List.mem_append_left _ hm⟩
  · intro lane hl top htop entry he hchain
    rcases List.mem_append.1 he with hearlier | hlast
    · rcases anchor_finalize hnodup hl htop with rfl | ⟨-, hold⟩
      · exact h.unfollowed_of_fresh hroot hnew entry hearlier
      · exact h.unfollowed lane hold top htop entry hearlier hchain
    · rw [List.mem_singleton.1 hlast] at hchain ⊢
      -- the new block does not follow itself, and it is of no other chain
      rcases anchor_finalize hnodup hl htop with rfl | ⟨hne, -⟩
      · intro hself
        rw [follows.parent, Option.some.injEq] at hself
        rcases hanchor with rfl | ha
        · exact hroot hself.symm
        · exact hnew (hself ▸ ha)
      · exact absurd hchain.symm hne
  · rw [hids]
    refine List.nodup_append.2 ⟨h.nodup, List.nodup_singleton _, ?_⟩
    rintro y hy z hz rfl
    exact hnew (List.mem_singleton.1 hz ▸ hy)

/-- Nothing happens to a lane but that its anchor may go, and its queue does not matter. -/
theorem Single.exchange {del' : List (ChainId × Block)} {top' : Option Block} {q' : List Block}
    (h : Single ⟨pre ++ ⟨id, top?, q⟩ :: post, fin, del⟩) (htop' : ∀ top ∈ top', top ∈ top?) :
    Single ⟨pre ++ ⟨id, top', q'⟩ :: post, fin, del'⟩ where
  root_apart := h.root_apart
  parent := h.parent
  nodup := h.nodup
  anchor lane hl top htop := by
    rcases mem_exchange hl with rfl | hold
    · exact h.anchor _ (mem_middle pre post ⟨id, top?, q⟩) top (htop' top htop)
    · exact h.anchor lane hold top htop
  unfollowed lane hl top htop := by
    rcases mem_exchange hl with rfl | hold
    · exact h.unfollowed _ (mem_middle pre post ⟨id, top?, q⟩) top (htop' top htop)
    · exact h.unfollowed lane hold top htop

theorem Single.close (h : Single ⟨pre ++ ⟨id, none, []⟩ :: post, fin, del⟩) :
    Single ⟨pre ++ post, fin, del⟩ where
  root_apart := h.root_apart
  parent := h.parent
  nodup := h.nodup
  anchor lane hl := h.anchor lane (mem_of_removed hl)
  unfollowed lane hl := h.unfollowed lane (mem_of_removed hl)

end

theorem Single.step (hcoherent : Coherent (Block.genesis .root :: seen)) {b b' : Board}
    (hadmitted : ∀ entry ∈ b.finalized, Admitted seen entry.1 entry.2) (hconserved : b.Conserved)
    (hs : Step seen b b') (h : b.Single) : b'.Single := by
  cases hs with
  | @finalize pre post fin del id a x q born follows nodup children fresh =>
    obtain ⟨hroot, hnew⟩ := h.fresh hcoherent hadmitted (mem_middle pre post _) rfl follows
    exact h.finalize hconserved.lanes_nodup follows hroot hnew
  | retire => exact h.exchange fun _ htop => (nomatch htop)
  | deliver => exact h.exchange fun _ htop => htop
  | close => exact h.close

/-- Where identities are not shared, no board that can be reached has finalized a block twice. -/
theorem single_of_steps (hcoherent : Coherent (Block.genesis .root :: seen)) {b : Board}
    (hs : Steps seen start b) : b.Single := by
  induction hs with
  | refl => exact single_start
  | tail hs hstep ih =>
    exact ih.step hcoherent (Steps.admitted hs) (Steps.conserved hs) hstep

end Board

end ShardLedger
