import ShardLedger.Proofs.Order.Board

/-!
# Parents come first

Reading what was delivered and then the queues, lane by lane, every block comes after its parent.
A parent may be tied in rank with its child, so ranks alone do not place it: what does is that a
chain stands before the chains that were split off from it, and that among equal ranks the first
lane is served first.

- `Descends`: a block and its parent, on its own chain or on the one that chain was split off from.
- `Board.Ancestral`: the invariant.
-/

namespace ShardLedger

/-- Block `x` names `p`, which stands on its chain or on the chain that one was split off from. -/
structure Descends (p x : Block) : Prop where
  parent : x.parent? = some p.id
  chain : p.chain = x.chain ∨ x.chain.parent? = some p.chain
  rank_le : p.rank.next ≤ x.rank.current

/-- The block is the first of the root chain, or descends from a known one. -/
def Rooted (known : List Block) (x : Block) : Prop :=
  x.parent? = some (Block.genesis .root).id ∨ ∃ p ∈ known, Descends p x

/-- Every block of the list descends from a known one or an earlier one of the list. -/
def ParentsFirst : List Block → List Block → Prop
  | _, [] => True
  | known, x :: rest => Rooted known x ∧ ParentsFirst (known ++ [x]) rest

theorem Rooted.mono {known more : List Block} {x : Block} (h : Rooted known x)
    (hsub : known ⊆ more) : Rooted more x :=
  h.imp_right fun ⟨p, hp, hd⟩ => ⟨p, hsub hp, hd⟩

/-- What is added at the end keeps one list inside the other. -/
theorem subset_append {known more : List Block} (h : known ⊆ more) (xs : List Block) :
    known ++ xs ⊆ more ++ xs :=
  List.append_subset.2 ⟨List.subset_append_of_subset_left _ h, List.subset_append_right _ _⟩

theorem ParentsFirst.mono : ∀ {xs known more : List Block}, ParentsFirst known xs →
    known ⊆ more → ParentsFirst more xs
  | [], _, _, _, _ => trivial
  | _ :: _, _, _, h, hsub => ⟨h.1.mono hsub, h.2.mono (subset_append hsub _)⟩

theorem parentsFirst_append : ∀ {xs ys known : List Block},
    ParentsFirst known (xs ++ ys) ↔ ParentsFirst known xs ∧ ParentsFirst (known ++ xs) ys
  | [], ys, known => by
    rw [List.nil_append, List.append_nil]
    exact (and_iff_right trivial).symm
  | x :: xs, ys, known => by
    show Rooted known x ∧ ParentsFirst (known ++ [x]) (xs ++ ys) ↔
      (Rooted known x ∧ ParentsFirst (known ++ [x]) xs) ∧ _
    rw [parentsFirst_append, List.append_assoc, List.singleton_append, and_assoc]

/-- A rooted block may be put in anywhere. -/
theorem ParentsFirst.insert {xs ys known : List Block} {x : Block}
    (h : ParentsFirst known (xs ++ ys)) (hx : Rooted (known ++ xs) x) :
    ParentsFirst known (xs ++ x :: ys) := by
  obtain ⟨hxs, hys⟩ := parentsFirst_append.1 h
  exact parentsFirst_append.2 ⟨hxs, hx, hys.mono (List.subset_append_left _ _)⟩

/-- A block may be moved ahead of blocks that it does not descend from. -/
theorem ParentsFirst.advance {xs mid ys known : List Block} {x : Block}
    (h : ParentsFirst known (xs ++ mid ++ x :: ys)) (hx : ∀ p ∈ mid, ¬Descends p x) :
    ParentsFirst known (xs ++ x :: (mid ++ ys)) := by
  obtain ⟨hfront, hback⟩ := parentsFirst_append.1 h
  obtain ⟨hroot, hys⟩ := hback
  -- what the block descends from is not among those that it passes
  have hrooted : Rooted (known ++ xs) x := by
    refine hroot.imp_right fun ⟨p, hp, hd⟩ => ⟨p, ?_, hd⟩
    rw [← List.append_assoc] at hp
    exact (List.mem_append.1 hp).resolve_right fun hmid => hx p hmid hd
  have hmoved := hfront.insert hrooted
  rw [← List.cons_append, ← List.append_assoc]
  refine parentsFirst_append.2 ⟨hmoved, hys.mono ?_⟩
  intro p hp
  simp only [List.mem_append, List.mem_cons, List.not_mem_nil, or_false] at hp ⊢
  tauto

/-- Where parents come first, every block of the list comes after its parent. -/
theorem ParentsFirst.rooted {pre post known : List Block} {x : Block}
    (h : ParentsFirst known (pre ++ x :: post)) : Rooted (known ++ pre) x :=
  (parentsFirst_append.1 h).2.1

namespace Board

variable {seen : List Block}

/-- Every anchor is the genesis, or is known, or stands in its own lane or one before it; and it
is of the lane's chain or of the one that chain was split off from. -/
def Anchored : List Block → List Lane → Prop
  | _, [] => True
  | known, lane :: rest =>
    (∀ top ∈ lane.anchor?, top = Block.genesis .root ∨ (top ∈ known ++ lane.queue ∧
      (top.chain = lane.chain ∨ lane.chain.parent? = some top.chain))) ∧
    Anchored (known ++ lane.queue) rest

theorem Anchored.mono : ∀ {lanes : List Lane} {known more : List Block}, Anchored known lanes →
    known ⊆ more → Anchored more lanes
  | [], _, _, _, _ => trivial
  | _ :: _, _, _, h, hsub =>
    have happend := subset_append hsub _
    ⟨fun top htop => (h.1 top htop).imp_right fun ⟨hm, hc⟩ => ⟨happend hm, hc⟩,
      h.2.mono happend⟩

theorem anchored_append : ∀ {xs ys : List Lane} {known : List Block},
    Anchored known (xs ++ ys) ↔ Anchored known xs ∧ Anchored (known ++ queued xs) ys
  | [], ys, known => by
    rw [List.nil_append, show queued [] = [] from rfl, List.append_nil]
    exact (and_iff_right trivial).symm
  | lane :: xs, ys, known => by
    rw [show queued (lane :: xs) = lane.queue ++ queued xs from rfl]
    show _ ∧ Anchored (known ++ lane.queue) (xs ++ ys) ↔
      (_ ∧ Anchored (known ++ lane.queue) xs) ∧ _
    rw [anchored_append, List.append_assoc, and_assoc]

/-- The order of a board. -/
structure Ancestral (b : Board) : Prop where
  blocks : ParentsFirst [] (b.delivered.map (·.2) ++ queued b.lanes)
  ordered : ∀ lane ∈ b.lanes, ∀ x ∈ lane.queue, x.rank.current ≤ x.rank.next
  anchored : Anchored (b.delivered.map (·.2)) b.lanes

theorem ancestral_start : start.Ancestral where
  blocks := trivial
  ordered lane hl x hx := by
    rw [List.mem_singleton.1 hl] at hx
    cases hx
  anchored := by
    refine ⟨fun top htop => Or.inl ?_, trivial⟩
    exact (Option.mem_some_iff.1 htop).symm

theorem anchored_newborn {known : List Block} {top : Block} (htop : top ∈ known) :
    ∀ {born : List ChainId}, (∀ c ∈ born, c.parent? = some top.chain) →
      Anchored known (born.map (⟨·, some top, []⟩))
  | [], _ => trivial
  | c :: born, h => by
    refine ⟨fun t ht => Or.inr ?_, ?_⟩
    · rw [Option.mem_some_iff] at ht
      subst ht
      exact ⟨List.mem_append_left _ htop, Or.inr (h c (List.mem_cons_self ..))⟩
    · rw [List.append_nil]
      exact anchored_newborn htop fun c' hc' => h c' (List.mem_cons_of_mem _ hc')

section

variable {pre post : List Lane} {fin del : List (ChainId × Block)} {id : ChainId}
  {top? : Option Block} {a x : Block} {q : List Block}

/-- A block comes after the anchor that it follows, and the chains that are split off from it
stand behind its own chain. -/
theorem Ancestral.finalize (h : Ancestral ⟨pre ++ ⟨id, some a, q⟩ :: post, fin, del⟩)
    (follows : Follows seen id a x) {born : List ChainId}
    (children : ∀ c ∈ born, c.parent? = some id) :
    Ancestral ⟨pre ++ ⟨id, some x, q ++ [x]⟩ :: post ++ born.map (⟨·, some x, []⟩),
      fin ++ [(id, x)], del⟩ := by
  have hblocks := h.blocks
  obtain ⟨hpre, hlane, hpost⟩ := anchored_append.1 h.anchored
  -- the anchor that the block follows is known, or stands in the queue or before it
  have hrooted : Rooted (del.map (·.2) ++ (queued pre ++ q)) x := by
    rcases hlane a rfl with rfl | ⟨ha, hchain⟩
    · exact Or.inl follows.parent
    · rw [← List.append_assoc]
      refine Or.inr ⟨a, ha, follows.parent, ?_, follows.rank_le⟩
      rw [follows.chain]
      exact hchain
  refine ⟨?_, fun lane hl y hy => ?_, ?_⟩
  · rw [queued_newborn, queued_middle]
    rw [queued_middle, ← List.append_assoc, ← List.append_assoc, List.append_assoc _ _ q]
      at hblocks
    have := hblocks.insert (x := x) (by rwa [List.nil_append])
    simpa only [List.append_assoc, List.singleton_append] using this
  · rcases List.mem_append.1 hl with hl | hl
    · rcases mem_exchange hl with rfl | hold
      · rcases List.mem_append.1 hy with hy | hy
        · exact h.ordered _ (mem_middle pre post ⟨id, some a, q⟩) y hy
        · rw [List.mem_singleton.1 hy]
          exact follows.ordered
      · exact h.ordered lane hold y hy
    · obtain ⟨c, -, rfl⟩ := List.mem_map.1 hl
      cases hy
  · rw [List.append_assoc, List.cons_append]
    refine anchored_append.2 ⟨hpre, fun top htop => Or.inr ?_, anchored_append.2 ⟨?_, ?_⟩⟩
    · rw [Option.mem_some_iff] at htop
      subst htop
      exact ⟨by simp, Or.inl follows.chain⟩
    · refine hpost.mono fun p hp => ?_
      simp only [List.mem_append] at hp ⊢
      tauto
    · exact anchored_newborn (by simp) fun c hc => follows.chain ▸ children c hc

theorem Ancestral.retire (h : Ancestral ⟨pre ++ ⟨id, top?, q⟩ :: post, fin, del⟩) :
    Ancestral ⟨pre ++ ⟨id, none, q⟩ :: post, fin, del⟩ := by
  have hblocks := h.blocks
  obtain ⟨hpre, -, hpost⟩ := anchored_append.1 h.anchored
  refine ⟨?_, fun lane hl y hy => ?_, ?_⟩
  · rw [queued_middle] at hblocks ⊢
    exact hblocks
  · rcases mem_exchange hl with rfl | hold
    · exact h.ordered _ (mem_middle pre post ⟨id, top?, q⟩) y hy
    · exact h.ordered lane hold y hy
  · exact anchored_append.2 ⟨hpre, fun _ htop => (nomatch htop), hpost⟩

/-- The lanes before the one that is served hold no parent of its head, which ranks below all
that they hold. -/
theorem Ancestral.not_descends (h : Ancestral ⟨pre ++ ⟨id, top?, x :: q⟩ :: post, fin, del⟩)
    (hranked : Ranked ⟨pre ++ ⟨id, top?, x :: q⟩ :: post, fin, del⟩)
    (before : ∀ lane ∈ pre, ∀ h ∈ lane.queue.head?, x.rank.current < h.rank.current) :
    ∀ p ∈ queued pre, ¬Descends p x := by
  intro p hp hd
  obtain ⟨lane, hl, hp⟩ := List.mem_flatMap.1 hp
  have hl' : lane ∈ pre ++ ⟨id, top?, x :: q⟩ :: post := List.mem_append_left _ hl
  obtain ⟨y, hy⟩ : ∃ y, y ∈ lane.queue.head? := by
    cases hq : lane.queue with
    | nil =>
      rw [hq] at hp
      cases hp
    | cons y rest => exact ⟨y, rfl⟩
  -- the head ranks below all of that lane, and a parent asks for a rank no lower than its own
  have hlt := UInt64.lt_of_lt_of_le (before lane hl y hy) ((hranked.lanes lane hl').head_le hp hy)
  exact UInt64.not_le.2 hlt (UInt64.le_trans (h.ordered lane hl' p hp) hd.rank_le)

/-- The head that is delivered does not overtake its parent. -/
theorem Ancestral.deliver (h : Ancestral ⟨pre ++ ⟨id, top?, x :: q⟩ :: post, fin, del⟩)
    (habove : ∀ p ∈ queued pre, ¬Descends p x) :
    Ancestral ⟨pre ++ ⟨id, top?, q⟩ :: post, fin, del ++ [(id, x)]⟩ := by
  have hblocks := h.blocks
  obtain ⟨hpre, hlane, hpost⟩ := anchored_append.1 h.anchored
  -- what was delivered or queued up to this lane still is
  have hmem : del.map (·.2) ++ (queued pre ++ (x :: q)) ⊆
      (del ++ [(id, x)]).map (·.2) ++ (queued pre ++ q) := by
    intro p hp
    simp only [List.map_append, List.map_cons, List.map_nil, List.mem_append, List.mem_cons,
      List.not_mem_nil, or_false] at hp ⊢
    tauto
  rw [List.append_assoc] at hlane hpost
  refine ⟨?_, fun lane hl y hy => ?_, ?_⟩
  · rw [queued_middle] at hblocks ⊢
    rw [← List.append_assoc, List.cons_append] at hblocks
    have := hblocks.advance habove
    rw [List.map_append]
    simpa only [List.append_assoc, List.singleton_append, List.map_cons, List.map_nil] using this
  · rcases mem_exchange hl with rfl | hold
    · exact h.ordered _ (mem_middle pre post ⟨id, top?, x :: q⟩) y (List.mem_cons_of_mem _ hy)
    · exact h.ordered lane hold y hy
  · refine anchored_append.2 ⟨hpre.mono ?_, fun top htop => ?_, ?_⟩
    · rw [List.map_append]
      exact List.subset_append_left _ _
    · rw [List.append_assoc]
      exact (hlane top htop).imp_right fun ⟨hm, hc⟩ => ⟨hmem hm, hc⟩
    · rw [List.append_assoc]
      exact hpost.mono hmem

theorem Ancestral.close (h : Ancestral ⟨pre ++ ⟨id, none, []⟩ :: post, fin, del⟩) :
    Ancestral ⟨pre ++ post, fin, del⟩ := by
  have hblocks := h.blocks
  obtain ⟨hpre, -, hpost⟩ := anchored_append.1 h.anchored
  refine ⟨?_, fun lane hl => h.ordered lane (mem_of_removed hl), ?_⟩
  · rw [queued_middle] at hblocks
    rw [queued_append]
    exact hblocks
  · rw [List.append_nil] at hpost
    exact anchored_append.2 ⟨hpre, hpost⟩

end

theorem Ancestral.step {b b' : Board} (hranked : b.Ranked) (hs : Step seen b b')
    (h : b.Ancestral) : b'.Ancestral := by
  cases hs with
  | finalize born follows nodup children fresh => exact h.finalize follows children
  | retire => exact h.retire
  | deliver before after settled => exact h.deliver (h.not_descends hranked before)
  | close => exact h.close

/-- On every board that can be reached, parents come first. -/
theorem Steps.ancestral {b : Board} (hs : Steps seen start b) : b.Ancestral := by
  induction hs with
  | refl => exact ancestral_start
  | tail hs hstep ih => exact ih.step (Steps.ranked hs) hstep

end Board

end ShardLedger
