import ShardLedger.Proofs.Ledger.Arranged

/-!
# The lanes of a ledger

What a change to one chain of an arranged ledger does to the lanes: the lane of that chain is
exchanged, the lanes of new chains come last, and the others stay. A chain that finalizes a run of
blocks thereby makes steps on the board.

- `Ledger.Arranged.lanes_split`: the lane of a chain among the others.
- `Ledger.Arranged.change`: changes to the queue or the waiting blocks of a chain.
- `Ledger.Arranged.enter_grows`, `Ledger.Arranged.enter`: a chain finalizes a run of blocks.
-/

namespace ShardLedger

namespace Ledger

variable {seen : List Block} {l l' : Ledger} {id : ChainId} {c d : Chain} {born : List Chain}

/-- A list of chains around one of them, seen through any view. -/
theorem rows_split {α : Type} {order : List ChainId} (hnodup : order.Nodup) (hid : id ∈ order)
    (view : ChainId → Option α) : ∃ pre post : List α,
      ∀ view' : ChainId → Option α, (∀ a ∈ order, a ≠ id → view' a = view a) →
        order.filterMap view' = pre ++ ((view' id).toList ++ post) := by
  -- the order lists the chain once, so the lists before and after it do not change
  obtain ⟨before, after, rfl⟩ := List.append_of_mem hid
  obtain ⟨-, hafter, hdisj⟩ := List.nodup_append.1 hnodup
  refine ⟨before.filterMap view, after.filterMap view, fun view' hsame => ?_⟩
  have hbefore : before.filterMap view' = before.filterMap view := by
    refine List.filterMap_congr fun a ha => hsame a (List.mem_append_left _ ha) ?_
    exact hdisj a ha id (List.mem_cons_self ..)
  have hrest : after.filterMap view' = after.filterMap view := by
    refine List.filterMap_congr fun a ha => ?_
    refine hsame a (List.mem_append_right _ (List.mem_cons_of_mem _ ha)) ?_
    rintro rfl
    exact (List.nodup_cons.1 hafter).1 ha
  rw [List.filterMap_append, hbefore]
  congr 1
  cases hv : view' id with
  | none => rw [List.filterMap_cons_none hv, hrest]; rfl
  | some x => rw [List.filterMap_cons_some hv, hrest]; rfl

/-- The lane of a chain, as the order lists it. -/
def laneAt (l : Ledger) (id : ChainId) : Option Lane := (l.chain? id).map Lane.of

theorem laneAt_of_bare {a : ChainId}
    (h : (l'.chain? a).map Chain.bare = (l.chain? a).map Chain.bare) :
    l'.laneAt a = l.laneAt a := by
  have hbare : ∀ o : Option Chain, o.map Lane.of = (o.map Chain.bare).map Lane.of := by
    intro o
    cases o <;> rfl
  unfold laneAt
  rw [hbare, h, ← hbare]

/-- The lane of a chain among the others. Where the order is kept and no other lane changes, only
that lane is exchanged. -/
theorem Arranged.lanes_split (h : l.Arranged seen) (hid : id ∈ l.order) :
    ∃ pre post : List Lane, ∀ l' : Ledger,
      (∀ a ∈ l.order, a ≠ id → l'.laneAt a = l.laneAt a) →
        l.order.filterMap l'.laneAt = pre ++ ((l'.laneAt id).toList ++ post) := by
  obtain ⟨pre, post, hsplit⟩ := rows_split h.order_nodup hid l.laneAt
  exact ⟨pre, post, fun l' hsame => hsplit l'.laneAt hsame⟩

/-- The lanes after a change to one live chain. -/
theorem Grows.lanes (h : l.Arranged seen) (hg : Grows l l' id d born)
    (hb : Newborn seen l born) (hid : id ∈ l.order) (hc : l.root.chainAt id.path = some c) :
    ∃ pre post, l.lanes = pre ++ Lane.of c :: post ∧
      l'.lanes = pre ++ Lane.of d :: (post ++ born.map Lane.of) := by
  obtain ⟨pre, post, hsplit⟩ := h.lanes_split hid
  refine ⟨pre, post, ?_, ?_⟩
  · show l.order.filterMap l.laneAt = _
    rw [hsplit l fun _ _ _ => rfl]
    unfold laneAt
    rw [chain?_live hc]
    rfl
  · have hold := hsplit l' fun a ha hne =>
      laneAt_of_bare (hg.chain?_same h hb (h.mem_order id hid).1 ha hne)
    have hlane : l'.laneAt id = some (Lane.of d) := by
      obtain ⟨e, he, heq⟩ := Branch.bareAt_eq_some.1 hg.top
      unfold laneAt
      rw [chain?_live he, Option.map_some, ← Lane.of_bare e, heq]
      rfl
    -- the new chains come last, each with the lane that it starts with
    have hnew : (born.map (·.id)).filterMap l'.laneAt = born.map Lane.of := by
      rw [List.filterMap_map, ← List.filterMap_eq_map]
      refine List.filterMap_congr fun x hx => ?_
      obtain ⟨e, he, heq⟩ := Branch.bareAt_eq_some.1 (hg.newborn x hx)
      show l'.laneAt x.id = some (Lane.of x)
      unfold laneAt
      rw [chain?_live he, Option.map_some, ← Lane.of_bare e, heq]
      rfl
    show l'.order.filterMap l'.laneAt = _
    rw [hg.order, List.filterMap_append, hold, hlane, hnew, List.append_assoc]
    rfl

/-- No lane is that of a new chain. -/
theorem Newborn.lane_ne (h : l.Arranged seen) (hb : Newborn seen l born) :
    ∀ x ∈ born, ∀ lane ∈ l.lanes, lane.chain ≠ x.id := by
  intro x hx lane hl heq
  obtain ⟨a, ha, hlane⟩ := List.mem_filterMap.1 hl
  obtain ⟨e, he, rfl⟩ := Option.map_eq_some_iff.1 hlane
  have hea : e.id = a := h.chain?_id (h.mem_order a ha).1 he
  refine hb.not_mem_order h hx ?_
  rw [← heq]
  show e.id ∈ l.order
  rw [hea]
  exact ha

/-! ### Changing a live chain -/

/-- The ledger with another branch in the place of a live chain, and another roster. -/
def put (l : Ledger) (id : ChainId) (b : Branch) (roster : Roster) : Ledger :=
  { l with root := Branch.replace b id.path l.root, roster }

theorem put_put (l : Ledger) (id : ChainId) (b b' : Branch) (r r' : Roster) :
    (l.put id b r).put id b' r' = l.put id b' r' := by
  unfold put
  rw [Branch.replace_replace]

theorem put_self {b : Branch} (h : l.root.at? id.path = some b) : l.put id b l.roster = l := by
  unfold put
  rw [Branch.replace_self h]

theorem at?_put {b b' : Branch} {r : Roster} (h : l.root.at? id.path = some b) :
    (l.put id b' r).root.at? id.path = some b' := Branch.at?_replace h

/-- Along the path of the chain, the new branch is found. -/
theorem bareAt_put_on {b b' : Branch} {r : Roster} (h : l.root.at? id.path = some b)
    (s : List Side) : (l.put id b' r).root.bareAt (id.path ++ s) = b'.bareAt s := by
  show (Branch.chainAt (Branch.replace b' id.path l.root) _).map _ = _
  rw [Branch.chainAt_replace_on h]
  rfl

theorem bareAt_put_off {b' : Branch} {r : Roster} {p : List Side} (h : ¬id.path <+: p) :
    (l.put id b' r).root.bareAt p = l.root.bareAt p := by
  show (Branch.chainAt (Branch.replace b' id.path l.root) _).map _ = _
  rw [Branch.chainAt_replace_off h]
  rfl

theorem bareAt_append {b : Branch} (h : l.root.at? id.path = some b) (s : List Side) :
    l.root.bareAt (id.path ++ s) = b.bareAt s := by
  unfold Branch.bareAt
  rw [Branch.chainAt_append h]

theorem bareAt_put_top {b b' : Branch} {r : Roster} (h : l.root.at? id.path = some b) :
    (l.put id b' r).root.bareAt id.path = some b'.chain.bare := by
  have htop : (l.put id b' r).root.bareAt (id.path ++ []) = b'.bareAt [] := bareAt_put_on h []
  rw [List.append_nil, Branch.bareAt_nil] at htop
  exact htop

/-- A change to the topmost chain of a branch changes one chain of the ledger. -/
theorem grows_put {b b' : Branch} (h : l.root.at? id.path = some b)
    (htop : b'.chain.bare = d.bare) (hbelow : ∀ s ≠ [], b'.bareAt s = b.bareAt s) :
    Grows l (l.put id b' l.roster) id d [] where
  retired := rfl
  registered := rfl
  leaving := rfl
  linearizer := rfl
  spawned := (List.append_nil _).symm
  occupied := (List.append_nil _).symm
  top := (bareAt_put_top h).trans (congrArg some htop)
  newborn _ hx := nomatch hx
  rest p hp _ := by
    by_cases hprefix : id.path <+: p
    · obtain ⟨s, rfl⟩ := hprefix
      have hs : s ≠ [] := fun hs => hp (by rw [hs, List.append_nil])
      rw [bareAt_put_on h, hbelow s hs, bareAt_append h]
    · exact bareAt_put_off hprefix

/-- A split of the topmost chain of a branch changes one chain of the ledger and adds two. -/
theorem grows_split {rules : Rules} {b b₀ b' : Branch} {blocks : List Block} {r : Roster}
    {seed : Block} {left right : ChainId} {graph : ForkGraph} {cursor : Cursor}
    (hpos : 0 < id.number) (h : l.root.at? id.path = some b) (hid : b₀.chain.id = id)
    (htop : b'.chain.bare = d.bare) (hbelow : ∀ s ≠ [], b₀.bareAt s = b.bareAt s)
    (hs : Branch.SplitBy rules l.roster b₀ blocks b' r seed left right graph cursor) :
    Grows l (l.put id b' r) id d [Chain.start left seed graph .empty cursor,
      Chain.start right seed graph .empty cursor] := by
  have hleft : left.path = id.path ++ [.left] :=
    ChainId.child?_path hpos (hid ▸ hs.left_child)
  have hright : right.path = id.path ++ [.right] :=
    ChainId.child?_path hpos (hid ▸ hs.right_child)
  have hroster : r = { occupied := l.roster.occupied ++ [left, right]
                       spawned := l.roster.spawned ++ [left, right] } := by
    have := hs.reserved
    unfold Roster.reserve? at this
    split at this
    · cases this
    · exact (Option.some.inj this).symm
  refine
    { retired := rfl, registered := rfl, leaving := rfl, linearizer := rfl
      spawned := by rw [hroster]; rfl, occupied := by rw [hroster]; rfl
      top := ?_, newborn := fun x hx => ?_, rest := fun p hp hnew => ?_ }
  · exact (bareAt_put_top h).trans (congrArg some htop)
  · rcases List.mem_cons.1 hx with rfl | hx
    · show (l.put id b' r).root.bareAt left.path = _
      rw [hleft, bareAt_put_on h, hs.children _ (List.cons_ne_nil _ _), if_pos rfl]
      rfl
    · rw [List.mem_singleton] at hx
      subst hx
      show (l.put id b' r).root.bareAt right.path = _
      rw [hright, bareAt_put_on h, hs.children _ (List.cons_ne_nil _ _), if_neg (by simp),
        if_pos rfl]
      rfl
  · -- below the chain there was nothing, so only the two children are there now
    by_cases hprefix : id.path <+: p
    · obtain ⟨s, rfl⟩ := hprefix
      have hne : s ≠ [] := fun hs => hp (by rw [hs, List.append_nil])
      have hl : s ≠ [.left] := fun hs =>
        hnew _ (List.mem_cons_self ..) (by rw [hs]; exact hleft.symm)
      have hr : s ≠ [.right] := fun hs =>
        hnew _ (List.mem_cons_of_mem _ (List.mem_cons_self ..)) (by rw [hs]; exact hright.symm)
      rw [bareAt_put_on h, hs.children s hne, if_neg hl, if_neg hr, bareAt_append h,
        ← hbelow s hne, hs.isLeaf s hne]
    · exact bareAt_put_off hprefix

/-- The two chains of a split are new, and children of the chain that split. -/
theorem newborn_split {rules : Rules} {b₀ b' : Branch} {blocks : List Block} {r : Roster}
    {seed : Block} {left right : ChainId} {graph : ForkGraph} {cursor : Cursor}
    (hpos : 0 < b₀.chain.id.number)
    (hs : Branch.SplitBy rules l.roster b₀ blocks b' r seed left right graph cursor) :
    Newborn seen l [Chain.start left seed graph .empty cursor,
      Chain.start right seed graph .empty cursor] := by
  have hleft : left.number = 2 * b₀.chain.id.number := ChainId.child?_number hs.left_child
  have hright : right.number = 2 * b₀.chain.id.number + 1 := ChainId.child?_number hs.right_child
  have hfree : left ∉ l.roster.occupied ∧ right ∉ l.roster.occupied := by
    have := hs.reserved
    unfold Roster.reserve? at this
    split at this
    · cases this
    · rename_i hfree
      exact ⟨fun hl => hfree (Or.inr (Or.inl hl)), fun hr => hfree (Or.inr (Or.inr hr))⟩
  refine ⟨fun x hx => ⟨seed, ?_⟩, fun x hx => ?_, ?_, fun x hx => ?_⟩
  · rcases List.mem_cons.1 hx with rfl | hx
    · exact Chain.running_start hs.newGraph
    · rw [List.mem_singleton.1 hx]
      exact Chain.running_start hs.newGraph
  · rcases List.mem_cons.1 hx with rfl | hx
    · show 0 < left.number
      omega
    · rw [List.mem_singleton.1 hx]
      show 0 < right.number
      omega
  · show [left, right].Nodup
    refine List.nodup_cons.2 ⟨fun hmem => ?_, List.nodup_singleton _⟩
    rw [List.mem_singleton.1 hmem] at hleft
    omega
  · rcases List.mem_cons.1 hx with rfl | hx
    · exact hfree.1
    · rw [List.mem_singleton.1 hx]
      exact hfree.2

theorem chainAt_of_at? {b : Branch} (h : l.root.at? id.path = some b) :
    l.root.chainAt id.path = some b.chain := Branch.chainAt_of_at? h

/-- A chain that is found live has the number that was asked for, and is in the order. -/
theorem Arranged.live_id (h : l.Arranged seen) (hpos : 0 < id.number)
    (hc : l.root.chainAt id.path = some c) : c.id = id ∧ id ∈ l.order := by
  have hid := h.chain?_id hpos (chain?_live hc)
  exact ⟨hid, hid ▸ h.live_mem _ c hc⟩

/-- A live chain that changes without changing its lane leaves the lanes alone. -/
theorem Arranged.change {b : Branch} {top : Block} (h : l.Arranged seen) (hpos : 0 < id.number)
    (hb : l.root.at? id.path = some b) (hd : d.Running seen top)
    (hlane : Lane.of d = Lane.of b.chain) :
    (l.put id (b.withChain d) l.roster).Arranged seen ∧
      (l.put id (b.withChain d) l.roster).lanes = l.lanes := by
  have hc := chainAt_of_at? hb
  obtain ⟨hcid, hid⟩ := h.live_id hpos hc
  have hgrows : Grows l (l.put id (b.withChain d) l.roster) id d [] := by
    refine grows_put hb (by rw [Branch.chain_withChain]) fun s hs => ?_
    unfold Branch.bareAt
    rw [Branch.chainAt_withChain _ _ hs]
  have hnew := newborn_nil seen l
  have hdid : d.id = id := by
    have := congrArg Lane.chain hlane
    exact this.trans hcid
  refine ⟨h.grow hgrows hnew hid hc hd hdid, ?_⟩
  obtain ⟨pre, post, hpre, hpost⟩ := hgrows.lanes h hnew hid hc
  rw [hpre, hpost, hlane, List.map_nil, List.append_nil]

/-- The lane of a running chain that has let a block in. -/
theorem lane_enter {config : Config} {top : Block} {block : Block} {a : Chain.Applied}
    (hrun : c.Running seen top) (he : Chain.Entered seen c top block a) :
    Lane.of (a.outcome.1.enqueueAll config a.outcome.2) =
      ⟨c.id, some (a.outcome.2.getLastD top), c.undelivered ++ a.outcome.2⟩ := by
  obtain ⟨nextRank, permanent, heq⟩ := Chain.enqueueAll_eq config a.outcome.2 a.outcome.1
  rw [Lane.of_running (hrun.enter config he), heq]
  show (⟨a.outcome.1.id, _, a.outcome.1.undelivered ++ _⟩ : Lane) = _
  rw [he.rest]

/-- The lanes of two chains that start from one seed. -/
theorem lanes_newborn {config : Config} {seed : Block} {graph : ForkGraph} {cursor : Cursor}
    (hg : Chain.newGraph config seed.id = .ok graph) (left right : ChainId) :
    [Chain.start left seed graph .empty cursor, Chain.start right seed graph .empty cursor].map
      Lane.of = [left, right].map (⟨·, some seed, []⟩) := by
  have hborn : ∀ x, Lane.of (Chain.start x seed graph .empty cursor) = ⟨x, some seed, []⟩ :=
    fun x => @Lane.of_running [] _ _ (Chain.running_start hg)
  rw [List.map_cons, List.map_cons, hborn, hborn]
  rfl

/-- A live chain lets a block in: it moves on, and one of the blocks that it finalizes may be the
seed of two more chains. -/
theorem Arranged.enter_grows {rules : Rules} {b b' : Branch} {r : Roster} {block top : Block}
    {a : Chain.Applied} (h : l.Arranged seen) (hpos : 0 < id.number)
    (hb : l.root.at? id.path = some b) (he : Chain.Entered seen b.chain top block a)
    (hs : Branch.Settled rules l.roster (b.withChain a.outcome.1) a.outcome.2 b' r) :
    ∃ born, Grows l (l.put id b' r) id (a.outcome.1.enqueueAll rules.config a.outcome.2) born ∧
      Newborn seen l born ∧
      (born = [] ∨ ∃ seed left right graph cursor before after,
        a.outcome.2 = before ++ seed :: after ∧
        Chain.newGraph rules.config seed.id = .ok graph ∧
        born = [Chain.start left seed graph .empty cursor,
          Chain.start right seed graph .empty cursor] ∧
        id.child? .left = some left ∧ id.child? .right = some right) := by
  obtain ⟨hcid, hid⟩ := h.live_id hpos (chainAt_of_at? hb)
  have htop : b'.chain.bare = (a.outcome.1.enqueueAll rules.config a.outcome.2).bare := by
    have := hs.top
    rw [Branch.chain_withChain] at this
    rw [this, Chain.enqueueAll_bare]
  have hbelow : ∀ s ≠ [], (b.withChain a.outcome.1).bareAt s = b.bareAt s := fun s hne => by
    unfold Branch.bareAt
    rw [Branch.chainAt_withChain _ _ hne]
  rcases hs.below with ⟨rfl, hkept⟩ | ⟨seed, left, right, graph, cursor, hsplit⟩
  · exact ⟨[], grows_put hb htop fun s hne => (hkept s hne).trans (hbelow s hne),
      newborn_nil seen l, Or.inl rfl⟩
  · have htopid : (b.withChain a.outcome.1).chain.id = id := by
      rw [Branch.chain_withChain, he.rest]
      exact hcid
    obtain ⟨before, after, hblocks⟩ := hsplit.seeded
    exact ⟨_, grows_split hpos hb htopid htop hbelow hsplit,
      newborn_split (by rw [htopid]; exact hpos) hsplit,
      Or.inr ⟨seed, left, right, graph, cursor, before, after, hblocks, hsplit.newGraph, rfl,
        htopid ▸ hsplit.left_child, htopid ▸ hsplit.right_child⟩⟩

/-- A live chain lets a block in: the ledger stays arranged, and what the chain finalizes goes onto
the board. -/
theorem Arranged.enter {rules : Rules} {b b' : Branch} {r : Roster} {block top : Block}
    {a : Chain.Applied} (h : l.Arranged seen) (hpos : 0 < id.number)
    (hb : l.root.at? id.path = some b) (hrun : b.chain.Running seen top)
    (he : Chain.Entered seen b.chain top block a)
    (hs : Branch.Settled rules l.roster (b.withChain a.outcome.1) a.outcome.2 b' r)
    (fin del : List (ChainId × Block)) :
    (l.put id b' r).Arranged seen ∧ Board.Steps seen ⟨l.lanes, fin, del⟩
      ⟨(l.put id b' r).lanes, fin ++ a.outcome.2.map (id, ·), del⟩ := by
  have hc := chainAt_of_at? hb
  obtain ⟨hcid, hid⟩ := h.live_id hpos hc
  -- the lane before and after
  have hlane : Lane.of b.chain = ⟨id, some top, b.chain.undelivered⟩ := by
    rw [Lane.of_running hrun, hcid]
  have hlane' := @lane_enter _ _ rules.config _ _ _ hrun he
  rw [hcid] at hlane'
  have hdid : (a.outcome.1.enqueueAll rules.config a.outcome.2).id = id :=
    (congrArg Lane.chain hlane' :)
  have hlinks : Links seen id top a.outcome.2 := hcid ▸ he.links
  obtain ⟨born, hgrows, hnew, hborn⟩ := h.enter_grows hpos hb he hs
  refine ⟨h.grow hgrows hnew hid hc (hrun.enter rules.config he) hdid, ?_⟩
  obtain ⟨pre, post, hpre, hpost⟩ := hgrows.lanes h hnew hid hc
  -- either the chain moves on alone, or one of the blocks is the seed of two more chains
  rcases hborn with rfl | ⟨seed, left, right, graph, cursor, before, after, hblocks, hgraph, rfl,
    hleft, hright⟩
  · rw [hpre, hpost, hlane, hlane', List.map_nil, List.append_nil]
    exact Board.Steps.finalizeAll hlinks
  · have hfresh := hnew.lane_ne h
    rw [hpre, hlane] at hfresh ⊢
    rw [hpost, lanes_newborn hgraph, hlane', hblocks]
    refine Board.Steps.finalizeSplit (hblocks ▸ hlinks) hnew.nodup (fun x hx => ?_) fun x hx => ?_
    · rcases List.mem_cons.1 hx with rfl | hx
      · exact ChainId.child?_parent? hpos hleft
      · rw [List.mem_singleton.1 hx]
        exact ChainId.child?_parent? hpos hright
    · rcases List.mem_cons.1 hx with rfl | hx
      · exact hfresh _ (List.mem_cons_self ..)
      · rw [List.mem_singleton.1 hx]
        exact hfresh _ (List.mem_cons_of_mem _ (List.mem_cons_self ..))

end Ledger

end ShardLedger
