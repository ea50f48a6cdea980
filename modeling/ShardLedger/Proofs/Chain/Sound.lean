import Mathlib.Data.List.Basic
import ShardLedger.Proofs.Fork.Adding
import ShardLedger.Proofs.Fork.Waiting
import ShardLedger.Proofs.Tree.Verdicts

/-!
# Sound chains

A chain is sound if its fork graph is a tree, it knows the block of every live node, and every
block stands below the block that it names, ranked no lower than that one asks for. Whatever a
chain is given keeps it sound.

- `Follows`, `Links`: a block after another one, and a run of such blocks.
- `Chain.Sound`: the invariant.
- `Chain.apply_entered`: what the entry of a block does to a sound chain. The blocks that it
  finalizes are linked, from the old anchor to the new one.
-/

namespace ShardLedger

/-- A block that was seen and may stand on chain `id`. -/
structure Admitted (seen : List Block) (id : ChainId) (b : Block) : Prop where
  mem : b ∈ seen
  chain : b.chain = id
  ordered : b.rank.current ≤ b.rank.next

theorem Admitted.mono {seen seen' : List Block} {id : ChainId} {b : Block}
    (h : Admitted seen id b) (hsub : seen ⊆ seen') : Admitted seen' id b :=
  ⟨hsub h.mem, h.chain, h.ordered⟩

/-- Block `b` was seen, and may stand right after block `a` on chain `id`. -/
structure Follows (seen : List Block) (id : ChainId) (a b : Block) : Prop
    extends Admitted seen id b where
  parent : b.parent? = some a.id
  rank_le : a.rank.next ≤ b.rank.current

/-- A run of blocks, the first of them after `a` and each of the others after its predecessor. -/
def Links (seen : List Block) (id : ChainId) : Block → List Block → Prop
  | _, [] => True
  | a, b :: rest => Follows seen id a b ∧ Links seen id b rest

theorem getLastD_append {α : Type} (xs ys : List α) (a : α) :
    (xs ++ ys).getLastD a = ys.getLastD (xs.getLastD a) := by
  simp [List.getLastD_eq_getLast?]

theorem links_append {seen : List Block} {id : ChainId} : ∀ {xs ys : List Block} {a : Block},
    Links seen id a (xs ++ ys) ↔ Links seen id a xs ∧ Links seen id (xs.getLastD a) ys
  | [], _, _ => (and_iff_right trivial).symm
  | x :: xs, ys, a => by
    show _ ∧ Links seen id x (xs ++ ys) ↔ (_ ∧ Links seen id x xs) ∧ _
    rw [links_append, and_assoc, List.getLastD_cons]

/-- Every block of a run was admitted. -/
theorem Links.admitted {seen : List Block} {id : ChainId} : ∀ {xs : List Block} {a : Block},
    Links seen id a xs → ∀ b ∈ xs, Admitted seen id b
  | x :: _, _, h, b, hb => by
    rcases List.mem_cons.1 hb with rfl | hb
    · exact h.1.toAdmitted
    · exact h.2.admitted b hb

/-- A run after a block that asks for so high a rank keeps to it. -/
theorem Links.above {seen : List Block} {id : ChainId} {xs : List Block} {a : Block} {v : UInt64}
    (h : Links seen id a xs) (hv : v ≤ a.rank.next) :
    (∀ b ∈ xs, v ≤ b.rank.current) ∧ ∀ b ∈ a :: xs, v ≤ b.rank.next := by
  induction xs generalizing a with
  | nil => exact ⟨fun _ hb => (nomatch hb), by simpa using hv⟩
  | cons x rest ih =>
    have hcurrent := UInt64.le_trans hv h.1.rank_le
    have hnext := UInt64.le_trans hcurrent h.1.ordered
    obtain ⟨hcurrents, hnexts⟩ := ih h.2 hnext
    refine ⟨fun b hb => ?_, fun b hb => ?_⟩
    · rcases List.mem_cons.1 hb with rfl | hb
      · exact hcurrent
      · exact hcurrents b hb
    · rcases List.mem_cons.1 hb with rfl | hb
      · exact hv
      · exact hnexts b hb

/-- Whoever follows the blocks down a path meets a linked run. -/
theorem links_of_path {seen : List Block} {id : ChainId} {below : BlockId → BlockId → Prop}
    {find : BlockId → Option Block}
    (hfollows : ∀ n p, below n p → ∀ a, find p = some a →
      ∃ b, find n = some b ∧ b.id = n ∧ Follows seen id a b) :
    ∀ {top : BlockId} {ns : List BlockId} {a : Block}, ForkGraph.Path below top ns →
      find top = some a →
      Links seen id a (ns.filterMap find) ∧ (ns.filterMap find).map (·.id) = ns ∧
        find (ns.getLastD top) = some ((ns.filterMap find).getLastD a)
  | top, [], a, _, ha => ⟨trivial, rfl, ha⟩
  | top, n :: rest, a, hpath, ha => by
    -- one step down the path, then the rest of it from the block found there
    obtain ⟨b, hb, hid, hab⟩ := hfollows n top hpath.1 a ha
    obtain ⟨hlinks, hids, hlast⟩ := links_of_path hfollows hpath.2 hb
    rw [List.filterMap_cons_some hb]
    refine ⟨⟨hab, hlinks⟩, ?_, ?_⟩
    · rw [List.map_cons, hids, hid]
    · rw [List.getLastD_cons, List.getLastD_cons]
      exact hlast

namespace Chain

/-- The invariant of a chain, whose blocks all come from `seen` but for the one that it started
from. -/
structure Sound (seen : List Block) (c : Chain) : Prop where
  isTree : c.graph.IsTree
  blocks_live : ∀ n : BlockId, (∃ b, c.blocks[n]? = some b) ↔ c.graph.Live n
  blocks_id : ∀ (n : BlockId) (b : Block), c.blocks[n]? = some b → b.id = n
  linked : ∀ n p, c.graph.Under n p → ∀ a b, c.blocks[p]? = some a → c.blocks[n]? = some b →
    Follows seen c.id a b
  priority : c.graph.IsLeaf c.graph.priorityTip
  waiting : c.backlog.All (Admitted seen c.id)

section

variable {seen : List Block} {c : Chain} {block : Block} {parent : BlockId}

/-- What is not live has no block. -/
theorem Sound.not_held (h : c.Sound seen) {n : BlockId} (hn : ¬c.graph.Live n) :
    c.blocks[n]? = none := by
  cases hold : c.blocks[n]? with
  | none => rfl
  | some b => exact absurd ((h.blocks_live n).1 ⟨b, hold⟩) hn

/-- Soundness looks at nothing but the number, the graph, its blocks and the waiting ones. -/
theorem Sound.congr {c' : Chain} (h : c.Sound seen) (hid : c'.id = c.id)
    (hgraph : c'.graph = c.graph) (hblocks : c'.blocks = c.blocks)
    (hwaiting : c'.backlog.All (Admitted seen c'.id)) : c'.Sound seen where
  isTree := hgraph ▸ h.isTree
  blocks_live := by rw [hgraph, hblocks]; exact h.blocks_live
  blocks_id := by rw [hblocks]; exact h.blocks_id
  linked := by rw [hgraph, hblocks, hid]; exact h.linked
  priority := hgraph ▸ h.priority
  waiting := hwaiting

/-- A chain that has just started. -/
theorem sound_start {config : Config} {id : ChainId} {genesis : Block} {graph : ForkGraph}
    {content : ContentStore} {cursor : Cursor} (hg : newGraph config genesis.id = .ok graph) :
    (start id genesis graph content cursor).Sound seen := by
  have hfresh := ForkGraph.create_fresh hg
  have hblocks : ∀ n : BlockId, (start id genesis graph content cursor).blocks[n]? =
      if genesis.id = n then some genesis else none := by
    intro n
    show ((∅ : BlockMap Block).insert genesis.id genesis)[n]? = _
    rw [Lookup.get_insert, Std.ExtTreeMap.getElem?_empty]
  refine { isTree := hfresh.isTree, blocks_live := ?_, blocks_id := ?_
           linked := fun n p hu => absurd hu hfresh.not_under
           priority := hfresh.isLeaf, waiting := Backlog.all_empty }
  · intro n
    show _ ↔ ∃ node, graph.nodes[n]? = some node
    rw [hblocks, hfresh.nodes]
    by_cases hn : genesis.id = n
    · rw [if_pos hn, if_pos hn]
      exact ⟨fun _ => ⟨_, rfl⟩, fun _ => ⟨_, rfl⟩⟩
    · rw [if_neg hn, if_neg hn]
      exact ⟨fun ⟨_, h⟩ => (nomatch h), fun ⟨_, h⟩ => (nomatch h)⟩
  · intro n b hb
    rw [hblocks] at hb
    split at hb
    · rw [Option.some.injEq] at hb
      rw [← hb]
      assumption
    · cases hb

/-! ### Screening and receiving -/

/-- What passes the screen is admitted, and names its parent. -/
theorem admitted_of_screen {rules : Rules} {id : ChainId} (hb : block ∈ seen)
    (h : screen rules id block = .ok parent) :
    Admitted seen id block ∧ block.parent? = some parent := by
  obtain ⟨hparent, hchain, hrank, -⟩ := screen_eq_ok.1 h
  exact ⟨⟨hb, hchain, hrank⟩, hparent⟩

/-- What is admitted to a chain and accepted passes the screen. -/
theorem screen_of_admitted {rules : Rules} {id : ChainId} (h : Admitted seen id block)
    (haccepts : rules.accepts block = true) (hparent : block.parent? = some parent) :
    screen rules id block = .ok parent :=
  screen_eq_ok.2 ⟨hparent, h.chain, h.ordered, haccepts⟩

/-- Receiving a block changes what waits and nothing else. All that is released was admitted. -/
theorem receive_spec (parent : BlockId) (h : c.Sound seen) (hb : Admitted seen c.id block) :
    ∃ backlog buffered, (c.receive block parent).1 = { c with backlog, buffered } ∧
      ({ c with backlog, buffered } : Chain).Sound seen ∧
      ∀ blocks, (c.receive block parent).2 = .released blocks →
        ∀ b ∈ blocks, Admitted seen c.id b := by
  have hreceived : Received c block parent (c.receive block parent).1 (c.receive block parent).2 :=
    received rfl
  generalize (c.receive block parent).1 = d, (c.receive block parent).2 = verdict at hreceived ⊢
  cases hreceived with
  | retired => exact ⟨c.backlog, c.buffered, rfl, h, fun _ hxs => nomatch hxs⟩
  | known => exact ⟨c.backlog, c.buffered, rfl, h, fun _ hxs => nomatch hxs⟩
  | stale => exact ⟨c.backlog, c.buffered, rfl, h, fun _ hxs => nomatch hxs⟩
  | buffered =>
    exact ⟨_, _, rfl, h.congr rfl rfl rfl (Backlog.All.enlist hb _ h.waiting),
      fun _ hxs => nomatch hxs⟩
  | below =>
    exact ⟨_, _, rfl, h.congr rfl rfl rfl (h.waiting.discard block), fun _ hxs => nomatch hxs⟩
  | released =>
    obtain ⟨hwaiting, hready⟩ := h.waiting.release hb
    refine ⟨_, _, rfl, h.congr rfl rfl rfl hwaiting, fun blocks hblocks => ?_⟩
    cases hblocks
    exact hready

/-- Giving up waiting blocks changes what waits and nothing else. -/
theorem discardPending_spec (id : BlockId) :
    ∃ backlog buffered, (c.discardPending id).1 = { c with backlog, buffered } ∧
      (c.Sound seen → ({ c with backlog, buffered } : Chain).Sound seen) := by
  unfold discardPending
  split
  · exact ⟨c.backlog, c.buffered, rfl, fun h => h⟩
  · exact ⟨_, _, rfl, fun h => h.congr rfl rfl rfl (h.waiting.discard _)⟩

/-! ### Entering -/

/-- What the entry of block `b` does to a sound chain `c` with anchor block `top`. -/
structure Entered (seen : List Block) (c : Chain) (top : Block) (b : Block) (a : Applied) :
    Prop where
  /-- Only the graph and the live blocks change. -/
  rest : a.outcome.1 = { c with graph := a.chain.graph, blocks := a.outcome.1.blocks }
  sound : a.outcome.1.Sound seen
  ids : a.outcome.2.map (·.id) = a.step.finalized
  links : Links seen c.id top a.outcome.2
  anchor : a.outcome.1.blocks[a.chain.graph.anchor]? = some (a.outcome.2.getLastD top)
  fresh : c.blocks[b.id]? = none

/-- What `apply` did, if it let the block in. -/
theorem apply_eq_some {a : Applied} (h : c.apply block = some a) :
    ∃ parent above node graph, block.parent? = some parent ∧ c.blocks[parent]? = some above ∧
      above.rank.next ≤ block.rank.current ∧ c.graph.nodes[parent]? = some node ∧
      c.graph.add block.id parent block.weight.toNat = .ok (graph, a.step) ∧
      a = ⟨{ c with graph, blocks := c.blocks.insert block.id block },
        addCapped node.weight block.weight.toNat, a.step⟩ := by
  unfold apply at h
  simp only [Option.bind_eq_bind, Option.bind_eq_some_iff] at h
  obtain ⟨parent, hparent, above, habove, h⟩ := h
  split at h
  · cases h
  rename_i hrank
  split at h
  · cases h
  rename_i graph step hadd
  obtain ⟨node, hnode⟩ := ForkGraph.add_parent hadd
  simp only [Option.pure_def, Option.some.injEq, ForkGraph.weight, ForkGraph.node, hnode,
    Except.map] at h
  subst h
  exact ⟨parent, above, node, graph, hparent, habove, UInt64.not_lt.1 hrank, hnode, hadd, rfl⟩

/-- The blocks that are left after a step are the live ones. -/
theorem collect_blocks (step : ForkStep) (n : BlockId) :
    (c.collect step).1.blocks[n]? =
      if n ∉ step.pruned ∧ c.graph.contains n then c.blocks[n]? else none := by
  show ((step.pruned.foldl (fun m id => m.erase id) c.blocks).filter
    fun id _ => c.graph.contains id)[n]? = _
  rw [Std.ExtTreeMap.getElem?_filter', Lookup.get_eraseAll]
  by_cases hpruned : n ∈ step.pruned
  · rw [if_pos hpruned, if_neg fun h => h.1 hpruned]
    rfl
  · rw [if_neg hpruned]
    by_cases hlive : c.graph.contains n = true
    · rw [if_pos ⟨hpruned, hlive⟩]
      cases c.blocks[n]? with
      | none => rfl
      | some b => exact if_pos hlive
    · rw [if_neg fun h => hlive h.2]
      cases c.blocks[n]? with
      | none => rfl
      | some b => exact if_neg hlive

/-- Where a graph grew, the blocks that are collected are those of its live nodes. -/
theorem collect_grown {g : ForkGraph} {id : BlockId} {step : ForkStep}
    (hgrown : g.Grown c.graph id parent step) (n : BlockId) :
    (c.collect step).1.blocks[n]? = if c.graph.contains n then c.blocks[n]? else none := by
  rw [collect_blocks]
  by_cases hlive : c.graph.contains n = true
  · rw [if_pos hlive, if_pos ⟨(hgrown.live n (Lookup.contains_iff.1 hlive)).1, hlive⟩]
  · rw [if_neg hlive, if_neg fun hn => hlive hn.2]

/-- The blocks that are returned are those of the finalized nodes. -/
theorem collect_finalized {g : ForkGraph} {id : BlockId} {step : ForkStep}
    (hgrown : g.Grown c.graph id parent step) :
    (c.collect step).2 = step.finalized.filterMap fun n : BlockId => c.blocks[n]? := by
  refine List.filterMap_congr fun n hn => ?_
  show (step.pruned.foldl (fun m id => m.erase id) c.blocks)[n]? = _
  rw [Lookup.get_eraseAll, if_neg (hgrown.finalized_kept n hn)]

/-- Where a step does nothing, the old blocks and the new one are the live ones. -/
theorem Sound.blocks_of_isEmpty (h : c.Sound seen) {graph : ForkGraph} {step : ForkStep}
    (hgrown : c.graph.Grown graph block.id parent step) (hempty : step.isEmpty = true)
    (n : BlockId) : (c.blocks.insert block.id block)[n]? =
      if graph.contains n then (c.blocks.insert block.id block)[n]? else none := by
  obtain ⟨hfin, hpru⟩ := ForkStep.isEmpty_iff.1 hempty
  split
  · rfl
  · rename_i hdead
    have hnot : ¬(n = block.id ∨ c.graph.Live n) := fun hn => hdead <| by
      refine Lookup.contains_iff.2 (hgrown.left n hn (hpru ▸ List.not_mem_nil) ?_)
      rw [hfin]
      exact List.not_mem_nil
    rw [Lookup.get_insert, if_neg fun hid => hnot (Or.inl hid.symm)]
    exact h.not_held fun hlive => hnot (Or.inr hlive)

/-- A chain whose graph grew by a block is sound again with the blocks that are live now. -/
theorem Sound.grow (h : c.Sound seen) {graph : ForkGraph} {step : ForkStep} {above : Block}
    (hb : Admitted seen c.id block) (hparent : block.parent? = some parent)
    (habove : c.blocks[parent]? = some above) (hrank : above.rank.next ≤ block.rank.current)
    (hgrown : c.graph.Grown graph block.id parent step) {blocks : BlockMap Block}
    (hblocks : ∀ n : BlockId, blocks[n]? =
      if graph.contains n then (c.blocks.insert block.id block)[n]? else none) :
    ({ c with graph, blocks } : Chain).Sound seen := by
  have hlive : ∀ n, graph.Live n → graph.contains n = true := fun n h => Lookup.contains_iff.2 h
  have hfollows : Follows seen c.id above block :=
    ⟨hb, by rw [hparent, h.blocks_id _ _ habove], hrank⟩
  have hfresh := h.not_held hgrown.fresh
  -- the parent was there before, so it is not the new block
  have hne : parent ≠ block.id := by
    rintro rfl
    rw [hfresh] at habove
    cases habove
  refine { isTree := hgrown.isTree, blocks_live := ?_, blocks_id := ?_, linked := ?_
           priority := hgrown.priority h.priority, waiting := h.waiting }
  · intro n
    show (∃ b, blocks[n]? = some b) ↔ graph.Live n
    rw [hblocks]
    constructor
    · rintro ⟨b, hbn⟩
      split at hbn
      · exact Lookup.contains_iff.1 ‹_›
      · cases hbn
    · intro hn
      rw [if_pos (hlive n hn), Lookup.get_insert]
      split
      · exact ⟨_, rfl⟩
      · rename_i hid
        rcases (hgrown.live n hn).2 with rfl | hold
        · exact absurd rfl hid
        · exact (h.blocks_live n).2 hold
  · intro n b hbn
    rw [show ({ c with graph, blocks } : Chain).blocks = blocks from rfl, hblocks] at hbn
    split at hbn
    · rw [Lookup.get_insert] at hbn
      split at hbn
      · rw [Option.some.injEq] at hbn
        rw [← hbn]
        assumption
      · exact h.blocks_id n b hbn
    · cases hbn
  · -- the one new edge is that of the new block, all others were linked before
    intro n p hu a b ha hbn
    rw [show ({ c with graph, blocks } : Chain).blocks = blocks from rfl, hblocks] at ha hbn
    split at ha
    case isFalse => cases ha
    split at hbn
    case isFalse => cases hbn
    rw [Lookup.get_insert] at ha hbn
    rcases hgrown.edges n p hu with ⟨rfl, rfl⟩ | hold
    · rw [if_neg (Ne.symm hne), habove, Option.some.injEq] at ha
      rw [if_pos rfl, Option.some.injEq] at hbn
      rw [← ha, ← hbn]
      exact hfollows
    · have hsplit := h.isTree.toRooted.not_under (m := block.id) (by
        cases hnode : c.graph.nodes[block.id]? with
        | none => rfl
        | some node => exact absurd ⟨node, hnode⟩ hgrown.fresh) hold
      rw [if_neg (Ne.symm hsplit.2)] at ha
      rw [if_neg (Ne.symm hsplit.1)] at hbn
      exact h.linked n p hold a b ha hbn

/-- The finalized blocks of a step are linked, and end with the block of the new anchor. -/
theorem Sound.finalized_links (h : c.Sound seen) {graph : ForkGraph} {step : ForkStep}
    {above top : Block} (hfollows : Follows seen c.id above block)
    (habove : c.blocks[parent]? = some above) (htop : c.blocks[c.graph.anchor]? = some top)
    (hgrown : c.graph.Grown graph block.id parent step) :
    let find := fun n : BlockId => (c.blocks.insert block.id block)[n]?
    Links seen c.id top (step.finalized.filterMap find) ∧
      (step.finalized.filterMap find).map (·.id) = step.finalized ∧
      find graph.anchor = some ((step.finalized.filterMap find).getLastD top) := by
  intro find
  have hfresh : ∀ n b, c.blocks[n]? = some b → block.id ≠ n := by
    rintro n b hb rfl
    exact hgrown.fresh ((h.blocks_live _).1 ⟨b, hb⟩)
  have hfind : ∀ n b, c.blocks[n]? = some b → find n = some b := by
    intro n b hb
    show (c.blocks.insert block.id block)[n]? = _
    rw [Lookup.get_insert, if_neg (hfresh n b hb), hb]
  -- the path from the old anchor runs over old edges and the new one, and every edge of either
  -- kind leads to a block that follows
  rw [hgrown.anchor]
  refine links_of_path ?_ hgrown.path (hfind _ _ htop)
  intro n p hu a ha
  rcases hu with ⟨rfl, rfl⟩ | hold
  · rw [hfind _ _ habove, Option.some.injEq] at ha
    refine ⟨block, ?_, rfl, ha ▸ hfollows⟩
    show (c.blocks.insert block.id block)[block.id]? = _
    rw [Lookup.get_insert, if_pos rfl]
  · obtain ⟨b, hb⟩ := (h.blocks_live n).2 ⟨_, hold.2.choose_spec.1⟩
    obtain ⟨a', ha'⟩ := (h.blocks_live p).2 (h.isTree.toRooted.above_live hold)
    rw [hfind _ _ ha', Option.some.injEq] at ha
    exact ⟨b, hfind _ _ hb, h.blocks_id n b hb, ha ▸ h.linked n p hold a' b ha' hb⟩

/-- What entering a block does to a chain. -/
theorem apply_entered {top : Block} {a : Applied} (h : c.Sound seen)
    (hb : Admitted seen c.id block) (htop : c.blocks[c.graph.anchor]? = some top)
    (ha : c.apply block = some a) : Entered seen c top block a := by
  obtain ⟨parent, above, _, graph, hparent, habove, hrank, _, hadd, heq⟩ := apply_eq_some ha
  have hgrown := ForkGraph.add_grown h.isTree hadd
  have hfollows : Follows seen c.id above block :=
    ⟨hb, by rw [hparent, h.blocks_id _ _ habove], hrank⟩
  have hfresh := h.not_held hgrown.fresh
  obtain ⟨hlinks, hids, hlast⟩ := h.finalized_links hfollows habove htop hgrown
  obtain rfl : graph = a.chain.graph := by rw [heq]
  have hblocks : a.chain.blocks = c.blocks.insert block.id block := by rw [heq]
  have hrest : a.chain = { c with graph := a.chain.graph, blocks := a.chain.blocks } := by
    rw [heq]
  -- a step that does nothing leaves the map of blocks alone, any other one filters it
  by_cases hempty : a.step.isEmpty = true
  · have hout : a.outcome = (a.chain, []) := if_pos hempty
    obtain ⟨hfin, -⟩ := ForkStep.isEmpty_iff.1 hempty
    rw [hfin] at hlast
    have hsound := h.grow hb hparent habove hrank hgrown (h.blocks_of_isEmpty hgrown hempty)
    exact
      { rest := by rw [hout]; exact hrest
        sound := by rw [hout, hrest, hblocks]; exact hsound
        ids := by rw [hout, hfin]; rfl
        links := by rw [hout]; trivial
        anchor := by rw [hout, hblocks]; exact hlast
        fresh := hfresh }
  · have hout : a.outcome = a.chain.collect a.step := if_neg hempty
    have hget := collect_grown hgrown
    have hfinalized := collect_finalized hgrown
    rw [hblocks] at hget hfinalized
    have hanchor : a.chain.graph.contains a.chain.graph.anchor = true :=
      Lookup.contains_iff.2 hgrown.isTree.anchor_live
    have hcollect : (a.chain.collect a.step).1 =
        { c with graph := a.chain.graph, blocks := (a.chain.collect a.step).1.blocks } := by
      rw [heq]
      rfl
    exact
      { rest := by rw [hout]; exact hcollect
        sound := by
          rw [hout, hcollect]
          exact h.grow hb hparent habove hrank hgrown hget
        ids := by rw [hout, hfinalized]; exact hids
        links := by rw [hout, hfinalized]; exact hlinks
        anchor := by
          rw [hout, hget, if_pos hanchor, hfinalized]
          exact hlast
        fresh := hfresh }

end

end Chain

end ShardLedger
