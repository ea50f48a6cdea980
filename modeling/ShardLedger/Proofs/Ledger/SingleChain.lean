import Mathlib.Data.List.TakeWhile
import ShardLedger.Proofs.Ledger.Floors
import ShardLedger.Proofs.Ledger.Rest
import ShardLedger.Proofs.Ledger.Run
import ShardLedger.Proofs.Tree.Unsplit

/-!
# A ledger with a single chain

Under a load policy that never asks for a split, a ledger keeps to its root chain. The bar is then
the rank that comes next on that chain, and every block that the chain has finalized is ranked below
it. So a pass places whatever is final, in the order in which it became final.

- `drainBelow_single`: a pass over a single queue.
- `Ledger.alone`: a ledger of one chain, and what a submission and a pass make of it.
- `RootLine`: a line of blocks after the genesis of the root chain.
- `Run.OnRoot`, `Run.single_chain`: what a run over such a line places.
-/

namespace ShardLedger

variable {rules : Rules} {seen gone rest bs : List Block} {c d : Chain} {x : Block}
  {lin : Linearizer}

/-! ### A single queue -/

theorem drainBelow_single (bar floor : UInt64) (id : ChainId) : ∀ queue : List Block,
    (∀ b ∈ queue, b.rank.current < bar) →
      drainBelow bar [⟨id, floor, queue⟩] = (queue.map (id, ·), [⟨id, floor, []⟩])
  | [], _ => drainBelow_none rfl
  | b :: later, h => by
    have hhead : takeLowest? bar [⟨id, floor, b :: later⟩] =
        some ((id, b), [⟨id, floor, later⟩]) := by
      have hbelow : ¬bar ≤ b.rank.current := UInt64.not_le.2 (h b (List.mem_cons_self ..))
      simp [takeLowest?, lowestHead?, Source.headRank?, hbelow, takeHead?]
    rw [drainBelow_some hhead,
      drainBelow_single bar floor id later fun b hb => h b (List.mem_cons_of_mem _ hb)]
    rfl

theorem confirmBar_single (s : Source) : confirmBar [s] = s.floor := by
  show (if s.floor < topWord then s.floor else topWord) = s.floor
  split
  · rfl
  · exact UInt64.le_antisymm (UInt64.not_lt.1 ‹_›) (le_topWord _)

namespace Ledger

/-! ### A single chain -/

/-- The ledger of a root chain that was never split. -/
def alone (c : Chain) (linearizer : Linearizer) : Ledger :=
  { root := .leaf c, retired := [], registered := [.root], roster := ⟨[.root], []⟩, leaving := []
    linearizer }

theorem root_path : ChainId.root.path = [] := ChainId.turns_one

theorem live?_alone : (alone c lin).live? .root = some (.leaf c) := by
  unfold live?
  rw [root_path]
  rfl

theorem branch?_alone : (alone c lin).branch? .root = some (.leaf c) := by
  unfold branch?
  rw [live?_alone]

theorem replace_alone (d : Chain) : (alone c lin).replace .root (.leaf d) = alone d lin := by
  unfold replace
  rw [live?_alone, root_path]
  rfl

/-- A block of the root chain is submitted to it. -/
theorem submitBlock_alone {outcome : Outcome} {events : List Event} (hchain : x.chain = .root)
    (h : (Branch.leaf c).submit rules ⟨[.root], []⟩ x =
      ⟨.leaf d, ⟨[.root], []⟩, outcome, events⟩) :
    (alone c lin).submitBlock rules x = (alone d lin, outcome, events) := by
  have hlookup : (alone c lin).lookup? .root = some (.leaf c) :=
    (if_pos (.inl (List.mem_singleton_self _))).trans branch?_alone
  unfold submitBlock submitTo
  rw [hchain, hlookup]
  dsimp only
  rw [branch?_alone]
  dsimp only
  rw [show (alone c lin).roster = ⟨[.root], []⟩ from rfl, h, ← replace_alone (c := c) d]
  rfl

theorem mergeIdle_alone (rules : Rules) : (alone c lin).mergeIdle rules = (alone c lin, []) := by
  have hnone : (alone c lin).mergeAt? rules .root = none := by
    unfold mergeAt?
    rw [live?_alone]
    rfl
  have hround : ∀ active, ∃ stopped,
      mergeRound rules [.root] active (alone c lin) = ⟨alone c lin, [], stopped⟩ := by
    intro active
    unfold mergeRound
    split
    · exact ⟨true, rfl⟩
    · rw [hnone]
      exact ⟨false, rfl⟩
  obtain ⟨stopped, hstopped⟩ := hround (UInt64.ofNat (alone c lin).activeCount)
  unfold mergeIdle mergeRounds
  rw [show mergeRound rules (alone c lin).registered _ (alone c lin) = _ from hstopped]
  dsimp only
  rw [List.isEmpty_nil, Bool.or_true, if_pos rfl]

/-- Where all that waits in line lies below the rank that comes next, the whole of it is placed. -/
theorem linearize_alone (hid : c.id = .root) (hlive : c.retired = false)
    (hqueue : ∀ b ∈ c.undelivered, b.rank.current < c.nextRank) :
    (alone c lin).linearize.1 = alone { c with undelivered := [] }
        ⟨lin.delivered + c.undelivered.length, c.nextRank⟩ ∧
      (alone c lin).linearize.2.map (fun d => (d.chain, d.block)) =
        c.undelivered.map ((.root : ChainId), ·) := by
  have hsources : (alone c lin).sources = [⟨.root, c.nextRank, c.undelivered⟩] := by
    unfold sources registeredBranches
    rw [show (alone c lin).registered = [.root] from rfl, List.filterMap_cons_some branch?_alone]
    show [(⟨c.id, if c.retired then topWord else c.nextRank, c.undelivered⟩ : Source)] = _
    rw [hid, hlive]
    rfl
  have hbar : (alone c lin).confirmBar = c.nextRank := by
    unfold confirmBar
    rw [hsources, confirmBar_single]
  obtain ⟨hledger, hdelivered⟩ := linearize_eq (alone c lin)
  rw [hsources, hbar, drainBelow_single _ _ _ _ hqueue] at hledger hdelivered
  refine ⟨hledger.trans ?_, ?_⟩
  · rw [List.length_map, List.foldl_cons, List.foldl_nil]
    unfold setQueue update
    rw [show ({ alone c lin with linearizer := _ } : Ledger).branch? .root = _ from branch?_alone]
    exact replace_alone _
  · rw [hdelivered]
    exact map_zipIdx_block lin.delivered (c.undelivered.map ((.root : ChainId), ·))

/-- A pass does nothing but place. -/
theorem tick_alone (rules : Rules) (hid : c.id = .root) (hlive : c.retired = false)
    (hqueue : ∀ b ∈ c.undelivered, b.rank.current < c.nextRank) :
    ((alone c lin).tick rules).ledger = alone { c with undelivered := [] }
        ⟨lin.delivered + c.undelivered.length, c.nextRank⟩ ∧
      ((alone c lin).tick rules).delivered.map (fun d => (d.chain, d.block)) =
        c.undelivered.map ((.root : ChainId), ·) := by
  obtain ⟨hledger, hdelivered⟩ := @linearize_alone c lin hid hlive hqueue
  have hregister : (alone c lin).registerSpawned = (alone c lin, []) :=
    registerSpawned_eq_self rfl
  unfold tick
  rw [hregister]
  dsimp only
  rw [mergeIdle_alone]
  dsimp only
  rw [hledger]
  exact ⟨rfl, hdelivered⟩

end Ledger

/-! ### Lines on the root chain -/

/-- Blocks in a line after the genesis of the root chain, under different names, each of which asks
for a higher rank than its own. -/
structure RootLine (bs : List Block) : Prop where
  links : Links bs .root (Block.genesis .root) bs
  names : ((Block.genesis .root :: bs).map (·.id)).Nodup
  rising : ∀ b ∈ bs, b.rank.current < b.rank.next

theorem Links.of_prefix {id : ChainId} {a : Block} {xs : List Block} (h : Links seen id a bs)
    (hxs : xs <+: bs) : Links seen id a xs := by
  obtain ⟨later, rfl⟩ := hxs
  exact (links_append.1 h).1

/-- Every block of a line is ranked below what the last one asks for. -/
theorem Links.below_last {id : ChainId} {a b : Block} (h : Links seen id a bs) (hb : b ∈ bs)
    (hrising : b.rank.current < b.rank.next) : b.rank.current < (bs.getLastD a).rank.next := by
  obtain ⟨before, after, rfl⟩ := List.append_of_mem hb
  obtain ⟨-, -, hafter⟩ := links_append.1 h
  have hle := (hafter.above (UInt64.le_refl b.rank.next)).2
  rw [getLastD_append, List.getLastD_cons, ← List.getLast_eq_getLastD (List.cons_ne_nil _ _)]
  exact UInt64.lt_of_lt_of_le hrising (hle _ (List.getLast_mem _))

theorem takeWhile_concat {kind : Block → Bool} (xs : List Block) (x : Block) :
    (xs ++ [x]).takeWhile kind =
      if ∀ b ∈ xs ++ [x], kind b then xs ++ [x] else xs.takeWhile kind := by
  split
  · rename_i hall
    exact List.takeWhile_eq_self_iff.2 hall
  · rename_i hsome
    rw [List.takeWhile_append]
    split
    · rename_i hlen
      have hself := (List.takeWhile_prefix kind (l := xs)).eq_of_length hlen
      have hx : ¬kind x = true := fun hx => hsome fun b hb => by
        rcases List.mem_append.1 hb with hb | hb
        · exact List.takeWhile_eq_self_iff.1 hself b hb
        · exact List.mem_singleton.1 hb ▸ hx
      rw [List.takeWhile_cons, if_neg hx, List.append_nil, hself]
    · rfl

namespace Run

variable {W : Nat} {r : Run} {q : Backlog} {m : BlockMap Block}

/-- A run on the root chain alone, to which the blocks `bs` of a line have been submitted. The
chain has taken those before the first one that was refused, and `gone` are final. -/
structure OnRoot (rules : Rules) (seen bs : List Block) (c : Chain) (gone rest : List Block)
    (q : Backlog) (m : BlockMap Block) (lin : Linearizer) (r : Run) : Prop where
  ledger : r.ledger = .alone (c.holding q m) lin
  id : c.id = .root
  parted : c.Parted seen (Block.genesis .root) rules.config.fork.finalizedWeight gone rest
  line : gone ++ rest = bs.takeWhile rules.accepts
  idle : (∀ b ∈ bs, rules.accepts b = true) → q = .empty ∧ m = ∅
  placed : r.linearized.map (fun d => (d.chain, d.block)) ++ c.undelivered.map (.root, ·) =
    gone.map ((.root : ChainId), ·)
  reported : r.finalizations = gone.map fun b => (.root, b.id)

/-- A pass places all that is final. -/
theorem OnRoot.tick (h : r.OnRoot rules seen bs c gone rest q m lin)
    (hlinks : Links seen .root (Block.genesis .root) bs)
    (hrising : ∀ b ∈ bs, b.rank.current < b.rank.next) :
    (r.perform rules .tick).OnRoot rules seen bs { c with undelivered := [] } gone rest q m
      ⟨lin.delivered + c.undelivered.length, c.nextRank⟩ := by
  have hqueue : ∀ b ∈ c.undelivered, b.rank.current < c.nextRank := by
    intro b hb
    have hgone : b ∈ gone := by
      have hpair := List.mem_append_right (r.linearized.map fun d => (d.chain, d.block))
        (List.mem_map_of_mem (f := fun b => ((.root : ChainId), b)) hb)
      rw [h.placed] at hpair
      obtain ⟨b', hb', heq⟩ := List.mem_map.1 hpair
      rwa [← (Prod.mk.inj heq).2]
    have hbegins : gone <+: bs := (List.prefix_append gone rest).trans
      (h.line ▸ List.takeWhile_prefix _)
    rw [h.parted.nextRank_eq]
    exact (hlinks.of_prefix hbegins).below_last hgone (hrising b (hbegins.subset hgone))
  obtain ⟨hledger, hdelivered⟩ := @Ledger.tick_alone (c.holding q m) lin rules h.id
    h.parted.running hqueue
  have hpass : r.perform rules .tick =
      { r with ledger := (r.ledger.tick rules).ledger
               events := r.events ++ (r.ledger.tick rules).events
               passes := r.passes ++ [r.ledger.tick rules] } := rfl
  rw [h.ledger] at hpass
  rw [hpass, hledger]
  refine ⟨rfl, h.id, h.parted.queue [], h.line, h.idle, ?_, ?_⟩
  · show ((r.passes ++ [_]).flatMap Ledger.Pass.delivered).map _ ++ [] = _
    rw [List.append_nil, List.flatMap_append, List.map_append, List.flatMap_singleton, hdelivered]
    exact h.placed
  · show (r.events ++ Ledger.Pass.events _).flatMap _ = _
    rw [List.flatMap_append, finalizations_pass, List.append_nil]
    exact h.reported

/-- After the blocks that the chain takes, nothing in the line finds its parent. -/
theorem OnRoot.parent_gone (h : r.OnRoot rules seen bs c gone rest q m lin)
    (hnames : ((Block.genesis .root :: bs).map (·.id)).Nodup)
    (hrefused : ¬∀ b ∈ bs, rules.accepts b = true) :
    c.blocks[(bs.getLastD (Block.genesis .root)).id]? = none := by
  refine h.parted.not_held fun hlive => ?_
  have htaken := h.parted.live _ hlive
  rw [h.line] at htaken
  generalize hb : bs.getLastD (Block.genesis .root) = b at htaken
  have hparts : bs.takeWhile rules.accepts ++ bs.dropWhile rules.accepts = bs :=
    List.takeWhile_append_dropWhile
  have hlast : b ∈ bs.dropWhile rules.accepts := by
    cases hdrop : bs.dropWhile rules.accepts with
    | nil =>
      rw [hdrop, List.append_nil] at hparts
      exact absurd (List.takeWhile_eq_self_iff.1 hparts) hrefused
    | cons b later =>
      rw [← hb, ← hparts, hdrop, getLastD_append, List.getLastD_cons,
        ← List.getLast_eq_getLastD (List.cons_ne_nil _ _)]
      exact List.getLast_mem _
  rw [← hparts, ← List.cons_append, List.map_append, List.nodup_append] at hnames
  exact hnames.2.2 _ htaken _ (List.mem_map_of_mem hlast) rfl

/-- While nothing was refused, the next block of the line enters. -/
theorem OnRoot.submit_accepted (hnever : ∀ load, rules.load.shouldSpawn load = false)
    (hpos : 0 < rules.config.fork.finalizedWeight) (h : r.OnRoot rules seen bs c gone rest q m lin)
    (hx : Follows seen .root (bs.getLastD (Block.genesis .root)) x)
    (hnames : ((Block.genesis .root :: (bs ++ [x])).map (·.id)).Nodup)
    (hall : ∀ b ∈ bs ++ [x], rules.accepts b = true) :
    ∃ d gone' rest', (r.perform rules (.submitBlock x)).OnRoot rules seen (bs ++ [x]) d gone' rest'
      .empty ∅ lin := by
  have hbs : ∀ b ∈ bs, rules.accepts b = true := fun b hb => hall b (List.mem_append_left _ hb)
  have hline : gone ++ rest = bs := h.line.trans (List.takeWhile_eq_self_iff.2 hbs)
  obtain ⟨rfl, rfl⟩ := h.idle hbs
  obtain ⟨d, outcome, events, more, later, hsubmit, hd⟩ :=
    Branch.submit_next_leaf hnever h.parted hpos (by rwa [h.id, hline]) (by rwa [hline])
      (hall x (List.mem_append_right _ (List.mem_singleton_self x))) ⟨[.root], []⟩
  have hledger : r.ledger.submitBlock rules x = (.alone d lin, outcome, events) := by
    rw [h.ledger, Chain.holding_along h.parted.toAlong]
    exact Ledger.submitBlock_alone hx.chain hsubmit
  rw [perform_submitBlock hledger]
  refine ⟨d, gone ++ more, later, ?_, hd.id.trans h.id, hd.parted, ?_, fun _ => ⟨rfl, rfl⟩, ?_, ?_⟩
  · show Ledger.alone d lin = _
    rw [Chain.holding_along hd.parted.toAlong]
  · rw [List.append_assoc, ← hd.line, ← List.append_assoc, hline,
      List.takeWhile_eq_self_iff.2 hall]
  · show r.linearized.map _ ++ d.undelivered.map _ = _
    rw [hd.undelivered, List.map_append, ← List.append_assoc, h.placed, List.map_append]
  · show (r.events ++ events).flatMap Event.finalizations = _
    rw [List.flatMap_append, hd.finalizations, List.map_append, h.id]
    exact congrArg (· ++ _) h.reported

/-- From the first refusal on, a block of the line only joins those that wait. -/
theorem OnRoot.submit_refused (h : r.OnRoot rules seen bs c gone rest q m lin)
    (hx : Follows seen .root (bs.getLastD (Block.genesis .root)) x)
    (hnames : ((Block.genesis .root :: (bs ++ [x])).map (·.id)).Nodup)
    (hsome : ¬∀ b ∈ bs ++ [x], rules.accepts b = true) :
    ∃ q' m', (r.perform rules (.submitBlock x)).OnRoot rules seen (bs ++ [x]) c gone rest q' m'
      lin := by
  rw [← List.cons_append, List.map_append, List.nodup_append] at hnames
  have hastray : rules.accepts x = false ∨
      ∀ p, x.parent? = some p → (Branch.leaf (c.holding q m)).chain.blocks[p]? = none := by
    by_cases haccepts : rules.accepts x = true
    · refine .inr fun p hp => ?_
      rw [hx.parent, Option.some.injEq] at hp
      refine hp ▸ h.parent_gone hnames.1 fun hbs => hsome ?_
      exact List.forall_mem_append.2 ⟨hbs, List.forall_mem_singleton.2 haccepts⟩
    · exact .inl (eq_false_of_ne_true haccepts)
  obtain ⟨q', m', outcome, hsubmit⟩ := Branch.submit_astray ⟨[.root], []⟩ hastray
  have hledger : r.ledger.submitBlock rules x = (.alone (c.holding q' m') lin, outcome, []) := by
    rw [h.ledger]
    exact Ledger.submitBlock_alone hx.chain hsubmit
  rw [perform_submitBlock hledger, List.append_nil]
  refine ⟨q', m', rfl, h.id, h.parted, ?_, fun hbs => absurd hbs hsome, h.placed, h.reported⟩
  rw [takeWhile_concat, if_neg hsome]
  exact h.line

/-- The next block of the line is submitted. -/
theorem OnRoot.submit (hnever : ∀ load, rules.load.shouldSpawn load = false)
    (hpos : 0 < rules.config.fork.finalizedWeight) (h : r.OnRoot rules seen bs c gone rest q m lin)
    (hx : Follows seen .root (bs.getLastD (Block.genesis .root)) x)
    (hnames : ((Block.genesis .root :: (bs ++ [x])).map (·.id)).Nodup) :
    ∃ d gone' rest' q' m',
      (r.perform rules (.submitBlock x)).OnRoot rules seen (bs ++ [x]) d gone' rest' q' m' lin := by
  by_cases hall : ∀ b ∈ bs ++ [x], rules.accepts b = true
  · obtain ⟨d, gone', rest', hd⟩ := h.submit_accepted hnever hpos hx hnames hall
    exact ⟨d, gone', rest', .empty, ∅, hd⟩
  · obtain ⟨q', m', hd⟩ := h.submit_refused hx hnames hall
    exact ⟨c, gone, rest, q', m', hd⟩

/-- A run on a fresh ledger has one chain, to which nothing has been submitted. -/
theorem onRoot_start {l : Ledger} (h : Ledger.create rules = .ok l) :
    ∃ c, (start l).OnRoot rules seen [] c [] [] .empty ∅ .start := by
  obtain ⟨graph, hg, rfl⟩ := create_eq h
  exact ⟨_, rfl, rfl, Chain.parted_start true hg, rfl, fun _ => ⟨rfl, rfl⟩, rfl, rfl⟩

/-- At every time of a run over a line on the root chain, some of it is final and some of it is
live. -/
theorem onRoot_after (hnever : ∀ load, rules.load.shouldSpawn load = false) (hline : RootLine bs)
    (ops : List Operation) (hops : ∀ op ∈ ops, op = .tick ∨ ∃ b, op = .submitBlock b)
    (hblocks : blocksOf ops <+: bs) (hr : Run.after rules ops = .ok r) :
    ∃ c gone rest q m lin, r.OnRoot rules bs (blocksOf ops) c gone rest q m lin := by
  induction ops using List.reverseRecOn generalizing r with
  | nil =>
    obtain ⟨l, hl, rfl⟩ := after_eq hr
    obtain ⟨c, hc⟩ := onRoot_start hl
    exact ⟨c, [], [], .empty, ∅, .start, hc⟩
  | append_singleton before op ih =>
    obtain ⟨r₀, hr₀, rfl⟩ := after_concat hr
    rw [blocksOf_append] at hblocks ⊢
    have hbegins := (List.prefix_append (blocksOf before) _).trans hblocks
    obtain ⟨c, gone, rest, q, m, lin, h⟩ :=
      ih (fun op hop => hops op (List.mem_append_left _ hop)) hbegins hr₀
    have hlinks := hline.links.of_prefix hblocks
    have hnames : ((Block.genesis .root :: (blocksOf before ++ blocksOf [op])).map (·.id)).Nodup :=
      hline.names.sublist ((hblocks.sublist.cons_cons _).map _)
    rcases hops op (List.mem_append_right _ (List.mem_singleton_self op)) with rfl | ⟨x, rfl⟩
    · have hbefore : blocksOf before ++ blocksOf [.tick] = blocksOf before := List.append_nil _
      rw [hbefore] at hlinks ⊢
      exact ⟨_, _, _, _, _, _, h.tick hlinks fun b hb => hline.rising b (hbegins.subset hb)⟩
    · have hpos : 0 < rules.config.fork.finalizedWeight := by
        obtain ⟨l, hl, -⟩ := after_eq hr₀
        obtain ⟨graph, hg, -⟩ := create_eq hl
        exact (ForkGraph.create_fresh hg).pos
      obtain ⟨d, gone', rest', q', m', hd⟩ :=
        h.submit hnever hpos (links_append.1 hlinks).2.1 hnames
      exact ⟨d, gone', rest', q', m', lin, hd⟩

/-- A ledger whose chains never split is given a line of blocks on its root chain, with passes
anywhere in between and one at the end. The blocks before the first one that is refused make up the
line that counts. What this line outweighs by the finalization weight is finalized, and placed in
the global order, block after block; nothing else is. -/
theorem single_chain (hvalid : rules.config.validate = .ok ())
    (hnever : ∀ load, rules.load.shouldSpawn load = false) (hline : RootLine bs)
    {ops : List Operation} (hops : ∀ op ∈ ops, op = .tick ∨ ∃ b, op = .submitBlock b)
    (hblocks : blocksOf ops = bs) :
    ∃ r, Run.after rules (ops ++ [.tick]) = .ok r ∧
      r.finalizations =
        (outweighed rules.config.fork.finalizedWeight (bs.takeWhile rules.accepts)).map
          (fun b => (.root, b.id)) ∧
      r.linearized.map (fun d => (d.chain, d.block)) =
        (outweighed rules.config.fork.finalizedWeight (bs.takeWhile rules.accepts)).map
          ((.root : ChainId), ·) := by
  obtain ⟨r, hr⟩ := exists_after hvalid (ops ++ [.tick])
  obtain ⟨r₀, hr₀, rfl⟩ := after_concat hr
  obtain ⟨c, gone, rest, q, m, lin, h⟩ :=
    onRoot_after hnever hline ops hops (hblocks ▸ List.prefix_rfl) hr₀
  rw [hblocks] at h
  have hlast := h.tick hline.links hline.rising
  have hgone : outweighed rules.config.fork.finalizedWeight
      (bs.takeWhile rules.accepts) = gone := by
    rw [← h.line]
    exact h.parted.outweighed
  refine ⟨_, hr, ?_, ?_⟩
  · rw [hgone]
    exact hlast.reported
  · rw [hgone, ← hlast.placed]
    exact (List.append_nil _).symm

/-- A lead of two makes a block final, no chain is split, and a gate decides which blocks are
taken. -/
def sampleGated (accepts : Block → Bool) : Rules :=
  { Rules.ofConfig { fork := { finalizedWeight := 2 } } with accepts }

/-- Five blocks with gaps between their ranks. The second one weighs nothing, and the third one as
much as a word can hold. -/
def sampleRootLine : List Block :=
  [ sampleBlock ⟨1⟩ .root (Block.genesis .root).id [] 1,
    { sampleBlock ⟨2⟩ .root ⟨1⟩ [] 5 with weight := 0 },
    { sampleBlock ⟨3⟩ .root ⟨2⟩ [] 6 with weight := topWord },
    { sampleBlock ⟨4⟩ .root ⟨3⟩ [] 9 with proposer := "x" },
    sampleBlock ⟨5⟩ .root ⟨4⟩ [] 10 ]

/-- A pass after every block. -/
def sampleRootOps : List Operation := sampleRootLine.flatMap fun b => [.submitBlock b, .tick]

theorem rootLine_sample : RootLine sampleRootLine where
  links := by
    have hmem : ∀ b ∈ sampleRootLine, b ∈ sampleRootLine := fun _ hb => hb
    simp only [sampleRootLine, List.forall_mem_cons] at hmem
    obtain ⟨h₁, h₂, h₃, h₄, h₅, -⟩ := hmem
    exact ⟨⟨⟨h₁, rfl, by decide⟩, rfl, by decide⟩, ⟨⟨h₂, rfl, by decide⟩, rfl, by decide⟩,
      ⟨⟨h₃, rfl, by decide⟩, rfl, by decide⟩, ⟨⟨h₄, rfl, by decide⟩, rfl, by decide⟩,
      ⟨⟨h₅, rfl, by decide⟩, rfl, by decide⟩, trivial⟩
  names := by decide +kernel
  rising := by decide

theorem sampleRootOps_cases : ∀ op ∈ sampleRootOps, op = .tick ∨ ∃ b, op = .submitBlock b := by
  intro op hop
  obtain ⟨b, -, hop⟩ := List.mem_flatMap.1 hop
  rcases List.mem_cons.1 hop with rfl | hop
  · exact .inr ⟨b, rfl⟩
  · exact .inl (List.mem_singleton.1 hop)

/-- The fourth block is refused, so the first three make up the line that counts. -/
theorem sample_single_chain :
    (outweighed 2 (sampleRootLine.takeWhile fun b => b.proposer ≠ "x")).map (·.id) = [⟨1⟩, ⟨2⟩] ∧
    ∃ r, Run.after (sampleGated fun b => b.proposer ≠ "x") (sampleRootOps ++ [.tick]) = .ok r ∧
      r.finalizations =
        (outweighed 2 (sampleRootLine.takeWhile fun b => b.proposer ≠ "x")).map
          (fun b => (.root, b.id)) ∧
      r.linearized.map (fun d => (d.chain, d.block)) =
        (outweighed 2 (sampleRootLine.takeWhile fun b => b.proposer ≠ "x")).map
          ((.root : ChainId), ·) :=
  ⟨by decide +kernel, @single_chain (sampleGated fun b => b.proposer ≠ "x") sampleRootLine rfl
    (fun _ => rfl) rootLine_sample sampleRootOps sampleRootOps_cases rfl⟩

/-- Blocks that are refused count for nothing: a gate that lets no block in leaves the order empty,
though the line as a whole outweighs two of its blocks. -/
theorem whole_line_not_finalized : ¬∀ (rules : Rules) (bs : List Block) (ops : List Operation),
    rules.config.validate = .ok () → (∀ load, rules.load.shouldSpawn load = false) →
    RootLine bs → (∀ op ∈ ops, op = .tick ∨ ∃ b, op = .submitBlock b) → blocksOf ops = bs →
    ∃ r, Run.after rules (ops ++ [.tick]) = .ok r ∧
      r.finalizations =
        (outweighed rules.config.fork.finalizedWeight bs).map (fun b => (.root, b.id)) ∧
      r.linearized.map (fun d => (d.chain, d.block)) =
        (outweighed rules.config.fork.finalizedWeight bs).map ((.root : ChainId), ·) := by
  intro hclaim
  obtain ⟨r, hr, hfinal, -⟩ := hclaim (sampleGated fun _ => false) sampleRootLine sampleRootOps rfl
    (fun _ => rfl) rootLine_sample sampleRootOps_cases rfl
  have hnone : (Run.after (sampleGated fun _ => false) (sampleRootOps ++ [.tick])).toOption.map
      (·.finalizations) = some [] := by decide +kernel
  rw [hr] at hnone
  have hempty : r.finalizations = [] := Option.some.inj hnone
  rw [hfinal] at hempty
  have htwo : (outweighed 2 sampleRootLine).length = 2 := by decide +kernel
  have hzero : (outweighed 2 sampleRootLine).length = 0 :=
    List.length_eq_zero_iff.2 (List.map_eq_nil_iff.1 hempty)
  omega

end Run

end ShardLedger
