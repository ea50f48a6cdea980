import ShardLedger.Proofs.Ledger.GlobalOrder
import ShardLedger.Proofs.Order.LaneByLane

/-!
# Submissions between the stages of a pass

Blocks and content may come in while a pass is under way, between any two of its stages. A chain
that splits off then is not part of the pass: its floor holds the bar down, but what it has
finalized by then is not placed, and the pass may place blocks of other chains that rank higher.

- `Stage`, `Move`, `Staged`: passes made stage by stage, with submissions in between.
- `Staged.pass_eq`: without submissions in between, the stages make up a pass.
- `Staged.Overtakes`: a block is placed ahead of one that waits on a chain yet to be registered.
- `Staged.placed_ranked_iff`: ranks never decrease exactly if no block is overtaken.
-/

namespace ShardLedger

/-- The stages of a pass, in order. -/
inductive Stage where
  | register
  | merge
  | place
  | remove
deriving DecidableEq

/-- What can happen while passes are made: something is submitted, or the stage that is due is
made. -/
inductive Move where
  | submitBlock (block : Block)
  | submitContent (item : ContentItem)
  | stage

/-- The block that is submitted. -/
def Move.block? : Move → Option Block
  | submitBlock block => some block
  | _ => none

/-- A ledger and the stage that is due. -/
structure Staged where
  ledger : Ledger
  due : Stage

namespace Staged

/-- Make a move. The blocks that it places in the global order are returned. -/
def perform (rules : Rules) (s : Staged) : Move → Staged × List Linearized
  | .submitBlock block => ({ s with ledger := (s.ledger.submitBlock rules block).1 }, [])
  | .submitContent item => ({ s with ledger := (s.ledger.submitContent item).1 }, [])
  | .stage =>
    match s.due with
    | .register => (⟨s.ledger.registerSpawned.1, .merge⟩, [])
    | .merge => (⟨(s.ledger.mergeIdle rules).1, .place⟩, [])
    | .place => (⟨s.ledger.linearize.1, .remove⟩, s.ledger.linearize.2)
    | .remove => (⟨s.ledger.removeDrained.1, .register⟩, [])

/-- The state after some moves. -/
def after (rules : Rules) (s : Staged) (moves : List Move) : Staged :=
  moves.foldl (fun s m => (s.perform rules m).1) s

/-- What some moves place in the global order. -/
def placed (rules : Rules) (s : Staged) : List Move → List Linearized
  | [] => []
  | m :: later => (s.perform rules m).2 ++ placed rules (s.perform rules m).1 later

/-- The stage that is due places a block, and the later moves place one of lower rank, which is
finalized now but waits on a chain that is yet to be registered. -/
def Overtakes (rules : Rules) (s : Staged) (later : List Move) : Prop :=
  s.due = .place ∧ ∃ d ∈ s.ledger.linearize.2,
    ∃ e ∈ placed rules (s.perform rules .stage).1 later,
      e.chain ∈ s.ledger.roster.spawned ∧ e.block ∈ s.ledger.queue e.chain ∧
        e.block.rank.current < d.block.rank.current

/-- Without submissions in between, the stages make up a pass. -/
theorem pass_eq (rules : Rules) (l : Ledger) :
    after rules ⟨l, .register⟩ (List.replicate 4 .stage) = ⟨(l.tick rules).ledger, .register⟩ ∧
      placed rules ⟨l, .register⟩ (List.replicate 4 .stage) = (l.tick rules).delivered := by
  refine ⟨rfl, ?_⟩
  show [] ++ ([] ++ ((l.tick rules).delivered ++ ([] ++ []))) = _
  rw [List.nil_append, List.nil_append, List.append_nil, List.append_nil]

theorem placed_append (rules : Rules) : ∀ (moves later : List Move) (s : Staged),
    s.placed rules (moves ++ later) =
      s.placed rules moves ++ (s.after rules moves).placed rules later
  | [], _, _ => rfl
  | m :: moves, later, s => by
    show _ ++ placed rules _ (moves ++ later) = _
    rw [placed_append rules moves later, ← List.append_assoc]
    rfl

end Staged

namespace Ledger

variable {seen : List Block} {l : Ledger} {id : ChainId}

/-! ### Placing with chains left out -/

theorem mem_lanes {lane : Lane} : lane ∈ l.lanes ↔ ∃ id ∈ l.order, l.laneAt id = some lane :=
  List.mem_filterMap

/-- A source shows the queue of a registered chain. -/
theorem Arranged.chain_of_source (h : l.Arranged seen) {s : Source} (hs : s ∈ l.sources) :
    s.chain ∈ l.registered ∧ ∃ c, l.chain? s.chain = some c ∧ c.undelivered = s.queue := by
  obtain ⟨b, hb, rfl⟩ := List.mem_map.1 hs
  obtain ⟨a, ha, hab⟩ := List.mem_filterMap.1 hb
  have hid : (source b).chain = a := h.branch?_id (List.mem_append_left _ ha) hab
  rw [hid]
  exact ⟨ha, b.chain, Option.map_eq_some_iff.2 ⟨b, hab, rfl⟩, rfl⟩

/-- What becomes of a lane when blocks are placed: some of its queue goes, and if the chain is
registered all that ranks below the bar. -/
structure Cut (bar : UInt64) (registered : List ChainId) (old new : Lane) : Prop where
  chain : new.chain = old.chain
  anchor : new.anchor? = old.anchor?
  queue : new.queue <:+ old.queue
  heads : new.chain ∈ registered → ∀ x ∈ new.queue.head?, bar ≤ x.rank.current

theorem Cut.keeps {P : Lane → Prop} {bar : UInt64} {registered : List ChainId} {old new : Lane}
    (hcut : Cut bar registered old new) (hP : Lane.Closed seen P) (h : P old) : P new := by
  have hkept : P ⟨old.chain, old.anchor?, new.queue⟩ := hP.suffix hcut.queue h
  rwa [← hcut.chain, ← hcut.anchor] at hkept

/-- What a pass leaves of the sources is left of the queues. -/
theorem Arranged.cut (h : l.Arranged seen) {taken : List (ChainId × Block)} {left : List Source}
    (hdrains : Drains l.confirmBar l.sources taken left) :
    (left.foldl Ledger.setQueue l).Arranged seen ∧
      ∀ lane ∈ (left.foldl Ledger.setQueue l).lanes, ∃ old ∈ l.lanes,
        Cut l.confirmBar l.registered old lane := by
  have hleft : left.map (·.chain) = l.registered := hdrains.chains.trans (sources_chains h)
  obtain ⟨harranged, hregistered, hroster, -, hset, hkept⟩ := setQueues_spec left h
    (hleft ▸ (List.nodup_append.1 h.order_nodup).1) fun s hs =>
      List.mem_append_left _ (hleft ▸ List.mem_map_of_mem hs)
  refine ⟨harranged, fun lane hl => ?_⟩
  obtain ⟨a, ha, hlane⟩ := mem_lanes.1 hl
  have ha : a ∈ l.order := by
    unfold order at ha
    rwa [hregistered, hroster] at ha
  obtain ⟨hpos, c, hc⟩ := h.mem_order a ha
  have hid : c.id = a := h.chain?_id hpos hc
  refine ⟨Lane.of c, mem_lanes.2 ⟨a, ha, congrArg (Option.map Lane.of) hc⟩, ?_⟩
  unfold laneAt at hlane
  by_cases hmem : a ∈ l.registered
  · -- a registered chain keeps what the pass has left of its source
    obtain ⟨s, hs, rfl⟩ := List.mem_map.1 (hleft ▸ hmem)
    obtain ⟨s₀, hs₀, hchain, hsuffix⟩ := hdrains.leaves s hs
    obtain ⟨-, c₀, hc₀, hqueue⟩ := h.chain_of_source hs₀
    rw [hchain, hc, Option.some.injEq] at hc₀
    rw [hset s hs, hc, Option.map_some, Option.map_some, Option.some.injEq] at hlane
    subst hlane hc₀
    have hqueue : s.queue <:+ c.undelivered := hqueue ▸ hsuffix
    refine ⟨rfl, rfl, hqueue, fun _ x hx => hdrains.heads s hs _ ?_⟩
    exact Option.mem_map_of_mem (fun b : Block => b.rank.current) hx
  · rw [hkept a hpos fun hm => hmem (hleft ▸ hm), hc, Option.map_some, Option.some.injEq] at hlane
    subst hlane
    exact ⟨rfl, rfl, List.suffix_rfl, fun hreg => absurd (hid ▸ hreg) hmem⟩

/-- Placing keeps a ledger arranged, and cuts the queues. -/
theorem Arranged.linearize (h : l.Arranged seen) : l.linearize.1.Arranged seen ∧
    ∀ lane ∈ l.linearize.1.lanes, ∃ old ∈ l.lanes, Cut l.confirmBar l.registered old lane := by
  have h₀ : ({ l with linearizer :=
      ⟨l.linearizer.delivered + (drainBelow l.confirmBar l.sources).1.length, l.confirmBar⟩ } :
        Ledger).Arranged seen := { h with }
  exact h₀.cut (drainBelow_drains l.confirmBar l.sources)

/-- What is placed was in a queue and ranks below the bar. -/
theorem Arranged.mem_linearize (h : l.Arranged seen) {d : Linearized} (hd : d ∈ l.linearize.2) :
    d.block.rank.current < l.confirmBar ∧
      ∃ lane ∈ l.lanes, lane.chain = d.chain ∧ d.block ∈ lane.queue := by
  rw [(linearize_eq l).2] at hd
  obtain ⟨⟨t, i⟩, ht, rfl⟩ := List.mem_map.1 hd
  obtain ⟨hbelow, s, hs, hchain, hmem⟩ :=
    (drainBelow_drains l.confirmBar l.sources).takes t (List.fst_mem_of_mem_zipIdx ht)
  obtain ⟨hregistered, c, hc, hqueue⟩ := h.chain_of_source hs
  have hid : s.chain ∈ l.order := List.mem_append_left _ hregistered
  refine ⟨hbelow, Lane.of c, mem_lanes.2 ⟨_, hid, congrArg (Option.map Lane.of) hc⟩, ?_, ?_⟩
  · exact (h.chain?_id (h.mem_order _ hid).1 hc).trans hchain
  · show t.2 ∈ c.undelivered
    exact hqueue.symm ▸ hmem

/-- From sorted queues, blocks are placed in order. -/
theorem Arranged.linearize_sorted (h : l.Arranged seen)
    (hranked : ∀ lane ∈ l.lanes, lane.Ranked []) :
    (l.linearize.2.map (·.block.rank.current)).Pairwise (· ≤ ·) := by
  have hqueues : ∀ s ∈ l.sources, (s.queue.map (·.rank.current)).Pairwise (· ≤ ·) := by
    intro s hs
    obtain ⟨hregistered, c, hc, hqueue⟩ := h.chain_of_source hs
    have hlane : Lane.of c ∈ l.lanes :=
      mem_lanes.2 ⟨_, List.mem_append_left _ hregistered, congrArg (Option.map Lane.of) hc⟩
    exact hqueue ▸ (hranked _ hlane).sorted
  have hsorted := drainBelow_sorted l.confirmBar hqueues
  rw [← map_zipIdx_block l.linearizer.delivered (drainBelow l.confirmBar l.sources).1,
    List.map_map] at hsorted
  exact hsorted

/-- After blocks are placed, all lanes are above the bar, but for what waits on chains that are yet
to be registered. -/
theorem Arranged.linearize_above (h : l.Arranged seen)
    (hranked : ∀ lane ∈ l.lanes, lane.Ranked []) : ∀ lane ∈ l.linearize.1.lanes,
      lane.Above l.confirmBar fun id x => id ∈ l.roster.spawned ∧ x ∈ l.queue id := by
  intro lane hl
  obtain ⟨old, hold, hcut⟩ := h.linearize.2 lane hl
  obtain ⟨id, hid, hlane⟩ := mem_lanes.1 hold
  obtain ⟨c, hc, rfl⟩ := Option.map_eq_some_iff.1 hlane
  have hchain : lane.chain = id := hcut.chain.trans (h.chain?_id (h.mem_order id hid).1 hc)
  refine ⟨hcut.anchor ▸ confirmBar_le_anchor h hid hc, fun x hx => ?_⟩
  by_cases hregistered : lane.chain ∈ l.registered
  · -- what is left of a sorted queue starts at the bar or above it
    refine .inl ?_
    have hsorted : lane.Ranked [] := hcut.keeps (@Lane.ranked_closed seen) (hranked _ hold)
    cases hhead : lane.queue.head? with
    | none =>
      rw [List.head?_eq_none_iff.1 hhead] at hx
      cases hx
    | some y =>
      exact UInt64.le_trans (hcut.heads hregistered y hhead) (hsorted.head_le hx hhead)
  · have hspawned : id ∈ l.roster.spawned :=
      (List.mem_append.1 hid).resolve_left (hchain ▸ hregistered)
    refine .inr ⟨hchain.symm ▸ hspawned, ?_⟩
    rw [hchain, queue_eq hid, hlane]
    exact List.mem_append_left _ (hcut.queue.subset hx)

end Ledger

namespace Staged

variable {seen : List Block} {rules : Rules} {s : Staged} {P : Lane → Prop}

/-- A move keeps a ledger arranged, and its lanes keep what steps keep. -/
theorem perform_keeps (hP : Lane.Closed seen P) (h : s.ledger.Arranged seen)
    (hall : ∀ lane ∈ s.ledger.lanes, P lane) (m : Move) (hseen : ∀ block ∈ m.block?, block ∈ seen) :
    (s.perform rules m).1.ledger.Arranged seen ∧
      ∀ lane ∈ (s.perform rules m).1.ledger.lanes, P lane := by
  have hretires : ∀ {l : Ledger}, Ledger.Retires seen s.ledger l →
      l.Arranged seen ∧ ∀ lane ∈ l.lanes, P lane := fun hr =>
    ⟨hr.arranged, (hr.steps [] []).each hP hall⟩
  have hprogress : ∀ {l : Ledger} {events : List Event}, Ledger.Progress seen s.ledger l events →
      l.Arranged seen ∧ ∀ lane ∈ l.lanes, P lane := fun hp => by
    obtain ⟨log, -, hsteps⟩ := hp.steps
    exact ⟨hp.arranged, (hsteps [] []).each hP hall⟩
  cases m with
  | submitBlock block => exact hprogress (Ledger.submitBlock_progress rules h (hseen block rfl))
  | submitContent item => exact hprogress (Ledger.submitContent_progress h item)
  | stage =>
    unfold perform
    cases s.due with
    | register =>
      obtain ⟨harranged, hlanes⟩ := Ledger.registerSpawned_retires h
      exact ⟨harranged, fun lane hl => hall lane (hlanes ▸ hl)⟩
    | merge => exact hretires (Ledger.mergeIdle_retires rules h)
    | place =>
      obtain ⟨harranged, hcut⟩ := h.linearize
      refine ⟨harranged, fun lane hl => ?_⟩
      obtain ⟨old, hold, hcut⟩ := hcut lane hl
      exact hcut.keeps hP (hall old hold)
    | remove => exact hretires (Ledger.removeDrained_retires h)

/-- Only the third stage places anything. -/
theorem perform_cases (rules : Rules) (s : Staged) (m : Move) : (s.perform rules m).2 = [] ∨
    (m = .stage ∧ s.due = .place ∧
      s.perform rules m = (⟨s.ledger.linearize.1, .remove⟩, s.ledger.linearize.2)) := by
  cases m with
  | submitBlock block => exact .inl rfl
  | submitContent item => exact .inl rfl
  | stage =>
    unfold perform
    cases s.due with
    | register => exact .inl rfl
    | merge => exact .inl rfl
    | place => exact .inr ⟨rfl, rfl, rfl⟩
    | remove => exact .inl rfl

/-- From lanes above a bar, nothing is placed below it, but for what was waiting. -/
theorem placed_above {bar : UInt64} {waiting : ChainId → Block → Prop} :
    ∀ (moves : List Move) {s : Staged}, s.ledger.Arranged seen →
      (∀ lane ∈ s.ledger.lanes, lane.Above bar waiting) →
      (∀ m ∈ moves, ∀ block ∈ m.block?, block ∈ seen) →
      ∀ e ∈ s.placed rules moves, bar ≤ e.block.rank.current ∨ waiting e.chain e.block
  | [], _, _, _, _, _, he => nomatch he
  | m :: later, s, h, hall, hseen, e, he => by
    obtain ⟨hm, hlater⟩ := List.forall_mem_cons.1 hseen
    rcases List.mem_append.1 he with he | he
    · rcases perform_cases rules s m with hnil | ⟨-, -, hplace⟩
      · rw [hnil] at he
        cases he
      · rw [hplace] at he
        obtain ⟨-, lane, hl, hchain, hmem⟩ := h.mem_linearize he
        exact hchain ▸ (hall lane hl).queue _ hmem
    · obtain ⟨harranged, hnext⟩ := perform_keeps Lane.above_closed h hall m hm
      exact placed_above later harranged hnext hlater e he

/-- Where no block is overtaken, ranks never decrease. -/
theorem placed_ranked : ∀ (moves : List Move) {s : Staged}, s.ledger.Arranged seen →
    (∀ lane ∈ s.ledger.lanes, lane.Ranked []) →
    (∀ m ∈ moves, ∀ block ∈ m.block?, block ∈ seen) →
    (∀ before later, moves = before ++ .stage :: later →
      ¬(s.after rules before).Overtakes rules later) →
    ((s.placed rules moves).map (·.block.rank.current)).Pairwise (· ≤ ·)
  | [], _, _, _, _, _ => List.Pairwise.nil
  | m :: later, s, h, hranked, hseen, hnever => by
    obtain ⟨hm, hlater⟩ := List.forall_mem_cons.1 hseen
    obtain ⟨harranged, hnext⟩ := perform_keeps Lane.ranked_closed h hranked m hm
    have hrest := placed_ranked later harranged hnext hlater fun before after heq =>
      hnever (m :: before) after (heq ▸ rfl)
    unfold placed
    rcases perform_cases rules s m with hnil | ⟨rfl, hdue, hplace⟩
    · rw [hnil]
      exact hrest
    · have hovertakes := hnever [] later rfl
      have habove := h.linearize_above hranked
      unfold Overtakes after at hovertakes
      rw [List.foldl_nil] at hovertakes
      rw [hplace] at hrest harranged hovertakes ⊢
      rw [List.map_append, List.pairwise_append]
      refine ⟨h.linearize_sorted hranked, hrest, ?_⟩
      intro rank hrank rank' hrank'
      obtain ⟨d, hd, rfl⟩ := List.mem_map.1 hrank
      obtain ⟨e, he, rfl⟩ := List.mem_map.1 hrank'
      -- what is placed later is above the bar, or it was waiting and is not overtaken
      rcases placed_above later harranged habove hlater e he with hbar | ⟨hspawned, hqueue⟩
      · exact UInt64.le_of_lt (UInt64.lt_of_lt_of_le (h.mem_linearize hd).1 hbar)
      · refine UInt64.not_lt.1 fun hlt => hovertakes ?_
        exact ⟨hdue, d, hd, e, he, hspawned, hqueue, hlt⟩

/-- A block that is overtaken breaks the order of ranks. -/
theorem Overtakes.not_ranked {later : List Move} (h : s.Overtakes rules later) :
    ¬((s.placed rules (.stage :: later)).map (·.block.rank.current)).Pairwise (· ≤ ·) := by
  obtain ⟨hdue, d, hd, e, he, -, -, hlt⟩ := h
  have hplace : (s.perform rules .stage).2 = s.ledger.linearize.2 := by
    unfold perform
    rw [hdue]
  intro hranked
  unfold placed at hranked
  rw [List.map_append, List.pairwise_append, hplace] at hranked
  refine UInt64.not_le.2 hlt (hranked.2.2 _ ?_ _ ?_)
  · exact List.mem_map_of_mem hd
  · exact List.mem_map_of_mem he

/-- On a fresh ledger, whatever comes in between the stages of the passes: the ranks of the blocks
that are placed never decrease exactly if no stage places a block ahead of one of lower rank that is
final already, but waits on a chain that is yet to be registered. -/
theorem placed_ranked_iff {l : Ledger} (h : Ledger.create rules = .ok l) (moves : List Move) :
    ((placed rules ⟨l, .register⟩ moves).map (·.block.rank.current)).Pairwise (· ≤ ·) ↔
      ∀ before later, moves = before ++ .stage :: later →
        ¬(after rules ⟨l, .register⟩ before).Overtakes rules later := by
  constructor
  · rintro hranked before later rfl hovertakes
    rw [placed_append, List.map_append, List.pairwise_append] at hranked
    exact hovertakes.not_ranked hranked.2.1
  · intro hnever
    obtain ⟨harranged, hlanes, -⟩ :=
      @Run.create_arranged (moves.filterMap Move.block?) _ _ h
    refine placed_ranked moves harranged (fun lane hl => ?_) (fun m hm block hblock => ?_) hnever
    · exact Board.ranked_start.lanes lane (hlanes ▸ hl)
    · exact List.mem_filterMap.2 ⟨m, hm, hblock⟩

/-! ### A sample

The root is split after its pass has registered chains, and before the pass places blocks. -/

/-- Both children finalize a block of rank two, and the root one of rank three, while the pass waits
to place. None of them may finalize anything below rank nine after that. -/
def sampleMoves : List Move :=
  let left : ChainId := .ofWord 2
  let right : ChainId := .ofWord 3
  let block (id : Nat) (chain : ChainId) (previous : BlockId) (rank next : UInt64) : Move :=
    .submitBlock { Run.sampleBlock ⟨id⟩ chain previous [] rank with rank := ⟨rank, next⟩ }
  [ .stage, .stage, .submitContent Run.sampleItem,
    block 1 .root (Block.genesis .root).id 1 2, block 2 .root ⟨1⟩ 3 9,
    block 3 left ⟨1⟩ 2 9, block 4 left ⟨3⟩ 9 10, block 5 right ⟨1⟩ 2 9, block 6 right ⟨5⟩ 9 10,
    block 7 .root ⟨2⟩ 9 10,
    .stage, .stage, .stage, .stage, .stage, .stage ]

/-- The pass under way places the block of rank three, and the next pass those of rank two. If the
pass starts after all this has happened, it places them in order. -/
theorem sample_placed : ∃ l, Ledger.create Run.sampleRules = .ok l ∧
    (placed Run.sampleRules ⟨l, .register⟩ sampleMoves).map (·.block.rank.current) =
      [1, 3, 2, 2] ∧
    (placed Run.sampleRules ⟨l, .register⟩ (sampleMoves.drop 2)).map (·.block.rank.current) =
      [1, 2, 2, 3] := by
  have hall : (Ledger.create Run.sampleRules).toOption.any (fun l =>
      (placed Run.sampleRules ⟨l, .register⟩ sampleMoves).map (·.block.rank.current) =
        [1, 3, 2, 2] ∧
      (placed Run.sampleRules ⟨l, .register⟩ (sampleMoves.drop 2)).map (·.block.rank.current) =
        [1, 2, 2, 3]) = true := by
    decide +kernel
  cases hl : Ledger.create Run.sampleRules with
  | error => rw [hl] at hall; cases hall
  | ok l =>
    rw [hl] at hall
    exact ⟨l, rfl, of_decide_eq_true hall⟩

/-- Ranks may decrease when a chain is split off while a pass is under way. -/
theorem sample_placed_out_of_order : ∃ l, Ledger.create Run.sampleRules = .ok l ∧
    ¬((placed Run.sampleRules ⟨l, .register⟩ sampleMoves).map
      (·.block.rank.current)).Pairwise (· ≤ ·) := by
  obtain ⟨l, hl, hranks, -⟩ := sample_placed
  refine ⟨l, hl, ?_⟩
  rw [hranks]
  decide

/-- So some block is overtaken there, and none if the pass starts later. -/
theorem sample_placed_ranked_iff : ∃ l, Ledger.create Run.sampleRules = .ok l ∧
    (∃ before later, sampleMoves = before ++ .stage :: later ∧
      (after Run.sampleRules ⟨l, .register⟩ before).Overtakes Run.sampleRules later) ∧
    ∀ before later, sampleMoves.drop 2 = before ++ .stage :: later →
      ¬(after Run.sampleRules ⟨l, .register⟩ before).Overtakes Run.sampleRules later := by
  obtain ⟨l, hl, hranks, hordered⟩ := sample_placed
  refine ⟨l, hl, ?_, (placed_ranked_iff hl _).1 ?_⟩
  · by_contra hnone
    have hranked := (placed_ranked_iff hl sampleMoves).2 fun before later heq hovertakes =>
      hnone ⟨before, later, heq, hovertakes⟩
    rw [hranks] at hranked
    revert hranked
    decide
  · rw [hordered]
    decide

end Staged

end ShardLedger
