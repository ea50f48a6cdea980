import ShardLedger.Proofs.Ledger.Merging
import ShardLedger.Proofs.Ledger.Submitting
import ShardLedger.Proofs.Order.Draining

/-!
# Passes

A pass registers chains, merges leaves, delivers blocks and removes drained chains. On the board
that is a run of steps, which delivers exactly the blocks that the pass reports, all of them below
the bar of the pass.

- `Ledger.confirmBar_le_next`: no live chain may still finalize a block below the bar.
- `Ledger.Delivers`: what a pass does.
- `Ledger.tick_delivers`, `Ledger.settle_delivers`.
-/

namespace ShardLedger

/-- Where no chain is retired, a branch may finalize nothing below its floor. -/
theorem Branch.floor_le : ∀ {b : Branch}, (∀ p c, b.chainAt p = some c → c.retired = false) →
    ∀ {p : List Side} {c : Chain}, b.chainAt p = some c → b.floor ≤ c.nextRank
  | .leaf d, hlive, p, c, hc => by
    have hd := hlive [] d (chainAt_nil _)
    cases p with
    | nil =>
      rw [chainAt_nil, Option.some.injEq] at hc
      unfold floor
      rw [hd, if_neg Bool.false_ne_true]
      exact hc ▸ UInt64.le_refl _
    | cons => cases hc
  | .split d l r, hlive, p, c, hc => by
    have hd := hlive [] d (chainAt_nil _)
    have hl : ∀ {p c}, l.chainAt p = some c → l.floor ≤ c.nextRank :=
      floor_le fun p c h => hlive (.left :: p) c h
    have hr : ∀ {p c}, r.chainAt p = some c → r.floor ≤ c.nextRank :=
      floor_le fun p c h => hlive (.right :: p) c h
    unfold floor
    rw [hd, if_neg Bool.false_ne_true]
    dsimp only
    -- the floor is the least of the three
    have hmin : ∀ a b : UInt64, (if a < b then a else b) ≤ a ∧ (if a < b then a else b) ≤ b := by
      intro a b
      split
      · exact ⟨UInt64.le_refl _, UInt64.le_of_lt ‹_›⟩
      · exact ⟨UInt64.not_lt.1 ‹_›, UInt64.le_refl _⟩
    obtain ⟨hright, hleft⟩ := hmin r.floor l.floor
    obtain ⟨hbelow, htop⟩ := hmin (if r.floor < l.floor then r.floor else l.floor) d.nextRank
    cases p with
    | nil =>
      rw [chainAt_nil, Option.some.injEq] at hc
      exact hc ▸ htop
    | cons side p =>
      cases side with
      | left => exact UInt64.le_trans hbelow (UInt64.le_trans hleft (hl hc))
      | right => exact UInt64.le_trans hbelow (UInt64.le_trans hright (hr hc))

namespace Ledger

variable {seen : List Block} {l l' l'' : Ledger} {id : ChainId} {c : Chain}

theorem mem_registeredBranches_root (h : l.Arranged seen) :
    l.root ∈ l.registeredBranches := by
  refine List.mem_filterMap.2 ⟨.root, h.root_registered, branch?_live ?_⟩
  rw [show ChainId.root.path = [] from ChainId.turns_one, Branch.at?_nil]

/-- The root has a place among the sources, and its floor covers all live chains. -/
theorem confirmBar_le_next (h : l.Arranged seen) {p : List Side} {top : Block}
    (hc : l.root.chainAt p = some c) (hrun : c.Running seen top) :
    l.confirmBar ≤ top.rank.next := by
  have hlive : ∀ p c, l.root.chainAt p = some c → c.retired = false := fun p c hc => by
    obtain ⟨_, hrun⟩ := h.running p c hc
    exact hrun.live
  rw [← hrun.nextRank]
  refine UInt64.le_trans (confirmBar_le (s := source l.root) ?_) (Branch.floor_le hlive hc)
  exact List.mem_map_of_mem (mem_registeredBranches_root h)

/-- A chain that may still finalize is live, and then it does so from the bar on. -/
theorem confirmBar_le_anchor (h : l.Arranged seen) (hid : id ∈ l.order)
    (hc : l.chain? id = some c) : ∀ top ∈ (Lane.of c).anchor?, l.confirmBar ≤ top.rank.next := by
  intro top htop
  rcases (h.chain?_iff (h.mem_order id hid).1).1 hc with hlive | ⟨hret, -⟩
  · obtain ⟨t, hrun⟩ := h.running _ _ hlive
    rw [Lane.of_running hrun, Option.mem_some_iff] at htop
    exact htop ▸ confirmBar_le_next h hlive hrun
  · unfold Lane.of at htop
    rw [if_pos (h.halted c hret).1] at htop
    cases htop

/-! ### Registering -/

theorem registerSpawned_order : l.registerSpawned.1.order = l.order := List.append_nil _

/-- Registering keeps the order, and with it the lanes. -/
theorem registerSpawned_retires (h : l.Arranged seen) :
    l.registerSpawned.1.Arranged seen ∧ l.registerSpawned.1.lanes = l.lanes := by
  have horder := registerSpawned_order (l := l)
  refine ⟨?_, ?_⟩
  · exact
      { numbered := h.numbered, running := h.running, halted := h.halted
        retired_nodup := h.retired_nodup, order_nodup := horder ▸ h.order_nodup
        mem_order := fun a ha => h.mem_order a (horder ▸ ha)
        live_mem := fun p c hc => horder ▸ h.live_mem p c hc
        retired_mem := fun c hc => horder ▸ h.retired_mem c hc
        occupied := fun a ha => h.occupied a (horder ▸ ha), leaving := h.leaving
        root_registered := List.mem_append_left _ h.root_registered }
  · show l.registerSpawned.1.order.filterMap _ = _
    rw [horder]
    rfl

/-! ### Delivering -/

/-- Set what is queued on a chain. -/
def setQueue (l : Ledger) (s : Source) : Ledger :=
  l.update s.chain fun c => { c with undelivered := s.queue }

theorem running_setQueue {top : Block} {q : List Block} (h : c.Running seen top) :
    ({ c with undelivered := q } : Chain).Running seen top :=
  ⟨h.sound.congr rfl rfl rfl h.sound.waiting, h.live, h.anchor, h.nextRank⟩

/-- A lookup does not find what has changed of another live chain. -/
theorem chain?_put_off {b : Branch} {d : Chain} {r : Roster} (hb : l.root.at? id.path = some b)
    {a : ChainId} (hne : a.path ≠ id.path) :
    (l.put id (b.withChain d) r).chain? a = l.chain? a := by
  have hsame : (l.put id (b.withChain d) r).root.chainAt a.path = l.root.chainAt a.path :=
    (Branch.chainAt_replace_withChain hb a.path).trans (if_neg hne)
  rw [chain?_eq, chain?_eq, hsame]
  rfl

/-- What a lookup finds after a retired chain has changed by itself. -/
theorem chain?_mapRetired {f : Chain → Chain} (hf : ∀ e, (f e).id = e.id)
    (hdead : l.root.chainAt id.path = none) (a : ChainId) :
    ({ l with retired := l.retired.map fun e => if e.id = id then f e else e } : Ledger).chain? a =
      if a = id then (l.chain? a).map f else l.chain? a := by
  have hids : ∀ e : Chain, (if e.id = id then f e else e).id = e.id := fun e => by
    split
    · exact hf e
    · rfl
  rw [chain?_eq, chain?_eq]
  dsimp only
  rw [find?_map_same hids]
  by_cases hne : a = id
  · subst hne
    rw [if_pos rfl, hdead]
    dsimp only
    cases hfind : l.retired.find? (·.id = a) with
    | none => rfl
    | some e =>
      have : e.id = a := by simpa using List.find?_some hfind
      rw [Option.map_some, if_pos this, Option.map_some]
  · rw [if_neg hne]
    split
    · rfl
    · cases hfind : l.retired.find? (·.id = a) with
      | none => rfl
      | some e =>
        have : e.id = a := by simpa using List.find?_some hfind
        rw [Option.map_some, if_neg (this ▸ hne)]

/-- What a lookup finds after a chain has changed by itself. -/
theorem chain?_update (f : Chain → Chain) (h : l.Arranged seen)
    (hf : ∀ e, (f e).id = e.id) (hid : id ∈ l.order) {a : ChainId} (ha : 0 < a.number) :
    (l.update id f).chain? a = if a = id then (l.chain? a).map f else l.chain? a := by
  obtain ⟨hpos, c, hc⟩ := h.mem_order id hid
  obtain ⟨b, hb, rfl⟩ := Option.map_eq_some_iff.1 hc
  unfold update
  rw [hb]
  dsimp only
  rcases branch?_cases hb with hlive | ⟨hnone, c, hcr, hcid, rfl⟩
  · rw [replace_live hlive]
    by_cases hne : a = id
    · subst hne
      rw [if_pos rfl, chain?_live (chainAt_of_at? (at?_put hlive)),
        chain?_live (chainAt_of_at? hlive), Branch.chain_withChain]
      rfl
    · rw [if_neg hne]
      exact chain?_put_off hlive fun hp => hne (ChainId.path_injective ha hpos hp)
  · have hdead : l.root.chainAt id.path = none := by
      unfold Branch.chainAt
      rw [hnone]
      rfl
    show (l.replace id (.leaf (f c))).chain? a = _
    rw [replace_retired h hnone hcr hcid f rfl]
    exact chain?_mapRetired hf hdead a

theorem setQueue_rest (l : Ledger) (s : Source) :
    (l.setQueue s).registered = l.registered ∧ (l.setQueue s).roster = l.roster ∧
      (l.setQueue s).linearizer = l.linearizer := by
  unfold setQueue update
  split
  · unfold replace
    split <;> exact ⟨rfl, rfl, rfl⟩
  · exact ⟨rfl, rfl, rfl⟩

/-- A ledger stays arranged whatever is queued on its chains. -/
theorem Arranged.setQueue (h : l.Arranged seen) {s : Source} (hid : s.chain ∈ l.order) :
    (l.setQueue s).Arranged seen := by
  obtain ⟨hpos, c, hc⟩ := h.mem_order _ hid
  obtain ⟨b, hb, rfl⟩ := Option.map_eq_some_iff.1 hc
  unfold Ledger.setQueue update
  rw [hb]
  dsimp only
  rcases branch?_cases hb with hlive | ⟨hnone, c, hcr, hcid, rfl⟩
  · rw [replace_live hlive]
    have hchain := chainAt_of_at? hlive
    obtain ⟨top, hrun⟩ := h.running _ _ hchain
    have hgrows : Grows l (l.put s.chain (b.withChain { b.chain with undelivered := s.queue })
        l.roster) s.chain { b.chain with undelivered := s.queue } [] := by
      refine grows_put hlive (by rw [Branch.chain_withChain]) fun p hp => ?_
      unfold Branch.bareAt
      rw [Branch.chainAt_withChain _ _ hp]
    exact h.grow hgrows (newborn_nil seen l) hid hchain (running_setQueue hrun)
      (h.live_id hpos hchain).1
  · show (l.replace s.chain (.leaf { c with undelivered := s.queue })).Arranged seen
    rw [replace_retired h hnone hcr hcid (fun e => { e with undelivered := s.queue }) rfl]
    refine h.mapRetired fun e => ?_
    split <;> exact ⟨rfl, rfl⟩

/-- After the queues of some chains have been set, each of them holds what was given. -/
theorem setQueues_spec : ∀ (sources : List Source) {l : Ledger}, l.Arranged seen →
    (sources.map (·.chain)).Nodup → (∀ s ∈ sources, s.chain ∈ l.order) →
    let l' := sources.foldl setQueue l
    l'.Arranged seen ∧ l'.registered = l.registered ∧ l'.roster = l.roster ∧
      l'.linearizer = l.linearizer ∧
      (∀ s ∈ sources, l'.chain? s.chain =
        (l.chain? s.chain).map fun c => { c with undelivered := s.queue }) ∧
      ∀ a, 0 < a.number → a ∉ sources.map (·.chain) → l'.chain? a = l.chain? a
  | [], l, h, _, _ => ⟨h, rfl, rfl, rfl, fun _ hs => (nomatch hs), fun _ _ _ => rfl⟩
  | s :: rest, l, h, hnodup, hmem => by
    intro l'
    obtain ⟨hfresh, hnodup⟩ := List.nodup_cons.1 hnodup
    have hs := hmem s (List.mem_cons_self ..)
    obtain ⟨hreg, hroster, hlin⟩ := setQueue_rest l s
    have horder : (l.setQueue s).order = l.order := by
      unfold order
      rw [hreg, hroster]
    have hupdate : ∀ {a : ChainId}, 0 < a.number → (l.setQueue s).chain? a =
        if a = s.chain then (l.chain? a).map fun c => { c with undelivered := s.queue }
        else l.chain? a := fun ha =>
      chain?_update (fun c => { c with undelivered := s.queue }) h (fun _ => rfl) hs ha
    -- set the first queue, then the others: no chain is set twice
    obtain ⟨harranged, hreg', hroster', hlin', hset, hkept⟩ :=
      setQueues_spec rest (h.setQueue hs) hnodup fun t ht =>
        horder ▸ hmem t (List.mem_cons_of_mem _ ht)
    refine ⟨harranged, hreg'.trans hreg, hroster'.trans hroster, hlin'.trans hlin, ?_, ?_⟩
    · intro t ht
      have hpos := (h.mem_order _ (hmem t ht)).1
      rcases List.mem_cons.1 ht with rfl | ht
      · rw [show l'.chain? t.chain = _ from hkept _ hpos hfresh, hupdate hpos, if_pos rfl]
      · rw [show l'.chain? t.chain = _ from hset t ht, hupdate hpos, if_neg]
        exact fun heq => hfresh (List.mem_map.2 ⟨t, ht, heq⟩)
    · intro a ha hnot
      rw [List.map_cons, List.mem_cons, not_or] at hnot
      rw [show l'.chain? a = _ from hkept a ha hnot.2, hupdate ha, if_neg hnot.1]

/-- After the queues of all chains have been set, the sources are the lanes. -/
theorem setQueues_lanes {anchor : ChainId → Option Block} {sources : List Source}
    (h : l.Arranged seen) (hchains : sources.map (·.chain) = l.order)
    (hanchor : ∀ id c, id ∈ l.order → l.chain? id = some c → anchor id = (Lane.of c).anchor?) :
    (sources.foldl setQueue l).lanes = sources.map (Source.lane anchor) := by
  have hmem : ∀ s ∈ sources, s.chain ∈ l.order := fun s hs =>
    hchains ▸ List.mem_map_of_mem hs
  obtain ⟨-, hreg, hroster, -, hset, -⟩ :=
    setQueues_spec sources h (hchains ▸ h.order_nodup) hmem
  have horder : (sources.foldl setQueue l).order = l.order := by
    unfold order
    rw [hreg, hroster]
  show (sources.foldl setQueue l).order.filterMap (laneAt _) = _
  rw [horder, ← hchains, List.filterMap_map, ← List.filterMap_eq_map]
  refine List.filterMap_congr fun s hs => ?_
  obtain ⟨hpos, c, hc⟩ := h.mem_order _ (hmem s hs)
  show (sources.foldl setQueue l).laneAt s.chain = some (s.lane anchor)
  unfold laneAt
  rw [hset s hs, hc]
  refine congrArg some ?_
  show (⟨c.id, (Lane.of c).anchor?, s.queue⟩ : Lane) = ⟨s.chain, anchor s.chain, s.queue⟩
  rw [h.chain?_id hpos hc, hanchor _ c (hmem s hs) hc]

/-- What a pass reports is what it delivers on the board. -/
structure Delivers (seen : List Block) (l l' : Ledger) (delivered : List Linearized) : Prop where
  arranged : l'.Arranged seen
  steps : ∀ fin del, Board.Steps seen ⟨l.lanes, fin, del⟩
    ⟨l'.lanes, fin, del ++ delivered.map fun d => (d.chain, d.block)⟩
  seq : delivered.map (·.seq) = List.range' l.linearizer.delivered delivered.length
  count : l'.linearizer.delivered = l.linearizer.delivered + delivered.length

theorem Delivers.refl (h : l.Arranged seen) : Delivers seen l l [] :=
  ⟨h, fun _ _ => by rw [List.map_nil, List.append_nil], rfl, rfl⟩

theorem Delivers.trans {first later : List Linearized} (h₁ : Delivers seen l l' first)
    (h₂ : Delivers seen l' l'' later) : Delivers seen l l'' (first ++ later) where
  arranged := h₂.arranged
  steps fin del := by
    rw [List.map_append, ← List.append_assoc]
    exact (h₁.steps fin del).trans (h₂.steps fin _)
  seq := by
    rw [List.map_append, h₁.seq, h₂.seq, h₁.count, List.length_append, List.range'_append_1]
  count := by rw [h₂.count, h₁.count, List.length_append, Nat.add_assoc]

/-- Lanes retire or close, and nothing is delivered. -/
theorem Retires.delivers (h : Retires seen l l') : Delivers seen l l' [] where
  arranged := h.arranged
  steps fin del := by
    rw [List.map_nil, List.append_nil]
    exact h.steps fin del
  seq := rfl
  count := by rw [h.linearizer]; rfl

/-- Once all chains are registered, they are the order. -/
theorem order_eq_registered (hspawned : l.roster.spawned = []) : l.order = l.registered := by
  unfold order
  rw [hspawned, List.append_nil]

/-- The sources are those of the registered chains. -/
theorem sources_chains (h : l.Arranged seen) : l.sources.map (·.chain) = l.registered := by
  unfold sources registeredBranches
  rw [List.map_map, List.map_filterMap]
  refine (List.filterMap_congr fun a ha => ?_).trans List.filterMap_some
  have hmem : a ∈ l.order := List.mem_append_left _ ha
  obtain ⟨-, c, hc⟩ := h.mem_order a hmem
  obtain ⟨b, hb, -⟩ := Option.map_eq_some_iff.1 hc
  rw [hb]
  exact congrArg some (h.branch?_id hmem hb)

/-- The sources of a ledger whose chains are all registered are its lanes. -/
theorem lanes_eq_sources (h : l.Arranged seen) (hspawned : l.roster.spawned = []) :
    ∃ anchor : ChainId → Option Block, l.lanes = l.sources.map (Source.lane anchor) ∧
      ∀ id c, id ∈ l.order → l.chain? id = some c → anchor id = (Lane.of c).anchor? := by
  refine ⟨fun id => (l.laneAt id).bind (·.anchor?), ?_, fun id c _ hc => ?_⟩
  · have horder := order_eq_registered hspawned
    show l.order.filterMap l.laneAt = (List.map source (l.registered.filterMap l.branch?)).map _
    rw [horder, List.map_map, ← List.filterMap_eq_map (f := _ ∘ _), List.filterMap_filterMap]
    refine List.filterMap_congr fun a ha => ?_
    unfold laneAt chain?
    cases hb : l.branch? a with
    | none => rfl
    | some b =>
      have hid : b.chain.id = a := h.branch?_id (horder ▸ ha) hb
      have hview : l.laneAt b.chain.id = some (Lane.of b.chain) := by
        unfold laneAt chain?
        rw [hid, hb]
        rfl
      show some (Lane.of b.chain) = some ⟨b.chain.id, (l.laneAt b.chain.id).bind (·.anchor?),
        b.chain.undelivered⟩
      rw [hview]
      rfl
  · show (l.laneAt id).bind _ = _
    unfold laneAt
    rw [hc]
    rfl

/-- The ledger that delivers, with the blocks taken and the sources that are left. -/
theorem linearize_eq (l : Ledger) :
    l.linearize.1 = (drainBelow l.confirmBar l.sources).2.foldl setQueue
        { l with linearizer :=
          ⟨l.linearizer.delivered + (drainBelow l.confirmBar l.sources).1.length, l.confirmBar⟩ } ∧
      l.linearize.2 = (drainBelow l.confirmBar l.sources).1.zipIdx.map fun ((chain, block), i) =>
        ⟨l.linearizer.delivered + i, chain, block⟩ :=
  ⟨rfl, rfl⟩

theorem map_zipIdx_block (n : Nat) (taken : List (ChainId × Block)) :
    (taken.zipIdx.map fun ((chain, block), i) => (⟨n + i, chain, block⟩ : Linearized)).map
      (fun d => (d.chain, d.block)) = taken := by
  rw [List.map_map]
  exact (List.map_congr_left fun _ _ => rfl).trans (List.zipIdx_map_fst 0 taken)

theorem map_zipIdx_seq (n : Nat) (taken : List (ChainId × Block)) :
    (taken.zipIdx.map fun ((chain, block), i) => (⟨n + i, chain, block⟩ : Linearized)).map
      (·.seq) = List.range' n taken.length := by
  rw [List.map_map]
  have hseq : ∀ t ∈ taken.zipIdx, ((fun d : Linearized => d.seq) ∘
      fun ((chain, block), i) => (⟨n + i, chain, block⟩ : Linearized)) t =
        ((fun i => n + i) ∘ Prod.snd) t := fun _ _ => rfl
  rw [List.map_congr_left hseq, ← List.map_map, List.zipIdx_map_snd, List.map_add_range']
  rfl

/-- The deliveries of a pass, once all chains are registered. -/
theorem linearize_delivers (h : l.Arranged seen) (hspawned : l.roster.spawned = []) :
    Delivers seen l l.linearize.1 l.linearize.2 ∧
      l.linearize.1.linearizer.lastBar = l.confirmBar ∧
      ∀ d ∈ l.linearize.2, d.block.rank.current < l.confirmBar := by
  obtain ⟨anchor, hlanes, hanchor⟩ := lanes_eq_sources h hspawned
  obtain ⟨heq, hdelivered⟩ := linearize_eq l
  have hchains := (sources_chains h).trans (order_eq_registered hspawned).symm
  have hbar : ∀ s ∈ l.sources, ∀ top ∈ anchor s.chain, l.confirmBar ≤ top.rank.next := by
    intro s hs top htop
    have hmem : s.chain ∈ l.order := hchains ▸ List.mem_map_of_mem hs
    obtain ⟨-, c, hc⟩ := h.mem_order _ hmem
    rw [hanchor _ c hmem hc] at htop
    exact confirmBar_le_anchor h hmem hc top htop
  have hdrains := drainBelow_drains l.confirmBar l.sources
  have hsteps := @drainBelow_steps seen anchor l.confirmBar l.sources hbar
  rw [heq, hdelivered]
  generalize drainBelow l.confirmBar l.sources = pass at *
  have hleft : pass.2.map (·.chain) = l.order := hdrains.chains.trans hchains
  have h₀ : ({ l with linearizer :=
      ⟨l.linearizer.delivered + pass.1.length, l.confirmBar⟩ } : Ledger).Arranged seen :=
    { h with }
  obtain ⟨harranged, -, -, hlin, -⟩ := setQueues_spec pass.2 h₀
    (hleft ▸ h.order_nodup) fun s hs => by
      show s.chain ∈ l.order
      exact hleft ▸ List.mem_map_of_mem hs
  have hnew := setQueues_lanes h₀ hleft hanchor
  refine ⟨⟨harranged, fun fin del => ?_, ?_, ?_⟩, by rw [hlin], fun d hd => ?_⟩
  · rw [hnew, hlanes, map_zipIdx_block]
    exact hsteps fin del
  · rw [map_zipIdx_seq, List.length_map, List.length_zipIdx]
  · rw [hlin, List.length_map, List.length_zipIdx]
  · obtain ⟨⟨t, i⟩, ht, rfl⟩ := List.mem_map.1 hd
    exact (hdrains.takes t (List.fst_mem_of_mem_zipIdx ht)).1

/-! ### Whole passes -/

/-- The bar of the next pass: what the sources show once chains are registered and merged. -/
def passBar (l : Ledger) (rules : Rules) : UInt64 :=
  (l.registerSpawned.1.mergeIdle rules).1.confirmBar

theorem tick_delivers (rules : Rules) (h : l.Arranged seen) :
    Delivers seen l (l.tick rules).ledger (l.tick rules).delivered ∧
      (l.tick rules).ledger.linearizer.lastBar = l.passBar rules ∧
      ∀ d ∈ (l.tick rules).delivered, d.block.rank.current < l.passBar rules := by
  obtain ⟨harranged, hlanes⟩ := registerSpawned_retires h
  have hmerged := mergeIdle_retires rules harranged
  have hspawned : (l.registerSpawned.1.mergeIdle rules).1.roster.spawned = [] := hmerged.spawned
  obtain ⟨hplaced, hbar, hbelow⟩ := linearize_delivers hmerged.arranged hspawned
  have hremoved := removeDrained_retires hplaced.arranged
  have hfirst : Delivers seen l l.registerSpawned.1 [] :=
    ⟨harranged, fun _ _ => by rw [hlanes, List.map_nil, List.append_nil], rfl, rfl⟩
  -- registering, merging, delivering, removing
  have hall := ((hfirst.trans hmerged.delivers).trans hplaced).trans hremoved.delivers
  rw [List.append_nil, List.append_nil, List.nil_append] at hall
  exact ⟨hall, (congrArg Linearizer.lastBar hremoved.linearizer).trans hbar, hbelow⟩

/-- An idle pass delivers nothing. -/
theorem delivered_of_isIdle {rules : Rules} (h : (l.tick rules).report.isIdle = true) :
    (l.tick rules).delivered = [] := by
  have hzero : (l.tick rules).report.linearized = (l.tick rules).delivered.length := rfl
  unfold PassReport.isIdle at h
  rw [Bool.and_eq_true, hzero] at h
  exact List.length_eq_zero_iff.1 (by simpa using h.2)

/-- A pass from some arranged ledger. -/
def IsPass (seen : List Block) (rules : Rules) (pass : Pass) : Prop :=
  ∃ l : Ledger, l.Arranged seen ∧ pass = l.tick rules

theorem settleWithin_delivers (rules : Rules) : ∀ (fuel : Nat) {l : Ledger}, l.Arranged seen →
    Delivers seen l (settleWithin rules fuel l).1
        ((settleWithin rules fuel l).2.flatMap (·.delivered)) ∧
      ∀ pass ∈ (settleWithin rules fuel l).2, IsPass seen rules pass
  | 0, _, h => ⟨.refl h, fun _ hp => nomatch hp⟩
  | fuel + 1, l, h => by
    obtain ⟨hfirst, -⟩ := tick_delivers rules h
    unfold settleWithin
    dsimp only
    -- the pass that ends the loop is idle, so nothing is lost with it
    split
    · rename_i hidle
      rw [delivered_of_isIdle hidle] at hfirst
      exact ⟨hfirst, fun _ hp => nomatch hp⟩
    · obtain ⟨hrest, hpasses⟩ := settleWithin_delivers rules fuel hfirst.arranged
      refine ⟨hfirst.trans hrest, fun pass hp => ?_⟩
      rcases List.mem_cons.1 hp with rfl | hp
      · exact ⟨l, h, rfl⟩
      · exact hpasses pass hp

/-- What settling delivers, pass by pass. -/
theorem settle_delivers (rules : Rules) (h : l.Arranged seen) :
    Delivers seen l (l.settle rules).1 ((l.settle rules).2.flatMap (·.delivered)) ∧
      ∀ pass ∈ (l.settle rules).2, IsPass seen rules pass :=
  settleWithin_delivers rules _ h

end Ledger

end ShardLedger
