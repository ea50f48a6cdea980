import ShardLedger.Proofs.Chain.Orderly

/-!
# What a submission does to a chain

A submitted block may release others, and each of them meets the chain as the ones before it left
it: with dead forks pruned, the anchor moved on, and perhaps a split made in between. The records of
the chain agree at every one of these meetings, so the graph refuses nothing that gets as far.

- `Chain.Reachable`: the states of a chain, whatever is done to it.
- `Branch.Applies`: the meetings of a submission.
- `Branch.Accounted`, `Branch.accounted`: what holds of a reachable chain and of every submission to
  it.
-/

namespace ShardLedger

namespace Branch

variable {seen : List Block} {rules : Rules} {roster : Roster} {b : Branch} {m : Chain}
  {block x : Block} {xs after : List Block} {a : Chain.Applied} {chain : ChainId} {id : BlockId}
  {weight : Nat}

/-! ### One released block -/

/-- The blocks that an entering block finalizes are settled in the branch. -/
theorem apply_settled (rules : Rules) (roster : Roster) (h : b.chain.apply x = some a) :
    Settled rules roster (b.withChain a.outcome.1) a.outcome.2 (b.apply rules roster x).1
      (b.apply rules roster x).2.1 := by
  rw [apply_of_some h]
  exact settleAll_settled rules a.outcome.2 roster (b.withChain a.outcome.1)

/-- The topmost chain once a block has entered it. -/
theorem apply_top (h : b.chain.apply x = some a) :
    (b.apply rules roster x).1.chain.bare =
      (a.outcome.1.enqueueAll rules.config a.outcome.2).bare := by
  have htop := (apply_settled rules roster h).top
  rwa [chain_withChain, Chain.enqueueAll_bare] at htop

/-- What is reported of a block that enters begins with its weight. -/
theorem apply_events (rules : Rules) (roster : Roster) (h : b.chain.apply x = some a) : ∃ later,
    (b.apply rules roster x).2.2 = .applied b.chain.id x.id a.weight :: later ∧
      ∀ chain id weight, .applied chain id weight ∉ later := by
  rw [apply_of_some h]
  refine ⟨_, rfl, fun chain id weight hin => ?_⟩
  split at hin
  · cases hin
  · cases List.mem_singleton.1 hin

theorem apply_orderly (h : b.chain.Orderly seen) (hready : b.chain.Ready seen (x :: xs)) :
    (b.apply rules roster x).1.chain.Orderly seen ∧
      (b.apply rules roster x).1.chain.Ready seen xs := by
  cases ha : b.chain.apply x with
  | none =>
    rw [apply_of_none ha]
    exact ⟨h, hready.tail⟩
  | some a =>
    obtain ⟨horderly, hrest⟩ := h.enter hready ha rules.config
    exact ⟨horderly.of_bare (apply_top ha), hrest.of_bare (apply_top ha)⟩

/-! ### All released blocks -/

/-- Each of the released blocks meets an orderly chain, and is still new to it. -/
theorem applyAll_orderly : ∀ (before : List Block) {roster : Roster} {b : Branch},
    b.chain.Orderly seen → b.chain.Ready seen (before ++ after) →
      (applyAll rules roster b before).1.chain.Orderly seen ∧
        (applyAll rules roster b before).1.chain.Ready seen after
  | [], _, _, h, hready => ⟨h, hready⟩
  | _ :: rest, _, _, h, hready =>
    have ⟨hfirst, hlater⟩ := apply_orderly h hready
    applyAll_orderly rest hfirst hlater

/-- Every weight that is reported is that of a released block, where this enters. -/
theorem mem_applyAll_events : ∀ (xs : List Block) {roster : Roster} {b : Branch},
    .applied chain id weight ∈ (applyAll rules roster b xs).2.2.2 →
      ∃ before x after a, xs = before ++ x :: after ∧
        (applyAll rules roster b before).1.chain.apply x = some a ∧
        (applyAll rules roster b before).1.chain.id = chain ∧ x.id = id ∧ a.weight = weight
  | [], _, _, h => nomatch h
  | x :: rest, roster, b, h => by
    have hboth : .applied chain id weight ∈ (b.apply rules roster x).2.2 ++
        (applyAll rules (b.apply rules roster x).2.1 (b.apply rules roster x).1 rest).2.2.2 := h
    rcases List.mem_append.1 hboth with h | h
    · cases ha : b.chain.apply x with
      | none =>
        rw [apply_of_none ha] at h
        cases h
      | some a =>
        obtain ⟨later, hevents, hnone⟩ := apply_events rules roster ha
        rw [hevents] at h
        rcases List.mem_cons.1 h with heq | hin
        · cases heq
          exact ⟨[], x, rest, a, rfl, ha, rfl, rfl, rfl⟩
        · exact absurd hin (hnone _ _ _)
    · obtain ⟨before, y, after, a, rfl, hrest⟩ := mem_applyAll_events rest h
      exact ⟨x :: before, y, after, a, rfl, hrest⟩

/-- Where the first released block enters, the count is not zero. -/
theorem applyAll_count_pos (h : b.chain.apply x = some a) :
    1 ≤ (applyAll rules roster b (x :: xs)).2.2.1 := by
  obtain ⟨later, hevents, -⟩ := apply_events rules roster h
  unfold applyAll
  dsimp only
  rw [hevents]
  exact Nat.le_add_left ..

/-! ### Whole submissions -/

/-- When `block` is submitted to the topmost chain of `b`, block `x` is applied to that chain as it
is in `m`: it was released, and the blocks released before it have been applied. -/
def Applies (rules : Rules) (roster : Roster) (b : Branch) (block : Block) (m : Chain)
    (x : Block) : Prop :=
  ∃ parent c before after, Chain.screen rules b.chain.id block = .ok parent ∧
    b.chain.receive block parent = (c, .released (before ++ x :: after)) ∧
    m = (applyAll rules roster (b.withChain c) before).1.chain

/-- A submission reports the weights of the blocks that it applies. -/
theorem submit_events (h : .applied chain id weight ∈ (b.submit rules roster block).events) :
    ∃ m x a, Applies rules roster b block m x ∧ m.apply x = some a ∧ m.id = chain ∧ x.id = id ∧
      a.weight = weight := by
  have hsubmitted := b.submitted rules roster block
  generalize b.submit rules roster block = s at hsubmitted h
  cases hsubmitted with
  | screened => cases h
  | settled => cases h
  | @entered parent c xs hscreen hreceive =>
    obtain ⟨before, x, after, a, rfl, ha, hid, hx, hw⟩ := mem_applyAll_events xs h
    exact ⟨_, x, a, ⟨parent, c, before, after, hscreen, hreceive, rfl⟩, ha, hid, hx, hw⟩

theorem Applies.orderly (h : b.chain.Orderly seen) (hseen : block ∈ seen)
    (happlies : Applies rules roster b block m x) :
    m.Orderly seen ∧ ¬m.graph.Live x.id := by
  obtain ⟨parent, c, before, after, hscreen, hreceive, rfl⟩ := happlies
  obtain ⟨hb, hparent⟩ := Chain.admitted_of_screen hseen hscreen
  obtain ⟨horderly, hready⟩ := h.receive hb hparent
  rw [hreceive] at horderly hready
  have ⟨hm, hrest⟩ := @applyAll_orderly seen rules (x :: after) before roster (b.withChain c)
    (by rwa [chain_withChain]) (by rw [chain_withChain]; exact hready _ rfl)
  exact ⟨hm, hrest.fresh x (List.mem_cons_self ..)⟩

theorem submit_orderly (rules : Rules) (roster : Roster) (h : b.chain.Orderly seen)
    (hseen : block ∈ seen) : (b.submit rules roster block).branch.chain.Orderly seen := by
  have hsubmitted := b.submitted rules roster block
  generalize b.submit rules roster block = s at hsubmitted ⊢
  cases hsubmitted with
  | screened => exact h
  | @settled parent c outcome hscreen hreceive =>
    obtain ⟨hb, hparent⟩ := Chain.admitted_of_screen hseen hscreen
    have horderly := (h.receive hb hparent).1
    rw [hreceive] at horderly
    rwa [chain_withChain]
  | @entered parent c xs hscreen hreceive =>
    obtain ⟨hb, hparent⟩ := Chain.admitted_of_screen hseen hscreen
    obtain ⟨horderly, hready⟩ := h.receive hb hparent
    rw [hreceive] at horderly hready
    refine (@applyAll_orderly seen rules [] xs roster (b.withChain c)
      (by rwa [chain_withChain]) ?_).1
    rw [chain_withChain, List.append_nil]
    exact hready xs rfl

/-- The submitted block itself always enters when it is released. -/
theorem applied_pos (h : b.chain.Orderly seen) (hseen : block ∈ seen) {n : Nat}
    (hout : (b.submit rules roster block).outcome = .applied n) : 1 ≤ n := by
  have hsubmitted := b.submitted rules roster block
  generalize b.submit rules roster block = s at hsubmitted hout
  cases hsubmitted with
  | screened => cases hout
  | settled _ hreceive =>
    cases hout
    exact absurd hreceive Chain.receive_ne_applied
  | @entered parent c xs hscreen hreceive =>
    obtain ⟨hb, hparent⟩ := Chain.admitted_of_screen hseen hscreen
    obtain ⟨behind, above, rfl, habove, hrank⟩ := Chain.receive_released hreceive
    obtain ⟨horderly, hready⟩ := h.receive hb hparent
    rw [hreceive] at horderly hready
    obtain ⟨a, ha⟩ := horderly.apply_isSome ((hready _ rfl).fresh block (List.mem_cons_self ..))
      hparent habove hrank
    cases hout
    refine applyAll_count_pos (a := a) ?_
    rwa [chain_withChain]

end Branch

namespace Chain

/-- The states of a chain. It may stand alone or belong to a ledger, as the root or as a child that
was split off, and it may have been merged away. -/
inductive Reachable (rules : Rules) : Chain → Prop where
  /-- A chain starts from a block: the genesis, or a finalized block of its parent. -/
  | start {id : ChainId} {genesis : Block} {graph : ForkGraph} {content : ContentStore}
      {cursor : Cursor} (hgraph : newGraph rules.config genesis.id = .ok graph) :
      Reachable rules (start id genesis graph content cursor)
  /-- A block is submitted to the chain, which is the topmost of a branch. -/
  | submit {b : Branch} (roster : Roster) (block : Block) (h : Reachable rules b.chain) :
      Reachable rules (b.submit rules roster block).branch.chain
  | discardPending {c : Chain} (id : BlockId) (h : Reachable rules c) :
      Reachable rules (c.discardPending id).1
  /-- The chain is merged into its parent. -/
  | retire {c : Chain} (h : Reachable rules c) : Reachable rules c.retire
  /-- Content comes in, is consumed, moves to children and back; finalized blocks are taken off the
  queue; the root is permanent from the start. -/
  | rest {c : Chain} (content : ContentStore) (undelivered : List Block) (permanent : Bool)
      (h : Reachable rules c) : Reachable rules { c with content, undelivered, permanent }

variable {rules : Rules} {c : Chain}

theorem Reachable.orderly (h : c.Reachable rules) : ∃ seen, c.Orderly seen := by
  induction h with
  | start hgraph => exact ⟨[], orderly_start hgraph⟩
  | submit roster block _ ih =>
    obtain ⟨seen, horderly⟩ := ih
    exact ⟨block :: seen, Branch.submit_orderly rules roster
      (horderly.mono (List.subset_cons_self ..)) (List.mem_cons_self ..)⟩
  | discardPending id _ ih =>
    obtain ⟨seen, horderly⟩ := ih
    exact ⟨seen, horderly.discardPending id⟩
  | retire _ ih =>
    obtain ⟨seen, horderly⟩ := ih
    exact ⟨seen, horderly.retire⟩
  | rest content undelivered permanent _ ih =>
    obtain ⟨seen, horderly⟩ := ih
    exact ⟨seen, horderly.rest content undelivered _ permanent⟩

/-- The graph does not refuse block `x`, once its parent is live and asks for no higher rank. -/
def Takes (c : Chain) (x : Block) : Prop :=
  ∀ parent above, x.parent? = some parent → c.blocks[parent]? = some above →
    above.rank.next ≤ x.rank.current →
      ∃ graph step, c.graph.add x.id parent x.weight.toNat = .ok (graph, step)

/-- Block `x` enters, and its weight in the graph is `weight`: on the leaf that is attached for it,
and on its node after the step, unless that was pruned again. -/
def EntersAt (c : Chain) (x : Block) (weight : Nat) : Prop :=
  ∃ a parent above, c.apply x = some a ∧ x.parent? = some parent ∧
    c.graph.nodes[parent]? = some above ∧
    c.graph.add x.id parent x.weight.toNat = .ok (a.chain.graph, a.step) ∧
    (c.graph.attach x.id parent above (addCapped above.weight x.weight.toNat)).nodes[x.id]? =
      some ⟨some parent, ∅, weight⟩ ∧
    ∀ node, a.chain.graph.nodes[x.id]? = some node → node.weight = weight

theorem Sound.entersAt {seen : List Block} {x : Block} {a : Applied} (h : c.Sound seen)
    (ha : c.apply x = some a) : c.EntersAt x a.weight := by
  obtain ⟨parent, -, above, graph, hparent, -, -, habove, hadd, heq⟩ := apply_eq_some ha
  obtain ⟨g₁, g₂, hs⟩ := ForkGraph.add_stages h.isTree hadd
  obtain rfl : a.chain.graph = graph := by rw [heq]
  have hweight : a.weight = addCapped above.weight x.weight.toNat := by rw [heq]
  refine ⟨a, parent, above, ha, hparent, habove, hadd, ?_, fun node hnode => ?_⟩
  · rw [ForkGraph.attach_nodes, if_pos rfl, hweight]
  · rw [← ForkGraph.weightOf_eq hnode, hs.weightOf ⟨node, hnode⟩, hs.weightOf₁, if_pos rfl,
      ForkGraph.weightOf_eq habove, hweight]

end Chain

namespace Branch

/-- The records of the topmost chain agree, and they do so whenever a submission applies a block to
it. The graph then takes the block, a reported weight is the one that the graph stores, and a
submission that applies blocks at all applies at least one. -/
structure Accounted (rules : Rules) (roster : Roster) (b : Branch) (block : Block) : Prop where
  agrees : b.chain.Agrees
  applies : ∀ m x, Applies rules roster b block m x → m.Agrees ∧ m.Takes x
  reports : ∀ chain id weight,
    Event.applied chain id weight ∈ (b.submit rules roster block).events →
      ∃ m x, Applies rules roster b block m x ∧ m.id = chain ∧ x.id = id ∧ m.EntersAt x weight
  counts : ∀ n, (b.submit rules roster block).outcome = .applied n → 1 ≤ n

theorem accounted (rules : Rules) (roster : Roster) (b : Branch) (block : Block)
    (h : b.chain.Reachable rules) : b.Accounted rules roster block := by
  obtain ⟨seen, horderly⟩ := h.orderly
  have hmore : b.chain.Orderly (block :: seen) := horderly.mono (List.subset_cons_self ..)
  have hseen : block ∈ block :: seen := List.mem_cons_self ..
  refine ⟨horderly.agrees, fun m x happlies => ?_, fun chain id weight hevent => ?_,
    fun n hout => applied_pos hmore hseen hout⟩
  · obtain ⟨hm, hfresh⟩ := happlies.orderly hmore hseen
    exact ⟨hm.agrees, fun parent above _ habove _ => hm.add_ok hfresh habove⟩
  · obtain ⟨m, x, a, happlies, ha, hid, hx, rfl⟩ := submit_events hevent
    exact ⟨m, x, happlies, hid, hx, (happlies.orderly hmore hseen).1.entersAt ha⟩

end Branch

end ShardLedger
