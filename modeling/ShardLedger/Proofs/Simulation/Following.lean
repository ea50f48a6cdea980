import ShardLedger.Proofs.Simulation.Hashing
import ShardLedger.Proofs.Simulation.Outcome

/-!
# Following a simulation

A simulation asks things of its ledger, so it goes along with a run. What it asks makes an honest
run: blocks are built from proposals and named by the digests of their fields, items are named by
payloads that tell when they were drawn, and only submitted items are withdrawn.

- `Simulation.Built`, `Simulation.Drawn`, `Simulation.Recalls`: what is known of a block, of an item
  and of a proposer.
- `Simulation.Follows`: the simulation goes along with a run.
- `Simulation.Follows.perform`, `Simulation.Follows.ask`, `Simulation.Follows.store`: one operation
  more.
- `Simulation.Follows.shows`: the simulation shows the run, which is honest.
-/

namespace ShardLedger

namespace Run

variable {rules : Rules} {ops : List Operation} {op : Operation} {r : Run}

theorem Faithful.concat (h : Faithful rules ops) (hr : Run.after rules ops = .ok r)
    (hop : ∀ b ∈ op.block?, ∃ p ∈ r.proposals, p.Makes b) : Faithful rules (ops ++ [op]) := by
  intro i b hi
  by_cases hlt : i < ops.length
  · rw [List.getElem?_append_left hlt] at hi
    rw [List.take_append_of_le_length (Nat.le_of_lt hlt)]
    exact h i b hi
  · obtain ⟨hbound, hget⟩ := List.getElem?_eq_some_iff.1 hi
    rw [List.length_append, List.length_singleton] at hbound
    obtain rfl : i = ops.length := by omega
    rw [List.getElem_concat_length rfl] at hget
    rw [List.take_left]
    exact ⟨r, hr, hop b (hget ▸ rfl)⟩

theorem Timely.concat (h : Timely ops)
    (hop : ∀ x ∈ op.withdrawn?, x ∈ (itemsOf ops).map (·.id)) : Timely (ops ++ [op]) := by
  intro before x later heq
  rcases List.eq_nil_or_concat later with rfl | ⟨init, last, rfl⟩
  · obtain ⟨rfl, hlast⟩ := List.append_inj' heq rfl
    exact hop x ((List.singleton_inj.1 hlast) ▸ rfl)
  · rw [List.concat_eq_append, ← List.cons_append, ← List.append_assoc] at heq
    obtain ⟨rfl, -⟩ := List.append_inj' heq rfl
    exact h before x init rfl

/-- No proposal is forgotten. -/
theorem proposals_subset (rules : Rules) (r : Run) (op : Operation) :
    r.proposals ⊆ (r.perform rules op).proposals := by
  cases op with
  | propose chain maxSize =>
    cases hp : r.ledger.proposal rules chain maxSize with
    | ok p =>
      rw [perform_propose_ok hp]
      exact List.subset_append_left _ _
    | error e =>
      rw [perform_propose_error hp]
      exact List.Subset.refl _
  | _ => exact List.Subset.refl _

end Run

/-- A batch of items that take up space is no longer than the space it may take. -/
theorem ContentStore.length_fill_le {limit : Nat} (hlimit : limit ≤ maxWord) :
    ∀ (refs : List ContentRef) (used : Nat), (∀ r ∈ refs, r.size ≠ 0) →
      (fill limit used refs).length ≤ limit - used
  | [], _, _ => Nat.zero_le _
  | r :: rest, used, hsize => by
    unfold fill
    split
    · rename_i hlt
      have hrest := length_fill_le hlimit rest (addCapped used r.size.toNat) fun r hr =>
        hsize r (List.mem_cons_of_mem _ hr)
      have hpos : 0 < r.size.toNat := Nat.pos_of_ne_zero fun hzero =>
        hsize r (List.mem_cons_self ..) (UInt64.toNat_inj.1 hzero)
      have hmore : used + 1 ≤ addCapped used r.size.toNat :=
        Nat.le_min.2 ⟨by omega, by omega⟩
      rw [List.length_cons]
      omega
    · exact Nat.zero_le _

namespace Simulation

variable {setup : Setup} {inputs : List (List UInt8)} {m n i j : Nat} {s s' : Simulation}
  {ops : List Operation} {op : Operation} {r r' : Run} {a b : Block} {item item' : ContentItem}

/-! ### Blocks -/

/-- A block that was built from a proposal of the run. Its identity is the digest of its fields. -/
structure Built (inputs : List (List UInt8)) (r : Run) (b : Block) : Prop where
  counted : b.toDraft.Counted
  named : b.id = ⟨Blake3.hash b.preimage⟩
  hashed : b.preimage ∈ inputs
  proposed : ∃ p ∈ r.proposals, p.Makes b

theorem Built.mono (h : Built inputs r b) (hsub : r.proposals ⊆ r'.proposals) :
    Built inputs r' b :=
  { h with proposed := h.proposed.imp fun _ hp => ⟨hsub hp.1, hp.2⟩ }

/-- Blocks of one identity are one block. -/
theorem Built.eq_of_id (hfree : CollisionFree inputs) (ha : Built inputs r a)
    (hb : Built inputs r b) (hid : a.id = b.id) : a = b := by
  have hdigest : Blake3.hash a.preimage = Blake3.hash b.preimage :=
    congrArg BlockId.digest ((ha.named.symm.trans hid).trans hb.named)
  have hdraft := Draft.preimage_injective ha.counted hb.counted
    (hfree _ ha.hashed _ hb.hashed hdigest)
  obtain ⟨da, ida⟩ := a
  obtain ⟨db, idb⟩ := b
  dsimp only at hdraft hid
  rw [hdraft, hid]

theorem genesis_id : (Block.genesis .root).id = ⟨Blake3.hash genesisLabel⟩ := rfl

/-- No block has the identity of the genesis, whose label is too short for the fields of a block. -/
theorem Built.ne_genesis (hfree : CollisionFree inputs) (hlabel : genesisLabel ∈ inputs)
    (h : Built inputs r b) : b.id ≠ (Block.genesis .root).id := by
  intro hid
  rw [h.named, genesis_id] at hid
  have hsame := hfree _ h.hashed _ hlabel (congrArg BlockId.digest hid)
  have hlong := b.toDraft.le_length_preimage
  rw [hsame] at hlong
  exact absurd hlong (by decide)

/-! ### Items -/

/-- An item that was drawn in a round under an index. -/
structure Drawn (inputs : List (List UInt8)) (round index : Nat) (item : ContentItem) : Prop where
  round_lt : round < UInt64.size
  index_lt : index < UInt64.size
  named : ∃ rng, (drawPayload rng round index).1 ∈ inputs ∧
    item.id = ⟨Blake3.hash (drawPayload rng round index).1⟩
  size : item.size ≠ 0

/-- An identity tells when its item was drawn. -/
theorem Drawn.eq_of_id (hfree : CollisionFree inputs) (h : Drawn inputs m i item)
    (h' : Drawn inputs n j item') (hid : item.id = item'.id) : m = n ∧ i = j := by
  obtain ⟨rng, hin, hnamed⟩ := h.named
  obtain ⟨rng', hin', hnamed'⟩ := h'.named
  have hdigest := congrArg ContentId.digest ((hnamed.symm.trans hid).trans hnamed')
  exact drawPayload_injective h.round_lt h'.round_lt h.index_lt h'.index_lt
    (hfree _ hin _ hin' hdigest)

/-! ### Going along -/

/-- All that the proposer remembers was proposed. -/
def Recalls (r : Run) (p : Proposer) : Prop := ∀ entry ∈ p.last, entry.2 ∈ r.proposals

theorem Recalls.mono {p : Proposer} (h : Recalls r p) (hsub : r.proposals ⊆ r'.proposals) :
    Recalls r' p :=
  fun entry hentry => hsub (h entry hentry)

/-- The simulation goes along with a run of these operations. All items so far were drawn before
index `i` of round `n`. -/
structure Follows (setup : Setup) (inputs : List (List UInt8)) (n i : Nat) (s : Simulation)
    (ops : List Operation) (r : Run) : Prop where
  run : Run.after setup.rules ops = .ok r
  ledger : s.ledger = r.ledger
  events : s.events = r.events
  faithful : Run.Faithful setup.rules ops
  timely : Run.Timely ops
  built : ∀ id b, s.blocks[id]? = some b → b.id = id ∧ Built inputs r b
  sent : ∀ f ∈ s.delivery.pending, s.blocks[f.block.id]? = some f.block
  arrived : ∀ b ∈ blocksOf ops, s.blocks[b.id]? = some b
  recalled : ∀ p ∈ s.proposers, Recalls r p
  counted : ∀ p ∈ r.proposals, p.content.length < UInt64.size
  drawn : ∀ item ∈ itemsOf ops, ∃ m j, (m < n ∨ m = n ∧ j < i) ∧ Drawn inputs m j item
  distinct : ((itemsOf ops).map (·.id)).Nodup
  submitted : ∀ x ∈ s.submitted, x ∈ (itemsOf ops).map (·.id)
  invalidated : ∀ x, x ∈ s.invalidated ↔ x ∈ withdrawnOf ops

/-- The run is honest, and the simulation shows it. -/
theorem Follows.shows (h : Follows setup inputs n i s ops r) (hfree : CollisionFree inputs)
    (hlabel : genesisLabel ∈ inputs) : Shows setup.rules s ops r := by
  have hbuilt : ∀ b ∈ blocksOf ops, Built inputs r b := fun b hb =>
    (h.built b.id b (h.arrived b hb)).2
  have hcoherent : Coherent (Block.genesis .root :: blocksOf ops) := by
    intro x hx y hy hid
    rcases List.mem_cons.1 hx with rfl | hx
    · rcases List.mem_cons.1 hy with rfl | hy
      · rfl
      · exact absurd hid.symm ((hbuilt y hy).ne_genesis hfree hlabel)
    · rcases List.mem_cons.1 hy with rfl | hy
      · exact absurd hid ((hbuilt x hx).ne_genesis hfree hlabel)
      · exact (hbuilt x hx).eq_of_id hfree (hbuilt y hy) hid
  exact ⟨h.run, ⟨h.faithful, ⟨h.distinct, hcoherent⟩, h.timely⟩, h.ledger, h.events, h.arrived,
    h.submitted, h.invalidated⟩

/-- The items of a round were drawn before the next round. -/
theorem Follows.next (h : Follows setup inputs n i s ops r) :
    Follows setup inputs (n + 1) 0 s ops r := by
  refine { h with drawn := fun item hitem => ?_ }
  obtain ⟨m, j, hbefore, hdrawn⟩ := h.drawn item hitem
  exact ⟨m, j, Or.inl (by omega), hdrawn⟩

/-- A batch is never too long to be counted. -/
theorem Follows.counted_proposal (h : Follows setup inputs n i s ops r) {chain : ChainId}
    {maxSize : Nat} (hmax : maxSize < UInt64.size) {p : Proposal}
    (hp : r.ledger.proposal setup.rules chain maxSize = .ok p) :
    p.content.length < UInt64.size := by
  unfold Ledger.proposal at hp
  split at hp
  · rename_i b hb
    rw [Except.ok.injEq] at hp
    subst hp
    unfold Ledger.registered? at hb
    split at hb
    · rename_i hmem
      have hlimit : maxSize - setup.rules.config.content.reserve ≤ maxWord := by
        unfold maxWord
        omega
      -- every stored item was submitted, and so takes up space
      have hlookup : r.ledger.lookup? chain = some b := by
        unfold Ledger.lookup?
        rw [if_pos (Or.inl hmem), hb]
      have hlength := ContentStore.length_fill_le hlimit
        ((b.chain.content.toList.filter fun item =>
          !(consumedBy b.chain.blocks [b.chain.graph.priorityTip]).contains item.id).map
            ContentItem.ref) 0 fun ref href => by
        obtain ⟨item, hitem, rfl⟩ := List.mem_map.1 href
        obtain ⟨x, hx⟩ := Lookup.mem_values.1 (List.mem_filter.1 hitem).1
        have hlive := ((Run.tidy h.run).live_of_stores hlookup hx).1
        obtain ⟨hsubmitted, -⟩ := Run.stored_submitted h.run ⟨_, _, hlive, hx⟩
        obtain ⟨m, j, -, hdrawn⟩ := h.drawn item hsubmitted
        exact hdrawn.size
      refine Nat.lt_of_le_of_lt hlength ?_
      omega
    · cases hb
  · cases hp

/-! ### One operation -/

/-- The simulation asks for something other than to store an item. -/
theorem Follows.perform (h : Follows setup inputs n i s ops r) (hitem : op.item? = none)
    (hblock : ∀ b ∈ op.block?, s.blocks[b.id]? = some b)
    (hwithdrawn : ∀ x ∈ op.withdrawn?, x ∈ (itemsOf ops).map (·.id))
    (hcounted : ∀ p ∈ (r.perform setup.rules op).proposals, p.content.length < UInt64.size)
    (hledger : s'.ledger = (r.perform setup.rules op).ledger)
    (hevents : s'.events = (r.perform setup.rules op).events)
    (hblocks : s'.blocks = s.blocks) (hdelivery : s'.delivery = s.delivery)
    (hproposers : s'.proposers = s.proposers) (hsubmitted : s'.submitted = s.submitted)
    (hinvalidated : ∀ x, x ∈ s'.invalidated ↔ x ∈ s.invalidated ∨ op.withdrawn? = some x) :
    Follows setup inputs n i s' (ops ++ [op]) (r.perform setup.rules op) := by
  have hsub := Run.proposals_subset setup.rules r op
  have hitems : itemsOf (ops ++ [op]) = itemsOf ops := by
    rw [itemsOf_append]
    unfold itemsOf
    rw [List.filterMap_cons_none hitem]
    exact List.append_nil _
  have hmade : ∀ b ∈ op.block?, ∃ p ∈ r.proposals, p.Makes b := fun b hb =>
    (h.built b.id b (hblock b hb)).2.proposed
  refine
    { run := Run.after_perform h.run op, ledger := hledger, events := hevents
      faithful := h.faithful.concat h.run hmade, timely := h.timely.concat hwithdrawn
      built := fun id b hb => ?_, sent := fun f hf => ?_, arrived := fun b hb => ?_
      recalled := fun p hp => (h.recalled p (hproposers ▸ hp)).mono hsub
      counted := hcounted, drawn := hitems ▸ h.drawn, distinct := hitems ▸ h.distinct
      submitted := fun x hx => hitems ▸ h.submitted x (hsubmitted ▸ hx)
      invalidated := fun x => ?_ }
  · rw [hblocks] at hb
    exact ⟨(h.built id b hb).1, (h.built id b hb).2.mono hsub⟩
  · rw [hdelivery] at hf
    rw [hblocks]
    exact h.sent f hf
  · rw [hblocks]
    rw [blocksOf_append] at hb
    rcases List.mem_append.1 hb with hb | hb
    · exact h.arrived b hb
    · obtain ⟨op', hop, hb⟩ := List.mem_filterMap.1 hb
      rw [List.mem_singleton] at hop
      exact hblock b (hop ▸ hb)
  · rw [hinvalidated, h.invalidated, withdrawnOf_append, List.mem_append]
    refine or_congr_right ?_
    unfold withdrawnOf
    simp

/-- The simulation asks for something by which no item comes in or goes. -/
theorem Follows.ask (h : Follows setup inputs n i s ops r) (hitem : op.item? = none)
    (hwithdrawn : op.withdrawn? = none) (hblock : ∀ b ∈ op.block?, s.blocks[b.id]? = some b)
    (hcounted : ∀ p ∈ (r.perform setup.rules op).proposals, p.content.length < UInt64.size)
    (hledger : s'.ledger = (r.perform setup.rules op).ledger)
    (hevents : s'.events = (r.perform setup.rules op).events)
    (hblocks : s'.blocks = s.blocks) (hdelivery : s'.delivery = s.delivery)
    (hproposers : s'.proposers = s.proposers) (hsubmitted : s'.submitted = s.submitted)
    (hinvalidated : s'.invalidated = s.invalidated) :
    Follows setup inputs n i s' (ops ++ [op]) (r.perform setup.rules op) := by
  refine h.perform hitem hblock (fun x hx => ?_) hcounted hledger hevents hblocks hdelivery
    hproposers hsubmitted fun x => ?_
  · rw [hwithdrawn] at hx
    cases hx
  · rw [hinvalidated, hwithdrawn]
    exact (or_iff_left nofun).symm

/-- The simulation asks to store a drawn item. -/
theorem Follows.store (h : Follows setup inputs n i s ops r) (hfree : CollisionFree inputs)
    (hdrawn : Drawn inputs n i item)
    (hledger : s'.ledger = (s.ledger.submitContent item).1) (hevents : s'.events = s.events)
    (hblocks : s'.blocks = s.blocks) (hdelivery : s'.delivery = s.delivery)
    (hproposers : s'.proposers = s.proposers) (hinvalidated : s'.invalidated = s.invalidated)
    (hsubmitted : ∀ x ∈ s'.submitted, x ∈ s.submitted ∨ x = item.id) :
    Follows setup inputs n (i + 1) s' (ops ++ [.submitContent item])
      (r.perform setup.rules (.submitContent item)) := by
  have hitems : itemsOf (ops ++ [.submitContent item]) = itemsOf ops ++ [item] := itemsOf_append ..
  have hblocksOf : blocksOf (ops ++ [.submitContent item]) = blocksOf ops := by
    rw [blocksOf_append]
    exact List.append_nil _
  have hgone : withdrawnOf (ops ++ [.submitContent item]) = withdrawnOf ops := by
    rw [withdrawnOf_append]
    exact List.append_nil _
  refine
    { run := Run.after_perform h.run _, ledger := ?_, events := hevents.trans h.events
      faithful := h.faithful.concat h.run fun _ hb => (nomatch hb)
      timely := h.timely.concat fun _ hx => (nomatch hx)
      built := fun id b hb => ?_, sent := ?_, arrived := hblocksOf ▸ hblocks.symm ▸ h.arrived
      recalled := hproposers.symm ▸ h.recalled, counted := h.counted, drawn := fun item' hitem => ?_
      distinct := ?_, submitted := fun x hx => ?_
      invalidated := hgone ▸ hinvalidated.symm ▸ h.invalidated }
  · rw [hledger, h.ledger]
    rfl
  · rw [hblocks] at hb
    exact ⟨(h.built id b hb).1, (h.built id b hb).2.mono (List.Subset.refl _)⟩
  · rw [hblocks, hdelivery]
    exact h.sent
  · rw [hitems] at hitem
    rcases List.mem_append.1 hitem with hitem | hitem
    · obtain ⟨m, j, hbefore, hdrawn⟩ := h.drawn item' hitem
      exact ⟨m, j, by omega, hdrawn⟩
    · rw [List.mem_singleton.1 hitem]
      exact ⟨n, i, Or.inr ⟨rfl, Nat.lt_succ_self i⟩, hdrawn⟩
  · -- all items before were drawn earlier
    rw [hitems, List.map_append]
    refine List.nodup_append.2 ⟨h.distinct, List.nodup_singleton _, ?_⟩
    rintro x hx y hy rfl
    obtain ⟨item', hitem, hid⟩ := List.mem_map.1 hx
    obtain ⟨m, j, hbefore, hdrawn'⟩ := h.drawn item' hitem
    have hnew : x = item.id := List.mem_singleton.1 hy
    obtain ⟨rfl, rfl⟩ := hdrawn'.eq_of_id hfree hdrawn (hid.trans hnew)
    omega
  · rw [hitems, List.map_append]
    rcases hsubmitted x hx with hx | rfl
    · exact List.mem_append_left _ (h.submitted x hx)
    · exact List.mem_append_right _ (List.mem_singleton_self _)

end Simulation

end ShardLedger
