import ShardLedger.Proofs.Simulation.Draws
import ShardLedger.Proofs.Simulation.Following

/-!
# The steps of a simulation

Content arrives, an item is invalidated, proposers take their turns, blocks are delivered and the
ledger makes its passes: each step of a simulation goes along with a few operations of the run, as
long as what it hashes is among the given byte strings.

- `Simulation.Recorded`: the simulation goes along with some run.
- `Simulation.Follows.turn`: the turn of a proposer, whose block is built from a proposal.
- `Simulation.Recorded.round`, `Simulation.Recorded.finish`: a round, and the end of the simulation.
-/

namespace ShardLedger

namespace Simulation

variable {setup : Setup} {inputs : List (List UInt8)} {n i : Nat} {s s' : Simulation}
  {ops : List Operation} {r : Run} {b : Block}

/-- The simulation goes along with some run. -/
def Recorded (setup : Setup) (inputs : List (List UInt8)) (n i : Nat) (s : Simulation) : Prop :=
  ∃ ops r, Follows setup inputs n i s ops r

/-! ### Content -/

theorem Recorded.submitItem (h : Recorded setup inputs n i s) (hfree : CollisionFree inputs)
    (hn : n < UInt64.size) (hi : i < UInt64.size)
    (hgiven : (drawPayload s.rng n i).1 ∈ inputs) :
    Recorded setup inputs n (i + 1) (s.submitItem n i) := by
  obtain ⟨ops, r, h⟩ := h
  have hdrawn : Drawn inputs n i (drawItem s.rng n i).1 := by
    refine ⟨hn, hi, ⟨s.rng, hgiven, ?_⟩, drawItem_size s.rng n i⟩
    obtain ⟨first, second, hitem⟩ := drawItem_eq s.rng n i
    rw [hitem]
    rfl
  unfold Simulation.submitItem
  generalize drawItem s.rng n i = drawn at hdrawn ⊢
  obtain ⟨item, rng⟩ := drawn
  dsimp only
  split
  · refine ⟨_, _, h.store hfree hdrawn rfl rfl rfl rfl rfl rfl fun x hx => ?_⟩
    exact (List.mem_append.1 hx).imp_right List.mem_singleton.1
  · exact ⟨_, _, h.store hfree hdrawn rfl rfl rfl rfl rfl rfl fun x hx => Or.inl hx⟩

theorem Recorded.submitContent (h : Recorded setup inputs n 0 s) (hfree : CollisionFree inputs)
    (hn : n < UInt64.size) (hitems : setup.itemsPerRound < UInt64.size)
    (hgiven : hashedContent setup s n ⊆ inputs) :
    ∃ i, Recorded setup inputs n i (s.submitContent setup n) := by
  unfold hashedContent at hgiven
  unfold Simulation.submitContent
  split at hgiven
  · rw [if_pos ‹_›]
    exact ⟨0, h⟩
  · rw [if_neg ‹_›]
    refine ⟨setup.itemsPerRound, foldl_range_shown (P := Recorded setup inputs n) h
      (fun i hi s h hgiven => ?_) hgiven⟩
    exact h.submitItem hfree hn (Nat.lt_trans hi hitems) (hgiven (List.mem_singleton_self _))

/-- Only submitted items are withdrawn. -/
theorem Recorded.invalidate (h : Recorded setup inputs n i s) :
    Recorded setup inputs n i (s.invalidate setup n) := by
  obtain ⟨ops, r, h⟩ := h
  unfold Simulation.invalidate
  split
  · exact ⟨ops, r, { h with }⟩
  · split
    · exact ⟨ops, r, { h with }⟩
    · rename_i item rng hpick
      split
      · exact ⟨ops, r, { h with }⟩
      · refine ⟨ops ++ [.invalidate item], _, h.perform rfl (fun _ hb => nomatch hb) ?_ h.counted
          ?_ h.events rfl rfl rfl rfl ?_⟩
        · rintro x ⟨⟩
          exact h.submitted _ (Rng.mem_of_pick hpick)
        · show (s.ledger.invalidate item).1 = (r.ledger.invalidate item).1
          rw [h.ledger]
        · intro x
          show x ∈ s.invalidated.insert item ↔ _ ∨ some item = some x
          rw [Lookup.mem_insert, or_comm, Option.some.injEq]

/-! ### Turns -/

/-- A proposer asks for a proposal. -/
theorem Follows.propose (h : Follows setup inputs n i s ops r) {chain : ChainId} {maxSize : Nat}
    {p : Proposal} (hmax : maxSize < UInt64.size)
    (hp : r.ledger.proposal setup.rules chain maxSize = .ok p) :
    Follows setup inputs n i s (ops ++ [.propose chain maxSize])
      { r with proposals := r.proposals ++ [p] } := by
  have heq := Run.perform_propose_ok hp
  rw [← heq]
  refine h.ask rfl rfl (fun _ hb => nomatch hb) (fun q hq => ?_) (heq ▸ h.ledger) (heq ▸ h.events)
    rfl rfl rfl rfl rfl
  rw [heq] at hq
  rcases List.mem_append.1 hq with hq | hq
  · exact h.counted q hq
  · rw [List.mem_singleton.1 hq]
    exact h.counted_proposal hmax hp

/-- A block sets out. -/
theorem Follows.send (h : Follows setup inputs n i s ops r) (hfree : CollisionFree inputs)
    (hbuilt : Built inputs r b) (hledger : s'.ledger = s.ledger) (hevents : s'.events = s.events)
    (hblocks : s'.blocks = s.blocks.insert b.id b)
    (hdelivery : ∀ f ∈ s'.delivery.pending, f ∈ s.delivery.pending ∨ f.block = b)
    (hproposers : s'.proposers = s.proposers) (hsubmitted : s'.submitted = s.submitted)
    (hinvalidated : s'.invalidated = s.invalidated) : Follows setup inputs n i s' ops r := by
  -- a block that is replaced is the same block
  have hkeep : ∀ x : Block, s.blocks[x.id]? = some x → s'.blocks[x.id]? = some x := by
    intro x hx
    rw [hblocks, Lookup.get_insert]
    split
    · rw [hbuilt.eq_of_id hfree (h.built _ x hx).2 ‹_›]
    · exact hx
  refine
    { h with
      ledger := hledger.trans h.ledger, events := hevents.trans h.events
      built := fun id x hx => ?_, sent := fun f hf => ?_
      arrived := fun x hx => hkeep x (h.arrived x hx)
      recalled := hproposers.symm ▸ h.recalled, submitted := hsubmitted.symm ▸ h.submitted
      invalidated := hinvalidated.symm ▸ h.invalidated }
  · rw [hblocks, Lookup.get_insert] at hx
    split at hx
    · cases hx
      exact ⟨‹_›, hbuilt⟩
    · exact h.built id x hx
  · rcases hdelivery f hf with hf | rfl
    · exact hkeep f.block (h.sent f hf)
    · rw [hblocks, Lookup.get_insert, if_pos rfl]

/-- A proposer takes its turn. -/
theorem Follows.turn (h : Follows setup inputs n i s ops r) (hfree : CollisionFree inputs)
    (hmax : setup.ledger.content.maxBatchSize < UInt64.size) {p : Proposer}
    (hp : Recalls r p) (hgiven : hashedTurn setup n s p ⊆ inputs) :
    ∃ ops' r', Follows setup inputs n i (s.turn setup n p).1 ops' r' ∧
      r.proposals ⊆ r'.proposals ∧ Recalls r' (s.turn setup n p).2 := by
  unfold hashedTurn at hgiven
  unfold Simulation.turn
  generalize hturn : p.turn setup.rules s.ledger (UInt64.ofNat n)
    setup.ledger.content.maxBatchSize s.rng = t at hgiven ⊢
  obtain ⟨p', made, rng⟩ := t
  cases made with
  | none => exact ⟨ops, r, { h with }, List.Subset.refl _, Proposer.turn_idle hturn ▸ hp⟩
  | some made =>
    obtain ⟨chain, fresh, proposal, rank, proposer, hfresh, hproposal, hlast, hblock⟩ :=
      Proposer.turn_made hturn
    rw [h.ledger] at hfresh
    have hasked := h.propose hmax hfresh
    have hnew : fresh ∈ r.proposals ++ [fresh] :=
      List.mem_append_right _ (List.mem_singleton_self _)
    have hmem : proposal ∈ r.proposals ++ [fresh] := by
      rcases hproposal with rfl | ⟨entry, hentry, rfl⟩
      · exact hnew
      · exact List.mem_append_left _ (hp entry hentry)
    have hbuilt : Built inputs { r with proposals := r.proposals ++ [fresh] } made.block := by
      refine ⟨?_, ?_, hgiven (List.mem_singleton_self _), proposal, hmem, ?_⟩
      · rw [hblock]
        exact ⟨show 1 < UInt64.size by decide, hasked.counted proposal hmem⟩
      · rw [hblock]
        rfl
      · rw [hblock]
        exact ⟨rfl, rfl, rfl⟩
    refine ⟨_, _, hasked.send hfree hbuilt rfl rfl rfl (fun f hf => Delivery.mem_send hf) rfl rfl
      rfl, List.subset_append_left _ _, fun entry hentry => ?_⟩
    have hentry : entry ∈ p'.last := hentry
    rw [hlast] at hentry
    rcases List.mem_cons.1 hentry with rfl | hentry
    · exact hnew
    · exact List.mem_append_left _ (hp entry (List.mem_filter.1 hentry).1)

/-- Some proposers had their turn, and the others take it one after the other. -/
theorem Follows.turns_from (hfree : CollisionFree inputs)
    (hmax : setup.ledger.content.maxBatchSize < UInt64.size) :
    ∀ (later done : List Proposer) {s : Simulation} {ops : List Operation} {r : Run},
      Follows setup inputs n i s ops r →
      (∀ p ∈ done, Recalls r p) → (∀ p ∈ later, Recalls r p) →
      shownAlong (hashedTurn setup n) (fun s p => (s.turn setup n p).1) s later ⊆ inputs →
      ∃ ops' r',
        let t := later.foldl (fun (s, done) p =>
          let (s, p) := s.turn setup n p
          (s, done ++ [p])) (s, done)
        Follows setup inputs n i t.1 ops' r' ∧ ∀ p ∈ t.2, Recalls r' p
  | [], _, _, ops, r, h, hdone, _, _ => ⟨ops, r, h, hdone⟩
  | p :: later, done, s, ops, r, h, hdone, hlater, hgiven => by
    obtain ⟨hfirst, hrest⟩ := List.append_subset.1 hgiven
    obtain ⟨ops', r', h', hsub, hp⟩ := h.turn hfree hmax (hlater p (List.mem_cons_self ..)) hfirst
    refine turns_from hfree hmax later _ h' (fun q hq => ?_)
      (fun q hq => (hlater q (List.mem_cons_of_mem _ hq)).mono hsub) hrest
    rcases List.mem_append.1 hq with hq | hq
    · exact (hdone q hq).mono hsub
    · exact List.mem_singleton.1 hq ▸ hp

theorem Recorded.turns (h : Recorded setup inputs n i s) (hfree : CollisionFree inputs)
    (hmax : setup.ledger.content.maxBatchSize < UInt64.size)
    (hgiven : hashedTurns setup s n ⊆ inputs) : Recorded setup inputs n i (s.turns setup n) := by
  obtain ⟨ops, r, h⟩ := h
  obtain ⟨ops', r', h', hp⟩ := Follows.turns_from hfree hmax s.proposers [] h
    (fun _ hp => absurd hp List.not_mem_nil) h.recalled hgiven
  exact ⟨ops', r', { h' with recalled := hp }⟩

/-! ### Deliveries -/

/-- A block that arrives was built. -/
theorem Recorded.arrive (h : Recorded setup inputs n i s) (hb : s.blocks[b.id]? = some b)
    (round : Nat) : Recorded setup inputs n i (s.arrive setup round b) := by
  obtain ⟨ops, r, h⟩ := h
  refine ⟨ops ++ [.submitBlock b], r.perform setup.rules (.submitBlock b), ?_⟩
  refine h.ask rfl rfl ?_ h.counted ?_ ?_ rfl rfl rfl rfl rfl
  · rintro b' ⟨⟩
    exact hb
  · show (s.ledger.submitBlock setup.rules b).1 = (r.ledger.submitBlock setup.rules b).1
    rw [h.ledger]
  · show s.events ++ (s.ledger.submitBlock setup.rules b).2.2 =
      r.events ++ (r.ledger.submitBlock setup.rules b).2.2
    rw [h.ledger, h.events]

theorem Recorded.arrive_all (round : Nat) : ∀ (blocks : List Block) {s : Simulation},
    Recorded setup inputs n i s → (∀ b ∈ blocks, s.blocks[b.id]? = some b) →
      Recorded setup inputs n i (blocks.foldl (fun s block => s.arrive setup round block) s)
  | [], _, h, _ => h
  | b :: rest, _, h, hall =>
    arrive_all round rest (h.arrive (hall b (List.mem_cons_self ..)) round)
      fun b' hb' => hall b' (List.mem_cons_of_mem _ hb')

/-- Of the blocks on their way, some arrive and some stay. -/
theorem Recorded.deliver (h : Recorded setup inputs n i s) {delivery : Delivery}
    {blocks : List Block} (rng : Rng) (round : Nat)
    (hstay : delivery.pending ⊆ s.delivery.pending)
    (harrive : ∀ b ∈ blocks, ∃ f ∈ s.delivery.pending, f.block = b) :
    Recorded setup inputs n i (blocks.foldl (fun s block => s.arrive setup round block)
      { s with delivery, rng }) := by
  obtain ⟨ops, r, h⟩ := h
  refine Recorded.arrive_all round blocks ⟨ops, r, { h with sent := fun f hf => ?_ }⟩ fun b hb => ?_
  · exact h.sent f (hstay hf)
  · obtain ⟨f, hf, rfl⟩ := harrive b hb
    exact h.sent f hf

/-! ### Passes -/

/-- A noted pass shows in nothing but the records. -/
theorem notePass_eq (s : Simulation) (round : Nat) (pass : Ledger.Pass) : ∃ trace tally,
    s.notePass round pass = { s with trace, tally, events := s.events ++ pass.events } := by
  unfold notePass
  dsimp only
  split
  · exact ⟨_, _, rfl⟩
  · exact ⟨_, _, rfl⟩

theorem notePass_all (round : Nat) : ∀ (passes : List Ledger.Pass) (s : Simulation),
    ∃ trace tally, passes.foldl (fun s pass => s.notePass round pass) s =
      { s with trace, tally, events := s.events ++ passes.flatMap Ledger.Pass.events }
  | [], s => ⟨s.trace, s.tally, by rw [List.flatMap_nil, List.append_nil, List.foldl_nil]⟩
  | pass :: rest, s => by
    obtain ⟨_, _, hfirst⟩ := notePass_eq s round pass
    obtain ⟨trace, tally, hrest⟩ := notePass_all round rest (s.notePass round pass)
    refine ⟨trace, tally, ?_⟩
    rw [List.foldl_cons, hrest, hfirst, List.flatMap_cons, List.append_assoc]

theorem Recorded.pass (h : Recorded setup inputs n i s) (round : Nat) :
    Recorded setup inputs n i
      ({ s with ledger := (s.ledger.tick setup.rules).ledger }.notePass round
        (s.ledger.tick setup.rules)) := by
  obtain ⟨ops, r, h⟩ := h
  obtain ⟨trace, tally, heq⟩ := notePass_eq
    { s with ledger := (s.ledger.tick setup.rules).ledger } round (s.ledger.tick setup.rules)
  rw [heq]
  refine ⟨ops ++ [.tick], r.perform setup.rules .tick, ?_⟩
  refine h.ask rfl rfl (fun _ hb => nomatch hb) h.counted ?_ ?_ rfl rfl rfl rfl rfl
  · show (s.ledger.tick setup.rules).ledger = (r.ledger.tick setup.rules).ledger
    rw [h.ledger]
  · show s.events ++ (s.ledger.tick setup.rules).events =
      r.events ++ (r.ledger.tick setup.rules).events
    rw [h.ledger, h.events]

/-! ### The whole simulation -/

/-- A round whose byte strings are among the given ones. -/
theorem Recorded.round (h : Recorded setup inputs n 0 s) (hfree : CollisionFree inputs)
    (hn : n < UInt64.size) (hitems : setup.itemsPerRound < UInt64.size)
    (hmax : setup.ledger.content.maxBatchSize < UInt64.size)
    (hgiven : hashedRound setup s n ⊆ inputs) :
    Recorded setup inputs (n + 1) 0 (s.round setup n) := by
  obtain ⟨hcontent, hturns⟩ := List.append_subset.1 hgiven
  obtain ⟨i, hstored⟩ := h.submitContent hfree hn hitems hcontent
  have hturned := hstored.invalidate.turns hfree hmax hturns
  unfold Simulation.round
  dsimp only
  generalize ((s.submitContent setup n).invalidate setup n).turns setup n = t at hturned ⊢
  obtain ⟨hstay, harrive⟩ := Delivery.mem_deliver t.delivery n t.rng
  generalize t.delivery.deliver n t.rng = delivered at hstay harrive ⊢
  obtain ⟨delivery, arrived, rng⟩ := delivered
  obtain ⟨ops, r, hpassed⟩ := (hturned.deliver rng n hstay harrive).pass n
  exact ⟨ops, r, hpassed.next⟩

/-- After the last round, the ledger comes to rest. -/
theorem Recorded.finish (h : Recorded setup inputs n i s) :
    ∃ ops r, Follows setup inputs n i (s.finish setup) ops r ∧ r.ledger.AtRest := by
  have hstay : s.delivery.drain.1.pending ⊆ s.delivery.pending := List.nil_subset _
  obtain ⟨ops, r, h⟩ := h.deliver s.rng setup.rounds hstay fun b hb => Delivery.mem_drain hb
  have hrest := (Run.tracks h.run (List.Subset.refl _)).settle_settled.toAtRest
  unfold Simulation.finish
  dsimp only
  generalize s.delivery.drain.2.foldl (fun s block => s.arrive setup setup.rounds block)
    { s with delivery := s.delivery.drain.1 } = t at h ⊢
  obtain ⟨trace, tally, heq⟩ := notePass_all setup.rounds (t.ledger.settle setup.rules).2
    { t with ledger := (t.ledger.settle setup.rules).1 }
  rw [heq]
  refine ⟨ops ++ [.settle], r.perform setup.rules .settle, ?_, hrest⟩
  refine h.ask rfl rfl (fun _ hb => nomatch hb) h.counted ?_ ?_ rfl rfl rfl rfl rfl
  · show (t.ledger.settle setup.rules).1 = (r.ledger.settle setup.rules).1
    rw [h.ledger]
  · show t.events ++ (t.ledger.settle setup.rules).2.flatMap Ledger.Pass.events =
      r.events ++ (r.ledger.settle setup.rules).2.flatMap Ledger.Pass.events
    rw [h.ledger, h.events]

end Simulation

end ShardLedger
