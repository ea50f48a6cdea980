import ShardLedger.Proofs.Ledger.Run
import ShardLedger.Proofs.Order.Ancestry
import ShardLedger.Proofs.Order.Conservation

/-!
# The global order

What holds of the blocks that the passes of a run put in line, whatever was asked of the ledger
and in which order, and however often chains were split, merged and split again.

- `Run.linearized_ranked`: ranks never decrease, and every pass stays below its bar.
- `Run.linearized_conserved`: what was finalized is in line or still in a queue, once.
- `Run.linearized_parents_first`: every block comes after its parent.
-/

namespace ShardLedger

namespace Ledger

variable {seen : List Block} {l : Ledger} {id : ChainId}

/-- The finalized blocks of a chain that are not in line yet, if the chain is registered or yet to
be. -/
def queue (l : Ledger) (id : ChainId) : List Block :=
  match l.lookup? id with
  | some b => b.chain.undelivered
  | none => []

/-- The finalized blocks that are not in line yet, by chain: first those that are registered. -/
def undelivered (l : Ledger) : List Block := (l.registered ++ l.roster.spawned).flatMap l.queue

theorem queue_eq (hid : id ∈ l.order) :
    l.queue id = (l.laneAt id).toList.flatMap (·.queue) := by
  unfold queue lookup? laneAt chain?
  rw [if_pos (List.mem_append.1 hid)]
  cases l.branch? id with
  | none => rfl
  | some b => exact (List.append_nil _).symm

theorem queue_eq_nil (hid : id ∉ l.order) : l.queue id = [] := by
  unfold queue lookup?
  rw [if_neg fun h => hid (List.mem_append.2 h)]

theorem queued_lanes (l : Ledger) : Board.queued l.lanes = l.undelivered := by
  have hqueue : ∀ ids : List ChainId, (∀ id ∈ ids, id ∈ l.order) →
      (ids.filterMap l.laneAt).flatMap (·.queue) = ids.flatMap l.queue := by
    intro ids hids
    induction ids with
    | nil => rfl
    | cons id rest ih =>
      rw [List.flatMap_cons, ← ih fun a ha => hids a (List.mem_cons_of_mem _ ha),
        queue_eq (hids id (List.mem_cons_self ..))]
      cases hlane : l.laneAt id with
      | none => rw [List.filterMap_cons_none hlane]; rfl
      | some lane =>
        rw [List.filterMap_cons_some hlane, List.flatMap_cons]
        exact congrArg (· ++ _) (List.append_nil _).symm
  exact hqueue l.order fun _ h => h

theorem Arranged.laneAt_chain (h : l.Arranged seen) (hid : id ∈ l.order) :
    ∃ lane, l.laneAt id = some lane ∧ lane.chain = id := by
  obtain ⟨hpos, c, hc⟩ := h.mem_order id hid
  refine ⟨Lane.of c, ?_, h.chain?_id hpos hc⟩
  unfold laneAt
  rw [hc]
  rfl

theorem Arranged.queueOf_lanes (h : l.Arranged seen)
    (hnodup : (l.lanes.map (·.chain)).Nodup) (id : ChainId) :
    Board.queueOf l.lanes id = l.queue id := by
  by_cases hid : id ∈ l.order
  · obtain ⟨lane, hlane, rfl⟩ := h.laneAt_chain hid
    rw [Board.queueOf_of_mem hnodup (List.mem_filterMap.2 ⟨_, hid, hlane⟩), queue_eq hid, hlane]
    exact (List.append_nil _).symm
  · rw [queue_eq_nil hid]
    refine Board.queueOf_eq_nil fun hmem => hid ?_
    obtain ⟨lane, hl, rfl⟩ := List.mem_map.1 hmem
    obtain ⟨a, ha, hlane⟩ := List.mem_filterMap.1 hl
    obtain ⟨lane', hlane', hchain⟩ := h.laneAt_chain ha
    rw [show (l.chain? a).map Lane.of = some lane' from hlane', Option.some.injEq] at hlane
    rw [← hlane, hchain]
    exact ha

/-- The bar that a pass respected. -/
def Pass.bar (p : Pass) : UInt64 := p.ledger.linearizer.lastBar

end Ledger

namespace Run

variable {rules : Rules} {ops : List Operation} {r : Run}

/-- What was reported as finalized by a chain, oldest first. -/
def finalizedOn (r : Run) (id : ChainId) : List BlockId :=
  (r.finalizations.filter (·.1 = id)).map (·.2)

/-- What was put in line of a chain, oldest first. -/
def linearizedOn (r : Run) (id : ChainId) : List BlockId :=
  (r.linearized.filter (·.chain = id)).map (·.block.id)

/-! ### Ranks -/

/-- Ranks never decrease along the global order, and every pass delivers below its bar, which is
what the floors of the registered chains leave open. -/
theorem linearized_ranked (h : Run.after rules ops = .ok r) :
    (r.linearized.map (·.block.rank.current)).Pairwise (· ≤ ·) ∧
      ∀ pass ∈ r.passes,
        (∃ l : Ledger, pass = l.tick rules ∧ pass.bar = l.passBar rules) ∧
        ∀ d ∈ pass.delivered, d.block.rank.current < pass.bar := by
  have ht := tracks h (List.Subset.refl _)
  obtain ⟨fin, -, hsteps⟩ := ht.board
  constructor
  · have hsorted := hsteps.ranked.sorted
    rw [List.map_map] at hsorted
    exact hsorted
  · intro pass hpass
    obtain ⟨l, harranged, rfl⟩ := ht.passes pass hpass
    obtain ⟨-, hbar, hbelow⟩ := Ledger.tick_delivers rules harranged
    refine ⟨⟨l, rfl, hbar⟩, fun d hd => ?_⟩
    rw [show (l.tick rules).bar = l.passBar rules from hbar]
    exact hbelow d hd

/-- The sample puts a root block in line, and then three of equal rank. -/
theorem sample_ranked : ∃ r, Run.after sampleRules sampleOps = .ok r ∧
    r.linearized.map (·.block.rank.current) = [1, 2, 2, 2] ∧
    (r.linearized.map (·.block.rank.current)).Pairwise (· ≤ ·) ∧
      ∀ pass ∈ r.passes,
        (∃ l : Ledger, pass = l.tick sampleRules ∧ pass.bar = l.passBar sampleRules) ∧
        ∀ d ∈ pass.delivered, d.block.rank.current < pass.bar := by
  obtain ⟨r, hr, hranks⟩ := @exists_after_of_any sampleRules sampleOps
    (fun r => r.linearized.map (·.block.rank.current) = [1, 2, 2, 2]) (by decide +kernel)
  exact ⟨r, hr, of_decide_eq_true hranks, linearized_ranked hr⟩

/-! ### Conservation -/

/-- The account of all chains together. -/
theorem Tracks.perm {seen : List Block} (h : r.Tracks seen rules) :
    (r.finalizations.map (·.2)).Perm
      (r.linearized.map (·.block.id) ++ r.ledger.undelivered.map (·.id)) := by
  obtain ⟨fin, hfin, hsteps⟩ := h.board
  have htotal := hsteps.conserved.total.map (·.id)
  rw [List.map_append, List.map_map, List.map_map, List.map_map] at htotal
  rw [hfin, List.map_map, ← Ledger.queued_lanes]
  exact htotal

/-- The account of one chain. -/
theorem Tracks.on_chain {seen : List Block} (h : r.Tracks seen rules) (id : ChainId) :
    r.finalizedOn id = r.linearizedOn id ++ (r.ledger.queue id).map (·.id) := by
  obtain ⟨fin, hfin, hsteps⟩ := h.board
  have hchain := congrArg (List.map Block.id) (hsteps.conserved.chain id)
  rw [List.map_append, h.arranged.queueOf_lanes hsteps.conserved.lanes_nodup] at hchain
  have hfinal : r.finalizedOn id = (Board.onChain id fin).map (·.id) := by
    unfold finalizedOn Board.onChain
    rw [hfin, List.filter_map, List.map_map, List.map_map]
    rfl
  have hline : r.linearizedOn id =
      (Board.onChain id (r.linearized.map fun d => (d.chain, d.block))).map (·.id) := by
    unfold linearizedOn Board.onChain
    rw [List.filter_map, List.map_map, List.map_map]
    rfl
  rw [hfinal, hline]
  exact hchain

/-- Nothing is finalized twice, and the genesis never. -/
theorem Tracks.finalized_once {seen : List Block} (h : r.Tracks seen rules)
    (hcoherent : Coherent (Block.genesis .root :: seen)) :
    (r.finalizations.map (·.2)).Nodup ∧
      (Block.genesis .root).id ∉ r.finalizations.map (·.2) := by
  obtain ⟨fin, hfin, hsteps⟩ := h.board
  rw [hfin, List.map_map]
  have hsingle := Board.single_of_steps hcoherent hsteps
  exact ⟨hsingle.nodup, hsingle.root_apart⟩

/-- Nothing is put in line twice. -/
theorem Tracks.linearized_once {seen : List Block} (h : r.Tracks seen rules)
    (hcoherent : Coherent (Block.genesis .root :: seen)) :
    (r.linearized.map (·.block.id)).Nodup :=
  (List.nodup_append.1 (h.perm.nodup_iff.1 (h.finalized_once hcoherent).1)).1

/-- What was reported as finalized is in line or in the queue of a chain; each chain is put in line
as it finalizes; positions are counted from zero on; and where identities are not shared, nothing
is finalized or put in line a second time. -/
theorem linearized_conserved (h : Run.after rules ops = .ok r) :
    (r.finalizations.map (·.2)).Perm
        (r.linearized.map (·.block.id) ++ r.ledger.undelivered.map (·.id)) ∧
      r.linearized.map (·.seq) = List.range r.ledger.linearizer.delivered ∧
      r.ledger.linearizer.delivered = r.linearized.length ∧
      (∀ id, r.finalizedOn id = r.linearizedOn id ++ (r.ledger.queue id).map (·.id)) ∧
      (Coherent (Block.genesis .root :: blocksOf ops) →
        (r.finalizations.map (·.2)).Nodup ∧ (r.linearized.map (·.block.id)).Nodup) := by
  have ht := tracks h (List.Subset.refl _)
  refine ⟨ht.perm, ?_, ht.count, ht.on_chain, fun hcoherent => ?_⟩
  · rw [ht.seq, ht.count]
  · exact ⟨(ht.finalized_once hcoherent).1, ht.linearized_once hcoherent⟩

/-- In the sample, three chains finalize a block each and the root a second one. -/
theorem sample_conserved : ∃ r, Run.after sampleRules sampleOps = .ok r ∧
    r.finalizations.map (·.2) = [⟨1⟩, ⟨3⟩, ⟨5⟩, ⟨2⟩] ∧
    (r.linearized.map (·.block.id) ++ r.ledger.undelivered.map (·.id)).Perm
      [⟨1⟩, ⟨3⟩, ⟨5⟩, ⟨2⟩] ∧
    r.linearized.map (·.seq) = List.range r.linearized.length ∧
    (∀ id, r.finalizedOn id = r.linearizedOn id ++ (r.ledger.queue id).map (·.id)) ∧
    (r.linearized.map (·.block.id)).Nodup := by
  obtain ⟨r, hr, hids⟩ := @exists_after_of_any sampleRules sampleOps
    (fun r => r.finalizations.map (·.2) = [⟨1⟩, ⟨3⟩, ⟨5⟩, ⟨2⟩]) (by decide +kernel)
  have hids := of_decide_eq_true hids
  obtain ⟨hperm, hseq, hcount, hchain, honce⟩ := linearized_conserved hr
  exact ⟨r, hr, hids, hids ▸ hperm.symm, hcount ▸ hseq, hchain, (honce sample_coherent).2⟩

/-! ### Ancestry -/

/-- A delivered block is delivered on its own chain. -/
theorem Tracks.chain_eq {seen : List Block} (h : r.Tracks seen rules) {d : Linearized}
    (hd : d ∈ r.linearized) : d.block.chain = d.chain := by
  obtain ⟨fin, -, hsteps⟩ := h.board
  have hmem : d.block ∈ Board.onChain d.chain (r.linearized.map fun d => (d.chain, d.block)) :=
    List.mem_map.2 ⟨(d.chain, d.block),
      List.mem_filter.2 ⟨List.mem_map_of_mem hd, decide_eq_true rfl⟩, rfl⟩
  have hfin : d.block ∈ Board.onChain d.chain fin := by
    rw [hsteps.conserved.chain]
    exact List.mem_append_left _ hmem
  obtain ⟨⟨c, b⟩, hentry, rfl⟩ := List.mem_map.1 hfin
  obtain ⟨hentry, hc⟩ := List.mem_filter.1 hentry
  have hc : c = d.chain := of_decide_eq_true hc
  exact hc ▸ (hsteps.admitted _ hentry).chain

/-- A delivered block comes after its parent, which stands on the same chain or on the one that
chain was split off from, unless it is the first of the ledger. -/
theorem Tracks.parent_before {seen : List Block} (h : r.Tracks seen rules) {i : Nat}
    {d : Linearized} (hd : r.linearized[i]? = some d) :
    ∃ p, d.block.parent? = some p ∧ (p = (Block.genesis .root).id ∨
      ∃ j e, j < i ∧ r.linearized[j]? = some e ∧ e.block.id = p ∧
        (e.chain = d.chain ∨ d.chain.parent? = some e.chain)) := by
  obtain ⟨fin, -, hsteps⟩ := h.board
  obtain ⟨hi, hget⟩ := List.getElem?_eq_some_iff.1 hd
  have hblocks := (parentsFirst_append.1 hsteps.ancestral.blocks).1
  -- the record up to the block, the block, and what comes after it
  have hsplit : (r.linearized.map fun d => (d.chain, d.block)).map (·.2) =
      (r.linearized.take i).map (·.block) ++
        d.block :: (r.linearized.drop (i + 1)).map (·.block) := by
    rw [List.map_map, ← hget, ← List.map_cons, List.getElem_cons_drop, ← List.map_append,
      List.take_append_drop]
    rfl
  rw [hsplit] at hblocks
  rcases hblocks.rooted with hfirst | ⟨b, hb, hdesc⟩
  · exact ⟨_, hfirst, Or.inl rfl⟩
  · obtain ⟨e, he, rfl⟩ := List.mem_map.1 hb
    obtain ⟨j, hj, rfl⟩ := List.mem_take_iff_getElem.1 he
    have hjlt : j < r.linearized.length := by omega
    refine ⟨_, hdesc.parent, Or.inr ⟨j, r.linearized[j], by omega,
      List.getElem?_eq_getElem hjlt, rfl, ?_⟩⟩
    have hchain := hdesc.chain
    rw [h.chain_eq (List.getElem_mem hjlt), h.chain_eq (List.mem_of_getElem? hd)] at hchain
    exact hchain

/-- Every block of the global order but the first ones of the ledger comes after its parent; and
where identities are not shared, the parent comes nowhere else. -/
theorem linearized_parents_first (h : Run.after rules ops = .ok r) :
    ∀ (i : Nat) (d : Linearized), r.linearized[i]? = some d →
      ∃ p, d.block.parent? = some p ∧
        (p = (Block.genesis .root).id ∨ ∃ j e, j < i ∧ r.linearized[j]? = some e ∧
          e.block.id = p ∧ (e.chain = d.chain ∨ d.chain.parent? = some e.chain)) ∧
        (Coherent (Block.genesis .root :: blocksOf ops) →
          ∀ (j : Nat) (e : Linearized), r.linearized[j]? = some e → e.block.id = p → j < i) := by
  intro i d hd
  have ht := tracks h (List.Subset.refl _)
  obtain ⟨p, hp, hbefore⟩ := ht.parent_before hd
  refine ⟨p, hp, hbefore, fun hcoherent j e he hid => ?_⟩
  rcases hbefore with rfl | ⟨j', e', hj', he', hid', -⟩
  · -- the genesis itself is never put in line
    have hmem : e.block.id ∈ r.linearized.map (·.block.id) :=
      List.mem_map_of_mem (List.mem_of_getElem? he)
    refine absurd ?_ (ht.finalized_once hcoherent).2
    rw [← hid]
    exact ht.perm.symm.subset (List.mem_append_left _ hmem)
  · have hget : ∀ {k : Nat} {f : Linearized}, r.linearized[k]? = some f → f.block.id = p →
        (r.linearized.map (·.block.id))[k]? = some p := by
      intro k f hf hfid
      rw [List.getElem?_map, hf, ← hfid]
      rfl
    -- a block of that identity is in line once, so it is the one that was found
    have hlt : j < (r.linearized.map (·.block.id)).length :=
      (List.getElem?_eq_some_iff.1 (hget he hid)).1
    have hsame : j = j' := (List.getElem?_inj hlt (ht.linearized_once hcoherent)).1
      ((hget he hid).trans (hget he' hid').symm)
    exact hsame ▸ hj'

/-- In the sample, the second to fourth blocks in line have the first one as their parent, each on
another chain. -/
theorem sample_parents_first : ∃ r, Run.after sampleRules sampleOps = .ok r ∧
    r.linearized.map (fun d => (d.chain.number, d.block.parent?)) =
      [(1, some (Block.genesis .root).id), (1, some ⟨1⟩), (2, some ⟨1⟩), (3, some ⟨1⟩)] ∧
    ∀ (i : Nat) (d : Linearized), r.linearized[i]? = some d →
      ∃ p, d.block.parent? = some p ∧
        (p = (Block.genesis .root).id ∨ ∃ j e, j < i ∧ r.linearized[j]? = some e ∧
          e.block.id = p ∧ (e.chain = d.chain ∨ d.chain.parent? = some e.chain)) ∧
        ∀ (j : Nat) (e : Linearized), r.linearized[j]? = some e → e.block.id = p → j < i := by
  obtain ⟨r, hr, hparents⟩ := @exists_after_of_any sampleRules sampleOps
    (fun r => r.linearized.map (fun d => (d.chain.number, d.block.parent?)) =
      [(1, some (Block.genesis .root).id), (1, some ⟨1⟩), (2, some ⟨1⟩), (3, some ⟨1⟩)])
    (by decide +kernel)
  refine ⟨r, hr, of_decide_eq_true hparents, fun i d hd => ?_⟩
  obtain ⟨p, hp, hbefore, hafter⟩ := linearized_parents_first hr i d hd
  exact ⟨p, hp, hbefore, hafter sample_coherent⟩

end Run

end ShardLedger
