import ShardLedger.Proofs.Content.Lawful
import ShardLedger.Proofs.Ledger.GlobalOrder
import ShardLedger.Proofs.Ledger.Handover

/-!
# Runs as depots

A run whose blocks are all made from proposals that it returned before is matched, operation by
operation, by a depot. So the invariant of depots holds of the ledger at every point of such a run.

- `Run.Faithful`: every block was proposed.
- `Run.Stocks`: a depot that matches a run.
- `Run.exists_stocks`: there is one for every faithful run.
-/

namespace ShardLedger

theorem blocksOf_append (ops later : List Operation) :
    blocksOf (ops ++ later) = blocksOf ops ++ blocksOf later := List.filterMap_append

theorem itemsOf_append (ops later : List Operation) :
    itemsOf (ops ++ later) = itemsOf ops ++ itemsOf later := List.filterMap_append

namespace Run

variable {rules : Rules} {ops : List Operation} {op : Operation} {r r' : Run} {d : Depot}

/-- Every block that is submitted has the chain, the parent and the content of a proposal that had
been returned by then. -/
def Faithful (rules : Rules) (ops : List Operation) : Prop :=
  ∀ i b, ops[i]? = some (.submitBlock b) →
    ∃ r, Run.after rules (ops.take i) = .ok r ∧ ∃ p ∈ r.proposals, p.Makes b

theorem Faithful.of_append {later : List Operation} (h : Faithful rules (ops ++ later)) :
    Faithful rules ops := by
  intro i b hi
  obtain ⟨hlt, -⟩ := List.getElem?_eq_some_iff.1 hi
  have hall := h i b ((List.getElem?_append_left hlt).trans hi)
  rwa [List.take_append_of_le_length (Nat.le_of_lt hlt)] at hall

theorem Faithful.last {b : Block} (h : Faithful rules (ops ++ [.submitBlock b]))
    (hr : Run.after rules ops = .ok r) : ∃ p ∈ r.proposals, p.Makes b := by
  obtain ⟨r₀, hr₀, hp⟩ := h ops.length b (by simp)
  rw [List.take_left, hr, Except.ok.injEq] at hr₀
  exact hr₀ ▸ hp

/-- No item is submitted twice, and identities are not shared among blocks. -/
structure Clear (ops : List Operation) : Prop where
  items : ((itemsOf ops).map (·.id)).Nodup
  coherent : Coherent (Block.genesis .root :: blocksOf ops)

theorem Clear.of_append {later : List Operation} (h : Clear (ops ++ later)) : Clear ops := by
  refine ⟨?_, fun x hx y hy => ?_⟩
  · have hitems := h.items
    rw [itemsOf_append, List.map_append] at hitems
    exact (List.nodup_append.1 hitems).1
  · have hsub : blocksOf ops ⊆ blocksOf (ops ++ later) := by
      rw [blocksOf_append]
      exact List.subset_append_left _ _
    exact h.coherent x (List.cons_subset_cons _ hsub hx) y (List.cons_subset_cons _ hsub hy)

/-- A depot that matches a run. Proposals without content are no offers. -/
structure Stocks (ops : List Operation) (r : Run) (d : Depot) : Prop where
  lawful : d.Lawful (blocksOf ops)
  shows : r.ledger.Shows d
  offers : d.offers.map (·.proposal) = r.proposals.filter (·.content ≠ [])
  finalized : r.finalizations = d.finalized.map fun b => (b.chain, b.id)
  stored : ∀ x ∈ d.stored, x ∈ (itemsOf ops).map (·.id)
  covers : d.Covers (blocksOf ops)

/-- The block that is submitted next was offered with all its items. -/
theorem Stocks.covers_next (h : Stocks ops r d) (hr : Run.after rules ops = .ok r)
    (hfaithful : Faithful rules (ops ++ [op])) : d.Covers (blocksOf (ops ++ [op])) := by
  intro b hb x hx
  rw [blocksOf_append, List.mem_append] at hb
  rcases hb with hb | hb
  · exact h.covers b hb x hx
  · obtain ⟨op', hop, hblock⟩ := List.mem_filterMap.1 hb
    rw [List.mem_singleton] at hop
    subst hop
    cases op' with
    | submitBlock block =>
      obtain rfl : block = b := Option.some.inj hblock
      obtain ⟨p, hp, hmakes⟩ := hfaithful.last hr
      -- the proposal offers something, so there is an offer
      have hcontent : p.content ≠ [] := by
        intro hnil
        rw [hmakes.contentIds] at hx
        unfold Proposal.contentIds at hx
        rw [hnil] at hx
        cases hx
      have hmem : p ∈ d.offers.map (·.proposal) :=
        h.offers ▸ List.mem_filter.2 ⟨hp, decide_eq_true hcontent⟩
      obtain ⟨o, ho, rfl⟩ := List.mem_map.1 hmem
      exact ⟨o, ho, hmakes⟩
    | _ => cases hblock

/-- No chain starts from a block that is finalized only now. -/
theorem Stocks.fresh (h : Stocks ops r d) {log : List Block}
    (hfin : r'.finalizations = r.finalizations ++ log.map fun b => (b.chain, b.id))
    (honce : (r'.finalizations.map (·.2)).Nodup ∧
      (Block.genesis .root).id ∉ r'.finalizations.map (·.2)) :
    ∀ o ∈ d.offers, ∀ b ∈ log, o.genesis ≠ b := by
  have hids : r'.finalizations.map (·.2) = d.finalized.map (·.id) ++ log.map (·.id) := by
    rw [hfin, h.finalized, ← List.map_append, List.map_map, ← List.map_append]
    rfl
  rw [hids] at honce
  obtain ⟨-, -, hdisj⟩ := List.nodup_append.1 honce.1
  intro o ho b hb heq
  have hid : b.id ∈ log.map (·.id) := List.mem_map_of_mem hb
  -- a known block is the genesis or was finalized before
  rcases (h.lawful.fair o ho).known with hroot | hold
  · rw [← heq, hroot] at hid
    exact honce.2 (List.mem_append_right _ hid)
  · exact hdisj _ (List.mem_map_of_mem hold) _ hid (congrArg _ heq)

/-- An operation that stores and offers nothing. -/
theorem Stocks.carry (h : Stocks ops r d) {events : List Event}
    (hcarries : Ledger.Carries (blocksOf (ops ++ [op])) r.ledger r'.ledger events)
    (hfin : r'.finalizations = r.finalizations ++ events.flatMap Event.finalizations)
    (hproposals : r'.proposals = r.proposals) (hcovers : d.Covers (blocksOf (ops ++ [op])))
    (hcoherent : Coherent (Block.genesis .root :: blocksOf (ops ++ [op])))
    (honce : (r'.finalizations.map (·.2)).Nodup ∧
      (Block.genesis .root).id ∉ r'.finalizations.map (·.2)) :
    ∃ d', Stocks (ops ++ [op]) r' d' := by
  obtain ⟨log, hlog, hsteps⟩ := hcarries
  rw [hlog] at hfin
  obtain ⟨d', hevolves, hshows⟩ := hsteps d h.shows hcovers (h.fresh hfin honce)
  have hlawful : d.Lawful (blocksOf (ops ++ [op])) := h.lawful.mono (by
    rw [blocksOf_append]
    exact List.subset_append_left _ _)
  refine ⟨d', hevolves.steps.lawful hcoherent hlawful, hshows, ?_, ?_, fun x hx => ?_,
    hevolves.covers hcovers⟩
  · rw [hevolves.offers, hproposals]
    exact h.offers
  · rw [hfin, hevolves.finalized, h.finalized, List.map_append]
  · rw [hevolves.stored] at hx
    rw [itemsOf_append, List.map_append]
    exact List.mem_append_left _ (h.stored x hx)

/-- A fresh ledger is matched by the depot in which nothing has happened. -/
theorem stocks_start {l : Ledger} (h : Ledger.create rules = .ok l) :
    Stocks [] (start l) Depot.start := by
  obtain ⟨graph, hgraph, rfl⟩ := create_eq h
  generalize hroot : ({ Chain.start .root (Block.genesis .root) graph .empty .top with
    permanent := true } : Chain) = root
  have hid : root.id = .root := by rw [← hroot]; rfl
  have hface : root.face = ⟨.empty, some (Block.genesis .root)⟩ := by
    have hstart : (Chain.start .root (Block.genesis .root) graph .empty .top).face =
        ⟨.empty, some (Block.genesis .root)⟩ := Chain.face_start hgraph
    rw [← hroot]
    exact hstart
  -- the root is all that is seen
  have honly : ∀ q k, (Branch.leaf root).faces q = some k ↔
      q = .root ∧ k = ⟨.empty, some (Block.genesis .root)⟩ := by
    intro q k
    rw [Branch.faces_eq_some]
    constructor
    · intro hk
      by_cases hq : q.path = []
      · rw [hq, Branch.faceAt_nil, Option.some.injEq, Prod.mk.injEq] at hk
        exact ⟨hk.1.symm.trans hid, hk.2.symm.trans hface⟩
      · unfold Branch.faceAt at hk
        rw [Branch.chainAt_leaf hq] at hk
        cases hk
    · rintro ⟨rfl, rfl⟩
      rw [show ChainId.root.path = [] from ChainId.turns_one, Branch.faceAt_nil]
      show some (root.id, root.face) = _
      rw [hid, hface]
  refine ⟨Depot.lawful_start, ⟨⟨fun q => ?_, fun q x => ?_, fun q k hk => ?_⟩, fun q k hk => ?_,
    fun _ hc => (nomatch hc)⟩, rfl, rfl, fun _ hx => (nomatch hx), fun _ hb => (nomatch hb)⟩
  · constructor
    · intro hq
      exact ⟨_, (honly q _).2 ⟨hq, rfl⟩⟩
    · rintro ⟨k, hk⟩
      exact ((honly q k).1 hk).1
  · refine iff_of_false id ?_
    rintro ⟨k, hk, hx⟩
    rw [((honly q k).1 hk).2] at hx
    exact ContentStore.not_holds_empty hx
  · rw [((honly q k).1 hk).2]
    exact ContentStore.keyed_empty
  · rw [((honly q k).1 hk).2]
    rfl

/-- A new item is stored. -/
theorem Stocks.store (h : Stocks ops r d) (hr : Run.after rules ops = .ok r) {item : ContentItem}
    (hclear : Clear (ops ++ [.submitContent item])) :
    ∃ d', Stocks (ops ++ [.submitContent item]) (r.perform rules (.submitContent item)) d' := by
  have hblocks : blocksOf (ops ++ [.submitContent item]) = blocksOf ops := by
    rw [blocksOf_append]
    exact List.append_nil _
  have hitems := hclear.items
  rw [itemsOf_append, List.map_append] at hitems
  have hnew : item.id ∉ d.stored := fun hmem =>
    (List.nodup_append.1 hitems).2.2 _ (h.stored _ hmem) _ (List.mem_singleton_self _) rfl
  obtain ⟨d', hstep, hoffers, hfinalized, hstored, hshows⟩ :=
    Ledger.submitContent_shows (tracks hr (List.Subset.refl _)).arranged item h.shows hnew
  refine ⟨d', hblocks ▸ h.lawful.step hclear.of_append.coherent hstep, hshows, hoffers ▸ h.offers,
    hfinalized ▸ h.finalized, fun x hx => ?_, ?_⟩
  · rw [itemsOf_append, List.map_append]
    rw [hstored] at hx
    rcases List.mem_cons.1 hx with rfl | hx
    · exact List.mem_append_right _ (List.mem_singleton_self _)
    · exact List.mem_append_left _ (h.stored x hx)
  · rw [hblocks]
    unfold Depot.Covers
    rw [hoffers]
    exact h.covers

/-- A proposal is returned. It becomes an offer if there is something in it. -/
theorem Stocks.propose (h : Stocks ops r d) (hr : Run.after rules ops = .ok r)
    (hcoherent : Coherent (Block.genesis .root :: blocksOf ops)) (chain : ChainId)
    (maxSize : Nat) :
    ∃ d', Stocks (ops ++ [.propose chain maxSize]) (r.perform rules (.propose chain maxSize))
      d' := by
  have hblocks : blocksOf (ops ++ [.propose chain maxSize]) = blocksOf ops := by
    rw [blocksOf_append]
    exact List.append_nil _
  have hitems : itemsOf (ops ++ [.propose chain maxSize]) = itemsOf ops := by
    rw [itemsOf_append]
    exact List.append_nil _
  -- nothing else changes
  have hsame : Stocks (ops ++ [.propose chain maxSize]) r d :=
    ⟨hblocks ▸ h.lawful, h.shows, h.offers, h.finalized, hitems ▸ h.stored, hblocks ▸ h.covers⟩
  cases hp : r.ledger.proposal rules chain maxSize with
  | error e =>
    rw [perform_propose_error hp]
    exact ⟨d, hsame⟩
  | ok p =>
    rw [perform_propose_ok hp]
    by_cases hcontent : p.content = []
    · refine ⟨d, { hsame with offers := ?_ }⟩
      rw [hsame.offers, List.filter_append, List.filter_cons_of_neg (by simp [hcontent])]
      exact (List.append_nil _).symm
    · obtain ⟨-, -, o, ho, hstep⟩ := Ledger.proposal_offer rules
        (tracks hr (List.Subset.refl _)).arranged h.shows hp hcontent
      have hdepicts := h.shows.depicts
      refine ⟨{ d with offers := d.offers ++ [o] }, hblocks ▸ h.lawful.step hcoherent hstep,
        ⟨⟨hdepicts.live, hdepicts.holds, hdepicts.keyed⟩, h.shows.moored, h.shows.emptied⟩, ?_,
        h.finalized, hsame.stored, fun b hb x hx => ?_⟩
      · show (d.offers ++ [o]).map _ = (r.proposals ++ [p]).filter _
        rw [List.map_append, h.offers, List.filter_append,
          List.filter_cons_of_pos (by simp [hcontent]), ← ho]
        rfl
      · obtain ⟨o', ho', hmakes⟩ := hsame.covers b hb x hx
        exact ⟨o', List.mem_append_left _ ho', hmakes⟩

/-- One operation of a faithful run. -/
theorem Stocks.perform (h : Stocks ops r d) (hr : Run.after rules ops = .ok r)
    (hr' : Run.after rules (ops ++ [op]) = .ok (r.perform rules op)) (hclear : Clear (ops ++ [op]))
    (hfaithful : Faithful rules (ops ++ [op])) :
    ∃ d', Stocks (ops ++ [op]) (r.perform rules op) d' := by
  have hsub : blocksOf ops ⊆ blocksOf (ops ++ [op]) := by
    rw [blocksOf_append]
    exact List.subset_append_left _ _
  have hcoherent := hclear.coherent
  have hcovers := h.covers_next hr hfaithful
  have harranged := (tracks hr hsub).arranged
  have honce := (tracks hr' (List.Subset.refl _)).finalized_once hcoherent
  -- passes report nothing as finalized
  have hpasses : ∀ passes : List Ledger.Pass,
      (r.events ++ passes.flatMap Ledger.Pass.events).flatMap Event.finalizations =
        r.finalizations ++ [].flatMap Event.finalizations := fun passes => by
    rw [List.flatMap_append, List.flatMap_assoc, List.flatMap_eq_nil_iff.2 fun pass _ =>
      finalizations_pass pass]
    rfl
  cases op with
  | submitBlock block =>
    refine h.carry (Ledger.submitBlock_carries rules harranged ?_) List.flatMap_append rfl hcovers
      hcoherent honce
    rw [blocksOf_append]
    exact List.mem_append_right _ (List.mem_singleton_self _)
  | submitContent item => exact h.store hr hclear
  | invalidate content =>
    exact h.carry (Ledger.invalidate_carries content) (List.append_nil _).symm rfl hcovers hcoherent
      honce
  | propose chain maxSize => exact h.propose hr hclear.of_append.coherent chain maxSize
  | discardPending chain block =>
    exact h.carry (Ledger.discardPending_carries chain block) (List.append_nil _).symm rfl hcovers
      hcoherent honce
  | tick =>
    refine h.carry (Ledger.tick_carries rules harranged) ?_ rfl hcovers hcoherent honce
    have hone := hpasses [r.ledger.tick rules]
    rwa [List.flatMap_singleton] at hone
  | settle =>
    exact h.carry (Ledger.settle_carries rules harranged) (hpasses _) rfl hcovers hcoherent honce

/-- Every faithful run is matched by a depot, if no item is submitted twice and identities are not
shared. -/
theorem exists_stocks (h : Run.after rules ops = .ok r) (hclear : Clear ops)
    (hfaithful : Faithful rules ops) : ∃ d, Stocks ops r d := by
  induction ops using List.reverseRecOn generalizing r with
  | nil =>
    obtain ⟨l, hl, rfl⟩ := after_eq h
    exact ⟨_, stocks_start hl⟩
  | append_singleton ops op ih =>
    obtain ⟨r₀, hr₀, rfl⟩ := after_concat h
    obtain ⟨d, hd⟩ := ih hr₀ hclear.of_append hfaithful.of_append
    exact hd.perform hr₀ h hclear hfaithful

end Run

end ShardLedger
