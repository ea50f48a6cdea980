import ShardLedger.Proofs.Ledger.Honest
import ShardLedger.Proofs.Ledger.Rest
import ShardLedger.Proofs.Ledger.Shape
import ShardLedger.Proofs.Ledger.Watching
import ShardLedger.Proofs.Simulation.Auditing

/-!
# Outcomes of honest runs

If a simulation shows an honest run whose ledger has come to rest, then its outcome is as an audit
asks for.

- `Simulation.Shows`: the simulation is the record of a run.
- `Simulation.Shows.sound`: its outcome is sound.
-/

namespace ShardLedger

namespace Ledger

variable {seen : List Block} {l : Ledger} {b : Branch} {x : ContentId}

/-- At rest, the registered chains are all chains of the ledger. -/
theorem AtRest.registered (h : l.AtRest) : l.registered = l.order :=
  (order_eq_registered h.spawned).symm

theorem AtRest.registeredBranches_ids (hrest : l.AtRest) (h : l.Arranged seen) :
    l.registeredBranches.map (·.chain.id) = l.order := by
  rw [← hrest.registered, ← sources_chains h]
  unfold sources
  rw [List.map_map]
  rfl

/-- At rest, the registered chains are those that are found. -/
theorem AtRest.mem_registeredBranches (hrest : l.AtRest) (h : l.Arranged seen) :
    b ∈ l.registeredBranches ↔ b.chain.id ∈ l.order ∧ l.branch? b.chain.id = some b := by
  constructor
  · intro hb
    obtain ⟨a, ha, hab⟩ := List.mem_filterMap.1 hb
    have hmem : a ∈ l.order := List.mem_append_left _ ha
    exact h.branch?_id hmem hab ▸ ⟨hmem, hab⟩
  · rintro ⟨hmem, hb⟩
    exact List.mem_filterMap.2 ⟨_, hrest.registered ▸ hmem, hb⟩

end Ledger

/-- The pending items of a snapshot are those that the chain holds. -/
theorem Branch.mem_pending_snapshot {b : Branch} {x : ContentId} :
    x ∈ b.snapshot.pending ↔ b.chain.content.Holds x := by
  show x ∈ b.chain.content.items.keys ↔ _
  rw [Std.ExtTreeMap.mem_keys, ← Std.ExtTreeMap.contains_iff_mem]
  exact Lookup.contains_iff

/-- Where all that pass a test have one key, and keys are not shared, one passes at most. -/
theorem length_filter_le_one {α κ : Type} {key : α → κ} {p : α → Bool} {xs : List α}
    (hnodup : (xs.map key).Nodup)
    (hone : ∀ a ∈ xs, ∀ b ∈ xs, p a = true → p b = true → key a = key b) :
    (xs.filter p).length ≤ 1 := by
  have hsub : ((xs.filter p).map key).Nodup := hnodup.sublist (List.filter_sublist.map key)
  have hall : ∀ a ∈ xs.filter p, ∀ b ∈ xs.filter p, key a = key b := fun a ha b hb =>
    hone a (List.mem_filter.1 ha).1 b (List.mem_filter.1 hb).1 (List.mem_filter.1 ha).2
      (List.mem_filter.1 hb).2
  match hxs : xs.filter p with
  | [] => exact Nat.zero_le _
  | [_] => exact Nat.le_refl _
  | a :: b :: rest =>
    rw [hxs] at hsub hall
    have heq := hall a (List.mem_cons_self ..) b (List.mem_cons_of_mem _ (List.mem_cons_self ..))
    rw [List.map_cons, List.map_cons, heq] at hsub
    exact absurd (List.mem_cons_self ..) (List.nodup_cons.1 hsub).1

namespace Simulation

variable {rules : Rules} {s : Simulation} {ops : List Operation} {r : Run} {x : ContentId}

/-- The simulation is the record of an honest run of these operations. -/
structure Shows (rules : Rules) (s : Simulation) (ops : List Operation) (r : Run) : Prop where
  run : Run.after rules ops = .ok r
  honest : Run.Honest rules ops
  ledger : s.ledger = r.ledger
  events : s.events = r.events
  blocks : ∀ b ∈ blocksOf ops, s.blocks[b.id]? = some b
  submitted : ∀ x ∈ s.submitted, x ∈ (itemsOf ops).map (·.id)
  invalidated : ∀ x, x ∈ s.invalidated ↔ x ∈ withdrawnOf ops

theorem Shows.linearized (h : Shows rules s ops r) :
    s.result.linearized = r.linearized.map (·.block) := by
  rw [← Run.placed_events h.run, ← h.events]
  rfl

theorem Shows.finalizedIds (h : Shows rules s ops r) :
    s.result.finalizedIds = r.finalizations.map (·.2) := by
  unfold RunResult.finalizedIds Run.finalizations
  rw [← h.events]
  rfl

/-- A finalized block is known, and it is one of those that chains have finalized. -/
theorem Shows.finalized_block (h : Shows rules s ops r) {id : BlockId} :
    id ∈ s.result.finalizedIds ↔ ∃ b ∈ r.finalizedBlocks, b.id = id := by
  have htracks := Run.tracks h.run (List.Subset.refl _)
  rw [h.finalizedIds, htracks.reported.mem_iff, List.mem_map]

theorem Shows.getElem_blocks (h : Shows rules s ops r) {b : Block} (hb : b ∈ r.finalizedBlocks) :
    b ∈ blocksOf ops ∧ s.result.blocks[b.id]? = some b := by
  have hmem := (Run.tracks h.run (List.Subset.refl _)).finalizedBlocks_subset hb
  exact ⟨hmem, h.blocks b hmem⟩

theorem Shows.carried_iff (h : Shows rules s ops r) :
    s.result.Carried x ↔ ∃ b ∈ r.finalizedBlocks, x ∈ b.contentIds := by
  constructor
  · rintro ⟨id, hid, b, hb, hx⟩
    obtain ⟨a, ha, rfl⟩ := h.finalized_block.1 hid
    rw [(h.getElem_blocks ha).2, Option.some.injEq] at hb
    exact ⟨a, ha, hb ▸ hx⟩
  · rintro ⟨b, hb, hx⟩
    exact ⟨b.id, h.finalized_block.2 ⟨b, hb, rfl⟩, b, (h.getElem_blocks hb).2, hx⟩

section Rest

variable (h : Shows rules s ops r) (hrest : r.ledger.AtRest)
include h hrest

theorem Shows.mem_chains {c : ChainSnapshot} : c ∈ s.result.chains ↔
    ∃ b, b.chain.id ∈ r.ledger.order ∧ r.ledger.branch? b.chain.id = some b ∧ b.snapshot = c := by
  show c ∈ s.ledger.registeredBranches.map Branch.snapshot ↔ _
  rw [h.ledger, List.mem_map]
  simp only [hrest.mem_registeredBranches (Run.tidy h.run).arranged, and_assoc]

theorem Shows.chains_nodup : (s.result.chains.map (·.id)).Nodup := by
  show ((s.ledger.registeredBranches.map Branch.snapshot).map (·.id)).Nodup
  have harranged := (Run.tidy h.run).arranged
  rw [h.ledger, List.map_map]
  exact (hrest.registeredBranches_ids harranged).symm ▸ harranged.order_nodup

/-- What waits in a chain of the outcome waits in the ledger. -/
theorem Shows.waits_iff : s.result.Waits x ↔ r.ledger.root.Holds x := by
  have htidy := Run.tidy h.run
  rw [Branch.holds_iff]
  constructor
  · rintro ⟨c, hc, hx⟩
    obtain ⟨b, hid, hb, rfl⟩ := (h.mem_chains hrest).1 hc
    obtain ⟨c, hc, hx⟩ := htidy.pending_iff.1 ⟨b, hb, Branch.mem_pending_snapshot.1 hx⟩
    exact ⟨_, c, hc, hx⟩
  · rintro ⟨p, c, hc, hx⟩
    obtain ⟨hpath, hid, hp⟩ := htidy.pending_of_chainAt hc hx
    obtain ⟨b, hb, rfl⟩ : ∃ b, r.ledger.root.at? p = some b ∧ b.chain = c :=
      Option.map_eq_some_iff.1 hc
    refine ⟨b.snapshot, (h.mem_chains hrest).2 ⟨b, hid, Ledger.branch?_live ?_, rfl⟩,
      Branch.mem_pending_snapshot.2 hx⟩
    rw [hpath]
    exact hb

/-- A chain that holds an item in the outcome holds it in the ledger. -/
theorem Shows.pending_of_contains {c : ChainSnapshot} (hc : c ∈ s.result.chains)
    (hx : c.pending.contains x = true) : c.id ∈ r.ledger.order ∧ r.ledger.Pending c.id x := by
  obtain ⟨b, hid, hb, rfl⟩ := (h.mem_chains hrest).1 hc
  exact ⟨hid, b, hb, Branch.mem_pending_snapshot.1 (List.contains_iff_mem.1 hx)⟩

theorem Shows.linked {c : ChainSnapshot} (hc : c ∈ s.result.chains) (hlive : c.retired = false)
    (hroot : c.id.isRoot = false) : s.result.Linked c.id := by
  have harranged := (Run.tidy h.run).arranged
  obtain ⟨b, hid, hb, rfl⟩ := (h.mem_chains hrest).1 hc
  have hne : b.chain.id ≠ .root := fun heq => by
    rw [show b.snapshot.id = .root from heq] at hroot
    cases hroot
  obtain ⟨upper, hupper, left, hleft, right, hright, hhalf, hside, -, -, c, bl, br, hsplit, hbl,
    hbr, hupperLive, -, -⟩ := harranged.parted hid hne hb hlive
  have hone : 1 < b.chain.id.number :=
    Nat.lt_of_le_of_ne (harranged.mem_order _ hid).1 fun heq => hne (ChainId.eq_of_number heq.symm)
  have hparent : b.chain.id.parent? = some upper := ChainId.parent?_eq_some_iff.2 ⟨hone, hhalf⟩
  have hcid : c.id = upper := harranged.branch?_id hupper hsplit
  have hsnapshot : (Branch.split c bl br).snapshot ∈ s.result.chains :=
    (h.mem_chains hrest).2 ⟨.split c bl br, hcid.symm ▸ hupper, hcid.symm ▸ hsplit, rfl⟩
  -- the snapshot of the parent is the only one of its number
  have hlookup : Audit.chain? s.result upper = some (Branch.split c bl br).snapshot := by
    unfold Audit.chain?
    obtain ⟨e, he⟩ : ∃ e, s.result.chains.reverse.find? (·.id = upper) = some e :=
      Option.isSome_iff_exists.1 (List.find?_isSome.2
        ⟨_, List.mem_reverse.2 hsnapshot, decide_eq_true hcid⟩)
    have heid : e.id = upper := by simpa using List.find?_some he
    rw [he, List.inj_on_of_nodup_map (h.chains_nodup hrest)
      (List.mem_reverse.1 (List.mem_of_find?_eq_some he)) hsnapshot (heid.trans hcid.symm)]
  refine ⟨upper, _, bl.chain.id, br.chain.id, hparent, hlookup, hupperLive, rfl, ?_⟩
  rw [harranged.branch?_id hleft hbl, harranged.branch?_id hright hbr]
  exact hside

/-- The outcome of an honest run that has come to rest is sound. -/
theorem Shows.sound : s.result.Sound := by
  have htracks := Run.tracks h.run (List.Subset.refl _)
  have hcoherent := h.honest.clear.coherent
  have hids : (s.result.linearized.map (·.id)) = r.linearized.map (·.block.id) := by
    rw [h.linearized, List.map_map]
    rfl
  refine
    { once := hids ▸ htracks.linearized_once hcoherent
      ranked := ?_
      finalized_once := h.finalizedIds ▸ (htracks.finalized_once hcoherent).1
      finalized := fun b hb => ?_, attached := fun id hid => ?_
      sole := fun x => ?_, consumed := fun x hx hcarried => ?_, withdrawn := fun x hx hgone => ?_
      kept := fun x hx hnot => ?_, delivered := fun c hc rank hrank => ?_
      linked := fun c hc => h.linked hrest hc }
  · obtain ⟨fin, -, hsteps⟩ := htracks.board
    have hsorted := hsteps.ranked.sorted
    rw [List.map_map] at hsorted
    rw [h.linearized, List.map_map]
    exact hsorted
  · rw [h.linearized] at hb
    exact h.finalized_block.2 ⟨b, List.mem_append_left _ hb, rfl⟩
  · obtain ⟨b, hb, rfl⟩ := h.finalized_block.1 hid
    obtain ⟨p, hp, hattached⟩ := htracks.attached hb
    have hgenesis : s.result.rootGenesis = (Block.genesis .root).id := by
      show s.ledger.root.chain.genesis = _
      rw [h.ledger]
      exact Run.root_genesis h.run
    exact ⟨b, p, (h.getElem_blocks hb).2, hp, hgenesis ▸ hattached.imp_right h.finalized_block.2⟩
  · refine length_filter_le_one (h.chains_nodup hrest) fun c hc d hd hx hy => ?_
    obtain ⟨hcmem, hcp⟩ := h.pending_of_contains hrest hc hx
    obtain ⟨hdmem, hdp⟩ := h.pending_of_contains hrest hd hy
    exact h.honest.once h.run _ hcmem _ hdmem hcp hdp
  · obtain ⟨p, c, hc, hholds⟩ := Branch.holds_iff.1 ((h.waits_iff hrest).1 hx)
    obtain ⟨b, hb, hlisted⟩ := h.carried_iff.1 hcarried
    have hfinal := htracks.reported.symm.subset (List.mem_map_of_mem hb)
    exact h.honest.listed h.run (h.getElem_blocks hb).1 hfinal hlisted _
      ((Run.tidy h.run).pending_of_chainAt hc hholds).2.2
  · obtain ⟨p, c, hc, hholds⟩ := Branch.holds_iff.1 ((h.waits_iff hrest).1 hx)
    exact h.honest.withdrawn h.run ((h.invalidated x).1 hgone) _
      ((Run.tidy h.run).pending_of_chainAt hc hholds).2.2
  · have hsubmitted : x ∈ s.submitted := by
      have hx : x ∈ (∅ : ContentSet).insertMany s.submitted := hx
      simpa [Std.ExtTreeSet.mem_insertMany_list] using hx
    obtain ⟨item, hitem, rfl⟩ := List.mem_map.1 (h.submitted x hsubmitted)
    rw [h.waits_iff hrest, h.carried_iff]
    refine (Run.fate h.run hitem).imp_right fun hfate => hfate.resolve_left fun hgone => ?_
    exact hnot ((h.invalidated _).2 hgone)
  · obtain ⟨b, hid, hb, rfl⟩ := (h.mem_chains hrest).1 hc
    show s.ledger.confirmBar ≤ rank
    rw [h.ledger]
    exact hrest.heads b
      ((hrest.mem_registeredBranches (Run.tidy h.run).arranged).2 ⟨hid, hb⟩) rank hrank

end Rest

end Simulation

end ShardLedger
