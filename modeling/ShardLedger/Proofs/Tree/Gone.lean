import ShardLedger.Proofs.Order.Conservation
import ShardLedger.Proofs.Tree.Accounts

/-!
# Blocks that are gone

A block leaves a fork graph when it is discarded, or when the anchor has passed it. Where no two
blocks share an identity it is gone then: no block of its name is live after any later submission.

## Proof structure

What the anchor has passed never enters again, for its parent was passed before it. What was
discarded may enter, if its parent is still live. But it trailed the heaviest leaf when it was
discarded, and that one only gets heavier, so it is discarded again at once
(`ForkGraph.Stages.pruned_of_trails`).

- `Gone`: what events report to be gone.
- `Chain.Buried`, `Chain.kept_buried`: what holds of the blocks that are gone.
- `Chain.Buried.not_live`: no block that is gone is live.
-/

namespace ShardLedger

/-! ### Passed and discarded -/

/-- The blocks that the anchor has passed: all finalized ones and the one before them, but for the
last. -/
def passedIn (genesis : Block) (events : List Event) : List BlockId :=
  (genesis.id :: finalizedIn events).dropLast

/-- The events report the block as discarded, or the anchor has passed it. -/
def Gone (genesis : Block) (events : List Event) (n : BlockId) : Prop :=
  n ∈ passedIn genesis events ∨ n ∈ discardedIn events

section

variable {genesis : Block} {events later : List Event} {n a : BlockId} {xs ys : List BlockId}

theorem mem_dropLast_append : n ∈ (a :: (xs ++ ys)).dropLast ↔
    n ∈ (a :: xs).dropLast ∨ n ∈ (xs.getLastD a :: ys).dropLast := by
  induction xs generalizing a with
  | nil => simp
  | cons x xs ih =>
    rw [List.cons_append, List.dropLast_cons_cons, List.dropLast_cons_cons, List.mem_cons,
      List.mem_cons, ih, List.getLastD_cons, or_assoc]

theorem mem_passedIn_append : n ∈ passedIn genesis (events ++ later) ↔
    n ∈ passedIn genesis events ∨
      n ∈ ((finalizedIn events).getLastD genesis.id :: finalizedIn later).dropLast := by
  rw [passedIn, finalizedIn_append, mem_dropLast_append, passedIn]

theorem Gone.mono (h : Gone genesis events n) : Gone genesis (events ++ later) n := by
  rcases h with h | h
  · exact .inl (mem_passedIn_append.2 (.inl h))
  · exact .inr (by simp [h])

end

/-- Every block of a run follows one that has another block after it. -/
theorem Links.above_passed {seen : List Block} {id : ChainId} : ∀ {xs : List Block} {a b : Block},
    Links seen id a xs → b ∈ xs → ∃ q ∈ (a :: xs).dropLast, b.parent? = some q.id
  | x :: rest, a, b, h, hb => by
    rw [List.dropLast_cons_cons]
    rcases List.mem_cons.1 hb with rfl | hb
    · exact ⟨a, List.mem_cons_self .., h.1.parent⟩
    · obtain ⟨q, hq, hparent⟩ := h.2.above_passed hb
      exact ⟨q, List.mem_cons_of_mem _ hq, hparent⟩

namespace Chain

variable {rules : Rules} {config : Config} {seen queue xs : List Block} {c d : Chain} {W : Nat}
  {id : ChainId} {log : List Receipt} {events : List Event} {genesis x f : Block} {a : Applied}
  {n p : BlockId}

/-! ### What the account tells of a name -/

theorem Recorded.anchor_id (h : Recorded seen id genesis events queue c)
    (horderly : c.Orderly seen) : c.graph.anchor = (finalizedIn events).getLastD genesis.id := by
  rw [← h.queued, List.getLastD_map]
  exact (horderly.blocks_id _ _ h.anchor).symm

/-- Whatever is live is the block that the chain started from, or has entered. -/
theorem Recorded.entered_of_live (h : Recorded seen id genesis events queue c)
    (horderly : c.Orderly seen) (hlive : c.graph.Live n) :
    n = genesis.id ∨ n ∈ enteredIn events := by
  by_cases hn : n = c.graph.anchor
  · rw [hn, h.anchor_id horderly]
    refine (List.mem_cons.1 (List.getLastD_mem_cons ..)).imp_right fun hin => ?_
    exact h.balance.mem_iff.2 (List.mem_append_left _ (List.mem_append_left _ hin))
  · exact .inr (h.balance.mem_iff.2 (by simp [hn, hlive]))

/-- Whatever has entered is live or gone. -/
theorem Recorded.live_or_gone (h : Recorded seen id genesis events queue c)
    (horderly : c.Orderly seen) (hn : n = genesis.id ∨ n ∈ enteredIn events) :
    c.graph.Live n ∨ Gone genesis events n := by
  have hfinal : n ∈ genesis.id :: finalizedIn events → c.graph.Live n ∨ Gone genesis events n := by
    intro hin
    rcases ForkGraph.mem_dropLast_or hin with hpassed | heq
    · exact .inr (.inl hpassed)
    · rw [heq, ← h.anchor_id horderly]
      exact .inl horderly.isTree.anchor_live
  rcases hn with rfl | hn
  · exact hfinal (List.mem_cons_self ..)
  · have hwhere := h.balance.mem_iff.1 hn
    simp only [List.mem_append, ForkGraph.mem_others] at hwhere
    rcases hwhere with (hin | hin) | ⟨-, hlive⟩
    · exact hfinal (List.mem_cons_of_mem _ hin)
    · exact .inr (.inr hin)
    · exact .inl hlive

/-- The block of a node below the anchor follows the block of the node above. -/
theorem Sound.follows (h : c.Sound seen) {b : Block} (hb : c.blocks[n]? = some b)
    (hn : n ≠ c.graph.anchor) :
    ∃ p a, c.graph.Under n p ∧ c.blocks[p]? = some a ∧ Follows seen c.id a b := by
  obtain ⟨node, hnode⟩ := (h.blocks_live n).1 ⟨b, hb⟩
  obtain ⟨p, above, hprev, habove⟩ := h.isTree.previous_live n node hnode hn
  have hu : c.graph.Under n p := ⟨hn, node, hnode, hprev⟩
  obtain ⟨a, ha⟩ := (h.blocks_live p).2 ⟨above, habove⟩
  exact ⟨p, a, hu, ha, h.linked n p hu a b ha hb⟩

/-- The block of a live node is the one that the chain started from, or was seen. -/
theorem Recorded.block_mem (h : Recorded seen id genesis events queue c)
    (horderly : c.Orderly seen) {b : Block} (hb : c.blocks[n]? = some b) :
    b ∈ genesis :: seen := by
  by_cases hn : n = c.graph.anchor
  · rw [hn, h.anchor, Option.some.injEq] at hb
    rw [← hb]
    rcases List.mem_cons.1 (List.getLastD_mem_cons (a := genesis) (l := queue)) with heq | hin
    · rw [heq]
      exact List.mem_cons_self ..
    · exact List.mem_cons_of_mem _ (h.links.admitted _ hin).mem
  · obtain ⟨p, a, -, -, hfollows⟩ := horderly.follows hb hn
    exact List.mem_cons_of_mem _ hfollows.mem

/-! ### The invariant -/

/-- What holds of the blocks that are gone, on top of the account. -/
structure Buried (W : Nat) (seen : List Block) (id : ChainId) (genesis : Block)
    (events : List Event) (queue : List Block) (c : Chain) : Prop
    extends Recorded seen id genesis events queue c where
  tally : ∃ increment, ForkGraph.Tally.Sound W ⟨c.graph, increment⟩
  /-- Every block that entered was seen, and followed the first block of the chain or one that had
  entered before. -/
  came : ∀ n ∈ enteredIn events, ∃ a b, b.id = n ∧ Follows seen id a b ∧ a ∈ genesis :: seen ∧
    (a.id = genesis.id ∨ a.id ∈ enteredIn events)
  not_live : ∀ n, Gone genesis events n → ¬c.graph.Live n
  /-- A discarded block trails wherever it may enter again. -/
  trailing : ∀ b ∈ seen, b.id ∈ discardedIn events → ∀ p, b.parent? = some p → c.graph.Live p →
    c.graph.Trails W (addCapped (c.graph.weightOf p) b.weight.toNat)
  once : (genesis.id :: finalizedIn events).Nodup
  apart : ∀ n ∈ finalizedIn events, n ∉ discardedIn events

theorem Buried.akin (h : Buried W seen id genesis events queue c) (hakin : Akin c d) :
    Buried W seen id genesis events queue d :=
  { h.toRecorded.akin hakin with
    tally := hakin.graph ▸ h.tally
    came := h.came
    not_live := hakin.graph ▸ h.not_live
    trailing := hakin.graph ▸ h.trailing
    once := h.once
    apart := h.apart }

section

variable (h : Buried W seen id genesis events queue c) (horderly : c.Orderly seen)
  (hcoherent : Coherent (genesis :: seen)) (hgenesis : Foreign id genesis)
include h horderly hcoherent

/-- Nothing that has entered enters under another parent. -/
theorem Buried.parent_known (hx : x ∈ genesis :: seen) (hentered : x.id ∈ enteredIn events) :
    ∃ a, Follows seen id a x ∧ a ∈ genesis :: seen ∧
      (c.graph.Live a.id ∨ Gone genesis events a.id) := by
  obtain ⟨a, b, hid, hab, ha, hknown⟩ := h.came _ hentered
  obtain rfl := hcoherent b (List.mem_cons_of_mem _ hab.mem) x hx hid
  exact ⟨a, hab, ha, h.live_or_gone horderly hknown⟩

omit horderly in
include hgenesis in
/-- What the anchor has passed never follows a live block: the block above it was passed before. -/
theorem Buried.not_passed (hx : Admitted seen id x) (hparent : x.parent? = some p)
    (hlive : c.graph.Live p) : x.id ∉ passedIn genesis events := by
  intro hin
  have hblocks : passedIn genesis events = ((genesis :: queue).dropLast).map (·.id) := by
    rw [passedIn, ← h.queued, ← List.map_cons, List.map_dropLast]
  obtain ⟨f, hf, hid⟩ := List.mem_map.1 (hblocks ▸ hin)
  rcases List.mem_cons.1 (List.dropLast_subset _ hf) with rfl | hqueued
  · -- the first block of the chain is turned away
    obtain rfl := hcoherent f (List.mem_cons_self ..) x (List.mem_cons_of_mem _ hx.mem) hid
    rcases hgenesis with hnone | hchain
    · rw [hnone] at hparent
      cases hparent
    · exact hchain hx.chain
  · obtain rfl := hcoherent f (List.mem_cons_of_mem _ (h.links.admitted f hqueued).mem) x
      (List.mem_cons_of_mem _ hx.mem) hid
    obtain ⟨q, hq, habove⟩ := h.links.above_passed hqueued
    obtain rfl : p = q.id := Option.some.inj (hparent.symm.trans habove)
    exact h.not_live _ (.inl (hblocks ▸ List.mem_map_of_mem hq)) hlive

include hgenesis in
/-- So a block that enters was not finalized. -/
theorem Buried.not_finalized (hx : Admitted seen id x) (hparent : x.parent? = some p)
    (hlive : c.graph.Live p) (hfresh : ¬c.graph.Live x.id) :
    x.id ∉ genesis.id :: finalizedIn events := by
  intro hin
  rcases ForkGraph.mem_dropLast_or hin with hpassed | hlast
  · exact h.not_passed hcoherent hgenesis hx hparent hlive hpassed
  · rw [hlast, ← h.anchor_id horderly] at hfresh
    exact hfresh horderly.isTree.anchor_live

end

/-! ### One more block enters -/

theorem tally_apply (h : ∃ increment, ForkGraph.Tally.Sound W ⟨c.graph, increment⟩)
    (ha : c.apply x = some a) :
    ∃ increment, ForkGraph.Tally.Sound W ⟨a.chain.graph, increment⟩ := by
  obtain ⟨increment, h⟩ := h
  obtain ⟨parent, _, _, graph, -, -, -, -, hadd, heq⟩ := apply_eq_some ha
  have hcall := h.call ⟨x.id, parent, x.weight.toNat⟩
  rw [ForkGraph.Tally.call] at hcall
  simp only [hadd] at hcall
  rw [heq]
  exact ⟨_, hcall⟩

section Enter

variable {g₁ g₂ : ForkGraph} {above : Block} (h : Buried W seen id genesis events queue c)
  (horderly : c.Orderly seen) (hcoherent : Coherent (genesis :: seen))
  (hgenesis : Foreign id genesis) (hx : Admitted seen id x) (hparent : x.parent? = some p)
  (habove : c.blocks[p]? = some above)
  (hs : ForkGraph.Stages c.graph g₁ g₂ a.chain.graph x.id p x.weight.toNat a.step)
include h horderly hcoherent hgenesis hx hparent habove hs

omit hcoherent hgenesis in
/-- A discarded block that enters is discarded again. -/
theorem Buried.discarded_again (hgone : x.id ∈ discardedIn events) : x.id ∈ a.step.pruned := by
  obtain ⟨increment, htally⟩ := h.tally
  have hlive := (horderly.blocks_live p).1 ⟨above, habove⟩
  exact hs.pruned_of_trails htally (h.trailing x hx.mem hgone p hparent hlive)

/-- No node of the tree with the new leaf was finalized before, but for the anchor. -/
theorem Buried.new_finalized (hn : n ≠ c.graph.anchor) (hlive : g₁.Live n) :
    n ∉ genesis.id :: finalizedIn events := by
  rcases (hs.live₁ n).1 hlive with rfl | hold
  · exact h.not_finalized horderly hcoherent hgenesis hx hparent
      ((horderly.blocks_live p).1 ⟨above, habove⟩) hs.not_live
  · intro hin
    rcases ForkGraph.mem_dropLast_or hin with hpassed | hlast
    · exact h.not_live n (.inl hpassed) hold
    · exact hn (hlast.trans (h.anchor_id horderly).symm)

/-- What is gone after the step is not live after the step. -/
theorem Buried.not_live_after (hgone : Gone genesis (events ++ a.reports id x.id) n) :
    ¬a.chain.graph.Live n := by
  intro hlive
  obtain ⟨hlive₁, hspared⟩ := hs.live_spared hlive
  -- what was gone before can be live only as the block that has just entered
  have hold : Gone genesis events n → n = x.id := fun hgone =>
    ((hs.live₁ n).1 hlive₁).resolve_right (h.not_live n hgone)
  rcases hgone with hpassed | hdiscarded
  · rw [mem_passedIn_append, ← h.anchor_id horderly, a.finalizedIn_reports] at hpassed
    rcases hpassed with hpassed | hpassed
    · obtain rfl := hold (.inl hpassed)
      exact h.not_passed hcoherent hgenesis hx hparent
        ((horderly.blocks_live p).1 ⟨above, habove⟩) hpassed
    · exact hs.passed n hpassed hlive
  · rw [discardedIn_append, a.discardedIn_reports, List.mem_append] at hdiscarded
    rcases hdiscarded with hdiscarded | hpruned
    · obtain rfl := hold (.inr hdiscarded)
      exact hspared (h.discarded_again horderly hx hparent habove hs hdiscarded)
    · exact hspared hpruned

omit hgenesis in
/-- A block that is pruned below a node that stays trails there. -/
theorem Buried.trails_pruned {b : Block} {q : BlockId} (hb : b ∈ seen)
    (hpruned : b.id ∈ a.step.pruned) (hq : b.parent? = some q) (hlive : a.chain.graph.Live q) :
    a.chain.graph.Trails W (addCapped (a.chain.graph.weightOf q) b.weight.toNat) := by
  obtain ⟨increment, htally⟩ := h.tally
  suffices hweight : c.graph.Live q ∧
      g₁.weightOf b.id = addCapped (c.graph.weightOf q) b.weight.toNat by
    rw [hs.weightOf_old hweight.1 hlive, ← hweight.2]
    exact hs.pruned_trails htally hpruned
  obtain ⟨hna, hlive₁⟩ := hs.pruned_live hpruned
  rw [hs.weightOf₁]
  by_cases hnew : x.id = b.id
  · obtain rfl := hcoherent x (List.mem_cons_of_mem _ hx.mem) b (List.mem_cons_of_mem _ hb) hnew
    obtain rfl : p = q := Option.some.inj (hparent.symm.trans hq)
    rw [if_pos rfl]
    exact ⟨(horderly.blocks_live p).1 ⟨above, habove⟩, rfl⟩
  · -- an old node stands under the parent that its block names
    have hold := ((hs.live₁ _).1 hlive₁).resolve_left (Ne.symm hnew)
    obtain ⟨b', hb'⟩ := (horderly.blocks_live _).2 hold
    obtain ⟨q', a', hu, ha', hfollows⟩ := horderly.follows hb' hna
    obtain rfl := hcoherent b' (h.block_mem horderly hb') b (List.mem_cons_of_mem _ hb)
      (horderly.blocks_id _ _ hb')
    have hparent' := hfollows.parent
    rw [horderly.blocks_id _ _ ha', hq, Option.some.injEq] at hparent'
    rw [if_neg hnew, hparent']
    exact ⟨horderly.isTree.above_live hu, horderly.weights _ _ hu _ hb'⟩

theorem Buried.trails_after {b : Block} {q : BlockId} (hb : b ∈ seen)
    (hdiscarded : b.id ∈ discardedIn (events ++ a.reports id x.id)) (hq : b.parent? = some q)
    (hlive : a.chain.graph.Live q) :
    a.chain.graph.Trails W (addCapped (a.chain.graph.weightOf q) b.weight.toNat) := by
  rw [discardedIn_append, a.discardedIn_reports, List.mem_append] at hdiscarded
  rcases hdiscarded with hdiscarded | hpruned
  · -- its parent is live or gone, and what is gone is not live after the step either
    have hentered : b.id ∈ enteredIn events := h.balance.mem_iff.2 (by simp [hdiscarded])
    obtain ⟨top, hfollows, -, hknown⟩ :=
      h.parent_known horderly hcoherent (List.mem_cons_of_mem _ hb) hentered
    obtain rfl : top.id = q := Option.some.inj (hfollows.parent.symm.trans hq)
    have hold : c.graph.Live top.id := hknown.resolve_right fun hgone =>
      h.not_live_after horderly hcoherent hgenesis hx hparent habove hs hgone.mono hlive
    obtain ⟨increment, htally⟩ := h.tally
    rw [hs.weightOf_old hold hlive]
    exact (h.trailing b hb hdiscarded _ hq hold).mono (hs.tip_weight_le htally) (Nat.le_refl _)
  · exact h.trails_pruned horderly hcoherent hx hparent habove hs hb hpruned hq hlive

end Enter

theorem Buried.enter (h : Buried W seen id genesis events queue c) (horderly : c.Orderly seen)
    (hcoherent : Coherent (genesis :: seen)) (hgenesis : Foreign id genesis)
    (hready : c.Ready seen (x :: xs)) (ha : c.apply x = some a) :
    Buried W seen id genesis (events ++ a.reports c.id x.id) (queue ++ a.outcome.2)
      (a.outcome.1.enqueueAll config a.outcome.2) := by
  have hrecorded := h.toRecorded.enter config horderly hready ha
  obtain ⟨p, above, g₁, g₂, hparent, habove, hrank, hs⟩ := horderly.stages ha
  have hx : Admitted seen id x := h.chain ▸ hready.admitted x (List.mem_cons_self ..)
  have hfollows : Follows seen id above x :=
    ⟨hx, by rw [hparent, horderly.blocks_id _ _ habove], hrank⟩
  have hgraph : (a.outcome.1.enqueueAll config a.outcome.2).graph = a.chain.graph := by
    obtain ⟨nextRank, permanent, heq⟩ := enqueueAll_eq config a.outcome.2 a.outcome.1
    rw [heq, Applied.outcome_rest ha]
  rw [h.chain] at hrecorded ⊢
  have hfinalized : ∀ n ∈ a.step.finalized, n ∉ genesis.id :: finalizedIn events := fun n hn =>
    have hkept := hs.finalized_kept hn
    h.new_finalized horderly hcoherent hgenesis hx hparent habove hs hkept.2.1 hkept.2.2
  refine { hrecorded with
    tally := hgraph ▸ tally_apply h.tally ha
    came := ?_, not_live := ?_, trailing := ?_, once := ?_, apart := ?_ }
  · intro n hn
    rw [enteredIn_append, a.enteredIn_reports, List.mem_append, List.mem_singleton] at hn
    have hmono : ∀ m, (m = genesis.id ∨ m ∈ enteredIn events) →
        m = genesis.id ∨ m ∈ enteredIn (events ++ a.reports id x.id) := by
      intro m hm
      exact hm.imp_right fun hin => by simp [hin]
    rcases hn with hn | rfl
    · obtain ⟨top, b, hid, hb, htop, hknown⟩ := h.came n hn
      exact ⟨top, b, hid, hb, htop, hmono _ hknown⟩
    · have hknown := h.entered_of_live horderly ((horderly.blocks_live p).1 ⟨above, habove⟩)
      rw [← horderly.blocks_id _ _ habove] at hknown
      exact ⟨above, x, rfl, hfollows, h.block_mem horderly habove, hmono _ hknown⟩
  · intro n hn
    rw [hgraph]
    exact h.not_live_after horderly hcoherent hgenesis hx hparent habove hs hn
  · intro b hb hdiscarded q hq
    rw [hgraph]
    exact h.trails_after horderly hcoherent hgenesis hx hparent habove hs hb hdiscarded hq
  · rw [finalizedIn_append, a.finalizedIn_reports, ← List.cons_append]
    refine List.nodup_append.2 ⟨h.once, (List.nodup_cons.1 hs.nodup_finalized).2, ?_⟩
    rintro m hm n hn rfl
    exact hfinalized m hn hm
  · intro n hn hdiscarded
    rw [finalizedIn_append, a.finalizedIn_reports, List.mem_append] at hn
    rw [discardedIn_append, a.discardedIn_reports, List.mem_append] at hdiscarded
    rcases hdiscarded with hdiscarded | hpruned
    · refine hn.elim (fun hold => h.apart n hold hdiscarded) fun hnew => ?_
      -- a discarded block can be finalized only as the block that has entered, and that was pruned
      obtain ⟨hspared, -, hlive₁⟩ := hs.finalized_kept hnew
      obtain rfl := ((hs.live₁ n).1 hlive₁).resolve_right (h.not_live n (.inr hdiscarded))
      exact hspared (h.discarded_again horderly hx hparent habove hs hdiscarded)
    · refine hn.elim (fun hold => ?_) fun hnew => (hs.finalized_kept hnew).1 hpruned
      obtain ⟨hna, hlive₁⟩ := hs.pruned_live hpruned
      exact h.new_finalized horderly hcoherent hgenesis hx hparent habove hs hna hlive₁
        (List.mem_cons_of_mem _ hold)

theorem kept_buried (config : Config) (W : Nat) (hcoherent : Coherent (genesis :: seen))
    (hgenesis : Foreign id genesis) : Kept config seen (Buried W seen id genesis) where
  akin hakin h := h.akin hakin
  enter horderly hready ha h := h.enter horderly hcoherent hgenesis hready ha

/-- On a chain that has just started nothing is gone. -/
theorem buried_start {graph : ForkGraph} {content : ContentStore} {cursor : Cursor}
    (hg : newGraph config genesis.id = .ok graph) :
    Buried config.fork.finalizedWeight seen id genesis [] []
      (start id genesis graph content cursor) where
  toRecorded := recorded_start hg
  tally := ⟨fun _ => 0, ForkGraph.Tally.sound_create hg⟩
  came _ hn := nomatch hn
  not_live _ hn := by
    rcases hn with hn | hn
    · cases hn
    · cases hn
  trailing _ _ hn := nomatch hn
  once := List.nodup_singleton _
  apart _ hn := nomatch hn

theorem Becomes.buried {graph : ForkGraph} {content : ContentStore} {cursor : Cursor}
    (h : (start id genesis graph content cursor).Becomes rules log c)
    (hg : newGraph rules.config genesis.id = .ok graph) (hcoherent : Coherent (genesis :: seen))
    (hgenesis : Foreign id genesis)
    (hseen : ∀ b ∈ submittedIn log, rules.accepts b = true → b ∈ seen) :
    c.Orderly seen ∧
      Buried rules.config.fork.finalizedWeight seen id genesis (eventsIn log) (queuedIn log) c :=
  ⟨h.orderly (orderly_start hg) hseen,
    h.keeps (kept_buried _ _ hcoherent hgenesis) (orderly_start hg) hseen (buried_start hg)⟩

theorem coherent_acceptedIn (h : Coherent (genesis :: submittedIn log)) :
    Coherent (genesis :: acceptedIn rules log) :=
  h.mono (List.cons_subset_cons _ acceptedIn_subset)

/-- Throughout the life of a chain, what is gone stays gone. -/
theorem Life.buried (h : Life rules genesis log c)
    (hcoherent : Coherent (genesis :: submittedIn log)) :
    c.Orderly (acceptedIn rules log) ∧
      Buried rules.config.fork.finalizedWeight (acceptedIn rules log) c.id genesis (eventsIn log)
        (queuedIn log) c := by
  obtain ⟨id, graph, content, cursor, hg, hgenesis, hlife⟩ := h
  obtain ⟨horderly, hburied⟩ :=
    hlife.buried hg (coherent_acceptedIn hcoherent) hgenesis mem_acceptedIn_of_accepts
  exact ⟨horderly, hburied.chain.symm ▸ hburied⟩

end Chain

end ShardLedger
