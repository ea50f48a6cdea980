import ShardLedger.Proofs.Fork.Priority

/-!
# Adding a block to a fork graph

`ForkGraph.add` attaches a leaf, prunes dead forks and moves the anchor.

- `ForkGraph.Stages`, `ForkGraph.add_stages`: the graphs between its parts.
- `ForkGraph.Grown`, `ForkGraph.add_grown`: all that one call does to the shape of the graph.
- `ForkGraph.add_after_tip`: a block after the priority tip takes over from it.
-/

namespace ShardLedger

/-- A step that does nothing finalizes and prunes no node. -/
theorem ForkStep.isEmpty_iff {s : ForkStep} :
    s.isEmpty = true ↔ s.finalized = [] ∧ s.pruned = [] := by
  rw [ForkStep.isEmpty, Bool.and_eq_true, List.isEmpty_iff, List.isEmpty_iff]

namespace ForkGraph

/-- What adding block `id` after `previous` does to the shape of a graph. -/
structure Grown (g g' : ForkGraph) (id previous : BlockId) (step : ForkStep) : Prop where
  fresh : ¬g.Live id
  parent_live : g.Live previous
  isTree : g'.IsTree
  anchor : g'.anchor = step.finalized.getLastD g.anchor
  /-- The finalized nodes lead down from the old anchor. -/
  path : Path (fun n p => (n = id ∧ p = previous) ∨ g.Under n p) g.anchor step.finalized
  finalized_kept : ∀ n ∈ step.finalized, n ∉ step.pruned
  edges : ∀ n p, g'.Under n p → (n = id ∧ p = previous) ∨ g.Under n p
  live : ∀ n, g'.Live n → n ∉ step.pruned ∧ (n = id ∨ g.Live n)
  /-- Only the pruned nodes and those above the new anchor leave. -/
  left : ∀ n, n = id ∨ g.Live n → n ∉ step.pruned →
    n ∉ (g.anchor :: step.finalized).dropLast → g'.Live n
  /-- The priority tip stays a leaf. -/
  priority : g.IsLeaf g.priorityTip → g'.IsLeaf g'.priorityTip

/-- A tree in which something hangs below the anchor prunes only from other leaves. -/
theorem deadTips_spec {g : ForkGraph} (hg : g.IsTree) {n : BlockId} (hn : g.Live n)
    (hna : n ≠ g.anchor) (heaviest : Nat) :
    ∀ t ∈ g.deadTips heaviest, t ≠ g.anchor ∧ g.IsLeaf t := by
  intro t ht
  have hleaf : g.IsLeaf t := by
    refine (hg.mem_tips t).1 ?_
    rw [← Std.ExtTreeSet.mem_toList]
    exact (List.mem_filter.1 ht).1
  refine ⟨?_, hleaf⟩
  -- an anchor with something below it is no leaf
  rintro rfl
  obtain ⟨node, hn⟩ := hn
  obtain ⟨m, hm⟩ := hg.exists_under_anchor hn hna
  exact hg.not_under_leaf hleaf hm

/-- A block is added only after a live one. -/
theorem add_parent {g : ForkGraph} {id previous : BlockId} {weight : Nat}
    {out : ForkGraph × ForkStep} (h : g.add id previous weight = .ok out) :
    ∃ node, g.nodes[previous]? = some node := by
  unfold add at h
  split at h
  · cases h
  · split at h
    · cases h
    · exact ⟨_, ‹_›⟩

/-- An unknown block is always added after a live one. -/
theorem add_ok {g : ForkGraph} {id previous : BlockId} (hid : ¬g.Live id)
    (hprevious : g.Live previous) (weight : Nat) :
    ∃ graph step, g.add id previous weight = .ok (graph, step) := by
  obtain ⟨node, hnode⟩ := hprevious
  have hnew : ¬g.contains id = true := fun hin => hid (Lookup.contains_iff.1 hin)
  unfold add
  rw [if_neg hnew, hnode]
  exact ⟨_, _, rfl⟩

/-- The graphs between the three parts of adding a block: `g₁` has the new leaf, `g₂` has lost the
dead tips, and from there the anchor moves on to `g'`. -/
structure Stages (g g₁ g₂ g' : ForkGraph) (id previous : BlockId) (weight : Nat)
    (step : ForkStep) : Prop where
  fresh : g.nodes[id]? = none
  attached : ∃ parent, g.nodes[previous]? = some parent ∧
    g₁ = g.attach id previous parent (addCapped parent.weight weight)
  tree₁ : g₁.IsTree
  pruned : Pruned g₁ g₂ (g₁.deadTips g₁.maxTipWeight) step.pruned
  spared : g₁.priorityTip ∉ step.pruned
  tree₂ : g₂.IsTree
  advanced : g₂.advance g₁.maxTipWeight = (g', step.finalized)

theorem add_stages {g g' : ForkGraph} {id previous : BlockId} {weight : Nat} {step : ForkStep}
    (hg : g.IsTree) (h : g.add id previous weight = .ok (g', step)) :
    ∃ g₁ g₂, Stages g g₁ g₂ g' id previous weight step := by
  unfold add at h
  split at h
  · cases h
  rename_i hid
  have hfresh : g.nodes[id]? = none := Lookup.contains_eq_false.1 (eq_false_of_ne_true hid)
  split at h
  · cases h
  rename_i parent hparent
  simp only [Except.ok.injEq, Prod.mk.injEq] at h
  obtain ⟨hg', hstep⟩ := h
  subst hg' hstep
  have htree := @isTree_attach g id previous parent (addCapped parent.weight weight)
    hg hfresh hparent
  have hlive := @live_attach g id previous parent (addCapped parent.weight weight) hparent
  have hida : id ≠ g.anchor := by
    rintro rfl
    obtain ⟨node, hn⟩ := hg.anchor_live
    rw [hfresh] at hn
    cases hn
  have hdead := deadTips_spec htree ((hlive id).2 (Or.inl rfl)) hida
  obtain ⟨htree₂, hpruned⟩ := pruneAll_pruned _ htree (fun t ht => (hdead _ t ht).1)
    fun t ht _ => (hdead _ t ht).2
  exact ⟨_, _,
    { fresh := hfresh, attached := ⟨parent, hparent, rfl⟩, tree₁ := htree, pruned := hpruned
      spared := pruneAll_spares _ (priorityTip_not_dead _ _), tree₂ := htree₂, advanced := rfl }⟩

section Stages

variable {g g₁ g₂ g' : ForkGraph} {id previous : BlockId} {weight : Nat} {step : ForkStep}

theorem Stages.under₁ (hg : g.IsTree) (hs : Stages g g₁ g₂ g' id previous weight step)
    (n p : BlockId) : g₁.Under n p ↔ (n = id ∧ p = previous) ∨ g.Under n p := by
  obtain ⟨parent, hparent, rfl⟩ := hs.attached
  exact attach_under hg.toRooted hs.fresh hparent n p

theorem Stages.live₁ (hs : Stages g g₁ g₂ g' id previous weight step) (n : BlockId) :
    g₁.Live n ↔ n = id ∨ g.Live n := by
  obtain ⟨parent, hparent, rfl⟩ := hs.attached
  exact live_attach hparent n

theorem Stages.anchor₂ (hs : Stages g g₁ g₂ g' id previous weight step) :
    g₂.anchor = g.anchor := by
  obtain ⟨parent, -, rfl⟩ := hs.attached
  exact hs.pruned.anchor

theorem Stages.moved (hs : Stages g g₁ g₂ g' id previous weight step) :
    Advanced g₂ g' step.finalized := by
  have h := advance_advanced g₂ g₁.maxTipWeight hs.tree₂
  rwa [hs.advanced] at h

/-- A leaf that pruning spares is a leaf at the end. -/
theorem Stages.isLeaf (hs : Stages g g₁ g₂ g' id previous weight step) {t : BlockId}
    (ht : g₁.IsLeaf t) (hspared : t ∉ step.pruned) :
    g'.priorityTip = g₁.priorityTip ∧ g'.IsLeaf t := by
  obtain ⟨node₂, hn₂⟩ := hs.pruned.live_iff.2 ⟨ht.live, hspared⟩
  have h := isLeaf_advance g₂ g₁.maxTipWeight hs.tree₂ (hs.pruned.isLeaf ht hn₂)
  rwa [hs.advanced, hs.pruned.priorityTip] at h

end Stages

theorem add_grown {g g' : ForkGraph} {id previous : BlockId} {weight : Nat} {step : ForkStep}
    (hg : g.IsTree) (h : g.add id previous weight = .ok (g', step)) :
    Grown g g' id previous step := by
  obtain ⟨g₁, g₂, hs⟩ := add_stages hg h
  have hmoved := hs.moved
  have hedges₂ : ∀ n p, g₂.Under n p →
      n ∉ step.pruned ∧ ((n = id ∧ p = previous) ∨ g.Under n p) := fun n p hu =>
    ⟨(hs.pruned.under_iff.1 hu).1, (hs.under₁ hg n p).1 (hs.pruned.under_iff.1 hu).2⟩
  obtain ⟨parent, hparent, hg₁⟩ := hs.attached
  refine
    { fresh := fun ⟨node, hn⟩ => ?_, parent_live := ⟨parent, hparent⟩, isTree := hmoved.isTree
      anchor := hs.anchor₂ ▸ hmoved.anchor
      path := hs.anchor₂ ▸ hmoved.path.mono fun n p hu => (hedges₂ n p hu).2
      finalized_kept := fun n hn => ?_
      edges := fun n p hu => (hedges₂ n p (hmoved.edges n p hu)).2
      live := fun n hn => ?_, left := fun n hn hgone hpassed => ?_, priority := fun htip => ?_ }
  · rw [hs.fresh] at hn
    cases hn
  · obtain ⟨p, hu⟩ := hmoved.path.exists_below n hn
    exact (hedges₂ n p hu).1
  · obtain ⟨hlive, hgone⟩ := hs.pruned.live_iff.1 (hmoved.live n hn)
    exact ⟨hgone, (hs.live₁ n).1 hlive⟩
  · exact hmoved.left n (hs.pruned.left n ((hs.live₁ n).2 hn) hgone) (hs.anchor₂.symm ▸ hpassed)
  · -- the priority tip is spared by the pruning, and the anchor stops before every leaf
    have hleaf : g₁.IsLeaf g₁.priorityTip := hg₁ ▸ isLeaf_attach hs.fresh htip
    obtain ⟨hsame, hleaf'⟩ := hs.isLeaf hleaf hs.spared
    exact hsame ▸ hleaf'

/-- A block that is added after the priority tip takes over from it. -/
theorem add_after_tip {g g' : ForkGraph} {id : BlockId} {weight : Nat} {step : ForkStep}
    (hg : g.IsTree) (htip : g.IsLeaf g.priorityTip)
    (h : g.add id g.priorityTip weight = .ok (g', step)) :
    g'.priorityTip = id ∧ g'.IsLeaf id := by
  obtain ⟨g₁, g₂, hs⟩ := add_stages hg h
  obtain ⟨parent, -, hg₁⟩ := hs.attached
  have htip₁ : g₁.priorityTip = id := by
    rw [hg₁]
    exact if_pos (.inr rfl)
  have hleaf := hs.isLeaf (hg₁ ▸ isLeaf_attach hs.fresh htip) hs.spared
  rwa [htip₁] at hleaf

end ForkGraph

end ShardLedger
