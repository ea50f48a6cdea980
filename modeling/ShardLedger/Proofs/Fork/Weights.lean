import ShardLedger.Proofs.Capped
import ShardLedger.Proofs.Fork.Adding

/-!
# Weights in a fork graph

The priority tip is never recomputed. Each new leaf either takes its place or leaves it there, and
that is enough to keep it the heaviest node. So the weight that all tips are measured by is its
weight, and after pruning every tip is close to it.

- `ForkGraph.Leading`: the priority tip is a leaf, and no node is heavier.
- `ForkGraph.Stages.weightOf`, `ForkGraph.Stages.edge`: adding a block changes the weight of no
  other one.
- `ForkGraph.Stages.leading`, `ForkGraph.Stages.close`: what holds of weights afterwards.
-/

namespace ShardLedger

namespace ForkGraph

variable {g g' g₁ g₂ : ForkGraph} {id previous : BlockId} {weight : Nat} {step : ForkStep}

/-! ### The weight of a node -/

theorem weightOf_eq {n : BlockId} {node : ForkNode} (h : g.nodes[n]? = some node) :
    g.weightOf n = node.weight := by
  simp [weightOf, h]

theorem weightOf_eq_zero {n : BlockId} (h : ¬g.Live n) : g.weightOf n = 0 := by
  cases hn : g.nodes[n]? with
  | none => simp [weightOf, hn]
  | some node => exact absurd ⟨node, hn⟩ h

theorem attach_weightOf {parent : ForkNode} (hp : g.nodes[previous]? = some parent)
    (n : BlockId) : (g.attach id previous parent weight).weightOf n =
      if id = n then weight else g.weightOf n := by
  simp only [weightOf, attach_nodes]
  split
  · rfl
  · split
    · next h => simp [← h, hp]
    · rfl

/-- A cut leaves the weights of the other nodes alone. -/
theorem Cut.weightOf {gone : List BlockId} (h : Cut g g' gone) {n : BlockId} (hn : g'.Live n) :
    g'.weightOf n = g.weightOf n := by
  obtain ⟨node', hn'⟩ := hn
  obtain ⟨-, node, hnode, -, hw, -⟩ := h.kept n node' hn'
  rw [weightOf_eq hn', weightOf_eq hnode, hw]

/-- Moving the anchor rewrites no node. -/
theorem advance_nodes (g : ForkGraph) (heaviest : Nat) (n : BlockId) (node : ForkNode)
    (hn : (g.advance heaviest).1.nodes[n]? = some node) : g.nodes[n]? = some node := by
  fun_induction advance g heaviest with
  | case1 => exact hn
  | case2 g next hnext g' later heq ih =>
    rw [heq] at ih
    have hold := ih hn
    rw [finalizeNext_nodes] at hold
    split at hold
    · cases hold
    · exact hold

theorem advance_finalizedWeight (g : ForkGraph) (heaviest : Nat) :
    (g.advance heaviest).1.finalizedWeight = g.finalizedWeight := by
  fun_induction advance g heaviest with
  | case1 => rfl
  | case2 g next hnext g' later heq ih =>
    rw [heq] at ih
    exact ih

theorem Stages.weightOf₁ (hs : Stages g g₁ g₂ g' id previous weight step) (n : BlockId) :
    g₁.weightOf n = if id = n then addCapped (g.weightOf previous) weight else g.weightOf n := by
  obtain ⟨parent, hparent, rfl⟩ := hs.attached
  rw [attach_weightOf hparent, weightOf_eq hparent]

theorem Stages.nodes₂ (hs : Stages g g₁ g₂ g' id previous weight step) {n : BlockId}
    {node : ForkNode} (hn : g'.nodes[n]? = some node) : g₂.nodes[n]? = some node :=
  advance_nodes g₂ g₁.maxTipWeight n node (by rw [hs.advanced]; exact hn)

theorem Stages.weightOf (hs : Stages g g₁ g₂ g' id previous weight step) {n : BlockId}
    (hn : g'.Live n) : g'.weightOf n = g₁.weightOf n := by
  obtain ⟨node, hn⟩ := hn
  rw [← hs.pruned.weightOf ⟨node, hs.nodes₂ hn⟩, weightOf_eq hn, weightOf_eq (hs.nodes₂ hn)]

/-- An edge of the grown graph is the new one, which adds the weight of the block, or an old one
between nodes that weigh what they did. -/
theorem Stages.edge (hg : g.Rooted) (hs : Stages g g₁ g₂ g' id previous weight step)
    (hgrown : Grown g g' id previous step) {n p : BlockId} (hu : g'.Under n p) :
    (n = id ∧ p = previous ∧ g'.weightOf n = addCapped (g'.weightOf p) weight) ∨
      (n ≠ id ∧ g.Under n p ∧ g'.weightOf n = g.weightOf n ∧
        g'.weightOf p = g.weightOf p) := by
  have hp := hgrown.isTree.above_live hu
  have hn := Descends.live (.single hu) hp
  rw [hs.weightOf hn, hs.weightOf hp, hs.weightOf₁, hs.weightOf₁]
  -- the parent is never the new block, for nothing hung below that
  rcases hgrown.edges n p hu with ⟨rfl, rfl⟩ | hold
  · have hne : n ≠ p := fun heq => hgrown.fresh (heq ▸ hgrown.parent_live)
    rw [if_pos rfl, if_neg hne]
    exact .inl ⟨rfl, rfl, rfl⟩
  · obtain ⟨hn, hp⟩ := hg.not_under hs.fresh hold
    rw [if_neg (Ne.symm hn), if_neg (Ne.symm hp)]
    exact .inr ⟨hn, hold, rfl, rfl⟩

theorem Stages.finalizedWeight₁ (hs : Stages g g₁ g₂ g' id previous weight step) :
    g₁.finalizedWeight = g.finalizedWeight := by
  obtain ⟨parent, -, rfl⟩ := hs.attached
  rfl

theorem Stages.finalizedWeight (hs : Stages g g₁ g₂ g' id previous weight step) :
    g'.finalizedWeight = g.finalizedWeight := by
  have h := advance_finalizedWeight g₂ g₁.maxTipWeight
  rw [hs.advanced] at h
  rw [h, hs.pruned.finalizedWeight, hs.finalizedWeight₁]

/-! ### The priority tip leads -/

/-- The priority tip is a leaf, and no node is heavier. -/
structure Leading (g : ForkGraph) : Prop where
  isLeaf : g.IsLeaf g.priorityTip
  heaviest : ∀ n, g.weightOf n ≤ g.weightOf g.priorityTip
  capped : g.weightOf g.priorityTip ≤ maxWord

/-- The heaviest tip weighs what the priority tip weighs. -/
theorem Leading.maxTipWeight (hg : g.IsTree) (h : g.Leading) :
    g.maxTipWeight = g.weightOf g.priorityTip := by
  obtain ⟨hmem, hmax⟩ := foldl_max_spec (g.tips.toList.map g.weightOf)
  have htip : g.weightOf g.priorityTip ∈ g.tips.toList.map g.weightOf :=
    List.mem_map_of_mem (Std.ExtTreeSet.mem_toList.2 ((hg.mem_tips _).2 h.isLeaf))
  refine Nat.le_antisymm ?_ (hmax _ (List.mem_cons_of_mem _ htip))
  show (g.tips.toList.map g.weightOf).foldl max 0 ≤ _
  rcases List.mem_cons.1 hmem with hzero | hmem
  · rw [hzero]
    exact Nat.zero_le _
  · obtain ⟨t, -, ht⟩ := List.mem_map.1 hmem
    rw [← ht]
    exact h.heaviest t

theorem Fresh.weightOf {genesis n : BlockId} {w : Nat} (h : g.Fresh genesis w) :
    g.weightOf n = 0 := by
  unfold ForkGraph.weightOf
  rw [h.nodes]
  split <;> rfl

theorem Fresh.leading {genesis : BlockId} {w : Nat} (h : g.Fresh genesis w) : g.Leading where
  isLeaf := h.isLeaf
  heaviest n := by
    rw [h.weightOf]
    exact Nat.zero_le _
  capped := h.weightOf ▸ Nat.zero_le _

/-- A leaf that takes over is at least as heavy as the priority tip was. -/
theorem Stages.leading₁ (h : g.Leading) (hs : Stages g g₁ g₂ g' id previous weight step) :
    g₁.Leading := by
  have hleaf : g₁.IsLeaf g₁.priorityTip := by
    obtain ⟨parent, -, rfl⟩ := hs.attached
    exact isLeaf_attach hs.fresh h.isLeaf
  have htip : g₁.priorityTip =
      if g.weightOf g.priorityTip < addCapped (g.weightOf previous) weight ∨
        previous = g.priorityTip then id else g.priorityTip := by
    obtain ⟨parent, hparent, rfl⟩ := hs.attached
    rw [weightOf_eq hparent]
    rfl
  have hne : id ≠ g.priorityTip := by
    obtain ⟨node, hn, -⟩ := h.isLeaf
    rintro heq
    rw [← heq, hs.fresh] at hn
    cases hn
  have hcap := addCapped_le (g.weightOf previous) weight
  have hheavy := h.heaviest
  split at htip
  · rename_i hwins
    have hover : g.weightOf g.priorityTip ≤ addCapped (g.weightOf previous) weight := by
      rcases hwins with hlt | rfl
      · exact Nat.le_of_lt hlt
      · exact le_addCapped h.capped weight
    have hw : g₁.weightOf g₁.priorityTip = addCapped (g.weightOf previous) weight := by
      rw [htip, hs.weightOf₁, if_pos rfl]
    refine ⟨hleaf, fun n => ?_, hw ▸ hcap⟩
    rw [hw, hs.weightOf₁]
    split
    · exact Nat.le_refl _
    · exact Nat.le_trans (hheavy n) hover
  · rename_i hstays
    have hw : g₁.weightOf g₁.priorityTip = g.weightOf g.priorityTip := by
      rw [htip, hs.weightOf₁, if_neg hne]
    refine ⟨hleaf, fun n => ?_, hw ▸ h.capped⟩
    rw [hw, hs.weightOf₁]
    split
    · exact Nat.not_lt.1 fun hlt => hstays (.inl hlt)
    · exact hheavy n

/-- The dead tips are the leaves that trail the heaviest node by the finalization weight. -/
theorem Leading.mem_deadTips (hg : g.IsTree) (h : g.Leading) (hW : 0 < g.finalizedWeight)
    {t : BlockId} : t ∈ g.deadTips g.maxTipWeight ↔
      g.IsLeaf t ∧ g.finalizedWeight ≤ g.maxTipWeight - g.weightOf t := by
  simp only [deadTips, List.mem_filter, Std.ExtTreeSet.mem_toList, hg.mem_tips,
    decide_eq_true_eq, and_congr_right_iff, and_iff_right_iff_imp]
  rintro - hgap rfl
  rw [h.maxTipWeight hg] at hgap
  omega

/-- Something hangs below the anchor until the end of the pruning. -/
theorem Stages.anchor_not_leaf (hg : g.IsTree) (h : g.Leading)
    (hs : Stages g g₁ g₂ g' id previous weight step) : ¬g₂.IsLeaf g₁.anchor := by
  have hnot : ∀ {g : ForkGraph} {n : BlockId}, g.Rooted → g.Live n → n ≠ g.anchor →
      ¬g.IsLeaf g.anchor := by
    rintro g n hg ⟨node, hn⟩ hna hleaf
    obtain ⟨m, hm⟩ := hg.exists_under_anchor hn hna
    exact hg.not_under_leaf hleaf hm
  have hanchor : g₁.anchor = g.anchor := hs.pruned.anchor ▸ hs.anchor₂
  have hfirst : ¬g₁.IsLeaf g₁.anchor := by
    refine hnot hs.tree₁.toRooted ((hs.live₁ id).2 (.inl rfl)) ?_
    rintro rfl
    obtain ⟨node, hn⟩ := hg.anchor_live
    rw [← hanchor, hs.fresh] at hn
    cases hn
  have hleaf := (hs.leading₁ h).isLeaf
  rw [← hs.pruned.anchor]
  refine hnot hs.tree₂.toRooted (hs.pruned.live_iff.2 ⟨hleaf.live, hs.spared⟩) ?_
  intro heq
  exact hfirst (hs.pruned.anchor ▸ heq ▸ hleaf)

theorem Stages.leading (h : g.Leading) (hs : Stages g g₁ g₂ g' id previous weight step) :
    g'.Leading := by
  obtain ⟨hsame, hleaf⟩ := hs.isLeaf (hs.leading₁ h).isLeaf hs.spared
  rw [← hsame] at hleaf
  have hweight := hs.weightOf hleaf.live
  refine ⟨hleaf, fun n => ?_, ?_⟩
  · by_cases hn : g'.Live n
    · rw [hweight, hs.weightOf hn, hsame]
      exact (hs.leading₁ h).heaviest n
    · exact weightOf_eq_zero hn ▸ Nat.zero_le _
  · rw [hweight, hsame]
    exact (hs.leading₁ h).capped

/-- Whatever trails by the finalization weight has gone. -/
theorem Stages.close (hg : g.IsTree) (h : g.Leading) (hW : 0 < g.finalizedWeight)
    (hs : Stages g g₁ g₂ g' id previous weight step) {t : BlockId} (ht : g'.IsLeaf t) :
    g'.weightOf g'.priorityTip - g'.weightOf t < g.finalizedWeight := by
  have hlead := hs.leading₁ h
  obtain ⟨hsame, htip⟩ := hs.isLeaf hlead.isLeaf hs.spared
  have hleaf₂ : g₂.IsLeaf t := by
    obtain ⟨node, hn, hempty⟩ := ht
    exact ⟨node, hs.nodes₂ hn, hempty⟩
  have hleaf₁ : g₁.IsLeaf t := by
    rcases hs.pruned.leaf_kept t hleaf₂ with hleaf | rfl | rfl
    · exact hleaf
    · exact absurd hleaf₂ (hs.anchor_not_leaf hg h)
    · exact hlead.isLeaf
  rw [hs.weightOf ht.live, hsame, hs.weightOf htip.live, ← hlead.maxTipWeight hs.tree₁]
  by_contra hgap
  have hspared := (hs.pruned.live_iff.1 hleaf₂.live).2
  refine hspared (hs.pruned.dead_gone t ?_ hleaf₁.live)
  rw [hlead.mem_deadTips hs.tree₁ (hs.finalizedWeight₁ ▸ hW), hs.finalizedWeight₁]
  exact ⟨hleaf₁, Nat.not_lt.1 hgap⟩

end ForkGraph

end ShardLedger
