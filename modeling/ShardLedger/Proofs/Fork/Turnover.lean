import Mathlib.Data.List.Basic
import ShardLedger.Proofs.Fork.Rule

/-!
# The turnover of a fork graph

Adding a block brings one node in, and some nodes leave: finalized ones with the anchor, and pruned
ones. No node leaves unreported, and none is reported that was not there. A leaf that was too light
once is too light ever after, for the weight that it is measured by only grows.

- `ForkGraph.others`: the live nodes that are not final.
- `ForkGraph.Turnover`, `ForkGraph.Stages.turnover`: the account of one step.
- `ForkGraph.Trails`: a weight too far behind the heaviest one.
-/

namespace ShardLedger

namespace ForkGraph

variable {g g' g₁ g₂ : ForkGraph} {id previous n : BlockId} {weight W : Nat} {step : ForkStep}

/-- The live nodes other than the anchor. -/
def others (g : ForkGraph) : List BlockId := g.nodes.keys.erase g.anchor

theorem nodup_keys (g : ForkGraph) : g.nodes.keys.Nodup :=
  Std.ExtTreeMap.distinct_keys.imp fun hne heq => by simp [heq] at hne

@[simp] theorem mem_others : n ∈ g.others ↔ n ≠ g.anchor ∧ g.Live n := by
  rw [others, g.nodup_keys.mem_erase_iff, Std.ExtTreeMap.mem_keys,
    ← Std.ExtTreeMap.contains_iff_mem, Lookup.contains_iff]
  rfl

theorem nodup_others (g : ForkGraph) : g.others.Nodup := g.nodup_keys.erase g.anchor

/-- A path only goes up, so it never comes back. -/
theorem Path.nodup {below : BlockId → BlockId → Prop} {height : BlockId → Nat}
    (hh : ∀ n p, below n p → height p < height n) {ns : List BlockId} {a : BlockId}
    (h : Path below a ns) : (a :: ns).Nodup ∧ ∀ n ∈ ns, height a < height n := by
  induction ns generalizing a with
  | nil => simp
  | cons n rest ih =>
    obtain ⟨hnodup, habove⟩ := ih h.2
    have hfirst : height a < height n := hh n a h.1
    have hall : ∀ m ∈ n :: rest, height a < height m := by
      intro m hm
      rcases List.mem_cons.1 hm with rfl | hm
      · exact hfirst
      · exact Nat.lt_trans hfirst (habove m hm)
    refine ⟨List.nodup_cons.2 ⟨fun hin => ?_, hnodup⟩, hall⟩
    exact Nat.lt_irrefl _ (hall a hin)

/-- The nodes of a path and where it starts are passed, but for the last one. -/
theorem mem_dropLast_or {a : BlockId} {ns : List BlockId} (hn : n ∈ a :: ns) :
    n ∈ (a :: ns).dropLast ∨ n = ns.getLastD a := by
  rwa [← List.dropLast_concat_getLast (List.cons_ne_nil a ns), List.mem_append,
    List.mem_singleton, List.getLast_eq_getLastD] at hn

/-! ### The account -/

/-- What adding block `id` does to the nodes that are live. -/
structure Turnover (g g' : ForkGraph) (id : BlockId) (step : ForkStep) : Prop where
  /-- The new leaf and the old nodes are finalized or pruned, or they stay below the anchor. -/
  balance : (id :: g.others).Perm (step.finalized ++ step.pruned ++ g'.others)
  /-- The old anchor leaves with the nodes that the new one has passed. -/
  passed : ∀ n ∈ (g.anchor :: step.finalized).dropLast, ¬g'.Live n

section Stages

variable (hs : Stages g g₁ g₂ g' id previous weight step)
include hs

theorem Stages.anchor₁ : g₁.anchor = g.anchor := hs.pruned.anchor ▸ hs.anchor₂

/-- The new leaf was not there before. -/
theorem Stages.not_live : ¬g.Live id := by
  rintro ⟨node, hnode⟩
  rw [hs.fresh] at hnode
  cases hnode

/-- What is finalized was a node of the tree with the new leaf, and was not pruned. -/
theorem Stages.finalized_kept (hn : n ∈ step.finalized) :
    n ∉ step.pruned ∧ n ≠ g.anchor ∧ g₁.Live n := by
  obtain ⟨p, hunder⟩ := hs.moved.path.exists_below n hn
  obtain ⟨hspared, hna, node, hnode, -⟩ := hs.pruned.under_iff.1 hunder
  exact ⟨hspared, hs.anchor₁ ▸ hna, node, hnode⟩

/-- The anchor is never pruned. -/
theorem Stages.pruned_live (hn : n ∈ step.pruned) : n ≠ g.anchor ∧ g₁.Live n := by
  refine ⟨fun heq => ?_, hs.pruned.gone_live n hn⟩
  have hlive := hs.pruned.rooted.anchor_live
  rw [hs.anchor₂] at hlive
  exact (hs.pruned.live_iff.1 hlive).2 (heq ▸ hn)

/-- Whatever is live at the end was a node of the tree with the new leaf, and was not pruned. -/
theorem Stages.live_spared (hn : g'.Live n) : g₁.Live n ∧ n ∉ step.pruned :=
  hs.pruned.live_iff.1 (hs.moved.live n hn)

theorem Stages.nodup_finalized : (g.anchor :: step.finalized).Nodup := by
  obtain ⟨height, hh⟩ := hs.tree₂.grounded
  have hpath := hs.moved.path
  rw [hs.anchor₂] at hpath
  exact (hpath.nodup hh).1

theorem Stages.nodup_pruned : step.pruned.Nodup :=
  hs.pruned.ordered.imp fun hnot heq => by
    subst heq
    exact hnot .refl

theorem Stages.passed : ∀ n ∈ (g.anchor :: step.finalized).dropLast, ¬g'.Live n := by
  intro n hn hlive
  have hleft := (advance_longest g₂ g₁.maxTipWeight hs.tree₂).2.2
  rw [hs.advanced, hs.anchor₂] at hleft
  exact hleft n hlive hn

/-- The other nodes of the new graph are those of the tree with the new leaf that were neither
pruned nor finalized. -/
theorem Stages.mem_others : n ∈ g'.others ↔
    g₁.Live n ∧ n ∉ step.pruned ∧ n ∉ g.anchor :: step.finalized := by
  have hanchor : g'.anchor = step.finalized.getLastD g.anchor := hs.anchor₂ ▸ hs.moved.anchor
  rw [ForkGraph.mem_others, hanchor]
  constructor
  · rintro ⟨hna, hlive⟩
    obtain ⟨hlive₁, hspared⟩ := hs.live_spared hlive
    refine ⟨hlive₁, hspared, fun hin => ?_⟩
    rcases mem_dropLast_or hin with hpassed | heq
    · exact hs.passed n hpassed hlive
    · exact hna heq
  · rintro ⟨hlive, hspared, hout⟩
    refine ⟨fun heq => hout ?_, hs.moved.left n (hs.pruned.live_iff.2 ⟨hlive, hspared⟩) ?_⟩
    · rw [heq, ← List.getLast_eq_getLastD (List.cons_ne_nil _ _)]
      exact List.getLast_mem _
    · rw [hs.anchor₂]
      exact fun hpassed => hout (List.dropLast_subset _ hpassed)

theorem Stages.turnover (hg : g.IsTree) : Turnover g g' id step := by
  have hfresh : id ∉ g.others := fun hin => hs.not_live (ForkGraph.mem_others.1 hin).2
  have hida : id ≠ g.anchor := fun heq => hs.not_live (heq ▸ hg.anchor_live)
  refine ⟨(List.perm_ext_iff_of_nodup (List.nodup_cons.2 ⟨hfresh, g.nodup_others⟩) ?_).2
    fun n => ?_, hs.passed⟩
  · refine List.nodup_append.2 ⟨List.nodup_append.2 ⟨(List.nodup_cons.1 hs.nodup_finalized).2,
      hs.nodup_pruned, ?_⟩, g'.nodup_others, ?_⟩
    · rintro n hn m hm rfl
      exact (hs.finalized_kept hn).1 hm
    · rintro n hn m hm rfl
      obtain ⟨-, hspared, hout⟩ := hs.mem_others.1 hm
      rcases List.mem_append.1 hn with hn | hn
      · exact hout (List.mem_cons_of_mem _ hn)
      · exact hspared hn
  · -- both sides list the nodes of the tree with the new leaf, without the old anchor
    have hleft : n ∈ id :: g.others ↔ n ≠ g.anchor ∧ g₁.Live n := by
      rw [List.mem_cons, ForkGraph.mem_others, hs.live₁]
      constructor
      · rintro (rfl | ⟨hna, hlive⟩)
        · exact ⟨hida, .inl rfl⟩
        · exact ⟨hna, .inr hlive⟩
      · rintro ⟨hna, rfl | hlive⟩
        · exact .inl rfl
        · exact .inr ⟨hna, hlive⟩
    rw [hleft, List.mem_append, List.mem_append, hs.mem_others, List.mem_cons]
    constructor
    · rintro ⟨hna, hlive⟩
      by_cases hfin : n ∈ step.finalized
      · exact .inl (.inl hfin)
      by_cases hgone : n ∈ step.pruned
      · exact .inl (.inr hgone)
      exact .inr ⟨hlive, hgone, not_or.2 ⟨hna, hfin⟩⟩
    · rintro ((hfin | hgone) | ⟨hlive, -, hout⟩)
      · exact (hs.finalized_kept hfin).2
      · exact hs.pruned_live hgone
      · exact ⟨(not_or.1 hout).1, hlive⟩

end Stages

/-! ### Weights that trail -/

/-- The heaviest node leads a weight by `W` or more. -/
def Trails (g : ForkGraph) (W weight : Nat) : Prop := W ≤ g.weightOf g.priorityTip - weight

theorem Trails.mono {lower : Nat} (h : g.Trails W weight)
    (hle : g.weightOf g.priorityTip ≤ g'.weightOf g'.priorityTip) (hlower : lower ≤ weight) :
    g'.Trails W lower := by
  unfold Trails at *
  omega

/-- A node that was there before weighs what it did. -/
theorem Stages.weightOf_old (hs : Stages g g₁ g₂ g' id previous weight step) (hold : g.Live n)
    (hn : g'.Live n) : g'.weightOf n = g.weightOf n := by
  have hne : id ≠ n := fun heq => hs.not_live (heq ▸ hold)
  rw [hs.weightOf hn, hs.weightOf₁, if_neg hne]

section Stages

variable {increment : BlockId → Nat} (hs : Stages g g₁ g₂ g' id previous weight step)
  (h : Tally.Sound W ⟨g, increment⟩)
include hs h

theorem Stages.tip_weight : g'.weightOf g'.priorityTip = g₁.weightOf g₁.priorityTip := by
  obtain ⟨hsame, hleaf⟩ := hs.isLeaf (hs.leading₁ h.leading).isLeaf hs.spared
  rw [hsame, hs.weightOf hleaf.live]

/-- The heaviest weight never falls. -/
theorem Stages.tip_weight_le : g.weightOf g.priorityTip ≤ g'.weightOf g'.priorityTip := by
  have hne : id ≠ g.priorityTip := fun heq => hs.not_live (heq ▸ h.leading.isLeaf.live)
  have hle := (hs.leading₁ h.leading).heaviest g.priorityTip
  rwa [hs.weightOf₁, if_neg hne, ← hs.tip_weight h] at hle

/-- In the tree with the new leaf, weights grow downwards. -/
theorem Stages.weight_le_of_descends {a : BlockId} (hd : g₁.Descends n a) :
    g₁.weightOf a ≤ g₁.weightOf n := by
  have hcapped (m : BlockId) : g.weightOf m ≤ maxWord :=
    Nat.le_trans (h.leading.heaviest m) h.leading.capped
  induction hd using Relation.ReflTransGen.head_induction_on with
  | refl => exact Nat.le_refl _
  | @head m p hu _ ih =>
    refine Nat.le_trans ih ?_
    rw [hs.weightOf₁, hs.weightOf₁]
    rcases (hs.under₁ h.isTree m p).1 hu with ⟨rfl, rfl⟩ | hold
    · have hne : m ≠ p := hs.tree₁.ne_of_under hu
      rw [if_neg hne, if_pos rfl]
      exact le_addCapped (hcapped p) weight
    · obtain ⟨hm, hp⟩ := h.isTree.not_under hs.fresh hold
      rw [if_neg (Ne.symm hp), if_neg (Ne.symm hm), h.weights m p hold]
      exact le_addCapped (hcapped p) _

/-- Whatever is pruned trails. -/
theorem Stages.pruned_trails (hn : n ∈ step.pruned) : g'.Trails W (g₁.weightOf n) := by
  have hdoomed := (hs.mem_pruned h.isTree h.leading (h.finalizedWeight ▸ h.pos) n).1 hn
  obtain ⟨t, hleaf, hdesc⟩ := hs.tree₁.exists_leaf hdoomed.1
  have hgap := hdoomed.2 t (hs.tree₁.leaf_iff.2 hleaf) hdesc
  have hle := hs.weight_le_of_descends h hdesc
  rw [(hs.leading₁ h.leading).maxTipWeight hs.tree₁, ← hs.tip_weight h, h.finalizedWeight] at hgap
  exact Trails.mono (g := g') hgap (Nat.le_refl _) hle

/-- A new leaf that trails is pruned at once. -/
theorem Stages.pruned_of_trails (ht : g.Trails W (addCapped (g.weightOf previous) weight)) :
    id ∈ step.pruned := by
  refine (hs.mem_pruned h.isTree h.leading (h.finalizedWeight ▸ h.pos) id).2
    ⟨(hs.live₁ id).2 (.inl rfl), fun t _ hdesc => ?_⟩
  -- nothing hangs below the new leaf
  obtain rfl : t = id := by
    rcases Relation.ReflTransGen.cases_tail hdesc with heq | ⟨m, -, hm⟩
    · exact heq.symm
    · rcases (hs.under₁ h.isTree m id).1 hm with ⟨rfl, rfl⟩ | hold
      · exact absurd rfl (hs.tree₁.ne_of_under hm)
      · exact absurd rfl (h.isTree.not_under hs.fresh hold).2
  rw [(hs.leading₁ h.leading).maxTipWeight hs.tree₁, h.finalizedWeight, ← hs.tip_weight h]
  refine ht.mono (hs.tip_weight_le h) ?_
  show g₁.weightOf t ≤ _
  rw [hs.weightOf₁, if_pos rfl]

end Stages

end ForkGraph

end ShardLedger
