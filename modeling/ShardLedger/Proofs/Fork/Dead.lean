import Mathlib.Data.List.Basic
import Mathlib.Logic.Relation
import ShardLedger.Proofs.Fork.Pruning

/-!
# What pruning removes

Pruning works from one dead tip after the other, and each time climbs until something else follows.
What it removes in the end does not depend on the order: it is every node that leads to dead tips
only.

- `ForkGraph.Descends`: a node below another one, or that node itself.
- `ForkGraph.Pruned`, `ForkGraph.pruneFrom_pruned`, `ForkGraph.pruneAll_pruned`: pruning as a cut
  that knows its dead tips.
- `ForkGraph.Pruned.mem_gone`: the nodes that it removes.
-/

namespace ShardLedger

namespace ForkGraph

variable {g g' : ForkGraph} {dead gone : List BlockId}

/-- Folding `max` over some numbers gives zero or one of them, and none is larger. -/
theorem foldl_max_spec (ns : List Nat) :
    ns.foldl max 0 ∈ 0 :: ns ∧ ∀ n ∈ 0 :: ns, n ≤ ns.foldl max 0 :=
  List.max?_eq_some_iff.1 List.max?_cons'

/-- Node `n` is `a`, or hangs somewhere below it. -/
def Descends (g : ForkGraph) : BlockId → BlockId → Prop := Relation.ReflTransGen g.Under

theorem IsLeaf.live {t : BlockId} (ht : g.IsLeaf t) : g.Live t :=
  let ⟨node, hn, _⟩ := ht
  ⟨node, hn⟩

/-- A node that descends from a live one is live. -/
theorem Descends.live {n a : BlockId} (h : g.Descends n a) (ha : g.Live a) : g.Live n := by
  rcases Relation.ReflTransGen.cases_head h with rfl | ⟨m, ⟨-, node, hn, -⟩, -⟩
  · exact ha
  · exact ⟨node, hn⟩

/-- Every live node descends from the anchor. -/
theorem Rooted.descends_anchor (h : g.Rooted) {n : BlockId} (hn : g.Live n) :
    g.Descends n g.anchor := by
  obtain ⟨height, hh⟩ := h.grounded
  induction hk : height n using Nat.strongRecOn generalizing n with
  | _ k ih =>
    by_cases hna : n = g.anchor
    · exact hna ▸ .refl
    · obtain ⟨node, hnode⟩ := hn
      obtain ⟨p, above, hprev, hp⟩ := h.previous_live n node hnode hna
      have hunder : g.Under n p := ⟨hna, node, hnode, hprev⟩
      exact .head hunder (ih _ (hk ▸ hh n p hunder) ⟨above, hp⟩ rfl)

/-- Some leaf descends from every live node. -/
theorem Rooted.exists_leaf (hg : g.Rooted) {n : BlockId} (hn : g.Live n) :
    ∃ t, g.IsLeaf t ∧ g.Descends t n := by
  obtain ⟨height, hh⟩ := hg.grounded
  -- no live node stands higher than `top`, so the way down ends
  obtain ⟨top, htop⟩ : ∃ top, ∀ m, g.Live m → height m ≤ top := by
    refine ⟨(g.nodes.keys.map height).foldl max 0, fun m hm => ?_⟩
    have hkey : m ∈ g.nodes.keys := Std.ExtTreeMap.mem_keys.2 (Lookup.contains_iff.2 hm)
    exact (foldl_max_spec _).2 _ (List.mem_cons_of_mem _ (List.mem_map_of_mem hkey))
  induction hk : top - height n using Nat.strongRecOn generalizing n with
  | _ k ih =>
    obtain ⟨node, hnode⟩ := hn
    by_cases hempty : ∀ m, m ∉ node.following
    · exact ⟨n, ⟨node, hnode, Std.ExtTreeSet.eq_empty_iff_forall_not_mem.2 hempty⟩, .refl⟩
    · simp only [not_forall, not_not] at hempty
      obtain ⟨m, hm⟩ := hempty
      have hunder := (hg.mem_following n node hnode m).1 hm
      have hlive : g.Live m := Descends.live (.single hunder) ⟨node, hnode⟩
      have hhigher := hh m n hunder
      have hbound := htop m hlive
      obtain ⟨t, ht, hdesc⟩ := ih (top - height m) (by omega) hlive rfl
      exact ⟨t, ht, hdesc.tail hunder⟩

/-! ### Cuts -/

/-- A cut that leaves a tree takes whatever descends from a removed node. -/
theorem Cut.gone_of_descends (h : Cut g g' gone) (hg' : g'.Rooted) {n a : BlockId}
    (hd : g.Descends n a) (ha : a ∈ gone) : n ∈ gone := by
  induction hd using Relation.ReflTransGen.head_induction_on with
  | refl => exact ha
  | head hu _ ih =>
    by_contra hn
    exact (h.live_iff.1 (hg'.above_live (h.under_iff.2 ⟨hn, hu⟩))).2 ih

/-- Between nodes that a cut spares, it changes no line of descent. -/
theorem Cut.descends_iff (h : Cut g g' gone) (hg' : g'.Rooted) {n a : BlockId} (hn : n ∉ gone) :
    g'.Descends n a ↔ g.Descends n a := by
  constructor
  · exact Relation.ReflTransGen.mono (fun _ _ hu => (h.under_iff.1 hu).2) n a
  · intro hd
    induction hd using Relation.ReflTransGen.head_induction_on with
    | refl => exact .refl
    | head hu _ ih =>
      have hu' := h.under_iff.2 ⟨hn, hu⟩
      exact .head hu' (ih (h.live_iff.1 (hg'.above_live hu')).2)

/-- No node is listed twice, and none before one that descends from it. -/
def LeavesFirst (g : ForkGraph) (ns : List BlockId) : Prop :=
  ns.Pairwise fun first later => ¬g.Descends later first

/-- A second cut goes on with what the first one left. -/
theorem Cut.leavesFirst_append {later : List BlockId} (h : Cut g g' gone) (hg' : g'.Rooted)
    (hgone : g.LeavesFirst gone) (hlater : g'.LeavesFirst later)
    (hlive : ∀ n ∈ later, g'.Live n) : g.LeavesFirst (gone ++ later) := by
  have hspared : ∀ n ∈ later, n ∉ gone := fun n hn => (h.live_iff.1 (hlive n hn)).2
  refine List.pairwise_append.2 ⟨hgone, ?_, fun a ha b hb hd => ?_⟩
  · refine hlater.imp_of_mem fun {a b} ha hb hnot hd => hnot ?_
    exact (h.descends_iff hg' (hspared b hb)).2 hd
  · exact hspared b hb (h.gone_of_descends hg' hd ha)

/-! ### Pruning -/

/-- `g'` is what pruning from the tips `dead` leaves of `g`, and `gone` lists what it removes. -/
structure Pruned (g g' : ForkGraph) (dead gone : List BlockId) : Prop extends
    Cut g g' gone where
  rooted : g'.Rooted
  dead_gone : ∀ t ∈ dead, g.Live t → t ∈ gone
  leaf_dead : ∀ t ∈ gone, g.IsLeaf t → t ∈ dead
  /-- Only the two nodes that pruning stops before may become leaves. -/
  leaf_kept : ∀ t, g'.IsLeaf t → g.IsLeaf t ∨ t = g.anchor ∨ t = g.priorityTip
  ordered : g.LeavesFirst gone

theorem Pruned.refl (hg : g.Rooted) : Pruned g g [] [] where
  toCut := .refl g
  rooted := hg
  dead_gone _ h := nomatch h
  leaf_dead _ h := nomatch h
  leaf_kept _ h := .inl h
  ordered := .nil

theorem Pruned.of_not_live {tip : BlockId} (hg : g.Rooted) (ht : g.nodes[tip]? = none) :
    Pruned g g [tip] [] :=
  { Pruned.refl hg with
    dead_gone := fun t hmem ⟨node, hn⟩ => by
      rw [List.mem_singleton.1 hmem, ht] at hn
      cases hn
    leaf_dead := fun _ h => nomatch h }

theorem Pruned.trans {g₁ g₂ g₃ : ForkGraph} {tip : BlockId} {rest a b : List BlockId}
    (h₁ : Pruned g₁ g₂ [tip] a) (h₂ : Pruned g₂ g₃ rest b) :
    Pruned g₁ g₃ (tip :: rest) (a ++ b) where
  toCut := h₁.toCut.trans h₂.toCut
  rooted := h₂.rooted
  dead_gone t ht hlive := by
    rw [List.mem_append]
    by_cases hgone : t ∈ a
    · exact .inl hgone
    · rcases List.mem_cons.1 ht with rfl | ht
      · exact .inl (h₁.dead_gone t (List.mem_singleton_self t) hlive)
      · exact .inr (h₂.dead_gone t ht (h₁.live_iff.2 ⟨hlive, hgone⟩))
  leaf_dead t ht hleaf := by
    rcases List.mem_append.1 ht with ht | ht
    · exact List.mem_cons.2 (.inl (List.mem_singleton.1 (h₁.leaf_dead t ht hleaf)))
    · obtain ⟨node, hn⟩ := h₂.gone_live t ht
      exact List.mem_cons_of_mem _ (h₂.leaf_dead t ht (h₁.isLeaf hleaf hn))
  leaf_kept t ht := by
    rcases h₂.leaf_kept t ht with hleaf | hstop
    · exact h₁.leaf_kept t hleaf
    · exact .inr (h₁.anchor ▸ h₁.priorityTip ▸ hstop)
  ordered := h₁.leavesFirst_append h₁.rooted h₁.ordered h₂.ordered h₂.gone_live

section PruneFrom

variable {current previous : BlockId} {node parent : ForkNode}

/-- Away from its parent, unhooking a leaf makes no new one. -/
theorem isLeaf_of_unhook {t : BlockId} (ht : t ≠ previous)
    (hleaf : (g.unhook current previous parent).IsLeaf t) : g.IsLeaf t := by
  obtain ⟨node, hn, hempty⟩ := hleaf
  rw [unhook_nodes, if_neg (Ne.symm ht)] at hn
  split at hn
  · cases hn
  · exact ⟨node, hn, hempty⟩

/-- Pruning from a leaf unhooks it, and then prunes from its parent or leaves that alone. -/
theorem Pruned.of_unhook (hg : g.Rooted) (hc : g.nodes[current]? = some node)
    (hempty : node.following = ∅) (hca : current ≠ g.anchor)
    (hcp : node.previous = some previous) (hp : g.nodes[previous]? = some parent)
    (h : Pruned (g.unhook current previous parent) g' dead gone)
    (hdead : ∀ t ∈ dead, t = previous)
    (hbare : (g.unhook current previous parent).IsLeaf previous →
      previous ∈ dead ∨ previous = g.anchor ∨ previous = g.priorityTip) :
    Pruned g g' [current] (current :: gone) := by
  have hunder : g.Under current previous := ⟨hca, node, hc, hcp⟩
  have hcut := cut_unhook hc hp (hg.ne_of_under hunder)
  have hrooted := rooted_unhook hg hc hempty hca hcp hp
  refine
    { toCut := hcut.trans h.toCut, rooted := h.rooted, dead_gone := fun t ht _ => ?_
      leaf_dead := fun t ht hleaf => ?_, leaf_kept := fun t ht => ?_
      ordered := hcut.leavesFirst_append hrooted (List.pairwise_singleton ..) h.ordered
        h.gone_live }
  · exact List.mem_cons.2 (.inl (List.mem_singleton.1 ht))
  · rcases List.mem_cons.1 ht with rfl | ht
    · exact List.mem_singleton_self t
    · -- the parent is the only other candidate, and something follows it
      obtain ⟨node', hn'⟩ := h.gone_live t ht
      obtain rfl := hdead t (h.leaf_dead t ht (hcut.isLeaf hleaf hn'))
      exact absurd hunder (hg.not_under_leaf hleaf)
  · rcases h.leaf_kept t ht with hleaf | hstop
    · by_cases htp : t = previous
      · subst htp
        obtain ⟨hlive, hspared⟩ := h.live_iff.1 ht.live
        exact .inr ((hbare hleaf).resolve_left fun hmem => hspared (h.dead_gone t hmem hlive))
      · exact .inl (isLeaf_of_unhook htp hleaf)
    · exact .inr hstop

/-- The record of tips plays no part in a cut. -/
theorem Pruned.of_tips {tips : BlockSet} (hg : g.Rooted) :
    Pruned g { g with tips := tips } [] [] :=
  have h := Pruned.refl hg
  { toCut := ⟨rfl, rfl, rfl, h.gone_live, h.kept, h.left⟩
    rooted := ⟨hg.anchor_live, hg.previous_live, hg.mem_following, hg.grounded⟩
    dead_gone := h.dead_gone, leaf_dead := h.leaf_dead, leaf_kept := h.leaf_kept
    ordered := h.ordered }

end PruneFrom

/-- Pruning from a dead leaf. The tips may be wrong about the leaf beforehand, for it may just have
become one. -/
theorem pruneFrom_pruned (g : ForkGraph) (current : BlockId) (hg : g.Rooted)
    (hleaf : g.IsLeaf current) (hca : current ≠ g.anchor)
    (htips : ∀ t, t ≠ current → (t ∈ g.tips ↔ g.IsLeaf t)) :
    (g.pruneFrom current).1.IsTree ∧
      Pruned g (g.pruneFrom current).1 [current] (g.pruneFrom current).2 := by
  obtain ⟨node, hc, hempty⟩ := hleaf
  obtain ⟨previous, parent, hcp, hp⟩ := hg.previous_live current node hc hca
  have hunder : g.Under current previous := ⟨hca, node, hc, hcp⟩
  have hne : current ≠ previous := hg.ne_of_under hunder
  have hrooted := rooted_unhook hg hc hempty hca hcp hp
  rw [pruneFrom_eq hc hcp hp hne]
  split
  · -- the parent is left bare, and dies with the leaf
    rename_i hdead
    obtain ⟨hbare, hpa, -⟩ := hdead
    obtain ⟨htree, hrest⟩ := pruneFrom_pruned (g.unhook current previous parent) previous hrooted
      (isLeaf_unhook.2 hbare) hpa fun t ht => mem_tips_unhook htips ht
    exact ⟨htree, hrest.of_unhook hg hc hempty hca hcp hp (fun t ht => List.mem_singleton.1 ht)
      fun _ => .inl (List.mem_singleton_self previous)⟩
  · rename_i hstop
    have hdead : ∀ t ∈ ([] : List BlockId), t = previous := fun t ht => nomatch ht
    split
    · -- the parent is left bare, but it is the anchor or the priority tip
      rename_i hbare
      refine ⟨isTree_bare hrooted htips hbare, ?_⟩
      refine (Pruned.of_tips hrooted).of_unhook hg hc hempty hca hcp hp hdead fun _ => ?_
      by_contra hneither
      simp only [List.not_mem_nil, false_or, not_or] at hneither
      exact hstop ⟨hbare, hneither⟩
    · rename_i hkept
      refine ⟨isTree_unhook hg hunder hrooted htips hkept, ?_⟩
      exact (Pruned.refl hrooted).of_unhook hg hc hempty hca hcp hp hdead fun hleaf =>
        absurd (isLeaf_unhook.1 hleaf) hkept
termination_by g.nodes.size
decreasing_by
  have h₁ := size_erase_add_one hc
  have hlive : (g.nodes.erase current).contains previous = true :=
    Lookup.contains_iff.2 ⟨parent, by rw [Lookup.get_erase, if_neg hne, hp]⟩
  show ((g.nodes.erase current).insert previous _).size < _
  rw [Std.ExtTreeMap.size_insert, if_pos hlive]
  omega

/-- Pruning from several leaves, of which an earlier one may take a later one along. -/
theorem pruneAll_pruned (tips : List BlockId) : ∀ {g : ForkGraph}, g.IsTree →
    (∀ t ∈ tips, t ≠ g.anchor) → (∀ t ∈ tips, g.Live t → g.IsLeaf t) →
    (g.pruneAll tips).1.IsTree ∧ Pruned g (g.pruneAll tips).1 tips (g.pruneAll tips).2 := by
  induction tips with
  | nil => exact fun hg _ _ => ⟨hg, .refl hg.toRooted⟩
  | cons tip rest ih =>
    intro g hg hanchor hleaf
    obtain ⟨htree, hfirst⟩ : (g.pruneFrom tip).1.IsTree ∧
        Pruned g (g.pruneFrom tip).1 [tip] (g.pruneFrom tip).2 := by
      cases hn : g.nodes[tip]? with
      | none =>
        rw [pruneFrom_of_not_live hn]
        exact ⟨hg, .of_not_live hg.toRooted hn⟩
      | some node =>
        exact pruneFrom_pruned g tip hg.toRooted (hleaf tip (List.mem_cons_self ..) ⟨node, hn⟩)
          (hanchor tip (List.mem_cons_self ..)) fun t _ => hg.mem_tips t
    obtain ⟨htree', hrest⟩ := ih htree
      (fun t ht => hfirst.anchor ▸ hanchor t (List.mem_cons_of_mem _ ht))
      fun t ht ⟨node, hn⟩ => hfirst.isLeaf
        (hleaf t (List.mem_cons_of_mem _ ht) (hfirst.live_iff.1 ⟨node, hn⟩).1) hn
    exact ⟨htree', hfirst.trans hrest⟩

/-- Pruning removes the nodes that lead to dead tips only, if it need not stop early: neither the
anchor nor the priority tip becomes a leaf. -/
theorem Pruned.mem_gone (h : Pruned g g' dead gone) (hanchor : ¬g'.IsLeaf g.anchor)
    (htip : g.IsLeaf g.priorityTip) {n : BlockId} :
    n ∈ gone ↔ g.Live n ∧ ∀ t, g.IsLeaf t → g.Descends t n → t ∈ dead := by
  constructor
  · exact fun hn => ⟨h.gone_live n hn, fun t ht hd =>
      h.leaf_dead t (h.gone_of_descends h.rooted hd hn) ht⟩
  · rintro ⟨hlive, hdead⟩
    by_contra hn
    -- otherwise a leaf that is left below it was a dead one
    obtain ⟨t, ht, hd⟩ := h.rooted.exists_leaf (h.live_iff.2 ⟨hlive, hn⟩)
    obtain ⟨htlive, hspared⟩ := h.live_iff.1 ht.live
    have hleaf : g.IsLeaf t := by
      rcases h.leaf_kept t ht with hleaf | rfl | rfl
      · exact hleaf
      · exact absurd ht hanchor
      · exact htip
    exact hspared (h.dead_gone t (hdead t hleaf ((h.descends_iff h.rooted hspared).1 hd)) htlive)

end ForkGraph

end ShardLedger
