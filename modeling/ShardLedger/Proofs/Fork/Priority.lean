import ShardLedger.Proofs.Fork.Dead

/-!
# The priority tip

The tip that the next block should extend is always a live leaf. Pruning spares it, and the anchor
never moves past it, since something follows every node that the anchor leaves.

- `ForkGraph.isLeaf_attach`, `ForkGraph.pruneAll_spares`, `ForkGraph.isLeaf_advance`: the three
  parts of adding a block.
-/

namespace ShardLedger

namespace ForkGraph

variable {g g' : ForkGraph}

/-- Pruning from another tip neither removes the priority tip nor exchanges it. -/
theorem pruneFrom_spares (g : ForkGraph) (current : BlockId) (h : current ≠ g.priorityTip) :
    (g.pruneFrom current).1.priorityTip = g.priorityTip ∧
      g.priorityTip ∉ (g.pruneFrom current).2 := by
  fun_induction pruneFrom g current with
  | case1 => exact ⟨rfl, List.not_mem_nil⟩
  | case2 => exact ⟨rfl, fun hmem => h (List.mem_singleton.1 hmem).symm⟩
  | case3 => exact ⟨rfl, fun hmem => h (List.mem_singleton.1 hmem).symm⟩
  | case4 g current node _ g₁ previous _ parent _ following g₂ hdead g₃ above heq ih =>
    -- the parent dies too, but only because it is not the priority tip
    obtain ⟨htip, hmem⟩ := ih hdead.2.2
    rw [heq] at htip hmem
    refine ⟨htip, fun hin => ?_⟩
    rcases List.mem_cons.1 hin with hin | hin
    · exact h hin.symm
    · exact hmem hin
  | case5 => exact ⟨rfl, fun hmem => h (List.mem_singleton.1 hmem).symm⟩
  | case6 => exact ⟨rfl, fun hmem => h (List.mem_singleton.1 hmem).symm⟩

theorem pruneAll_spares (tips : List BlockId) : ∀ {g : ForkGraph}, g.priorityTip ∉ tips →
    g.priorityTip ∉ (g.pruneAll tips).2 := by
  induction tips with
  | nil => exact fun _ => List.not_mem_nil
  | cons tip rest ih =>
    intro g h
    rw [List.mem_cons, not_or] at h
    obtain ⟨htip, hfirst⟩ := pruneFrom_spares g tip (Ne.symm h.1)
    have hrest := ih (htip ▸ h.2)
    rw [htip] at hrest
    show g.priorityTip ∉ (g.pruneFrom tip).2 ++ _
    rw [List.mem_append, not_or]
    exact ⟨hfirst, hrest⟩

/-- The priority tip is none of the dead ones. -/
theorem priorityTip_not_dead (g : ForkGraph) (heaviest : Nat) :
    g.priorityTip ∉ g.deadTips heaviest := by
  intro hmem
  have hne := (of_decide_eq_true (List.mem_filter.1 hmem).2).1
  exact hne rfl

theorem isLeaf_advance (g : ForkGraph) (heaviest : Nat) (hg : g.IsTree) {t : BlockId}
    (ht : g.IsLeaf t) :
    (g.advance heaviest).1.priorityTip = g.priorityTip ∧ (g.advance heaviest).1.IsLeaf t := by
  unfold advance
  split
  · exact ⟨rfl, ht⟩
  · rename_i next hnext
    obtain ⟨hunder, honly⟩ := nextAnchor?_spec hg.toRooted hnext
    exact isLeaf_advance (g.finalizeNext next) heaviest (isTree_finalizeNext hg hunder honly)
      (isLeaf_finalizeNext hg.toRooted hunder ht)
termination_by g.nodes.size
decreasing_by exact size_finalizeNext_lt ‹_›

/-- The priority tip after a leaf is attached is that leaf, or it is another one. -/
theorem isLeaf_attach {id previous : BlockId} {parent : ForkNode} {weight : Nat}
    (hid : g.nodes[id]? = none) (h : g.IsLeaf g.priorityTip) :
    (g.attach id previous parent weight).IsLeaf
      (g.attach id previous parent weight).priorityTip := by
  obtain ⟨node, hn, hempty⟩ := h
  unfold IsLeaf
  rw [attach_nodes]
  show ∃ node, (if id = (if _ ∨ previous = g.priorityTip then id else g.priorityTip) then _ else
    if previous = (if _ ∨ previous = g.priorityTip then id else g.priorityTip) then _ else
      g.nodes[(if _ ∨ previous = g.priorityTip then id else g.priorityTip)]?) = some node ∧ _
  -- either the new leaf takes over, or the old tip is not the parent and stays a leaf
  split
  · rw [if_pos rfl]
    exact ⟨_, rfl, rfl⟩
  · rename_i hkept
    rw [not_or] at hkept
    rw [if_neg, if_neg hkept.2]
    · exact ⟨node, hn, hempty⟩
    · rintro rfl
      rw [hid] at hn
      cases hn

end ForkGraph

end ShardLedger
