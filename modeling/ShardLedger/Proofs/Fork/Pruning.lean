import ShardLedger.Proofs.Fork.Tree

/-!
# Cutting a fork graph back and moving its anchor

Pruning cuts dead leaves off, with the ancestors that nothing else follows; the anchor moves along
its only follower. Both leave a tree.

- `ForkGraph.Cut`: what cutting leaves behind.
- `ForkGraph.unhook`, `ForkGraph.pruneFrom_eq`: one step of pruning.
- `ForkGraph.Path`: a list of nodes, each directly below its predecessor.
- `ForkGraph.Advanced`, `ForkGraph.advance_advanced`: what moving the anchor does.
-/

namespace ShardLedger

namespace ForkGraph

/-! ### Cutting -/

/-- `g'` is what is left of `g` once the nodes `gone` are cut off. -/
structure Cut (g g' : ForkGraph) (gone : List BlockId) : Prop where
  anchor : g'.anchor = g.anchor
  priorityTip : g'.priorityTip = g.priorityTip
  finalizedWeight : g'.finalizedWeight = g.finalizedWeight
  gone_live : ∀ n ∈ gone, g.Live n
  kept : ∀ n node', g'.nodes[n]? = some node' → n ∉ gone ∧
    ∃ node, g.nodes[n]? = some node ∧ node'.previous = node.previous ∧
      node'.weight = node.weight ∧ ∀ m ∈ node'.following, m ∈ node.following
  left : ∀ n, g.Live n → n ∉ gone → g'.Live n

theorem Cut.refl (g : ForkGraph) : Cut g g [] where
  anchor := rfl
  priorityTip := rfl
  finalizedWeight := rfl
  gone_live _ hn := nomatch hn
  kept _ node' hn := ⟨List.not_mem_nil, node', hn, rfl, rfl, fun _ hm => hm⟩
  left _ hn _ := hn

theorem Cut.trans {g₁ g₂ g₃ : ForkGraph} {a b : List BlockId} (h₁ : Cut g₁ g₂ a)
    (h₂ : Cut g₂ g₃ b) : Cut g₁ g₃ (a ++ b) where
  anchor := h₂.anchor.trans h₁.anchor
  priorityTip := h₂.priorityTip.trans h₁.priorityTip
  finalizedWeight := h₂.finalizedWeight.trans h₁.finalizedWeight
  gone_live n hn := by
    rcases List.mem_append.1 hn with hn | hn
    · exact h₁.gone_live n hn
    · -- what the second cut takes was there before the first
      obtain ⟨node₂, hn₂⟩ := h₂.gone_live n hn
      obtain ⟨-, node, hn₁, -⟩ := h₁.kept n node₂ hn₂
      exact ⟨node, hn₁⟩
  kept n node₃ hn₃ := by
    obtain ⟨hb, node₂, hn₂, hp₂, hw₂, hf₂⟩ := h₂.kept n node₃ hn₃
    obtain ⟨ha, node₁, hn₁, hp₁, hw₁, hf₁⟩ := h₁.kept n node₂ hn₂
    refine ⟨fun h => ?_, node₁, hn₁, hp₂.trans hp₁, hw₂.trans hw₁, fun m hm => hf₁ m (hf₂ m hm)⟩
    exact (List.mem_append.1 h).elim ha hb
  left n hn hgone :=
    h₂.left n (h₁.left n hn fun h => hgone (List.mem_append_left _ h))
      fun h => hgone (List.mem_append_right _ h)

/-- A cut removes the edges that lead to what it removes, and no other. -/
theorem Cut.under_iff {g g' : ForkGraph} {gone : List BlockId} (h : Cut g g' gone)
    {n p : BlockId} : g'.Under n p ↔ n ∉ gone ∧ g.Under n p := by
  constructor
  · rintro ⟨hna, node', hn, hprev⟩
    obtain ⟨hgone, node, hnode, hprev', -⟩ := h.kept n node' hn
    exact ⟨hgone, h.anchor ▸ hna, node, hnode, hprev' ▸ hprev⟩
  · rintro ⟨hgone, hna, node, hn, hprev⟩
    obtain ⟨node', hn'⟩ := h.left n ⟨node, hn⟩ hgone
    obtain ⟨-, node₀, hn₀, hprev', -⟩ := h.kept n node' hn'
    rw [hn, Option.some.injEq] at hn₀
    exact ⟨h.anchor.symm ▸ hna, node', hn', by rw [hprev', ← hn₀, hprev]⟩

/-- What is left after a cut are the live nodes that it spares. -/
theorem Cut.live_iff {g g' : ForkGraph} {gone : List BlockId} (h : Cut g g' gone) {n : BlockId} :
    g'.Live n ↔ g.Live n ∧ n ∉ gone := by
  constructor
  · rintro ⟨node', hn'⟩
    obtain ⟨hgone, node, hn, -⟩ := h.kept n node' hn'
    exact ⟨⟨node, hn⟩, hgone⟩
  · exact fun ⟨hn, hgone⟩ => h.left n hn hgone

/-- A leaf that survives a cut is a leaf still. -/
theorem Cut.isLeaf {g g' : ForkGraph} {gone : List BlockId} (h : Cut g g' gone) {t : BlockId}
    {node' : ForkNode} (ht : g.IsLeaf t) (hn : g'.nodes[t]? = some node') : g'.IsLeaf t := by
  obtain ⟨node₀, hn₀, hempty⟩ := ht
  obtain ⟨-, node, hnode, -, -, hf⟩ := h.kept t node' hn
  rw [hn₀, Option.some.injEq] at hnode
  refine ⟨node', hn, Std.ExtTreeSet.eq_empty_iff_forall_not_mem.2 fun m hm => ?_⟩
  have := hf m hm
  rw [← hnode, hempty] at this
  exact Std.ExtTreeSet.not_mem_empty this

section Unhook

variable {g : ForkGraph} {current previous : BlockId} {node parent : ForkNode}

/-- Take a leaf out of the graph and out of the followers of its parent. -/
def unhook (g : ForkGraph) (current previous : BlockId) (parent : ForkNode) : ForkGraph :=
  { g with
    nodes := (g.nodes.erase current).insert previous
      { parent with following := parent.following.erase current }
    tips := g.tips.erase current }

theorem unhook_nodes (n : BlockId) :
    (g.unhook current previous parent).nodes[n]? =
      if previous = n then some { parent with following := parent.following.erase current }
      else if current = n then none else g.nodes[n]? := by
  unfold unhook
  dsimp only
  rw [Lookup.get_insert, Lookup.get_erase]

theorem cut_unhook (hc : g.nodes[current]? = some node) (hp : g.nodes[previous]? = some parent)
    (hne : current ≠ previous) : Cut g (g.unhook current previous parent) [current] where
  anchor := rfl
  priorityTip := rfl
  finalizedWeight := rfl
  gone_live n hn := ⟨node, by rw [List.mem_singleton.1 hn, hc]⟩
  kept n node' hn := by
    rw [unhook_nodes] at hn
    by_cases h1 : previous = n
    · rw [if_pos h1, Option.some.injEq] at hn
      subst hn h1
      refine ⟨fun h => hne (List.mem_singleton.1 h).symm, parent, hp, rfl, rfl, fun m hm => ?_⟩
      exact (Lookup.mem_erase.1 hm).2
    · rw [if_neg h1] at hn
      by_cases h2 : current = n
      · rw [if_pos h2] at hn
        cases hn
      · rw [if_neg h2] at hn
        exact ⟨fun h => h2 (List.mem_singleton.1 h).symm, node', hn, rfl, rfl, fun _ hm => hm⟩
  left n hn hgone := by
    unfold Live
    rw [unhook_nodes]
    split
    · exact ⟨_, rfl⟩
    · rw [if_neg fun h => hgone (List.mem_singleton.2 h.symm)]
      exact hn

/-- Unhooking a leaf removes its edge and keeps the others. -/
theorem unhook_under (hp : g.nodes[previous]? = some parent) (hne : current ≠ previous)
    (n p : BlockId) :
    (g.unhook current previous parent).Under n p ↔ n ≠ current ∧ g.Under n p := by
  unfold Under
  rw [unhook_nodes]
  show (n ≠ g.anchor ∧ _) ↔ _
  by_cases h1 : previous = n
  · subst h1
    rw [if_pos rfl, hp, and_iff_right (Ne.symm hne)]
    simp only [Option.some.injEq, exists_eq_left']
  · rw [if_neg h1]
    by_cases h2 : current = n
    · rw [if_pos h2]
      exact ⟨fun ⟨_, _, h, _⟩ => (nomatch h), fun h => absurd h2.symm h.1⟩
    · rw [if_neg h2, and_iff_right (Ne.symm h2)]

theorem rooted_unhook (hg : g.Rooted) (hc : g.nodes[current]? = some node)
    (hempty : node.following = ∅) (hca : current ≠ g.anchor)
    (hcp : node.previous = some previous) (hp : g.nodes[previous]? = some parent) :
    (g.unhook current previous parent).Rooted := by
  have hne : current ≠ previous := hg.ne_of_under ⟨hca, node, hc, hcp⟩
  have hcut := cut_unhook hc hp hne
  have hunder := unhook_under hp hne
  have hbare : ∀ n, ¬g.Under n current := fun _ => hg.not_under_leaf ⟨node, hc, hempty⟩
  refine { anchor_live := ?_, previous_live := ?_, mem_following := ?_, grounded := ?_ }
  · exact hcut.left _ hg.anchor_live fun h => hca (List.mem_singleton.1 h).symm
  · -- nothing hung below the leaf, so whatever stays keeps its parent
    intro n node' hn hna
    obtain ⟨-, node₀, hn₀, hprev, -⟩ := hcut.kept n node' hn
    obtain ⟨p, above, hprev₀, habove⟩ := hg.previous_live n node₀ hn₀ hna
    have hpc : p ≠ current := fun h => hbare n (h ▸ ⟨hna, node₀, hn₀, hprev₀⟩)
    obtain ⟨above', habove'⟩ := hcut.left p ⟨above, habove⟩ fun h => hpc (List.mem_singleton.1 h)
    exact ⟨p, above', hprev ▸ hprev₀, habove'⟩
  · -- only the parent of the leaf loses a follower
    intro p above habove n
    rw [hunder]
    rw [unhook_nodes] at habove
    by_cases h1 : previous = p
    · rw [if_pos h1, Option.some.injEq] at habove
      subst habove h1
      rw [Lookup.mem_erase, hg.mem_following _ _ hp n, ne_comm]
    · rw [if_neg h1] at habove
      split at habove
      · cases habove
      · rw [hg.mem_following _ _ habove n, iff_and_self]
        rintro hn rfl
        exact h1 (Under.unique ⟨hca, node, hc, hcp⟩ hn)
  · obtain ⟨height, hh⟩ := hg.grounded
    exact ⟨height, fun n p h => hh n p ((hunder n p).1 h).2⟩

/-- Away from the parent, tips and leaves change alike. -/
theorem mem_tips_unhook (htips : ∀ t, t ≠ current → (t ∈ g.tips ↔ g.IsLeaf t)) {t : BlockId}
    (ht : t ≠ previous) :
    t ∈ (g.unhook current previous parent).tips ↔
      (g.unhook current previous parent).IsLeaf t := by
  show t ∈ g.tips.erase current ↔ _
  rw [Lookup.mem_erase]
  unfold IsLeaf
  rw [unhook_nodes, if_neg (Ne.symm ht)]
  by_cases htc : current = t
  · rw [if_pos htc]
    exact ⟨fun h => absurd htc h.1, fun ⟨_, h, _⟩ => nomatch h⟩
  · rw [if_neg htc, and_iff_right htc]
    exact htips t (Ne.symm htc)

/-- A parent that nothing else follows becomes a leaf. -/
theorem isLeaf_unhook : (g.unhook current previous parent).IsLeaf previous ↔
    (parent.following.erase current).isEmpty := by
  unfold IsLeaf
  rw [unhook_nodes, if_pos rfl, Std.ExtTreeSet.isEmpty_iff]
  constructor
  · rintro ⟨node, hn, hempty⟩
    rw [Option.some.injEq] at hn
    subst hn
    exact hempty
  · exact fun h => ⟨_, rfl, h⟩

/-- A parent that becomes a leaf and stays is a tip from then on. -/
theorem isTree_bare (hrooted : (g.unhook current previous parent).Rooted)
    (htips : ∀ t, t ≠ current → (t ∈ g.tips ↔ g.IsLeaf t))
    (hbare : (parent.following.erase current).isEmpty) :
    IsTree { g.unhook current previous parent with
      tips := (g.tips.erase current).insert previous } := by
  refine ⟨⟨hrooted.anchor_live, hrooted.previous_live, hrooted.mem_following,
    hrooted.grounded⟩, fun t => ?_⟩
  show t ∈ (g.tips.erase current).insert previous ↔ (g.unhook current previous parent).IsLeaf t
  rw [Lookup.mem_insert]
  by_cases ht : previous = t
  · subst ht
    exact iff_of_true (Or.inl rfl) (isLeaf_unhook.2 hbare)
  · rw [or_iff_right ht]
    exact mem_tips_unhook htips (Ne.symm ht)

/-- A parent that something else follows is no leaf, neither before nor after. -/
theorem isTree_unhook (hg : g.Rooted) (hunder : g.Under current previous)
    (hrooted : (g.unhook current previous parent).Rooted)
    (htips : ∀ t, t ≠ current → (t ∈ g.tips ↔ g.IsLeaf t))
    (hkept : ¬(parent.following.erase current).isEmpty) :
    (g.unhook current previous parent).IsTree := by
  refine ⟨hrooted, fun t => ?_⟩
  by_cases ht : t = previous
  · subst ht
    refine iff_of_false (fun h => ?_) (mt isLeaf_unhook.1 hkept)
    have hmem : t ∈ g.tips := (Lookup.mem_erase.1 h).2
    exact hg.not_under_leaf ((htips t (Ne.symm (hg.ne_of_under hunder))).1 hmem) hunder
  · exact mem_tips_unhook htips ht

/-- Pruning from a node below another one unhooks it, and goes on from a parent that is left bare
unless that is the anchor or the priority tip. -/
theorem pruneFrom_eq (hc : g.nodes[current]? = some node) (hcp : node.previous = some previous)
    (hp : g.nodes[previous]? = some parent) (hne : current ≠ previous) :
    g.pruneFrom current =
      if (parent.following.erase current).isEmpty ∧ previous ≠ g.anchor ∧
          previous ≠ g.priorityTip then
        (((g.unhook current previous parent).pruneFrom previous).1,
          current :: ((g.unhook current previous parent).pruneFrom previous).2)
      else if (parent.following.erase current).isEmpty then
        ({ g.unhook current previous parent with
          tips := (g.tips.erase current).insert previous }, [current])
      else (g.unhook current previous parent, [current]) := by
  have hp' : (g.nodes.erase current)[previous]? = some parent := by
    rw [Lookup.get_erase, if_neg hne, hp]
  -- all three entries that the definition looks up are there
  rw [pruneFrom]
  split
  · rename_i hnone
    rw [hc] at hnone
    cases hnone
  rename_i node' hnode'
  rw [hc, Option.some.injEq] at hnode'
  subst hnode'
  dsimp only
  split
  · rename_i hnone
    rw [hcp] at hnone
    cases hnone
  rename_i previous' hprevious'
  rw [hcp, Option.some.injEq] at hprevious'
  subst hprevious'
  split
  · rename_i hnone
    rw [hp'] at hnone
    cases hnone
  rename_i parent' hparent'
  rw [hp', Option.some.injEq] at hparent'
  subst hparent'
  rfl

/-- There is nothing to prune from a node that is not live. -/
theorem pruneFrom_of_not_live (hc : g.nodes[current]? = none) : g.pruneFrom current = (g, []) := by
  rw [pruneFrom]
  split
  · rfl
  · rename_i node hnode
    rw [hc] at hnode
    cases hnode

end Unhook

/-! ### Moving the anchor -/

/-- A list of nodes, each of them directly below its predecessor and the first below `a`. -/
def Path (below : BlockId → BlockId → Prop) (a : BlockId) : List BlockId → Prop
  | [] => True
  | n :: rest => below n a ∧ Path below n rest

theorem Path.mono {below below' : BlockId → BlockId → Prop}
    (h : ∀ n p, below n p → below' n p) :
    ∀ {a : BlockId} {ns : List BlockId}, Path below a ns → Path below' a ns
  | _, [], _ => trivial
  | _, _ :: _, hp => ⟨h _ _ hp.1, hp.2.mono h⟩

theorem Path.exists_below {below : BlockId → BlockId → Prop} :
    ∀ {a : BlockId} {ns : List BlockId}, Path below a ns → ∀ n ∈ ns, ∃ p, below n p
  | _, _ :: _, h, n, hn => by
    rcases List.mem_cons.1 hn with rfl | hn
    · exact ⟨_, h.1⟩
    · exact h.2.exists_below n hn

theorem nextAnchor?_spec {g : ForkGraph} (hg : g.Rooted) {heaviest : Nat} {next : BlockId}
    (h : g.nextAnchor? heaviest = some next) :
    g.Under next g.anchor ∧ ∀ n, g.Under n g.anchor → n = next := by
  obtain ⟨node, hn⟩ := hg.anchor_live
  unfold nextAnchor? at h
  rw [hn] at h
  simp only [Option.bind_eq_bind, Option.bind_some] at h
  split at h
  · rename_i only hlist
    split at h
    · rw [Option.some.injEq] at h
      subst h
      have hmem : ∀ n, n ∈ node.following ↔ n = only := by
        intro n
        rw [← Std.ExtTreeSet.mem_toList, hlist, List.mem_singleton]
      refine ⟨(hg.mem_following _ _ hn only).1 ((hmem only).2 rfl), fun n hu => ?_⟩
      exact (hmem n).1 ((hg.mem_following _ _ hn n).2 hu)
    · cases h
  · cases h

theorem finalizeNext_nodes (g : ForkGraph) (next n : BlockId) :
    (g.finalizeNext next).nodes[n]? = if g.anchor = n then none else g.nodes[n]? :=
  Lookup.get_erase ..

/-- Moving the anchor removes the edges that led to it. -/
theorem finalizeNext_under (g : ForkGraph) (next n p : BlockId) :
    (g.finalizeNext next).Under n p ↔ n ≠ next ∧ g.Under n p := by
  unfold Under
  rw [finalizeNext_nodes]
  show (n ≠ next ∧ _) ↔ _
  by_cases hna : g.anchor = n
  · rw [if_pos hna]
    exact ⟨fun ⟨_, _, h, _⟩ => (nomatch h), fun h => absurd hna.symm h.2.1⟩
  · rw [if_neg hna, and_iff_right (Ne.symm hna)]

/-- Leaves stay when the anchor moves, for the anchor is none of them. -/
theorem isLeaf_finalizeNext {g : ForkGraph} (hg : g.Rooted) {next t : BlockId}
    (hnext : g.Under next g.anchor) (ht : g.IsLeaf t) : (g.finalizeNext next).IsLeaf t := by
  obtain ⟨node, hn, hempty⟩ := ht
  refine ⟨node, ?_, hempty⟩
  rw [finalizeNext_nodes, if_neg]
  · exact hn
  · rintro rfl
    exact hg.not_under_leaf ⟨node, hn, hempty⟩ hnext

theorem isTree_finalizeNext {g : ForkGraph} (hg : g.IsTree) {next : BlockId}
    (hnext : g.Under next g.anchor) (honly : ∀ n, g.Under n g.anchor → n = next) :
    (g.finalizeNext next).IsTree := by
  have hold : ∀ (n : BlockId) (node : ForkNode), (g.finalizeNext next).nodes[n]? = some node →
      g.anchor ≠ n ∧ g.nodes[n]? = some node := by
    intro n node hn
    rw [finalizeNext_nodes] at hn
    split at hn
    · cases hn
    · exact ⟨‹_›, hn⟩
  -- every entry that is left was there before, and is not that of the old anchor
  refine { anchor_live := ?_, previous_live := ?_, mem_following := ?_,
           grounded := ?_, mem_tips := ?_ }
  · obtain ⟨hna, node, hn, -⟩ := hnext
    refine ⟨node, ?_⟩
    show (g.finalizeNext next).nodes[next]? = _
    rw [finalizeNext_nodes, if_neg (Ne.symm hna)]
    exact hn
  · intro n node hn hne
    obtain ⟨hna, hn⟩ := hold n node hn
    obtain ⟨p, above, hprev, habove⟩ := hg.previous_live n node hn (Ne.symm hna)
    refine ⟨p, above, hprev, ?_⟩
    rw [finalizeNext_nodes, if_neg]
    · exact habove
    · rintro rfl
      exact hne (honly n ⟨Ne.symm hna, node, hn, hprev⟩)
  · intro p above habove n
    obtain ⟨hpa, habove⟩ := hold p above habove
    rw [finalizeNext_under, hg.mem_following p above habove n, iff_and_self]
    rintro hn rfl
    exact hpa (Under.unique hnext hn)
  · obtain ⟨height, hh⟩ := hg.grounded
    exact ⟨height, fun n p h => hh n p ((finalizeNext_under g next n p).1 h).2⟩
  · intro t
    show t ∈ g.tips ↔ _
    rw [hg.mem_tips t]
    refine ⟨isLeaf_finalizeNext hg.toRooted hnext, ?_⟩
    rintro ⟨node, hn, hempty⟩
    exact ⟨node, (hold t node hn).2, hempty⟩

/-- What moving the anchor along the path `passed` does to the shape of a graph. -/
structure Advanced (g g' : ForkGraph) (passed : List BlockId) : Prop where
  isTree : g'.IsTree
  anchor : g'.anchor = passed.getLastD g.anchor
  path : Path g.Under g.anchor passed
  edges : ∀ n p, g'.Under n p → g.Under n p
  live : ∀ n, g'.Live n → g.Live n
  /-- Only the nodes above the new anchor leave. -/
  left : ∀ n, g.Live n → n ∉ (g.anchor :: passed).dropLast → g'.Live n

theorem advance_advanced (g : ForkGraph) (heaviest : Nat) (hg : g.IsTree) :
    Advanced g (g.advance heaviest).1 (g.advance heaviest).2 := by
  unfold advance
  split
  · exact
      { isTree := hg, anchor := rfl, path := trivial, edges := fun _ _ h => h
        live := fun _ h => h, left := fun _ h _ => h }
  · rename_i next hnext
    obtain ⟨hunder, honly⟩ := nextAnchor?_spec hg.toRooted hnext
    have hedges : ∀ n p, (g.finalizeNext next).Under n p → g.Under n p :=
      fun n p h => ((finalizeNext_under g next n p).1 h).2
    have h := advance_advanced (g.finalizeNext next) heaviest (isTree_finalizeNext hg hunder honly)
    refine
      { isTree := h.isTree, anchor := ?_, path := ⟨hunder, h.path.mono hedges⟩
        edges := fun n p hn => hedges n p (h.edges n p hn), live := ?_, left := ?_ }
    · rw [List.getLastD_cons]
      exact h.anchor
    · intro n hn
      obtain ⟨node, hn⟩ := h.live n hn
      rw [finalizeNext_nodes] at hn
      split at hn
      · cases hn
      · exact ⟨node, hn⟩
    · intro n hn hpassed
      rw [List.dropLast_cons_cons, List.mem_cons, not_or] at hpassed
      refine h.left n ?_ hpassed.2
      unfold Live
      rw [finalizeNext_nodes, if_neg (Ne.symm hpassed.1)]
      exact hn
termination_by g.nodes.size
decreasing_by exact size_finalizeNext_lt ‹_›

end ForkGraph

end ShardLedger
