import ShardLedger.Proofs.Fork.Walking
import ShardLedger.Proofs.Reach

/-!
# The way to a heaviest tip

A block is in a longest chain if it is a tip that no other tip outweighs, or if such a tip descends
from it. The query goes from the block to its followers and on to theirs, and looks for a recorded
tip of the largest weight among what it meets. In a tree that is all that descends from the block,
and nothing else, so the query answers what it is asked, however many tips are tied.

- `ForkGraph.HeaviestTip`, `ForkGraph.Leads`: what is asked.
- `ForkGraph.Rooted.mem_reach_iff`: what the search meets.
- `ForkGraph.Signposted`, `ForkGraph.signposted_after`: what the query answers.
-/

namespace ShardLedger

namespace ForkGraph

variable {g : ForkGraph} {a m n p t : BlockId} {node above : ForkNode}

/-- A recorded tip that no other one outweighs. -/
def HeaviestTip (g : ForkGraph) (t : BlockId) : Prop :=
  t ∈ g.tips ∧ ∀ s ∈ g.tips, g.weightOf s ≤ g.weightOf t

/-- The node is a heaviest tip, or an ancestor of one. -/
def Leads (g : ForkGraph) (n : BlockId) : Prop := ∃ t, g.HeaviestTip t ∧ g.Descends t n

/-! ### Heaviest tips -/

/-- The heaviest tips are those of the largest weight. -/
theorem heaviestTip_iff : g.HeaviestTip t ↔ t ∈ g.tips ∧ g.weightOf t = g.maxTipWeight := by
  obtain ⟨hmem, hmax⟩ := foldl_max_spec (g.tips.toList.map g.weightOf)
  have hbound : ∀ s ∈ g.tips, g.weightOf s ≤ g.maxTipWeight := fun s hs =>
    hmax _ (List.mem_cons_of_mem _ (List.mem_map_of_mem (Std.ExtTreeSet.mem_toList.2 hs)))
  refine and_congr_right fun ht =>
    ⟨fun hover => Nat.le_antisymm (hbound t ht) ?_, fun heq s hs => heq ▸ hbound s hs⟩
  -- the largest weight is that of some tip, or there is none but zero
  show (g.tips.toList.map g.weightOf).foldl max 0 ≤ _
  rcases List.mem_cons.1 hmem with hzero | hmem
  · rw [hzero]
    exact Nat.zero_le _
  · obtain ⟨s, hs, hweight⟩ := List.mem_map.1 hmem
    exact hweight ▸ hover s (Std.ExtTreeSet.mem_toList.1 hs)

/-- The priority tip is one of the heaviest tips. -/
theorem Leading.heaviestTip (hg : g.IsTree) (h : g.Leading) : g.HeaviestTip g.priorityTip :=
  ⟨(hg.mem_tips _).2 h.isLeaf, fun s _ => h.heaviest s⟩

/-! ### Leading to one -/

/-- Every ancestor of a live node is live. -/
theorem Rooted.live_of_descends (hg : g.Rooted) (hd : g.Descends n a) (hn : g.Live n) :
    g.Live a := by
  induction hd with
  | refl => exact hn
  | tail _ hu _ => exact hg.above_live hu

theorem Leads.live (hg : g.IsTree) (h : g.Leads n) : g.Live n := by
  obtain ⟨t, ht, hdesc⟩ := h
  exact hg.live_of_descends hdesc ((hg.mem_tips t).1 ht.1).live

/-- What a node leads to, its ancestors lead to. -/
theorem Leads.of_descends (h : g.Leads n) (hd : g.Descends n a) : g.Leads a := by
  obtain ⟨t, ht, hdesc⟩ := h
  exact ⟨t, ht, hdesc.trans hd⟩

/-- A node that something follows leads to a heaviest tip through a follower. -/
theorem IsTree.leads_iff (hg : g.IsTree) (hp : g.nodes[p]? = some above)
    (hsome : above.following ≠ ∅) : g.Leads p ↔ ∃ n ∈ above.following, g.Leads n := by
  constructor
  · rintro ⟨t, ht, hdesc⟩
    rcases Relation.ReflTransGen.cases_tail hdesc with rfl | ⟨n, hdesc, hunder⟩
    · -- a tip is followed by nothing
      obtain ⟨leaf, hleaf, hempty⟩ := (hg.mem_tips _).1 ht.1
      rw [hp, Option.some.injEq] at hleaf
      exact absurd (hleaf ▸ hempty) hsome
    · exact ⟨n, (hg.mem_following p above hp n).2 hunder, t, ht, hdesc⟩
  · rintro ⟨n, hn, hlead⟩
    exact hlead.of_descends (.single ((hg.mem_following p above hp n).1 hn))

/-! ### The search -/

/-- The search from a node meets what descends from it. -/
theorem Rooted.mem_reach_iff (hg : g.Rooted) :
    (n, node) ∈ reach (fun n : ForkNode => n.following.toList) g.nodes [a] ↔
      g.nodes[n]? = some node ∧ g.Descends n a := by
  rw [ShardLedger.mem_reach_iff]
  constructor
  · intro h
    induction h with
    | start hn hnode => exact ⟨hnode, List.mem_singleton.1 hn ▸ .refl⟩
    | on _ hm hnode ih =>
      have hunder := (hg.mem_following _ _ ih.1 _).1 (Std.ExtTreeSet.mem_toList.1 hm)
      exact ⟨hnode, ih.2.head hunder⟩
  · rintro ⟨hnode, hd⟩
    induction hd using Relation.ReflTransGen.head_induction_on generalizing node with
    | refl => exact .start (List.mem_singleton_self a) hnode
    | head hu _ ih =>
      obtain ⟨parent, hparent⟩ := hg.above_live hu
      have hfollows := (hg.mem_following _ parent hparent _).2 hu
      exact (ih hparent).on (Std.ExtTreeSet.mem_toList.2 hfollows) hnode

/-- The search from a live node finds a heaviest tip exactly if the node leads to one. -/
theorem IsTree.leadsToHeaviest_eq (hg : g.IsTree) (hn : g.Live n) :
    ∃ answer, g.leadsToHeaviest n = .ok answer ∧ (answer = true ↔ g.Leads n) := by
  obtain ⟨node, hnode⟩ := hn
  refine ⟨(reach (fun n : ForkNode => n.following.toList) g.nodes [n]).any fun found =>
    found.2.following.isEmpty && g.tips.contains found.1 && found.2.weight == g.maxTipWeight,
    ?_, ?_⟩
  · unfold leadsToHeaviest
    rw [node_eq_ok.2 hnode]
    rfl
  · rw [List.any_eq_true]
    constructor
    · rintro ⟨⟨t, tip⟩, hmet, htip⟩
      obtain ⟨hlive, hdesc⟩ := hg.mem_reach_iff.1 hmet
      rw [Bool.and_eq_true, Bool.and_eq_true, Std.ExtTreeSet.contains_iff_mem, beq_iff_eq] at htip
      exact ⟨t, heaviestTip_iff.2 ⟨htip.1.2, (weightOf_eq hlive).trans htip.2⟩, hdesc⟩
    · rintro ⟨t, ht, hdesc⟩
      obtain ⟨hmem, hweight⟩ := heaviestTip_iff.1 ht
      obtain ⟨tip, hlive, hempty⟩ := (hg.mem_tips t).1 hmem
      refine ⟨(t, tip), hg.mem_reach_iff.2 ⟨hlive, hdesc⟩, ?_⟩
      rw [Bool.and_eq_true, Bool.and_eq_true, Std.ExtTreeSet.contains_iff_mem, beq_iff_eq]
      exact ⟨⟨Std.ExtTreeSet.isEmpty_iff.2 hempty, hmem⟩, (weightOf_eq hlive).symm.trans hweight⟩

theorem leadsToHeaviest_of_not_live (hn : ¬g.Live n) :
    g.leadsToHeaviest n = .error (.blockNotFound n) := by
  unfold leadsToHeaviest ForkGraph.node
  cases hnode : g.nodes[n]? with
  | none => rfl
  | some node => exact absurd ⟨node, hnode⟩ hn

theorem IsTree.leadsToHeaviest_iff (hg : g.IsTree) :
    g.leadsToHeaviest n = .ok true ↔ g.Leads n := by
  by_cases hn : g.Live n
  · obtain ⟨answer, heq, hiff⟩ := hg.leadsToHeaviest_eq hn
    rw [heq, Except.ok.injEq, hiff]
  · rw [leadsToHeaviest_of_not_live hn]
    exact iff_of_false (fun h => nomatch h) fun h => hn (h.live hg)

/-- Of every node the graph tells whether it leads to a heaviest tip. -/
structure Signposted (g : ForkGraph) : Prop where
  /-- It does if it is a tip of maximum weight or an ancestor of one. -/
  answer : ∀ n, g.Live n → ∃ answer, g.leadsToHeaviest n = .ok answer ∧ (answer = true ↔ g.Leads n)
  unknown : ∀ n, ¬g.Live n → g.leadsToHeaviest n = .error (.blockNotFound n)
  /-- All nodes on the path from the anchor to the priority tip do. -/
  priority : ∀ n, g.Descends n g.anchor → g.Descends g.priorityTip n →
    g.leadsToHeaviest n = .ok true
  ancestors : ∀ n a, g.leadsToHeaviest n = .ok true → g.Descends n a →
    g.leadsToHeaviest a = .ok true
  followers : ∀ p above, g.nodes[p]? = some above → above.following ≠ ∅ →
    (g.leadsToHeaviest p = .ok true ↔ ∃ n ∈ above.following, g.leadsToHeaviest n = .ok true)

theorem IsTree.signposted (hg : g.IsTree) (hlead : g.Leading) : g.Signposted where
  answer n hn := hg.leadsToHeaviest_eq hn
  unknown n hn := leadsToHeaviest_of_not_live hn
  priority n _ hd := hg.leadsToHeaviest_iff.2 ⟨_, hlead.heaviestTip hg, hd⟩
  ancestors n a h hd := hg.leadsToHeaviest_iff.2 ((hg.leadsToHeaviest_iff.1 h).of_descends hd)
  followers p above hp hsome := by
    simp only [hg.leadsToHeaviest_iff]
    exact hg.leads_iff hp hsome

/-- After every sequence of calls, whether they succeed or fail, a graph tells which of its nodes
lead to a tip of maximum weight. -/
theorem signposted_after (genesis : BlockId) (W : Nat) (keep : Bool) (g : ForkGraph)
    (h : create genesis W keep = .ok g) (calls : List Call) :
    (Tally.after g calls).graph.Signposted :=
  have hsound := Tally.sound_after h calls
  hsound.isTree.signposted hsound.leading

/-- The priority tip is tied with a tip that adds nothing to the node before it, which another
branch trails. -/
def sampleTied : List Call :=
  [⟨⟨1⟩, ⟨0⟩, 2⟩, ⟨⟨2⟩, ⟨0⟩, 1⟩, ⟨⟨3⟩, ⟨2⟩, 1⟩, ⟨⟨4⟩, ⟨3⟩, 0⟩, ⟨⟨5⟩, ⟨2⟩, 0⟩]

theorem sample_signposted : ∃ g, create ⟨0⟩ 5 false = .ok g ∧
    (Tally.after g sampleTied).graph.priorityTip = ⟨1⟩ ∧
    (Tally.after g sampleTied).graph.leadsToHeaviest ⟨3⟩ = .ok true ∧
    (Tally.after g sampleTied).graph.leadsToHeaviest ⟨5⟩ = .ok false ∧
    (Tally.after g sampleTied).graph.Signposted :=
  ⟨_, rfl, by decide +kernel, by decide +kernel, by decide +kernel,
    signposted_after ⟨0⟩ 5 false _ rfl sampleTied⟩

end ForkGraph

end ShardLedger
