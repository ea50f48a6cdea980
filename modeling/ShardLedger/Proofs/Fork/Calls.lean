import Mathlib.Data.List.Induction
import Mathlib.Logic.Function.Basic
import ShardLedger.Proofs.Fork.Weights

/-!
# Fork graphs over their calls

Whatever blocks a graph is asked to add, and whichever of them it refuses, its live nodes stay a
tree below the anchor, and the recorded tips and the priority tip are what the tree says they are.

- `ForkGraph.Call`, `ForkGraph.Tally`: a call, and a graph with the weights of its last calls.
- `ForkGraph.Tally.Sound`: what each call keeps.
- `ForkGraph.WellFormed`, `ForkGraph.wellFormed_after`: what that says of a graph.
-/

namespace ShardLedger

namespace ForkGraph

/-- One call of `add`. -/
structure Call where
  id : BlockId
  previous : BlockId
  weight : Nat

/-- A graph, and the weight that each block was last added with. -/
structure Tally where
  graph : ForkGraph
  increment : BlockId → Nat

namespace Tally

/-- A call that fails changes nothing. -/
def call (t : Tally) (c : Call) : Tally :=
  match t.graph.add c.id c.previous c.weight with
  | .ok (graph, _) => ⟨graph, Function.update t.increment c.id c.weight⟩
  | .error _ => t

/-- A graph after some calls. -/
def after (g : ForkGraph) (calls : List Call) : Tally := calls.foldl call ⟨g, fun _ => 0⟩

/-- What every call keeps. -/
structure Sound (W : Nat) (t : Tally) : Prop where
  isTree : t.graph.IsTree
  leading : t.graph.Leading
  finalizedWeight : t.graph.finalizedWeight = W
  close : ∀ tip, t.graph.IsLeaf tip →
    t.graph.weightOf t.graph.priorityTip - t.graph.weightOf tip < W
  weights : ∀ n p, t.graph.Under n p →
    t.graph.weightOf n = addCapped (t.graph.weightOf p) (t.increment n)

/-- The gap to the priority tip itself is zero. -/
theorem Sound.pos {W : Nat} {t : Tally} (h : Sound W t) : 0 < W :=
  Nat.lt_of_le_of_lt (Nat.zero_le _) (h.close _ h.leading.isLeaf)

theorem sound_create {genesis : BlockId} {W : Nat} {keep : Bool} {g : ForkGraph}
    {increment : BlockId → Nat} (h : create genesis W keep = .ok g) :
    Sound W ⟨g, increment⟩ := by
  have hfresh := create_fresh h
  refine ⟨hfresh.isTree, hfresh.leading, hfresh.finalizedWeight, fun tip _ => ?_,
    fun n p hunder => absurd hunder hfresh.not_under⟩
  rw [hfresh.weightOf, hfresh.weightOf]
  exact hfresh.pos

theorem Sound.call {W : Nat} {t : Tally} (h : Sound W t) (c : Call) : Sound W (t.call c) := by
  unfold Tally.call
  split
  · rename_i graph step hadd
    obtain ⟨g₁, g₂, hs⟩ := add_stages h.isTree hadd
    have hgrown := add_grown h.isTree hadd
    refine ⟨hgrown.isTree, hs.leading h.leading, hs.finalizedWeight.trans h.finalizedWeight,
      fun tip hleaf => ?_, fun n p hunder => ?_⟩
    · rw [← h.finalizedWeight]
      exact hs.close h.isTree h.leading (h.finalizedWeight ▸ h.pos) hleaf
    · show graph.weightOf n =
        addCapped (graph.weightOf p) (Function.update t.increment c.id c.weight n)
      rcases hs.edge h.isTree.toRooted hgrown hunder with ⟨rfl, -, hw⟩ | ⟨hn, hold, hw, hwp⟩
      · rw [hw, Function.update_self]
      · rw [hw, hwp, Function.update_of_ne hn]
        exact h.weights n p hold
  · exact h

theorem sound_after {genesis : BlockId} {W : Nat} {keep : Bool} {g : ForkGraph}
    (h : create genesis W keep = .ok g) (calls : List Call) : Sound W (after g calls) := by
  induction calls using List.reverseRecOn with
  | nil => exact sound_create h
  | append_singleton before c ih =>
    rw [after, List.foldl_concat]
    exact ih.call c

end Tally

/-- The five records of a graph agree: the live nodes with their followers are a tree below the
anchor, in which weights add up, and tips and priority tip are those of that tree. -/
structure WellFormed (W : Nat) (increment : BlockId → Nat) (g : ForkGraph) : Prop where
  anchor_live : g.Live g.anchor
  /-- Any other live node names one previous node, which is live and lists it. -/
  previous : ∀ n node, g.nodes[n]? = some node → n ≠ g.anchor →
    ∃ p above, node.previous = some p ∧ g.nodes[p]? = some above ∧ n ∈ above.following ∧
      node.weight = addCapped above.weight (increment n)
  /-- What a node lists is live and names that node, and it is never the anchor. -/
  following : ∀ p above, g.nodes[p]? = some above → ∀ n ∈ above.following,
    n ≠ g.anchor ∧ ∃ node, g.nodes[n]? = some node ∧ node.previous = some p
  /-- The previous nodes lead from everywhere to the anchor. -/
  reaches_anchor : ∀ n, g.Live n → Relation.ReflTransGen
    (fun a b => ∃ node, g.nodes[a]? = some node ∧ node.previous = some b) n g.anchor
  tips : ∀ t, t ∈ g.tips ↔ ∃ node, g.nodes[t]? = some node ∧ node.following = ∅
  priority : g.priorityTip ∈ g.tips
  heaviest : ∀ (n : BlockId) (node : ForkNode), g.nodes[n]? = some node →
    node.weight ≤ g.weightOf g.priorityTip
  trail : ∀ t ∈ g.tips, g.weightOf g.priorityTip - g.weightOf t < W

theorem Tally.Sound.wellFormed {W : Nat} {t : Tally} (h : Sound W t) :
    t.graph.WellFormed W t.increment where
  anchor_live := h.isTree.anchor_live
  previous n node hn hna := by
    obtain ⟨p, above, hprev, hp⟩ := h.isTree.previous_live n node hn hna
    have hunder : t.graph.Under n p := ⟨hna, node, hn, hprev⟩
    have hw := h.weights n p hunder
    rw [weightOf_eq hn, weightOf_eq hp] at hw
    exact ⟨p, above, hprev, hp, (h.isTree.mem_following p above hp n).2 hunder, hw⟩
  following p above hp n hn := (h.isTree.mem_following p above hp n).1 hn
  reaches_anchor n hn :=
    Relation.ReflTransGen.mono (fun _ _ hunder => hunder.2) n _ (h.isTree.descends_anchor hn)
  tips t := h.isTree.mem_tips t
  priority := (h.isTree.mem_tips _).2 h.leading.isLeaf
  heaviest n node hn := weightOf_eq hn ▸ h.leading.heaviest n
  trail t ht := h.close t ((h.isTree.mem_tips t).1 ht)

/-- After every sequence of calls, whether they succeed or fail, a graph is well formed. -/
theorem wellFormed_after (genesis : BlockId) (W : Nat) (keep : Bool) (g : ForkGraph)
    (h : create genesis W keep = .ok g) (calls : List Call) :
    (Tally.after g calls).graph.WellFormed W (Tally.after g calls).increment :=
  (Tally.sound_after h calls).wellFormed

/-- Two calls fork, one is refused, and one finalizes a branch and so kills the other. -/
def sampleCalls : List Call :=
  [⟨⟨1⟩, ⟨0⟩, 1⟩, ⟨⟨2⟩, ⟨0⟩, 0⟩, ⟨⟨1⟩, ⟨2⟩, 5⟩, ⟨⟨3⟩, ⟨1⟩, 2⟩]

theorem sample_wellFormed : ∃ g, create ⟨0⟩ 2 true = .ok g ∧
    (Tally.after g sampleCalls).graph.tips.toList = [⟨3⟩] ∧
    (Tally.after g sampleCalls).graph.anchor = ⟨1⟩ ∧
    (Tally.after g sampleCalls).graph.WellFormed 2 (Tally.after g sampleCalls).increment :=
  ⟨_, rfl, by decide +kernel, by decide +kernel, wellFormed_after ⟨0⟩ 2 true _ rfl sampleCalls⟩

end ForkGraph

end ShardLedger
