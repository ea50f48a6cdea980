import Mathlib.Order.Bounds.Basic
import ShardLedger.Proofs.Fork.Calls

/-!
# The finalization rule

Adding a block prunes tip by tip and finalizes node by node. What comes out can be said of the tree
with the new leaf alone, whatever the order of its tips: the nodes all of whose leaves trail go,
and then the anchor moves along only followers for as long as the heaviest leaf leads.

- `ForkTree`, `ForkTree.Doomed`, `ForkTree.Settles`: a fork graph without its records, and what
  the rule says of its nodes.
- `ForkTree.Rule`: what one step of the rule makes of a tree.
- `ForkGraph.add_rule`: `ForkGraph.add` follows the rule.
-/

namespace ShardLedger

/-- The nodes, edges and weights of a fork graph. -/
@[ext]
structure ForkTree where
  anchor : BlockId
  live : BlockId → Prop
  /-- The first node follows the second one. -/
  under : BlockId → BlockId → Prop
  weight : BlockId → Nat

namespace ForkTree

/-- The tree with one more leaf. -/
def withLeaf (G : ForkTree) (id previous : BlockId) (weight : Nat) : ForkTree where
  anchor := G.anchor
  live n := n = id ∨ G.live n
  under n p := (n = id ∧ p = previous) ∨ G.under n p
  weight n := if id = n then addCapped (G.weight previous) weight else G.weight n

def Leaf (G : ForkTree) (t : BlockId) : Prop := G.live t ∧ ∀ n, ¬G.under n t

/-- Node `n` is `a`, or hangs somewhere below it. -/
def Descends (G : ForkTree) : BlockId → BlockId → Prop := Relation.ReflTransGen G.under

/-- `M` is the maximum weight of a leaf. -/
def Heaviest (G : ForkTree) (M : Nat) : Prop := IsGreatest {w | ∃ t, G.Leaf t ∧ G.weight t = w} M

/-- All leaves that descend from the node trail `M` by at least `W`. -/
def Doomed (G : ForkTree) (W M : Nat) (n : BlockId) : Prop :=
  G.live n ∧ ∀ t, G.Leaf t → G.Descends t n → W ≤ M - G.weight t

/-- Of all that follow `p`, only `n` is not doomed, and it trails `M` by at least `W`. -/
def Settles (G : ForkTree) (W M : Nat) (n p : BlockId) : Prop :=
  (∀ m, G.under m p ∧ ¬G.Doomed W M m ↔ m = n) ∧ W ≤ M - G.weight n

/-- What the rule makes of the tree `G`, whose heaviest leaf weighs `M`. -/
structure Rule (W M : Nat) (G : ForkTree) (step : ForkStep) (G' : ForkTree) : Prop where
  mem_pruned : ∀ n, n ∈ step.pruned ↔ G.Doomed W M n
  pruned_nodup : step.pruned.Nodup
  /-- Descendants are listed before their ancestors. -/
  pruned_order : step.pruned.Pairwise fun first later => ¬G.Descends later first
  finalized : ForkGraph.Path (G.Settles W M) G.anchor step.finalized
  /-- Whatever else could be finalized in a row is part of it. -/
  finalized_longest : ∀ ns, ForkGraph.Path (G.Settles W M) G.anchor ns → ns <+: step.finalized
  anchor : G'.anchor = step.finalized.getLastD G.anchor
  /-- The pruned nodes leave, and those above the new anchor. -/
  live : ∀ n, G'.live n ↔
    G.live n ∧ n ∉ step.pruned ∧ n ∉ (G.anchor :: step.finalized).dropLast
  under : ∀ n p, G'.under n p ↔ G'.live n ∧ n ≠ G'.anchor ∧ G.under n p
  weight : ∀ n, G'.live n → G'.weight n = G.weight n

end ForkTree

namespace ForkGraph

variable {g g' g₁ g₂ : ForkGraph} {id previous : BlockId} {weight M : Nat} {step : ForkStep}

/-- A graph without its records. -/
def tree (g : ForkGraph) : ForkTree := ⟨g.anchor, g.Live, g.Under, g.weightOf⟩

/-- In a tree, what lists no follower is what nothing follows. -/
theorem Rooted.leaf_iff (hg : g.Rooted) {t : BlockId} : g.tree.Leaf t ↔ g.IsLeaf t := by
  constructor
  · rintro ⟨⟨node, hn⟩, hnone⟩
    refine ⟨node, hn, Std.ExtTreeSet.eq_empty_iff_forall_not_mem.2 fun m hm => ?_⟩
    exact hnone m ((hg.mem_following t node hn m).1 hm)
  · exact fun ht => ⟨ht.live, fun _ => hg.not_under_leaf ht⟩

/-! ### Moving the anchor as far as it goes -/

/-- Node `n` is all that follows `p`, and it trails `M` by the finalization weight. -/
def Next (g : ForkGraph) (M : Nat) (n p : BlockId) : Prop :=
  (∀ m, g.Under m p ↔ m = n) ∧ g.finalizedWeight ≤ M - g.weightOf n

theorem Next.under {n p : BlockId} (h : g.Next M n p) : g.Under n p := (h.1 n).2 rfl

theorem nextAnchor?_eq_some (hg : g.Rooted) {n : BlockId} :
    g.nextAnchor? M = some n ↔ g.Next M n g.anchor := by
  constructor
  · intro h
    obtain ⟨hunder, honly⟩ := nextAnchor?_spec hg h
    refine ⟨fun m => ⟨honly m, fun heq => heq ▸ hunder⟩, ?_⟩
    unfold nextAnchor? at h
    simp only [Option.bind_eq_bind, Option.bind_eq_some_iff] at h
    obtain ⟨node, -, h⟩ := h
    split at h
    · simp only [Option.ite_none_right_eq_some, Option.some.injEq] at h
      exact h.2 ▸ h.1
    · cases h
  · rintro ⟨honly, hgap⟩
    obtain ⟨node, hn⟩ := hg.anchor_live
    have hmem : ∀ m, m ∈ node.following.toList ↔ m = n := fun m => by
      rw [Std.ExtTreeSet.mem_toList, hg.mem_following _ node hn, honly]
    have hnodup : node.following.toList.Nodup :=
      Std.ExtTreeSet.distinct_toList.imp fun hne heq => by
        subst heq
        exact hne Std.ReflCmp.compare_self
    have hlist : node.following.toList = [n] := by
      refine List.perm_singleton.1 ((List.perm_ext_iff_of_nodup hnodup (by simp)).2 fun m => ?_)
      rw [hmem, List.mem_singleton]
    simp only [nextAnchor?, hn, Option.bind_eq_bind, Option.bind_some, hlist, if_pos hgap]

/-- Below the anchor, moving it changes no only follower. -/
theorem finalizeNext_next {next n p : BlockId} (hnext : g.Under next g.anchor)
    (hp : p ≠ g.anchor) : (g.finalizeNext next).Next M n p ↔ g.Next M n p := by
  have hunder : ∀ m, (g.finalizeNext next).Under m p ↔ g.Under m p := by
    intro m
    rw [finalizeNext_under, and_iff_right_iff_imp]
    rintro hm rfl
    exact hp (hm.unique hnext)
  have hweight : g.Under n p → (g.finalizeNext next).weightOf n = g.weightOf n := by
    intro hu
    simp only [weightOf, finalizeNext_nodes, if_neg (Ne.symm hu.1)]
  constructor
  · intro h
    have hu := (hunder n).1 h.under
    exact ⟨fun m => (hunder m).symm.trans (h.1 m), hweight hu ▸ h.2⟩
  · intro h
    exact ⟨fun m => (hunder m).trans (h.1 m), (hweight h.under).symm ▸ h.2⟩

theorem finalizeNext_path {next : BlockId} (hnext : g.Under next g.anchor)
    {a : BlockId} (ha : a ≠ g.anchor) (ns : List BlockId) :
    Path ((g.finalizeNext next).Next M) a ns ↔ Path (g.Next M) a ns := by
  induction ns generalizing a with
  | nil => rfl
  | cons n rest ih =>
    simp only [Path, finalizeNext_next hnext ha, and_congr_right_iff]
    exact fun hn => ih hn.under.1

/-- The anchor passes every node that it can, and leaves them behind. -/
theorem advance_longest (g : ForkGraph) (M : Nat) (hg : g.IsTree) :
    Path (g.Next M) g.anchor (g.advance M).2 ∧
      (∀ ns, Path (g.Next M) g.anchor ns → ns <+: (g.advance M).2) ∧
      ∀ n, (g.advance M).1.Live n → n ∉ (g.anchor :: (g.advance M).2).dropLast := by
  unfold advance
  split
  · rename_i hnone
    refine ⟨trivial, fun ns hns => ?_, fun n _ => List.not_mem_nil⟩
    cases ns with
    | nil => exact List.nil_prefix
    | cons n rest =>
      rw [(nextAnchor?_eq_some hg.toRooted).2 hns.1] at hnone
      cases hnone
  · rename_i next hnext
    have hn := (nextAnchor?_eq_some hg.toRooted).1 hnext
    have htree := isTree_finalizeNext hg hn.under fun n hu => (hn.1 n).1 hu
    have hpath := @finalizeNext_path g M next hn.under next hn.under.1
    obtain ⟨hlater, hlongest, hleft⟩ := advance_longest (g.finalizeNext next) M htree
    refine ⟨⟨hn, (hpath _).1 hlater⟩, fun ns hns => ?_, fun n hlive => ?_⟩
    · cases ns with
      | nil => exact List.nil_prefix
      | cons n rest =>
        obtain rfl := (hn.1 n).1 hns.1.under
        exact List.cons_prefix_cons.2 ⟨rfl, hlongest rest ((hpath rest).2 hns.2)⟩
    · rw [List.dropLast_cons_cons, List.mem_cons, not_or]
      refine ⟨?_, hleft n hlive⟩
      rintro rfl
      obtain ⟨node, hnode⟩ := hlive
      have hgone := advance_nodes (g.finalizeNext next) M _ node hnode
      rw [finalizeNext_nodes, if_pos rfl] at hgone
      cases hgone
termination_by g.nodes.size
decreasing_by exact size_finalizeNext_lt ‹_›

/-! ### The rule -/

/-- The new leaf makes the tree that the rule is about. -/
theorem Stages.tree₁_eq (hg : g.IsTree) (hs : Stages g g₁ g₂ g' id previous weight step) :
    g₁.tree = g.tree.withLeaf id previous weight := by
  refine ForkTree.ext ?_ ?_ ?_ ?_
  · show g₁.anchor = g.anchor
    rw [← hs.anchor₂, hs.pruned.anchor]
  · exact funext fun n => propext (hs.live₁ n)
  · exact funext fun n => funext fun p => propext (hs.under₁ hg n p)
  · exact funext fun n => hs.weightOf₁ n

/-- The priority tip is a leaf of maximum weight. -/
theorem Leading.heaviest_tree (hg : g.IsTree) (h : g.Leading) : g.tree.Heaviest g.maxTipWeight := by
  rw [h.maxTipWeight hg]
  refine ⟨⟨_, hg.leaf_iff.2 h.isLeaf, rfl⟩, ?_⟩
  rintro w ⟨t, -, rfl⟩
  exact h.heaviest t

theorem Stages.mem_pruned (hg : g.IsTree) (h : g.Leading) (hW : 0 < g.finalizedWeight)
    (hs : Stages g g₁ g₂ g' id previous weight step) (n : BlockId) :
    n ∈ step.pruned ↔ g₁.tree.Doomed g.finalizedWeight g₁.maxTipWeight n := by
  have hlead := hs.leading₁ h
  rw [hs.pruned.mem_gone (hs.anchor_not_leaf hg h) hlead.isLeaf]
  refine and_congr_right fun _ => forall_congr' fun t => ?_
  rw [hs.tree₁.leaf_iff]
  refine imp_congr_right fun ht => imp_congr_right fun _ => ?_
  rw [hlead.mem_deadTips hs.tree₁ (hs.finalizedWeight₁ ▸ hW), hs.finalizedWeight₁,
    and_iff_right ht]
  rfl

/-- After the pruning, the anchor meets the nodes that settle. -/
theorem Stages.next₂ (hg : g.IsTree) (h : g.Leading) (hW : 0 < g.finalizedWeight)
    (hs : Stages g g₁ g₂ g' id previous weight step) (n p : BlockId) :
    g₂.Next g₁.maxTipWeight n p ↔ g₁.tree.Settles g.finalizedWeight g₁.maxTipWeight n p := by
  have hunder : ∀ m, g₂.Under m p ↔
      g₁.tree.under m p ∧ ¬g₁.tree.Doomed g.finalizedWeight g₁.maxTipWeight m := fun m => by
    rw [hs.pruned.under_iff, and_comm, hs.mem_pruned hg h hW]
    rfl
  have hweight : g₂.Under n p → g₂.weightOf n = g₁.weightOf n := fun ⟨_, node, hn, _⟩ =>
    hs.pruned.weightOf ⟨node, hn⟩
  simp only [Next, ForkTree.Settles, hunder, hs.pruned.finalizedWeight, hs.finalizedWeight₁]
  refine and_congr_right fun honly => ?_
  rw [hweight ((hunder n).2 ((honly n).2 rfl))]
  rfl

theorem Stages.rule (hg : g.IsTree) (h : g.Leading) (hW : 0 < g.finalizedWeight)
    (hs : Stages g g₁ g₂ g' id previous weight step) :
    ForkTree.Rule g.finalizedWeight g₁.maxTipWeight g₁.tree step g'.tree := by
  obtain ⟨hpath, hlongest, hleft⟩ := advance_longest g₂ g₁.maxTipWeight hs.tree₂
  rw [hs.advanced] at hpath hlongest hleft
  have hsettles := hs.next₂ hg h hW
  have hmoved := hs.moved
  have hanchor : g₂.anchor = g₁.anchor := hs.pruned.anchor
  rw [hanchor] at hpath hlongest hleft
  have hordered := hs.pruned.ordered
  exact
    { mem_pruned := hs.mem_pruned hg h hW
      pruned_nodup := hordered.imp fun hnot heq => by
        subst heq
        exact hnot .refl
      pruned_order := hordered
      finalized := hpath.mono fun n p => (hsettles n p).1
      finalized_longest := fun ns hns => hlongest ns (hns.mono fun n p => (hsettles n p).2)
      anchor := hmoved.anchor.trans (by rw [hanchor]; rfl)
      live := fun n => by
        constructor
        · intro hlive
          obtain ⟨hlive₁, hspared⟩ := hs.pruned.live_iff.1 (hmoved.live n hlive)
          exact ⟨hlive₁, hspared, hleft n hlive⟩
        · rintro ⟨hlive, hspared, hpassed⟩
          exact hmoved.left n (hs.pruned.live_iff.2 ⟨hlive, hspared⟩) (hanchor.symm ▸ hpassed)
      under := fun n p => by
        constructor
        · intro hu
          have hold := hs.pruned.under_iff.1 (hmoved.edges n p hu)
          exact ⟨Descends.live (.single hu) (hmoved.isTree.above_live hu), hu.1, hold.2⟩
        · rintro ⟨⟨node, hn⟩, hna, hu⟩
          obtain ⟨-, node₂, hn₂, hprev⟩ := hs.pruned.under_iff.2
            ⟨(hs.pruned.live_iff.1 ⟨node, hs.nodes₂ hn⟩).2, hu⟩
          rw [hs.nodes₂ hn, Option.some.injEq] at hn₂
          exact ⟨hna, node, hn, hn₂ ▸ hprev⟩
      weight := fun n hn => hs.weightOf hn }

/-- Whenever a block is added, the step that is reported and the tree that is left are those of the
finalization rule, read off the old tree with the new leaf. -/
theorem add_rule (genesis : BlockId) (W : Nat) (keep : Bool) (g₀ : ForkGraph)
    (h : create genesis W keep = .ok g₀) (calls : List Call) (id previous : BlockId)
    (weight : Nat) (g' : ForkGraph) (step : ForkStep)
    (hadd : (Tally.after g₀ calls).graph.add id previous weight = .ok (g', step)) :
    ∃ M, ((Tally.after g₀ calls).graph.tree.withLeaf id previous weight).Heaviest M ∧
      ForkTree.Rule W M ((Tally.after g₀ calls).graph.tree.withLeaf id previous weight) step
        g'.tree := by
  have hsound := Tally.sound_after h calls
  obtain ⟨g₁, g₂, hs⟩ := add_stages hsound.isTree hadd
  rw [← hs.tree₁_eq hsound.isTree]
  refine ⟨_, (hs.leading₁ hsound.leading).heaviest_tree hs.tree₁, ?_⟩
  have hrule := hs.rule hsound.isTree hsound.leading (hsound.finalizedWeight ▸ hsound.pos)
  rwa [hsound.finalizedWeight] at hrule

/-- A result that passes a test. -/
theorem exists_ok_of_any {ε α : Type} {x : Except ε α} {p : α → Bool}
    (h : x.toOption.any p = true) : ∃ a, x = .ok a ∧ p a = true := by
  cases x with
  | error => cases h
  | ok a => exact ⟨a, rfl, h⟩

/-- Two branches at the anchor, of which one has two nodes of no weight. -/
def sampleBranches : List Call := [⟨⟨1⟩, ⟨0⟩, 1⟩, ⟨⟨2⟩, ⟨0⟩, 0⟩, ⟨⟨4⟩, ⟨2⟩, 0⟩]

/-- The branch of no weight goes, the last node first, and a node of the other one is finalized. -/
theorem sample_add_rule : ∃ g₀, create ⟨0⟩ 2 false = .ok g₀ ∧ ∃ g' step,
    (Tally.after g₀ sampleBranches).graph.add ⟨3⟩ ⟨1⟩ 2 = .ok (g', step) ∧
    step = { finalized := [⟨1⟩], pruned := [⟨4⟩, ⟨2⟩] } ∧
    ∃ M, ((Tally.after g₀ sampleBranches).graph.tree.withLeaf ⟨3⟩ ⟨1⟩ 2).Heaviest M ∧
      ForkTree.Rule 2 M ((Tally.after g₀ sampleBranches).graph.tree.withLeaf ⟨3⟩ ⟨1⟩ 2) step
        g'.tree := by
  obtain ⟨g₀, h, hany⟩ := @exists_ok_of_any _ _ (create ⟨0⟩ 2 false)
    (fun g₀ => ((Tally.after g₀ sampleBranches).graph.add ⟨3⟩ ⟨1⟩ 2).toOption.any
      fun result => result.2 = { finalized := [⟨1⟩], pruned := [⟨4⟩, ⟨2⟩] }) (by decide +kernel)
  obtain ⟨⟨g', step⟩, hadd, hstep⟩ := exists_ok_of_any hany
  exact ⟨g₀, h, g', step, hadd, of_decide_eq_true hstep,
    add_rule ⟨0⟩ 2 false g₀ h sampleBranches ⟨3⟩ ⟨1⟩ 2 g' step hadd⟩

end ForkGraph

end ShardLedger
