import ShardLedger.Fork.Graph
import ShardLedger.Proofs.Lookup

/-!
# Fork graphs are trees

The live nodes of a fork graph form a tree that is rooted at the anchor, and the tips are its
leaves. A graph starts as a tree, and attaching a leaf keeps it one.

- `ForkGraph.Rooted`, `ForkGraph.IsTree`: the shape.
- `ForkGraph.Fresh`, `ForkGraph.create_fresh`: a graph that has just been created.
- `ForkGraph.Fresh.isTree`, `ForkGraph.isTree_attach`: a first node, and a new leaf.
-/

namespace ShardLedger

namespace ForkGraph

/-- The node has an entry in the graph. -/
def Live (g : ForkGraph) (n : BlockId) : Prop := ∃ node, g.nodes[n]? = some node

/-- Node `n` hangs directly below `p`. The anchor hangs below nothing, though the node it followed
may still be named in it. -/
def Under (g : ForkGraph) (n p : BlockId) : Prop :=
  n ≠ g.anchor ∧ ∃ node, g.nodes[n]? = some node ∧ node.previous = some p

/-- A live node without followers. -/
def IsLeaf (g : ForkGraph) (t : BlockId) : Prop :=
  ∃ node, g.nodes[t]? = some node ∧ node.following = ∅

/-- The live nodes form a tree with the anchor at its root. -/
structure Rooted (g : ForkGraph) : Prop where
  anchor_live : g.Live g.anchor
  previous_live : ∀ n node, g.nodes[n]? = some node → n ≠ g.anchor →
    ∃ p above, node.previous = some p ∧ g.nodes[p]? = some above
  mem_following : ∀ p above, g.nodes[p]? = some above → ∀ n, n ∈ above.following ↔ g.Under n p
  /-- Some height grows with every step away from the anchor, so no path goes round. -/
  grounded : ∃ height : BlockId → Nat, ∀ n p, g.Under n p → height p < height n

/-- A rooted graph whose recorded tips are its leaves. -/
structure IsTree (g : ForkGraph) : Prop extends Rooted g where
  mem_tips : ∀ t, t ∈ g.tips ↔ g.IsLeaf t

theorem Rooted.ne_of_under {g : ForkGraph} (h : g.Rooted) {n p : BlockId} (hu : g.Under n p) :
    n ≠ p := by
  obtain ⟨height, hh⟩ := h.grounded
  intro hnp
  exact Nat.lt_irrefl _ (hnp ▸ hh n p hu)

theorem Under.unique {g : ForkGraph} {n p q : BlockId} (hp : g.Under n p) (hq : g.Under n q) :
    p = q := by
  obtain ⟨-, node, hn, hprev⟩ := hp
  obtain ⟨-, node', hn', hprev'⟩ := hq
  rw [hn, Option.some.injEq] at hn'
  rw [← hn', hprev, Option.some.injEq] at hprev'
  exact hprev'

/-- Whatever something hangs below is live. -/
theorem Rooted.above_live {g : ForkGraph} (h : g.Rooted) {n p : BlockId} (hu : g.Under n p) :
    g.Live p := by
  obtain ⟨hna, node, hn, hprev⟩ := hu
  obtain ⟨p', above, hprev', habove⟩ := h.previous_live n node hn hna
  rw [hprev, Option.some.injEq] at hprev'
  exact ⟨above, hprev' ▸ habove⟩

/-- A node that is not live hangs below nothing, and nothing hangs below it. -/
theorem Rooted.not_under {g : ForkGraph} (h : g.Rooted) {m n p : BlockId}
    (hm : g.nodes[m]? = none) (hu : g.Under n p) : n ≠ m ∧ p ≠ m := by
  constructor
  · rintro rfl
    obtain ⟨-, node, hn, -⟩ := hu
    rw [hm] at hn
    cases hn
  · rintro rfl
    obtain ⟨above, habove⟩ := h.above_live hu
    rw [hm] at habove
    cases habove

/-- Nothing hangs below a leaf. -/
theorem Rooted.not_under_leaf {g : ForkGraph} (h : g.Rooted) {n t : BlockId} (ht : g.IsLeaf t) :
    ¬g.Under n t := by
  intro hn
  obtain ⟨node, hnode, hempty⟩ := ht
  have hmem := (h.mem_following t node hnode n).2 hn
  rw [hempty] at hmem
  exact Std.ExtTreeSet.not_mem_empty hmem

/-- If anything hangs below the anchor, the anchor has a follower. -/
theorem Rooted.exists_under_anchor {g : ForkGraph} (h : g.Rooted) {n : BlockId} {node : ForkNode}
    (hn : g.nodes[n]? = some node) (hna : n ≠ g.anchor) : ∃ m, g.Under m g.anchor := by
  obtain ⟨height, hh⟩ := h.grounded
  -- climb: the height falls with every parent until that is the anchor
  induction hk : height n using Nat.strongRecOn generalizing n node with
  | _ k ih =>
    obtain ⟨p, above, hprev, hp⟩ := h.previous_live n node hn hna
    by_cases hpa : p = g.anchor
    · exact ⟨n, hna, node, hn, hpa ▸ hprev⟩
    · exact ih _ (hk ▸ hh n p ⟨hna, node, hn, hprev⟩) hp hpa rfl

/-! ### The first node -/

/-- The graph has one node, at weight zero, which nothing precedes or follows. -/
structure Fresh (g : ForkGraph) (genesis : BlockId) (w : Nat) : Prop where
  nodes : ∀ n : BlockId, g.nodes[n]? = if genesis = n then some ⟨none, ∅, 0⟩ else none
  mem_tips : ∀ t, t ∈ g.tips ↔ genesis = t
  anchor : g.anchor = genesis
  priorityTip : g.priorityTip = genesis
  finalizedWeight : g.finalizedWeight = w
  pos : 0 < w

section Fresh

variable {g : ForkGraph} {genesis n p : BlockId} {node : ForkNode} {w : Nat} {keep : Bool}

theorem create_fresh (h : create genesis w keep = .ok g) : g.Fresh genesis w := by
  unfold create at h
  split at h
  · cases h
  rename_i hw
  cases h
  refine ⟨fun n => ?_, fun t => ?_, rfl, rfl, rfl, Nat.pos_of_ne_zero hw⟩
  · rw [Lookup.get_insert, Std.ExtTreeMap.getElem?_empty]
  · rw [Lookup.mem_insert, or_iff_left Std.ExtTreeSet.not_mem_empty]

/-- A finalization weight is all that a graph needs. -/
theorem exists_create (genesis : BlockId) (keep : Bool) (hw : w ≠ 0) :
    ∃ g, create genesis w keep = .ok g :=
  ⟨_, if_neg hw⟩

theorem Fresh.node_eq (h : g.Fresh genesis w) (hn : g.nodes[n]? = some node) :
    genesis = n ∧ node = ⟨none, ∅, 0⟩ := by
  rw [h.nodes] at hn
  split at hn
  · exact ⟨‹_›, (Option.some.inj hn).symm⟩
  · cases hn

theorem Fresh.genesis_node (h : g.Fresh genesis w) : g.nodes[genesis]? = some ⟨none, ∅, 0⟩ := by
  rw [h.nodes, if_pos rfl]

theorem Fresh.eq_of_live (h : g.Fresh genesis w) (hn : g.Live n) : n = genesis :=
  (h.node_eq hn.choose_spec).1.symm

/-- Nothing hangs below the one node. -/
theorem Fresh.not_under (h : g.Fresh genesis w) : ¬g.Under n p := by
  rintro ⟨hna, node, hn, -⟩
  exact hna ((h.eq_of_live ⟨node, hn⟩).trans h.anchor.symm)

theorem Fresh.isLeaf (h : g.Fresh genesis w) : g.IsLeaf g.priorityTip :=
  ⟨_, h.priorityTip ▸ h.genesis_node, rfl⟩

theorem Fresh.isTree (h : g.Fresh genesis w) : g.IsTree where
  anchor_live := ⟨_, h.anchor ▸ h.genesis_node⟩
  previous_live n node hn hna := absurd ((h.eq_of_live ⟨node, hn⟩).trans h.anchor.symm) hna
  mem_following p above hp n := by
    rw [(h.node_eq hp).2]
    exact ⟨fun hm => absurd hm Std.ExtTreeSet.not_mem_empty, fun hu => absurd hu h.not_under⟩
  grounded := ⟨fun _ => 0, fun _ _ hu => absurd hu h.not_under⟩
  mem_tips t := by
    rw [h.mem_tips]
    refine ⟨?_, fun ⟨node, hn, _⟩ => (h.node_eq hn).1⟩
    rintro rfl
    exact ⟨_, h.genesis_node, rfl⟩

end Fresh

/-! ### Attaching a leaf -/

section Attach

variable {g : ForkGraph} {id previous : BlockId} {parent : ForkNode} {weight : Nat}

theorem attach_nodes (n : BlockId) :
    (g.attach id previous parent weight).nodes[n]? =
      if id = n then some ⟨some previous, ∅, weight⟩
      else if previous = n then some { parent with following := parent.following.insert id }
      else g.nodes[n]? := by
  unfold attach
  dsimp only
  rw [Lookup.get_insert, Lookup.get_insert]

/-- Attaching adds one edge and keeps the others. -/
theorem attach_under (hg : g.Rooted) (hid : g.nodes[id]? = none)
    (hp : g.nodes[previous]? = some parent) (n p : BlockId) :
    (g.attach id previous parent weight).Under n p ↔
      (n = id ∧ p = previous) ∨ g.Under n p := by
  have hida : id ≠ g.anchor := by
    rintro rfl
    obtain ⟨node, hn⟩ := hg.anchor_live
    rw [hid] at hn
    cases hn
  unfold Under
  rw [attach_nodes]
  show (n ≠ g.anchor ∧ _) ↔ _
  -- the new node has the new edge, its parent keeps the old one, and nothing else is touched
  by_cases hn : id = n
  · subst hn
    rw [if_pos rfl, hid]
    constructor
    · rintro ⟨-, node, hnode, hprev⟩
      rw [Option.some.injEq] at hnode
      subst hnode
      exact Or.inl ⟨rfl, (Option.some.inj hprev).symm⟩
    · rintro (⟨-, rfl⟩ | ⟨-, node, hnode, -⟩)
      · exact ⟨hida, _, rfl, rfl⟩
      · cases hnode
  · rw [if_neg hn]
    have hne : ¬(n = id ∧ p = previous) := fun h => hn h.1.symm
    rw [or_iff_right hne]
    by_cases hprev : previous = n
    · subst hprev
      rw [if_pos rfl, hp]
      constructor
      · rintro ⟨ha, node, hnode, h⟩
        rw [Option.some.injEq] at hnode
        subst hnode
        exact ⟨ha, parent, rfl, h⟩
      · rintro ⟨ha, node, hnode, h⟩
        rw [Option.some.injEq] at hnode
        subst hnode
        exact ⟨ha, _, rfl, h⟩
    · rw [if_neg hprev]

theorem live_attach (hp : g.nodes[previous]? = some parent) (n : BlockId) :
    (g.attach id previous parent weight).Live n ↔ n = id ∨ g.Live n := by
  unfold Live
  rw [attach_nodes]
  by_cases h1 : id = n
  · rw [if_pos h1]
    exact ⟨fun _ => Or.inl h1.symm, fun _ => ⟨_, rfl⟩⟩
  · rw [if_neg h1, or_iff_right (Ne.symm h1)]
    by_cases h2 : previous = n
    · rw [if_pos h2]
      exact ⟨fun _ => ⟨parent, h2 ▸ hp⟩, fun _ => ⟨_, rfl⟩⟩
    · rw [if_neg h2]

/-- Every node but the new one had its edge before. -/
theorem attach_previous (hp : g.nodes[previous]? = some parent) {n : BlockId} {node : ForkNode}
    (hn : (g.attach id previous parent weight).nodes[n]? = some node) (hne : id ≠ n) :
    ∃ old, g.nodes[n]? = some old ∧ old.previous = node.previous := by
  rw [attach_nodes, if_neg hne] at hn
  split at hn
  · rename_i heq
    rw [Option.some.injEq] at hn
    subst hn
    exact ⟨parent, heq ▸ hp, rfl⟩
  · exact ⟨node, hn, rfl⟩

/-- The nodes that follow another one are those below it. -/
theorem attach_following (hg : g.Rooted) (hid : g.nodes[id]? = none)
    (hp : g.nodes[previous]? = some parent) {p : BlockId} {above : ForkNode}
    (habove : (g.attach id previous parent weight).nodes[p]? = some above) (n : BlockId) :
    n ∈ above.following ↔ (n = id ∧ p = previous) ∨ g.Under n p := by
  rw [attach_nodes] at habove
  by_cases h1 : id = p
  · -- nothing follows the new node
    subst h1
    rw [if_pos rfl, Option.some.injEq] at habove
    subst habove
    refine ⟨fun h => absurd h Std.ExtTreeSet.not_mem_empty, ?_⟩
    rintro (⟨-, rfl⟩ | hold)
    · rw [hid] at hp
      cases hp
    · exact absurd rfl (hg.not_under hid hold).2
  · rw [if_neg h1] at habove
    by_cases h2 : previous = p
    · subst h2
      rw [if_pos rfl, Option.some.injEq] at habove
      subst habove
      rw [Lookup.mem_insert, hg.mem_following _ _ hp n, and_iff_left rfl, eq_comm]
    · rw [if_neg h2] at habove
      rw [hg.mem_following _ _ habove n, or_iff_right (fun h => h2 h.2.symm)]

theorem rooted_attach (hg : g.Rooted) (hid : g.nodes[id]? = none)
    (hp : g.nodes[previous]? = some parent) : (g.attach id previous parent weight).Rooted := by
  have hunder := @attach_under g id previous parent weight hg hid hp
  have hlive := @live_attach g id previous parent weight hp
  have hne : id ≠ previous := by
    rintro rfl
    rw [hid] at hp
    cases hp
  refine { anchor_live := (hlive _).2 (Or.inr hg.anchor_live), previous_live := ?_,
           mem_following := fun p above habove n => ?_, grounded := ?_ }
  · intro n node hn hna
    by_cases h1 : id = n
    · rw [attach_nodes, if_pos h1, Option.some.injEq] at hn
      subst hn
      obtain ⟨above, habove⟩ := (hlive _).2 (Or.inr ⟨parent, hp⟩)
      exact ⟨previous, above, rfl, habove⟩
    · obtain ⟨old, hold, hsame⟩ := attach_previous hp hn h1
      obtain ⟨p, above, hprev, habove⟩ := hg.previous_live n old hold hna
      obtain ⟨above', habove'⟩ := (hlive _).2 (Or.inr ⟨above, habove⟩)
      exact ⟨p, above', hsame ▸ hprev, habove'⟩
  · rw [attach_following hg hid hp habove n, hunder]
  · -- the new node stands one step above its parent
    obtain ⟨height, hh⟩ := hg.grounded
    refine ⟨fun n => if n = id then height previous + 1 else height n, ?_⟩
    intro n p h
    dsimp only
    rcases (hunder n p).1 h with ⟨rfl, rfl⟩ | hold
    · rw [if_pos rfl, if_neg (Ne.symm hne)]
      exact Nat.lt_succ_self _
    · obtain ⟨hn, hp⟩ := hg.not_under hid hold
      rw [if_neg hn, if_neg hp]
      exact hh n p hold

theorem isTree_attach (hg : g.IsTree) (hid : g.nodes[id]? = none)
    (hp : g.nodes[previous]? = some parent) : (g.attach id previous parent weight).IsTree := by
  refine { toRooted := rooted_attach hg.toRooted hid hp, mem_tips := fun t => ?_ }
  show t ∈ (g.tips.erase previous).insert id ↔ _
  rw [Lookup.mem_insert, Lookup.mem_erase, hg.mem_tips t]
  unfold IsLeaf
  rw [attach_nodes]
  by_cases h1 : id = t
  · rw [if_pos h1]
    exact ⟨fun _ => ⟨_, rfl, rfl⟩, fun _ => Or.inl h1⟩
  · rw [if_neg h1, or_iff_right h1]
    by_cases h2 : previous = t
    · -- the parent is no leaf any more
      rw [if_pos h2]
      refine ⟨fun h => absurd h2 h.1, ?_⟩
      rintro ⟨node, hnode, hempty⟩
      rw [Option.some.injEq] at hnode
      subst hnode
      have : id ∈ parent.following.insert id := Lookup.mem_insert.2 (Or.inl rfl)
      rw [show parent.following.insert id = ∅ from hempty] at this
      exact absurd this Std.ExtTreeSet.not_mem_empty
    · rw [if_neg h2, and_iff_right h2]

end Attach

end ForkGraph

end ShardLedger
