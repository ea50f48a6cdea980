import ShardLedger.Error
import ShardLedger.Reach
import ShardLedger.Word

/-!
# Fork graphs

The live blocks of one chain form a tree that grows from an anchor, the last finalized block. A
node carries the weight of the path that leads to it. Adding a block may end in two steps:

- *Pruning.* A tip that trails the heaviest tip by the finalization weight `W` or more is dead. It
  is removed together with the ancestors that nothing else follows.
- *Finalization.* While the anchor has exactly one follower, and the heaviest tip leads that
  follower by `W` or more, the follower becomes the anchor. A fork at the anchor halts the walk
  until pruning has removed the other branch.

Main definitions: `ForkGraph.create`, `ForkGraph.add`, `ForkStep`.
-/

namespace ShardLedger

/-- A live node. -/
structure ForkNode where
  /-- The node it follows; the genesis follows none. -/
  previous : Option BlockId
  /-- The nodes that follow it. -/
  following : BlockSet
  /-- The weight of the path from the genesis, capped at the largest 64-bit word. -/
  weight : Nat
deriving DecidableEq

/-- What adding a block finalized and pruned. -/
structure ForkStep where
  /-- The blocks finalized, oldest first. -/
  finalized : List BlockId
  /-- The blocks removed with dead forks. -/
  pruned : List BlockId
deriving DecidableEq, Inhabited

/-- A step that did nothing. -/
def ForkStep.isEmpty (s : ForkStep) : Bool := s.finalized.isEmpty && s.pruned.isEmpty

/-- The fork choice and finalization state of one chain. -/
structure ForkGraph where
  nodes : BlockMap ForkNode
  /-- The nodes without followers. -/
  tips : BlockSet
  /-- The tip that the next block should extend. -/
  priorityTip : BlockId
  /-- The last finalized block, or the genesis. -/
  anchor : BlockId
  /-- The lead that finalizes and kills. -/
  finalizedWeight : Nat
  finalizedCount : Nat
  /-- Every finalized block with its weight, if a record is kept. -/
  history : Option (List (BlockId × Nat))
deriving DecidableEq

namespace ForkGraph

/-- The graph that holds only a genesis, at weight zero. A finalization weight of zero is
refused, for every tip trails the heaviest one by at least zero. -/
def create (genesis : BlockId) (finalizedWeight : Nat) (keepHistory : Bool) :
    Except LedgerError ForkGraph :=
  if finalizedWeight = 0 then .error (.invalidArgument .noFinalizedWeight)
  else .ok
    { nodes := (∅ : BlockMap ForkNode).insert genesis ⟨none, ∅, 0⟩
      tips := (∅ : BlockSet).insert genesis
      priorityTip := genesis
      anchor := genesis
      finalizedWeight
      finalizedCount := 0
      history := if keepHistory then some [] else none }

/-- Whether a block is live. -/
def contains (g : ForkGraph) (id : BlockId) : Bool := g.nodes.contains id

/-- The weight of a node; what is not live weighs nothing. -/
def weightOf (g : ForkGraph) (id : BlockId) : Nat := (g.nodes[id]?.map (·.weight)).getD 0

/-- The weight of the heaviest tip. -/
def maxTipWeight (g : ForkGraph) : Nat :=
  (g.tips.toList.map g.weightOf).foldl max 0

/-- Add a node to the tree, without pruning or finalizing. -/
def attach (g : ForkGraph) (id previous : BlockId) (parent : ForkNode) (weight : Nat) :
    ForkGraph :=
  let nodes := g.nodes.insert previous { parent with following := parent.following.insert id }
  { g with
    nodes := nodes.insert id ⟨some previous, ∅, weight⟩
    tips := (g.tips.erase previous).insert id
    priorityTip :=
      if g.weightOf g.priorityTip < weight ∨ previous = g.priorityTip then id
      else g.priorityTip }

/-- Remove a tip, then its ancestors up to the first one that something else follows, that is the
anchor or that is the priority tip. The removed nodes are listed from the tip on. -/
def pruneFrom (g : ForkGraph) (current : BlockId) : ForkGraph × List BlockId :=
  match _hn : g.nodes[current]? with
  | none => (g, [])
  | some node =>
    let g₁ := { g with nodes := g.nodes.erase current, tips := g.tips.erase current }
    match node.previous with
    | none => (g₁, [current])
    | some previous =>
      match _hp : g₁.nodes[previous]? with
      | none => (g₁, [current])
      | some parent =>
        let following := parent.following.erase current
        let g₂ := { g₁ with nodes := g₁.nodes.insert previous { parent with following } }
        if following.isEmpty ∧ previous ≠ g.anchor ∧ previous ≠ g.priorityTip then
          let (g₃, above) := pruneFrom g₂ previous
          (g₃, current :: above)
        else if following.isEmpty then
          ({ g₂ with tips := g₂.tips.insert previous }, [current])
        else (g₂, [current])
termination_by g.nodes.size
decreasing_by
  have h₁ := size_erase_add_one _hn
  have h₂ := size_erase_add_one _hp
  simp only [g₁] at h₂ ⊢
  have h₃ : (g.nodes.erase current).contains previous = true := by
    rw [Std.ExtTreeMap.contains_eq_isSome_getElem?]
    simp only [g₁] at _hp
    rw [_hp]; rfl
  rw [Std.ExtTreeMap.size_insert, if_pos h₃]
  omega

/-- The tips that trail the heaviest weight by the finalization weight, in order. The priority
tip is spared. -/
def deadTips (g : ForkGraph) (heaviest : Nat) : List BlockId :=
  g.tips.toList.filter fun tip =>
    tip ≠ g.priorityTip ∧ g.finalizedWeight ≤ heaviest - g.weightOf tip

/-- Prune from each tip in turn. -/
def pruneAll (g : ForkGraph) : List BlockId → ForkGraph × List BlockId
  | [] => (g, [])
  | tip :: rest =>
    let (g₁, first) := g.pruneFrom tip
    let (g₂, others) := g₁.pruneAll rest
    (g₂, first ++ others)

/-- The follower that may become the anchor: it is the anchor's only one, and the heaviest weight
leads it by the finalization weight. -/
def nextAnchor? (g : ForkGraph) (heaviest : Nat) : Option BlockId := do
  let anchor ← g.nodes[g.anchor]?
  match anchor.following.toList with
  | [next] =>
    if g.finalizedWeight ≤ heaviest - g.weightOf next then some next else none
  | _ => none

/-- Make a follower of the anchor the new anchor. -/
def finalizeNext (g : ForkGraph) (next : BlockId) : ForkGraph :=
  { g with
    nodes := g.nodes.erase g.anchor
    anchor := next
    finalizedCount := g.finalizedCount + 1
    history := g.history.map (· ++ [(next, g.weightOf next)]) }

theorem size_finalizeNext_lt {g : ForkGraph} {heaviest : Nat} {next : BlockId}
    (h : g.nextAnchor? heaviest = some next) :
    (g.finalizeNext next).nodes.size < g.nodes.size := by
  unfold nextAnchor? at h
  cases ha : g.nodes[g.anchor]? with
  | none => simp [ha] at h
  | some node =>
    have := size_erase_add_one ha
    simp only [finalizeNext]
    omega

/-- Move the anchor forward as far as it goes. -/
def advance (g : ForkGraph) (heaviest : Nat) : ForkGraph × List BlockId :=
  match _h : g.nextAnchor? heaviest with
  | none => (g, [])
  | some next =>
    let (g', later) := (g.finalizeNext next).advance heaviest
    (g', next :: later)
termination_by g.nodes.size
decreasing_by exact size_finalizeNext_lt _h

/-- Add a block after a live one, then prune and finalize. -/
def add (g : ForkGraph) (id previous : BlockId) (weight : Nat) :
    Except LedgerError (ForkGraph × ForkStep) :=
  if g.contains id then .error (.invalidArgument (.alreadyLive id))
  else match g.nodes[previous]? with
    | none => .error (.blockNotFound previous)
    | some parent =>
      let g₁ := g.attach id previous parent (addCapped parent.weight weight)
      let heaviest := g₁.maxTipWeight
      let (g₂, pruned) := g₁.pruneAll (g₁.deadTips heaviest)
      let (g₃, finalized) := g₂.advance heaviest
      .ok (g₃, { finalized, pruned })

end ForkGraph

end ShardLedger
