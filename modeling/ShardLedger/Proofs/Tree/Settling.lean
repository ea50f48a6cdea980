import ShardLedger.Proofs.Chain.Sound
import ShardLedger.Proofs.Tree.Paths

/-!
# Finalizing blocks in a branch

When the topmost chain of a branch finalizes blocks, they are put in line on that chain. Below it
only content changes, unless the chain is a leaf and one of the blocks seeds a split.

- `Chain.bare`: a chain without its content, about which nothing is said here.
- `Branch.spawn_eq`: what a split does.
- `Branch.Settled`, `Branch.settleAll_settled`: what finalizing a run of blocks does.
-/

namespace ShardLedger

namespace Chain

/-- The chain without its content. -/
def bare (c : Chain) : Chain := { c with content := .empty }

/-- Chains that agree apart from their content have one number. -/
theorem id_of_bare {c d : Chain} (h : c.bare = d.bare) : c.id = d.id :=
  show c.bare.id = d.bare.id from congrArg Chain.id h

/-- Chains that agree apart from their content differ in nothing else. -/
theorem eq_of_bare {c d : Chain} (h : d.bare = c.bare) : d = { c with content := d.content } := by
  show d = { c.bare with content := d.content }
  rw [← h]
  rfl

/-- Put finalized blocks in line, oldest first. -/
def enqueueAll (c : Chain) (config : Config) (blocks : List Block) : Chain :=
  blocks.foldl (fun c b => c.enqueue config b) c

theorem enqueueAll_bare (config : Config) : ∀ (blocks : List Block) (c : Chain),
    c.bare.enqueueAll config blocks = (c.enqueueAll config blocks).bare
  | [], _ => rfl
  | b :: rest, c => enqueueAll_bare config rest (c.enqueue config b)

/-- Being put in line changes the queue, the rank that comes next and whether the chain stays on
offer. -/
theorem enqueueAll_eq (config : Config) : ∀ (blocks : List Block) (c : Chain),
    ∃ nextRank permanent, c.enqueueAll config blocks =
      { c with undelivered := c.undelivered ++ blocks, nextRank, permanent }
  | [], c => ⟨c.nextRank, c.permanent, by rw [List.append_nil]; rfl⟩
  | b :: rest, c => by
    obtain ⟨nextRank, permanent, h⟩ := enqueueAll_eq config rest (c.enqueue config b)
    refine ⟨nextRank, permanent, ?_⟩
    show (c.enqueue config b).enqueueAll config rest = _
    rw [h]
    show { c with undelivered := (c.undelivered ++ [b]) ++ rest, nextRank, permanent } = _
    rw [List.append_assoc, List.singleton_append]

/-- Where a linked run is put in line, the rank that comes next is the one that its last block
asks for. -/
theorem nextRank_enqueueAll {seen : List Block} {id : ChainId} (config : Config) :
    ∀ {blocks : List Block} {c : Chain} {top : Block}, Links seen id top blocks →
      c.nextRank = top.rank.next →
      (c.enqueueAll config blocks).nextRank = (blocks.getLastD top).rank.next
  | [], _, _, _, h => h
  | b :: rest, c, top, hlinks, h => by
    rw [List.getLastD_cons]
    refine nextRank_enqueueAll config (c := c.enqueue config b) hlinks.2 ?_
    have hle : c.nextRank ≤ b.rank.next :=
      h ▸ UInt64.le_trans hlinks.1.rank_le hlinks.1.ordered
    show (if c.nextRank < b.rank.next then b.rank.next else c.nextRank) = b.rank.next
    split
    · rfl
    · rename_i hnot
      exact UInt64.le_antisymm hle (UInt64.not_lt.1 hnot)

end Chain

namespace Branch

variable {rules : Rules} {roster : Roster} {b : Branch} {seed block : Block}

/-- The chain at the end of a path, without its content. -/
def bareAt (b : Branch) (p : List Side) : Option Chain := (b.chainAt p).map Chain.bare

theorem bareAt_nil (b : Branch) : b.bareAt [] = some b.chain.bare := by
  unfold bareAt
  rw [chainAt_nil]
  rfl

theorem bareAt_eq_some {p : List Side} {d : Chain} :
    b.bareAt p = some d ↔ ∃ c, b.chainAt p = some c ∧ c.bare = d := Option.map_eq_some_iff

theorem bareAt_eq_none {p : List Side} : b.bareAt p = none ↔ b.chainAt p = none :=
  Option.map_eq_none_iff

/-- What a split needs and what it makes: the children's numbers are free and now taken, and both
start from the seed. -/
def SplitsTo (rules : Rules) (roster : Roster) (seed : Block) (c : Chain) (b' : Branch)
    (roster' : Roster) : Prop :=
  ∃ left right cursor graph, c.id.child? .left = some left ∧ c.id.child? .right = some right ∧
    c.cursor.deeper = .ok cursor ∧
    Chain.newGraph rules.config seed.id = .ok graph ∧
    roster.reserve? rules.config.tree.maxChains left right = some roster' ∧
    b' = split { c with content := (c.content.separate c.cursor).center }
      (leaf (Chain.start left seed graph (c.content.separate c.cursor).left cursor))
      (leaf (Chain.start right seed graph (c.content.separate c.cursor).right cursor))

/-- A branch is left as it is, or it is a leaf and splits. -/
theorem spawn_eq (rules : Rules) (roster : Roster) (seed : Block) (b : Branch) :
    b.spawn rules roster seed = (b, roster) ∨
      ∃ c, b = leaf c ∧ SplitsTo rules roster seed c (b.spawn rules roster seed).1
        (b.spawn rules roster seed).2 := by
  cases b with
  | split => exact Or.inl rfl
  | leaf c =>
    unfold spawn
    dsimp only
    -- every check that fails leaves the leaf as it is
    split
    · exact Or.inl rfl
    split
    · exact Or.inl rfl
    split
    · rename_i left right cursor graph hleft hright hcursor hgraph
      split
      · exact Or.inl rfl
      · rename_i roster' hroster
        exact Or.inr ⟨c, rfl, left, right, cursor, graph, hleft, hright, hcursor, hgraph,
          hroster, rfl⟩
    · exact Or.inl rfl

/-- One of the finalized blocks, the seed, splits the leaf into two children that start from it. -/
structure SplitBy (rules : Rules) (roster : Roster) (b : Branch) (blocks : List Block)
    (b' : Branch) (roster' : Roster) (seed : Block) (left right : ChainId) (graph : ForkGraph)
    (cursor : Cursor) : Prop where
  seeded : ∃ before after, blocks = before ++ seed :: after
  left_child : b.chain.id.child? .left = some left
  right_child : b.chain.id.child? .right = some right
  newGraph : Chain.newGraph rules.config seed.id = .ok graph
  reserved : roster.reserve? rules.config.tree.maxChains left right = some roster'
  isLeaf : ∀ p ≠ [], b.bareAt p = none
  children : ∀ p ≠ [], b'.bareAt p =
    if p = [.left] then some (Chain.start left seed graph .empty cursor)
    else if p = [.right] then some (Chain.start right seed graph .empty cursor) else none

/-- What finalizing a run of blocks does to a branch, content apart: the blocks are put in line, and
either nothing else happens, or one of them splits the leaf. -/
structure Settled (rules : Rules) (roster : Roster) (b : Branch) (blocks : List Block)
    (b' : Branch) (roster' : Roster) : Prop where
  top : b'.chain.bare = b.chain.bare.enqueueAll rules.config blocks
  below : (roster' = roster ∧ ∀ p ≠ [], b'.bareAt p = b.bareAt p) ∨
    ∃ seed left right graph cursor,
      SplitBy rules roster b blocks b' roster' seed left right graph cursor

/-- One finalized block, before it may split the chain. -/
def placed (config : Config) (block : Block) (b : Branch) : Branch :=
  (b.map (·.consume block.contentIds)).withChain
    ((b.map (·.consume block.contentIds)).chain.enqueue config block)

theorem settle_eq : b.settle rules roster block =
    (b.placed rules.config block).spawn rules roster block := rfl

theorem placed_top (config : Config) :
    (b.placed config block).chain.bare = b.chain.bare.enqueue config block := by
  unfold placed
  rw [chain_withChain, chain_map]
  rfl

theorem placed_below (config : Config) {p : List Side} (hp : p ≠ []) :
    (b.placed config block).bareAt p = b.bareAt p := by
  unfold placed bareAt
  rw [chainAt_withChain _ _ hp, chainAt_map, Option.map_map]
  rfl

theorem placed_leaf {config : Config} {c : Chain} (h : b.placed config block = leaf c) :
    ∃ d, b = leaf d := by
  cases b with
  | leaf d => exact ⟨d, rfl⟩
  | split => cases h

theorem settle_settled (rules : Rules) (roster : Roster) (b : Branch) (block : Block) :
    Settled rules roster b [block] (b.settle rules roster block).1
      (b.settle rules roster block).2 := by
  rw [settle_eq]
  rcases spawn_eq rules roster block (b.placed rules.config block) with h | ⟨c, hleaf, hsplits⟩
  · rw [h]
    exact ⟨placed_top _, Or.inl ⟨rfl, fun p hp => placed_below _ hp⟩⟩
  · obtain ⟨left, right, cursor, graph, hleft, hright, -, hgraph, hroster, heq⟩ := hsplits
    obtain ⟨d, rfl⟩ := placed_leaf hleaf
    have htop : c.bare = d.bare.enqueue rules.config block := by
      have hplaced : ((leaf d).placed rules.config block).chain.bare =
          d.bare.enqueue rules.config block := placed_top rules.config
      rwa [hleaf] at hplaced
    have hid : c.id = d.id := (congrArg Chain.id htop :)
    -- the block was put in line on the same chain, so the children are those of the old one
    rw [hid] at hleft hright
    refine ⟨?_, Or.inr ⟨block, left, right, graph, cursor, ⟨[], [], rfl⟩, hleft, hright, hgraph,
      hroster, fun p hp => ?_, fun p hp => ?_⟩⟩
    · rw [heq]
      exact htop
    · unfold bareAt
      rw [chainAt_leaf hp]
      rfl
    · rw [heq]
      cases p with
      | nil => exact absurd rfl hp
      | cons side p =>
        cases side <;> cases p <;> rfl

/-- The topmost chain keeps its number. -/
theorem Settled.id {xs : List Block} {b b' : Branch} {r r' : Roster}
    (h : Settled rules r b xs b' r') : b'.chain.id = b.chain.id := by
  obtain ⟨_, _, heq⟩ := Chain.enqueueAll_eq rules.config xs b.chain.bare
  exact (congrArg Chain.id (h.top.trans heq) :)

/-- Runs of finalized blocks add up. -/
theorem Settled.trans {xs ys : List Block} {b₁ b₂ b₃ : Branch} {r₁ r₂ r₃ : Roster}
    (h₁ : Settled rules r₁ b₁ xs b₂ r₂) (h₂ : Settled rules r₂ b₂ ys b₃ r₃) :
    Settled rules r₁ b₁ (xs ++ ys) b₃ r₃ := by
  have hid := h₁.id
  refine ⟨?_, ?_⟩
  · rw [h₂.top, h₁.top]
    unfold Chain.enqueueAll
    rw [List.foldl_append]
  · -- at most one of the two runs splits the chain
    rcases h₁.below with ⟨rfl, hkept⟩ | ⟨seed, left, right, graph, cursor, hs⟩
    · rcases h₂.below with ⟨rfl, hkept'⟩ | ⟨seed, left, right, graph, cursor, hs⟩
      · exact Or.inl ⟨rfl, fun p hp => (hkept' p hp).trans (hkept p hp)⟩
      · obtain ⟨before, after, heq⟩ := hs.seeded
        exact Or.inr ⟨seed, left, right, graph, cursor,
          { hs with
            seeded := ⟨xs ++ before, after, by rw [heq, List.append_assoc]⟩
            left_child := hid ▸ hs.left_child
            right_child := hid ▸ hs.right_child
            isLeaf := fun p hp => (hkept p hp).symm.trans (hs.isLeaf p hp) }⟩
    · rcases h₂.below with ⟨rfl, hkept'⟩ | ⟨_, _, _, _, _, hs'⟩
      · obtain ⟨before, after, heq⟩ := hs.seeded
        exact Or.inr ⟨seed, left, right, graph, cursor,
          { hs with
            seeded := ⟨before, after ++ ys, by rw [heq, List.append_assoc, List.cons_append]⟩
            children := fun p hp => (hkept' p hp).trans (hs.children p hp) }⟩
      · -- a chain that has split cannot split again
        have hnone := hs'.isLeaf [.left] (List.cons_ne_nil _ _)
        rw [hs.children [.left] (List.cons_ne_nil _ _), if_pos rfl] at hnone
        cases hnone

theorem settleAll_settled (rules : Rules) : ∀ (blocks : List Block) (roster : Roster) (b : Branch),
    Settled rules roster b blocks (settleAll rules roster b blocks).1
      (settleAll rules roster b blocks).2
  | [], _, _ => ⟨rfl, Or.inl ⟨rfl, fun _ _ => rfl⟩⟩
  | block :: rest, roster, b =>
    (settle_settled rules roster b block).trans
      (settleAll_settled rules rest (b.settle rules roster block).2
        (b.settle rules roster block).1)

end Branch

end ShardLedger
