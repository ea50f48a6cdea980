import ShardLedger.Proofs.Content.Routing
import ShardLedger.Proofs.Tree.Life

/-!
# Splits

A finalized block asks its chain to split. Where the depth of the chain allows that, nothing fails
but for want of room in the tree: the children have numbers, the cursor has a lower bit, and a fork
graph can be made for any seed.

- `Chain.place`: what a chain keeps for life, and what decides whether it can split.
- `Branch.Asks`, `Branch.Asks.place`: when a chain is asked to split, and what it is then.
- `Chain.divisible_of_depth`: a chain above the deepest level can split.
- `Roster.Takes`, `Branch.submit_closed`: a submission takes numbers for children, pair by pair.
-/

namespace ShardLedger

namespace ChainId

variable {c child : ChainId} {side : Side}

theorem child?_depth (h : c.child? side = some child) : child.depth ≤ c.depth + 1 := by
  have hbound : c.number < 2 ^ (c.depth + 1) := Nat.lt_log2_self
  have hchild : child.number ≤ 2 * c.number + 1 := by
    have hnumber := child?_number h
    cases side with
    | left => exact hnumber ▸ Nat.le_succ _
    | right => exact Nat.le_of_eq hnumber
  show child.number.log2 ≤ c.depth + 1
  rcases Nat.eq_zero_or_pos child.number with hzero | hpos
  · rw [hzero]
    exact Nat.zero_le _
  · refine Nat.lt_succ_iff.1 ((Nat.log2_lt (Nat.ne_of_gt hpos)).2 ?_)
    have : 2 ^ (c.depth + 1 + 1) = 2 * 2 ^ (c.depth + 1) := Nat.pow_succ'
    omega

/-- Numbers of 64 bits last down to level 63. -/
theorem exists_child (h : c.depth < 63) (side : Side) : ∃ child, c.child? side = some child := by
  have hbound : c.number < 2 ^ (c.depth + 1) := Nat.lt_log2_self
  have hpow : 2 ^ (c.depth + 1) ≤ 2 ^ 63 := Nat.pow_le_pow_right (by decide) h
  have hroom : 2 * c.number < UInt64.size := by
    have : UInt64.size = 2 * 2 ^ 63 := by decide
    omega
  unfold child?
  cases side with
  | left => exact ⟨_, dif_pos hroom⟩
  | right => exact ⟨_, dif_pos hroom⟩

end ChainId

/-- What a valid configuration promises. -/
theorem Config.bounds_of_validate {config : Config} (h : config.validate = .ok ()) :
    config.fork.finalizedWeight ≠ 0 ∧ 0 < config.tree.minChains ∧
      config.tree.minChains ≤ config.tree.maxChains ∧ config.tree.maxDepth ≤ depthLimit := by
  have hnone : config.problem? = none := by
    unfold validate at h
    split at h
    · cases h
    · assumption
  unfold problem? at hnone
  -- one check after the other has passed
  split at hnone
  · cases hnone
  rename_i hweight
  split at hnone
  · cases hnone
  rename_i hmin
  split at hnone
  · cases hnone
  rename_i hmax
  split at hnone
  · cases hnone
  rename_i hdepth
  exact ⟨hweight, Nat.pos_of_ne_zero hmin, Nat.not_lt.1 hmax, Nat.not_lt.1 hdepth⟩

namespace Chain

variable {c d : Chain} {x block : Block} {a : Applied} {parent : BlockId} {verdict : Verdict}

/-- What a chain keeps as long as it is live: its number, its cursor, that it is live, and the block
that it starts from. -/
def place (c : Chain) : ChainId × Cursor × Bool × BlockId :=
  (c.id, c.cursor, c.retired, c.genesis)

theorem place_of_bare (h : c.bare = d.bare) : c.place = d.place := (congrArg place h :)

theorem place_outcome (h : c.apply x = some a) : a.outcome.1.place = c.place := by
  rw [a.outcome_rest h]
  rfl

theorem place_enqueueAll (config : Config) (blocks : List Block) (c : Chain) :
    (c.enqueueAll config blocks).place = c.place := by
  obtain ⟨nextRank, permanent, heq⟩ := enqueueAll_eq config blocks c
  rw [heq]
  rfl

theorem place_receive (h : c.receive block parent = (d, verdict)) : d.place = c.place := by
  cases received h <;> rfl

/-- All that a split needs, but for room in the tree: numbers and a cursor for the children, and
fork graphs that start from any seed. -/
structure Divisible (config : Config) (c : Chain) : Prop where
  children : ∀ side, ∃ child, c.id.child? side = some child
  cursor : ∃ cursor, c.cursor.deeper = .ok cursor
  graph : ∀ seed, ∃ graph, newGraph config seed = .ok graph

/-- Above the deepest level of a valid configuration, a chain whose cursor stands at its depth has
all of it. -/
theorem divisible_of_depth {config : Config} (hvalid : config.validate = .ok ())
    (hcursor : c.cursor.depth = c.id.depth) (hdepth : c.id.depth < config.tree.maxDepth) :
    c.Divisible config := by
  obtain ⟨hweight, -, -, hlimit⟩ := Config.bounds_of_validate hvalid
  have h63 : c.id.depth < 63 :=
    Nat.lt_of_lt_of_le hdepth (Nat.le_trans hlimit (by decide))
  refine ⟨ChainId.exists_child h63, ?_, fun seed => ForkGraph.exists_create seed _ hweight⟩
  unfold Cursor.deeper
  rw [dif_pos (show c.cursor.depth + 1 < maskBits by rw [hcursor]; unfold maskBits; omega)]
  exact ⟨_, rfl⟩

end Chain

/-- A split of chain `id` takes the numbers of its children. -/
structure Roster.Takes (config : Config) (id : ChainId) (r r' : Roster) : Prop where
  depth : id.depth < config.tree.maxDepth
  reserved : ∃ left right, id.child? .left = some left ∧ id.child? .right = some right ∧
    r.reserve? config.tree.maxChains left right = some r'

namespace Branch

variable {rules : Rules} {roster r : Roster} {b t : Branch} {block seed x : Block}

/-! ### When a chain is asked -/

theorem placed_place (config : Config) (block : Block) (b : Branch) :
    (b.placed config block).chain.place = b.chain.place :=
  (congrArg Chain.place (placed_top config) :)

theorem settleAll_place (rules : Rules) (roster : Roster) (b : Branch) (blocks : List Block) :
    (settleAll rules roster b blocks).1.chain.place = b.chain.place := by
  have htop := (settleAll_settled rules blocks roster b).top
  rw [Chain.enqueueAll_bare] at htop
  rw [Chain.place_of_bare htop, Chain.place_enqueueAll]

theorem apply_place (rules : Rules) (roster : Roster) (b : Branch) (x : Block) :
    (b.apply rules roster x).1.chain.place = b.chain.place := by
  cases ha : b.chain.apply x with
  | none => rw [apply_of_none ha]
  | some a =>
    rw [Chain.place_of_bare (apply_top ha), Chain.place_enqueueAll, Chain.place_outcome ha]

theorem applyAll_place (rules : Rules) : ∀ (xs : List Block) (roster : Roster) (b : Branch),
    (applyAll rules roster b xs).1.chain.place = b.chain.place
  | [], _, _ => rfl
  | x :: rest, roster, b =>
    (applyAll_place rules rest (b.apply rules roster x).2.1 (b.apply rules roster x).1).trans
      (apply_place rules roster b x)

/-- A chain that takes a block is still what it was. -/
theorem submit_place (rules : Rules) (roster : Roster) (b : Branch) (block : Block) :
    (b.submit rules roster block).branch.chain.place = b.chain.place := by
  have hsubmitted := b.submitted rules roster block
  generalize b.submit rules roster block = s at hsubmitted ⊢
  cases hsubmitted with
  | screened => rfl
  | settled _ hreceive => rw [chain_withChain, Chain.place_receive hreceive]
  | entered _ hreceive => rw [applyAll_place, chain_withChain, Chain.place_receive hreceive]

/-- When `block` is submitted to the topmost chain of `b`, that chain is asked to split: released
block `x` has entered it and finalized `seed`, which is put in line and now asks. By then the branch
is `t`, and the numbers in use are those of `r`. -/
def Asks (rules : Rules) (roster : Roster) (b : Branch) (block : Block) (t : Branch) (r : Roster)
    (seed : Block) : Prop :=
  ∃ parent c before x after a settled later,
    Chain.screen rules b.chain.id block = .ok parent ∧
    b.chain.receive block parent = (c, .released (before ++ x :: after)) ∧
    (applyAll rules roster (b.withChain c) before).1.chain.apply x = some a ∧
    a.outcome.2 = settled ++ seed :: later ∧
    let entered := applyAll rules roster (b.withChain c) before
    let s := settleAll rules entered.2.1 (entered.1.withChain a.outcome.1) settled
    t = s.1.placed rules.config seed ∧ r = s.2

/-- A chain that is asked to split is live, with its number and its cursor. -/
theorem Asks.place (h : Asks rules roster b block t r seed) :
    t.chain.place = b.chain.place ∧ b.chain.retired = false := by
  obtain ⟨parent, c, before, x, after, a, settled, later, -, hreceive, ha, -, rfl, -⟩ := h
  refine ⟨?_, ?_⟩
  · rw [placed_place, settleAll_place, chain_withChain, Chain.place_outcome ha, applyAll_place,
      chain_withChain, Chain.place_receive hreceive]
  · have hreceived := Chain.received hreceive
    generalize before ++ x :: after = xs at hreceived
    cases hreceived with
    | released hretired => exact hretired

/-! ### The numbers that are taken -/

theorem spawn_takes (rules : Rules) (roster : Roster) (seed : Block) (b : Branch) :
    (b.spawn rules roster seed).2 = roster ∨
      roster.Takes rules.config b.chain.id (b.spawn rules roster seed).2 := by
  cases b with
  | split => exact Or.inl rfl
  | leaf c =>
    by_cases hdepth : rules.config.tree.maxDepth ≤ c.id.depth
    · exact Or.inl (by rw [spawn, if_pos hdepth])
    · rcases spawn_eq rules roster seed (leaf c) with hsame | ⟨d, hd, hsplits⟩
      · exact Or.inl (congrArg Prod.snd hsame)
      · obtain ⟨left, right, _, _, hleft, hright, -, -, hroster, -⟩ := hsplits
        cases hd
        exact Or.inr ⟨Nat.not_le.1 hdepth, left, right, hleft, hright, hroster⟩

section Closed

variable {P : Roster → Prop} {id : ChainId}
  (hP : ∀ {r r' : Roster}, r.Takes rules.config id r' → P r → P r')
include hP

theorem settle_closed (hid : b.chain.id = id) (h : P roster) :
    P (b.settle rules roster block).2 := by
  rw [settle_eq]
  rcases spawn_takes rules roster block (b.placed rules.config block) with hsame | htakes
  · rw [hsame]
    exact h
  · have hplaced : (b.placed rules.config block).chain.id = id :=
      (congrArg Prod.fst (placed_place rules.config block b)).trans hid
    exact hP (hplaced ▸ htakes) h

theorem settleAll_closed : ∀ (blocks : List Block) {roster : Roster} {b : Branch},
    b.chain.id = id → P roster → P (settleAll rules roster b blocks).2
  | [], _, _, _, h => h
  | block :: rest, roster, b, hid, h =>
    settleAll_closed rest ((settle_settled rules roster b block).id.trans hid)
      (settle_closed hP hid h)

theorem apply_closed (hid : b.chain.id = id) (h : P roster) : P (b.apply rules roster x).2.1 := by
  cases ha : b.chain.apply x with
  | none =>
    rw [apply_of_none ha]
    exact h
  | some a =>
    rw [apply_of_some ha]
    refine settleAll_closed hP a.outcome.2 ?_ h
    rw [chain_withChain]
    exact (congrArg Prod.fst (Chain.place_outcome ha)).trans hid

theorem applyAll_closed : ∀ (xs : List Block) {roster : Roster} {b : Branch},
    b.chain.id = id → P roster → P (applyAll rules roster b xs).2.1
  | [], _, _, _, h => h
  | x :: rest, roster, b, hid, h =>
    applyAll_closed rest ((congrArg Prod.fst (apply_place rules roster b x)).trans hid)
      (apply_closed hP hid h)

/-- What every split of a chain keeps, a submission to the chain keeps. -/
theorem submit_closed (hid : b.chain.id = id) (h : P roster) :
    P (b.submit rules roster block).roster := by
  have hsubmitted := b.submitted rules roster block
  generalize b.submit rules roster block = s at hsubmitted ⊢
  cases hsubmitted with
  | screened => exact h
  | settled => exact h
  | @entered parent c xs hscreen hreceive =>
    refine applyAll_closed hP xs ?_ h
    rw [chain_withChain]
    exact (congrArg Prod.fst (Chain.place_receive hreceive)).trans hid

end Closed

end Branch

end ShardLedger
