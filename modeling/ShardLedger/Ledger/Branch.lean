import ShardLedger.Chain.Submit

/-!
# Branches

The live chains of a ledger form a binary tree: a chain is a leaf until it splits, and then has
two children. A branch is a chain together with everything below it.

A block that a chain finalizes reaches down its branch: its content is removed from every store
below, and it may seed the two children of a split. The numbers of the children are reserved in
the roster, which bounds how many chains there are.

- `Branch.submit`: submit a block to the topmost chain of a branch.
- `Branch.target`: the chain that an item is routed to.
- `Branch.merge?`: fold two leaves back into their parent.
-/

namespace ShardLedger

/-- The chain numbers in use. -/
structure Roster where
  /-- The chains that are registered, are yet to be registered, or are still to be removed. -/
  occupied : List ChainId
  /-- The chains that are yet to be registered, oldest first. -/
  spawned : List ChainId
deriving DecidableEq

/-- Reserve both children of a split. Nothing is reserved where that would make more chains than
allowed, or where former children of the same numbers are still to be removed. -/
def Roster.reserve? (r : Roster) (maxChains : Nat) (left right : ChainId) : Option Roster :=
  if maxChains < r.occupied.length + 2 ∨ left ∈ r.occupied ∨ right ∈ r.occupied then none
  else some { occupied := r.occupied ++ [left, right], spawned := r.spawned ++ [left, right] }

/-- Give a number free. -/
def Roster.release (r : Roster) (c : ChainId) : Roster :=
  { r with occupied := r.occupied.erase c }

/-- A live chain and all that it was split into. -/
inductive Branch where
  | leaf (chain : Chain)
  | split (chain : Chain) (left right : Branch)

namespace Branch

/-- The topmost chain. -/
def chain : Branch → Chain
  | leaf c => c
  | split c _ _ => c

/-- Replace the topmost chain. -/
def withChain (c : Chain) : Branch → Branch
  | leaf _ => leaf c
  | split _ l r => split c l r

/-- The children, if the topmost chain is split. -/
def children? : Branch → Option (Branch × Branch)
  | leaf _ => none
  | split _ l r => some (l, r)

/-- Whether the topmost chain is split. -/
def isSplit (b : Branch) : Bool := b.children?.isSome

/-- All chains, from the top, left before right. -/
def chains : Branch → List Chain
  | leaf c => [c]
  | split c l r => c :: (l.chains ++ r.chains)

/-- The number of chains that are split. -/
def splits : Branch → Nat
  | leaf _ => 0
  | split _ l r => l.splits + r.splits + 1

/-- The branch at the end of a path. -/
def at? : Branch → List Side → Option Branch
  | b, [] => some b
  | leaf _, _ :: _ => none
  | split _ l _, .left :: path => l.at? path
  | split _ _ r, .right :: path => r.at? path

/-- Replace the branch at the end of a path, if the path is there. -/
def replace (new : Branch) : List Side → Branch → Branch
  | [], _ => new
  | _ :: _, leaf c => leaf c
  | .left :: path, split c l r => split c (replace new path l) r
  | .right :: path, split c l r => split c l (replace new path r)

/-- Change every chain. -/
def map (f : Chain → Chain) : Branch → Branch
  | leaf c => leaf (f c)
  | split c l r => split (f c) (l.map f) (r.map f)

/-- The lowest rank that a block finalized in this branch can still carry. A retired chain
finalizes nothing more. -/
def floor : Branch → UInt64
  | leaf c => if c.retired then topWord else c.nextRank
  | split c l r =>
    if c.retired then topWord
    else
      let below := if r.floor < l.floor then r.floor else l.floor
      if below < c.nextRank then below else c.nextRank

/-- A snapshot of the topmost chain. -/
def stats (b : Branch) : ChainStats := b.chain.stats b.isSplit

/-! ### Splitting and merging -/

/-- Split a leaf into two children seeded with a block, if the load policy asks for it and there
is room. The children take the content that the cursor sends to them. -/
def spawn (rules : Rules) (roster : Roster) (seed : Block) (b : Branch) : Branch × Roster :=
  match b with
  | split .. => (b, roster)
  | leaf c =>
    if rules.config.tree.maxDepth ≤ c.id.depth then (b, roster)
    else if !rules.load.shouldSpawn c.load then (b, roster)
    else match c.id.child? .left, c.id.child? .right, c.cursor.deeper,
        Chain.newGraph rules.config seed.id with
      | some left, some right, .ok cursor, .ok graph =>
        match roster.reserve? rules.config.tree.maxChains left right with
        | none => (b, roster)
        | some roster =>
          let parts := c.content.separate c.cursor
          (split { c with content := parts.center }
             (leaf (Chain.start left seed graph parts.left cursor))
             (leaf (Chain.start right seed graph parts.right cursor)), roster)
      | _, _, _, _ => (b, roster)

/-- The loads of a split chain and its children, where both children are leaves. -/
def mergeLoads? : Branch → Option (ChainLoad × ChainLoad × ChainLoad)
  | split c (leaf l) (leaf r) => some (c.load, l.load, r.load)
  | _ => none

/-- Fold two leaves back into their parent: their content moves up, and they retire. The retired
children are returned beside the merged branch. -/
def merge? : Branch → Option (Branch × Chain × Chain)
  | split c (leaf l) (leaf r) =>
    some (leaf { c with content := (c.content.absorb [l.content, r.content]).1 },
          { l.retire with content := .empty }, { r.retire with content := .empty })
  | _ => none

/-! ### Submitting -/

/-- A block of the topmost chain is finalized: its content leaves the whole branch, it is put in
line for the global order, and it may seed a split. -/
def settle (rules : Rules) (roster : Roster) (block : Block) (b : Branch) : Branch × Roster :=
  let b := b.map (·.consume block.contentIds)
  (b.withChain (b.chain.enqueue rules.config block)).spawn rules roster block

/-- Blocks of the topmost chain are finalized, oldest first. -/
def settleAll (rules : Rules) (roster : Roster) (b : Branch) : List Block → Branch × Roster
  | [] => (b, roster)
  | block :: rest =>
    let (b, roster) := b.settle rules roster block
    settleAll rules roster b rest

/-- A released block enters the topmost chain, with all that this entails. The events tell
whether it did. -/
def apply (rules : Rules) (roster : Roster) (b : Branch) (block : Block) :
    Branch × Roster × List Event :=
  match b.chain.apply block with
  | none => (b, roster, [])
  | some a =>
    let id := b.chain.id
    let entered := Event.applied id block.id a.weight
    if a.step.isEmpty then (b.withChain a.chain, roster, [entered])
    else
      let (c, finalized) := a.chain.collect a.step
      let (b, roster) := settleAll rules roster (b.withChain c) finalized
      (b, roster, [entered, .finalized id a.step.finalized a.step.pruned])

/-- Released blocks enter in order. The blocks that did are counted. -/
def applyAll (rules : Rules) (roster : Roster) (b : Branch) :
    List Block → Branch × Roster × Nat × List Event
  | [] => (b, roster, 0, [])
  | block :: rest =>
    let (b, roster, events) := b.apply rules roster block
    let (b, roster, count, later) := applyAll rules roster b rest
    (b, roster, if events.isEmpty then count else count + 1, events ++ later)

/-- The result of submitting a block. -/
structure Submission where
  branch : Branch
  roster : Roster
  outcome : Outcome
  events : List Event

/-- Submit a block to the topmost chain. -/
def submit (rules : Rules) (roster : Roster) (b : Branch) (block : Block) : Submission :=
  match Chain.screen rules b.chain.id block with
  | .error reason => ⟨b, roster, .rejected reason, []⟩
  | .ok parent =>
    match b.chain.receive block parent with
    | (c, .done outcome) => ⟨b.withChain c, roster, outcome, []⟩
    | (c, .released blocks) =>
      let (b, roster, count, events) := applyAll rules roster (b.withChain c) blocks
      ⟨b, roster, .applied count, events⟩

/-! ### Content -/

/-- The path to the chain that an item is routed to. -/
def target (item : ContentItem) : Branch → List Side
  | leaf _ => []
  | split c l r =>
    match item.route c.cursor with
    | .left => .left :: l.target item
    | .right => .right :: r.target item
    | .center => []

end Branch

end ShardLedger
