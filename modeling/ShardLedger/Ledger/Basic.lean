import ShardLedger.Ledger.Branch
import ShardLedger.Ledger.Linearizer

/-!
# Ledgers

A ledger keeps a tree of chains and one global order over all that they finalize. Blocks and
content are submitted to the chains of the tree; changes to the tree and to the global order
happen in passes.

The live chains form a `Branch`. A merged chain leaves it, but stays registered until its last
finalized block has found its place in the global order.

- `Ledger.create`, `Ledger.submitBlock`, `Ledger.submitContent`, `Ledger.invalidate`.
- `Ledger.proposal`: what the next block of a registered chain should extend and carry.
- `Ledger.branch?`: a chain of the ledger, with what it was split into.
-/

namespace ShardLedger

/-- A tree of chains with one global order. -/
structure Ledger where
  /-- The live chains. -/
  root : Branch
  /-- The merged chains that are not removed yet. -/
  retired : List Chain
  /-- The chains that take part in passes, oldest first. -/
  registered : List ChainId
  roster : Roster
  /-- The merged chains to be removed once they are drained, oldest first. -/
  leaving : List ChainId
  linearizer : Linearizer

namespace Ledger

/-- A ledger with the root chain alone. -/
def create (rules : Rules) : Except LedgerError Ledger := do
  rules.config.validate
  let root ← Chain.root rules.config
  return { root := .leaf root, retired := [], registered := [.root]
           roster := { occupied := [.root], spawned := [] }
           leaving := [], linearizer := .start }

/-! ### Finding chains -/

/-- A live chain with what it was split into. -/
def live? (l : Ledger) (id : ChainId) : Option Branch := l.root.at? id.path

/-- A chain of the ledger, live or retired, with what it was split into. -/
def branch? (l : Ledger) (id : ChainId) : Option Branch :=
  match l.live? id with
  | some b => some b
  | none => (l.retired.find? (·.id = id)).map .leaf

/-- Replace a chain of the ledger, with what it was split into. -/
def replace (l : Ledger) (id : ChainId) (b : Branch) : Ledger :=
  match l.live? id with
  | some _ => { l with root := Branch.replace b id.path l.root }
  | none => { l with retired := l.retired.map fun c => if c.id = id then b.chain else c }

/-- Change a chain of the ledger by itself. -/
def update (l : Ledger) (id : ChainId) (f : Chain → Chain) : Ledger :=
  match l.branch? id with
  | some b => l.replace id (b.withChain (f b.chain))
  | none => l

/-- A registered chain. -/
def registered? (l : Ledger) (id : ChainId) : Option Branch :=
  if id ∈ l.registered then l.branch? id else none

/-- A registered chain, or one that is yet to be registered. -/
def lookup? (l : Ledger) (id : ChainId) : Option Branch :=
  if id ∈ l.registered ∨ id ∈ l.roster.spawned then l.branch? id else none

/-- The registered chains, oldest first. -/
def registeredBranches (l : Ledger) : List Branch := l.registered.filterMap l.branch?

/-- The registered chains that take blocks and that the rules offer to proposers. -/
def available (l : Ledger) (rules : Rules) : List ChainId :=
  (l.registeredBranches.filter fun b => !b.chain.retired && rules.offers b.stats).map (·.chain.id)

/-! ### Blocks -/

/-- Submit a block to a chain of the ledger. -/
def submitTo (l : Ledger) (rules : Rules) (id : ChainId) (block : Block) :
    Ledger × Outcome × List Event :=
  match l.branch? id with
  | none => (l, .rejected (.unknownChain id), [])
  | some b =>
    let s := b.submit rules l.roster block
    ({ l with roster := s.roster }.replace id s.branch, s.outcome, s.events)

/-- Submit a block to the chain that it names. -/
def submitBlock (l : Ledger) (rules : Rules) (block : Block) :
    Ledger × Outcome × List Event :=
  match l.lookup? block.chain with
  | none => (l, .rejected (.unknownChain block.chain), [])
  | some _ => l.submitTo rules block.chain block

/-- What the next block of a registered chain should extend and carry. -/
def proposal (l : Ledger) (rules : Rules) (id : ChainId) (maxSize : Nat) :
    Except LedgerError Proposal :=
  match l.registered? id with
  | some b => .ok (b.chain.proposal rules.config maxSize)
  | none => .error (.chainNotFound id)

/-- Give up a waiting block of a chain, and all that waits behind it. -/
def discardPending (l : Ledger) (chain : ChainId) (id : BlockId) : Ledger × List BlockId :=
  match l.branch? chain with
  | none => (l, [])
  | some b =>
    let (c, dropped) := b.chain.discardPending id
    (l.replace chain (b.withChain c), dropped)

/-! ### Content -/

/-- Store an item in the deepest chain that it is routed to. The chain is returned, and whether
the item was new there. -/
def submitContent (l : Ledger) (item : ContentItem) : Ledger × ChainId × Bool :=
  let path := l.root.target item
  match l.root.at? path with
  | none => (l, .root, false)
  | some b =>
    let (content, new) := b.chain.content.submit item
    let b := b.withChain { b.chain with content }
    ({ l with root := Branch.replace b path l.root }, b.chain.id, new)

/-- Remove an item from the first chain that holds it: registered chains are searched first, then
those yet to be registered. -/
def invalidate (l : Ledger) (id : ContentId) : Ledger × Option ChainId :=
  let holds (chain : ChainId) : Bool :=
    match l.branch? chain with
    | some b => b.chain.content.contains id
    | none => false
  match (l.registered ++ l.roster.spawned).find? holds with
  | none => (l, none)
  | some chain =>
    (l.update chain fun c => { c with content := (c.content.delete id).1 }, some chain)

/-! ### The global order -/

/-- A chain as the global order sees it. -/
def source (b : Branch) : Source :=
  { chain := b.chain.id, floor := b.floor, queue := b.chain.undelivered }

/-- The registered chains as the global order sees them. -/
def sources (l : Ledger) : List Source := l.registeredBranches.map source

/-- The bar below which no registered chain can finalize anything more. -/
def confirmBar (l : Ledger) : UInt64 := ShardLedger.confirmBar l.sources

end Ledger

end ShardLedger
