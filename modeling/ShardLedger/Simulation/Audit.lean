import ShardLedger.Simulation.Run

/-!
# Auditing a run

What must hold of the outcome of a run, whatever happened in it. Each check lists its violations;
an audit passes if there are none.

1. No block stands twice in the global order.
2. Ranks never decrease along the global order.
3. Blocks in the global order are finalized, and none is finalized twice.
4. A finalized block extends a finalized block or the root genesis.
5. A submitted item that was not invalidated is pending in one chain or carried by a finalized
   block, and nothing else is pending.
6. Nothing below the final bar is left without a place in the global order.
7. A live chain other than the root is linked from a live parent.
-/

namespace ShardLedger

/-- A way in which the outcome of a run is wrong. -/
inductive Violation where
  | duplicateLinearized (block : BlockId) (firstSeq againSeq : Nat)
  | rankRegression (seq : Nat) (previous current : UInt64)
  | notFinalized (block : BlockId)
  | finalizedTwice (block : BlockId)
  | detachedFinalized (block : BlockId) (parent : Option BlockId)
  | contentLost (item : ContentId)
  | contentInManyStores (item : ContentId) (chains : List ChainId)
  | contentNotConsumed (item : ContentId) (chain : ChainId)
  | invalidatedStillPending (item : ContentId) (chain : ChainId)
  | undeliveredBelowBar (chain : ChainId) (rank bar : UInt64)
  | detachedChain (chain : ChainId)
deriving DecidableEq

/-- The violation in words. -/
def Violation.message : Violation → String
  | duplicateLinearized block firstSeq againSeq =>
    s!"DuplicateLinearized: block {block.short} at seq {firstSeq} and again at seq {againSeq}"
  | rankRegression seq previous current =>
    s!"RankRegression: seq {seq} has rank {current} after rank {previous}"
  | notFinalized block =>
    s!"NotFinalized: block {block.short} was linearized without finalizing"
  | finalizedTwice block => s!"FinalizedTwice: block {block.short} finalized more than once"
  | detachedFinalized block (some parent) =>
    s!"DetachedFinalized: block {block.short} finalized on unfinalized parent {parent.short}"
  | detachedFinalized block none => s!"DetachedFinalized: block {block.short} has no parent"
  | contentLost item => s!"ContentLost: item {item.short} is neither pending nor finalized"
  | contentInManyStores item chains =>
    let names := ", ".intercalate (chains.map ChainId.describe)
    s!"ContentInManyStores: item {item.short} pending in chains [{names}]"
  | contentNotConsumed item chain =>
    s!"ContentNotConsumed: finalized item {item.short} still pending in chain {chain.number}"
  | invalidatedStillPending item chain =>
    s!"InvalidatedStillPending: item {item.short} still pending in chain {chain.number}"
  | undeliveredBelowBar chain rank bar =>
    s!"UndeliveredBelowBar: chain {chain.number} holds rank {rank} below bar {bar}"
  | detachedChain chain => s!"DetachedChain: chain {chain.number} is not linked from a live parent"

namespace Audit

/-- Go through the global order, `seq` blocks of which are seen already. -/
def duplicates (seen : BlockMap Nat) (seq : Nat) : List Block → List Violation
  | [] => []
  | block :: rest =>
    match seen[block.id]? with
    | some first => .duplicateLinearized block.id first seq :: duplicates seen (seq + 1) rest
    | none => duplicates (seen.insert block.id seq) (seq + 1) rest

/-- No block stands twice in the global order. -/
def exactlyOnce (r : RunResult) : List Violation := duplicates ∅ 0 r.linearized

/-- Go through the global order after its block number `seq`, ranked `previous`. -/
def regressions (seq : Nat) (previous : UInt64) : List Block → List Violation
  | [] => []
  | block :: rest =>
    let later := regressions (seq + 1) block.rank.current rest
    if block.rank.current < previous then
      .rankRegression (seq + 1) previous block.rank.current :: later
    else later

/-- Ranks never decrease along the global order. -/
def rankOrder (r : RunResult) : List Violation :=
  match r.linearized with
  | [] => []
  | block :: rest => regressions 0 block.rank.current rest

/-- The blocks that were reported finalized. -/
def finalizedSet (r : RunResult) : BlockSet := (∅ : BlockSet).insertMany (r.finalized.map (·.2))

/-- Go through the finalized blocks. -/
def repeated (seen : BlockSet) : List BlockId → List Violation
  | [] => []
  | id :: rest =>
    if seen.contains id then .finalizedTwice id :: repeated seen rest
    else repeated (seen.insert id) rest

/-- Blocks in the global order are finalized, and none is finalized twice. -/
def finalizedOnly (r : RunResult) : List Violation :=
  let finalized := finalizedSet r
  repeated ∅ (r.finalized.map (·.2))
    ++ (r.linearized.filter fun block => !finalized.contains block.id).map fun block =>
      .notFinalized block.id

/-- A finalized block extends a finalized block or the root genesis. -/
def ancestry (r : RunResult) : List Violation :=
  let finalized := finalizedSet r
  r.finalized.filterMap fun (_, id) =>
    match r.blocks[id]?.bind Block.parent? with
    | none => some (.detachedFinalized id none)
    | some parent =>
      if parent = r.rootGenesis || finalized.contains parent then none
      else some (.detachedFinalized id (some parent))

/-- The content of the finalized blocks that are known. -/
def carried (r : RunResult) : ContentSet :=
  r.finalized.foldl (fun items (_, id) =>
    match r.blocks[id]? with
    | some block => items.insertMany block.contentIds
    | none => items) ∅

/-- The chains in which an item is pending. -/
def holders (r : RunResult) (item : ContentId) : List ChainId :=
  (r.chains.filter fun c => c.pending.contains item).map (·.id)

/-- Every pending item, in order and once. -/
def pendingItems (r : RunResult) : ContentSet :=
  r.chains.foldl (fun items c => items.insertMany c.pending) ∅

/-- What is wrong with a pending item. -/
def pendingViolations (r : RunResult) (carried : ContentSet) (item : ContentId) :
    List Violation :=
  match holders r item with
  | [] => []
  | chain :: others =>
    (if others.isEmpty then [] else [.contentInManyStores item (chain :: others)])
      ++ (if carried.contains item then [.contentNotConsumed item chain] else [])
      ++ (if r.invalidated.contains item then [.invalidatedStillPending item chain] else [])

/-- Items are pending in one chain or carried by a finalized block, unless invalidated. -/
def content (r : RunResult) : List Violation :=
  let carried := carried r
  let pending := pendingItems r
  pending.toList.flatMap (pendingViolations r carried)
    ++ (r.submitted.toList.filter fun item =>
      !r.invalidated.contains item && !pending.contains item && !carried.contains item).map
      .contentLost

/-- Nothing below the final bar is left without a place in the global order. -/
def progress (r : RunResult) : List Violation :=
  r.chains.filterMap fun c =>
    match c.undeliveredHead with
    | none => none
    | some rank =>
      if rank < r.finalBar then some (.undeliveredBelowBar c.id rank r.finalBar) else none

/-- The last chain of a number. -/
def chain? (r : RunResult) (id : ChainId) : Option ChainSnapshot :=
  r.chains.reverse.find? (·.id = id)

/-- Whether a chain is linked from a live parent. -/
def isLinked (r : RunResult) (id : ChainId) : Bool :=
  match id.parent?.bind (chain? r) with
  | none => false
  | some parent =>
    !parent.retired && match parent.children with
      | some (left, right) => left = id || right = id
      | none => false

/-- A live chain other than the root is linked from a live parent. -/
def shape (r : RunResult) : List Violation :=
  (r.chains.filter fun c => !c.retired && !c.id.isRoot && !isLinked r c.id).map fun c =>
    .detachedChain c.id

/-- All checks. -/
def all (r : RunResult) : List Violation :=
  exactlyOnce r ++ rankOrder r ++ finalizedOnly r ++ ancestry r ++ content r ++ progress r
    ++ shape r

end Audit

end ShardLedger
