import ShardLedger.Block.Basic
import ShardLedger.Word

/-!
# The global order

Every chain hands its finalized blocks on in a queue, and knows a floor: the lowest rank that it
may still finalize. The least floor is the bar. A block ranked below the bar can be preceded by
no block that is still to come, so it may be placed in the global order.

A pass places all blocks below the bar, the lowest head first; among equal ranks the source that
stands first goes first.

- `confirmBar`: the bar of some sources.
- `Linearizer.run`: one pass.
-/

namespace ShardLedger

/-- A chain as the global order sees it. -/
structure Source where
  chain : ChainId
  /-- The lowest rank that the source may still finalize. -/
  floor : UInt64
  /-- The finalized blocks that are not placed yet, oldest first. -/
  queue : List Block
deriving DecidableEq

/-- The rank of the oldest block that is not placed yet. -/
def Source.headRank? (s : Source) : Option UInt64 := s.queue.head?.map (·.rank.current)

/-- The least floor; without sources there is nothing to wait for. -/
def confirmBar (sources : List Source) : UInt64 :=
  sources.foldl (fun bar s => if s.floor < bar then s.floor else bar) topWord

/-- The position and rank of the lowest head below the bar, the first among equals. -/
def lowestHead? (bar : UInt64) : List Source → Option (Nat × UInt64)
  | [] => none
  | s :: rest =>
    let later := (lowestHead? bar rest).map fun (i, rank) => (i + 1, rank)
    match s.headRank? with
    | none => later
    | some rank =>
      if bar ≤ rank then later
      else match later with
        | none => some (0, rank)
        | some (i, other) => if other < rank then some (i, other) else some (0, rank)

/-- Take the oldest block of the source at a position. -/
def takeHead? : Nat → List Source → Option ((ChainId × Block) × List Source)
  | _, [] => none
  | 0, s :: rest =>
    match s.queue with
    | [] => none
    | block :: queue => some ((s.chain, block), { s with queue } :: rest)
  | i + 1, s :: rest => (takeHead? i rest).map fun (taken, rest) => (taken, s :: rest)

/-- The number of blocks that are not placed yet. -/
def queuedCount (sources : List Source) : Nat := total (sources.map (·.queue.length))

theorem queuedCount_takeHead? {i : Nat} {sources left : List Source} {taken : ChainId × Block}
    (h : takeHead? i sources = some (taken, left)) :
    queuedCount left + 1 = queuedCount sources := by
  induction sources generalizing i left with
  | nil => cases i <;> simp [takeHead?] at h
  | cons s rest ih =>
    cases i with
    | zero =>
      cases hq : s.queue with
      | nil => simp [takeHead?, hq] at h
      | cons block queue =>
        simp only [takeHead?, hq, Option.some.injEq, Prod.mk.injEq] at h
        rw [← h.2]
        simp only [queuedCount, List.map_cons, total, hq, List.length_cons]
        omega
    | succ i =>
      simp only [takeHead?, Option.map_eq_some_iff, Prod.mk.injEq] at h
      obtain ⟨⟨t, l⟩, hl, rfl, rfl⟩ := h
      have := ih hl
      simp only [queuedCount, List.map_cons, total] at this ⊢
      omega

/-- The lowest head below the bar and what is left, if there is such a head. -/
def takeLowest? (bar : UInt64) (sources : List Source) :
    Option ((ChainId × Block) × List Source) := do
  let (i, _) ← lowestHead? bar sources
  takeHead? i sources

/-- Take every block that can be reached below the bar, lowest head first. -/
def drainBelow (bar : UInt64) (sources : List Source) :
    List (ChainId × Block) × List Source :=
  match _h : takeLowest? bar sources with
  | none => ([], sources)
  | some (taken, left) =>
    let (later, left) := drainBelow bar left
    (taken :: later, left)
termination_by queuedCount sources
decreasing_by
  unfold takeLowest? at _h
  cases hl : lowestHead? bar sources with
  | none => simp [hl] at _h
  | some found =>
    simp only [hl, bind, Option.bind] at _h
    have := queuedCount_takeHead? _h
    omega

/-- A block in its place in the global order. -/
structure Linearized where
  seq : Nat
  chain : ChainId
  block : Block
deriving DecidableEq

/-- How far the global order has come. -/
structure Linearizer where
  /-- The number of blocks placed so far. -/
  delivered : Nat
  /-- The bar of the last pass. -/
  lastBar : UInt64
deriving DecidableEq

namespace Linearizer

/-- Nothing is placed yet. -/
def start : Linearizer := ⟨0, 0⟩

/-- Place every block below the bar of the sources, and return what is left of the sources.
Placing blocks moves no floor, so one bar serves the whole pass. -/
def run (l : Linearizer) (sources : List Source) :
    Linearizer × List Linearized × List Source :=
  let bar := confirmBar sources
  let (taken, left) := drainBelow bar sources
  (⟨l.delivered + taken.length, bar⟩,
   taken.zipIdx.map fun ((chain, block), i) => ⟨l.delivered + i, chain, block⟩,
   left)

end Linearizer

end ShardLedger
