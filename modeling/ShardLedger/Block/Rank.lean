/-!
# Ranks

A block carries two ranks, both 64-bit words: `current` places it in the order over all chains,
and `next` is the lowest rank that the block after it on its chain may carry.
-/

namespace ShardLedger

/-- The rank pair of a block. -/
structure Rank where
  current : UInt64
  next : UInt64
deriving DecidableEq, Inhabited

namespace Rank

/-- A rank pair may not point backwards. -/
def isOrdered (r : Rank) : Bool := r.current ≤ r.next

/-- Rank pairs compare by `current` first. -/
instance : Ord Rank := ⟨compareLex (compareOn Rank.current) (compareOn Rank.next)⟩

/-- The pair with the names of its parts. -/
def describe (r : Rank) : String :=
  s!"Rank \x7b current: {r.current}, next: {r.next} \x7d"

end Rank

end ShardLedger
