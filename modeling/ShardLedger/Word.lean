/-!
# 64-bit words

Sums of weights, ranks and rounds, and of the sizes in a batch, stop at the largest 64-bit word.
The sum of the sizes that wait on a chain and the number of chains that a merge asks for wrap.

- `addCapped`, `addWord`: the sum of two numbers and of two words that stops.
- `total`: the sum of counts, which has no bound.
-/

namespace ShardLedger

/-- The largest number that a 64-bit word holds. -/
def maxWord : Nat := UInt64.size - 1

/-- Addition that stops at the largest 64-bit word. -/
def addCapped (a b : Nat) : Nat := min (a + b) maxWord

/-- The sum of some counts. -/
def total : List Nat → Nat
  | [] => 0
  | n :: rest => n + total rest

/-- A word as eight bytes, least significant first. -/
def wordBytes (w : UInt64) : List UInt8 :=
  (List.range 8).map fun i => UInt8.ofNat (w.toNat >>> (8 * i))

/-- The largest 64-bit word. -/
def topWord : UInt64 := UInt64.ofNat maxWord

/-- Addition of words that stops at the largest one. -/
def addWord (a b : UInt64) : UInt64 := UInt64.ofNat (addCapped a.toNat b.toNat)

end ShardLedger
