/-!
# Chain numbers

The chains of a tree are numbered as a binary heap: the root is 1 and the children of chain `n`
are `2n` on the left and `2n + 1` on the right. The number alone tells where a chain stands: its
binary digits below the leading one, read from the top, are the turns from the root.

- `ChainId`: a number that fits in 64 bits.
- `ChainId.ofNat?`: zero is the number of no chain, though a block may name it.
- `ChainId.child?`, `ChainId.parent?`, `ChainId.depth`, `ChainId.path`.
-/

namespace ShardLedger

/-- One of the two children of a split chain. -/
inductive Side where
  | left
  | right
deriving DecidableEq

/-- A heap number. -/
structure ChainId where
  number : Nat
  lt : number < UInt64.size
deriving DecidableEq

namespace ChainId

/-- The chain that is never split off nor merged away. -/
def root : ChainId := ⟨1, by decide⟩

instance : Inhabited ChainId := ⟨root⟩

/-- The chain of a number; zero is not a chain. -/
def ofNat? (n : Nat) : Option ChainId :=
  if h : 0 < n ∧ n < UInt64.size then some ⟨n, h.2⟩ else none

/-- The number that a block names, which may be zero. -/
def ofWord (w : UInt64) : ChainId := ⟨w.toNat, w.toNat_lt⟩

/-- The root is chain 1. -/
def isRoot (c : ChainId) : Bool := c.number == 1

/-- The number of splits between the root and the chain. -/
def depth (c : ChainId) : Nat := c.number.log2

/-- The chain that the chain was split off from; the root has none. -/
def parent? (c : ChainId) : Option ChainId :=
  if 1 < c.number then
    some ⟨c.number / 2, Nat.lt_of_le_of_lt (Nat.div_le_self ..) c.lt⟩
  else none

/-- A child of the chain, or nothing where the numbers are used up. -/
def child? (c : ChainId) : Side → Option ChainId
  | .left => if h : 2 * c.number < UInt64.size then some ⟨2 * c.number, h⟩ else none
  | .right =>
    if h : 2 * c.number < UInt64.size then
      some ⟨2 * c.number + 1, by simp only [UInt64.size] at h ⊢; omega⟩
    else none

/-- The turns from the root to heap number `n`. -/
def turns (n : Nat) : List Side :=
  if h : n ≤ 1 then [] else turns (n / 2) ++ [if n % 2 = 0 then .left else .right]
termination_by n
decreasing_by omega

/-- The turns that lead from the root to the chain. -/
def path (c : ChainId) : List Side := turns c.number

/-- The number in decimal. -/
def text (c : ChainId) : String := toString c.number

/-- The number with its kind. -/
def describe (c : ChainId) : String := s!"ChainId({c.number})"

end ChainId

end ShardLedger
