import ShardLedger.Block.Basic
import ShardLedger.Reach

/-!
# Blocks that wait for others

A block that names unknown blocks is listed under each of them. When a block becomes known, the
blocks that wait for nothing else are released with it, and then those that waited for these;
when a block is given up, everything that waits behind it is given up too.

- `Backlog.enlist`: list a block under the blocks that it misses.
- `Backlog.release`: a block and all that it sets free, parents before children.
- `Backlog.discard`: drop a block and all that waits behind it.
-/

namespace ShardLedger

/-- The waiting blocks, listed under each block that they miss. -/
structure Backlog where
  waiting : BlockMap (List Block)
deriving DecidableEq

namespace Backlog

/-- Nothing waits. -/
def empty : Backlog := ⟨∅⟩

instance : Inhabited Backlog := ⟨empty⟩

/-- Whether some block waits for this one. -/
def isMissing (q : Backlog) (id : BlockId) : Bool := q.waiting.contains id

/-- The number of blocks that others wait for. -/
def missingCount (q : Backlog) : Nat := q.waiting.size

/-- List a block under one that it misses, unless it is there already. -/
def enlistUnder (q : Backlog) (block : Block) (missing : BlockId) : Backlog :=
  let waiters := q.waiting[missing]?.getD []
  if waiters.any (·.id = block.id) then q
  else ⟨q.waiting.insert missing (waiters ++ [block])⟩

/-- List a block under each of the blocks that it misses. -/
def enlist (q : Backlog) (block : Block) (missing : List BlockId) : Backlog :=
  missing.foldl (fun q id => q.enlistUnder block id) q

/-- Whether nothing that a block names is waited for. -/
def satisfied (q : Backlog) (block : Block) : Bool :=
  block.previous.all fun id => !q.isMissing id

/-- The blocks of a list that are satisfied and not yet released, and the released ones
thereafter. -/
def setFree (q : Backlog) (released : BlockSet) : List Block → List Block × BlockSet
  | [] => ([], released)
  | block :: rest =>
    if q.satisfied block && !released.contains block.id then
      let (free, released) := q.setFree (released.insert block.id) rest
      (block :: free, released)
    else q.setFree released rest

/-- The part of a stack from the first block on that something waits for. -/
def awaited (q : Backlog) (stack : List BlockId) : List BlockId :=
  stack.dropWhile fun id => !q.isMissing id

theorem size_erase_lt_of_awaited {q : Backlog} {stack rest : List BlockId} {id : BlockId}
    (h : q.awaited stack = id :: rest) : (q.waiting.erase id).size < q.waiting.size := by
  have hid : q.isMissing id = true := by
    have := List.head_dropWhile_not (p := fun id => !q.isMissing id) (l := stack)
      (by rw [show stack.dropWhile (fun id => !q.isMissing id) = id :: rest from h]; simp)
    simpa [show stack.dropWhile (fun id => !q.isMissing id) = id :: rest from h] using this
  rw [isMissing, Std.ExtTreeMap.contains_eq_isSome_getElem?, Option.isSome_iff_exists] at hid
  obtain ⟨waiters, hw⟩ := hid
  have := size_erase_add_one hw
  omega

/-- Resolve the blocks of a stack, topmost first. The blocks that a resolved one sets free are
put on the stack in order, so that the last of them is resolved next. -/
def releaseAll (q : Backlog) (released : BlockSet) (stack : List BlockId) :
    Backlog × List Block :=
  match _h : q.awaited stack with
  | [] => (q, [])
  | id :: rest =>
    let waiters := q.waiting[id]?.getD []
    let q' : Backlog := ⟨q.waiting.erase id⟩
    let (free, released) := q'.setFree released waiters
    let (q'', later) := q'.releaseAll released ((free.map (·.id)).reverse ++ rest)
    (q'', free ++ later)
termination_by q.waiting.size
decreasing_by exact size_erase_lt_of_awaited _h

/-- A block that became known, followed by every block that it sets free, directly or through
others. -/
def release (q : Backlog) (block : Block) : Backlog × List Block :=
  let (q, free) := q.releaseAll ((∅ : BlockSet).insert block.id) [block.id]
  (q, block :: free)

/-- Strike a block from the list under one that it names. A list left empty is dropped. -/
def strikeUnder (q : Backlog) (id previous : BlockId) : Backlog :=
  match q.waiting[previous]? with
  | none => q
  | some waiters =>
    let left := waiters.filter (·.id ≠ id)
    if left.isEmpty then ⟨q.waiting.erase previous⟩ else ⟨q.waiting.insert previous left⟩

/-- Strike a block from the lists under all that it names. -/
def strike (q : Backlog) (id : BlockId) (previous : List BlockId) : Backlog :=
  previous.foldl (fun q p => q.strikeUnder id p) q

theorem size_strikeUnder_le (q : Backlog) (id previous : BlockId) :
    (q.strikeUnder id previous).waiting.size ≤ q.waiting.size := by
  unfold strikeUnder
  split
  · exact Nat.le_refl _
  · rename_i waiters hw
    dsimp only
    split
    · exact Std.ExtTreeMap.size_erase_le
    · have : q.waiting.contains previous = true := by
        rw [Std.ExtTreeMap.contains_eq_isSome_getElem?, hw]; rfl
      exact Nat.le_of_eq (by rw [Std.ExtTreeMap.size_insert, if_pos this])

theorem size_strike_le (q : Backlog) (id : BlockId) (previous : List BlockId) :
    (q.strike id previous).waiting.size ≤ q.waiting.size := by
  unfold strike
  induction previous generalizing q with
  | nil => exact Nat.le_refl _
  | cons p rest ih => exact Nat.le_trans (ih _) (q.size_strikeUnder_le id p)

/-- Drop the blocks of a list that were not seen before, striking each from all lists. -/
def dropUnseen (q : Backlog) (seen : BlockSet) : List Block → Backlog × List Block × BlockSet
  | [] => (q, [], seen)
  | block :: rest =>
    if seen.contains block.id then q.dropUnseen seen rest
    else
      let (q, dropped, seen) :=
        (q.strike block.id block.previous).dropUnseen (seen.insert block.id) rest
      (q, block :: dropped, seen)

theorem size_dropUnseen_le (q : Backlog) (seen : BlockSet) (blocks : List Block) :
    (q.dropUnseen seen blocks).1.waiting.size ≤ q.waiting.size := by
  induction blocks generalizing q seen with
  | nil => exact Nat.le_refl _
  | cons block rest ih =>
    unfold dropUnseen
    split
    · exact ih q seen
    · exact Nat.le_trans (ih _ _) (q.size_strike_le block.id block.previous)

/-- Drop everything that waits behind the blocks of a stack, topmost first. -/
def discardAll (q : Backlog) (seen : BlockSet) (stack : List BlockId) : Backlog × List Block :=
  match _h : q.awaited stack with
  | [] => (q, [])
  | id :: rest =>
    let waiters := q.waiting[id]?.getD []
    let out := (⟨q.waiting.erase id⟩ : Backlog).dropUnseen seen waiters
    let (q', later) := out.1.discardAll out.2.2 ((out.2.1.map (·.id)).reverse ++ rest)
    (q', out.2.1 ++ later)
termination_by q.waiting.size
decreasing_by
  exact Nat.lt_of_le_of_lt (size_dropUnseen_le ..) (size_erase_lt_of_awaited _h)

/-- Drop a block together with everything that waits behind it. The blocks dropped along with it
are returned. -/
def discard (q : Backlog) (block : Block) : Backlog × List Block :=
  (q.strike block.id block.previous).discardAll ((∅ : BlockSet).insert block.id) [block.id]

end Backlog

end ShardLedger
