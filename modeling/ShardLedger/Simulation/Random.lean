import ShardLedger.Word

/-!
# Seeded draws

A small generator of 64-bit words. The state moves by a multiply-add step modulo 2⁶⁴, and a word
is the new state after three xor-shifts and two multiplications, since the low bits of the bare
state cycle too quickly. The words depend on the seed alone.

- `Rng.next`: one word.
- `Rng.bounded`, `Rng.hit`, `Rng.bytes`, `Rng.pick`, `Rng.shuffle`: what is drawn from words.
-/

namespace ShardLedger

/-- The state of the generator. -/
structure Rng where
  state : UInt64
deriving DecidableEq, Inhabited

namespace Rng

/-- The generator of a seed. -/
def ofSeed (seed : UInt64) : Rng := ⟨seed ^^^ 0x9E3779B97F4A7C15⟩

/-- The multiply-add step. -/
def step (state : UInt64) : UInt64 := state * 6364136223846793005 + 1442695040888963407

/-- The word of a state. -/
def mix (state : UInt64) : UInt64 :=
  let z := (state ^^^ (state >>> 30)) * 0xBF58476D1CE4E5B9
  let z := (z ^^^ (z >>> 27)) * 0x94D049BB133111EB
  z ^^^ (z >>> 31)

/-- The next word. -/
def next (r : Rng) : UInt64 × Rng :=
  let state := step r.state
  (mix state, ⟨state⟩)

/-- So many draws of one kind. -/
def repeated (draw : Rng → α × Rng) : Nat → Rng → List α × Rng
  | 0, r => ([], r)
  | n + 1, r =>
    let (first, r) := draw r
    let (rest, r) := repeated draw n r
    (first :: rest, r)

/-- So many words. -/
def draws (count : Nat) (r : Rng) : List UInt64 × Rng := repeated next count r

/-- A number below the bound. Nothing is drawn if the bound is zero. -/
def bounded (r : Rng) (bound : Nat) : Nat × Rng :=
  if bound = 0 then (0, r)
  else
    let (word, r) := r.next
    (word.toNat % bound, r)

/-- Whether a chance of so many percent comes true. Nothing is drawn for a chance of zero or of
a hundred and more. -/
def hit (r : Rng) (percent : Nat) : Bool × Rng :=
  if percent = 0 then (false, r)
  else if 100 ≤ percent then (true, r)
  else
    let (n, r) := r.bounded 100
    (n < percent, r)

/-- So many bytes, eight from each word; what is left of the last word is lost. -/
def bytes (r : Rng) (count : Nat) : List UInt8 × Rng :=
  let (words, r) := draws ((count + 7) / 8) r
  ((words.flatMap wordBytes).take count, r)

/-- An item of a list; nothing is drawn from an empty one. -/
def pick (r : Rng) (items : List α) : Option α × Rng :=
  if items.isEmpty then (none, r)
  else
    let (i, r) := r.bounded items.length
    (items[i]?, r)

/-- Exchange a position with one not above it. -/
def exchange (s : Array α × Rng) (i : Nat) : Array α × Rng :=
  let drawn := s.2.bounded (i + 1)
  (s.1.swapIfInBounds i drawn.1, drawn.2)

/-- Exchange each position up to the given one, from there down. -/
def shuffleFrom : Nat → Array α × Rng → Array α × Rng
  | 0, s => s
  | i + 1, s => shuffleFrom i (exchange s (i + 1))

/-- A random order of a list. -/
def shuffle (r : Rng) (items : List α) : List α × Rng :=
  let shuffled := shuffleFrom (items.length - 1) (items.toArray, r)
  (shuffled.1.toList, shuffled.2)

end Rng

end ShardLedger
