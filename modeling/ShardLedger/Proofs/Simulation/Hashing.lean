import ShardLedger.Proofs.Block.Naming
import ShardLedger.Simulation.Run

/-!
# What a run hashes

Three kinds of byte strings are hashed in a run: the label of the genesis, the payloads of the items
that are drawn, and the fields of the blocks that proposers build. If the digest keeps these apart,
it keeps the items and the blocks of the run apart.

- `Simulation.hashed`: the byte strings, in the order in which they are hashed.
- `Simulation.CollisionFree`: the digest keeps them apart.
- `Simulation.drawPayload_injective`: a payload tells the round and the index of its item.
- `foldl_range_shown`: what is kept by steps whose byte strings are among the given ones.
-/

namespace ShardLedger

/-! ### Steps that show something -/

section Shown

variable {σ α β : Type} {view : σ → α → List β} {step : σ → α → σ}

/-- What the states before the steps of a fold show, step by step. -/
def shownAlong (view : σ → α → List β) (step : σ → α → σ) : σ → List α → List β
  | _, [] => []
  | s, x :: rest => view s x ++ shownAlong view step (step s x) rest

theorem shownAlong_append : ∀ (xs ys : List α) (s : σ), shownAlong view step s (xs ++ ys) =
    shownAlong view step s xs ++ shownAlong view step (xs.foldl step s) ys
  | [], _, _ => rfl
  | x :: rest, ys, s => by
    show view s x ++ shownAlong view step (step s x) (rest ++ ys) = _
    rw [shownAlong_append rest ys, ← List.append_assoc]
    rfl

/-- What every step keeps whose byte strings are among the given ones, all steps keep. -/
theorem foldl_range_shown {view : σ → Nat → List β} {step : σ → Nat → σ} {P : Nat → σ → Prop}
    {given : List β} {s : σ} (h : P 0 s) : ∀ {k : Nat},
      (∀ n < k, ∀ s, P n s → view s n ⊆ given → P (n + 1) (step s n)) →
      shownAlong view step s (List.range k) ⊆ given → P k ((List.range k).foldl step s)
  | 0, _, _ => h
  | k + 1, hstep, hgiven => by
    rw [List.range_succ, shownAlong_append] at hgiven
    obtain ⟨hbefore, hlast⟩ := List.append_subset.1 hgiven
    rw [List.range_succ, List.foldl_append]
    refine hstep k (Nat.lt_succ_self k) _ ?_ (List.append_subset.1 hlast).1
    exact foldl_range_shown h (fun n hn => hstep n (Nat.lt_succ_of_lt hn)) hbefore

end Shown

namespace Simulation

/-! ### The byte strings -/

/-- The label that names the genesis. -/
def genesisLabel : List UInt8 := "arbor-genesis-1".toUTF8.data.toList

/-- What is hashed while the content of a round arrives. -/
def hashedContent (setup : Setup) (s : Simulation) (round : Nat) : List (List UInt8) :=
  if setup.contentRounds ≤ round then []
  else shownAlong (fun s index => [(drawPayload s.rng round index).1])
    (fun s index => s.submitItem round index) s (List.range setup.itemsPerRound)

/-- What is hashed in a turn of a proposer. -/
def hashedTurn (setup : Setup) (round : Nat) (s : Simulation) (p : Proposer) : List (List UInt8) :=
  match (p.turn setup.rules s.ledger (UInt64.ofNat round) setup.ledger.content.maxBatchSize
    s.rng).2.1 with
  | none => []
  | some made => [made.block.preimage]

/-- What is hashed while all proposers take their turns. -/
def hashedTurns (setup : Setup) (s : Simulation) (round : Nat) : List (List UInt8) :=
  shownAlong (hashedTurn setup round) (fun s p => (s.turn setup round p).1) s s.proposers

/-- What is hashed in a round. -/
def hashedRound (setup : Setup) (s : Simulation) (n : Nat) : List (List UInt8) :=
  hashedContent setup s n ++ hashedTurns setup ((s.submitContent setup n).invalidate setup n) n

/-- What is hashed in a run. Neither the deliveries nor the passes of the ledger hash anything. -/
def hashed (setup : Setup) : List (List UInt8) :=
  genesisLabel :: match Ledger.create setup.rules with
    | .error _ => []
    | .ok ledger => shownAlong (hashedRound setup) (fun s n => s.round setup n)
        (start setup ledger) (List.range setup.rounds)

/-- The digest keeps the byte strings apart. -/
def CollisionFree (inputs : List (List UInt8)) : Prop :=
  ∀ x ∈ inputs, ∀ y ∈ inputs, Blake3.hash x = Blake3.hash y → x = y

/-! ### Items -/

/-- A drawn item is named by its payload. -/
theorem drawItem_eq (r : Rng) (round index : Nat) : ∃ first second,
    (drawItem r round index).1 =
      ContentItem.ofPayload (drawPayload r round index).1 first second := ⟨_, _, rfl⟩

/-- The round and the index stand at the end of a payload. -/
theorem drawPayload_eq (r : Rng) (round index : Nat) : ∃ noise, noise.length ≤ 63 ∧
    (drawPayload r round index).1 =
      noise ++ (wordBytes (UInt64.ofNat round) ++ wordBytes (UInt64.ofNat index)) := by
  have hbytes : ∀ (r : Rng) (count : Nat), (r.bytes count).1.length ≤ count := by
    intro r count
    unfold Rng.bytes
    exact List.length_take_le ..
  have hextra : (r.bounded 48).1 < 48 := by
    unfold Rng.bounded
    rw [if_neg (by decide)]
    exact Nat.mod_lt _ (by decide)
  refine ⟨((r.bounded 48).2.bytes (16 + (r.bounded 48).1)).1, ?_, List.append_assoc ..⟩
  exact Nat.le_trans (hbytes _ _) (by omega)

/-- A payload tells when it was drawn. -/
theorem drawPayload_injective {r r' : Rng} {m n i j : Nat} (hm : m < UInt64.size)
    (hn : n < UInt64.size) (hi : i < UInt64.size) (hj : j < UInt64.size)
    (h : (drawPayload r m i).1 = (drawPayload r' n j).1) : m = n ∧ i = j := by
  obtain ⟨noise, -, heq⟩ := drawPayload_eq r m i
  obtain ⟨noise', -, heq'⟩ := drawPayload_eq r' n j
  rw [heq, heq'] at h
  obtain ⟨-, hstamp⟩ := List.append_inj' h (by simp)
  obtain ⟨hround, hindex⟩ := List.append_inj hstamp (by simp)
  exact ⟨eq_of_wordBytes hm hn hround, eq_of_wordBytes hi hj hindex⟩

/-- No drawn item is empty. -/
theorem drawItem_size (r : Rng) (round index : Nat) : (drawItem r round index).1.size ≠ 0 := by
  obtain ⟨first, second, hitem⟩ := drawItem_eq r round index
  obtain ⟨noise, hnoise, heq⟩ := drawPayload_eq r round index
  have hlength : (drawPayload r round index).1.length = noise.length + 16 := by
    rw [heq]
    simp
  have hsize : (drawItem r round index).1.size = UInt64.ofNat (noise.length + 16) := by
    rw [hitem, ← hlength]
    rfl
  rw [hsize]
  intro hzero
  have hword := congrArg UInt64.toNat hzero
  rw [UInt64.toNat_ofNat_of_lt' (by simp only [UInt64.size]; omega)] at hword
  exact absurd hword (by simp)

end Simulation

end ShardLedger
