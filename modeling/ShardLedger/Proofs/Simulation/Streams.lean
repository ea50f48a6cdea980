import Mathlib.Data.Int.GCD
import Mathlib.Data.Nat.Prime.Basic
import Mathlib.Data.UInt
import Mathlib.Logic.Function.Iterate
import ShardLedger.Simulation.Campaign

/-!
# The streams of seeds

Every step on the way from a seed to a word of its stream can be undone: the mask on the seed, the
multiply-add steps of the state, and the xor-shifts and multiplications that make the word of a
state. So a word tells the seed, once its place in the stream is known.

- `xorShift_injective`, `mul_injective_of_odd`: a word is told by its xor with its own upper part,
  and by its product with an odd word.
- `Rng.step_injective`, `Rng.mix_injective`: a state is told by the next one, and by its word.
- `Rng.draws_eq`, `Rng.wordAt_eq`: what is drawn is the mix of ever further steps.
- `Rng.wordAt_injective`: a seed is told by the word at any one place of its stream.
- `Campaign.streams_apart`: the streams of two seeds agree in no place.
-/

namespace ShardLedger

/-! ### Words that tell words -/

/-- A word is told by its xor with its own upper part. -/
theorem xorShift_injective {k : UInt64} (hk : k.toNat % 64 ≠ 0) :
    Function.Injective fun w : UInt64 => w ^^^ (w >>> k) := by
  intro v w h
  have hdiff : v ^^^ w = (v ^^^ w) >>> k := by
    rw [UInt64.shiftRight_xor, ← UInt64.xor_eq_zero_iff]
    calc v ^^^ w ^^^ (v >>> k ^^^ w >>> k)
        = (v ^^^ v >>> k) ^^^ (w ^^^ w >>> k) := by ac_rfl
      _ = 0 := UInt64.xor_eq_zero_iff.2 h
  -- a shift makes every number but zero smaller
  refine UInt64.xor_eq_zero_iff.1 (UInt64.toNat_inj.1 ?_)
  by_contra hne
  have hless : (v ^^^ w).toNat >>> (k.toNat % 64) < (v ^^^ w).toNat := by
    rw [Nat.shiftRight_eq_div_pow]
    exact Nat.div_lt_self (Nat.pos_of_ne_zero hne) (Nat.one_lt_two_pow hk)
  rw [← UInt64.toNat_shiftRight, ← hdiff] at hless
  exact Nat.lt_irrefl _ hless

/-- An odd word has an inverse. -/
theorem isUnit_of_odd {c : UInt64} (hc : Odd c.toNat) : IsUnit c := by
  have hcoprime : c.toNat.Coprime (2 ^ 64) := (Nat.coprime_two_right.2 hc).pow_right 64
  obtain ⟨m, hm, hone⟩ := Nat.exists_mul_mod_eq_one_of_coprime hcoprime (by decide)
  refine IsUnit.of_mul_eq_one (UInt64.ofNat m) (UInt64.toNat_inj.1 ?_)
  rw [UInt64.toNat_mul, UInt64.toNat_ofNat_of_lt' hm, hone]
  rfl

/-- A word is told by its product with an odd one. -/
theorem mul_injective_of_odd {c : UInt64} (hc : Odd c.toNat) :
    Function.Injective fun w : UInt64 => w * c :=
  (isUnit_of_odd hc).mul_left_injective

namespace Rng

/-! ### One step and one word -/

/-- A state is told by the next one. -/
theorem step_injective : Function.Injective step := by
  intro s t h
  unfold step at h
  have hproduct := (UInt64.add_left_inj _).1 h
  exact mul_injective_of_odd (by decide) hproduct

/-- A state is told by its word. -/
theorem mix_injective : Function.Injective mix := by
  intro s t h
  unfold mix at h
  -- the three xor-shifts and the two products are undone, from the last one on
  have hsecond := mul_injective_of_odd (by decide) (xorShift_injective (by decide) h)
  have hfirst := mul_injective_of_odd (by decide) (xorShift_injective (by decide) hsecond)
  exact xorShift_injective (by decide) hfirst

/-! ### The stream -/

/-- The word at a place of the stream: the one that comes after so many others. -/
def wordAt (r : Rng) (n : Nat) : UInt64 := (r.draws n).2.next.1

theorem draws_succ (r : Rng) (n : Nat) :
    r.draws (n + 1) = (r.next.1 :: (r.next.2.draws n).1, (r.next.2.draws n).2) := rfl

theorem wordAt_zero (r : Rng) : r.wordAt 0 = r.next.1 := rfl

theorem wordAt_succ (r : Rng) (n : Nat) : r.wordAt (n + 1) = r.next.2.wordAt n := by
  unfold wordAt
  rw [draws_succ]

/-- The words that are drawn are those of the stream, in order, and each takes the state one step
on. -/
theorem draws_eq (r : Rng) (n : Nat) :
    r.draws n = ((List.range n).map r.wordAt, ⟨step^[n] r.state⟩) := by
  induction n generalizing r with
  | zero => rfl
  | succ n ih =>
    have hwords : r.wordAt ∘ Nat.succ = r.next.2.wordAt := funext r.wordAt_succ
    have hstate : r.next.2.state = step r.state := rfl
    rw [draws_succ, ih, hstate, List.range_succ_eq_map, List.map_cons, List.map_map, hwords,
      wordAt_zero, Function.iterate_succ_apply]

theorem wordAt_eq (r : Rng) (n : Nat) : r.wordAt n = mix (step (step^[n] r.state)) := by
  unfold wordAt
  rw [draws_eq]
  rfl

/-- A seed is told by the word at any one place of its stream. -/
theorem wordAt_injective (n : Nat) : Function.Injective fun seed => (ofSeed seed).wordAt n := by
  intro seed seed' h
  dsimp only at h
  rw [wordAt_eq, wordAt_eq] at h
  have hstate := step_injective.iterate n (step_injective (mix_injective h))
  exact (UInt64.xor_left_inj _).1 hstate

end Rng

namespace Campaign

/-- The seeds of a campaign are words, so they stay apart as the seeds of setups. -/
theorem setupFor_seed_ne {c : Campaign} (hend : c.seedEnd ≤ UInt64.size) {seed seed' : Nat}
    (hlt : seed < seed') (hlast : seed' < c.seedEnd) :
    (c.setupFor seed).seed ≠ (c.setupFor seed').seed := by
  intro h
  have hfit : seed' < UInt64.size := Nat.lt_of_lt_of_le hlast hend
  have heq : (UInt64.ofNat seed).toNat = (UInt64.ofNat seed').toNat := congrArg UInt64.toNat h
  rw [UInt64.toNat_ofNat_of_lt' (Nat.lt_trans hlt hfit), UInt64.toNat_ofNat_of_lt' hfit] at heq
  exact Nat.ne_of_lt hlt heq

/-- No two states have the same next state, and no two states have the same word. So the streams of
two seeds agree in no place, and neither do those from which two runs of a campaign draw. -/
theorem streams_apart :
    Function.Injective Rng.step ∧ Function.Injective Rng.mix ∧
      (∀ seed seed' : UInt64, seed ≠ seed' →
        ∀ n, (Rng.ofSeed seed).wordAt n ≠ (Rng.ofSeed seed').wordAt n) ∧
      ∀ c : Campaign, c.seedEnd ≤ UInt64.size →
        ∀ seed seed' : Nat, c.seedStart ≤ seed → seed < seed' → seed' < c.seedEnd →
          ∀ (l l' : Ledger) (n : Nat), (Simulation.start (c.setupFor seed) l).rng.wordAt n ≠
            (Simulation.start (c.setupFor seed') l').rng.wordAt n := by
  have happart : ∀ seed seed' : UInt64, seed ≠ seed' →
      ∀ n, (Rng.ofSeed seed).wordAt n ≠ (Rng.ofSeed seed').wordAt n :=
    fun _ _ hne n => (Rng.wordAt_injective n).ne hne
  refine ⟨Rng.step_injective, Rng.mix_injective, happart, ?_⟩
  intro c hend seed seed' _ hlt hlast l l' n
  exact happart _ _ (setupFor_seed_ne hend hlt hlast) n

/-- A campaign from the seed 0 to a seed with the top bit alone. -/
def sampleCampaign : Campaign := { seedStart := 0, seedEnd := 2 ^ 63 + 1 }

/-- After three words, the states of its first and its last seed still differ in the top bit
alone. -/
theorem sample_streams_apart :
    (0 : UInt64) ≠ 0x8000000000000000 ∧
      ((Rng.ofSeed 0).draws 3).2.state ^^^ ((Rng.ofSeed 0x8000000000000000).draws 3).2.state =
        0x8000000000000000 ∧
      (Rng.ofSeed 0).wordAt 3 ≠ (Rng.ofSeed 0x8000000000000000).wordAt 3 ∧
      sampleCampaign.seedEnd ≤ UInt64.size ∧ sampleCampaign.seedStart ≤ 0 ∧ 0 < 2 ^ 63 ∧
      2 ^ 63 < sampleCampaign.seedEnd ∧
      ∀ (l l' : Ledger) (n : Nat), (Simulation.start (sampleCampaign.setupFor 0) l).rng.wordAt n ≠
        (Simulation.start (sampleCampaign.setupFor (2 ^ 63)) l').rng.wordAt n := by
  obtain ⟨-, -, hseeds, hcampaign⟩ := streams_apart
  have hne : (0 : UInt64) ≠ 0x8000000000000000 := by decide
  have hend : sampleCampaign.seedEnd ≤ UInt64.size := by decide
  have hstart : sampleCampaign.seedStart ≤ 0 := Nat.le_refl 0
  have hlt : 0 < 2 ^ 63 := by decide
  have hlast : 2 ^ 63 < sampleCampaign.seedEnd := by decide
  exact ⟨hne, by decide, hseeds _ _ hne 3, hend, hstart, hlt, hlast,
    hcampaign sampleCampaign hend 0 (2 ^ 63) hstart hlt hlast⟩

end Campaign

end ShardLedger
