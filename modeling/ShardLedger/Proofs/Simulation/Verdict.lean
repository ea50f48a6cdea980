import ShardLedger.Proofs.Simulation.Rounds

/-!
# The verdict on a simulation

Whatever the seed and the setup, an audit of a finished simulation finds nothing. The one thing that
this rests on is the digest: it has to keep apart what is hashed in the run.

- `Setup.Fits`: the sizes of a setup are words.
- `Simulation.recorded_start`: before the first round, nothing has happened.
- `Simulation.run_passes`: every simulation ends, and its outcome is sound.
-/

namespace ShardLedger

/-- The sizes that a run counts in words are words. -/
structure Setup.Fits (setup : Setup) : Prop where
  rounds : setup.rounds < UInt64.size
  items : setup.itemsPerRound < UInt64.size
  batch : setup.ledger.content.maxBatchSize < UInt64.size

/-- A setup with which a run may start has a valid ledger configuration. -/
theorem Setup.ledger_valid {setup : Setup} (h : setup.validate = .ok ()) :
    setup.rules.config.validate = .ok () := by
  unfold validate at h
  split at h
  · cases h
  · split at h
    · cases h
    · split at h
      · cases h
      · assumption

namespace Simulation

variable {setup : Setup} {inputs : List (List UInt8)} {l : Ledger}

/-- Before the first round, the simulation goes along with the run of no operations. -/
theorem recorded_start (hl : Ledger.create setup.rules = .ok l) :
    Recorded setup inputs 0 0 (start setup l) := by
  refine ⟨[], Run.start l, ?_⟩
  have hnone : ∀ {α : Type} {p : α → Prop}, ∀ x ∈ ([] : List α), p x := fun x hx => (nomatch hx)
  refine
    { run := Run.after_of_create hl [], ledger := rfl, events := rfl
      faithful := fun i b hi => ?_, timely := fun before x later heq => ?_
      built := fun id b hb => ?_, sent := hnone, arrived := hnone, recalled := fun p hp => ?_
      counted := hnone, drawn := hnone, distinct := List.nodup_nil, submitted := hnone
      invalidated := fun x => ?_ }
  · cases hi
  · exact absurd heq.symm (by simp)
  · rw [show (start setup l).blocks[id]? = none from Std.ExtTreeMap.getElem?_empty] at hb
    cases hb
  · obtain ⟨index, -, rfl⟩ := List.mem_map.1 hp
    exact fun entry hentry => absurd hentry List.not_mem_nil
  · exact iff_of_false Std.ExtTreeSet.not_mem_empty List.not_mem_nil

/-- Every simulation with a valid setup ends, and an audit finds nothing wrong with its outcome, as
long as the digest keeps apart what is hashed. -/
theorem run_passes (setup : Setup) (hvalid : setup.validate = .ok ()) (hfits : setup.Fits)
    (hfree : CollisionFree (hashed setup)) :
    ∃ outcome, run setup = .ok outcome ∧ Audit.all outcome = [] ∧ outcome.Sound := by
  obtain ⟨r, hr⟩ := Run.exists_after (Setup.ledger_valid hvalid) []
  obtain ⟨l, hl, -⟩ := Run.after_eq hr
  have hrun : run setup = .ok (((List.range setup.rounds).foldl (fun s n => s.round setup n)
      (start setup l)).finish setup).result := by
    unfold run
    rw [hvalid, hl]
    rfl
  have hgiven : shownAlong (hashedRound setup) (fun s n => s.round setup n) (start setup l)
      (List.range setup.rounds) ⊆ hashed setup := by
    unfold hashed
    rw [hl]
    exact List.subset_cons_self _ _
  have hlabel : genesisLabel ∈ hashed setup := List.mem_cons_self ..
  have hrecorded := foldl_range_shown (P := fun n s => Recorded setup (hashed setup) n 0 s)
    (recorded_start hl) (fun n hn s h hstep => h.round hfree (Nat.lt_trans hn hfits.rounds)
      hfits.items hfits.batch hstep) hgiven
  obtain ⟨ops, r, hfollows, hrest⟩ := hrecorded.finish
  have hsound := (hfollows.shows hfree hlabel).sound hrest
  exact ⟨_, hrun, Audit.all_eq_nil_iff.2 hsound, hsound⟩

/-- Two rounds of one proposer, whose first block carries an item and is finalized by the second. -/
def sampleSetup : Setup :=
  { seed := 3, rounds := 2, proposers := 1, itemsPerRound := 1, contentRounds := 1
    faults := { maxDelay := 0 }, ledger := { fork := { finalizedWeight := 1 } } }

theorem sample_hashed : CollisionFree (hashed sampleSetup) :=
  have hnodup : ((hashed sampleSetup).map Blake3.hash).Nodup := by decide +kernel
  fun _ hx _ hy => List.inj_on_of_nodup_map hnodup hx hy

theorem sample_run_passes : sampleSetup.validate = .ok () ∧ sampleSetup.Fits ∧
    CollisionFree (hashed sampleSetup) ∧ ∃ outcome, run sampleSetup = .ok outcome ∧
      Audit.all outcome = [] ∧ outcome.Sound := by
  have hvalid : sampleSetup.validate = .ok () := by decide
  have hfits : sampleSetup.Fits := ⟨by decide, by decide, by decide⟩
  exact ⟨hvalid, hfits, sample_hashed, run_passes sampleSetup hvalid hfits sample_hashed⟩

end Simulation

end ShardLedger
