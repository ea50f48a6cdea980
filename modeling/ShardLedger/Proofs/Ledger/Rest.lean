import ShardLedger.Proofs.Ledger.Merges

/-!
# Rest

The stages of a pass give work to one another: what is registered can be merged, a merge opens the
bar, and what is placed empties chains that can then be removed. When settling ends, all of that has
come to an end at once: the ledger is a fixed point of the pass.

- `Ledger.Still`: none of the four stages has anything to do.
- `Ledger.Arranged.still_of_idle`, `Ledger.Still.tick_eq`: that is so if a pass is idle, and then
  the pass only notes the bar.
- `Ledger.AtRest`, `Ledger.Settled`: the states that settling ends in.
- `Run.settled_after`: settling ends, and it ends there.
-/

namespace ShardLedger

namespace Ledger

variable {seen : List Block} {rules : Rules} {l l' : Ledger} {id : ChainId} {passes : List Pass}

/-! ### Stages with nothing to do -/

theorem registerSpawned_eq_self (hspawned : l.roster.spawned = []) :
    l.registerSpawned = (l, []) := by
  have hroster : ({ l.roster with spawned := [] } : Roster) = l.roster := by rw [← hspawned]
  unfold registerSpawned
  rw [hspawned, List.append_nil, hroster]

/-- If the first round merges nothing, there is no other. -/
theorem mergeIdle_eq_self (h : l.Arranged seen) (hspawned : l.roster.spawned = [])
    (hnil : (l.round rules).merged = []) : l.mergeIdle rules = (l, []) := by
  have hround := (@round_merges _ rules _ h hspawned).1
  rw [hnil] at hround
  show (if (l.round rules).stopped || (l.round rules).merged.isEmpty then
    ((l.round rules).ledger, (l.round rules).merged) else _) = _
  rw [hnil, hround.eq_of_nil, List.isEmpty_nil, Bool.or_true, if_pos rfl]

/-- Nothing changes if a chain is replaced by itself. -/
theorem Arranged.update_self (h : l.Arranged seen) {f : Chain → Chain}
    (hf : ∀ b, l.branch? id = some b → f b.chain = b.chain) : l.update id f = l := by
  unfold update
  split
  · rename_i b hb
    have hself : b.withChain b.chain = b := by cases b <;> rfl
    rw [hf b hb, hself]
    rcases branch?_cases hb with hlive | ⟨hnone, c, hc, hid, rfl⟩
    · rw [replace_live hlive, put_self hlive]
    · rw [replace_retired h hnone hc hid (fun e => e) rfl]
      simp only [ite_self, List.map_id']
  · rfl

theorem Arranged.setQueue_self (h : l.Arranged seen) {s : Source} (hs : s ∈ l.sources) :
    l.setQueue s = l := by
  obtain ⟨b, hb, rfl⟩ := List.mem_map.1 hs
  obtain ⟨a, ha, hab⟩ := List.mem_filterMap.1 hb
  have hid : b.chain.id = a := h.branch?_id (List.mem_append_left _ ha) hab
  refine h.update_self fun b' hb' => ?_
  rw [show (source b).chain = a from hid, hab, Option.some.injEq] at hb'
  subst hb'
  rfl

/-- Where no head lies below the bar, placing changes nothing but the linearizer. -/
theorem Arranged.linearize_eq_self (h : l.Arranged seen)
    (hnone : takeLowest? l.confirmBar l.sources = none) :
    l.linearize = ({ l with linearizer := ⟨l.linearizer.delivered, l.confirmBar⟩ }, []) := by
  have hall : ∀ (sources : List Source) (l : Ledger), (∀ s ∈ sources, l.setQueue s = l) →
      sources.foldl Ledger.setQueue l = l := by
    intro sources
    induction sources with
    | nil => exact fun _ _ => rfl
    | cons s rest ih =>
      intro l hself
      rw [List.foldl_cons, hself s (List.mem_cons_self ..)]
      exact ih l fun t ht => hself t (List.mem_cons_of_mem _ ht)
  have h₀ : ({ l with linearizer := ⟨l.linearizer.delivered, l.confirmBar⟩ } : Ledger).Arranged
      seen := { h with }
  refine Prod.ext ?_ ?_
  · rw [(linearize_eq l).1, drainBelow_none hnone]
    exact hall _ _ fun s hs => h₀.setQueue_self hs
  · rw [(linearize_eq l).2, drainBelow_none hnone]
    rfl

theorem removeDrained_eq_self (hdrained : l.leaving.filter l.isDrained = []) :
    l.removeDrained = (l, [], []) := by
  unfold removeDrained
  rw [hdrained]
  rfl

/-! ### Idle passes -/

/-- No stage of a pass has anything to do. -/
structure Still (rules : Rules) (l : Ledger) : Prop where
  spawned : l.roster.spawned = []
  unmerged : (l.round rules).merged = []
  heads : takeLowest? l.confirmBar l.sources = none
  drained : l.leaving.filter l.isDrained = []

/-- If no stage has anything to do, a pass notes the bar and reports nothing. -/
theorem Still.tick_eq (hs : l.Still rules) (h : l.Arranged seen) :
    l.tick rules =
      { ledger := { l with linearizer := ⟨l.linearizer.delivered, l.confirmBar⟩ }
        report := ⟨[], [], [], 0⟩, delivered := [], departed := [] } := by
  have hdrained : ({ l with linearizer := ⟨l.linearizer.delivered, l.confirmBar⟩ } :
      Ledger).removeDrained = (_, [], []) := removeDrained_eq_self hs.drained
  unfold tick
  simp only [registerSpawned_eq_self hs.spawned, mergeIdle_eq_self h hs.spawned hs.unmerged,
    h.linearize_eq_self hs.heads, hdrained, List.length_nil]

/-- What merges nothing in all its rounds merges nothing in the first one. -/
theorem round_merged_of_mergeIdle (hnil : (l.mergeIdle rules).2 = []) :
    (l.round rules).merged = [] := by
  unfold mergeIdle mergeRounds at hnil
  dsimp only at hnil
  split at hnil
  · exact hnil
  · exact (List.append_eq_nil_iff.1 hnil).1

/-- Where nothing is placed, there is nothing to place. -/
theorem takeLowest?_of_linearize (hnil : l.linearize.2 = []) :
    takeLowest? l.confirmBar l.sources = none := by
  cases htake : takeLowest? l.confirmBar l.sources with
  | none => rfl
  | some found =>
    rw [(linearize_eq l).2, drainBelow_some htake] at hnil
    cases hnil

/-- If a pass is idle, no stage has anything to do. -/
theorem Arranged.still_of_idle (h : l.Arranged seen)
    (hidle : (l.tick rules).report.isIdle = true) : l.Still rules := by
  have hdelivered := delivered_of_isIdle hidle
  unfold PassReport.isIdle at hidle
  simp only [Bool.and_eq_true, List.isEmpty_iff] at hidle
  obtain ⟨⟨⟨hspawned, hmerged⟩, hremoved⟩, -⟩ := hidle
  have hspawned : l.roster.spawned = [] := hspawned
  -- stage by stage: what has nothing to do leaves the ledger to the next
  simp only [tick, registerSpawned_eq_self hspawned] at hdelivered hmerged hremoved
  have hunmerged := round_merged_of_mergeIdle hmerged
  simp only [mergeIdle_eq_self h hspawned hunmerged] at hdelivered hremoved
  have hheads := takeLowest?_of_linearize hdelivered
  simp only [h.linearize_eq_self hheads] at hremoved
  exact ⟨hspawned, hunmerged, hheads, hremoved⟩

/-- What the linearizer notes is no work for the stages. -/
theorem Still.note (hs : l.Still rules) (linearizer : Linearizer) :
    ({ l with linearizer } : Ledger).Still rules where
  spawned := hs.spawned
  unmerged := by
    refine mergeRound_merged_eq_nil.2 ((mergeRound_merged_eq_nil.1 hs.unmerged).imp_right ?_)
    intro hnone id hid
    have hnever := mergeAt?_eq_none.1 (hnone id hid)
    exact mergeAt?_eq_none.2 hnever
  heads := hs.heads
  drained := hs.drained

/-! ### Settled ledgers -/

/-- No chain is yet to be registered, and no registered chain has a head below the bar. -/
structure AtRest (l : Ledger) : Prop where
  spawned : l.roster.spawned = []
  heads : ∀ b ∈ l.registeredBranches, ∀ rank ∈ b.chain.headRank?, l.confirmBar ≤ rank

/-- The ledger is at rest and a pass changes nothing at all; the merged chains that are still
registered have something that the bar keeps back. -/
structure Settled (rules : Rules) (l : Ledger) : Prop extends l.AtRest where
  fixed : l.tick rules =
    { ledger := l, report := ⟨[], [], [], 0⟩, delivered := [], departed := [] }
  retired : ∀ b ∈ l.registeredBranches, b.chain.retired = true →
    ∃ rank, b.chain.headRank? = some rank ∧ l.confirmBar ≤ rank

/-- A merged chain that is not drained has a head. -/
theorem Still.head_of_retired (hs : l.Still rules) (h : l.Arranged seen) {b : Branch}
    (hb : b ∈ l.registeredBranches) (hretired : b.chain.retired = true) :
    ∃ rank, b.chain.headRank? = some rank := by
  obtain ⟨id, hid, hfound⟩ := List.mem_filterMap.1 hb
  obtain ⟨c, hc, rfl, rfl⟩ := h.mem_retired hfound hretired
  have hleaving : c.id ∈ l.leaving := h.leaving ▸ List.mem_map_of_mem hc
  have hnot := List.filter_eq_nil_iff.1 hs.drained _ hleaving
  unfold isDrained at hnot
  rw [if_pos hid, hfound] at hnot
  cases hq : c.undelivered with
  | nil => exact absurd (List.isEmpty_iff.2 hq) hnot
  | cons block queue =>
    refine ⟨block.rank.current, ?_⟩
    show c.undelivered.head?.map _ = _
    rw [hq]
    rfl

/-- An idle pass leaves the ledger settled. -/
theorem Arranged.settled_of_idle (h : l.Arranged seen)
    (hidle : (l.tick rules).report.isIdle = true) : (l.tick rules).ledger.Settled rules := by
  have hs := h.still_of_idle hidle
  rw [hs.tick_eq h]
  have h' : ({ l with linearizer := ⟨l.linearizer.delivered, l.confirmBar⟩ } : Ledger).Arranged
      seen := { h with }
  have hs' := hs.note ⟨l.linearizer.delivered, l.confirmBar⟩
  generalize hl : ({ l with linearizer := ⟨l.linearizer.delivered, l.confirmBar⟩ } : Ledger) = l'
    at h' hs' ⊢
  have heads : ∀ b ∈ l'.registeredBranches, ∀ rank ∈ b.chain.headRank?, l'.confirmBar ≤ rank :=
    fun b hb rank hrank =>
      le_of_takeLowest?_none hs'.heads (source b) (List.mem_map_of_mem hb) rank hrank
  refine ⟨⟨hs'.spawned, heads⟩, ?_, fun b hb hretired => ?_⟩
  · -- the bar that the pass has noted is the bar
    rw [hs'.tick_eq h', ← hl]
    rfl
  · obtain ⟨rank, hrank⟩ := hs'.head_of_retired h' hb hretired
    exact ⟨rank, hrank, heads b hb rank hrank⟩

end Ledger

namespace Run

variable {seen : List Block} {rules : Rules} {ops : List Operation} {r : Run}

/-- Settling leaves a settled ledger. -/
theorem Tracks.settle_settled (h : r.Tracks seen rules) :
    (r.ledger.settle rules).1.Settled rules := by
  obtain ⟨l, hl, hidle, heq⟩ := h.settle_settles.last h.arranged
  exact heq ▸ hl.settled_of_idle hidle

/-- Whatever has happened before, settling ends, and the ledger is settled. -/
theorem settled_after (h : Run.after rules ops = .ok r) :
    Ledger.SettlesTo rules r.ledger (r.ledger.settle rules).2 (r.ledger.settle rules).1 ∧
      (r.ledger.settle rules).1.Settled rules := by
  have htracks := tracks h (List.Subset.refl _)
  exact ⟨htracks.settle_settles, htracks.settle_settled⟩

/-- In the sample, settling merges the two chains, and the bar keeps both of them registered. -/
theorem sample_settled_after : ∃ r,
    Run.after sampleMergeRules (sampleOps.take 14) = .ok r ∧
      (r.ledger.settle sampleMergeRules).2.length = 1 ∧
      (r.ledger.settle sampleMergeRules).1.registered.map (·.number) = [1, 2, 3] ∧
      (r.ledger.settle sampleMergeRules).1.leaving.map (·.number) = [2, 3] ∧
      Ledger.SettlesTo sampleMergeRules r.ledger (r.ledger.settle sampleMergeRules).2
        (r.ledger.settle sampleMergeRules).1 ∧
      (r.ledger.settle sampleMergeRules).1.Settled sampleMergeRules := by
  obtain ⟨r, hr, hsettled⟩ := @exists_after_of_any sampleMergeRules (sampleOps.take 14)
    (fun r => (r.ledger.settle sampleMergeRules).2.length = 1 ∧
      (r.ledger.settle sampleMergeRules).1.registered.map (·.number) = [1, 2, 3] ∧
      (r.ledger.settle sampleMergeRules).1.leaving.map (·.number) = [2, 3]) (by decide +kernel)
  obtain ⟨hpasses, hregistered, hleaving⟩ := of_decide_eq_true hsettled
  exact ⟨r, hr, hpasses, hregistered, hleaving, settled_after hr⟩

end Run

end ShardLedger
