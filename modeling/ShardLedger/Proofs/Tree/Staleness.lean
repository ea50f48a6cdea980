import ShardLedger.Proofs.Tree.Life

/-!
# Stale blocks

A chain turns a block away as stale when its parent is not live and its rank is behind what has been
finalized. That is no guess: every live block asks for at least the rank that comes next, and so
will every block that is live later.

- `Chain.Becomes.nextRank_le`: the rank that comes next never falls.
- `Branch.stale_for_good`: a block that was stale once is never taken again.
-/

namespace ShardLedger

namespace Chain

variable {rules : Rules} {seen : List Block} {c d : Chain} {log : List Receipt} {block : Block}
  {parent : BlockId}

theorem le_nextRank_enqueueAll (config : Config) : ∀ (blocks : List Block) (c : Chain),
    c.nextRank ≤ (c.enqueueAll config blocks).nextRank
  | [], _ => UInt64.le_refl _
  | b :: rest, c => by
    refine UInt64.le_trans ?_ (le_nextRank_enqueueAll config rest (c.enqueue config b))
    show c.nextRank ≤ if c.nextRank < b.rank.next then b.rank.next else c.nextRank
    split
    · rename_i hlt
      exact UInt64.le_of_lt hlt
    · exact UInt64.le_refl _

theorem kept_nextRank (config : Config) (seen : List Block) (rank : UInt64) :
    Kept config seen fun _ _ c => rank ≤ c.nextRank where
  akin hakin h := hakin.nextRank ▸ h
  enter _ _ ha h := by
    refine UInt64.le_trans ?_ (le_nextRank_enqueueAll ..)
    rw [Applied.outcome_rest ha]
    exact h

theorem Becomes.nextRank_le (h : c.Becomes rules log d) (hc : c.Reachable rules) :
    c.nextRank ≤ d.nextRank := by
  obtain ⟨seen, horderly⟩ := hc.orderly
  refine h.keeps (kept_nextRank rules.config (submittedIn log ++ seen) c.nextRank)
    (horderly.mono ?_) ?_ (UInt64.le_refl _)
  · exact List.subset_append_right ..
  · exact fun b hb _ => List.mem_append_left _ hb

/-- A block whose rank is behind what has been finalized follows no live block: those ask for no
less than the chain does. -/
theorem Received.rejects {verdict : Verdict} (hr : Received c block parent d verdict)
    (h : c.Orderly seen) (hrank : block.rank.current < c.nextRank) :
    ∃ outcome, verdict = .done outcome ∧ outcome.isAccepted = false := by
  cases hr with
  | retired => exact ⟨_, rfl, rfl⟩
  | known => exact ⟨_, rfl, rfl⟩
  | stale => exact ⟨_, rfl, rfl⟩
  | buffered _ _ _ hle => exact absurd hrank (UInt64.not_lt.2 hle)
  | below => exact ⟨_, rfl, rfl⟩
  | released _ _ habove hle =>
    have hnext := UInt64.le_trans (h.nextRank_le habove) hle
    exact absurd hrank (UInt64.not_lt.2 hnext)

end Chain

namespace Branch

variable {rules : Rules} {roster roster' : Roster} {seen : List Block} {b b' : Branch}
  {block : Block} {log : List Receipt} {nextRank got : UInt64}

theorem submit_behind (h : b.chain.Orderly seen) (hrank : block.rank.current < b.chain.nextRank) :
    (b.submit rules roster block).outcome.isAccepted = false := by
  have hsubmitted := b.submitted rules roster block
  generalize b.submit rules roster block = s at hsubmitted ⊢
  cases hsubmitted with
  | screened => rfl
  | settled hscreen hreceive =>
    obtain ⟨outcome, heq, hnot⟩ := (Chain.received hreceive).rejects h hrank
    cases heq
    exact hnot
  | entered hscreen hreceive =>
    obtain ⟨outcome, heq, -⟩ := (Chain.received hreceive).rejects h hrank
    cases heq

/-- Only a block whose rank is behind what has been finalized is stale. -/
theorem submit_stale (h : (b.submit rules roster block).outcome = .rejected (.stale nextRank got)) :
    block.rank.current < b.chain.nextRank := by
  have hsubmitted := b.submitted rules roster block
  generalize b.submit rules roster block = s at hsubmitted h
  cases hsubmitted with
  | screened hscreen =>
    cases h
    exact absurd hscreen Chain.screen_ne_stale
  | settled hscreen hreceive =>
    cases h
    cases Chain.received hreceive with
    | stale _ _ _ hrank => exact hrank
  | entered => cases h

/-- A block that was turned away as stale is never taken again, whatever becomes of the chain. -/
theorem stale_for_good (h : b.chain.Reachable rules)
    (hstale : (b.submit rules roster block).outcome = .rejected (.stale nextRank got))
    (hlater : (b.submit rules roster block).branch.chain.Becomes rules log b'.chain) :
    (b'.submit rules roster' block).outcome.isAccepted = false := by
  have hnext : (b.submit rules roster block).branch.chain.Reachable rules := h.submit roster block
  obtain ⟨seen, horderly⟩ := (hlater.reachable hnext).orderly
  have hfirst : b.chain.Becomes rules _ (b.submit rules roster block).branch.chain :=
    .submit roster block .refl
  have hle : b.chain.nextRank ≤ b'.chain.nextRank :=
    UInt64.le_trans (hfirst.nextRank_le h) (hlater.nextRank_le hnext)
  exact submit_behind horderly (UInt64.lt_of_lt_of_le (submit_stale hstale) hle)

/-- Chain 2 once block 2 has made block 1 final. -/
def sampleStale (graph : ForkGraph) : Branch :=
  (sampleRun (sampleRules 1) graph [sampleAfter 0 1 ⟨1, 2⟩, sampleAfter 1 2 ⟨2, 3⟩]).1

/-- Block 3 comes late. Block 4 moves the chain on, and block 3 comes again. -/
theorem sample_stale_for_good : ∃ (b b' : Branch) (log : List Receipt),
    b.chain.Reachable (sampleRules 1) ∧
    (b.submit (sampleRules 1) ⟨[], []⟩ (sampleAfter 8 3 ⟨1, 1⟩)).outcome =
      .rejected (.stale 2 1) ∧
    (b.submit (sampleRules 1) ⟨[], []⟩ (sampleAfter 8 3 ⟨1, 1⟩)).branch.chain.Becomes
      (sampleRules 1) log b'.chain ∧
    b'.chain.nextRank = 3 ∧
    (b'.submit (sampleRules 1) ⟨[], []⟩ (sampleAfter 8 3 ⟨1, 1⟩)).outcome.isAccepted = false := by
  obtain ⟨graph, hgraph, hout, hnext⟩ : ∃ graph,
      Chain.newGraph (sampleRules 1).config sampleSeed.id = .ok graph ∧
      ((sampleStale graph).submit (sampleRules 1) ⟨[], []⟩ (sampleAfter 8 3 ⟨1, 1⟩)).outcome =
        .rejected (.stale 2 1) ∧
      ((((sampleStale graph).submit (sampleRules 1) ⟨[], []⟩ (sampleAfter 8 3 ⟨1, 1⟩)).branch.submit
        (sampleRules 1) ⟨[], []⟩ (sampleAfter 2 4 ⟨3, 4⟩)).branch.chain).nextRank = 3 :=
    ⟨_, rfl, by decide +kernel, by decide +kernel⟩
  have hreach : (sampleStale graph).chain.Reachable (sampleRules 1) :=
    (becomes_deliver _ _ _).reachable (.start hgraph)
  have hlater := @becomes_deliver (sampleRules 1) [sampleAfter 2 4 ⟨3, 4⟩] ⟨[], []⟩
    ((sampleStale graph).submit (sampleRules 1) ⟨[], []⟩ (sampleAfter 8 3 ⟨1, 1⟩)).branch
  exact ⟨_, _, _, hreach, hout, hlater, hnext, stale_for_good hreach hout hlater⟩

end Branch

end ShardLedger
