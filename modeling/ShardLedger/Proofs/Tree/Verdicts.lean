import ShardLedger.Ledger.Branch

/-!
# What becomes of a submitted block

The ways that a submission can go, one by one, with all that was checked on the way. Whoever asks
for the outcome of a submission goes through these cases, and not through the code.

- `Chain.screen_eq_ok`: what passes the screen.
- `Chain.Received`, `Chain.received`: what a chain makes of a screened block.
- `Branch.apply_of_none`, `Branch.apply_of_some`: what one released block does.
- `Branch.Submitted`, `Branch.submitted`: what comes of a submission.
-/

namespace ShardLedger

namespace Chain

variable {rules : Rules} {c d : Chain} {block : Block} {parent : BlockId} {verdict : Verdict}
  {id : ChainId}

/-! ### The screen -/

/-- What passes the screen names one parent and this chain, has its ranks in order and is
accepted. -/
theorem screen_eq_ok : screen rules id block = .ok parent ↔
    block.parent? = some parent ∧ block.chain = id ∧ block.rank.current ≤ block.rank.next ∧
      rules.accepts block = true := by
  unfold screen Rank.isOrdered
  constructor
  · intro h
    split at h
    · cases h
    rename_i p hparent
    split at h
    · cases h
    rename_i hchain
    split at h
    · cases h
    rename_i hrank
    split at h
    · cases h
    rename_i haccepts
    cases h
    exact ⟨hparent, Decidable.not_not.1 hchain, by simpa using hrank, by simpa using haccepts⟩
  · rintro ⟨hparent, hchain, hrank, haccepts⟩
    simp [hparent, hchain, hrank, haccepts]

/-- What passes the screen is accepted. -/
theorem accepts_of_screen (h : screen rules id block = .ok parent) :
    rules.accepts block = true := (screen_eq_ok.1 h).2.2.2

/-- The screen looks at the block alone. -/
theorem screen_error {reason : Rejection} (h : screen rules id block = .error reason) :
    (∃ count, reason = .malformedPrevious count) ∨ (∃ got, reason = .wrongChain id got) ∨
      (∃ rank, reason = .rankOutOfOrder rank) ∨ reason = .invalid := by
  unfold screen at h
  split at h
  · cases h
    exact .inl ⟨_, rfl⟩
  split at h
  · cases h
    exact .inr (.inl ⟨_, rfl⟩)
  split at h
  · cases h
    exact .inr (.inr (.inl ⟨_, rfl⟩))
  split at h
  · cases h
    exact .inr (.inr (.inr rfl))
  · cases h

theorem screen_ne_stale {nextRank got : UInt64} :
    screen rules id block ≠ .error (.stale nextRank got) := by
  intro h
  rcases screen_error h with ⟨_, h⟩ | ⟨_, h⟩ | ⟨_, h⟩ | h <;> cases h

theorem screen_ne_rankBelowParent {required got : UInt64} :
    screen rules id block ≠ .error (.rankBelowParent required got) := by
  intro h
  rcases screen_error h with ⟨_, h⟩ | ⟨_, h⟩ | ⟨_, h⟩ | h <;> cases h

/-! ### The verdict -/

/-- What chain `c` makes of a screened block that names `parent`: the chain afterwards, and the
verdict. -/
inductive Received (c : Chain) (block : Block) (parent : BlockId) : Chain → Verdict → Prop where
  | retired (hretired : c.retired = true) :
      Received c block parent c (.done (.rejected (.retired c.id)))
  | known (hretired : c.retired = false) (hknows : c.knows block.id = true) :
      Received c block parent c (.done .duplicate)
  | stale (hretired : c.retired = false) (hnew : c.knows block.id = false)
      (hgone : c.blocks[parent]? = none) (hrank : block.rank.current < c.nextRank) :
      Received c block parent c (.done (.rejected (.stale c.nextRank block.rank.current)))
  | buffered (hretired : c.retired = false) (hnew : c.knows block.id = false)
      (hgone : c.blocks[parent]? = none) (hrank : c.nextRank ≤ block.rank.current) :
      Received c block parent
        { c with buffered := c.buffered.insert block.id block
                 backlog := c.backlog.enlist block [parent] } (.done .buffered)
  | below {above : Block} (hretired : c.retired = false) (hnew : c.knows block.id = false)
      (habove : c.blocks[parent]? = some above) (hrank : block.rank.current < above.rank.next) :
      Received c block parent
        (({ c with backlog := (c.backlog.discard block).1 } : Chain).forget
          ((c.backlog.discard block).2.map (·.id)))
        (.done (.rejected (.rankBelowParent above.rank.next block.rank.current)))
  | released {above : Block} (hretired : c.retired = false) (hnew : c.knows block.id = false)
      (habove : c.blocks[parent]? = some above) (hrank : above.rank.next ≤ block.rank.current) :
      Received c block parent
        (({ c with backlog := (c.backlog.release block).1 } : Chain).forget
          ((c.backlog.release block).2.map (·.id)))
        (.released (c.backlog.release block).2)

theorem received (h : c.receive block parent = (d, verdict)) :
    Received c block parent d verdict := by
  unfold receive at h
  split at h
  · cases h
    exact .retired ‹_›
  rename_i hretired
  have hretired := eq_false_of_ne_true hretired
  split at h
  · cases h
    exact .known hretired ‹_›
  rename_i hknows
  have hnew := eq_false_of_ne_true hknows
  split at h
  · split at h
    · cases h
      exact .stale hretired hnew ‹_› ‹_›
    · cases h
      exact .buffered hretired hnew ‹_› (UInt64.not_lt.1 ‹_›)
  · split at h
    · cases h
      exact .below hretired hnew ‹_› ‹_›
    · cases h
      exact .released hretired hnew ‹_› (UInt64.not_lt.1 ‹_›)

/-- A retired chain takes no blocks. -/
theorem receive_retired (hretired : c.retired = true) (block : Block) (parent : BlockId) :
    c.receive block parent = (c, .done (.rejected (.retired c.id))) :=
  if_pos hretired

/-- A new block whose parent is not live waits for it, if its rank is not behind. -/
theorem receive_buffers (hretired : c.retired = false) (hnew : c.knows block.id = false)
    (hgone : c.blocks[parent]? = none) (hrank : c.nextRank ≤ block.rank.current) :
    c.receive block parent =
      ({ c with buffered := c.buffered.insert block.id block
                backlog := c.backlog.enlist block [parent] }, .done .buffered) := by
  unfold receive
  rw [if_neg (Bool.eq_false_iff.1 hretired), if_neg (Bool.eq_false_iff.1 hnew), hgone]
  exact if_neg (UInt64.not_lt.2 hrank)

/-- A new block whose parent is live and asks for no higher rank is released. -/
theorem receive_releases {above : Block} (hretired : c.retired = false)
    (hnew : c.knows block.id = false) (habove : c.blocks[parent]? = some above)
    (hrank : above.rank.next ≤ block.rank.current) :
    c.receive block parent =
      (({ c with backlog := (c.backlog.release block).1 } : Chain).forget
        ((c.backlog.release block).2.map (·.id)), .released (c.backlog.release block).2) := by
  unfold receive
  rw [if_neg (Bool.eq_false_iff.1 hretired), if_neg (Bool.eq_false_iff.1 hnew), habove]
  exact if_neg (UInt64.not_lt.2 hrank)

/-- A block that is released is the first to be, its parent is live and asks for no higher rank. -/
theorem receive_released {xs : List Block} (h : c.receive block parent = (d, .released xs)) :
    ∃ behind above, xs = block :: behind ∧ d.blocks[parent]? = some above ∧
      above.rank.next ≤ block.rank.current := by
  cases received h with
  | released _ _ habove hrank => exact ⟨_, _, rfl, habove, hrank⟩

/-- A block counts as applied only where it is released. -/
theorem receive_ne_applied {n : Nat} : c.receive block parent ≠ (d, .done (.applied n)) :=
  fun h => nomatch received h

/-! ### Entering -/

/-- A chain and the blocks that it finalized, once a block has entered it. -/
def Applied.outcome (a : Applied) : Chain × List Block :=
  if a.step.isEmpty then (a.chain, []) else a.chain.collect a.step

/-- What is reported of a block that has entered. -/
def Applied.reports (a : Applied) (chain : ChainId) (block : BlockId) : List Event :=
  .applied chain block a.weight ::
    if a.step.isEmpty then [] else [.finalized chain a.step.finalized a.step.pruned]

end Chain

namespace Branch

variable {rules : Rules} {roster : Roster} {b : Branch} {block : Block}

/-- A block that stays outside changes nothing, and nothing is reported. -/
theorem apply_of_none (h : b.chain.apply block = none) :
    b.apply rules roster block = (b, roster, []) := by
  unfold apply
  rw [h]

/-- The blocks that an entering block finalizes are finalized in the branch. -/
theorem apply_of_some {a : Chain.Applied} (h : b.chain.apply block = some a) :
    b.apply rules roster block =
      ((settleAll rules roster (b.withChain a.outcome.1) a.outcome.2).1,
        (settleAll rules roster (b.withChain a.outcome.1) a.outcome.2).2,
        a.reports b.chain.id block.id) := by
  unfold apply Chain.Applied.outcome Chain.Applied.reports
  rw [h]
  dsimp only
  split <;> rfl

/-- What comes of a block that is submitted to the topmost chain. -/
inductive Submitted (rules : Rules) (roster : Roster) (b : Branch) (block : Block) :
    Submission → Prop where
  | screened {reason : Rejection} (hscreen : Chain.screen rules b.chain.id block = .error reason) :
      Submitted rules roster b block ⟨b, roster, .rejected reason, []⟩
  | settled {parent : BlockId} {c : Chain} {outcome : Outcome}
      (hscreen : Chain.screen rules b.chain.id block = .ok parent)
      (hreceive : b.chain.receive block parent = (c, .done outcome)) :
      Submitted rules roster b block ⟨b.withChain c, roster, outcome, []⟩
  | entered {parent : BlockId} {c : Chain} {xs : List Block}
      (hscreen : Chain.screen rules b.chain.id block = .ok parent)
      (hreceive : b.chain.receive block parent = (c, .released xs)) :
      Submitted rules roster b block
        ⟨(applyAll rules roster (b.withChain c) xs).1,
          (applyAll rules roster (b.withChain c) xs).2.1,
          .applied (applyAll rules roster (b.withChain c) xs).2.2.1,
          (applyAll rules roster (b.withChain c) xs).2.2.2⟩

theorem submitted (rules : Rules) (roster : Roster) (b : Branch) (block : Block) :
    Submitted rules roster b block (b.submit rules roster block) := by
  unfold submit
  split
  · exact .screened ‹_›
  · rename_i parent hscreen
    split
    · exact .settled hscreen ‹_›
    · exact .entered hscreen ‹_›

/-- Where the chain settles the matter at once, only the chain may be different. -/
theorem submit_done {parent : BlockId} {c : Chain} {outcome : Outcome}
    (hscreen : Chain.screen rules b.chain.id block = .ok parent)
    (hreceive : b.chain.receive block parent = (c, .done outcome)) :
    b.submit rules roster block = ⟨b.withChain c, roster, outcome, []⟩ := by
  simp only [submit, hscreen, hreceive]

/-- Where blocks are released, they are applied. -/
theorem submit_released {parent : BlockId} {c : Chain} {xs : List Block}
    (hscreen : Chain.screen rules b.chain.id block = .ok parent)
    (hreceive : b.chain.receive block parent = (c, .released xs)) :
    b.submit rules roster block =
      ⟨(applyAll rules roster (b.withChain c) xs).1,
        (applyAll rules roster (b.withChain c) xs).2.1,
        .applied (applyAll rules roster (b.withChain c) xs).2.2.1,
        (applyAll rules roster (b.withChain c) xs).2.2.2⟩ := by
  simp only [submit, hscreen, hreceive]

end Branch

end ShardLedger
