import ShardLedger.Proofs.Chain.InStep
import ShardLedger.Proofs.Tree.Submission

/-!
# Submissions to a chain on which blocks wait

Once the blocks of a submission are released, applying them neither looks at the blocks that still
wait nor changes them. So the only change that a submission makes to what waits is made when the
block is received, and it goes for both records of the waiting blocks.

- `Chain.holding`, `Branch.applyAll_holding`: what waits may be replaced before blocks are applied,
  or after that.
- `Branch.submit_tended`, `Chain.Reachable.tended`: the records of waiting blocks are kept in step.
- `Branch.Frees`, `Branch.submit_frees`: exactly what was behind a block stops waiting with it.
-/

namespace ShardLedger

/-- The chain, with other blocks waiting on it. -/
def Chain.holding (backlog : Backlog) (buffered : BlockMap Block) (c : Chain) : Chain :=
  { c with backlog, buffered }

namespace Branch

variable {seen : List Block} {rules : Rules} {roster : Roster} {b : Branch} {block x : Block}
  {xs : List Block} {q : Backlog} {m : BlockMap Block}

/-! ### What waits is left alone -/

/-- The branch, with other blocks waiting on its topmost chain. -/
def holding (q : Backlog) (m : BlockMap Block) (b : Branch) : Branch :=
  b.withChain (b.chain.holding q m)

@[simp] theorem holding_chain : (b.holding q m).chain = b.chain.holding q m := chain_withChain _ _

theorem holding_self (b : Branch) : b.holding b.chain.backlog b.chain.buffered = b := by
  cases b <;> rfl

theorem withChain_holding (c : Chain) (b : Branch) :
    (b.holding q m).withChain (c.holding q m) = (b.withChain c).holding q m := by
  cases b <;> rfl

theorem spawn_holding (rules : Rules) (roster : Roster) (seed : Block) (b : Branch) :
    (b.holding q m).spawn rules roster seed =
      ((b.spawn rules roster seed).1.holding q m, (b.spawn rules roster seed).2) := by
  cases b with
  | split => rfl
  | leaf c =>
    show (leaf (c.holding q m)).spawn rules roster seed = _
    unfold spawn
    dsimp only
    rw [show (c.holding q m).load = c.load from rfl, show (c.holding q m).id = c.id from rfl,
      show (c.holding q m).cursor = c.cursor from rfl]
    -- whatever the checks say, they say it of both
    split
    · rfl
    split
    · rfl
    split
    · split <;> rfl
    · rfl

theorem settle_holding (rules : Rules) (roster : Roster) (block : Block) (b : Branch) :
    (b.holding q m).settle rules roster block =
      ((b.settle rules roster block).1.holding q m, (b.settle rules roster block).2) := by
  have hplaced : (b.holding q m).placed rules.config block =
      (b.placed rules.config block).holding q m := by
    cases b <;> rfl
  rw [settle_eq, settle_eq, hplaced, spawn_holding]

theorem settleAll_holding (rules : Rules) : ∀ (blocks : List Block) (roster : Roster) (b : Branch),
    settleAll rules roster (b.holding q m) blocks =
      ((settleAll rules roster b blocks).1.holding q m, (settleAll rules roster b blocks).2)
  | [], _, _ => rfl
  | block :: rest, roster, b => by
    unfold settleAll
    rw [settle_holding]
    exact settleAll_holding rules rest _ _

theorem apply_holding (rules : Rules) (roster : Roster) (b : Branch) (x : Block) :
    (b.holding q m).apply rules roster x =
      ((b.apply rules roster x).1.holding q m, (b.apply rules roster x).2) := by
  have happly : (b.holding q m).chain.apply x =
      (b.chain.apply x).map fun a => { a with chain := a.chain.holding q m } := by
    rw [holding_chain]
    unfold Chain.apply Chain.holding
    cases x.parent? with
    | none => rfl
    | some parent =>
      simp only [Option.bind_eq_bind, Option.bind_some]
      cases b.chain.blocks[parent]? with
      | none => rfl
      | some above =>
        simp only [Option.bind_some]
        split
        · rfl
        · split <;> rfl
  unfold apply
  rw [happly]
  cases ha : b.chain.apply x with
  | none => rfl
  | some a =>
    have hid : (b.holding q m).chain.id = b.chain.id := by rw [holding_chain]; rfl
    have hcollect : (a.chain.holding q m).collect a.step =
        ((a.chain.collect a.step).1.holding q m, (a.chain.collect a.step).2) := rfl
    simp only [Option.map_some, hid, hcollect]
    split
    · rw [withChain_holding]
    · rw [withChain_holding, settleAll_holding]

/-- Released blocks are applied alike whatever waits, and that stays as it is. -/
theorem applyAll_holding (rules : Rules) : ∀ (xs : List Block) (roster : Roster) (b : Branch),
    applyAll rules roster (b.holding q m) xs =
      ((applyAll rules roster b xs).1.holding q m, (applyAll rules roster b xs).2)
  | [], _, _ => rfl
  | x :: rest, roster, b => by
    unfold applyAll
    rw [apply_holding]
    dsimp only
    rw [applyAll_holding rules rest]

theorem applyAll_waiting (rules : Rules) (roster : Roster) (b : Branch) (xs : List Block) :
    (applyAll rules roster b xs).1.chain.backlog = b.chain.backlog ∧
      (applyAll rules roster b xs).1.chain.buffered = b.chain.buffered := by
  have h := applyAll_holding rules xs roster b (q := b.chain.backlog) (m := b.chain.buffered)
  rw [holding_self] at h
  have hchain := congrArg (fun out => out.1.chain) h
  dsimp only at hchain
  rw [holding_chain] at hchain
  rw [hchain]
  exact ⟨rfl, rfl⟩

end Branch

/-! ### Kept in step -/

namespace Chain

variable {seen xs : List Block} {c : Chain} {block : Block} {parent : BlockId}

/-- Nothing waits for the blocks that a received block releases. -/
theorem Tended.receive (h : c.Tended seen) (hb : Admitted seen c.id block)
    (hparent : block.parent? = some parent) :
    (c.receive block parent).1.Tended seen ∧
      ∀ xs, (c.receive block parent).2 = .released xs →
        ∀ x ∈ xs, (c.receive block parent).1.backlog.waiting[x.id]? = none := by
  have hreceived : Received c block parent (c.receive block parent).1 (c.receive block parent).2 :=
    received rfl
  have horderly := (h.toOrderly.receive hb hparent).1
  generalize (c.receive block parent).1 = d, (c.receive block parent).2 = verdict
    at hreceived horderly ⊢
  cases hreceived with
  | retired => exact ⟨h, fun _ hxs => nomatch hxs⟩
  | known => exact ⟨h, fun _ hxs => nomatch hxs⟩
  | stale => exact ⟨h, fun _ hxs => nomatch hxs⟩
  | buffered _ hnew hgone => exact ⟨h.buffer hb hparent hnew hgone, fun _ hxs => nomatch hxs⟩
  | below _ hnew =>
    refine ⟨h.discard horderly (fun k b hk => ?_) fun k b hk hids => ?_, fun _ hxs => nomatch hxs⟩
    · exact h.not_listed hnew k b ((Backlog.listed_strike _).1 hk).1
    · exact ⟨h.not_listed hnew k b hk, hids⟩
  | released _ hnew =>
    obtain ⟨htended, hnone⟩ := h.release hb hnew
    refine ⟨htended, fun xs hxs => ?_⟩
    cases hxs
    exact hnone

end Chain

namespace Branch

variable {seen xs after : List Block} {rules : Rules} {roster : Roster} {b : Branch}
  {block x : Block}

theorem apply_tended (h : b.chain.Tended seen) (hready : b.chain.Ready seen (x :: xs))
    (hnone : b.chain.backlog.waiting[x.id]? = none) :
    (b.apply rules roster x).1.chain.Tended seen := by
  cases ha : b.chain.apply x with
  | none =>
    rw [apply_of_none ha]
    exact h
  | some a => exact (h.enter hready hnone ha rules.config).of_bare (apply_top ha)

theorem apply_waiting (rules : Rules) (roster : Roster) (b : Branch) (x : Block) :
    (b.apply rules roster x).1.chain.backlog = b.chain.backlog :=
  (applyAll_waiting rules roster b [x]).1

theorem applyAll_tended : ∀ (xs : List Block) (roster : Roster) {b : Branch},
    b.chain.Tended seen → b.chain.Ready seen xs →
      (∀ x ∈ xs, b.chain.backlog.waiting[x.id]? = none) →
        (applyAll rules roster b xs).1.chain.Tended seen
  | [], _, _, h, _, _ => h
  | x :: rest, roster, b, h, hready, hnone => by
    obtain ⟨hfirst, hrest⟩ := List.forall_mem_cons.1 hnone
    have hlater : ∀ y ∈ rest,
        (b.apply rules roster x).1.chain.backlog.waiting[y.id]? = none := by
      rwa [apply_waiting]
    exact applyAll_tended rest (b.apply rules roster x).2.1 (apply_tended h hready hfirst)
      (apply_orderly h.toOrderly hready).2 hlater

theorem submit_tended (rules : Rules) (roster : Roster) (h : b.chain.Tended seen)
    (hseen : block ∈ seen) : (b.submit rules roster block).branch.chain.Tended seen := by
  have hsubmitted := b.submitted rules roster block
  generalize b.submit rules roster block = s at hsubmitted ⊢
  cases hsubmitted with
  | screened => exact h
  | @settled parent c outcome hscreen hreceive =>
    obtain ⟨hb, hparent⟩ := Chain.admitted_of_screen hseen hscreen
    have htended := (h.receive hb hparent).1
    rw [hreceive] at htended
    rwa [chain_withChain]
  | @entered parent c xs hscreen hreceive =>
    obtain ⟨hb, hparent⟩ := Chain.admitted_of_screen hseen hscreen
    obtain ⟨htended, hnone⟩ := h.receive hb hparent
    have hready := (h.toOrderly.receive hb hparent).2
    rw [hreceive] at htended hnone hready
    refine applyAll_tended xs roster ?_ ?_ ?_
    · rwa [chain_withChain]
    · rw [chain_withChain]
      exact hready xs rfl
    · rw [chain_withChain]
      exact hnone xs rfl

end Branch

theorem Chain.Reachable.tended {rules : Rules} {c : Chain} (h : c.Reachable rules) :
    ∃ seen, c.Tended seen := by
  induction h with
  | start hgraph => exact ⟨[], (Chain.orderly_start hgraph).tended rfl rfl⟩
  | submit roster block _ ih =>
    obtain ⟨seen, htended⟩ := ih
    exact ⟨block :: seen, Branch.submit_tended rules roster
      (htended.mono (List.subset_cons_self ..)) (List.mem_cons_self ..)⟩
  | discardPending id _ ih =>
    obtain ⟨seen, htended⟩ := ih
    exact ⟨seen, htended.discardPending id⟩
  | retire _ ih =>
    obtain ⟨seen, htended⟩ := ih
    exact ⟨seen, htended.retire⟩
  | rest content undelivered permanent _ ih =>
    obtain ⟨seen, htended⟩ := ih
    exact ⟨seen, htended.rest content undelivered _ permanent⟩

/-! ### What stops waiting -/

namespace Branch

variable {seen : List Block} {rules : Rules} {roster : Roster} {b : Branch} {block : Block}

/-- When `block` is applied, exactly the blocks behind it stop waiting. -/
structure Frees (rules : Rules) (roster : Roster) (b : Branch) (block : Block) : Prop where
  waited : ∀ x, b.chain.backlog.Behind block.id x → b.chain.buffered[x.id]? = some x
  left : ∀ (n : BlockId) (y : Block),
    (b.submit rules roster block).branch.chain.buffered[n]? = some y ↔
      b.chain.buffered[n]? = some y ∧ ¬b.chain.backlog.Behind block.id y

theorem submit_frees (h : b.chain.Orderly seen) {n : Nat}
    (hout : (b.submit rules roster block).outcome = .applied n) : Frees rules roster b block := by
  refine ⟨fun x => h.behind_buffered, fun n y => ?_⟩
  have hsubmitted := b.submitted rules roster block
  generalize b.submit rules roster block = s at hsubmitted hout ⊢
  cases hsubmitted with
  | screened => cases hout
  | @settled parent c outcome hscreen hreceive =>
    cases hout
    exact absurd hreceive Chain.receive_ne_applied
  | @entered parent c xs hscreen hreceive =>
    cases Chain.received hreceive with
    | released _ hnew =>
      show (applyAll ..).1.chain.buffered[n]? = some y ↔ _
      rw [(applyAll_waiting ..).2, chain_withChain]
      refine h.forget_behind (fun k ⟨w, hw⟩ => ?_) n y
      -- the block itself does not wait
      rw [h.mem_released hnew, or_iff_right]
      rintro rfl
      rw [(h.unknown hnew).2] at hw
      cases hw

end Branch

end ShardLedger
