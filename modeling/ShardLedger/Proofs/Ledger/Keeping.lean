import Mathlib.Data.Multiset.AddSub
import ShardLedger.Proofs.Ledger.Listing
import ShardLedger.Proofs.Ledger.Shifting

/-!
# Nothing is lost

A content item that was submitted waits on some live chain until it is withdrawn or a chain
finalizes a block that lists it. No other thing that can be asked of a ledger makes it go: neither
splits and merges, nor passes that remove merged chains.

- `Run.finalizedSince`: what was finalized between two points of a run.
- `Run.Advances`, `Run.advances`: what happens to blocks and items between two points of a run.
- `Run.content_kept`: a submitted item still waits, unless it was withdrawn or listed.
- `Run.listed_not_pending`: in faithful runs, what a finalized block lists waits nowhere.
-/

namespace ShardLedger

/-- The item that is taken out by hand. -/
def Operation.withdrawn? : Operation → Option ContentId
  | invalidate x => some x
  | _ => none

/-- The items that are taken out by hand. -/
def withdrawnOf (ops : List Operation) : List ContentId := ops.filterMap Operation.withdrawn?

theorem withdrawnOf_append (ops later : List Operation) :
    withdrawnOf (ops ++ later) = withdrawnOf ops ++ withdrawnOf later := List.filterMap_append

/-- What waits in a store, a depot that shows the ledger holds. -/
theorem Ledger.Shows.exists_holds {seen : List Block} {l : Ledger} {d : Depot} {id : ChainId}
    {x : ContentId} (hd : l.Shows d) (h : l.Arranged seen) (hp : l.Pending id x) :
    ∃ q, d.holds q x := by
  obtain ⟨b, hb, hx⟩ := hp
  rcases Ledger.branch?_cases hb with hlive | ⟨-, c, hc, -, rfl⟩
  · -- the chain is found by its own number as well
    obtain ⟨hpath, -⟩ := Ledger.path_of_live h hlive
    exact ⟨b.chain.id, (hd.depicts.holds _ _).2
      ⟨_, Branch.faces_top (hpath ▸ hlive) rfl, hx⟩⟩
  · exact absurd hx (hd.emptied c hc x)

namespace Run

variable {seen : List Block} {rules : Rules} {ops ops' before later : List Operation}
  {r r' r'' r₀ : Run} {log log' : List Block} {x : ContentId}

/-- The blocks that chains have finalized so far: those that are in line, and those that are still
in the queue of a chain. -/
def finalizedBlocks (r : Run) : List Block := r.linearized.map (·.block) ++ r.ledger.undelivered

/-- The blocks that chains have finalized after an earlier point of the run. -/
def finalizedSince (r₀ r : Run) : List Block := r.finalizedBlocks.diff r₀.finalizedBlocks

/-- Between two points of a run the blocks of the log are finalized. Only submitted items come in,
and only items that are withdrawn or listed by those blocks may go. -/
structure Advances (ops : List Operation) (r r' : Run) (log : List Block) : Prop where
  account : r'.finalizedBlocks.Perm (r.finalizedBlocks ++ log)
  shifts : Ledger.Shifts (itemsOf ops) (withdrawnOf ops ++ log.flatMap (·.contentIds))
    r.ledger r'.ledger

theorem Advances.refl (r : Run) : Advances [] r r [] :=
  ⟨by rw [List.append_nil], .refl r.ledger⟩

theorem Advances.trans (h₁ : Advances ops r r' log) (h₂ : Advances ops' r' r'' log') :
    Advances (ops ++ ops') r r'' (log ++ log') := by
  refine ⟨?_, ?_⟩
  · rw [← List.append_assoc]
    exact h₂.account.trans (h₁.account.append_right log')
  · rw [itemsOf_append, withdrawnOf_append, List.flatMap_append]
    refine (h₁.shifts.trans h₂.shifts).mono fun x hx => ?_
    simp only [List.mem_append] at hx ⊢
    tauto

/-- What comes on top of the blocks finalized before is what was finalized since. -/
theorem finalizedSince_perm (h : r'.finalizedBlocks.Perm (r.finalizedBlocks ++ log)) :
    (finalizedSince r r').Perm log := by
  refine (h.diff_right r.finalizedBlocks).trans ?_
  rw [← Multiset.coe_eq_coe, ← Multiset.coe_sub, ← Multiset.coe_add, Multiset.add_comm,
    Multiset.add_sub_cancel_right]

/-- What was finalized in between is what was finalized since. -/
theorem Advances.since (h : Advances ops r r' log) : (finalizedSince r r').Perm log :=
  finalizedSince_perm h.account

/-! ### One operation -/

/-- The account of a change that finalizes the blocks of a log and delivers some. -/
theorem Tracks.account {l : Ledger} {entries : List (ChainId × Block)}
    {delivered : List Linearized} (h : r.Tracks seen rules)
    (hsteps : ∀ fin del, Board.Steps seen ⟨r.ledger.lanes, fin, del⟩
      ⟨l.lanes, fin ++ entries, del ++ delivered.map fun d => (d.chain, d.block)⟩) :
    ((r.linearized ++ delivered).map (·.block) ++ l.undelivered).Perm
      (r.finalizedBlocks ++ entries.map (·.2)) := by
  obtain ⟨fin, -, hboard⟩ := h.board
  have hold := (Board.Steps.conserved hboard).total
  have hnew := (Board.Steps.conserved (hboard.trans (hsteps _ _))).total
  simp only [Ledger.queued_lanes, List.map_append, List.map_map] at hold hnew
  rw [List.map_append]
  exact hnew.symm.trans (hold.append_right _)

/-- An operation that finalizes nothing and delivers nothing. -/
theorem Tracks.account_quiet {l : Ledger} (h : r.Tracks seen rules)
    (hp : Ledger.Progress seen r.ledger l []) :
    ({ r with ledger := l } : Run).finalizedBlocks.Perm (r.finalizedBlocks ++ []) := by
  obtain ⟨entries, hnil, hsteps⟩ := hp.steps
  obtain rfl : entries = [] := List.map_eq_nil_iff.1 hnil.symm
  have haccount := @Tracks.account seen rules r l [] [] h fun fin del => by
    rw [List.map_nil, List.append_nil del]
    exact hsteps fin del
  rw [List.append_nil] at haccount
  exact haccount

/-- Passes finalize nothing. -/
theorem Tracks.account_passes {l : Ledger} {passes : List Ledger.Pass} {events : List Event}
    (h : r.Tracks seen rules)
    (hd : Ledger.Delivers seen r.ledger l (passes.flatMap (·.delivered))) :
    ({ r with ledger := l, events, passes := r.passes ++ passes } : Run).finalizedBlocks.Perm
      (r.finalizedBlocks ++ []) := by
  have haccount := @Tracks.account seen rules r l [] _ h fun fin del => by
    rw [List.append_nil fin]
    exact hd.steps fin del
  show ((List.flatMap _ (r.passes ++ passes)).map _ ++ _).Perm _
  rw [List.flatMap_append]
  exact haccount

/-- What one operation does to blocks and items. -/
theorem Tracks.advances (h : r.Tracks seen rules) (ht : r.ledger.Tidy seen) (op : Operation)
    (hseen : ∀ block ∈ op.block?, block ∈ seen) :
    ∃ log, Advances [op] r (r.perform rules op) log := by
  cases op with
  | submitBlock block =>
    obtain ⟨entries, hsteps, hshifts⟩ :=
      Ledger.submitBlock_consumes rules h.arranged (hseen block rfl)
    refine ⟨entries.map (·.2), ?_, ?_⟩
    · have haccount := @Tracks.account seen rules r _ entries [] h fun fin del => by
        rw [List.map_nil, List.append_nil del]
        exact hsteps fin del
      rw [List.append_nil] at haccount
      exact haccount
    · rw [List.flatMap_map]
      exact hshifts
  | submitContent item =>
    exact ⟨[], h.account_quiet (Ledger.submitContent_progress h.arranged item),
      Ledger.submitContent_shifts ht item⟩
  | invalidate x =>
    exact ⟨[], h.account_quiet (Ledger.invalidate_progress h.arranged x),
      Ledger.invalidate_shifts x⟩
  | propose chain maxSize =>
    refine ⟨[], ?_⟩
    cases hp : r.ledger.proposal rules chain maxSize with
    | ok p =>
      rw [perform_propose_ok hp]
      exact ⟨by rw [List.append_nil]; exact .refl _, .refl r.ledger⟩
    | error e =>
      rw [perform_propose_error hp]
      exact ⟨by rw [List.append_nil], .refl r.ledger⟩
  | discardPending chain block =>
    exact ⟨[], h.account_quiet (Ledger.discardPending_progress h.arranged chain block),
      Ledger.discardPending_shifts chain block⟩
  | tick =>
    obtain ⟨hd, -⟩ := Ledger.tick_delivers rules h.arranged
    -- one pass is a list of one
    have haccount := @Tracks.account_passes seen rules r _ [r.ledger.tick rules]
      (r.events ++ (r.ledger.tick rules).events) h (by simpa using hd)
    exact ⟨[], haccount, Ledger.tick_shifts rules⟩
  | settle =>
    obtain ⟨hd, -⟩ := Ledger.settle_delivers rules h.arranged
    exact ⟨[], h.account_passes hd, Ledger.settle_shifts rules⟩

/-! ### Runs -/

theorem after_perform (h : Run.after rules ops = .ok r) (op : Operation) :
    Run.after rules (ops ++ [op]) = .ok (r.perform rules op) := by
  obtain ⟨l, hl, rfl⟩ := after_eq h
  rw [after_of_create hl, List.foldl_append, List.foldl_cons, List.foldl_nil]

/-- Nothing is stored in a fresh ledger. -/
theorem create_tidy {l : Ledger} (h : Ledger.create rules = .ok l) : l.Tidy seen := by
  obtain ⟨harranged, -⟩ := @create_arranged seen _ _ h
  obtain ⟨graph, -, rfl⟩ := create_eq h
  refine ⟨harranged, .leaf ⟨rfl, ContentStore.keyed_empty, fun x item hx => ?_⟩,
    fun c hc => nomatch hc⟩
  exact absurd ⟨item, hx⟩ ContentStore.not_holds_empty

theorem perform_advances (h : Run.after rules ops = .ok r) (ht : r.ledger.Tidy (blocksOf ops))
    (op : Operation) : ∃ log, Advances [op] r (r.perform rules op) log := by
  have hsub : blocksOf ops ⊆ blocksOf (ops ++ [op]) := by
    rw [blocksOf_append]
    exact List.subset_append_left _ _
  have htracks := tracks h hsub
  refine htracks.advances ⟨htracks.arranged, ht.sorted, ht.emptied⟩ op fun block hblock => ?_
  rw [blocksOf_append]
  exact List.mem_append_right _ (List.mem_filterMap.2 ⟨op, List.mem_singleton_self op, hblock⟩)

/-- At every point of a run all items lie where their fingerprints lead. -/
theorem tidy (h : Run.after rules ops = .ok r) : r.ledger.Tidy (blocksOf ops) := by
  induction ops using List.reverseRecOn generalizing r with
  | nil =>
    obtain ⟨l, hl, rfl⟩ := after_eq h
    exact create_tidy hl
  | append_singleton ops op ih =>
    obtain ⟨r₀, hr₀, rfl⟩ := after_concat h
    obtain ⟨log, hadvances⟩ := perform_advances hr₀ (ih hr₀) op
    exact hadvances.shifts.tidy (ih hr₀) (tracks h (List.Subset.refl _)).arranged

/-- What happens to blocks and items from one point of a run to a later one. -/
theorem advances (h₀ : Run.after rules before = .ok r₀)
    (h : Run.after rules (before ++ later) = .ok r) : ∃ log, Advances later r₀ r log := by
  induction later using List.reverseRecOn generalizing r with
  | nil =>
    rw [List.append_nil, h₀, Except.ok.injEq] at h
    exact ⟨[], h ▸ .refl r₀⟩
  | append_singleton later op ih =>
    rw [← List.append_assoc] at h
    obtain ⟨r₁, hr₁, rfl⟩ := after_concat h
    obtain ⟨log, hfirst⟩ := ih hr₁
    obtain ⟨log', hlast⟩ := perform_advances hr₁ (tidy hr₁) op
    exact ⟨log ++ log', hfirst.trans hlast⟩

/-- What is finalized after a point of a run comes on top of what was finalized before, and the
identities are those that are reported. -/
theorem finalizedSince_spec (h₀ : Run.after rules before = .ok r₀)
    (h : Run.after rules (before ++ later) = .ok r) :
    r.finalizedBlocks.Perm (r₀.finalizedBlocks ++ finalizedSince r₀ r) ∧
      (r.finalizations.map (·.2)).Perm
        (r₀.finalizations.map (·.2) ++ (finalizedSince r₀ r).map (·.id)) := by
  obtain ⟨log, hadvances⟩ := advances h₀ h
  have hblocks := hadvances.account.trans (hadvances.since.symm.append_left _)
  have hreported : ∀ {ops r}, Run.after rules ops = .ok r →
      (r.finalizations.map (·.2)).Perm (r.finalizedBlocks.map (·.id)) := by
    intro ops r hr
    have hperm := (tracks hr (List.Subset.refl _)).perm
    unfold finalizedBlocks
    rw [List.map_append, List.map_map]
    exact hperm
  refine ⟨hblocks, (hreported h).trans ?_⟩
  have hids := hblocks.map (·.id)
  rw [List.map_append] at hids
  exact hids.trans ((hreported h₀).symm.append_right _)

/-! ### Pending items -/

/-- An item that was submitted waits in the store of a live chain, unless it was withdrawn since, or
a chain has finalized a block since that lists it. -/
theorem content_kept {item : ContentItem} (h₀ : Run.after rules before = .ok r₀)
    (h : Run.after rules (before ++ .submitContent item :: later) = .ok r)
    (hwithdrawn : item.id ∉ withdrawnOf later)
    (hunlisted : ∀ b ∈ finalizedSince r₀ r, item.id ∉ b.contentIds) :
    ∃ p c, r.ledger.root.chainAt p = some c ∧ c.retired = false ∧ c.content.Holds item.id := by
  rw [List.append_cons] at h
  have h₁ := after_perform h₀ (.submitContent item)
  obtain ⟨log₁, hfirst⟩ := advances h₀ h₁
  obtain ⟨log, hlater⟩ := advances h₁ h
  have hstored := Ledger.submitContent_holds r₀.ledger item
  -- it does not go afterwards, so it is on one of the live chains
  have hkept : r.ledger.root.Holds item.id := by
    refine hlater.shifts.root.holds item.id hstored fun hgone => ?_
    rcases List.mem_append.1 hgone with hgone | hgone
    · exact hwithdrawn hgone
    · obtain ⟨b, hb, hlisted⟩ := List.mem_flatMap.1 hgone
      have hsince := (hfirst.trans hlater).since.symm.subset (List.mem_append_right _ hb)
      exact hunlisted b hsince hlisted
  obtain ⟨p, c, hc, hx⟩ := Branch.holds_iff.1 hkept
  obtain ⟨top, hrun⟩ := (tidy h).arranged.running p c hc
  exact ⟨p, c, hc, hrun.live, hx⟩

/-- In the sample, the root is split after the item was stored, and the item waits on the left. -/
theorem sample_kept : ∃ r₀ r, Run.after sampleRules [] = .ok r₀ ∧
    Run.after sampleRules (sampleOps.take 6) = .ok r ∧
    sampleItem.id ∉ withdrawnOf (sampleOps.take 6).tail ∧
    (finalizedSince r₀ r).map (·.id) = [⟨1⟩] ∧
    (∀ b ∈ finalizedSince r₀ r, sampleItem.id ∉ b.contentIds) ∧
    ∃ p c, r.ledger.root.chainAt p = some c ∧ c.retired = false ∧
      c.content.Holds sampleItem.id := by
  have hboth : (Run.after sampleRules []).toOption.any (fun r₀ =>
      (Run.after sampleRules (sampleOps.take 6)).toOption.any fun r =>
        (finalizedSince r₀ r).map (·.id) = [⟨1⟩] ∧
          ∀ b ∈ finalizedSince r₀ r, sampleItem.id ∉ b.contentIds) = true := by decide +kernel
  obtain ⟨r₀, hr₀, hlater⟩ := exists_after_of_any hboth
  obtain ⟨r, hr, hfinal⟩ := exists_after_of_any hlater
  obtain ⟨hids, hunlisted⟩ := of_decide_eq_true hfinal
  have hwithdrawn : sampleItem.id ∉ withdrawnOf (sampleOps.take 6).tail := by decide
  exact ⟨r₀, r, hr₀, hr, hwithdrawn, hids, hunlisted,
    content_kept hr₀ hr hwithdrawn hunlisted⟩

/-- In a faithful run, no item that a finalized block lists waits in a store. -/
theorem listed_not_pending (h : Run.after rules ops = .ok r)
    (hitems : ((itemsOf ops).map (·.id)).Nodup)
    (hcoherent : Coherent (Block.genesis .root :: blocksOf ops))
    (hfaithful : Faithful rules ops) :
    ∀ b x, Finalized ops r b → x ∈ b.contentIds → ∀ id, ¬r.ledger.Pending id x := by
  intro b x hb hx id hpending
  have hclear : Clear ops := ⟨hitems, hcoherent⟩
  obtain ⟨d, hd⟩ := exists_stocks h hclear hfaithful
  obtain ⟨q, hq⟩ := hd.shows.exists_holds (tidy h).arranged hpending
  -- the depot holds nothing that a block has listed
  exact hd.lawful.gone b (hd.mem_finalized hclear hb.1 hb.2) x hx q hq

/-- In the sample, the item is submitted and listed by finalized blocks, and waits nowhere. -/
theorem sample_not_pending : ∃ r, Run.after sampleRules sampleOps = .ok r ∧
    ((itemsOf sampleOps).map (·.id)).Nodup ∧
    Coherent (Block.genesis .root :: blocksOf sampleOps) ∧ Faithful sampleRules sampleOps ∧
    Finalized sampleOps r sampleLower ∧ sampleItem.id ∈ sampleLower.contentIds ∧
    ∀ id, ¬r.ledger.Pending id sampleItem.id := by
  obtain ⟨r, hr, -, hlower⟩ := sample_finalized
  have hlisted : sampleItem.id ∈ sampleLower.contentIds := by decide
  exact ⟨r, hr, by decide, sample_coherent, sample_faithful, hlower, hlisted,
    listed_not_pending hr (by decide) sample_coherent sample_faithful _ _ hlower hlisted⟩

end Run

end ShardLedger
