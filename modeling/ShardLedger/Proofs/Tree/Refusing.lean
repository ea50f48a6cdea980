import ShardLedger.Proofs.Tree.Buffering
import ShardLedger.Proofs.Tree.Life

/-!
# Submissions that apply nothing

A block that is turned away, or that has to wait, leaves no trace except in what waits. Only one
refusal touches that: a block ranked below its live parent can never be applied, so what is behind
it is given up. Everything else goes on waiting where it did.

- `Chain.GivesUp`: exactly the blocks behind a block go.
- `Branch.Confined`: what a submission may change unless it applies the block.
- `Branch.submit_confined`: submissions keep to that.
-/

namespace ShardLedger

namespace Backlog

variable {q : Backlog} {id : BlockId}

/-- A block that is on no list cannot be struck. -/
theorem strike_of_unlisted (h : q.Lined) (hnew : ∀ k b, q.Listed k b → b.id ≠ id) :
    ∀ previous : List BlockId, q.strike id previous = q
  | [] => rfl
  | p :: rest => by
    have hunder : q.strikeUnder id p = q := by
      cases hw : q.waiting[p]? with
      | none => exact strikeUnder_of_none hw
      | some waiters =>
        have hall : waiters.filter (·.id ≠ id) = waiters := by
          refine List.filter_eq_self.2 fun b hb => decide_eq_true (hnew p b ?_)
          unfold Listed
          rwa [hw]
        have hsame : q.waiting.insert p waiters = q.waiting := by
          refine Std.ExtTreeMap.ext_getElem? fun k => ?_
          rw [Lookup.get_insert]
          split
          · rename_i hk
            rw [← hk, hw]
          · rfl
        unfold strikeUnder
        rw [hw]
        dsimp only
        rw [hall, if_neg (by simpa using (h p waiters hw).1), hsame]
    show (q.strikeUnder id p).strike id rest = q
    rw [hunder]
    exact strike_of_unlisted h hnew rest

/-- Whatever is behind a block is on the list of that block, or of one behind it. -/
theorem HeldIn.behind_list {m : BlockMap Block} (h : q.HeldIn m) {k : BlockId} {x : Block}
    (hx : q.Behind id x) (hk : q.Listed k x) : k = id ∨ ∃ y, q.Behind id y ∧ y.id = k := by
  have hparent := (h k x hk).2
  cases hx with
  | direct hid =>
    rw [(h id x hid).2, Option.some.injEq] at hparent
    exact .inl hparent.symm
  | @through _ y hy hyx =>
    rw [(h y.id x hyx).2, Option.some.injEq] at hparent
    exact .inr ⟨y, hy, hparent⟩

end Backlog

namespace Chain

variable {seen : List Block} {c : Chain} {block : Block} {id : BlockId} {q : Backlog}
  {m : BlockMap Block}

/-- Of the blocks that wait on the chain, exactly those behind `id` go. -/
structure GivesUp (c : Chain) (id : BlockId) (q : Backlog) (m : BlockMap Block) : Prop where
  waited : ∀ x, c.backlog.Behind id x → c.buffered[x.id]? = some x
  buffered : ∀ (n : BlockId) (y : Block),
    m[n]? = some y ↔ c.buffered[n]? = some y ∧ ¬c.backlog.Behind id y
  listed : ∀ (k : BlockId) (y : Block), q.Listed k y ↔ c.backlog.Listed k y ∧ ¬c.backlog.Behind id y
  /-- Nothing waits for `id` any more, nor for what goes. -/
  gone : ∀ k : BlockId, (k = id ∨ ∃ x, c.backlog.Behind id x ∧ x.id = k) → q.waiting[k]? = none
  /-- All other lists are as they were. -/
  kept : ∀ k : BlockId, ¬(k = id ∨ ∃ x, c.backlog.Behind id x ∧ x.id = k) →
    q.waiting[k]? = c.backlog.waiting[k]?

/-- A sweep behind `id` takes whole lists: those of `id` and of what is behind it. -/
theorem Tended.swept_lists (h : c.Tended seen) {out : List Block}
    (hswept : Backlog.Swept c.backlog [id] q out) {k : BlockId}
    (hk : ¬(k = id ∨ ∃ x, c.backlog.Behind id x ∧ x.id = k)) :
    q.waiting[k]? = c.backlog.waiting[k]? := by
  rcases hswept.kept k with hnone | hsame
  · cases hw : c.backlog.waiting[k]? with
    | none => exact hnone
    | some waiters =>
      -- no list is empty, so one of its blocks was taken, and it is behind `id`
      obtain ⟨y, hy⟩ := List.exists_mem_of_ne_nil _ (h.lined k waiters hw).1
      have hlisted : c.backlog.Listed k y := by
        unfold Backlog.Listed
        rwa [hw]
      have htaken := hswept.taken k y hlisted (Backlog.not_listed_of_none hnone)
      have hbehind := (h.behind_named (h.held k y hlisted).1).1 (hswept.mem_singleton_iff.1 htaken)
      exact absurd (h.held.behind_list hbehind hlisted) hk
  · exact hsame

theorem Tended.givesUp (h : c.Tended seen) (hnew : c.knows block.id = false) :
    c.GivesUp block.id (c.backlog.discard block).1
      (((c.backlog.discard block).2.map (·.id)).foldl (fun m id => m.erase id) c.buffered) := by
  have hswept : Backlog.Swept (c.backlog.strike block.id block.previous) [block.id]
      (c.backlog.discard block).1 (c.backlog.discard block).2 :=
    Backlog.discard_swept h.held fun k b hb =>
      h.not_listed hnew k b ((Backlog.listed_strike _).1 hb).1
  rw [Backlog.strike_of_unlisted h.lined (h.not_listed hnew)] at hswept
  have hgone : ∀ k : BlockId, (k = block.id ∨ ∃ x, c.backlog.Behind block.id x ∧ x.id = k) →
      (c.backlog.discard block).1.waiting[k]? = none := fun k hk =>
    hswept.gone k (hk.imp List.mem_singleton.2 hswept.mem_singleton_iff.2)
  refine ⟨fun x => h.behind_buffered, h.forget_behind fun n _ => hswept.mem_singleton_iff,
    fun k y => ⟨fun hy => ?_, fun hy => ?_⟩, hgone, fun k => h.swept_lists hswept⟩
  · refine ⟨hswept.left hy, fun hbehind => ?_⟩
    exact Backlog.not_listed_of_none (hgone k (h.held.behind_list hbehind (hswept.left hy))) hy
  · unfold Backlog.Listed
    rw [h.swept_lists hswept]
    · exact hy.1
    · rintro (rfl | ⟨x, hx, rfl⟩)
      · exact hy.2 (.direct hy.1)
      · exact hy.2 (hx.through hy.1)

/-- A matter that is settled at once touches nothing but what waits. -/
theorem Received.eq_holding {d : Chain} {parent : BlockId} {outcome : Outcome}
    (h : Received c block parent d (.done outcome)) : d = c.holding d.backlog d.buffered := by
  cases h <;> rfl

end Chain

namespace Branch

variable {rules : Rules} {roster : Roster} {b : Branch} {block : Block}

/-- What the submission of `block` may change unless the block is applied. -/
structure Confined (roster : Roster) (b : Branch) (block : Block) (s : Submission) : Prop where
  /-- Only what waits may be different, and nobody is told of that. -/
  quiet : (∀ n, s.outcome ≠ .applied n) →
    s.branch = b.holding s.branch.chain.backlog s.branch.chain.buffered ∧ s.roster = roster ∧
      s.events = []
  refused : s.outcome.isAccepted = false →
    (∀ required got, s.outcome ≠ .rejected (.rankBelowParent required got)) → s.branch = b
  /-- What is behind a block that was ranked too low has nothing to wait for. -/
  below : ∀ required got, s.outcome = .rejected (.rankBelowParent required got) →
    b.chain.GivesUp block.id s.branch.chain.backlog s.branch.chain.buffered
  /-- A block that has to wait comes last on the list of its parent. -/
  buffered : s.outcome = .buffered → ∃ parent, block.parent? = some parent ∧
    b.chain.buffered[block.id]? = none ∧
    s.branch.chain.buffered = b.chain.buffered.insert block.id block ∧
    s.branch.chain.backlog.waiting =
      b.chain.backlog.waiting.insert parent (b.chain.backlog.waiting[parent]?.getD [] ++ [block])

/-- What is turned away or has to wait changes nothing but what waits, and that only as it must. -/
theorem submit_confined (h : b.chain.Reachable rules) (roster : Roster) (block : Block) :
    b.Confined roster block (b.submit rules roster block) := by
  obtain ⟨seen, htended⟩ := h.tended
  have hsubmitted := b.submitted rules roster block
  generalize b.submit rules roster block = s at hsubmitted ⊢
  cases hsubmitted with
  | screened hscreen =>
    refine ⟨fun _ => ⟨(holding_self b).symm, rfl, rfl⟩, fun _ _ => rfl, fun required got hout => ?_,
      fun hout => nomatch hout⟩
    cases hout
    exact absurd hscreen Chain.screen_ne_rankBelowParent
  | @settled parent c outcome hscreen hreceive =>
    have hreceived := Chain.received hreceive
    have hparent := (Chain.admitted_of_screen (List.mem_cons_self (l := seen)) hscreen).2
    refine ⟨fun _ => ⟨?_, rfl, rfl⟩, fun hout hnot => ?_, fun required got hout => ?_,
      fun hout => ?_⟩
    · rw [chain_withChain]
      exact congrArg (b.withChain ·) hreceived.eq_holding
    · cases hreceived with
      | retired | known | stale => exact holding_self b
      | buffered => cases hout
      | below => exact absurd rfl (hnot _ _)
    · rw [chain_withChain]
      cases hreceived with
      | retired | known | stale | buffered => cases hout
      | below _ hnew => exact htended.givesUp hnew
    · rw [chain_withChain]
      cases hreceived with
      | retired | known | stale | below => cases hout
      | buffered _ hnew =>
        refine ⟨parent, hparent, (htended.unknown hnew).2, rfl, ?_⟩
        exact congrArg (·.waiting) (Backlog.enlistUnder_eq (htended.not_listed hnew parent))
  | entered =>
    exact ⟨fun hout => absurd rfl (hout _), fun hout => (nomatch hout),
      fun _ _ hout => (nomatch hout), fun hout => nomatch hout⟩

/-- Chain 2, on which block 3 waits for block 2 and block 9 for block 8. -/
def sampleWaits (graph : ForkGraph) : Branch :=
  (sampleRun (sampleRules 5) graph
    [sampleAfter 0 1 ⟨1, 5⟩, sampleAfter 2 3 ⟨9, 9⟩, sampleAfter 8 9 ⟨9, 9⟩]).1

/-- Block 2 is ranked below its parent. It takes block 3 along and leaves block 9 where it is. -/
theorem sample_submit_confined : ∃ b : Branch, b.chain.Reachable (sampleRules 5) ∧
    b.chain.backlog.Behind ⟨2⟩ (sampleAfter 2 3 ⟨9, 9⟩) ∧
    ¬b.chain.backlog.Behind ⟨2⟩ (sampleAfter 8 9 ⟨9, 9⟩) ∧
    (b.submit (sampleRules 5) ⟨[], []⟩ (sampleAfter 1 2 ⟨4, 4⟩)).outcome =
      .rejected (.rankBelowParent 5 4) ∧
    b.chain.GivesUp ⟨2⟩
      (b.submit (sampleRules 5) ⟨[], []⟩ (sampleAfter 1 2 ⟨4, 4⟩)).branch.chain.backlog
      (b.submit (sampleRules 5) ⟨[], []⟩ (sampleAfter 1 2 ⟨4, 4⟩)).branch.chain.buffered := by
  obtain ⟨graph, hgraph, hthird, hstays, hout⟩ : ∃ graph,
      Chain.newGraph (sampleRules 5).config sampleSeed.id = .ok graph ∧
      (sampleWaits graph).chain.backlog.waiting[(⟨2⟩ : BlockId)]? = some [sampleAfter 2 3 ⟨9, 9⟩] ∧
      ((sampleWaits graph).submit (sampleRules 5) ⟨[], []⟩
        (sampleAfter 1 2 ⟨4, 4⟩)).branch.chain.buffered[(⟨9⟩ : BlockId)]? =
          some (sampleAfter 8 9 ⟨9, 9⟩) ∧
      ((sampleWaits graph).submit (sampleRules 5) ⟨[], []⟩ (sampleAfter 1 2 ⟨4, 4⟩)).outcome =
        .rejected (.rankBelowParent 5 4) :=
    ⟨_, rfl, by decide +kernel, by decide +kernel, by decide +kernel⟩
  have hreach : (sampleWaits graph).chain.Reachable (sampleRules 5) :=
    (becomes_deliver _ _ _).reachable (.start hgraph)
  have hgone := (submit_confined hreach ⟨[], []⟩ (sampleAfter 1 2 ⟨4, 4⟩)).below 5 4 hout
  refine ⟨sampleWaits graph, hreach, .direct ?_, ((hgone.buffered _ _).1 hstays).2, hout, hgone⟩
  unfold Backlog.Listed
  rw [hthird]
  exact List.mem_singleton_self _

end Branch

end ShardLedger
