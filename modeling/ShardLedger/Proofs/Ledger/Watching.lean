import ShardLedger.Proofs.Ledger.Everywhere
import ShardLedger.Proofs.Tree.Splitting

/-!
# What observers see

An observer that was there from the start has seen the whole global order, for submissions report
no block as placed, and a pass reports what it delivers. The root still starts from its genesis.

- `Event.placed?`, `Run.placed_events`: the reports of placed blocks are the global order.
- `Run.root_genesis`: the block that the root starts from.
-/

namespace ShardLedger

/-- The block that is reported to have taken its place in the global order. -/
def Event.placed? : Event → Option Block
  | .linearized _ block => some block
  | _ => none

namespace Branch

variable {rules : Rules} {roster : Roster} {b : Branch} {block : Block}

theorem apply_unplaced (rules : Rules) (roster : Roster) (b : Branch) (block : Block) :
    ∀ e ∈ (b.apply rules roster block).2.2, e.placed? = none := by
  cases ha : b.chain.apply block with
  | none =>
    rw [apply_of_none ha]
    exact fun _ he => nomatch he
  | some a =>
    rw [apply_of_some ha]
    intro e he
    rcases List.mem_cons.1 he with rfl | he
    · rfl
    · split at he
      · cases he
      · rw [List.mem_singleton.1 he]
        rfl

theorem applyAll_unplaced (rules : Rules) : ∀ (blocks : List Block) (roster : Roster) (b : Branch),
    ∀ e ∈ (b.applyAll rules roster blocks).2.2.2, e.placed? = none
  | [], _, _ => fun _ he => nomatch he
  | x :: rest, roster, b => by
    intro e he
    rcases List.mem_append.1 he with he | he
    · exact apply_unplaced rules roster b x e he
    · exact applyAll_unplaced rules rest _ _ e he

/-- A submission reports no block as placed. -/
theorem submit_unplaced (rules : Rules) (roster : Roster) (b : Branch) (block : Block) :
    ∀ e ∈ (b.submit rules roster block).events, e.placed? = none := by
  have hsubmitted := b.submitted rules roster block
  generalize b.submit rules roster block = s at hsubmitted ⊢
  cases hsubmitted with
  | screened => exact fun _ he => nomatch he
  | settled => exact fun _ he => nomatch he
  | entered => exact applyAll_unplaced rules _ _ _

end Branch

namespace Ledger

variable {l : Ledger}

theorem submitBlock_unplaced (rules : Rules) (l : Ledger) (block : Block) :
    ∀ e ∈ (l.submitBlock rules block).2.2, e.placed? = none := by
  unfold submitBlock
  split
  · exact fun _ he => nomatch he
  · unfold submitTo
    split
    · exact fun _ he => nomatch he
    · exact Branch.submit_unplaced rules _ _ block

theorem Pass.filterMap_placed (p : Pass) :
    p.events.filterMap Event.placed? = p.delivered.map (·.block) := by
  unfold Pass.events
  rw [List.filterMap_map, ← List.filterMap_eq_map]
  rfl

end Ledger

/-- A chain in a reachable state that, if it is the root, starts from the genesis. -/
structure Chain.Founded (rules : Rules) (c : Chain) : Prop where
  reachable : c.Reachable rules
  pos : 0 < c.id.number
  genesis : c.id = .root → c.genesis = (Block.genesis .root).id

theorem Chain.lasting_founded (rules : Rules) : Lasting rules (Founded rules) where
  reachable h := h.reachable
  submit {b} roster block h := by
    have hplace := b.submit_place rules roster block
    have hid : (b.submit rules roster block).branch.chain.id = b.chain.id :=
      congrArg Prod.fst hplace
    have hgenesis : (b.submit rules roster block).branch.chain.genesis = b.chain.genesis :=
      congrArg (·.2.2.2) hplace
    refine ⟨h.reachable.submit roster block, hid ▸ h.pos, fun hroot => ?_⟩
    rw [hgenesis]
    exact h.genesis (hid.symm.trans hroot)
  discardPending {c} id h := by
    have hreachable := h.reachable.discardPending id
    obtain ⟨backlog, buffered, heq, -⟩ := @discardPending_spec [] c id
    rw [heq] at hreachable ⊢
    exact ⟨hreachable, h.pos, h.genesis⟩
  retire h := ⟨h.reachable.retire, h.pos, h.genesis⟩
  rest content undelivered permanent h :=
    ⟨h.reachable.rest content undelivered permanent, h.pos, h.genesis⟩
  child {c} h side id _ _ _ hside _ hgraph := by
    have hpos := h.pos
    have hnumber := ChainId.child?_number hside
    -- the number of a child is at least two
    have hone : 1 < id.number := by
      cases side with
      | left =>
        have : id.number = 2 * c.id.number := hnumber
        omega
      | right =>
        have : id.number = 2 * c.id.number + 1 := hnumber
        omega
    refine ⟨.start hgraph, Nat.lt_trans Nat.one_pos hone, fun hroot => ?_⟩
    have hid : id = .root := hroot
    rw [hid] at hone
    exact absurd hone (by decide)

namespace Run

variable {seen : List Block} {rules : Rules} {ops : List Operation} {r : Run}

/-- What observers were told of placed blocks, once an operation is performed. -/
theorem placed_perform (op : Operation)
    (h : r.events.filterMap Event.placed? = r.linearized.map (·.block)) :
    (r.perform rules op).events.filterMap Event.placed? =
      (r.perform rules op).linearized.map (·.block) := by
  have hpasses : ∀ passes : List Ledger.Pass,
      (r.events ++ passes.flatMap Ledger.Pass.events).filterMap Event.placed? =
        ((r.passes ++ passes).flatMap (·.delivered)).map (·.block) := by
    intro passes
    rw [List.filterMap_append, h, List.flatMap_append, List.map_append]
    refine congrArg _ ?_
    induction passes with
    | nil => rfl
    | cons p rest ih =>
      rw [List.flatMap_cons, List.filterMap_append, ih, p.filterMap_placed, List.flatMap_cons,
        List.map_append]
  cases op with
  | submitBlock block =>
    show (r.events ++ (r.ledger.submitBlock rules block).2.2).filterMap Event.placed? = _
    rw [List.filterMap_append, h,
      List.filterMap_eq_nil_iff.2 (r.ledger.submitBlock_unplaced rules block), List.append_nil]
    rfl
  | submitContent => exact h
  | invalidate => exact h
  | propose chain maxSize =>
    cases hp : r.ledger.proposal rules chain maxSize with
    | ok p => exact perform_propose_ok hp ▸ h
    | error e => exact (perform_propose_error hp).symm ▸ h
  | discardPending => exact h
  | tick =>
    have hone := hpasses [r.ledger.tick rules]
    rwa [List.flatMap_singleton] at hone
  | settle => exact hpasses _

/-- The blocks that observers were told of as placed are the global order. -/
theorem placed_events (h : Run.after rules ops = .ok r) :
    r.events.filterMap Event.placed? = r.linearized.map (·.block) := by
  induction ops using List.reverseRecOn generalizing r with
  | nil =>
    obtain ⟨l, -, rfl⟩ := after_eq h
    rfl
  | append_singleton ops op ih =>
    obtain ⟨r₀, hr₀, rfl⟩ := after_concat h
    exact placed_perform op (ih hr₀)

/-- The root starts from the genesis at every point of a run. -/
theorem root_genesis (h : Run.after rules ops = .ok r) :
    r.ledger.root.chain.genesis = (Block.genesis .root).id := by
  have hfounded := every (Chain.lasting_founded rules)
    (fun graph hgraph => ⟨.start hgraph, Nat.one_pos, fun _ => rfl⟩) h
  have htop := Branch.chainAt_nil r.ledger.root
  refine (hfounded.live [] _ htop).genesis (ChainId.eq_of_number ?_)
  exact (tracks h (List.Subset.refl _)).arranged.numbered [] _ htop

end Run

end ShardLedger
