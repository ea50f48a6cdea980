import Mathlib.Data.List.Basic
import ShardLedger.Proofs.Capped
import ShardLedger.Proofs.StableSort
import ShardLedger.Simulation.Delivery

/-!
# Nothing is lost on the way

Blocks set out alone or twice, wait, and arrive in one order or another. Whatever the calls are and
whatever they draw, the blocks that arrived and those on their way are the blocks that were sent.
What waits stands in the order of sending, so that only a shuffle and the last delivery change that
order, and each of them says how.

- `Delivery.record`: the calls of a delivery, with what came of each.
- `Delivery.Step`: what one call does to the blocks on their way, whatever it draws.
- `Delivery.Steps.conserved`, `Delivery.Steps.in_order`: what calls do together.
- `Delivery.nothing_lost`: all calls are such steps, from the first one on.
-/

namespace ShardLedger

namespace Rng

variable {α : Type}

theorem bounded_lt (r : Rng) {bound : Nat} (h : 0 < bound) : (r.bounded bound).1 < bound := by
  unfold bounded
  rw [if_neg (Nat.ne_of_gt h)]
  exact Nat.mod_lt _ h

theorem exchange_perm (s : Array α × Rng) (i : Nat) : (exchange s i).1.Perm s.1 := by
  show (s.1.swapIfInBounds i (s.2.bounded (i + 1)).1).Perm s.1
  unfold Array.swapIfInBounds
  split
  · split
    · exact Array.swap_perm _ _
    · exact Array.Perm.refl _
  · exact Array.Perm.refl _

theorem shuffleFrom_perm : ∀ (i : Nat) (s : Array α × Rng), (shuffleFrom i s).1.Perm s.1
  | 0, s => Array.Perm.refl _
  | i + 1, s => by
    rw [shuffleFrom]
    exact (shuffleFrom_perm i _).trans (exchange_perm s (i + 1))

/-- A shuffle neither loses an item nor brings one in. -/
theorem shuffle_perm (r : Rng) (items : List α) : (r.shuffle items).1.Perm items :=
  (shuffleFrom_perm (items.length - 1) (items.toArray, r)).toList

end Rng

namespace Delivery

/-! ### What the functions do -/

/-- The copies of a block line up behind the others, the block itself last. Each has a delay of its
own. -/
theorem send_spec (q : Delivery) (block : Block) (round : Nat) (rng : Rng) :
    let answer := (q.send block round rng).2.1
    ∃ copies : List InFlight, (q.send block round rng).1 = ⟨q.faults, q.pending ++ copies⟩ ∧
      copies.map (·.block) = (if answer.duplicated then [block, block] else [block]) ∧
      (∀ f ∈ copies, ∃ delay ≤ q.faults.maxDelay, f.due = addCapped round delay) ∧
      copies.getLast? = some ⟨addCapped round answer.delay, block⟩ := by
  have hdrawn : ∀ r : Rng, (r.bounded (q.faults.maxDelay + 1)).1 ≤ q.faults.maxDelay := fun r =>
    Nat.le_of_lt_succ (r.bounded_lt (Nat.succ_pos _))
  unfold send
  dsimp only
  split
  · refine ⟨_, rfl, rfl, fun f hf => ?_, rfl⟩
    rcases List.mem_cons.1 hf with rfl | hf
    · exact ⟨_, hdrawn _, rfl⟩
    · obtain rfl := List.mem_singleton.1 hf
      exact ⟨_, hdrawn _, rfl⟩
  · refine ⟨_, rfl, rfl, fun f hf => ?_, rfl⟩
    obtain rfl := List.mem_singleton.1 hf
    exact ⟨_, hdrawn _, rfl⟩

/-- What is not due is due later. -/
theorem filter_not_due (pending : List InFlight) (round : Nat) :
    pending.filter (not ∘ fun f => decide (f.due ≤ round)) = pending.filter (round < ·.due) :=
  List.filter_congr fun f _ => by
    rw [Function.comp_apply, ← decide_not, decide_eq_decide, Nat.not_le]

/-- What is due and what is due later is everything. -/
theorem due_append_later (pending : List InFlight) (round : Nat) :
    ((pending.filter (·.due ≤ round)).map (·.block) ++
      (pending.filter (round < ·.due)).map (·.block)).Perm (pending.map (·.block)) := by
  rw [← List.map_append, ← filter_not_due]
  exact (List.filter_append_perm _ pending).map _

/-- What is due arrives, in the order of sending or shuffled. The rest stays in that order. -/
theorem deliver_spec (q : Delivery) (round : Nat) (rng : Rng) :
    let answer := (q.deliver round rng).2.1
    let due := (q.pending.filter (·.due ≤ round)).map (·.block)
    (q.deliver round rng).1 = ⟨q.faults, q.pending.filter (round < ·.due)⟩ ∧
      answer.blocks.Perm due ∧ (answer.reordered = false → answer.blocks = due) := by
  unfold deliver
  rw [List.partition_eq_filter_filter, filter_not_due]
  dsimp only
  split
  · exact ⟨rfl, .refl _, fun _ => rfl⟩
  · split
    · exact ⟨rfl, Rng.shuffle_perm _ _, fun h => nomatch h⟩
    · exact ⟨rfl, .refl _, fun _ => rfl⟩

/-! ### Calls and what came of them -/

/-- A call. Others draw from the generator in between, so each call comes with the one it uses. -/
inductive Call where
  | send (block : Block) (round : UInt64) (rng : Rng)
  | deliver (round : UInt64) (rng : Rng)
  | drain

/-- What came of a call. -/
inductive Outcome where
  | sent (answer : Sent)
  | delivered (answer : Delivered)
  | drained (blocks : List Block)

/-- The blocks that arrive by a call. -/
def Outcome.arrived : Outcome → List Block
  | .sent _ => []
  | .delivered answer => answer.blocks
  | .drained blocks => blocks

/-- A call that was made. -/
structure Entry where
  call : Call
  outcome : Outcome

/-- The blocks that set out by a call, where a block that is sent twice counts twice. -/
def Entry.departed : Entry → List Block
  | ⟨.send block _ _, .sent answer⟩ => if answer.duplicated then [block, block] else [block]
  | _ => []

/-- Make a call. -/
def make (q : Delivery) : Call → Delivery × Outcome
  | .send block round rng =>
    let (q, answer, _) := q.send block round.toNat rng
    (q, .sent answer)
  | .deliver round rng =>
    let (q, answer, _) := q.deliver round.toNat rng
    (q, .delivered answer)
  | .drain =>
    let (q, blocks) := q.drain
    (q, .drained blocks)

/-- Make calls one after the other. -/
def record (q : Delivery) : List Call → Delivery × List Entry
  | [] => (q, [])
  | call :: rest =>
    let made := q.make call
    let later := made.1.record rest
    (later.1, ⟨call, made.2⟩ :: later.2)

/-- What arrived by some calls. -/
def arrived (entries : List Entry) : List Block := entries.flatMap (·.outcome.arrived)

/-- What set out by some calls. -/
def departed (entries : List Entry) : List Block := entries.flatMap Entry.departed

/-! ### One call -/

/-- What a call does to the blocks on their way. -/
inductive Step (faults : Faults) : List InFlight → Entry → List InFlight → Prop
  /-- The copies line up behind the others. Each is due within the longest delay, and the last one
  after the delay that is reported. -/
  | sent {pending copies : List InFlight} {block : Block} {round : UInt64} {rng : Rng}
      {answer : Sent}
      (blocks : copies.map (·.block) = if answer.duplicated then [block, block] else [block])
      (due : ∀ f ∈ copies, round.toNat ≤ f.due ∧ f.due ≤ addCapped round.toNat faults.maxDelay)
      (last : copies.getLast? = some ⟨addCapped round.toNat answer.delay, block⟩) :
      Step faults pending ⟨.send block round rng, .sent answer⟩ (pending ++ copies)
  /-- What is due arrives, in the order of sending unless a shuffle is reported. The rest waits in
  that order. -/
  | delivered {pending : List InFlight} {round : UInt64} {rng : Rng} {answer : Delivered}
      (blocks : answer.blocks.Perm ((pending.filter (·.due ≤ round.toNat)).map (·.block)))
      (order : answer.reordered = false →
        answer.blocks = (pending.filter (·.due ≤ round.toNat)).map (·.block)) :
      Step faults pending ⟨.deliver round rng, .delivered answer⟩
        (pending.filter (round.toNat < ·.due))
  /-- Everything arrives, by due round, and in the order of sending if that is the same. -/
  | drained {pending sorted : List InFlight}
      (all : sorted.Perm pending)
      (order : sorted.Pairwise (·.due ≤ ·.due))
      (ties : ∀ round, sorted.filter (·.due = round) = pending.filter (·.due = round)) :
      Step faults pending ⟨.drain, .drained (sorted.map (·.block))⟩ []

variable {faults : Faults} {pending pending' : List InFlight} {entry : Entry}
  {entries : List Entry}

/-- Every call is a step, and leaves the faults as they are. -/
theorem make_step (q : Delivery) (call : Call) : ∃ pending outcome,
    q.make call = (⟨q.faults, pending⟩, outcome) ∧
      Step q.faults q.pending ⟨call, outcome⟩ pending := by
  cases call with
  | send block round rng =>
    obtain ⟨copies, hqueue, hblocks, hdelays, hlast⟩ := q.send_spec block round.toNat rng
    refine ⟨_, _, Prod.ext hqueue rfl, .sent hblocks (fun f hf => ?_) hlast⟩
    obtain ⟨delay, hdelay, hdue⟩ := hdelays f hf
    rw [hdue]
    exact ⟨le_addCapped (toNat_le_maxWord round) delay, addCapped_mono _ hdelay⟩
  | deliver round rng =>
    obtain ⟨hqueue, hblocks, horder⟩ := q.deliver_spec round.toNat rng
    exact ⟨_, _, Prod.ext hqueue rfl, .delivered hblocks horder⟩
  | drain =>
    exact ⟨_, _, rfl, .drained (List.mergeSort_perm _ _) (pairwise_mergeSort_key InFlight.due _)
      (filter_mergeSort_key InFlight.due _)⟩

/-- What is on its way after a call, and what the call lets arrive, was on its way or sets out. -/
theorem Step.conserved (h : Step faults pending entry pending') :
    (entry.outcome.arrived ++ pending'.map (·.block)).Perm
      (pending.map (·.block) ++ entry.departed) := by
  cases h with
  | sent blocks =>
    rw [List.map_append, blocks]
    exact .refl _
  | delivered blocks =>
    rw [show Entry.departed _ = [] from rfl, List.append_nil]
    exact (blocks.append_right _).trans (due_append_later pending _)
  | drained all =>
    rw [show Entry.departed _ = [] from rfl, List.map_nil, List.append_nil, List.append_nil]
    exact all.map _

/-- What waits after a call stands as it did, behind it what sets out. -/
theorem Step.in_order (h : Step faults pending entry pending') :
    (pending'.map (·.block)).Sublist (pending.map (·.block) ++ entry.departed) := by
  cases h with
  | sent blocks =>
    rw [List.map_append, blocks]
    exact .refl _
  | delivered =>
    exact (List.filter_sublist.map _).trans (List.sublist_append_left _ _)
  | drained => exact List.nil_sublist _

/-! ### All calls -/

/-- What calls do to the blocks on their way, one after the other. -/
inductive Steps (faults : Faults) : List InFlight → List Entry → List InFlight → Prop
  | none {pending : List InFlight} : Steps faults pending [] pending
  | next {pending between pending' : List InFlight} {entry : Entry} {entries : List Entry}
      (first : Step faults pending entry between) (rest : Steps faults between entries pending') :
      Steps faults pending (entry :: entries) pending'

/-- What arrived and what is on its way was on its way at first, or set out. -/
theorem Steps.conserved (h : Steps faults pending entries pending') :
    (arrived entries ++ pending'.map (·.block)).Perm
      (pending.map (·.block) ++ departed entries) := by
  induction h with
  | none => exact List.perm_append_comm
  | @next pending between pending' entry entries first rest ih =>
    calc (entry.outcome.arrived ++ arrived entries ++ pending'.map (·.block))
        = entry.outcome.arrived ++ (arrived entries ++ pending'.map (·.block)) :=
          List.append_assoc ..
      _ |>.Perm (entry.outcome.arrived ++ (between.map (·.block) ++ departed entries)) :=
          ih.append_left _
      _ = entry.outcome.arrived ++ between.map (·.block) ++ departed entries :=
          (List.append_assoc ..).symm
      _ |>.Perm (pending.map (·.block) ++ entry.departed ++ departed entries) :=
          first.conserved.append_right _
      _ = pending.map (·.block) ++ (entry.departed ++ departed entries) := List.append_assoc ..

/-- What is on its way stands in the order of sending. -/
theorem Steps.in_order (h : Steps faults pending entries pending') :
    (pending'.map (·.block)).Sublist (pending.map (·.block) ++ departed entries) := by
  induction h with
  | none => exact List.sublist_append_left _ _
  | @next pending between pending' entry entries first _ ih =>
    refine ih.trans ?_
    show List.Sublist _ (_ ++ (entry.departed ++ departed entries))
    rw [← List.append_assoc]
    exact first.in_order.append_right _

/-- The calls are all made, and each of them is a step. -/
theorem record_steps : ∀ (calls : List Call) (q : Delivery),
    ∃ entries pending, q.record calls = (⟨q.faults, pending⟩, entries) ∧
      entries.map Entry.call = calls ∧ Steps q.faults q.pending entries pending
  | [], q => ⟨[], q.pending, rfl, rfl, .none⟩
  | call :: rest, q => by
    obtain ⟨between, outcome, hmake, hstep⟩ := q.make_step call
    obtain ⟨entries, pending, hrecord, hcalls, hsteps⟩ := record_steps rest ⟨q.faults, between⟩
    refine ⟨⟨call, outcome⟩ :: entries, pending, ?_, ?_, .next hstep hsteps⟩
    · unfold record
      rw [hmake]
      dsimp only
      rw [hrecord]
    · rw [List.map_cons, hcalls]

/-- Nothing is lost. Whatever the faults are, and whatever calls are made with whatever generators,
each call is a step as described, every block that was sent, and every second copy of it, arrived or
is on its way, and those on their way stand in the order of sending. -/
theorem nothing_lost (faults : Faults) (calls : List Call) :
    ∃ entries pending, (start faults).record calls = (⟨faults, pending⟩, entries) ∧
      entries.map Entry.call = calls ∧ Steps faults [] entries pending ∧
      (arrived entries ++ pending.map (·.block)).Perm (departed entries) ∧
      (pending.map (·.block)).Sublist (departed entries) := by
  obtain ⟨entries, pending, hrecord, hcalls, hsteps⟩ := record_steps calls (start faults)
  exact ⟨entries, pending, hrecord, hcalls, hsteps, hsteps.conserved, hsteps.in_order⟩

end Delivery

end ShardLedger
