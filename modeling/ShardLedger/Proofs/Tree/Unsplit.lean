import ShardLedger.Proofs.Chain.Parted
import ShardLedger.Proofs.Tree.Arrival
import ShardLedger.Proofs.Tree.Entering

/-!
# A leaf that takes a line of blocks

Under a load policy that never asks for a split, a leaf stays a leaf whatever it finalizes. Blocks
of a line that are submitted to it in order enter one after the other. Once a block of the line has
been refused, none of those behind it ever finds its parent.

- `Branch.apply_never`: such a leaf stays one.
- `Branch.Advances`, `Branch.submit_next_leaf`: the next block of the line is submitted.
- `Branch.submit_astray`: so is one that is refused or whose parent is unknown.
-/

namespace ShardLedger

namespace Branch

variable {rules : Rules} {roster : Roster} {seen gone rest : List Block} {W : Nat} {b : Branch}
  {c d : Chain} {genesis x : Block}

/-! ### Without splits -/

section Never

variable (hnever : ∀ load, rules.load.shouldSpawn load = false)
include hnever

theorem spawn_never (roster : Roster) (seed : Block) (b : Branch) :
    b.spawn rules roster seed = (b, roster) := by
  cases b with
  | split => rfl
  | leaf c =>
    unfold spawn
    dsimp only
    split
    · rfl
    · rw [hnever, if_pos (by decide)]

theorem settleAll_never : ∀ (blocks : List Block) (roster : Roster) (c : Chain),
    ∃ d, settleAll rules roster (leaf c) blocks = (leaf d, roster)
  | [], _, c => ⟨c, rfl⟩
  | block :: rest, roster, c => by
    unfold settleAll
    rw [settle_eq, spawn_never hnever]
    exact settleAll_never rest roster _

theorem apply_never (roster : Roster) (c : Chain) (x : Block) :
    ∃ d events, (leaf c).apply rules roster x = (leaf d, roster, events) := by
  cases ha : (leaf c).chain.apply x with
  | none => exact ⟨c, [], apply_of_none ha⟩
  | some a =>
    obtain ⟨d, hd⟩ : ∃ d, settleAll rules roster ((leaf c).withChain a.outcome.1) a.outcome.2 =
        (leaf d, roster) := settleAll_never hnever a.outcome.2 roster a.outcome.1
    exact ⟨d, _, by rw [apply_of_some ha, hd]⟩

/-! ### The next block of the line -/

/-- Chain `d` is chain `c` once `x`, the next block of the line, has entered. The first of the live
blocks, `more`, are final with that. -/
structure Advances (seen : List Block) (genesis : Block) (W : Nat) (gone rest : List Block)
    (c : Chain) (x : Block) (d : Chain) (events : List Event) (more later : List Block) : Prop where
  line : rest ++ [x] = more ++ later
  parted : d.Parted seen genesis W (gone ++ more) later
  id : d.id = c.id
  undelivered : d.undelivered = c.undelivered ++ more
  finalizations : events.flatMap Event.finalizations = more.map fun b => (c.id, b.id)

section Next

variable (h : c.Parted seen genesis W gone rest) (hW : 0 < W)
  (hx : Follows seen c.id ((gone ++ rest).getLastD genesis) x)
  (hids : ((genesis :: (gone ++ rest) ++ [x]).map (·.id)).Nodup)
include h hW hx hids

theorem apply_next_leaf (roster : Roster) : ∃ d events more later,
    (leaf c).apply rules roster x = (leaf d, roster, events) ∧
      Advances seen genesis W gone rest c x d events more later := by
  have hnew := new_of_nodup hids (List.mem_singleton_self x)
  obtain ⟨a, later, ha, hline, hparted⟩ := h.enter hW hx hnew rules.config
  obtain ⟨d, events, happly⟩ := apply_never hnever roster c x
  have hchain : (leaf c).chain.apply x = some a := ha
  have htop : ((leaf c).apply rules roster x).1.chain.bare = _ := apply_top hchain
  have hqueue : ((leaf c).apply rules roster x).1.chain.undelivered = _ := apply_undelivered hchain
  have hreports : ((leaf c).apply rules roster x).2.2 = _ := apply_reports hchain
  have hid := (apply_along rules roster (b := leaf c) h.toAlong hx hnew).2
  rw [happly] at htop hqueue hreports hid
  have he := Chain.apply_entered h.toSound hx.toAdmitted h.top ha
  refine ⟨d, events, a.outcome.2, later, happly, hline, hparted.of_bare htop, hid, hqueue, ?_⟩
  rw [show events = _ from hreports, a.finalizations_reports, ← he.ids, List.map_map]
  rfl

/-- The next block of the line is submitted while nothing waits. -/
theorem submit_next_leaf (haccepts : rules.accepts x = true) (roster : Roster) :
    ∃ d outcome events more later,
      (leaf c).submit rules roster x = ⟨leaf d, roster, outcome, events⟩ ∧
      Advances seen genesis W gone rest c x d events more later := by
  obtain ⟨d, events, more, later, happly, hadvances⟩ :=
    apply_next_leaf hnever h hW hx hids roster
  -- nothing waits, so nothing else is released
  obtain ⟨q, m, n, hlists, hnames, hsubmit⟩ := submit_next (b := leaf c) h.toAlong hids
    (List.nil_subset []) Backlog.lists_empty Backlog.names_empty roster ⟨hx, trivial⟩ haccepts
  obtain rfl := hlists.eq_empty
  obtain rfl := hnames.eq_empty
  rw [holding_along h.toAlong, List.takeWhile_nil, applyAll_cons, happly] at hsubmit
  have hout : (leaf c).submit rules roster x =
      ⟨(leaf d).holding .empty ∅, roster, .applied n, events ++ []⟩ := hsubmit
  rw [holding_along (b := leaf d) hadvances.parted.toAlong, List.append_nil] at hout
  exact ⟨d, .applied n, events, more, later, hout, hadvances⟩

end Next

end Never

/-! ### Blocks that go astray -/

/-- A block that is refused, or whose parent is not live, changes nothing but what waits. -/
theorem submit_astray (roster : Roster)
    (h : rules.accepts x = false ∨ ∀ p, x.parent? = some p → b.chain.blocks[p]? = none) :
    ∃ q m outcome, b.submit rules roster x = ⟨b.holding q m, roster, outcome, []⟩ := by
  have hnone : ∀ parent above, Chain.screen rules b.chain.id x = .ok parent →
      b.chain.blocks[parent]? ≠ some above := by
    intro parent above hscreen habove
    rcases h with hrefused | hgone
    · rw [Chain.accepts_of_screen hscreen] at hrefused
      cases hrefused
    · obtain ⟨-, hparent⟩ := Chain.admitted_of_screen (List.mem_singleton_self x) hscreen
      rw [hgone parent hparent] at habove
      cases habove
  have hsubmitted := submitted rules roster b x
  generalize b.submit rules roster x = s at hsubmitted ⊢
  cases hsubmitted with
  | screened hscreen => exact ⟨_, _, _, by rw [holding_self]⟩
  | settled hscreen hreceive =>
    cases Chain.received hreceive with
    | retired | known | stale => exact ⟨b.chain.backlog, b.chain.buffered, _, rfl⟩
    | buffered => exact ⟨_, _, _, rfl⟩
    | below _ _ habove => exact absurd habove (hnone _ _ hscreen)
  | entered hscreen hreceive =>
    cases Chain.received hreceive with
    | released _ _ habove => exact absurd habove (hnone _ _ hscreen)

end Branch

end ShardLedger
