import ShardLedger.Proofs.Ledger.Everywhere
import ShardLedger.Proofs.Tree.Accounts

/-!
# The chains of a run

Every chain of a ledger, live or merged, is in a state that `Chain.Reachable` knows of, and has a
`Chain.Life`: no operation on a ledger does anything else to a chain.

- `Branch.Reached`, `Ledger.Reached`: all chains are in reachable states.
- `Run.reached`, `Run.lives`: the chains of a run.
- `Run.chains_agree`: so their records agree, and a submission to one of them is accounted for.
-/

namespace ShardLedger

variable {rules : Rules}

/-- Every chain of the branch is in a reachable state. -/
def Branch.Reached (rules : Rules) (b : Branch) : Prop :=
  ∀ p c, b.chainAt p = some c → c.Reachable rules

/-- Every chain of the ledger is in a reachable state, merged chains included. -/
structure Ledger.Reached (rules : Rules) (l : Ledger) : Prop where
  live : l.root.Reached rules
  retired : ∀ c ∈ l.retired, c.Reachable rules

namespace Chain

variable {c d : Chain} {log : List Receipt}

theorem lasting_reachable (rules : Rules) : Lasting rules (Reachable rules) where
  reachable h := h
  submit roster block h := h.submit roster block
  discardPending id h := h.discardPending id
  retire h := h.retire
  rest content undelivered permanent h := h.rest content undelivered permanent
  child _ _ _ _ _ _ _ _ hgraph := .start hgraph

/-- A chain that has a number, and a life. -/
def Lived (rules : Rules) (c : Chain) : Prop :=
  0 < c.id.number ∧ ∃ genesis log, Life rules genesis log c

theorem Lived.reachable (h : c.Lived rules) : c.Reachable rules := by
  obtain ⟨-, genesis, log, id, graph, content, cursor, hgraph, -, hlife⟩ := h
  exact hlife.reachable (.start hgraph)

/-- Whatever becomes of a chain is part of its life. -/
theorem Lived.becomes (h : c.Lived rules) (hlater : c.Becomes rules log d) : d.Lived rules := by
  have hid := hlater.id_eq h.reachable
  obtain ⟨hpos, genesis, before, id, graph, content, cursor, hgraph, hforeign, hlife⟩ := h
  exact ⟨hid ▸ hpos, genesis, before ++ log, id, graph, content, cursor, hgraph, hforeign,
    hlife.trans hlater⟩

/-- Children have numbers because their parents do. -/
theorem Lived.child (h : c.Lived rules) : PassesOn rules (Lived rules) c.id := by
  intro side id seed graph cursor hside hseed hgraph
  have hnumber := ChainId.child?_number hside
  refine ⟨?_, seed, [], id, graph, .empty, cursor, hgraph, foreign_child h.1 hside hseed, .refl⟩
  show 0 < id.number
  have hpos := h.1
  cases side with
  | left =>
    have : id.number = 2 * c.id.number := hnumber
    omega
  | right =>
    have : id.number = 2 * c.id.number + 1 := hnumber
    omega

theorem lasting_lived (rules : Rules) : Lasting rules (Lived rules) where
  reachable h := h.reachable
  submit roster block h := h.becomes (.submit roster block .refl)
  discardPending id h := h.becomes (.discardPending id .refl)
  retire h := h.becomes (.retire .refl)
  rest content undelivered permanent h := h.becomes (.rest content undelivered permanent .refl)
  child h := h.child

end Chain

namespace Run

variable {ops : List Operation} {r : Run}

/-- Every chain of a run is in a reachable state. -/
theorem reached (h : Run.after rules ops = .ok r) : r.ledger.Reached rules := by
  have hevery := every (Chain.lasting_reachable rules) (fun _ hgraph => .start hgraph) h
  exact ⟨hevery.live, hevery.retired⟩

/-- Every chain of a run has a life, so whatever holds throughout lives holds of it. -/
theorem lives (h : Run.after rules ops = .ok r) : r.ledger.Every (Chain.Lived rules) := by
  refine every (Chain.lasting_lived rules) (fun graph hgraph => ?_) h
  have hpos : 0 < ChainId.root.number := by decide
  exact ⟨hpos, Block.genesis .root, [], .root, graph, .empty, .top, hgraph, Chain.foreign_root,
    .refl⟩

/-- Chains are in reachable states, those of a run too; and on a chain in such a state the records
agree, whatever is submitted to it next. -/
theorem chains_agree (rules : Rules) :
    (∀ ops r, Run.after rules ops = .ok r → r.ledger.Reached rules) ∧
      ∀ (b : Branch), b.chain.Reachable rules →
        ∀ (roster : Roster) (block : Block), b.Accounted rules roster block :=
  ⟨fun _ _ hr => reached hr, fun b h roster block => Branch.accounted rules roster b block h⟩

/-- Two confirmations make a block final. -/
def sampleReplayRules : Rules := .ofConfig { fork := { finalizedWeight := 2 } }

/-- The `n`-th block of a chain that starts from block zero. -/
def sampleReplayBlock (n : Nat) (rank : UInt64) : Block :=
  { previous := [⟨n - 1⟩], chain := .ofWord 2, content := [], weight := 1
    rank := ⟨rank, rank + 1⟩, proposer := "", id := ⟨n⟩ }

/-- A chain on which the third block waits for the second one, and that waits for the first. -/
def sampleReplay (graph : ForkGraph) : Branch :=
  let fresh := Branch.leaf (Chain.start (.ofWord 2) (sampleReplayBlock 0 0) graph .empty .top)
  let one := (fresh.submit sampleReplayRules ⟨[], []⟩ (sampleReplayBlock 3 3)).branch
  (one.submit sampleReplayRules ⟨[], []⟩ (sampleReplayBlock 2 2)).branch

/-- The first block releases the other two, and with the last of them it becomes final. -/
theorem sample_chains_agree : ∃ b : Branch, b.chain.Reachable sampleReplayRules ∧
    b.chain.buffered.size = 2 ∧
    (b.submit sampleReplayRules ⟨[], []⟩ (sampleReplayBlock 1 1)).outcome = .applied 3 ∧
    (b.submit sampleReplayRules ⟨[], []⟩ (sampleReplayBlock 1 1)).events =
      [.applied (.ofWord 2) ⟨1⟩ 1, .applied (.ofWord 2) ⟨2⟩ 2, .applied (.ofWord 2) ⟨3⟩ 3,
        .finalized (.ofWord 2) [⟨1⟩] []] ∧
    b.chain.Agrees ∧
    ∃ m x, Branch.Applies sampleReplayRules ⟨[], []⟩ b (sampleReplayBlock 1 1) m x ∧ x.id = ⟨3⟩ ∧
      m.Agrees ∧ m.Takes x ∧ m.EntersAt x 3 := by
  obtain ⟨graph, hgraph, hbuffered, hout, hevents⟩ : ∃ graph,
      Chain.newGraph sampleReplayRules.config ⟨0⟩ = .ok graph ∧
      (sampleReplay graph).chain.buffered.size = 2 ∧
      ((sampleReplay graph).submit sampleReplayRules ⟨[], []⟩ (sampleReplayBlock 1 1)).outcome =
        .applied 3 ∧
      ((sampleReplay graph).submit sampleReplayRules ⟨[], []⟩ (sampleReplayBlock 1 1)).events =
        [.applied (.ofWord 2) ⟨1⟩ 1, .applied (.ofWord 2) ⟨2⟩ 2, .applied (.ofWord 2) ⟨3⟩ 3,
          .finalized (.ofWord 2) [⟨1⟩] []] :=
    ⟨_, rfl, by decide +kernel, by decide +kernel, by decide +kernel⟩
  have hreach : (sampleReplay graph).chain.Reachable sampleReplayRules :=
    .submit _ _ (.submit (b := .leaf _) _ _ (.start hgraph))
  obtain ⟨hagrees, hmeets, hreports, -⟩ :=
    (chains_agree sampleReplayRules).2 (sampleReplay graph) hreach ⟨[], []⟩ (sampleReplayBlock 1 1)
  obtain ⟨m, x, happlies, -, hx, henters⟩ := hreports (.ofWord 2) ⟨3⟩ 3 (by rw [hevents]; simp)
  exact ⟨_, hreach, hbuffered, hout, hevents, hagrees, m, x, happlies, hx,
    (hmeets m x happlies).1, (hmeets m x happlies).2, henters⟩

end Run

end ShardLedger
