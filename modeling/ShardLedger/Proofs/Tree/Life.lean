import ShardLedger.Proofs.Tree.Submission

/-!
# The life of a chain

A chain starts from a block, and then blocks are submitted to it, waiting blocks are given up,
content and finalized blocks move, and at some point it may be merged away. What counts for others
is what came of the submissions, so a life keeps a receipt of each.

- `Receipt`, `Chain.Becomes`: what becomes of a chain, with the receipts of the submissions.
- `Chain.Life`: a chain with all its receipts since it started.
- `Chain.Kept`, `Chain.Becomes.keeps`: what every block that enters keeps, holds for good.
- `Branch.deliver`: blocks that are submitted one after another.
-/

namespace ShardLedger

/-! ### Receipts -/

namespace Event

/-- The chain that reports; the global order is reported by none. -/
def chain? : Event → Option ChainId
  | applied chain _ _ => some chain
  | finalized chain _ _ => some chain
  | linearized _ _ => none

/-- The block that is reported to have entered a fork graph. -/
def enteredIds : Event → List BlockId
  | applied _ id _ => [id]
  | _ => []

/-- The blocks that are reported as finalized, oldest first. -/
def finalizedIds : Event → List BlockId
  | finalized _ ordered _ => ordered
  | _ => []

/-- The blocks that are reported as discarded. -/
def discardedIds : Event → List BlockId
  | finalized _ _ discarded => discarded
  | _ => []

end Event

/-- All blocks that some events report to have entered. -/
def enteredIn (events : List Event) : List BlockId := events.flatMap Event.enteredIds

/-- All blocks that some events report as finalized. -/
def finalizedIn (events : List Event) : List BlockId := events.flatMap Event.finalizedIds

/-- All blocks that some events report as discarded. -/
def discardedIn (events : List Event) : List BlockId := events.flatMap Event.discardedIds

section

variable (events later : List Event)

@[simp] theorem enteredIn_append :
    enteredIn (events ++ later) = enteredIn events ++ enteredIn later := by simp [enteredIn]

@[simp] theorem finalizedIn_append :
    finalizedIn (events ++ later) = finalizedIn events ++ finalizedIn later := by
  simp [finalizedIn]

@[simp] theorem discardedIn_append :
    discardedIn (events ++ later) = discardedIn events ++ discardedIn later := by
  simp [discardedIn]

end

/-- A block that was submitted to a chain, and what came of it. -/
structure Receipt where
  block : Block
  outcome : Outcome
  events : List Event
  /-- The blocks that were put in line for the global order, oldest first. -/
  queued : List Block
deriving DecidableEq

/-- The receipt of a submission to the topmost chain. -/
def Branch.receipt (rules : Rules) (roster : Roster) (b : Branch) (block : Block) : Receipt :=
  let s := b.submit rules roster block
  { block, outcome := s.outcome, events := s.events
    queued := s.branch.chain.undelivered.drop b.chain.undelivered.length }

/-- All blocks that were submitted. -/
def submittedIn (log : List Receipt) : List Block := log.map (·.block)

/-- All events that were reported, in order. -/
def eventsIn (log : List Receipt) : List Event := log.flatMap (·.events)

/-- All blocks that were put in line for the global order, in order. -/
def queuedIn (log : List Receipt) : List Block := log.flatMap (·.queued)

section

variable (log later : List Receipt) (r : Receipt)

@[simp] theorem submittedIn_append :
    submittedIn (log ++ later) = submittedIn log ++ submittedIn later := by simp [submittedIn]

@[simp] theorem eventsIn_append : eventsIn (log ++ later) = eventsIn log ++ eventsIn later := by
  simp [eventsIn]

@[simp] theorem queuedIn_append : queuedIn (log ++ later) = queuedIn log ++ queuedIn later := by
  simp [queuedIn]

@[simp] theorem submittedIn_singleton : submittedIn [r] = [r.block] := rfl

@[simp] theorem eventsIn_singleton : eventsIn [r] = r.events := by simp [eventsIn]

@[simp] theorem queuedIn_singleton : queuedIn [r] = r.queued := by simp [queuedIn]

end

namespace Chain

variable {rules : Rules} {seen xs : List Block} {c d : Chain} {log before after : List Receipt}
  {block x genesis : Block} {parent : BlockId} {a : Applied}

/-- What becomes of a chain, and the receipts of the submissions on the way. The chain is the
topmost of a branch whenever a block is submitted to it, so what is below it may differ from one
submission to the next. -/
inductive Becomes (rules : Rules) (c : Chain) : List Receipt → Chain → Prop where
  | refl : Becomes rules c [] c
  | submit {log : List Receipt} {b : Branch} (roster : Roster) (block : Block)
      (h : Becomes rules c log b.chain) :
      Becomes rules c (log ++ [b.receipt rules roster block])
        (b.submit rules roster block).branch.chain
  | discardPending {log : List Receipt} {d : Chain} (id : BlockId) (h : Becomes rules c log d) :
      Becomes rules c log (d.discardPending id).1
  /-- The chain is merged into its parent. -/
  | retire {log : List Receipt} {d : Chain} (h : Becomes rules c log d) :
      Becomes rules c log d.retire
  /-- Content comes in, is consumed, moves to children and back; finalized blocks are taken off the
  queue; the root is permanent from the start. -/
  | rest {log : List Receipt} {d : Chain} (content : ContentStore) (undelivered : List Block)
      (permanent : Bool) (h : Becomes rules c log d) :
      Becomes rules c log { d with content, undelivered, permanent }

/-- Whatever becomes of a chain in a reachable state is reachable. -/
theorem Becomes.reachable (h : c.Becomes rules log d) (hc : c.Reachable rules) :
    d.Reachable rules := by
  induction h with
  | refl => exact hc
  | submit roster block _ ih => exact ih.submit roster block
  | discardPending id _ ih => exact ih.discardPending id
  | retire _ ih => exact ih.retire
  | rest content undelivered permanent _ ih => exact ih.rest content undelivered permanent

theorem Becomes.trans {later : List Receipt} {e : Chain} (h : c.Becomes rules log d)
    (hlater : d.Becomes rules later e) : c.Becomes rules (log ++ later) e := by
  induction hlater with
  | refl => rwa [List.append_nil]
  | submit roster block _ ih => exact List.append_assoc log .. ▸ ih.submit roster block
  | discardPending id _ ih => exact ih.discardPending id
  | retire _ ih => exact ih.retire
  | rest content undelivered permanent _ ih => exact ih.rest content undelivered permanent

/-- Every receipt was given for a submission to the chain as it was after the earlier ones. -/
theorem Becomes.submitted {r : Receipt} (h : c.Becomes rules log d)
    (hlog : log = before ++ r :: after) : ∃ (b : Branch) (roster : Roster),
      c.Becomes rules before b.chain ∧ r = b.receipt rules roster r.block := by
  induction h generalizing after with
  | refl => cases before <;> cases hlog
  | @submit log b roster block h ih =>
    rcases List.eq_nil_or_concat' after with rfl | ⟨more, last, rfl⟩
    · obtain ⟨rfl, hr⟩ := List.append_inj' hlog rfl
      cases hr
      exact ⟨b, roster, h, rfl⟩
    · rw [← List.cons_append, ← List.append_assoc] at hlog
      exact ih (List.append_inj' hlog rfl).1
  | discardPending _ _ ih => exact ih hlog
  | retire _ ih => exact ih hlog
  | rest _ _ _ _ ih => exact ih hlog

/-- A block that chain `id` turns away by itself: it names no parent, or belongs elsewhere. -/
def Foreign (id : ChainId) (b : Block) : Prop := b.parent? = none ∨ b.chain ≠ id

/-- A chain that started from a block, with the receipts of all that was submitted to it. The block
is not one of its own: the root starts from a block without a parent, and a child from one of the
chain that it was split off. -/
def Life (rules : Rules) (genesis : Block) (log : List Receipt) (c : Chain) : Prop :=
  ∃ id graph content cursor, newGraph rules.config genesis.id = .ok graph ∧ Foreign id genesis ∧
    (start id genesis graph content cursor).Becomes rules log c

theorem foreign_root : Foreign .root (Block.genesis .root) := .inl rfl

/-- A child has another number than the chain that it is split off. -/
theorem foreign_child {upper id : ChainId} {side : Side} (hpos : 0 < upper.number)
    (hchild : upper.child? side = some id) (hseed : genesis.chain = upper) :
    Foreign id genesis := by
  refine .inr fun heq => ?_
  have hnumber := ChainId.child?_number hchild
  rw [← heq, hseed] at hnumber
  cases side with
  | left =>
    have : upper.number = 2 * upper.number := hnumber
    omega
  | right =>
    have : upper.number = 2 * upper.number + 1 := hnumber
    omega

/-! ### What every block that enters keeps -/

/-- Chains that agree in their number, the fork graph with its blocks, and the rank that comes
next. -/
structure Akin (c d : Chain) : Prop where
  id : d.id = c.id
  graph : d.graph = c.graph
  blocks : d.blocks = c.blocks
  nextRank : d.nextRank = c.nextRank

theorem akin_of_bare (h : d.bare = c.bare) : Akin c d := by
  rw [eq_of_bare h]
  exact ⟨rfl, rfl, rfl, rfl⟩

theorem akin_discardPending (c : Chain) (id : BlockId) : Akin c (c.discardPending id).1 := by
  obtain ⟨backlog, buffered, heq, -⟩ := @discardPending_spec [] c id
  rw [heq]
  exact ⟨rfl, rfl, rfl, rfl⟩

/-- Until the released blocks are applied, a submission changes only what waits. -/
theorem akin_receive (parent : BlockId) (h : c.Sound seen) (hb : Admitted seen c.id block) :
    Akin c (c.receive block parent).1 ∧
      (c.receive block parent).1.undelivered = c.undelivered := by
  obtain ⟨backlog, buffered, heq, -⟩ := receive_spec parent h hb
  rw [heq]
  exact ⟨⟨rfl, rfl, rfl, rfl⟩, rfl⟩

/-- Where only accepted blocks count as seen, what passes the screen was seen. -/
theorem admitted_of_accepted (hseen : rules.accepts block = true → block ∈ seen) {id : ChainId}
    (h : screen rules id block = .ok parent) :
    Admitted seen id block ∧ block.parent? = some parent :=
  admitted_of_screen (hseen (accepts_of_screen h)) h

/-- A chain that is about to apply blocks, which a submitted block has released. -/
theorem Orderly.released (h : c.Orderly seen) (hb : Admitted seen c.id block)
    (hparent : block.parent? = some parent) (hreceive : c.receive block parent = (d, .released xs)) :
    d.Orderly seen ∧ d.Ready seen xs ∧ Akin c d ∧ d.undelivered = c.undelivered := by
  obtain ⟨horderly, hready⟩ := h.receive hb hparent
  obtain ⟨hakin, hqueue⟩ := akin_receive parent h.toSound hb
  rw [hreceive] at horderly hready hakin hqueue
  exact ⟨horderly, hready xs rfl, hakin, hqueue⟩

@[simp] theorem Applied.enteredIn_reports (a : Applied) (chain : ChainId) (block : BlockId) :
    enteredIn (a.reports chain block) = [block] := by
  unfold reports
  split <;> rfl

@[simp] theorem Applied.finalizedIn_reports (a : Applied) (chain : ChainId) (block : BlockId) :
    finalizedIn (a.reports chain block) = a.step.finalized := by
  unfold reports
  split
  · rw [(ForkStep.isEmpty_iff.1 ‹_›).1]
    rfl
  · exact List.append_nil _

@[simp] theorem Applied.discardedIn_reports (a : Applied) (chain : ChainId) (block : BlockId) :
    discardedIn (a.reports chain block) = a.step.pruned := by
  unfold reports
  split
  · rw [(ForkStep.isEmpty_iff.1 ‹_›).2]
    rfl
  · exact List.append_nil _

/-- A statement about the events of a chain, the blocks that it put in line, and the chain itself,
which every block that enters keeps. -/
structure Kept (config : Config) (seen : List Block)
    (I : List Event → List Block → Chain → Prop) : Prop where
  akin : ∀ {events queue c d}, Akin c d → I events queue c → I events queue d
  enter : ∀ {events queue c x xs a}, c.Orderly seen → c.Ready seen (x :: xs) →
    c.apply x = some a → I events queue c →
      I (events ++ a.reports c.id x.id) (queue ++ a.outcome.2)
        (a.outcome.1.enqueueAll config a.outcome.2)

/-- The entry of a block changes the graph and its blocks, and nothing else. -/
theorem Applied.outcome_rest (h : c.apply x = some a) :
    a.outcome.1 = { c with graph := a.chain.graph, blocks := a.outcome.1.blocks } := by
  obtain ⟨_, _, node, graph, -, -, -, -, -, heq⟩ := apply_eq_some h
  have hchain : a.chain = { c with graph := a.chain.graph, blocks := a.chain.blocks } := by rw [heq]
  unfold outcome
  split
  · exact hchain
  · unfold collect
    rw [hchain]

end Chain

namespace Branch

variable {rules : Rules} {roster : Roster} {seen queue xs : List Block} {b : Branch}
  {events : List Event} {block x : Block} {a : Chain.Applied}
  {I : List Event → List Block → Chain → Prop}

theorem apply_reports (h : b.chain.apply x = some a) :
    (b.apply rules roster x).2.2 = a.reports b.chain.id x.id := by
  rw [apply_of_some h]

theorem apply_undelivered (h : b.chain.apply x = some a) :
    (b.apply rules roster x).1.chain.undelivered = b.chain.undelivered ++ a.outcome.2 := by
  obtain ⟨nextRank, permanent, heq⟩ :=
    Chain.enqueueAll_eq rules.config a.outcome.2 a.outcome.1
  have htop : (b.apply rules roster x).1.chain.bare = _ := apply_top h
  rw [heq, Chain.Applied.outcome_rest h] at htop
  exact (congrArg Chain.undelivered htop :)

/-- A released block that stays outside changes nothing. -/
theorem apply_keeps (hI : Chain.Kept rules.config seen I) (roster : Roster)
    (horderly : b.chain.Orderly seen) (hready : b.chain.Ready seen (x :: xs))
    (h : I events queue b.chain) :
    ∃ more, (b.apply rules roster x).1.chain.undelivered = b.chain.undelivered ++ more ∧
      I (events ++ (b.apply rules roster x).2.2) (queue ++ more)
        (b.apply rules roster x).1.chain := by
  cases ha : b.chain.apply x with
  | none =>
    have hsame : b.apply rules roster x = (b, roster, []) := apply_of_none ha
    refine ⟨[], ?_, ?_⟩
    · rw [hsame, List.append_nil]
    · rwa [hsame, List.append_nil, List.append_nil]
  | some a =>
    refine ⟨a.outcome.2, apply_undelivered ha, ?_⟩
    rw [apply_reports ha]
    exact hI.akin (Chain.akin_of_bare (apply_top ha)) (hI.enter horderly hready ha h)

theorem applyAll_keeps (hI : Chain.Kept rules.config seen I) : ∀ (xs : List Block)
    (roster : Roster) {b : Branch} {events : List Event} {queue : List Block},
    b.chain.Orderly seen → b.chain.Ready seen xs → I events queue b.chain →
      ∃ more, (applyAll rules roster b xs).1.chain.undelivered = b.chain.undelivered ++ more ∧
        I (events ++ (applyAll rules roster b xs).2.2.2) (queue ++ more)
          (applyAll rules roster b xs).1.chain
  | [], roster, b, events, queue, _, _, h => by
    refine ⟨[], (List.append_nil _).symm, ?_⟩
    show I (events ++ []) (queue ++ []) b.chain
    rwa [List.append_nil, List.append_nil]
  | x :: rest, roster, b, events, queue, horderly, hready, h => by
    obtain ⟨now, hqueue, hnow⟩ := apply_keeps hI roster horderly hready h
    obtain ⟨hnext, hlater⟩ : (b.apply rules roster x).1.chain.Orderly seen ∧
        (b.apply rules roster x).1.chain.Ready seen rest := apply_orderly horderly hready
    obtain ⟨later, hrest, hlast⟩ :=
      applyAll_keeps hI rest (b.apply rules roster x).2.1 hnext hlater hnow
    refine ⟨now ++ later, ?_, ?_⟩
    · rw [← List.append_assoc, ← hqueue]
      exact hrest
    · rw [List.append_assoc, List.append_assoc] at hlast
      exact hlast

/-- What every block that enters keeps, a submission keeps, as far as its receipt tells. -/
theorem submit_keeps (hI : Chain.Kept rules.config seen I) (roster : Roster)
    (horderly : b.chain.Orderly seen) (hseen : rules.accepts block = true → block ∈ seen)
    (h : I events queue b.chain) :
    I (events ++ (b.receipt rules roster block).events)
      (queue ++ (b.receipt rules roster block).queued)
      (b.submit rules roster block).branch.chain := by
  suffices hmore : ∃ more,
      (b.submit rules roster block).branch.chain.undelivered = b.chain.undelivered ++ more ∧
        I (events ++ (b.submit rules roster block).events) (queue ++ more)
          (b.submit rules roster block).branch.chain by
    obtain ⟨more, hqueue, hmore⟩ := hmore
    simpa [receipt, hqueue] using hmore
  have hsubmitted := b.submitted rules roster block
  generalize b.submit rules roster block = s at hsubmitted ⊢
  cases hsubmitted with
  | screened => exact ⟨[], by simpa using h⟩
  | @settled parent c outcome hscreen hreceive =>
    obtain ⟨hb, -⟩ := Chain.admitted_of_accepted hseen hscreen
    obtain ⟨hakin, hqueue⟩ := Chain.akin_receive parent horderly.toSound hb
    rw [hreceive] at hakin hqueue
    refine ⟨[], ?_, ?_⟩
    · simpa only [chain_withChain, List.append_nil] using hqueue
    · simpa only [chain_withChain, List.append_nil] using hI.akin hakin h
  | @entered parent c xs hscreen hreceive =>
    obtain ⟨hb, hparent⟩ := Chain.admitted_of_accepted hseen hscreen
    obtain ⟨hnext, hready, hakin, hqueue⟩ := horderly.released hb hparent hreceive
    have hkeeps := applyAll_keeps hI xs roster (b := b.withChain c) (by rwa [chain_withChain])
      (by rwa [chain_withChain])
      (show I events queue (b.withChain c).chain by rw [chain_withChain]; exact hI.akin hakin h)
    rwa [chain_withChain, hqueue] at hkeeps

/-- A chain stays orderly, if the blocks that were seen count only where they are accepted. -/
theorem submit_orderly_of_accepted (rules : Rules) (roster : Roster) (h : b.chain.Orderly seen)
    (hseen : rules.accepts block = true → block ∈ seen) :
    (b.submit rules roster block).branch.chain.Orderly seen := by
  by_cases haccepts : rules.accepts block = true
  · exact submit_orderly rules roster h (hseen haccepts)
  · have hsubmitted := b.submitted rules roster block
    generalize b.submit rules roster block = s at hsubmitted ⊢
    cases hsubmitted with
    | screened => exact h
    | settled hscreen => exact absurd (Chain.accepts_of_screen hscreen) haccepts
    | entered hscreen => exact absurd (Chain.accepts_of_screen hscreen) haccepts

end Branch

namespace Chain

variable {rules : Rules} {seen : List Block} {c d : Chain} {log : List Receipt}
  {I : List Event → List Block → Chain → Prop}

theorem Becomes.orderly (h : c.Becomes rules log d) (hc : c.Orderly seen)
    (hseen : ∀ b ∈ submittedIn log, rules.accepts b = true → b ∈ seen) : d.Orderly seen := by
  induction h with
  | refl => exact hc
  | submit roster block _ ih =>
    rw [submittedIn_append, List.forall_mem_append] at hseen
    exact Branch.submit_orderly_of_accepted rules roster (ih hseen.1) (hseen.2 _ (List.mem_singleton_self _))
  | discardPending id _ ih => exact (ih hseen).discardPending id
  | retire _ ih => exact (ih hseen).retire
  | rest content undelivered permanent _ ih => exact (ih hseen).rest content undelivered _ permanent

/-- What every block that enters keeps, holds for good if it holds at first. -/
theorem Becomes.keeps (h : c.Becomes rules log d) (hI : Kept rules.config seen I)
    (hc : c.Orderly seen) (hseen : ∀ b ∈ submittedIn log, rules.accepts b = true → b ∈ seen)
    (hstart : I [] [] c) : I (eventsIn log) (queuedIn log) d := by
  induction h with
  | refl => exact hstart
  | @submit log b roster block h ih =>
    rw [submittedIn_append, List.forall_mem_append] at hseen
    rw [eventsIn_append, queuedIn_append, eventsIn_singleton, queuedIn_singleton]
    exact Branch.submit_keeps hI roster (h.orderly hc hseen.1)
      (hseen.2 _ (List.mem_singleton_self _)) (ih hseen.1)
  | discardPending id _ ih => exact hI.akin (akin_discardPending _ id) (ih hseen)
  | @retire log d _ ih => exact hI.akin (c := d) ⟨rfl, rfl, rfl, rfl⟩ (ih hseen)
  | @rest log d content undelivered permanent _ ih =>
    exact hI.akin (c := d) ⟨rfl, rfl, rfl, rfl⟩ (ih hseen)

theorem kept_id (config : Config) (seen : List Block) (id : ChainId) :
    Kept config seen fun _ _ c => c.id = id where
  akin hakin h := hakin.id.trans h
  enter _ _ ha h := by
    obtain ⟨nextRank, permanent, heq⟩ := enqueueAll_eq config _ _
    rw [heq, Applied.outcome_rest ha]
    exact h

/-- A chain keeps its number. -/
theorem Becomes.id_eq (h : c.Becomes rules log d) (hc : c.Reachable rules) : d.id = c.id := by
  obtain ⟨seen, horderly⟩ := hc.orderly
  refine h.keeps (kept_id rules.config (submittedIn log ++ seen) c.id) (horderly.mono ?_) ?_ rfl
  · exact List.subset_append_right ..
  · exact fun b hb _ => List.mem_append_left _ hb

end Chain

/-! ### One submission after another -/

namespace Branch

variable {rules : Rules}

/-- Blocks are submitted to the topmost chain one after another, and the receipts are kept. -/
def deliver (rules : Rules) (roster : Roster) (b : Branch) : List Block → Branch × List Receipt
  | [] => (b, [])
  | block :: rest =>
    let s := b.submit rules roster block
    let (last, log) := s.branch.deliver rules s.roster rest
    (last, b.receipt rules roster block :: log)

theorem becomes_deliver : ∀ (blocks : List Block) (roster : Roster) (b : Branch),
    b.chain.Becomes rules (b.deliver rules roster blocks).2 (b.deliver rules roster blocks).1.chain
  | [], _, _ => .refl
  | block :: rest, roster, b =>
    (Chain.Becomes.refl.submit (b := b) roster block).trans (becomes_deliver rest _ _)

@[simp] theorem submittedIn_deliver : ∀ (blocks : List Block) (roster : Roster) (b : Branch),
    submittedIn (b.deliver rules roster blocks).2 = blocks
  | [], _, _ => rfl
  | block :: rest, _, _ => congrArg (block :: ·) (submittedIn_deliver rest _ _)

/-- So many confirmations make a block final. -/
def sampleRules (confirmations : Nat) : Rules :=
  .ofConfig { fork := { finalizedWeight := confirmations } }

/-- Block zero, on the root. -/
def sampleSeed : Block :=
  { previous := [⟨9⟩], chain := .root, content := [], weight := 1, rank := ⟨0, 0⟩, proposer := ""
    id := ⟨0⟩ }

/-- Block `n` on chain 2, after block `p`. -/
def sampleAfter (p n : Nat) (rank : Rank) : Block :=
  { previous := [⟨p⟩], chain := .ofWord 2, content := [], weight := 1, rank, proposer := ""
    id := ⟨n⟩ }

/-- Some blocks are submitted to chain 2, which starts from block zero. -/
def sampleRun (rules : Rules) (graph : ForkGraph) (blocks : List Block) : Branch × List Receipt :=
  (leaf (.start (.ofWord 2) sampleSeed graph .empty .top)).deliver rules ⟨[], []⟩ blocks

theorem sample_life {graph : ForkGraph}
    (hg : Chain.newGraph rules.config sampleSeed.id = .ok graph) (blocks : List Block) :
    Chain.Life rules sampleSeed (sampleRun rules graph blocks).2
      (sampleRun rules graph blocks).1.chain :=
  ⟨.ofWord 2, graph, .empty, .top, hg, .inr (by decide), becomes_deliver blocks ⟨[], []⟩ (leaf _)⟩

end Branch

end ShardLedger
