import ShardLedger.Proofs.Ledger.Passing
import ShardLedger.Proofs.Order.Conservation

/-!
# Runs

A run performs operations on a ledger, one after the other, from a fresh one on. It records what
observers are told, the passes and the proposals.

- `Operation`, `Run`, `Run.after`: the runs of some rules.
- `Run.Tracks`: a run as a path of the board.
- `Run.tracks`: every run is one.
-/

namespace ShardLedger

/-- What can be asked of a ledger. -/
inductive Operation where
  | submitBlock (block : Block)
  | submitContent (item : ContentItem)
  | invalidate (content : ContentId)
  | propose (chain : ChainId) (maxSize : Nat)
  | discardPending (chain : ChainId) (block : BlockId)
  | tick
  | settle

namespace Operation

/-- The block that is submitted. -/
def block? : Operation → Option Block
  | submitBlock block => some block
  | _ => none

/-- The content item that is submitted. -/
def item? : Operation → Option ContentItem
  | submitContent item => some item
  | _ => none

end Operation

/-- The blocks that are submitted. -/
def blocksOf (ops : List Operation) : List Block := ops.filterMap Operation.block?

/-- The content items that are submitted. -/
def itemsOf (ops : List Operation) : List ContentItem := ops.filterMap Operation.item?

/-- Among the blocks of some operations are those of the first and those of the others. -/
theorem blocksOf_cons {seen : List Block} {op : Operation} {later : List Operation}
    (h : blocksOf (op :: later) ⊆ seen) :
    (∀ block ∈ op.block?, block ∈ seen) ∧ blocksOf later ⊆ seen := by
  refine ⟨fun block hblock => h ?_, fun block hblock => h ?_⟩
  · exact List.mem_filterMap.2 ⟨op, List.mem_cons_self .., hblock⟩
  · obtain ⟨op', hop', hblock⟩ := List.mem_filterMap.1 hblock
    exact List.mem_filterMap.2 ⟨op', List.mem_cons_of_mem _ hop', hblock⟩

/-- A ledger with a record of what happened to it. -/
structure Run where
  ledger : Ledger
  /-- What observers were told, in order. -/
  events : List Event
  /-- The passes, but for the idle ones that end a settling. -/
  passes : List Ledger.Pass
  /-- What proposers were offered, in order. -/
  proposals : List Proposal

namespace Run

/-- A ledger to which nothing has happened yet. -/
def start (l : Ledger) : Run := { ledger := l, events := [], passes := [], proposals := [] }

/-- Perform one operation. -/
def perform (rules : Rules) (r : Run) : Operation → Run
  | .submitBlock block =>
    let (l, _, events) := r.ledger.submitBlock rules block
    { r with ledger := l, events := r.events ++ events }
  | .submitContent item => { r with ledger := (r.ledger.submitContent item).1 }
  | .invalidate content => { r with ledger := (r.ledger.invalidate content).1 }
  | .propose chain maxSize =>
    match r.ledger.proposal rules chain maxSize with
    | .ok proposal => { r with proposals := r.proposals ++ [proposal] }
    | .error _ => r
  | .discardPending chain block => { r with ledger := (r.ledger.discardPending chain block).1 }
  | .tick =>
    let pass := r.ledger.tick rules
    { r with ledger := pass.ledger, events := r.events ++ pass.events
             passes := r.passes ++ [pass] }
  | .settle =>
    let (l, passes) := r.ledger.settle rules
    { r with ledger := l, events := r.events ++ passes.flatMap Ledger.Pass.events
             passes := r.passes ++ passes }

/-- The run of some operations on a fresh ledger, if the rules are fit for one. -/
def after (rules : Rules) (ops : List Operation) : Except LedgerError Run := do
  let l ← Ledger.create rules
  return ops.foldl (perform rules) (start l)

/-- The blocks placed in the global order so far. -/
def linearized (r : Run) : List Linearized := r.passes.flatMap (·.delivered)

/-- What was reported as finalized so far, with the chains. -/
def finalizations (r : Run) : List (ChainId × BlockId) := r.events.flatMap Event.finalizations

theorem perform_submitBlock {rules : Rules} {r : Run} {block : Block} {l : Ledger}
    {outcome : Outcome} {events : List Event}
    (h : r.ledger.submitBlock rules block = (l, outcome, events)) :
    r.perform rules (.submitBlock block) = { r with ledger := l, events := r.events ++ events } := by
  simp only [perform, h]

theorem perform_propose_ok {rules : Rules} {r : Run} {chain : ChainId} {maxSize : Nat}
    {p : Proposal} (h : r.ledger.proposal rules chain maxSize = .ok p) :
    r.perform rules (.propose chain maxSize) = { r with proposals := r.proposals ++ [p] } := by
  simp only [perform, h]

theorem perform_propose_error {rules : Rules} {r : Run} {chain : ChainId} {maxSize : Nat}
    {e : LedgerError} (h : r.ledger.proposal rules chain maxSize = .error e) :
    r.perform rules (.propose chain maxSize) = r := by
  simp only [perform, h]

/-- The invariant: the run is a path of the board, which finalizes and delivers what is recorded. -/
structure Tracks (seen : List Block) (rules : Rules) (r : Run) : Prop where
  arranged : r.ledger.Arranged seen
  board : ∃ fin : List (ChainId × Block),
    r.finalizations = fin.map (fun entry => (entry.1, entry.2.id)) ∧
    Board.Steps seen Board.start
      ⟨r.ledger.lanes, fin, r.linearized.map fun d => (d.chain, d.block)⟩
  seq : r.linearized.map (·.seq) = List.range r.linearized.length
  count : r.ledger.linearizer.delivered = r.linearized.length
  passes : ∀ pass ∈ r.passes, Ledger.IsPass seen rules pass

variable {seen : List Block} {rules : Rules} {ops : List Operation} {r : Run}

/-- A fresh ledger has nothing but its root chain. -/
theorem create_eq {l : Ledger} (h : Ledger.create rules = .ok l) :
    ∃ graph, Chain.newGraph rules.config (Block.genesis .root).id = .ok graph ∧
      l = { root := .leaf { Chain.start .root (Block.genesis .root) graph .empty .top with
                permanent := true }
            retired := [], registered := [.root], roster := { occupied := [.root], spawned := [] }
            leaving := [], linearizer := .start } := by
  unfold Ledger.create at h
  cases hv : rules.config.validate with
  | error => rw [hv] at h; cases h
  | ok =>
    rw [hv] at h
    unfold Chain.root at h
    cases hg : Chain.newGraph rules.config (Block.genesis .root).id with
    | error =>
      simp only [hg, bind, Except.bind] at h
      cases h
    | ok graph =>
      simp only [hg, bind, Except.bind, pure, Except.pure, Except.ok.injEq] at h
      exact ⟨graph, rfl, h.symm⟩

/-- A fresh ledger is arranged, and its one lane is the one the board starts with. -/
theorem create_arranged {l : Ledger} (h : Ledger.create rules = .ok l) :
    l.Arranged seen ∧ l.lanes = Board.start.lanes ∧ l.linearizer.delivered = 0 := by
  obtain ⟨graph, hgraph, rfl⟩ := create_eq h
  have hpath : ChainId.root.path = [] := ChainId.turns_one
  generalize hroot : ({ Chain.start .root (Block.genesis .root) graph .empty .top with
    permanent := true } : Chain) = root
  have hrun : root.Running seen (Block.genesis .root) := by
    have hstart : (Chain.start .root (Block.genesis .root) graph .empty .top).Running seen
        (Block.genesis .root) := Chain.running_start hgraph
    subst hroot
    exact ⟨hstart.sound.congr rfl rfl rfl hstart.sound.waiting, rfl, hstart.anchor, rfl⟩
  have hid : root.id = .root := by rw [← hroot]; rfl
  have hqueue : root.undelivered = [] := by rw [← hroot]; rfl
  -- the root is the only live chain
  have honly : ∀ p c, (Branch.leaf root).chainAt p = some c → p = [] ∧ c = root := by
    intro p c hc
    by_cases hp : p = []
    · subst hp
      rw [Branch.chainAt_nil, Option.some.injEq] at hc
      exact ⟨rfl, hc.symm⟩
    · rw [Branch.chainAt_leaf hp] at hc
      cases hc
  generalize hl : (⟨.leaf root, [], [.root], ⟨[.root], []⟩, [], .start⟩ : Ledger) = l
  have hchain : l.chain? .root = some root := by
    subst hl
    refine Ledger.chain?_live ?_
    rw [hpath]
    exact Branch.chainAt_nil _
  refine ⟨?_, ?_, by rw [← hl]; rfl⟩
  · subst hl
    exact
      { numbered := fun p c hc => by
          obtain ⟨rfl, rfl⟩ := honly p c hc
          rw [hid]
          rfl
        running := fun p c hc => ⟨_, (honly p c hc).2 ▸ hrun⟩
        halted := fun _ hc => nomatch hc
        retired_nodup := List.nodup_nil
        order_nodup := List.nodup_singleton _
        mem_order := fun a ha => by
          rw [List.mem_singleton.1 ha]
          exact ⟨Nat.one_pos, root, hchain⟩
        live_mem := fun p c hc => by
          rw [(honly p c hc).2, hid]
          exact List.mem_singleton.2 rfl
        retired_mem := fun _ hc => nomatch hc
        occupied := fun _ ha => ha
        leaving := rfl
        root_registered := List.mem_singleton.2 rfl }
  · have horder : l.order = [.root] := by rw [← hl]; rfl
    show l.order.filterMap (fun id => (l.chain? id).map Lane.of) = _
    rw [horder, List.filterMap_cons, hchain]
    show [Lane.of root] = _
    rw [Lane.of_running hrun, hid, hqueue]
    rfl

theorem tracks_start {l : Ledger} (h : Ledger.create rules = .ok l) :
    (start l).Tracks seen rules := by
  obtain ⟨harranged, hlanes, hcount⟩ := @create_arranged seen _ _ h
  refine ⟨harranged, ⟨[], rfl, ?_⟩, rfl, hcount, fun _ hp => nomatch hp⟩
  show Board.Steps seen Board.start ⟨l.lanes, [], []⟩
  rw [hlanes]
  exact .refl

/-- An operation that delivers nothing. -/
theorem Tracks.progress {l : Ledger} {events : List Event} (h : r.Tracks seen rules)
    (hp : Ledger.Progress seen r.ledger l events) :
    ({ r with ledger := l, events := r.events ++ events } : Run).Tracks seen rules := by
  obtain ⟨fin, hfin, hsteps⟩ := h.board
  obtain ⟨log, hlog, hmore⟩ := hp.steps
  refine ⟨hp.arranged, ⟨fin ++ log, ?_, hsteps.trans (hmore _ _)⟩, h.seq, ?_, h.passes⟩
  · show (r.events ++ events).flatMap _ = _
    rw [List.flatMap_append, List.map_append, hlog]
    exact congrArg (· ++ _) hfin
  · show l.linearizer.delivered = _
    rw [hp.linearizer]
    exact h.count

/-- An operation that delivers nothing and reports nothing. -/
theorem Tracks.quiet {l : Ledger} (h : r.Tracks seen rules)
    (hp : Ledger.Progress seen r.ledger l []) :
    ({ r with ledger := l } : Run).Tracks seen rules := by
  have hall := h.progress hp
  rw [List.append_nil] at hall
  exact hall

/-- A pass reports nothing as finalized. -/
theorem finalizations_pass (pass : Ledger.Pass) :
    pass.events.flatMap Event.finalizations = [] := by
  rw [List.flatMap_eq_nil_iff]
  intro e he
  obtain ⟨d, -, rfl⟩ := List.mem_map.1 he
  rfl

/-- Passes that deliver. -/
theorem Tracks.deliver {l : Ledger} {passes : List Ledger.Pass} (h : r.Tracks seen rules)
    (hd : Ledger.Delivers seen r.ledger l (passes.flatMap (·.delivered)))
    (hpasses : ∀ pass ∈ passes, Ledger.IsPass seen rules pass) :
    ({ r with ledger := l, events := r.events ++ passes.flatMap Ledger.Pass.events
              passes := r.passes ++ passes } : Run).Tracks seen rules := by
  obtain ⟨fin, hfin, hsteps⟩ := h.board
  have hlinearized : (r.passes ++ passes).flatMap (·.delivered) =
      r.linearized ++ passes.flatMap (·.delivered) := List.flatMap_append
  refine ⟨hd.arranged, ⟨fin, ?_, ?_⟩, ?_, ?_, fun pass hp => ?_⟩
  · show (r.events ++ passes.flatMap Ledger.Pass.events).flatMap _ = _
    rw [List.flatMap_append, List.flatMap_assoc, List.flatMap_eq_nil_iff.2 fun pass _ =>
      finalizations_pass pass, List.append_nil]
    exact hfin
  · show Board.Steps seen Board.start
      ⟨l.lanes, fin, ((r.passes ++ passes).flatMap (·.delivered)).map _⟩
    rw [hlinearized, List.map_append]
    exact hsteps.trans (hd.steps _ _)
  · show ((r.passes ++ passes).flatMap (·.delivered)).map (·.seq) =
      List.range ((r.passes ++ passes).flatMap (·.delivered)).length
    rw [hlinearized, List.map_append, h.seq, hd.seq, h.count, List.length_append,
      List.range_eq_range', List.range_eq_range', ← List.range'_append_1, Nat.zero_add]
  · show l.linearizer.delivered = ((r.passes ++ passes).flatMap (·.delivered)).length
    rw [hlinearized, List.length_append, hd.count, h.count]
  · rcases List.mem_append.1 hp with hp | hp
    · exact h.passes pass hp
    · exact hpasses pass hp

theorem Tracks.perform (h : r.Tracks seen rules) (op : Operation)
    (hseen : ∀ block ∈ op.block?, block ∈ seen) : (r.perform rules op).Tracks seen rules := by
  cases op with
  | submitBlock block =>
    exact h.progress (Ledger.submitBlock_progress rules h.arranged (hseen block rfl))
  | submitContent item => exact h.quiet (Ledger.submitContent_progress h.arranged item)
  | invalidate content => exact h.quiet (Ledger.invalidate_progress h.arranged content)
  | propose chain maxSize =>
    cases hp : r.ledger.proposal rules chain maxSize with
    | ok p => exact perform_propose_ok hp ▸ ⟨h.arranged, h.board, h.seq, h.count, h.passes⟩
    | error e => exact (perform_propose_error hp).symm ▸ h
  | discardPending chain block =>
    exact h.quiet (Ledger.discardPending_progress h.arranged chain block)
  | tick =>
    -- one pass is a list of one
    obtain ⟨hd, -⟩ := Ledger.tick_delivers rules h.arranged
    have hall := @Tracks.deliver _ _ _ _ [r.ledger.tick rules] h
      (by simpa using hd) fun pass hp => ⟨_, h.arranged, List.mem_singleton.1 hp⟩
    rw [List.flatMap_singleton] at hall
    exact hall
  | settle =>
    obtain ⟨hd, hpasses⟩ := Ledger.settle_delivers rules h.arranged
    exact h.deliver hd hpasses

theorem Tracks.performAll : ∀ (ops : List Operation) {r : Run}, r.Tracks seen rules →
    blocksOf ops ⊆ seen → (ops.foldl (Run.perform rules) r).Tracks seen rules
  | [], _, h, _ => h
  | op :: ops, _, h, hseen =>
    have ⟨hop, hlater⟩ := blocksOf_cons hseen
    Tracks.performAll ops (h.perform op hop) hlater

/-- A run starts with a fresh ledger. -/
theorem after_eq (h : Run.after rules ops = .ok r) :
    ∃ l, Ledger.create rules = .ok l ∧ r = ops.foldl (perform rules) (start l) := by
  unfold Run.after at h
  cases hl : Ledger.create rules with
  | error => rw [hl] at h; cases h
  | ok l =>
    rw [hl] at h
    simp only [bind, Except.bind, pure, Except.pure, Except.ok.injEq] at h
    exact ⟨l, rfl, h.symm⟩

theorem after_of_create {l : Ledger} (h : Ledger.create rules = .ok l) (ops : List Operation) :
    Run.after rules ops = .ok (ops.foldl (perform rules) (start l)) := by
  unfold Run.after
  rw [h]
  rfl

/-- What came before the last operation was a run as well. -/
theorem after_concat {op : Operation} (h : Run.after rules (ops ++ [op]) = .ok r) :
    ∃ r₀, Run.after rules ops = .ok r₀ ∧ r = r₀.perform rules op := by
  obtain ⟨l, hl, rfl⟩ := after_eq h
  refine ⟨_, after_of_create hl ops, ?_⟩
  rw [List.foldl_append, List.foldl_cons, List.foldl_nil]

/-- Every run is a path of the board, on which the submitted blocks are finalized. -/
theorem tracks (h : Run.after rules ops = .ok r) (hseen : blocksOf ops ⊆ seen) :
    r.Tracks seen rules := by
  obtain ⟨l, hl, rfl⟩ := after_eq h
  exact (tracks_start hl).performAll ops hseen

/-- A valid configuration is all that a run needs. -/
theorem exists_after (hvalid : rules.config.validate = .ok ()) (ops : List Operation) :
    ∃ r, Run.after rules ops = .ok r := by
  have hweight : rules.config.fork.finalizedWeight ≠ 0 := by
    intro hzero
    unfold Config.validate Config.problem? at hvalid
    rw [if_pos hzero] at hvalid
    cases hvalid
  obtain ⟨graph, hg⟩ : ∃ graph,
      Chain.newGraph rules.config (Block.genesis .root).id = .ok graph :=
    ForkGraph.exists_create _ _ hweight
  have hcreate : ∃ l, Ledger.create rules = .ok l := by
    unfold Ledger.create Chain.root
    simp only [hvalid, hg, bind, Except.bind, pure, Except.pure]
    exact ⟨_, rfl⟩
  obtain ⟨l, hl⟩ := hcreate
  exact ⟨_, after_of_create hl ops⟩

/-! ### A sample

An item is stored and offered to the root chain. Before the block that carries it is final, the
root is split, and the item is offered to the left child as well. -/

/-- A run that passes a test. -/
theorem exists_after_of_any {p : Run → Bool}
    (h : (Run.after rules ops).toOption.any p = true) :
    ∃ r, Run.after rules ops = .ok r ∧ p r = true := by
  cases hr : Run.after rules ops with
  | error => rw [hr] at h; cases h
  | ok r => exact ⟨r, rfl, by rw [hr] at h; exact h⟩

/-- One confirmation makes a block final, and a chain with any pending item splits. -/
def sampleRules : Rules :=
  { Rules.ofConfig { fork := { finalizedWeight := 1 } } with load := .threshold 0 0 }

def sampleItem : ContentItem := { id := ⟨7⟩, first := ⟨0⟩, second := ⟨0⟩, size := 3 }

def sampleBlock (id : BlockId) (chain : ChainId) (previous : BlockId) (content : List ContentRef)
    (rank : UInt64) : Block :=
  { previous := [previous], chain, content, weight := 1, rank := ⟨rank, rank + 1⟩
    proposer := "", id }

def sampleOps : List Operation :=
  let left : ChainId := .ofWord 2
  let right : ChainId := .ofWord 3
  let genesis := (Block.genesis .root).id
  let batch := [sampleItem.ref]
  [ .submitContent sampleItem,
    .propose .root 0, .submitBlock (sampleBlock ⟨1⟩ .root genesis [] 1),
    .propose .root 2048, .submitBlock (sampleBlock ⟨2⟩ .root ⟨1⟩ batch 2),
    .tick,
    .propose left 2048, .submitBlock (sampleBlock ⟨3⟩ left ⟨1⟩ batch 2),
    .propose left 0, .submitBlock (sampleBlock ⟨4⟩ left ⟨3⟩ [] 3),
    .propose right 0, .submitBlock (sampleBlock ⟨5⟩ right ⟨1⟩ [] 2),
    .propose right 0, .submitBlock (sampleBlock ⟨6⟩ right ⟨5⟩ [] 3),
    .propose .root 0, .submitBlock (sampleBlock ⟨7⟩ .root ⟨2⟩ [] 3),
    .tick ]

theorem sample_coherent : Coherent (Block.genesis .root :: blocksOf sampleOps) := by
  decide +kernel

end Run

end ShardLedger
