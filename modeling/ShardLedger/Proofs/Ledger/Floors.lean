import ShardLedger.Proofs.Ledger.Keeping

/-!
# Floors

The floor of a live chain is a promise: nothing ranked below it is finalized any more, neither on
the chain nor on any chain below it, even one that is yet to be split off. So floors never sink
while a chain is live, and neither does the bar of the ledger, which is the floor of the root.

- `Branch.le_floor_iff`: a floor as a bound on the chains of a branch.
- `Ledger.Floored`: a bound on the live chains at and below a place.
- `Ledger.Grows.floored`: a chain that changes and those split off it keep to a bound.
- `Ledger.Rises`, `Ledger.submitBlock_rises`: a submission keeps such bounds.
- `Run.finalizedUnder`, `Run.floor_sound`: what is finalized under a chain ranks at its floor or
  above, and the bar never sinks.
-/

namespace ShardLedger

variable {seen : List Block} {v : UInt64}

theorem le_topWord (w : UInt64) : w ≤ topWord := by
  have htop : topWord.toNat = 2 ^ 64 - 1 := by decide
  rw [UInt64.le_iff_toNat_le, htop]
  have := w.toNat_lt
  omega

/-- A bound on all floors is a bound on the bar. -/
theorem le_confirmBar {sources : List Source} (h : ∀ s ∈ sources, v ≤ s.floor) :
    v ≤ confirmBar sources := by
  have hfold : ∀ bar : UInt64, v ≤ bar →
      v ≤ sources.foldl (fun bar s => if s.floor < bar then s.floor else bar) bar := by
    induction sources with
    | nil => exact fun bar hbar => hbar
    | cons s rest ih =>
      intro bar hbar
      refine ih (fun t ht => h t (List.mem_cons_of_mem _ ht)) _ ?_
      dsimp only
      split
      · exact h s (List.mem_cons_self ..)
      · exact hbar
  exact hfold topWord (le_topWord v)

/-- Where no chain is retired, the floor of a branch is the least rank that any of its chains waits
for. -/
theorem Branch.le_floor_iff {b : Branch}
    (hlive : ∀ p c, b.chainAt p = some c → c.retired = false) :
    v ≤ b.floor ↔ ∀ p c, b.chainAt p = some c → v ≤ c.nextRank := by
  refine ⟨fun hv p c hc => UInt64.le_trans hv (floor_le hlive hc), fun hv => ?_⟩
  induction b with
  | leaf d =>
    have hd := hlive [] d (chainAt_nil _)
    simp only [floor, hd, Bool.false_eq_true, if_false]
    exact hv [] d (chainAt_nil _)
  | split d l r ihl ihr =>
    have hd := hlive [] d (chainAt_nil _)
    have hl := ihl (fun p c hc => hlive (.left :: p) c hc) fun p c hc => hv (.left :: p) c hc
    have hr := ihr (fun p c hc => hlive (.right :: p) c hc) fun p c hc => hv (.right :: p) c hc
    have htop := hv [] d (chainAt_nil _)
    simp only [floor, hd, Bool.false_eq_true, if_false]
    split <;> split <;> assumption

namespace Board

/-- Steps that finalize nothing only ever take anchors away. -/
theorem Steps.anchored {s s' : Board} (h : Steps seen s s') :
    s.finalized.length ≤ s'.finalized.length ∧
      (s'.finalized.length = s.finalized.length → ∀ lane ∈ s'.lanes, ∀ top ∈ lane.anchor?,
        ∃ old ∈ s.lanes, old.chain = lane.chain ∧ top ∈ old.anchor?) := by
  refine Steps.induct (P := fun s' => s.finalized.length ≤ s'.finalized.length ∧
    (s'.finalized.length = s.finalized.length → ∀ lane ∈ s'.lanes, ∀ top ∈ lane.anchor?,
      ∃ old ∈ s.lanes, old.chain = lane.chain ∧ top ∈ old.anchor?)) ?_ h
    ⟨Nat.le_refl _, fun _ lane hl top htop => ⟨lane, hl, rfl, htop⟩⟩
  rintro t t' hstep ⟨hle, hold⟩
  cases hstep with
  | finalize born follows nodup children fresh =>
    simp only [List.length_append, List.length_singleton] at hle ⊢
    exact ⟨by omega, fun heq => by omega⟩
  | @retire pre post fin del id a q =>
    refine ⟨hle, fun heq lane hl top htop => ?_⟩
    rcases @mem_exchange pre post ⟨id, a, q⟩ _ lane hl with rfl | hl
    · cases htop
    · exact hold heq lane hl top htop
  | @deliver pre post fin del id a b q before after settled =>
    refine ⟨hle, fun heq lane hl top htop => ?_⟩
    rcases @mem_exchange pre post ⟨id, a, b :: q⟩ _ lane hl with rfl | hl
    · exact hold heq ⟨id, a, b :: q⟩ (mem_middle pre post _) top htop
    · exact hold heq lane hl top htop
  | close =>
    exact ⟨hle, fun heq lane hl top htop => hold heq lane (mem_of_removed hl) top htop⟩

end Board

namespace Ledger

variable {l l' l'' : Ledger} {id : ChainId} {p : List Side}

/-- All live chains at and below a place wait for so high a rank. -/
def Floored (l : Ledger) (v : UInt64) (p : List Side) : Prop :=
  ∀ q c, p <+: q → l.root.chainAt q = some c → v ≤ c.nextRank

theorem Floored.below {q : List Side} (h : l.Floored v p) (hpq : p <+: q) : l.Floored v q :=
  fun r c hr hc => h r c (hpq.trans hr) hc

theorem Arranged.le_floor_iff (h : l.Arranged seen) {b : Branch} (hb : l.root.at? p = some b) :
    v ≤ b.floor ↔ l.Floored v p := by
  have hchain := Branch.chainAt_append hb
  rw [Branch.le_floor_iff fun q c hc => ?_]
  · constructor
    · rintro hv q c ⟨s, rfl⟩ hc
      exact hv s c (hchain s ▸ hc)
    · exact fun hv s c hc => hv (p ++ s) c (List.prefix_append p s) (hchain s ▸ hc)
  · obtain ⟨top, hrun⟩ := h.running (p ++ q) c (hchain q ▸ hc)
    exact hrun.live

/-! ### Operations that finalize nothing -/

/-- The lane of a live chain is among the others. -/
theorem Arranged.lane_mem (h : l.Arranged seen) {c : Chain} (hc : l.root.chainAt p = some c) :
    Lane.of c ∈ l.lanes := by
  refine List.mem_filterMap.2 ⟨c.id, h.live_mem p c hc, ?_⟩
  rw [chain?_live (h.numbered.path_eq hc ▸ hc)]
  rfl

/-- A lane with an anchor is that of a live chain. -/
theorem Arranged.live_of_lane (h : l.Arranged seen) {lane : Lane} (hl : lane ∈ l.lanes)
    {top : Block} (htop : top ∈ lane.anchor?) :
    ∃ c, l.root.chainAt lane.chain.path = some c ∧ c.nextRank = top.rank.next := by
  obtain ⟨a, ha, hlane⟩ := List.mem_filterMap.1 hl
  obtain ⟨c, hc, rfl⟩ := Option.map_eq_some_iff.1 hlane
  obtain ⟨hpos, -⟩ := h.mem_order a ha
  obtain rfl := h.chain?_id hpos hc
  rcases (h.chain?_iff hpos).1 hc with hlive | ⟨hretired, -⟩
  · obtain ⟨t, hrun⟩ := h.running _ c hlive
    rw [Lane.of_running hrun, Option.mem_some_iff] at htop
    exact ⟨c, hlive, htop ▸ hrun.nextRank⟩
  · simp [Lane.of, (h.halted c hretired).1] at htop

/-- Where nothing is finalized, no live chain is new, and none waits for another rank. -/
theorem Floored.of_steps (h : l.Arranged seen) (h' : l'.Arranged seen)
    {fin del del' : List (ChainId × Block)}
    (hsteps : Board.Steps seen ⟨l.lanes, fin, del⟩ ⟨l'.lanes, fin, del'⟩)
    (hv : l.Floored v p) : l'.Floored v p := by
  intro q c hq hc
  obtain ⟨top, hrun⟩ := h'.running q c hc
  have hpath := h'.numbered.path_eq hc
  have hmem := h'.lane_mem hc
  rw [Lane.of_running hrun] at hmem
  obtain ⟨old, hold, hid, htop⟩ := (Board.Steps.anchored hsteps).2 rfl _ hmem top rfl
  obtain ⟨d, hd, hnext⟩ := h.live_of_lane hold htop
  rw [hid, hpath] at hd
  rw [hrun.nextRank, ← hnext]
  exact hv q d hq hd

/-! ### Submissions -/

/-- Chains finalize the blocks of a log. Every live chain stays live, with the bounds that hold
below it, and the log keeps to those. -/
structure Rises (seen : List Block) (l l' : Ledger) (log : List (ChainId × Block)) : Prop where
  steps : ∀ fin del, Board.Steps seen ⟨l.lanes, fin, del⟩ ⟨l'.lanes, fin ++ log, del⟩
  chain : ∀ entry ∈ log, entry.2.chain = entry.1
  live : ∀ p c, l.root.chainAt p = some c → ∃ d, l'.root.chainAt p = some d
  floored : ∀ v p c, l.root.chainAt p = some c → l.Floored v p →
    l'.Floored v p ∧ ∀ entry ∈ log, p <+: entry.1.path → v ≤ entry.2.rank.current

theorem Rises.refl (seen : List Block) (l : Ledger) : Rises seen l l [] where
  steps fin _ := by rw [List.append_nil]
  chain _ h := nomatch h
  live _ c hc := ⟨c, hc⟩
  floored _ _ _ _ hv := ⟨hv, fun _ h => nomatch h⟩

theorem Rises.trans {log log' : List (ChainId × Block)} (h₁ : Rises seen l l' log)
    (h₂ : Rises seen l' l'' log') : Rises seen l l'' (log ++ log') where
  steps fin del := by
    rw [← List.append_assoc]
    exact (h₁.steps fin del).trans (h₂.steps _ del)
  chain entry he := by
    rcases List.mem_append.1 he with he | he
    · exact h₁.chain entry he
    · exact h₂.chain entry he
  live p c hc := by
    obtain ⟨d, hd⟩ := h₁.live p c hc
    exact h₂.live p d hd
  floored v p c hc hv := by
    obtain ⟨d, hd⟩ := h₁.live p c hc
    obtain ⟨hv', hlog⟩ := h₁.floored v p c hc hv
    obtain ⟨hv'', hlog'⟩ := h₂.floored v p d hd hv'
    refine ⟨hv'', fun entry he => ?_⟩
    rcases List.mem_append.1 he with he | he
    · exact hlog entry he
    · exact hlog' entry he

/-- Where there was a live chain, there still is one. -/
theorem Grows.live_keeps {d : Chain} {born : List Chain} (hg : Grows l l' id d born) {c : Chain}
    (hc : l.root.chainAt p = some c) : ∃ e, l'.root.chainAt p = some e := by
  have htaken : ∃ e, l'.root.bareAt p = some e := by
    by_cases hp : p = id.path
    · exact ⟨_, hp ▸ hg.top⟩
    · by_cases hx : ∃ x ∈ born, p = x.id.path
      · obtain ⟨x, hx, rfl⟩ := hx
        exact ⟨_, hg.newborn x hx⟩
      · rw [hg.rest p hp fun x hmem heq => hx ⟨x, hmem, heq⟩]
        exact ⟨_, Branch.bareAt_eq_some.2 ⟨c, hc, rfl⟩⟩
  obtain ⟨_, hbare⟩ := htaken
  obtain ⟨e, he, -⟩ := Branch.bareAt_eq_some.1 hbare
  exact ⟨e, he⟩

/-- A bound that the changed chain and the new ones keep to holds at every place above them. -/
theorem Grows.floored {d : Chain} {born : List Chain} (h : l.Arranged seen)
    (hg : Grows l l' id d born) (hnew : Newborn seen l born)
    (hplace : ∀ x ∈ born, ∃ side, x.id.path = id.path ++ [side]) {c : Chain}
    (hc : l.root.chainAt p = some c) (hv : l.Floored v p)
    (hbelow : p <+: id.path → ∀ x ∈ d :: born, v ≤ x.nextRank) : l'.Floored v p := by
  intro q e hq he
  have hsame : ∀ {x : Chain}, e.bare = x.bare → e.nextRank = x.nextRank :=
    fun heq => (congrArg Chain.nextRank heq :)
  rcases hg.live_cases he with ⟨rfl, heq⟩ | ⟨x, hx, rfl, heq⟩ | ⟨e₀, he₀, heq⟩
  · rw [hsame heq]
    exact hbelow hq d (List.mem_cons_self ..)
  · rw [hsame heq]
    obtain ⟨side, hpath⟩ := hplace x hx
    rw [hpath, List.prefix_concat_iff] at hq
    rcases hq with rfl | hq
    · -- the place of a new chain was free
      have hcpath := h.numbered.path_eq hc
      exact absurd (hcpath.trans hpath.symm) (hnew.path_ne h (h.live_mem _ c hc) x hx)
    · exact hbelow hq x (List.mem_cons_of_mem _ hx)
  · rw [hsame heq]
    exact hv q e₀ hq he₀

/-- A chain that lets a block in waits for the rank that its last finalized block asks for, and new
chains for the one that their seed asks for. -/
theorem Arranged.enter_rises {rules : Rules} {b b' : Branch} {r : Roster} {block top : Block}
    {a : Chain.Applied} (h : l.Arranged seen) (hpos : 0 < id.number)
    (hb : l.root.at? id.path = some b) (hrun : b.chain.Running seen top)
    (he : Chain.Entered seen b.chain top block a)
    (hs : Branch.Settled rules l.roster (b.withChain a.outcome.1) a.outcome.2 b' r) :
    Rises seen l (l.put id b' r) (a.outcome.2.map (id, ·)) := by
  have hc := chainAt_of_at? hb
  obtain ⟨hcid, -⟩ := h.live_id hpos hc
  obtain ⟨born, hgrows, hnew, hborn⟩ := h.enter_grows hpos hb he hs
  -- a new chain starts from one of the blocks, one step below the chain
  have hseed : ∀ x ∈ born, (∃ seed ∈ a.outcome.2, x.nextRank = seed.rank.next) ∧
      ∃ side, x.id.path = id.path ++ [side] := by
    intro x hx
    rcases hborn with rfl | ⟨seed, left, right, graph, cursor, before, after, hblocks, -, rfl,
      hleft, hright⟩
    · cases hx
    · have hmem : seed ∈ a.outcome.2 := by rw [hblocks]; simp
      rcases List.mem_cons.1 hx with rfl | hx
      · exact ⟨⟨seed, hmem, rfl⟩, .left, ChainId.child?_path hpos hleft⟩
      · rw [List.mem_singleton.1 hx]
        exact ⟨⟨seed, hmem, rfl⟩, .right, ChainId.child?_path hpos hright⟩
  refine
    { steps := fun fin del => (h.enter hpos hb hrun he hs fin del).2
      chain := fun entry hentry => ?_, live := fun p c hlive => hgrows.live_keeps hlive
      floored := fun v p c hlive hv => ?_ }
  · obtain ⟨x, hx, rfl⟩ := List.mem_map.1 hentry
    exact (he.links.admitted x hx).chain.trans hcid
  · have habove : p <+: id.path → (∀ x ∈ a.outcome.2, v ≤ x.rank.current) ∧
        ∀ x ∈ top :: a.outcome.2, v ≤ x.rank.next := fun hp =>
      he.links.above (hrun.nextRank ▸ hv id.path b.chain hp hc)
    refine ⟨hgrows.floored h hnew (fun x hx => (hseed x hx).2) hlive hv fun hp x hx => ?_,
      fun entry hentry hp => ?_⟩
    · rcases List.mem_cons.1 hx with rfl | hx
      · rw [(hrun.enter rules.config he).nextRank]
        exact (habove hp).2 _ List.getLastD_mem_cons
      · obtain ⟨⟨seed, hmem, hrank⟩, -⟩ := hseed x hx
        rw [hrank]
        exact (habove hp).2 seed (List.mem_cons_of_mem _ hmem)
    · obtain ⟨x, hx, rfl⟩ := List.mem_map.1 hentry
      exact (habove hp).1 x hx

theorem submitBlock_rises (rules : Rules) {block : Block} (h : l.Arranged seen)
    (hseen : block ∈ seen) : ∃ log, Rises seen l (l.submitBlock rules block).1 log := by
  refine submitBlock_closed (R := fun l l' => ∃ log, Rises seen l l' log) rules
    (fun l => ⟨[], .refl seen l⟩) (fun ⟨log, h₁⟩ ⟨log', h₂⟩ => ⟨log ++ log', h₁.trans h₂⟩)
    (fun {l id b backlog buffered} h hpos hb hsound => ?_) (fun {l id b x} h hpos hb hx => ?_)
    h hseen
  · obtain ⟨top, hrun⟩ := h.running _ _ (chainAt_of_at? hb)
    obtain ⟨harranged, hlanes⟩ := h.change hpos hb (hrun.rest hsound) rfl
    refine ⟨[], fun fin _ => by rw [List.append_nil, hlanes], fun _ he => (nomatch he),
      fun p c hc => ?_, fun v p c hc hv => ⟨?_, fun _ he => nomatch he⟩⟩
    · have hat := Branch.chainAt_replace_withChain (c := { b.chain with backlog, buffered }) hb p
      split at hat
      · exact ⟨_, hat⟩
      · exact ⟨c, hat.trans hc⟩
    · exact hv.of_steps h harranged
        (show Board.Steps seen ⟨l.lanes, [], []⟩ ⟨_, [], []⟩ by rw [hlanes])
  · obtain ⟨hcid, -⟩ := h.live_id hpos (chainAt_of_at? hb)
    obtain ⟨top, hrun⟩ := h.running _ _ (chainAt_of_at? hb)
    rcases b.apply_eq rules l.roster hrun (hcid ▸ hx) with
      heq | ⟨a, b', r, events, he, heq, hsettle, -⟩
    · rw [heq]
      dsimp only
      rw [put_self hb]
      exact ⟨[], .refl seen l⟩
    · have hs := Branch.settleAll_settled rules a.outcome.2 l.roster (b.withChain a.outcome.1)
      rw [hsettle] at hs
      rw [heq]
      exact ⟨_, h.enter_rises hpos hb hrun he hs⟩

/-- The bar is the least rank that any live chain waits for. -/
theorem Arranged.le_confirmBar_iff (h : l.Arranged seen) :
    v ≤ l.confirmBar ↔ l.Floored v [] := by
  have hroot := h.le_floor_iff (v := v) (Branch.at?_nil l.root)
  constructor
  · intro hv
    have hle : l.confirmBar ≤ (source l.root).floor :=
      confirmBar_le (List.mem_map_of_mem (mem_registeredBranches_root h))
    exact hroot.1 (UInt64.le_trans hv hle)
  · intro hv
    refine le_confirmBar fun s hs => ?_
    obtain ⟨b, hb, rfl⟩ := List.mem_map.1 hs
    obtain ⟨a, -, hb⟩ := List.mem_filterMap.1 hb
    show v ≤ b.floor
    rcases branch?_cases hb with hlive | ⟨-, c, hc, -, rfl⟩
    · exact (h.le_floor_iff hlive).2 (hv.below List.nil_prefix)
    · -- a retired chain holds nothing up
      simp only [Branch.floor, (h.halted c hc).1, if_true]
      exact le_topWord v

end Ledger

namespace Run

variable {rules : Rules} {before later : List Operation} {r r' r₀ : Run} {id : ChainId}

/-- What one operation does to the bounds on live chains, and the log of what is finalized. -/
structure Rises (r r' : Run) (log : List (ChainId × Block)) : Prop where
  account : r'.finalizedBlocks.Perm (r.finalizedBlocks ++ log.map (·.2))
  chain : ∀ entry ∈ log, entry.2.chain = entry.1
  floored : ∀ v p c, r.ledger.root.chainAt p = some c → r.ledger.Floored v p →
    r'.ledger.Floored v p ∧ ∀ entry ∈ log, p <+: entry.1.path → v ≤ entry.2.rank.current

/-- An operation that finalizes nothing. -/
theorem Rises.quiet {l : Ledger} {events : List Event} {passes : List Ledger.Pass}
    {proposals : List Proposal} (h : r.ledger.Arranged seen) (h' : l.Arranged seen)
    {del del' : List (ChainId × Block)}
    (hsteps : Board.Steps seen ⟨r.ledger.lanes, [], del⟩ ⟨l.lanes, [], del'⟩)
    (haccount : (⟨l, events, passes, proposals⟩ : Run).finalizedBlocks.Perm
      (r.finalizedBlocks ++ [])) : Rises r ⟨l, events, passes, proposals⟩ [] where
  account := haccount
  chain _ he := nomatch he
  floored _ _ _ _ hv := ⟨hv.of_steps h h' hsteps, fun _ he => nomatch he⟩

theorem Tracks.quiet_rises {l : Ledger} (h : r.Tracks seen rules)
    (hp : Ledger.Progress seen r.ledger l []) : Rises r { r with ledger := l } [] := by
  obtain ⟨log, hnil, hsteps⟩ := hp.steps
  obtain rfl : log = [] := List.map_eq_nil_iff.1 hnil.symm
  exact .quiet h.arranged hp.arranged (hsteps [] []) (h.account_quiet hp)

theorem Tracks.passes_rises {l : Ledger} {passes : List Ledger.Pass} {events : List Event}
    (h : r.Tracks seen rules)
    (hd : Ledger.Delivers seen r.ledger l (passes.flatMap (·.delivered))) :
    Rises r { r with ledger := l, events, passes := r.passes ++ passes } [] :=
  .quiet h.arranged hd.arranged (hd.steps [] []) (h.account_passes hd)

theorem Tracks.rises (h : r.Tracks seen rules) (op : Operation)
    (hseen : ∀ block ∈ op.block?, block ∈ seen) : ∃ log, Rises r (r.perform rules op) log := by
  cases op with
  | submitBlock block =>
    obtain ⟨log, hrises⟩ := Ledger.submitBlock_rises rules h.arranged (hseen block rfl)
    refine ⟨log, ?_, hrises.chain, hrises.floored⟩
    have haccount := @Tracks.account seen rules r _ log [] h fun fin del => by
      rw [List.map_nil, List.append_nil del]
      exact hrises.steps fin del
    rw [List.append_nil] at haccount
    exact haccount
  | submitContent item => exact ⟨[], h.quiet_rises (Ledger.submitContent_progress h.arranged item)⟩
  | invalidate x => exact ⟨[], h.quiet_rises (Ledger.invalidate_progress h.arranged x)⟩
  | propose chain maxSize =>
    have hstay : Board.Steps seen ⟨r.ledger.lanes, [], []⟩ ⟨r.ledger.lanes, [], []⟩ := .refl
    refine ⟨[], ?_⟩
    cases hp : r.ledger.proposal rules chain maxSize with
    | ok p =>
      rw [perform_propose_ok hp]
      exact .quiet h.arranged h.arranged hstay (by rw [List.append_nil]; exact .refl _)
    | error e =>
      rw [perform_propose_error hp]
      exact .quiet h.arranged h.arranged hstay (by rw [List.append_nil])
  | discardPending chain block =>
    exact ⟨[], h.quiet_rises (Ledger.discardPending_progress h.arranged chain block)⟩
  | tick =>
    obtain ⟨hd, -⟩ := Ledger.tick_delivers rules h.arranged
    -- one pass is a list of one
    exact ⟨[], @Tracks.passes_rises seen rules r _ [r.ledger.tick rules]
      (r.events ++ (r.ledger.tick rules).events) h (by simpa using hd)⟩
  | settle =>
    obtain ⟨hd, -⟩ := Ledger.settle_delivers rules h.arranged
    exact ⟨[], h.passes_rises hd⟩

/-- What a chain that is live at some point of a run finalizes from there on, with all that is
finalized below it, until the chain is merged. -/
def finalizedUnder (rules : Rules) (id : ChainId) : Run → List Operation → List Block
  | _, [] => []
  | r, op :: later =>
    match r.ledger.live? id with
    | none => []
    | some _ =>
      (finalizedSince r (r.perform rules op)).filter (fun x => id.Above x.chain) ++
        finalizedUnder rules id (r.perform rules op) later

/-- What is finalized under a live chain keeps to the bounds that hold there. -/
theorem Tracks.finalizedUnder_ranked (later : List Operation) : ∀ {r : Run},
    r.Tracks seen rules → blocksOf later ⊆ seen → r.ledger.Floored v id.path →
    ∀ x ∈ finalizedUnder rules id r later, v ≤ x.rank.current := by
  induction later with
  | nil => exact fun _ _ _ _ hx => nomatch hx
  | cons op later ih =>
    intro r h hseen hv x hx
    obtain ⟨hop, hlater⟩ := blocksOf_cons hseen
    unfold finalizedUnder at hx
    split at hx
    · cases hx
    · rename_i b hb
      obtain ⟨log, hrises⟩ := h.rises op hop
      obtain ⟨hv', hlog⟩ := hrises.floored v id.path b.chain (Ledger.chainAt_of_at? hb) hv
      rcases List.mem_append.1 hx with hx | hx
      · obtain ⟨hx, habove⟩ := List.mem_filter.1 hx
        obtain ⟨entry, hentry, rfl⟩ :=
          List.mem_map.1 ((finalizedSince_perm hrises.account).subset hx)
        refine hlog entry hentry ?_
        rw [← hrises.chain entry hentry]
        exact of_decide_eq_true habove
      · exact ih (h.perform op hop) hlater hv' x hx

/-- The root is always live, so the bounds that hold for it stay. -/
theorem Tracks.floored_root (later : List Operation) : ∀ {r : Run}, r.Tracks seen rules →
    blocksOf later ⊆ seen → r.ledger.Floored v [] →
    (later.foldl (Run.perform rules) r).ledger.Floored v [] := by
  induction later with
  | nil => exact fun _ _ hv => hv
  | cons op later ih =>
    intro r h hseen hv
    obtain ⟨hop, hlater⟩ := blocksOf_cons hseen
    obtain ⟨log, hrises⟩ := h.rises op hop
    exact ih (h.perform op hop) hlater (hrises.floored v [] _ (Branch.chainAt_nil _) hv).1

/-- A live chain and the chains below it never finalize a block that ranks below the floor which the
chain shows, until it is merged; and the bar never sinks. -/
theorem floor_sound {b : Branch} (h₀ : Run.after rules before = .ok r₀)
    (hb : r₀.ledger.live? id = some b) (h : Run.after rules (before ++ later) = .ok r) :
    (∀ x ∈ finalizedUnder rules id r₀ later, b.floor ≤ x.rank.current) ∧
      r₀.ledger.confirmBar ≤ r.ledger.confirmBar := by
  have hseen : blocksOf before ⊆ blocksOf (before ++ later) ∧
      blocksOf later ⊆ blocksOf (before ++ later) := by
    rw [blocksOf_append]
    exact ⟨List.subset_append_left _ _, List.subset_append_right _ _⟩
  have ht₀ := tracks h₀ hseen.1
  have ht := tracks h (List.Subset.refl _)
  constructor
  · exact ht₀.finalizedUnder_ranked later hseen.2
      ((ht₀.arranged.le_floor_iff hb).1 (UInt64.le_refl _))
  · rw [ht.arranged.le_confirmBar_iff]
    have hroot := ht₀.floored_root later hseen.2
      (ht₀.arranged.le_confirmBar_iff.1 (UInt64.le_refl _))
    obtain ⟨l, hl, rfl⟩ := after_eq h₀
    rw [after_of_create hl, List.foldl_append, Except.ok.injEq] at h
    exact h ▸ hroot

/-- In the sample, the left child of the root is split off with a floor of two, and finalizes a
block of rank two before it is merged. -/
theorem sample_floor_sound : ∃ r₀ b r, Run.after sampleRules (sampleOps.take 6) = .ok r₀ ∧
    r₀.ledger.live? (.ofWord 2) = some b ∧
    Run.after sampleRules (sampleOps.take 6 ++ sampleOps.drop 6) = .ok r ∧
    b.floor = 2 ∧ r₀.ledger.confirmBar = 2 ∧ r.ledger.confirmBar = 3 ∧
    (finalizedUnder sampleRules (.ofWord 2) r₀ (sampleOps.drop 6)).map (·.id) = [⟨3⟩] ∧
    (∀ x ∈ finalizedUnder sampleRules (.ofWord 2) r₀ (sampleOps.drop 6),
      b.floor ≤ x.rank.current) ∧
    r₀.ledger.confirmBar ≤ r.ledger.confirmBar := by
  have hall : (Run.after sampleRules (sampleOps.take 6)).toOption.any (fun r₀ =>
      (Run.after sampleRules (sampleOps.take 6 ++ sampleOps.drop 6)).toOption.any fun r =>
        (r₀.ledger.live? (.ofWord 2)).any (·.floor = 2) ∧ r₀.ledger.confirmBar = 2 ∧
          r.ledger.confirmBar = 3 ∧
          (finalizedUnder sampleRules (.ofWord 2) r₀ (sampleOps.drop 6)).map (·.id) = [⟨3⟩]) =
      true := by decide +kernel
  obtain ⟨r₀, hr₀, hlater⟩ := exists_after_of_any hall
  obtain ⟨r, hr, hchecks⟩ := exists_after_of_any hlater
  obtain ⟨hlive, hbar₀, hbar, hids⟩ := of_decide_eq_true hchecks
  obtain ⟨b, hb, hfloor⟩ := (Option.any_eq_true _ _).1 hlive
  exact ⟨r₀, b, r, hr₀, hb, hr, of_decide_eq_true hfloor, hbar₀, hbar, hids,
    floor_sound hr₀ hb hr⟩

end Run

end ShardLedger
