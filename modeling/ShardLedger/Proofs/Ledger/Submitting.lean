import ShardLedger.Proofs.Ledger.Lanes

/-!
# Blocks and content come in

Submitting a block, giving up a waiting one, and storing and removing content keep a ledger
arranged. Only a submitted block does anything on the board: it may have chains finalize blocks, and
the events report exactly those.

- `Ledger.Progress`: what an operation that delivers nothing may do.
- `Ledger.submitBlock_progress`, `Ledger.discardPending_progress`,
  `Ledger.submitContent_progress`, `Ledger.invalidate_progress`.
-/

namespace ShardLedger

namespace Ledger

variable {seen : List Block} {l l' l'' : Ledger} {id : ChainId} {b : Branch}

/-- The ledger stays arranged, and on the board blocks are finalized as the events report it. -/
structure Progress (seen : List Block) (l l' : Ledger) (events : List Event) : Prop where
  arranged : l'.Arranged seen
  linearizer : l'.linearizer = l.linearizer
  steps : ∃ log : List (ChainId × Block),
    events.flatMap Event.finalizations = log.map (fun entry => (entry.1, entry.2.id)) ∧
    ∀ fin del, Board.Steps seen ⟨l.lanes, fin, del⟩ ⟨l'.lanes, fin ++ log, del⟩

theorem Progress.refl (h : l.Arranged seen) : Progress seen l l [] :=
  ⟨h, rfl, [], rfl, fun fin _ => by rw [List.append_nil]⟩

/-- An operation that reports nothing and leaves the lanes alone. -/
theorem Progress.quiet (h : l'.Arranged seen) (hlin : l'.linearizer = l.linearizer)
    (hlanes : l'.lanes = l.lanes) : Progress seen l l' [] :=
  ⟨h, hlin, [], rfl, fun fin _ => by rw [List.append_nil, hlanes]⟩

theorem Progress.trans {first later : List Event} (h₁ : Progress seen l l' first)
    (h₂ : Progress seen l' l'' later) : Progress seen l l'' (first ++ later) := by
  obtain ⟨log₁, hlog₁, hsteps₁⟩ := h₁.steps
  obtain ⟨log₂, hlog₂, hsteps₂⟩ := h₂.steps
  refine ⟨h₂.arranged, h₂.linearizer.trans h₁.linearizer, log₁ ++ log₂, ?_, fun fin del => ?_⟩
  · rw [List.flatMap_append, List.map_append, hlog₁, hlog₂]
  · rw [← List.append_assoc]
    exact (hsteps₁ fin del).trans (hsteps₂ _ del)

/-! ### Blocks -/

/-- One released block enters a live chain. -/
theorem apply_progress (rules : Rules) {block : Block} (h : l.Arranged seen) (hpos : 0 < id.number)
    (hb : l.root.at? id.path = some b) (hblock : Admitted seen id block) :
    let out := b.apply rules l.roster block
    Progress seen l (l.put id out.1 out.2.1) out.2.2 := by
  have hc := chainAt_of_at? hb
  obtain ⟨hcid, hid⟩ := h.live_id hpos hc
  obtain ⟨top, hrun⟩ := h.running _ _ hc
  rcases b.apply_eq rules l.roster hrun (hcid ▸ hblock) with
    heq | ⟨a, b', r, events, he, heq, hsettle, hevents⟩
  · rw [heq]
    dsimp only
    rw [put_self hb]
    exact .refl h
  · have hs := Branch.settleAll_settled rules a.outcome.2 l.roster (b.withChain a.outcome.1)
    rw [hsettle] at hs
    rw [heq]
    refine ⟨(h.enter hpos hb hrun he hs [] []).1, rfl, a.outcome.2.map (id, ·), ?_, fun fin del =>
      (h.enter hpos hb hrun he hs fin del).2⟩
    rw [hevents, List.map_map, hcid]
    rfl

/-- Released blocks enter a live chain in order. -/
theorem applyAll_progress (rules : Rules) : ∀ (blocks : List Block) {l : Ledger} {b : Branch},
    l.Arranged seen → 0 < id.number → l.root.at? id.path = some b →
    (∀ x ∈ blocks, Admitted seen id x) →
    let out := b.applyAll rules l.roster blocks
    Progress seen l (l.put id out.1 out.2.1) out.2.2.2
  | [], l, b, h, _, hb, _ => by
    show Progress seen l (l.put id b l.roster) []
    rw [put_self hb]
    exact .refl h
  | block :: rest, l, b, h, hpos, hb, hadmitted => by
    have hfirst := apply_progress rules h hpos hb
      (hadmitted block (List.mem_cons_self ..))
    have hrest := applyAll_progress rules rest hfirst.arranged hpos (at?_put hb)
      fun x hx => hadmitted x (List.mem_cons_of_mem _ hx)
    have hall := hfirst.trans hrest
    rw [put_put] at hall
    exact hall

/-! ### Finding the chain -/

theorem branch?_cases (hb : l.branch? id = some b) :
    l.root.at? id.path = some b ∨
      (l.root.at? id.path = none ∧ ∃ c ∈ l.retired, c.id = id ∧ b = .leaf c) := by
  unfold branch? live? at hb
  split at hb
  · rename_i sub hsub
    rw [Option.some.injEq] at hb
    exact Or.inl (hb ▸ hsub)
  · rename_i hnone
    obtain ⟨c, hc, rfl⟩ := Option.map_eq_some_iff.1 hb
    exact Or.inr ⟨hnone, c, List.mem_of_find?_eq_some hc, by simpa using List.find?_some hc, rfl⟩

/-- A live chain is found by its number. -/
theorem branch?_live (hb : l.root.at? id.path = some b) : l.branch? id = some b := by
  unfold branch? live?
  rw [hb]

theorem replace_live {b' : Branch} (hb : l.root.at? id.path = some b) :
    l.replace id b' = l.put id b' l.roster := by
  unfold replace live?
  rw [hb]
  rfl

theorem replace_retired {c d : Chain} (h : l.Arranged seen) (hnone : l.root.at? id.path = none)
    (hc : c ∈ l.retired) (hid : c.id = id) (f : Chain → Chain) (hd : d = f c) :
    l.replace id (.leaf d) =
      { l with retired := l.retired.map fun e => if e.id = id then f e else e } := by
  unfold replace live?
  rw [hnone]
  have hmap : (l.retired.map fun e => if e.id = id then (Branch.leaf d).chain else e) =
      l.retired.map fun e => if e.id = id then f e else e := by
    refine List.map_congr_left fun e he => ?_
    -- numbers of retired chains are not shared, so only that one is exchanged
    by_cases heq : e.id = id
    · have : e = c := List.inj_on_of_nodup_map h.retired_nodup he hc (heq.trans hid.symm)
      rw [if_pos heq, if_pos heq, this, ← hd]
      rfl
    · rw [if_neg heq, if_neg heq]
  dsimp only
  rw [hmap]

/-- Giving up a waiting block is a change to the one chain. -/
theorem discardPending_eq (l : Ledger) (chain : ChainId) (block : BlockId) :
    (l.discardPending chain block).1 = l.update chain fun c => (c.discardPending block).1 := by
  unfold discardPending update
  cases l.branch? chain with
  | none => rfl
  | some b => rfl

/-- Removing an item is a change to one chain that stores it, if there is one. -/
theorem invalidate_cases (l : Ledger) (x : ContentId) :
    ((l.invalidate x).1 = l ∧
      ∀ a ∈ l.order, ∀ b, l.branch? a = some b → ¬b.chain.content.contains x = true) ∨
      ∃ a ∈ l.order, ∃ b, l.branch? a = some b ∧ b.chain.content.contains x = true ∧
        (l.invalidate x).1 = l.update a fun c => { c with content := (c.content.delete x).1 } := by
  unfold invalidate
  dsimp only
  split
  · rename_i hnone
    refine Or.inl ⟨rfl, fun a ha b hb hx => ?_⟩
    have hmissed := List.find?_eq_none.1 hnone a ha
    rw [hb] at hmissed
    exact hmissed hx
  · rename_i a hsome
    have hfound := List.find?_some hsome
    split at hfound
    · rename_i b hb
      exact Or.inr ⟨a, List.mem_of_find?_eq_some hsome, b, hb, hfound, rfl⟩
    · cases hfound

/-- The place of a live chain tells its number, which may differ from the one it was found by: zero
leads to the root. -/
theorem path_of_live (h : l.Arranged seen) (hb : l.root.at? id.path = some b) :
    b.chain.id.path = id.path ∧ 0 < b.chain.id.number := by
  have hc := chainAt_of_at? hb
  exact ⟨h.numbered.path_eq hc, h.numbered.pos Nat.one_pos hc⟩

/-- A block is submitted to a live chain: what waits there changes, and some blocks enter. -/
theorem submit_eq (rules : Rules) (roster : Roster) {block : Block} (h : b.chain.Sound seen)
    (hseen : block ∈ seen) : ∃ backlog buffered blocks outcome,
    ({ b.chain with backlog, buffered } : Chain).Sound seen ∧
      (∀ x ∈ blocks, Admitted seen b.chain.id x) ∧
      let out := (b.withChain { b.chain with backlog, buffered }).applyAll rules roster blocks
      b.submit rules roster block = ⟨out.1, out.2.1, outcome, out.2.2.2⟩ := by
  have hself : b.withChain b.chain = b := by cases b <;> rfl
  have hsubmitted := b.submitted rules roster block
  generalize b.submit rules roster block = s at hsubmitted ⊢
  cases hsubmitted with
  | @screened reason =>
    refine ⟨b.chain.backlog, b.chain.buffered, [], .rejected reason, h,
      fun _ hx => (nomatch hx), ?_⟩
    show _ = (⟨b.withChain b.chain, roster, .rejected reason, []⟩ : Branch.Submission)
    rw [hself]
  | @settled parent c outcome hscreen hreceive =>
    obtain ⟨hadmitted, -⟩ := Chain.admitted_of_screen hseen hscreen
    obtain ⟨backlog, buffered, heq, hsound, -⟩ := Chain.receive_spec parent h hadmitted
    rw [hreceive] at heq
    rw [show c = _ from heq]
    exact ⟨backlog, buffered, [], _, hsound, fun _ hx => (nomatch hx), rfl⟩
  | @entered parent c xs hscreen hreceive =>
    obtain ⟨hadmitted, -⟩ := Chain.admitted_of_screen hseen hscreen
    obtain ⟨backlog, buffered, heq, hsound, hreleased⟩ := Chain.receive_spec parent h hadmitted
    rw [hreceive] at heq hreleased
    rw [show c = _ from heq]
    exact ⟨backlog, buffered, xs, _, hsound, hreleased xs rfl, rfl⟩

/-- A retired chain takes no blocks. -/
theorem submit_retired (rules : Rules) (roster : Roster) (block : Block) {c : Chain}
    (h : c.retired = true) : ∃ outcome,
      (Branch.leaf c).submit rules roster block = ⟨.leaf c, roster, outcome, []⟩ := by
  cases hscreen : Chain.screen rules (Branch.leaf c).chain.id block with
  | error reason =>
    refine ⟨.rejected reason, ?_⟩
    simp only [Branch.submit, hscreen]
  | ok parent => exact ⟨_, Branch.submit_done hscreen (Chain.receive_retired h block parent)⟩

/-- A block is submitted to the chain that it names. Nothing happens, or what waits on a live chain
changes and some blocks enter there. -/
theorem submitBlock_eq (rules : Rules) {block : Block} (h : l.Arranged seen)
    (hseen : block ∈ seen) :
    ((l.submitBlock rules block).1 = l ∧ (l.submitBlock rules block).2.2 = []) ∨
      ∃ id b backlog buffered blocks, 0 < id.number ∧ l.root.at? id.path = some b ∧
        ({ b.chain with backlog, buffered } : Chain).Sound seen ∧
        (∀ x ∈ blocks, Admitted seen id x) ∧
        let out := (b.withChain { b.chain with backlog, buffered }).applyAll rules l.roster blocks
        (l.submitBlock rules block).1 = l.put id out.1 out.2.1 ∧
          (l.submitBlock rules block).2.2 = out.2.2.2 := by
  unfold submitBlock
  split
  · exact Or.inl ⟨rfl, rfl⟩
  rename_i hlookup
  have hpos : 0 < block.chain.number := by
    unfold lookup? at hlookup
    split at hlookup
    · rename_i hmem
      exact (h.mem_order _ (List.mem_append.2 hmem)).1
    · cases hlookup
  unfold submitTo
  split
  · exact Or.inl ⟨rfl, rfl⟩
  rename_i b hb
  dsimp only
  rcases branch?_cases hb with hlive | ⟨hnone, c, hc, hid, rfl⟩
  · have hc := chainAt_of_at? hlive
    obtain ⟨top, hrun⟩ := h.running _ _ hc
    obtain ⟨backlog, buffered, blocks, outcome, hsound, hadmitted, heq⟩ :=
      submit_eq rules l.roster hrun.sound hseen
    rw [(h.live_id hpos hc).1] at hadmitted
    refine Or.inr ⟨block.chain, b, backlog, buffered, blocks, hpos, hlive, hsound, hadmitted, ?_⟩
    rw [heq]
    exact ⟨@replace_live { l with roster := _ } block.chain b _ hlive, rfl⟩
  · refine Or.inl ?_
    obtain ⟨outcome, heq⟩ := submit_retired rules l.roster block (h.halted c hc).1
    rw [heq]
    have hsub := replace_retired (d := c) h hnone hc hid (fun e => e) rfl
    have hkeep : (l.retired.map fun e => if e.id = block.chain then e else e) = l.retired := by
      simp only [ite_self, List.map_id']
    rw [hkeep] at hsub
    exact ⟨hsub, rfl⟩

/-- What holds of every part of a submission holds of the whole: what waits on a live chain changes,
and then blocks enter there one by one. -/
theorem submitBlock_closed {R : Ledger → Ledger → Prop} (rules : Rules) {block : Block}
    (hrefl : ∀ l, R l l) (htrans : ∀ {l l' l''}, R l l' → R l' l'' → R l l'')
    (hrest : ∀ {l : Ledger} {id : ChainId} {b : Branch} {backlog : Backlog}
      {buffered : BlockMap Block}, l.Arranged seen → 0 < id.number →
      l.root.at? id.path = some b → ({ b.chain with backlog, buffered } : Chain).Sound seen →
      R l (l.put id (b.withChain { b.chain with backlog, buffered }) l.roster))
    (henter : ∀ {l : Ledger} {id : ChainId} {b : Branch} {x : Block}, l.Arranged seen →
      0 < id.number → l.root.at? id.path = some b → Admitted seen id x →
      R l (l.put id (b.apply rules l.roster x).1 (b.apply rules l.roster x).2.1))
    (h : l.Arranged seen) (hseen : block ∈ seen) : R l (l.submitBlock rules block).1 := by
  rcases submitBlock_eq rules h hseen with ⟨hsame, -⟩ |
    ⟨id, b, backlog, buffered, blocks, hpos, hb, hsound, hadmitted, hledger, -⟩
  · rw [hsame]
    exact hrefl l
  · have hall : ∀ (blocks : List Block) {l : Ledger} {b : Branch}, l.Arranged seen →
        l.root.at? id.path = some b → (∀ x ∈ blocks, Admitted seen id x) →
        R l (l.put id (b.applyAll rules l.roster blocks).1
          (b.applyAll rules l.roster blocks).2.1) := by
      intro blocks
      induction blocks with
      | nil =>
        intro l b _ hb _
        show R l (l.put id b l.roster)
        rw [put_self hb]
        exact hrefl l
      | cons x rest ih =>
        intro l b h hb hadmitted
        have hx := hadmitted x (List.mem_cons_self ..)
        have hlater := ih (apply_progress rules h hpos hb hx).arranged (at?_put hb)
          fun y hy => hadmitted y (List.mem_cons_of_mem _ hy)
        have hboth := htrans (henter h hpos hb hx) hlater
        rw [put_put] at hboth
        exact hboth
    obtain ⟨top, hrun⟩ := h.running _ _ (chainAt_of_at? hb)
    obtain ⟨harranged, -⟩ := h.change hpos hb (hrun.rest hsound) rfl
    have hboth := htrans (hrest h hpos hb hsound) (hall blocks harranged (at?_put hb) hadmitted)
    rw [put_put] at hboth
    rw [hledger]
    exact hboth

theorem submitBlock_progress (rules : Rules) {block : Block} (h : l.Arranged seen)
    (hseen : block ∈ seen) :
    Progress seen l (l.submitBlock rules block).1 (l.submitBlock rules block).2.2 := by
  rcases submitBlock_eq rules h hseen with ⟨hsame, hevents⟩ |
    ⟨id, b, backlog, buffered, blocks, hpos, hb, hsound, hadmitted, hledger, hevents⟩
  · rw [hsame, hevents]
    exact .refl h
  · rw [hledger, hevents]
    -- what waits changes first, and then the blocks enter
    obtain ⟨top, hrun⟩ := h.running _ _ (chainAt_of_at? hb)
    obtain ⟨harranged, hlanes⟩ := h.change hpos hb (hrun.rest hsound) rfl
    have hfirst : Progress seen l
        (l.put id (b.withChain { b.chain with backlog, buffered }) l.roster) [] :=
      .quiet harranged rfl hlanes
    have hall := hfirst.trans (applyAll_progress rules blocks harranged hpos (at?_put hb) hadmitted)
    rw [put_put] at hall
    exact hall

/-! ### What leaves the board alone -/

/-- A change to what waits on a chain, blocks or content. -/
structure Quiet (seen : List Block) (f : Chain → Chain) : Prop where
  rest : ∀ c, ∃ backlog buffered content, f c = { c with backlog, buffered, content }
  sound : ∀ c, c.Sound seen → (f c).Sound seen

theorem Quiet.running {f : Chain → Chain} (hf : Quiet seen f) {c : Chain} {top : Block}
    (h : c.Running seen top) : (f c).Running seen top := by
  have hsound := hf.sound c h.sound
  obtain ⟨backlog, buffered, content, heq⟩ := hf.rest c
  rw [heq] at hsound ⊢
  exact ⟨hsound, h.live, h.anchor, h.nextRank⟩

theorem Quiet.lane {f : Chain → Chain} (hf : Quiet seen f) (c : Chain) :
    Lane.of (f c) = Lane.of c := by
  obtain ⟨backlog, buffered, content, heq⟩ := hf.rest c
  rw [heq]
  rfl

theorem find?_map_same {f : Chain → Chain} (hf : ∀ c, (f c).id = c.id) (id : ChainId) :
    ∀ cs : List Chain, (cs.map f).find? (·.id = id) = (cs.find? (·.id = id)).map f
  | [] => rfl
  | c :: cs => by
    rw [List.map_cons, List.find?_cons, List.find?_cons, hf]
    split
    · rfl
    · exact find?_map_same hf id cs

/-- Changes to the merged chains that keep what they are. -/
theorem Arranged.mapRetired {f : Chain → Chain} (h : l.Arranged seen)
    (hf : ∀ c, (f c).id = c.id ∧ (f c).retired = c.retired) :
    ({ l with retired := l.retired.map f } : Ledger).Arranged seen := by
  have hids : (l.retired.map f).map (·.id) = l.retired.map (·.id) := by
    rw [List.map_map]
    exact List.map_congr_left fun c _ => (hf c).1
  refine
    { numbered := h.numbered, running := h.running, halted := fun e he => ?_
      retired_nodup := hids ▸ h.retired_nodup, order_nodup := h.order_nodup
      mem_order := fun a ha => ?_, live_mem := h.live_mem
      retired_mem := fun e he => ?_, occupied := h.occupied
      leaving := hids ▸ h.leaving, root_registered := h.root_registered }
  · obtain ⟨c, hc, rfl⟩ := List.mem_map.1 he
    rw [(hf c).1, (hf c).2]
    exact h.halted c hc
  · obtain ⟨hpos, c, hc⟩ := h.mem_order a ha
    refine ⟨hpos, ?_⟩
    rw [chain?_eq] at hc ⊢
    dsimp only
    rw [find?_map_same fun c => (hf c).1]
    split
    · exact ⟨_, rfl⟩
    · rename_i hnone
      rw [hnone] at hc
      dsimp only at hc
      exact ⟨f c, by rw [hc]; rfl⟩
  · obtain ⟨c, hc, rfl⟩ := List.mem_map.1 he
    rw [(hf c).1]
    exact h.retired_mem c hc

/-- What waits on one chain, live or retired, changes. -/
theorem replace_progress {f : Chain → Chain} (hf : Quiet seen f) (h : l.Arranged seen)
    (hb : l.branch? id = some b) :
    Progress seen l (l.replace id (b.withChain (f b.chain))) [] := by
  rcases branch?_cases hb with hlive | ⟨hnone, c, hc, hid, rfl⟩
  · obtain ⟨hpath, hpos⟩ := path_of_live h hlive
    obtain ⟨top, hrun⟩ := h.running _ _ (chainAt_of_at? hlive)
    rw [replace_live hlive]
    have hput : l.put id (b.withChain (f b.chain)) l.roster =
        l.put b.chain.id (b.withChain (f b.chain)) l.roster := by
      unfold put
      rw [hpath]
    rw [hput]
    obtain ⟨harranged, hlanes⟩ := h.change hpos (hpath ▸ hlive) (hf.running hrun) (hf.lane _)
    exact .quiet harranged rfl hlanes
  · have hsame : ∀ e : Chain, (f e).id = e.id ∧ (f e).retired = e.retired := fun e => by
      obtain ⟨backlog, buffered, content, heq⟩ := hf.rest e
      rw [heq]
      exact ⟨rfl, rfl⟩
    have hone : ∀ e : Chain, (if e.id = id then f e else e).id = e.id ∧
        (if e.id = id then f e else e).retired = e.retired := fun e => by
      split
      · exact hsame e
      · exact ⟨rfl, rfl⟩
    show Progress seen l (l.replace id (.leaf (f c))) []
    rw [replace_retired h hnone hc hid f rfl]
    refine .quiet (h.mapRetired hone) rfl ?_
    refine List.filterMap_congr fun a _ => ?_
    show laneAt _ a = laneAt l a
    unfold laneAt
    rw [chain?_eq, chain?_eq]
    dsimp only
    rw [find?_map_same fun e => (hone e).1]
    split
    · rfl
    · rw [Option.map_map]
      congr 1
      refine funext fun e => ?_
      show Lane.of (if e.id = id then f e else e) = _
      split
      · exact hf.lane e
      · rfl

/-- Content may change in any way. -/
theorem quiet_content (g : Chain → ContentStore) :
    Quiet seen fun c => { c with content := g c } where
  rest c := ⟨c.backlog, c.buffered, g c, rfl⟩
  sound _ h := h.congr rfl rfl rfl h.waiting

theorem quiet_discardPending (block : BlockId) :
    Quiet seen fun c => (c.discardPending block).1 where
  rest c := by
    obtain ⟨backlog, buffered, heq, -⟩ := @Chain.discardPending_spec seen c block
    exact ⟨backlog, buffered, c.content, heq⟩
  sound c hc := by
    obtain ⟨backlog, buffered, heq, hsound⟩ := @Chain.discardPending_spec seen c block
    rw [heq]
    exact hsound hc

theorem update_progress {f : Chain → Chain} (hf : Quiet seen f) (h : l.Arranged seen)
    (id : ChainId) : Progress seen l (l.update id f) [] := by
  unfold update
  split
  · exact replace_progress hf h ‹_›
  · exact .refl h

theorem discardPending_progress (h : l.Arranged seen) (chain : ChainId) (block : BlockId) :
    Progress seen l (l.discardPending chain block).1 [] := by
  rw [discardPending_eq]
  exact update_progress (quiet_discardPending block) h chain

theorem submitContent_progress (h : l.Arranged seen) (item : ContentItem) :
    Progress seen l (l.submitContent item).1 [] := by
  unfold submitContent
  dsimp only
  split
  · exact .refl h
  · rename_i b hb
    -- the chain that is found stands at the end of the path
    have hpath : b.chain.id.path = l.root.target item := by
      refine h.numbered.path_eq ?_
      unfold Branch.chainAt
      rw [hb]
      rfl
    rw [← hpath] at hb ⊢
    have hreplace := replace_progress (quiet_content fun c => (c.content.submit item).1) h
      (branch?_live hb)
    rw [replace_live hb] at hreplace
    exact hreplace

theorem invalidate_progress (h : l.Arranged seen) (content : ContentId) :
    Progress seen l (l.invalidate content).1 [] := by
  rcases invalidate_cases l content with ⟨hsame, -⟩ | ⟨id, -, b, -, -, hupdate⟩
  · rw [hsame]
    exact .refl h
  · rw [hupdate]
    exact update_progress (quiet_content fun c => (c.content.delete content).1) h id

end Ledger

end ShardLedger
