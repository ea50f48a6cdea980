import ShardLedger.Proofs.Ledger.Handover
import ShardLedger.Proofs.Tree.Sorting

/-!
# Stores in a ledger

What every operation on a ledger does to the stores of its chains. Only a submitted item comes in;
only a withdrawn item and the items of finalized blocks may go; and every other item stays on some
live chain, through splits and merges.

- `Ledger.Tidy`: every item lies where its fingerprints lead, and merged chains hold nothing.
- `Ledger.Shifts`: a change to the stores of a ledger, which keeps it tidy.
- `Ledger.Consumes`: chains finalize blocks, and only the items of those may go.
- `Ledger.submitBlock_consumes`, `Ledger.submitContent_shifts`, `Ledger.invalidate_shifts`,
  `Ledger.discardPending_shifts`, `Ledger.tick_shifts`, `Ledger.settle_shifts`.
-/

namespace ShardLedger

namespace Ledger

/-- The merged chains hold nothing. -/
def Emptied (l : Ledger) : Prop := ∀ c ∈ l.retired, ∀ x, ¬c.content.Holds x

/-- A change to a ledger: the items in `came` may come in on live chains, those in `gone` may go,
every other item stays on a live chain, and merged chains stay empty. -/
structure Shifts (came : List ContentItem) (gone : List ContentId) (l l' : Ledger) : Prop where
  root : Branch.Shifts [] came gone l.root l'.root
  emptied : l.Emptied → l'.Emptied

variable {seen : List Block} {l l' l'' : Ledger} {id : ChainId} {b : Branch}
  {came came' : List ContentItem} {gone gone' : List ContentId} {f : Chain → Chain}

/-- An arranged ledger in which every item lies where its fingerprints lead, and merged chains hold
nothing. -/
structure Tidy (seen : List Block) (l : Ledger) : Prop where
  arranged : l.Arranged seen
  sorted : l.root.Sorted []
  emptied : l.Emptied

theorem Shifts.tidy {seen' : List Block} (hs : Shifts came gone l l') (h : l.Tidy seen)
    (harranged : l'.Arranged seen') : l'.Tidy seen' :=
  ⟨harranged, hs.root.sorted h.sorted, hs.emptied h.emptied⟩

theorem Shifts.refl (l : Ledger) : Shifts [] [] l l := ⟨.refl [] l.root, fun h => h⟩

theorem Shifts.trans (h₁ : Shifts came gone l l') (h₂ : Shifts came' gone' l' l'') :
    Shifts (came ++ came') (gone ++ gone') l l'' :=
  ⟨h₁.root.trans h₂.root, fun h => h₂.emptied (h₁.emptied h)⟩

theorem Shifts.mono (h : Shifts came gone l l') (hgone : gone ⊆ gone') : Shifts came gone' l l' :=
  ⟨h.root.mono (List.Subset.refl _) hgone, h.emptied⟩

/-! ### Changes to one chain -/

/-- One chain, live or merged, drops items. -/
theorem replace_shifts (hf : ∀ c : Chain, c.Sheds gone (f c)) (hb : l.branch? id = some b) :
    Shifts [] gone l (l.replace id (b.withChain (f b.chain))) := by
  rcases branch?_cases hb with hlive | ⟨hnone, c, hc, -, rfl⟩
  · rw [replace_live hlive]
    exact ⟨.replace (Branch.shifts_shed (hf b.chain)) hlive, fun h => h⟩
  · unfold replace live?
    rw [hnone]
    refine ⟨(Branch.Shifts.refl [] l.root).mono (List.Subset.refl _) (List.nil_subset _), ?_⟩
    intro h e he x hx
    obtain ⟨e₀, he₀, rfl⟩ := List.mem_map.1 he
    split at hx
    · exact h c hc x ((hf c).within.holds hx)
    · exact h e₀ he₀ x hx

theorem update_shifts (hf : ∀ c : Chain, c.Sheds gone (f c)) (id : ChainId) :
    Shifts [] gone l (l.update id f) := by
  unfold update
  split
  · exact replace_shifts hf ‹_›
  · exact (Shifts.refl l).mono (List.nil_subset _)

theorem discardPending_shifts (chain : ChainId) (block : BlockId) :
    Shifts [] [] l (l.discardPending chain block).1 := by
  rw [discardPending_eq]
  refine update_shifts (fun c => ?_) chain
  obtain ⟨backlog, buffered, heq, -⟩ := @Chain.discardPending_spec [] c block
  rw [heq]
  exact Chain.sheds_same rfl rfl

theorem sheds_delete (c : Chain) (x : ContentId) :
    c.Sheds [x] { c with content := (c.content.delete x).1 } where
  cursor := rfl
  within := c.content.delete_within x
  holds _ hy hnot := hy.delete fun heq => hnot (heq ▸ List.mem_singleton_self _)

theorem invalidate_shifts (x : ContentId) : Shifts [] [x] l (l.invalidate x).1 := by
  rcases invalidate_cases l x with ⟨hsame, -⟩ | ⟨id, -, b, -, -, hupdate⟩
  · rw [hsame]
    exact (Shifts.refl l).mono (List.nil_subset _)
  · rw [hupdate]
    exact update_shifts (fun c => sheds_delete c x) id

/-! ### Content -/

/-- An item is stored on the chain that it is routed to, unless its identity is taken there. -/
theorem submitContent_eq (l : Ledger) (item : ContentItem) :
    ∃ b, l.root.at? (l.root.target item) = some b ∧
      l.submitContent item =
        ({ l with
            root := Branch.replace
              (b.withChain { b.chain with content := (b.chain.content.submit item).1 })
              (l.root.target item) l.root },
          b.chain.id, (b.chain.content.submit item).2) := by
  obtain ⟨b, hb⟩ := exists_target item l.root
  refine ⟨b, hb, ?_⟩
  unfold submitContent
  simp only [hb, Branch.chain_withChain]

theorem submitContent_shifts (h : l.Tidy seen) (item : ContentItem) :
    Shifts [item] [] l (l.submitContent item).1 := by
  obtain ⟨b, hb, heq⟩ := submitContent_eq l item
  obtain ⟨hbound, hstays⟩ := h.sorted.target_bound item.boundFor_nil
  rw [heq]
  exact ⟨.replace (Branch.shifts_store fun _ => ⟨hbound, hstays b hb⟩) hb, fun h => h⟩

/-- An item that was submitted is stored. -/
theorem submitContent_holds (l : Ledger) (item : ContentItem) :
    (l.submitContent item).1.root.Holds item.id := by
  obtain ⟨b, hb, heq⟩ := submitContent_eq l item
  rw [heq, Branch.holds_iff]
  refine ⟨_, _, Branch.chainAt_of_at? (Branch.at?_replace hb), ?_⟩
  rw [Branch.chain_withChain]
  exact ContentStore.holds_submit_self _ item

/-! ### Blocks -/

/-- Chains finalize the blocks of a log, and only the items of those may go. -/
def Consumes (seen : List Block) (l l' : Ledger) : Prop :=
  ∃ log : List (ChainId × Block),
    (∀ fin del, Board.Steps seen ⟨l.lanes, fin, del⟩ ⟨l'.lanes, fin ++ log, del⟩) ∧
      Shifts [] (log.flatMap fun entry => entry.2.contentIds) l l'

theorem Consumes.refl (seen : List Block) (l : Ledger) : Consumes seen l l :=
  ⟨[], fun fin _ => by rw [List.append_nil], .refl l⟩

theorem Consumes.trans (h₁ : Consumes seen l l') (h₂ : Consumes seen l' l'') :
    Consumes seen l l'' := by
  obtain ⟨log₁, hsteps₁, hshifts₁⟩ := h₁
  obtain ⟨log₂, hsteps₂, hshifts₂⟩ := h₂
  refine ⟨log₁ ++ log₂, fun fin del => ?_, ?_⟩
  · rw [← List.append_assoc]
    exact (hsteps₁ fin del).trans (hsteps₂ _ del)
  · rw [List.flatMap_append]
    exact hshifts₁.trans hshifts₂

/-- One released block enters a live chain. -/
theorem apply_consumes (rules : Rules) {block : Block} (h : l.Arranged seen) (hpos : 0 < id.number)
    (hb : l.root.at? id.path = some b) (hblock : Admitted seen id block) :
    let out := b.apply rules l.roster block
    Consumes seen l (l.put id out.1 out.2.1) := by
  have hc := chainAt_of_at? hb
  obtain ⟨hcid, -⟩ := h.live_id hpos hc
  obtain ⟨top, hrun⟩ := h.running _ _ hc
  rcases b.apply_eq rules l.roster hrun (hcid ▸ hblock) with
    heq | ⟨a, b', r, events, he, heq, hsettle, -⟩
  · rw [heq]
    dsimp only
    rw [put_self hb]
    exact .refl seen l
  · have hs := Branch.settleAll_settled rules a.outcome.2 l.roster (b.withChain a.outcome.1)
    have hshifts := Branch.shifts_settleAll rules id.path a.outcome.2 l.roster
      (b.withChain a.outcome.1)
    rw [hsettle] at hs hshifts
    rw [heq]
    refine ⟨a.outcome.2.map (id, ·), fun fin del => (h.enter hpos hb hrun he hs fin del).2, ?_⟩
    -- the block that enters changes no store, and those that it finalizes take out their items
    have henter : b.chain.Sheds [] a.outcome.1 :=
      Chain.sheds_same (by rw [he.rest]) (by rw [he.rest])
    have hall := (Branch.shifts_shed henter).trans hshifts
    rw [List.flatMap_map]
    exact ⟨hall.replace hb, fun h => h⟩

/-- A block is submitted to the chain that it names. -/
theorem submitBlock_consumes (rules : Rules) {block : Block} (h : l.Arranged seen)
    (hseen : block ∈ seen) : Consumes seen l (l.submitBlock rules block).1 := by
  refine submitBlock_closed rules (.refl seen) Consumes.trans
    (fun {l id b backlog buffered} h hpos hb hsound => ?_) (apply_consumes rules) h hseen
  obtain ⟨top, hrun⟩ := h.running _ _ (chainAt_of_at? hb)
  obtain ⟨-, hlanes⟩ := h.change hpos hb (hrun.rest hsound) rfl
  exact ⟨[], fun fin _ => by rw [List.append_nil, hlanes],
    .replace (Branch.shifts_shed (Chain.sheds_same rfl rfl)) hb, fun h => h⟩

/-! ### Passes -/

theorem mergeAt?_shifts {rules : Rules} (hm : l.mergeAt? rules id = some l') :
    Shifts [] [] l l' := by
  obtain ⟨c, lc, rc, hat, rfl⟩ := mergeAt?_eq_some hm
  refine ⟨.replace (Branch.shifts_merge id.path c lc rc) hat, fun h e he x => ?_⟩
  -- the leaves have handed everything on when they retire
  rcases List.mem_append.1 he with he | he
  · exact h e he x
  · have hempty : e.content = .empty := by
      rcases List.mem_cons.1 he with rfl | he
      · rfl
      · rw [List.mem_singleton.1 he]
        rfl
    rw [hempty]
    exact ContentStore.not_holds_empty

theorem mergeIdle_shifts (rules : Rules) : Shifts [] [] l (l.mergeIdle rules).1 :=
  mergeIdle_closed (P := Shifts [] [] l)
    (fun _ _ _ hl hm => hl.trans (mergeAt?_shifts hm)) (.refl l)

theorem setQueues_shifts (sources : List Source) {l : Ledger} :
    Shifts [] [] l (sources.foldl setQueue l) := by
  induction sources generalizing l with
  | nil => exact .refl l
  | cons s rest ih =>
    have hfirst : Shifts [] [] l (l.setQueue s) :=
      update_shifts (f := fun c => { c with undelivered := s.queue })
        (fun _ => Chain.sheds_same rfl rfl) s.chain
    exact hfirst.trans ih

theorem linearize_shifts : Shifts [] [] l l.linearize.1 := by
  rw [(linearize_eq l).1]
  have hcount : Shifts [] [] l { l with linearizer :=
      ⟨l.linearizer.delivered + (drainBelow l.confirmBar l.sources).1.length, l.confirmBar⟩ } :=
    ⟨.refl [] l.root, fun h => h⟩
  exact hcount.trans (setQueues_shifts _)

theorem removeAll_shifts (ids : List ChainId) {l : Ledger} :
    Shifts [] [] l (ids.foldl remove l) := by
  induction ids generalizing l with
  | nil => exact .refl l
  | cons id rest ih =>
    have hfirst : Shifts [] [] l (l.remove id) :=
      ⟨.refl [] l.root, fun h e he => h e (List.mem_filter.1 he).1⟩
    exact hfirst.trans ih

theorem tick_shifts (rules : Rules) : Shifts [] [] l (l.tick rules).ledger := by
  have hfirst : Shifts [] [] l l.registerSpawned.1 := ⟨.refl [] l.root, fun h => h⟩
  exact ((hfirst.trans (mergeIdle_shifts rules)).trans linearize_shifts).trans (removeAll_shifts _)

theorem settleWithin_shifts (rules : Rules) (fuel : Nat) {l : Ledger} :
    Shifts [] [] l (settleWithin rules fuel l).1 := by
  induction fuel generalizing l with
  | zero => exact .refl l
  | succ fuel ih =>
    unfold settleWithin
    dsimp only
    split
    · exact tick_shifts rules
    · exact (tick_shifts rules).trans ih

theorem settle_shifts (rules : Rules) : Shifts [] [] l (l.settle rules).1 :=
  settleWithin_shifts rules _

end Ledger

end ShardLedger
