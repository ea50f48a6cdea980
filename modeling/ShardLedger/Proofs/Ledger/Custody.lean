import ShardLedger.Proofs.Chain.Offering
import ShardLedger.Proofs.Ledger.Passing
import ShardLedger.Proofs.Tree.Faces

/-!
# What ledgers hold

Every operation on a ledger is matched by steps of any depot that shows it. Blocks that enter are
finalized there and split chains, merges move content up, and passes change nothing else.

- `Ledger.Shows`: a depot shows what the chains of a ledger hold.
- `Ledger.Carries`: an operation is matched by steps of the depot.
- `Ledger.submitBlock_carries`, `Ledger.discardPending_carries`, `Ledger.invalidate_carries`,
  `Ledger.tick_carries`, `Ledger.settle_carries`.
-/

namespace ShardLedger

namespace Ledger

/-- The depot shows the live chains, and the merged ones hold nothing. -/
structure Shows (l : Ledger) (d : Depot) : Prop where
  depicts : Depicts l.root.faces d
  moored : ∀ q, Moored l.root.faces d q
  emptied : ∀ c ∈ l.retired, ∀ x, ¬c.content.Holds x

/-- A depot that shows the ledger before can be led to one that shows it afterwards, by steps that
finalize what the events report. -/
def Carries (seen : List Block) (l l' : Ledger) (events : List Event) : Prop :=
  ∃ log : List Block, events.flatMap Event.finalizations = log.map (fun b => (b.chain, b.id)) ∧
    ∀ d, l.Shows d → d.Covers seen → (∀ o ∈ d.offers, ∀ b ∈ log, o.genesis ≠ b) →
      ∃ d', Evolves seen d d' log ∧ l'.Shows d'

variable {seen : List Block} {l l' l'' : Ledger} {id : ChainId} {b : Branch}

/-- An operation that changes nothing that a depot shows. -/
theorem Carries.same (h : ∀ d, l.Shows d → l'.Shows d) : Carries seen l l' [] :=
  ⟨[], rfl, fun d hd _ _ => ⟨d, .refl seen d, h d hd⟩⟩

theorem Carries.refl (seen : List Block) (l : Ledger) : Carries seen l l [] := .same fun _ h => h

theorem Carries.trans {first later : List Event} (h₁ : Carries seen l l' first)
    (h₂ : Carries seen l' l'' later) : Carries seen l l'' (first ++ later) := by
  obtain ⟨log₁, hlog₁, hsteps₁⟩ := h₁
  obtain ⟨log₂, hlog₂, hsteps₂⟩ := h₂
  refine ⟨log₁ ++ log₂, ?_, fun d hd hcovers hfresh => ?_⟩
  · rw [List.flatMap_append, List.map_append, hlog₁, hlog₂]
  · obtain ⟨d₁, hfirst, hd₁⟩ := hsteps₁ d hd hcovers fun o ho b hb =>
      hfresh o ho b (List.mem_append_left _ hb)
    obtain ⟨d₂, hlater, hd₂⟩ := hsteps₂ d₁ hd₁ (hfirst.covers hcovers) fun o ho b hb =>
      hfresh o (hfirst.offers ▸ ho) b (List.mem_append_right _ hb)
    exact ⟨d₂, hfirst.trans hlater, hd₂⟩

/-! ### Blocks -/

/-- One released block enters a live chain. -/
theorem apply_carries (rules : Rules) {block : Block} (h : l.Arranged seen) (hpos : 0 < id.number)
    (hb : l.root.at? id.path = some b) (hblock : Admitted seen id block) :
    let out := b.apply rules l.roster block
    Carries seen l (l.put id out.1 out.2.1) out.2.2 := by
  have hc := chainAt_of_at? hb
  obtain ⟨hcid, -⟩ := h.live_id hpos hc
  obtain ⟨top, hrun⟩ := h.running _ _ hc
  rcases b.apply_eq rules l.roster hrun (hcid ▸ hblock) with
    heq | ⟨a, b', r, events, he, heq, hsettle, hevents⟩
  · rw [heq]
    dsimp only
    rw [put_self hb]
    exact .refl seen l
  have hlinks := he.links
  rw [hcid] at hlinks
  have hid : a.outcome.1.id = b.chain.id := by rw [he.rest]
  have hcontent : a.outcome.1.face.content = b.chain.face.content := by
    show a.outcome.1.content = b.chain.content
    rw [he.rest]
  rw [heq]
  refine ⟨a.outcome.2, ?_, fun d hd hcovers hfresh => ?_⟩
  · rw [hevents, hcid]
    exact List.map_congr_left fun x hx => by rw [(hlinks.admitted x hx).chain]
  -- the block itself changes no store, and no anchor but that of the chain
  have hview := fun q => Branch.faces_replace_chain hb hid q
  have htop : l.root.faces id = some b.chain.face := Branch.faces_top hb hcid
  have hanchor : d.anchor id = top :=
    (Option.some.inj (hrun.anchor.symm.trans (hd.moored id _ htop))).symm
  have hfits : Fits (Branch.replace (b.withChain a.outcome.1) id.path l.root).faces d id := by
    refine ⟨hd.depicts.congr fun q => ?_, fun q hq => ?_⟩
    · rcases hview q with ⟨hold, -, hnew⟩ | ⟨-, hsame⟩
      · rw [hold, hnew]
        exact congrArg some hcontent
      · rw [hsame]
    · rcases hview q with ⟨-, hbq, -⟩ | ⟨-, hsame⟩
      · exact absurd (hbq.symm.trans hcid) hq
      · unfold Moored
        rw [hsame]
        exact hd.moored q
  obtain ⟨d', hevolves, hfits', hlast⟩ := Fits.settleAll hb hpos rules a.outcome.2 l.roster hfits
    (by rw [Branch.chain_withChain, hid, hcid]) (hanchor.symm ▸ hlinks)
    (fun x hx => hcovers x (hlinks.admitted x hx).mem) hfresh
  have hs := Branch.settleAll_settled rules a.outcome.2 l.roster (b.withChain a.outcome.1)
  rw [hsettle] at hs hfits'
  refine ⟨d', hevolves, hfits'.depicts, fun q => ?_, hd.emptied⟩
  -- the chain itself is anchored at the last block that was finalized, as in the depot
  by_cases hq : q = id
  · subst hq
    intro k hk
    have hrun' := hs.running hrun he
    have hid' : b'.chain.id = q := by
      rw [hs.id, Branch.chain_withChain]
      exact hid.trans hcid
    rw [show (l.put q b' r).root.faces q = _ from Branch.faces_replace_top hb hid',
      Option.some.injEq] at hk
    rw [hlast, hanchor, ← hk]
    exact hrun'.anchor
  · exact hfits'.moored q hq

/-- Released blocks enter a live chain in order. -/
theorem applyAll_carries (rules : Rules) : ∀ (blocks : List Block) {l : Ledger} {b : Branch},
    l.Arranged seen → 0 < id.number → l.root.at? id.path = some b →
    (∀ x ∈ blocks, Admitted seen id x) →
    let out := b.applyAll rules l.roster blocks
    Carries seen l (l.put id out.1 out.2.1) out.2.2.2
  | [], l, b, _, _, hb, _ => by
    show Carries seen l (l.put id b l.roster) []
    rw [put_self hb]
    exact .refl seen l
  | block :: rest, l, b, h, hpos, hb, hadmitted => by
    have hblock := hadmitted block (List.mem_cons_self ..)
    have hrest := applyAll_carries rules rest (apply_progress rules h hpos hb hblock).arranged hpos
      (at?_put hb) fun x hx => hadmitted x (List.mem_cons_of_mem _ hx)
    have hall := (apply_carries rules h hpos hb hblock).trans hrest
    rw [put_put] at hall
    exact hall

/-! ### Changes to one chain -/

/-- A change that keeps the number and the anchor of a chain, and adds no content. -/
structure Thins (f : Chain → Chain) : Prop where
  id : ∀ c, (f c).id = c.id
  anchor : ∀ c, (f c).face.anchor? = c.face.anchor?
  content : ∀ c, (f c).content.Within c.content

/-- One chain, live or retired, changes and gains no content. -/
theorem replace_carries {f : Chain → Chain} (hf : Thins f) (hb : l.branch? id = some b) :
    Carries seen l (l.replace id (b.withChain (f b.chain))) [] := by
  refine ⟨[], rfl, fun d hd _ _ => ?_⟩
  -- what changes on a live chain is seen in one place, and of a retired one nothing is seen
  rcases branch?_cases hb with hlive | ⟨hnone, c, hc, -, rfl⟩
  · rw [replace_live hlive]
    have hview := Branch.faces_replace_chain hlive (hf.id b.chain)
    obtain ⟨d', hevolves, hdepicts, hmoored⟩ := @Depicts.move seen _
      (l.put id (b.withChain (f b.chain)) l.roster).root.faces d hd.depicts fun q k' hk' => by
        rcases hview q with ⟨hold, -, hnew⟩ | ⟨-, hsame⟩
        · obtain rfl := Option.some.inj (hnew.symm.trans hk')
          exact ⟨(hf.content b.chain).keyed (hd.depicts.keyed q _ hold), ⟨_, hold, hf.anchor _⟩,
            fun x hx => ⟨q, _, hold, (hf.content b.chain).holds hx, Or.inl rfl⟩⟩
        · have hold := hsame.symm.trans hk'
          exact ⟨hd.depicts.keyed q k' hold, ⟨k', hold, rfl⟩,
            fun x hx => ⟨q, k', hold, hx, Or.inl rfl⟩⟩
    exact ⟨d', hevolves, hdepicts, fun q => hmoored q (hd.moored q), hd.emptied⟩
  · refine ⟨d, .refl seen d, ?_⟩
    unfold replace live?
    rw [hnone]
    refine ⟨hd.depicts, hd.moored, fun e he x hx => ?_⟩
    obtain ⟨e₀, he₀, rfl⟩ := List.mem_map.1 he
    split at hx
    · exact hd.emptied c hc x ((hf.content c).holds hx)
    · exact hd.emptied e₀ he₀ x hx

/-- A block is submitted to the chain that it names. -/
theorem submitBlock_carries (rules : Rules) {block : Block} (h : l.Arranged seen)
    (hseen : block ∈ seen) :
    Carries seen l (l.submitBlock rules block).1 (l.submitBlock rules block).2.2 := by
  rcases submitBlock_eq rules h hseen with ⟨hsame, hevents⟩ |
    ⟨id, b, backlog, buffered, blocks, hpos, hb, hsound, hadmitted, hledger, hevents⟩
  · rw [hsame, hevents]
    exact .refl seen l
  · rw [hledger, hevents]
    -- again what waits changes first
    obtain ⟨top, hrun⟩ := h.running _ _ (chainAt_of_at? hb)
    obtain ⟨harranged, -⟩ := h.change hpos hb (hrun.rest hsound) rfl
    have hfirst := @replace_carries seen l id b (fun c => { c with backlog, buffered })
      ⟨fun _ => rfl, fun _ => rfl, fun _ _ _ hx => hx⟩ (branch?_live hb)
    rw [replace_live hb] at hfirst
    have hall := hfirst.trans (applyAll_carries rules blocks harranged hpos (at?_put hb) hadmitted)
    rw [put_put] at hall
    exact hall

theorem thins_discardPending (block : BlockId) :
    Thins fun c => (c.discardPending block).1 := by
  have hrest : ∀ c : Chain, ∃ backlog buffered,
      (c.discardPending block).1 = { c with backlog, buffered } := fun c => by
    obtain ⟨backlog, buffered, heq, -⟩ := @Chain.discardPending_spec [] c block
    exact ⟨backlog, buffered, heq⟩
  refine ⟨fun c => ?_, fun c => ?_, fun c => ?_⟩
  · obtain ⟨backlog, buffered, heq⟩ := hrest c
    rw [heq]
  · obtain ⟨backlog, buffered, heq⟩ := hrest c
    rw [heq]
    rfl
  · obtain ⟨backlog, buffered, heq⟩ := hrest c
    rw [heq]
    exact fun _ _ hx => hx

theorem update_carries {f : Chain → Chain} (hf : Thins f) (id : ChainId) :
    Carries seen l (l.update id f) [] := by
  unfold update
  split
  · exact replace_carries hf ‹_›
  · exact .refl seen l

theorem discardPending_carries (chain : ChainId) (block : BlockId) :
    Carries seen l (l.discardPending chain block).1 [] := by
  rw [discardPending_eq]
  exact update_carries (thins_discardPending block) chain

theorem invalidate_carries (content : ContentId) :
    Carries seen l (l.invalidate content).1 [] := by
  rcases invalidate_cases l content with ⟨hsame, -⟩ | ⟨id, -, b, -, -, hupdate⟩
  · rw [hsame]
    exact .refl seen l
  · rw [hupdate]
    exact update_carries (f := fun c => { c with content := (c.content.delete content).1 })
      ⟨fun _ => rfl, fun _ => rfl, fun c => c.content.delete_within content⟩ id

/-! ### Content and proposals -/

/-- An item is routed to a chain of the tree. -/
theorem exists_target (item : ContentItem) : ∀ b : Branch, ∃ sub, b.at? (b.target item) = some sub
  | .leaf c => ⟨.leaf c, Branch.at?_nil _⟩
  | .split c l r => by
    unfold Branch.target
    split
    · exact exists_target item l
    · exact exists_target item r
    · exact ⟨_, Branch.at?_nil _⟩

/-- A new item is stored. -/
theorem submitContent_shows (h : l.Arranged seen) (item : ContentItem) {d : Depot} (hd : l.Shows d)
    (hnew : item.id ∉ d.stored) :
    ∃ d', Depot.Step seen d d' ∧ d'.offers = d.offers ∧ d'.finalized = d.finalized ∧
      d'.stored = item.id :: d.stored ∧ (l.submitContent item).1.Shows d' := by
  obtain ⟨b, hb⟩ := exists_target item l.root
  have hpath : b.chain.id.path = l.root.target item := by
    refine h.numbered.path_eq ?_
    unfold Branch.chainAt
    rw [hb]
    rfl
  unfold submitContent
  dsimp only
  rw [hb]
  dsimp only
  rw [← hpath] at hb ⊢
  generalize hc : { b.chain with content := (b.chain.content.submit item).1 } = c
  have hid : c.id = b.chain.id := by rw [← hc]
  have hface : c.face = { b.chain.face with content := (b.chain.content.submit item).1 } := by
    rw [← hc]
    rfl
  have hnewFace : (Branch.replace (b.withChain c) b.chain.id.path l.root).faces b.chain.id =
      some c.face := by
    rw [Branch.faces_replace_top hb (by rw [Branch.chain_withChain, hid]), Branch.chain_withChain]
  obtain ⟨d', hstep, hoffers, hfinalized, hstored, hdepicts, hmoored⟩ :=
    hd.depicts.store (Branch.faces_top hb rfl) hnew (hface ▸ hnewFace) fun q hq => by
      rcases Branch.faces_replace_chain hb hid q with ⟨-, hbq, -⟩ | ⟨-, hsame⟩
      · exact absurd hbq.symm hq
      · exact hsame
  exact ⟨d', hstep, hoffers, hfinalized, hstored, hdepicts, fun q => hmoored q (hd.moored q),
    hd.emptied⟩

/-- The item waits in the store of the chain. -/
def Pending (l : Ledger) (id : ChainId) (x : ContentId) : Prop :=
  ∃ b, l.branch? id = some b ∧ b.chain.content.Holds x

/-- What is offered waits on a live chain, and the proposal is an offer in the sense of depots. -/
theorem proposal_offer (rules : Rules) (h : l.Arranged seen) {d : Depot} (hd : l.Shows d)
    {maxSize : Nat} {p : Proposal} (hp : l.proposal rules id maxSize = .ok p)
    (hcontent : p.content ≠ []) :
    p.chain = id ∧ (∀ x ∈ p.contentIds, l.Pending id x ∧ d.holds id x) ∧
      ∃ o, o.proposal = p ∧ Depot.Step seen d { d with offers := d.offers ++ [o] } := by
  unfold proposal registered? at hp
  split at hp
  case h_2 => cases hp
  rename_i b hb
  rw [Except.ok.injEq] at hp
  split at hb
  case isFalse => cases hb
  rename_i hregistered
  have hpos := (h.mem_order id (List.mem_append_left _ hregistered)).1
  rcases branch?_cases hb with hlive | ⟨-, c, hc, -, rfl⟩
  · have hc := chainAt_of_at? hlive
    obtain ⟨hcid, -⟩ := h.live_id hpos hc
    obtain ⟨top, hrun⟩ := h.running _ _ hc
    have htop := Branch.faces_top hlive hcid
    have hanchor : d.anchor id = top :=
      (Option.some.inj (hrun.anchor.symm.trans (hd.moored id _ htop))).symm
    have hkeyed : b.chain.content.Keyed := hd.depicts.keyed id _ htop
    obtain ⟨ahead, hlinks, hprevious, hbatch⟩ :=
      hrun.sound.proposal_spec hrun.anchor hkeyed rules.config maxSize
    rw [hp] at hprevious hbatch
    have hchain : p.chain = id := by
      rw [← hp]
      exact hcid
    subst hchain
    -- the batch leaves out what the line carries, and takes what the chain holds
    have hheld : ∀ x ∈ p.contentIds, (l.Pending p.chain x ∧ d.holds p.chain x) ∧
        ∀ y ∈ ahead, x ∉ y.contentIds := by
      intro x hx
      obtain ⟨r, hr, rfl⟩ := List.mem_map.1 hx
      obtain ⟨hx, hout⟩ := hbatch r hr
      exact ⟨⟨⟨b, hb, hx⟩, (hd.depicts.holds _ _).2 ⟨_, htop, hx⟩⟩, hout⟩
    rw [hcid, ← hanchor] at hlinks
    have hextends : p.previous =
        ((d.run p.chain ++ ahead).getLastD (d.genesis p.chain)).id := by
      rw [hprevious, getLastD_append]
      exact congrArg (fun a => (ahead.getLastD a).id) hanchor.symm
    refine ⟨rfl, fun x hx => (hheld x hx).1,
      ⟨p, d.genesis p.chain, d.run p.chain ++ ahead⟩, rfl, ?_⟩
    exact .offer ((hd.depicts.live _).2 ⟨_, htop⟩) rfl rfl hlinks hextends
      fun x hx => ⟨(hheld x hx).1.2, (hheld x hx).2⟩
  · -- a merged chain has nothing to offer
    refine absurd (List.eq_nil_iff_forall_not_mem.2 fun r hr => ?_) hcontent
    rw [← hp] at hr
    have hkeyed : c.content.Keyed := fun x item hx => absurd ⟨item, hx⟩ (hd.emptied c hc x)
    exact hd.emptied c hc r.id (ContentStore.mem_batch hkeyed hr).1

end Ledger

end ShardLedger
