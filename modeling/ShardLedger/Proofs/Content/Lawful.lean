import ShardLedger.Proofs.Content.Depot

/-!
# How two blocks can carry one item

The invariant of the depot. An item is held at one place at most, and nowhere once a block that
carries it was finalized. An offer that can still be taken up has its items below its chain, and no
block on its line carries them. So whenever two blocks carry one item, one of the two offers was
made first, and the other one after a split had moved the item further down.

- `Depot.Lawful`: the invariant; `Depot.Clash`: two blocks that carry one item.
- `Depot.Steps.lawful`: the invariant holds of all depots that can be reached.
-/

namespace ShardLedger

namespace Depot

variable {seen : List Block} {d : Depot}

/-- The block was finalized, or it is the first of all. -/
def Known (d : Depot) (g : Block) : Prop := g = Block.genesis .root ∨ g ∈ d.finalized

/-- The offer extends a line from a known block, and offers nothing that the line carries. -/
structure Fair (seen : List Block) (d : Depot) (o : Offer) : Prop where
  links : Links seen o.chain o.genesis o.line
  seed : Seed seen o.chain o.genesis
  known : d.Known o.genesis
  previous : o.proposal.previous = (o.line.getLastD o.genesis).id
  stored : ∀ x ∈ o.ids, x ∈ d.stored
  apart : ∀ x ∈ o.ids, ∀ b ∈ o.line, x ∉ b.contentIds

/-- The offer of `lower` was made after that of `upper`, for a chain that is strictly below. -/
def Clash (d : Depot) (upper lower : Block) : Prop :=
  ∃ o o', [o, o'].Sublist d.offers ∧ o.proposal.Makes upper ∧ o'.proposal.Makes lower ∧
    upper.chain.Above lower.chain ∧ upper.chain ≠ lower.chain

/-- What holds of a depot at any time. -/
structure Lawful (seen : List Block) (d : Depot) : Prop where
  hosted : ∀ c x, d.holds c x → d.live c
  apart : ∀ c c' x, d.holds c x → d.holds c' x → c = c'
  stored : ∀ c x, d.holds c x → x ∈ d.stored
  links : ∀ c, d.live c → Links seen c (d.genesis c) (d.run c)
  seed : ∀ c, d.live c → Seed seen c (d.genesis c)
  known : ∀ c, d.live c → d.Known (d.genesis c)
  run : ∀ c, d.live c → ∀ b ∈ d.run c, b ∈ d.finalized
  submitted : ∀ b ∈ d.finalized, b ∈ seen
  fair : ∀ o ∈ d.offers, Fair seen d o
  /-- Finalized content is gone. -/
  gone : ∀ b ∈ d.finalized, ∀ x ∈ b.contentIds, ∀ c, ¬d.holds c x
  /-- The items of an offer that can be taken up are at its chain or below, or gone. -/
  below : ∀ o ∈ d.offers, d.Potent o → ∀ x ∈ o.ids, ∀ c, d.holds c x → o.chain.Above c
  /-- Whatever the chain finalized of such an offer it finalized since it started. -/
  current : ∀ o ∈ d.offers, d.Potent o → ∀ b ∈ d.finalized, b.chain = o.chain →
    ∀ x ∈ o.ids, x ∈ b.contentIds → b ∈ d.run o.chain
  ordered : d.offers.Pairwise fun o o' => d.Potent o → ∀ x ∈ o.ids, x ∈ o'.ids →
    o.chain.Above o'.chain
  /-- A finalized block was offered, and its items were later offered only further down. -/
  matched : ∀ b ∈ d.finalized, ∀ x ∈ b.contentIds, ∃ before o after,
    d.offers = before ++ o :: after ∧ o.proposal.Makes b ∧
      ∀ o' ∈ after, x ∈ o'.ids → b.chain.Above o'.chain
  shared : ∀ b ∈ d.finalized, ∀ b' ∈ d.finalized, b ≠ b' → ∀ x ∈ b.contentIds,
    x ∈ b'.contentIds → d.Clash b b' ∨ d.Clash b' b

theorem Known.mono {d' : Depot} {g : Block} (h : d.Known g) (hsub : d.finalized ⊆ d'.finalized) :
    d'.Known g := h.imp_right fun hmem => hsub hmem

theorem Fair.mono {d' : Depot} {o : Offer} (h : Fair seen d o)
    (hfin : d.finalized ⊆ d'.finalized) (hstored : d.stored ⊆ d'.stored) : Fair seen d' o :=
  { h with known := h.known.mono hfin, stored := fun x hx => hstored (h.stored x hx) }

theorem Clash.mono {d' : Depot} {b b' : Block} (h : d.Clash b b') {more : List Offer}
    (hoffers : d'.offers = d.offers ++ more) : d'.Clash b b' := by
  obtain ⟨o, o', hsub, hrest⟩ := h
  exact ⟨o, o', hoffers ▸ hsub.trans (List.sublist_append_left _ _), hrest⟩

/-- What holds stays so when more blocks are seen. -/
theorem Lawful.mono (h : d.Lawful seen) {seen' : List Block} (hsub : seen ⊆ seen') :
    d.Lawful seen' :=
  { h with
    links := fun c hc => (h.links c hc).mono hsub
    seed := fun c hc => (h.seed c hc).mono hsub
    submitted := fun b hb => hsub (h.submitted b hb)
    fair := fun o ho =>
      { h.fair o ho with
        links := (h.fair o ho).links.mono hsub, seed := (h.fair o ho).seed.mono hsub } }

/-- A depot in which nothing has happened: only the root chain is live, and it holds nothing. -/
theorem lawful_start : start.Lawful seen where
  hosted _ _ h := h.elim
  apart _ _ _ h := h.elim
  stored _ _ h := h.elim
  links _ _ := trivial
  seed _ _ := Or.inl rfl
  known _ _ := Or.inl rfl
  run _ _ _ h := nomatch h
  submitted _ h := nomatch h
  fair _ h := nomatch h
  gone _ h := nomatch h
  below _ h := nomatch h
  current _ h := nomatch h
  ordered := .nil
  matched _ h := nomatch h
  shared _ h := nomatch h

/-! ### Items come, go and move -/

theorem Lawful.move (h : d.Lawful seen) {live' : ChainId → Prop}
    {holds' : ChainId → ContentId → Prop} (live : ∀ c, live' c → d.live c)
    (source : ∀ c x, holds' c x → live' c ∧
      (d.holds c x ∨ ∃ q, d.holds q x ∧ q.parent? = some c ∧ ¬live' q)) :
    Lawful seen { d with live := live', holds := holds' } := by
  have hpotent : ∀ o : Offer, ({ d with live := live', holds := holds' } : Depot).Potent o →
      d.Potent o := fun o ho => ⟨live _ ho.1, ho.2⟩
  -- what is held now was held before, here or by a child that has ended
  have hheld : ∀ {c x}, holds' c x → ∃ q, d.holds q x ∧
      (q = c ∨ (q.parent? = some c ∧ ¬live' q)) := by
    intro c x hx
    rcases (source c x hx).2 with hsame | ⟨q, hq, hparent, hend⟩
    · exact ⟨c, hsame, Or.inl rfl⟩
    · exact ⟨q, hq, Or.inr ⟨hparent, hend⟩⟩
  refine
    { hosted := fun c x hx => (source c x hx).1, apart := fun c c' x hx hx' => ?_
      stored := fun c x hx => ?_, links := fun c hc => h.links c (live c hc)
      seed := fun c hc => h.seed c (live c hc), known := fun c hc => h.known c (live c hc)
      run := fun c hc => h.run c (live c hc), submitted := h.submitted
      fair := fun o ho => (h.fair o ho).mono (List.Subset.refl _) (List.Subset.refl _)
      gone := fun b hb x hx c hc => ?_, below := fun o ho hp x hx c hc => ?_
      current := fun o ho hp => h.current o ho (hpotent o hp)
      ordered := h.ordered.imp fun hor hp => hor (hpotent _ hp)
      matched := h.matched, shared := h.shared }
  · -- whoever shows an item now got it from the one place that held it
    have hc := (source c x hx).1
    have hc' := (source c' x hx').1
    obtain ⟨q, hq, hfrom⟩ := hheld hx
    obtain ⟨q', hq', hfrom'⟩ := hheld hx'
    obtain rfl := h.apart q q' x hq hq'
    rcases hfrom with rfl | ⟨hparent, hend⟩
    · rcases hfrom' with rfl | ⟨-, hend'⟩
      · rfl
      · exact absurd hc hend'
    · rcases hfrom' with rfl | ⟨hparent', -⟩
      · exact absurd hc' hend
      · exact Option.some.inj (hparent.symm.trans hparent')
  · obtain ⟨q, hq, -⟩ := hheld hx
    exact h.stored q x hq
  · obtain ⟨q, hq, -⟩ := hheld hc
    exact h.gone b hb x hx q hq
  · obtain ⟨q, hq, hfrom⟩ := hheld hc
    -- an item that moves up stays below its offer, unless the chain of that offer ends
    have habove := h.below o ho (hpotent o hp) x hx q hq
    rcases hfrom with rfl | ⟨hparent, hend⟩
    · exact habove
    · exact habove.of_child hparent fun heq => hend (heq ▸ hp.1)

theorem Lawful.store (h : d.Lawful seen) {c : ChainId} {x : ContentId}
    {holds' : ChainId → ContentId → Prop} (new : x ∉ d.stored)
    (source : ∀ q y, holds' q y → d.live q ∧ (d.holds q y ∨ (q = c ∧ y = x))) :
    Lawful seen { d with holds := holds', stored := x :: d.stored } := by
  -- nobody has heard of the new item
  have hfresh : ∀ o ∈ d.offers, x ∉ o.ids := fun o ho hx => new ((h.fair o ho).stored x hx)
  refine
    { hosted := fun q y hy => (source q y hy).1, apart := fun q q' y hy hy' => ?_
      stored := fun q y hy => ?_, links := h.links, seed := h.seed, known := h.known, run := h.run
      submitted := h.submitted
      fair := fun o ho => (h.fair o ho).mono (List.Subset.refl _) (List.subset_cons_self _ _)
      gone := fun b hb y hy q hq => ?_, below := fun o ho hp y hy q hq => ?_
      current := h.current, ordered := h.ordered, matched := h.matched, shared := h.shared }
  · rcases (source q y hy).2 with hold | ⟨rfl, rfl⟩
    · rcases (source q' y hy').2 with hold' | ⟨rfl, rfl⟩
      · exact h.apart q q' y hold hold'
      · exact absurd (h.stored q _ hold) new
    · rcases (source q' y hy').2 with hold' | ⟨rfl, -⟩
      · exact absurd (h.stored q' _ hold') new
      · rfl
  · rcases (source q y hy).2 with hold | ⟨-, rfl⟩
    · exact List.mem_cons_of_mem _ (h.stored q y hold)
    · exact List.mem_cons_self ..
  · rcases (source q y hq).2 with hold | ⟨-, rfl⟩
    · exact h.gone b hb y hy q hold
    · obtain ⟨before, o, after, hoffers, hmakes, -⟩ := h.matched b hb y hy
      exact hfresh o (hoffers ▸ List.mem_append_right _ (List.mem_cons_self ..))
        (Offer.mem_ids hmakes hy)
  · rcases (source q y hq).2 with hold | ⟨-, rfl⟩
    · exact h.below o ho hp y hy q hold
    · exact absurd hy (hfresh o ho)

/-! ### Offers -/

theorem Lawful.offer (h : d.Lawful seen) {o : Offer} {ahead : List Block} (live : d.live o.chain)
    (genesis : o.genesis = d.genesis o.chain) (line : o.line = d.run o.chain ++ ahead)
    (links : Links seen o.chain (d.anchor o.chain) ahead)
    (previous : o.proposal.previous = (o.line.getLastD o.genesis).id)
    (held : ∀ x ∈ o.ids, d.holds o.chain x ∧ ∀ b ∈ ahead, x ∉ b.contentIds) :
    Lawful seen { d with offers := d.offers ++ [o] } := by
  -- what is held has not been finalized
  have hfresh : ∀ x ∈ o.ids, ∀ b ∈ d.finalized, x ∉ b.contentIds := fun x hx b hb hin =>
    h.gone b hb x hin o.chain (held x hx).1
  have hfair : Fair seen d o :=
    { links := by
        rw [genesis, line]
        exact links_append.2 ⟨h.links _ live, links⟩
      seed := genesis ▸ h.seed _ live
      known := genesis ▸ h.known _ live
      previous := previous
      stored := fun x hx => h.stored _ x (held x hx).1
      apart := fun x hx b hb => by
        rw [line] at hb
        rcases List.mem_append.1 hb with hb | hb
        · exact hfresh x hx b (h.run _ live b hb)
        · exact (held x hx).2 b hb }
  refine
    { hosted := h.hosted, apart := h.apart, stored := h.stored, links := h.links, seed := h.seed
      known := h.known, run := h.run, submitted := h.submitted, fair := fun o' ho' => ?_
      gone := h.gone
      below := fun o' ho' hp x hx c hc => ?_, current := fun o' ho' hp b hb hchain x hx hin => ?_
      ordered := ?_, matched := fun b hb x hx => ?_, shared := fun b hb b' hb' hne x hx hx' => ?_ }
  · rcases List.mem_append.1 ho' with ho' | ho'
    · exact (h.fair o' ho').mono (List.Subset.refl _) (List.Subset.refl _)
    · rw [List.mem_singleton.1 ho']
      exact hfair.mono (List.Subset.refl _) (List.Subset.refl _)
  · rcases List.mem_append.1 ho' with ho' | ho'
    · exact h.below o' ho' hp x hx c hc
    · obtain rfl := List.mem_singleton.1 ho'
      -- the item is held by the chain of the offer and nowhere else
      rw [h.apart c _ x hc (held x hx).1]
      exact ChainId.Above.refl _
  · rcases List.mem_append.1 ho' with ho' | ho'
    · exact h.current o' ho' hp b hb hchain x hx hin
    · obtain rfl := List.mem_singleton.1 ho'
      exact absurd hin (hfresh x hx b hb)
  · refine List.pairwise_append.2 ⟨h.ordered, List.pairwise_singleton _ _, ?_⟩
    intro o₁ ho₁ o₂ ho₂ hp x hx hx'
    obtain rfl := List.mem_singleton.1 ho₂
    exact h.below o₁ ho₁ hp x hx _ (held x hx').1
  · obtain ⟨before, o', after, hoffers, hmakes, hafter⟩ := h.matched b hb x hx
    refine ⟨before, o', after ++ [o], ?_, hmakes, fun o₂ ho₂ hx' => ?_⟩
    · show d.offers ++ [o] = _
      rw [hoffers, List.append_assoc, List.cons_append]
    · rcases List.mem_append.1 ho₂ with ho₂ | ho₂
      · exact hafter o₂ ho₂ hx'
      · obtain rfl := List.mem_singleton.1 ho₂
        exact absurd hx (hfresh x hx' b hb)
  · exact (h.shared b hb b' hb' hne x hx hx').imp (·.mono rfl) (·.mono rfl)

/-! ### Finalizing -/

/-- An offer whose block may be finalized next has its chain's whole run as its line. -/
theorem Lawful.taken_up (hcoherent : Coherent (Block.genesis .root :: seen)) (h : d.Lawful seen)
    {c : ChainId} {b : Block} (live : d.live c) (follows : Follows seen c (d.anchor c) b)
    {o : Offer} (ho : o ∈ d.offers) (hmakes : o.proposal.Makes b) :
    o.chain = c ∧ d.Potent o ∧ o.line = d.run c := by
  have hchain : o.chain = c := hmakes.1.trans follows.chain
  have hfair := h.fair o ho
  have hprevious : o.proposal.previous = (d.anchor c).id := by
    have hparent := follows.parent
    unfold Block.parent? at hparent
    rw [hmakes.2.1] at hparent
    exact Option.some.inj hparent
  obtain ⟨hgenesis, hline⟩ := Links.unique hcoherent (hchain ▸ hfair.seed) (h.seed c live)
    (hchain ▸ hfair.links) (h.links c live) (hfair.previous.symm.trans hprevious)
  refine ⟨hchain, ⟨hchain ▸ live, ?_⟩, hline⟩
  rw [hchain]
  exact hgenesis.symm

/-- A block that is finalized shares items only with blocks of other chains, and the two chains
stand above one another. -/
theorem Lawful.clash (hcoherent : Coherent (Block.genesis .root :: seen)) (h : d.Lawful seen)
    {c : ChainId} {b b' : Block} (live : d.live c) (follows : Follows seen c (d.anchor c) b)
    {o : Offer} (ho : o ∈ d.offers) (hmakes : o.proposal.Makes b) (hb' : b' ∈ d.finalized)
    {x : ContentId} (hx : x ∈ b.contentIds) (hx' : x ∈ b'.contentIds) :
    d.Clash b b' ∨ d.Clash b' b := by
  obtain ⟨hchain, hpotent, hline⟩ := h.taken_up hcoherent live follows ho hmakes
  have hxo : x ∈ o.ids := Offer.mem_ids hmakes hx
  have hbc : b.chain = c := follows.chain
  -- on its own chain, the other block would stand on the line of the offer
  have hne : b'.chain ≠ c := by
    intro heq
    have hrun := h.current o ho hpotent b' hb' (heq.trans hchain.symm) x hxo hx'
    rw [hchain, ← hline] at hrun
    exact (h.fair o ho).apart x hxo b' hrun hx'
  obtain ⟨before, o', after, hoffers, hmakes', hafter⟩ := h.matched b' hb' x hx'
  rw [hoffers] at ho
  rcases List.mem_append.1 ho with ho | ho
  · -- the offer of the new block came first
    have hsub : [o, o'].Sublist d.offers := by
      rw [hoffers]
      exact (List.singleton_sublist.2 ho).append
        (List.singleton_sublist.2 (List.mem_cons_self ..))
    have hxo' : x ∈ o'.ids := Offer.mem_ids hmakes' hx'
    have hordered := List.rel_of_pairwise_cons (h.ordered.sublist hsub)
      (List.mem_singleton_self o') hpotent x hxo hxo'
    refine Or.inl ⟨o, o', hsub, hmakes, hmakes', ?_, fun heq => hne (heq.symm.trans hbc)⟩
    rw [← hmakes.1, ← hmakes'.1]
    exact hordered
  · rcases List.mem_cons.1 ho with rfl | ho
    · exact absurd (hmakes'.1.symm.trans hchain) hne
    · -- the offer of the old block came first
      have hsub : [o', o].Sublist d.offers := by
        rw [hoffers]
        exact ((List.singleton_sublist.2 ho).cons_cons o').trans (List.sublist_append_right _ _)
      refine Or.inr ⟨o', o, hsub, hmakes', hmakes, ?_, fun heq => hne (heq.trans hbc)⟩
      rw [← hmakes.1]
      exact hafter o ho hxo

/-- What a block that is finalized carries is gone: it was at the chain or below. -/
theorem Lawful.gone_next (hcoherent : Coherent (Block.genesis .root :: seen)) (h : d.Lawful seen)
    {c : ChainId} {b : Block} {holds' : ChainId → ContentId → Prop} (live : d.live c)
    (follows : Follows seen c (d.anchor c) b)
    (offered : ∀ x ∈ b.contentIds, ∃ o ∈ d.offers, o.proposal.Makes b)
    (source : ∀ q x, holds' q x → d.holds q x ∧ (c.Above q → x ∉ b.contentIds)) {x : ContentId}
    (hx : x ∈ b.contentIds) (q : ChainId) : ¬holds' q x := by
  intro hq
  obtain ⟨o, ho, hmakes⟩ := offered x hx
  obtain ⟨hchain, hpotent, -⟩ := h.taken_up hcoherent live follows ho hmakes
  have hxo : x ∈ o.ids := Offer.mem_ids hmakes hx
  have habove := h.below o ho hpotent x hxo q (source q x hq).1
  exact (source q x hq).2 (hchain ▸ habove) hx

/-- The items of a block that is finalized next were offered later only further down. -/
theorem Lawful.matched_next (hcoherent : Coherent (Block.genesis .root :: seen))
    (h : d.Lawful seen) {c : ChainId} {b : Block} (live : d.live c)
    (follows : Follows seen c (d.anchor c) b)
    (offered : ∀ x ∈ b.contentIds, ∃ o ∈ d.offers, o.proposal.Makes b) {x : ContentId}
    (hx : x ∈ b.contentIds) :
    ∃ before o after, d.offers = before ++ o :: after ∧ o.proposal.Makes b ∧
      ∀ o' ∈ after, x ∈ o'.ids → b.chain.Above o'.chain := by
  obtain ⟨o, ho, hmakes⟩ := offered x hx
  obtain ⟨-, hpotent, -⟩ := h.taken_up hcoherent live follows ho hmakes
  obtain ⟨before, after, hoffers⟩ := List.append_of_mem ho
  refine ⟨before, o, after, hoffers, hmakes, fun o' ho' hx' => ?_⟩
  have hordered := h.ordered
  rw [hoffers] at hordered
  rw [← hmakes.1]
  exact List.rel_of_pairwise_cons (List.pairwise_append.1 hordered).2.1 ho' hpotent x
    (Offer.mem_ids hmakes hx) hx'

theorem Lawful.finalize (hcoherent : Coherent (Block.genesis .root :: seen)) (h : d.Lawful seen)
    {c : ChainId} {b : Block} {holds' : ChainId → ContentId → Prop} (live : d.live c)
    (follows : Follows seen c (d.anchor c) b)
    (offered : ∀ x ∈ b.contentIds, ∃ o ∈ d.offers, o.proposal.Makes b)
    (source : ∀ q x, holds' q x → d.holds q x ∧ (c.Above q → x ∉ b.contentIds)) :
    Lawful seen { d with
      holds := holds', run := fun q => if q = c then d.run c ++ [b] else d.run q
      finalized := d.finalized ++ [b] } := by
  have hsub : d.finalized ⊆ d.finalized ++ [b] := List.subset_append_left _ _
  have hrun : ∀ q y, y ∈ (if q = c then d.run c ++ [b] else d.run q) ↔
      y ∈ d.run q ∨ (q = c ∧ y = b) := by
    intro q y
    split
    · rename_i heq
      rw [heq, List.mem_append, List.mem_singleton, and_iff_right rfl]
    · rename_i hne
      exact ⟨Or.inl, fun hy => hy.resolve_right fun hboth => hne hboth.1⟩
  refine
    { hosted := fun q x hx => h.hosted q x (source q x hx).1
      apart := fun q q' x hx hx' => h.apart q q' x (source q x hx).1 (source q' x hx').1
      stored := fun q x hx => h.stored q x (source q x hx).1, links := fun q hq => ?_
      seed := h.seed, known := fun q hq => (h.known q hq).mono hsub, run := fun q hq y hy => ?_
      submitted := fun y hy => ?_
      fair := fun o ho => (h.fair o ho).mono hsub (List.Subset.refl _)
      gone := fun y hy x hx q hq => ?_
      below := fun o ho hp x hx q hq => h.below o ho hp x hx q (source q x hq).1
      current := fun o ho hp y hy hchain x hx hin => ?_, ordered := h.ordered
      matched := fun y hy x hx => ?_, shared := fun y hy y' hy' hne x hx hx' => ?_ }
  · show Links seen q (d.genesis q) (if q = c then d.run c ++ [b] else d.run q)
    split
    · rename_i heq
      subst heq
      exact links_append.2 ⟨h.links q live, follows, trivial⟩
    · exact h.links q hq
  · rcases (hrun q y).1 hy with hold | ⟨-, rfl⟩
    · exact hsub (h.run q hq y hold)
    · exact List.mem_append_right _ (List.mem_singleton_self _)
  · rcases List.mem_append.1 hy with hold | hnew
    · exact h.submitted y hold
    · exact List.mem_singleton.1 hnew ▸ follows.mem
  · rcases List.mem_append.1 hy with hy | hy
    · exact h.gone y hy x hx q (source q x hq).1
    · obtain rfl := List.mem_singleton.1 hy
      exact h.gone_next hcoherent live follows offered source hx q hq
  · -- a block of the offer's chain joins the run of that chain
    rcases List.mem_append.1 hy with hold | hnew
    · exact (hrun _ y).2 (Or.inl (h.current o ho hp y hold hchain x hx hin))
    · rw [List.mem_singleton] at hnew
      refine (hrun _ y).2 (Or.inr ⟨?_, hnew⟩)
      rw [← hchain, hnew]
      exact follows.chain
  · rcases List.mem_append.1 hy with hy | hy
    · exact h.matched y hy x hx
    · obtain rfl := List.mem_singleton.1 hy
      exact h.matched_next hcoherent live follows offered hx
  · -- if one of the two is the new block, it clashes with the old one
    rcases List.mem_append.1 hy with hold | hnew
    · rcases List.mem_append.1 hy' with hold' | hnew'
      · exact h.shared y hold y' hold' hne x hx hx'
      · rw [List.mem_singleton] at hnew'
        subst hnew'
        obtain ⟨o, ho, hmakes⟩ := offered x hx'
        exact (h.clash hcoherent live follows ho hmakes hold hx' hx).symm
    · rw [List.mem_singleton] at hnew
      subst hnew
      rcases List.mem_append.1 hy' with hold' | hnew'
      · obtain ⟨o, ho, hmakes⟩ := offered x hx
        exact h.clash hcoherent live follows ho hmakes hold' hx hx'
      · exact absurd (List.mem_singleton.1 hnew').symm hne

/-! ### Splits -/

/-- The anchor of a chain that has finalized something is one of its blocks. -/
theorem Lawful.anchor_run (h : d.Lawful seen) {c : ChainId} (live : d.live c)
    (started : d.run c ≠ []) : d.anchor c ∈ d.run c ∧ Admitted seen c (d.anchor c) := by
  have hlinks := h.links c live
  unfold anchor
  rcases List.eq_nil_or_concat (d.run c) with hnil | ⟨ys, y, hrun⟩
  · exact absurd hnil started
  · rw [hrun, List.concat_eq_append] at hlinks ⊢
    rw [List.getLastD_concat]
    exact ⟨List.mem_append_right _ (List.mem_singleton_self _),
      (links_append.1 hlinks).2.1.toAdmitted⟩

/-- A split leaves no item in two places: only the chains that take part can hold what the chain
that splits held. -/
theorem Lawful.apart_split (h : d.Lawful seen) {c : ChainId} {born : List ChainId}
    {holds' : ChainId → ContentId → Prop}
    (source : ∀ q x, holds' q x → (q ∈ born ∧ d.holds c x) ∨ (q ∉ born ∧ d.holds q x))
    (apart : ∀ x, ∀ q ∈ c :: born, ∀ q' ∈ c :: born, holds' q x → holds' q' x → q = q')
    {q q' : ChainId} {x : ContentId} (hx : holds' q x) (hx' : holds' q' x) : q = q' := by
  -- an item of the chain that splits was nowhere else, any other item stays where it was
  by_cases hc : d.holds c x
  · have hmem : ∀ a, holds' a x → a ∈ c :: born := fun a ha => by
      rcases source a x ha with ⟨hborn, -⟩ | ⟨-, hold⟩
      · exact List.mem_cons_of_mem _ hborn
      · exact List.mem_cons.2 (Or.inl (h.apart a c x hold hc))
    exact apart x q (hmem q hx) q' (hmem q' hx') hx hx'
  · have hold := ((source q x hx).resolve_left fun hborn => hc hborn.2).2
    have hold' := ((source q' x hx').resolve_left fun hborn => hc hborn.2).2
    exact h.apart q q' x hold hold'

theorem Lawful.split (h : d.Lawful seen) {c : ChainId} {born : List ChainId}
    {live' : ChainId → Prop} {holds' : ChainId → ContentId → Prop} (chain : d.live c)
    (started : d.run c ≠ []) (fresh : ∀ o ∈ d.offers, o.genesis ≠ d.anchor c)
    (children : ∀ q ∈ born, q.parent? = some c) (live : ∀ q, live' q → q ∈ born ∨ d.live q)
    (source : ∀ q x, holds' q x → live' q ∧
      ((q ∈ born ∧ d.holds c x) ∨ (q ∉ born ∧ d.holds q x)))
    (apart : ∀ x, ∀ q ∈ c :: born, ∀ q' ∈ c :: born, holds' q x → holds' q' x → q = q') :
    Lawful seen { d with
      live := live', holds := holds'
      genesis := fun q => if q ∈ born then d.anchor c else d.genesis q
      run := fun q => if q ∈ born then [] else d.run q } := by
  obtain ⟨hanchor, hadmitted⟩ := h.anchor_run chain started
  -- no offer can be taken up by a new chain
  have hpotent : ∀ o ∈ d.offers, live' o.chain →
      (if o.chain ∈ born then d.anchor c else d.genesis o.chain) = o.genesis →
      o.chain ∉ born ∧ d.Potent o := by
    intro o ho hlive hgenesis
    by_cases hborn : o.chain ∈ born
    · rw [if_pos hborn] at hgenesis
      exact absurd hgenesis.symm (fresh o ho)
    · rw [if_neg hborn] at hgenesis
      exact ⟨hborn, (live _ hlive).resolve_left hborn, hgenesis⟩
  refine
    { hosted := fun q x hx => (source q x hx).1
      apart := fun q q' x hx hx' => h.apart_split (fun q x hx => (source q x hx).2) apart hx hx'
      stored := fun q x hx => ?_, links := fun q hq => ?_, seed := fun q hq => ?_
      known := fun q hq => ?_, run := fun q hq y hy => ?_, submitted := h.submitted
      fair := fun o ho => (h.fair o ho).mono (List.Subset.refl _) (List.Subset.refl _)
      gone := fun b hb x hx q hq => ?_, below := fun o ho hp x hx q hq => ?_
      current := fun o ho hp b hb hchain x hx hin => ?_
      ordered := ?_, matched := h.matched, shared := h.shared }
  · rcases (source q x hx).2 with ⟨-, hc⟩ | ⟨-, hold⟩
    · exact h.stored c x hc
    · exact h.stored q x hold
  · show Links seen q (if q ∈ born then d.anchor c else d.genesis q)
      (if q ∈ born then [] else d.run q)
    by_cases hborn : q ∈ born
    · rw [if_pos hborn, if_pos hborn]
      trivial
    · rw [if_neg hborn, if_neg hborn]
      exact h.links q ((live q hq).resolve_left hborn)
  · show Seed seen q (if q ∈ born then d.anchor c else d.genesis q)
    by_cases hborn : q ∈ born
    · rw [if_pos hborn]
      refine Or.inr ⟨hadmitted.mem, ?_⟩
      rw [hadmitted.chain]
      exact (ChainId.parent?_ne (children q hborn)).symm
    · rw [if_neg hborn]
      exact h.seed q ((live q hq).resolve_left hborn)
  · show d.Known (if q ∈ born then d.anchor c else d.genesis q)
    by_cases hborn : q ∈ born
    · rw [if_pos hborn]
      exact Or.inr (h.run c chain _ hanchor)
    · rw [if_neg hborn]
      exact h.known q ((live q hq).resolve_left hborn)
  · replace hy : y ∈ (if q ∈ born then [] else d.run q) := hy
    by_cases hborn : q ∈ born
    · rw [if_pos hborn] at hy
      cases hy
    · rw [if_neg hborn] at hy
      exact h.run q ((live q hq).resolve_left hborn) y hy
  · rcases (source q x hq).2 with ⟨-, hc⟩ | ⟨-, hold⟩
    · exact h.gone b hb x hx c hc
    · exact h.gone b hb x hx q hold
  · obtain ⟨-, hp⟩ := hpotent o ho hp.1 hp.2
    -- the new chains are below the old one
    rcases (source q x hq).2 with ⟨hborn, hc⟩ | ⟨-, hold⟩
    · exact ChainId.above_child (h.below o ho hp x hx c hc) (children q hborn)
    · exact h.below o ho hp x hx q hold
  · obtain ⟨hborn, hp⟩ := hpotent o ho hp.1 hp.2
    show b ∈ (if o.chain ∈ born then [] else d.run o.chain)
    rw [if_neg hborn]
    exact h.current o ho hp b hb hchain x hx hin
  · refine h.ordered.imp_of_mem fun {o o'} ho _ hor hp => ?_
    exact hor (hpotent o ho hp.1 hp.2).2

/-! ### Any number of steps -/

theorem Lawful.step (hcoherent : Coherent (Block.genesis .root :: seen)) {d' : Depot}
    (hs : Step seen d d') (h : d.Lawful seen) : d'.Lawful seen := by
  cases hs with
  | move live source => exact h.move live source
  | store new source => exact h.store new source
  | offer live genesis line links previous held =>
    exact h.offer live genesis line links previous held
  | finalize live follows offered source => exact h.finalize hcoherent live follows offered source
  | split chain started fresh children live source apart =>
    exact h.split chain started fresh children live source apart

theorem Steps.lawful (hcoherent : Coherent (Block.genesis .root :: seen)) {d' : Depot}
    (hs : Steps seen d d') (h : d.Lawful seen) : d'.Lawful seen := by
  induction hs with
  | refl => exact h
  | tail _ hstep ih => exact ih.step hcoherent hstep

end Depot

end ShardLedger
