import ShardLedger.Proofs.Content.Depot
import ShardLedger.Proofs.Content.Store

/-!
# Depots of a ledger

Of each live chain a depot shows two things, its store and the block that its anchor stands on: the
face of the chain. What happens to the faces of a ledger is matched by steps of the depot.

- `Face`, `Depicts`, `Moored`: a depot shows the live chains with their stores and anchors.
- `Depicts.move`, `Depicts.store`, `Depicts.finalize`, `Depicts.split`: the steps that match changes
  to the faces.
-/

namespace ShardLedger

/-- What a depot shows of a chain. -/
structure Face where
  content : ContentStore
  anchor? : Option Block

/-- A chain loses items. -/
def Face.lose (ids : List ContentId) (k : Face) : Face :=
  { k with content := (k.content.deleteMany ids).1 }

/-- The depot shows exactly the live chains, and what they hold. -/
structure Depicts (f : ChainId → Option Face) (d : Depot) : Prop where
  live : ∀ q, d.live q ↔ ∃ k, f q = some k
  holds : ∀ q x, d.holds q x ↔ ∃ k, f q = some k ∧ k.content.Holds x
  keyed : ∀ q k, f q = some k → k.content.Keyed

/-- The anchor of a chain, if it is live, is the block that the depot shows. -/
def Moored (f : ChainId → Option Face) (d : Depot) (q : ChainId) : Prop :=
  ∀ k, f q = some k → k.anchor? = some (d.anchor q)

/-- Every item that a block carries was offered together with the block. -/
def Depot.Covers (d : Depot) (blocks : List Block) : Prop :=
  ∀ b ∈ blocks, ∀ x ∈ b.contentIds, ∃ o ∈ d.offers, o.proposal.Makes b

/-- Steps in which nothing is stored or offered, and these blocks are finalized. -/
structure Evolves (seen : List Block) (d d' : Depot) (log : List Block) : Prop where
  steps : Depot.Steps seen d d'
  offers : d'.offers = d.offers
  stored : d'.stored = d.stored
  finalized : d'.finalized = d.finalized ++ log

variable {seen : List Block} {f f' : ChainId → Option Face} {d d' d'' : Depot} {c : ChainId}

theorem Evolves.refl (seen : List Block) (d : Depot) : Evolves seen d d [] :=
  ⟨.refl, rfl, rfl, (List.append_nil _).symm⟩

theorem Evolves.covers {log blocks : List Block} (h : Evolves seen d d' log)
    (hd : d.Covers blocks) : d'.Covers blocks := by
  unfold Depot.Covers
  rw [h.offers]
  exact hd

theorem Evolves.trans {log more : List Block} (h₁ : Evolves seen d d' log)
    (h₂ : Evolves seen d' d'' more) : Evolves seen d d'' (log ++ more) where
  steps := h₁.steps.trans h₂.steps
  offers := h₂.offers.trans h₁.offers
  stored := h₂.stored.trans h₁.stored
  finalized := by rw [h₂.finalized, h₁.finalized, List.append_assoc]

/-- Chains lose items, or end and hand their items to the chain above. -/
theorem Depicts.move (h : Depicts f d) (hf : ∀ q k', f' q = some k' →
      k'.content.Keyed ∧ (∃ k, f q = some k ∧ k'.anchor? = k.anchor?) ∧
      ∀ x, k'.content.Holds x → ∃ p k, f p = some k ∧ k.content.Holds x ∧
        (p = q ∨ (p.parent? = some q ∧ f' p = none))) :
    ∃ d', Evolves seen d d' [] ∧ Depicts f' d' ∧ ∀ q, Moored f d q → Moored f' d' q := by
  refine ⟨{ d with live := fun q => ∃ k, f' q = some k
                   holds := fun q x => ∃ k, f' q = some k ∧ k.content.Holds x },
    ⟨.single (.move (fun q hq => ?_) fun q x hx => ?_), rfl, rfl, (List.append_nil _).symm⟩,
    ⟨fun q => Iff.rfl, fun q x => Iff.rfl, fun q k hk => (hf q k hk).1⟩, fun q hq k' hk' => ?_⟩
  · obtain ⟨k', hk'⟩ := hq
    obtain ⟨-, ⟨k, hk, -⟩, -⟩ := hf q k' hk'
    exact (h.live q).2 ⟨k, hk⟩
  · obtain ⟨k', hk', hholds⟩ := hx
    obtain ⟨-, -, hfrom⟩ := hf q k' hk'
    obtain ⟨p, k, hk, hold, hp⟩ := hfrom x hholds
    refine ⟨⟨k', hk'⟩, ?_⟩
    rcases hp with rfl | ⟨hparent, hend⟩
    · exact Or.inl ((h.holds p x).2 ⟨k, hk, hold⟩)
    · refine Or.inr ⟨p, (h.holds p x).2 ⟨k, hk, hold⟩, hparent, ?_⟩
      rintro ⟨k'', hk''⟩
      rw [hend] at hk''
      cases hk''
  · obtain ⟨-, ⟨k, hk, hanchor⟩, -⟩ := hf q k' hk'
    rw [hanchor]
    exact hq k hk

/-- The depot shows a chain by nothing but what it holds. -/
theorem Depicts.congr (h : Depicts f d)
    (hf : ∀ q, (f' q).map (·.content) = (f q).map (·.content)) : Depicts f' d := by
  -- the assumption is symmetric, so one direction gives both
  have hback : ∀ {g g' : ChainId → Option Face},
      (∀ q, (g' q).map (·.content) = (g q).map (·.content)) →
      ∀ q k', g' q = some k' → ∃ k, g q = some k ∧ k.content = k'.content := by
    intro g g' hg q k' hk'
    have hq := hg q
    rw [hk'] at hq
    exact Option.map_eq_some_iff.1 hq.symm
  have hforth := hback fun q => (hf q).symm
  refine ⟨fun q => ?_, fun q x => ?_, fun q k' hk' => ?_⟩
  · rw [h.live]
    constructor
    · rintro ⟨k, hk⟩
      obtain ⟨k', hk', -⟩ := hforth q k hk
      exact ⟨k', hk'⟩
    · rintro ⟨k', hk'⟩
      obtain ⟨k, hk, -⟩ := hback hf q k' hk'
      exact ⟨k, hk⟩
  · rw [h.holds]
    constructor
    · rintro ⟨k, hk, hx⟩
      obtain ⟨k', hk', hcontent⟩ := hforth q k hk
      exact ⟨k', hk', hcontent ▸ hx⟩
    · rintro ⟨k', hk', hx⟩
      obtain ⟨k, hk, hcontent⟩ := hback hf q k' hk'
      exact ⟨k, hk, hcontent ▸ hx⟩
  · obtain ⟨k, hk, hcontent⟩ := hback hf q k' hk'
    exact hcontent ▸ h.keyed q k hk

/-- A new item is stored on a chain. -/
theorem Depicts.store (h : Depicts f d) {k : Face} {item : ContentItem} (chain : f c = some k)
    (new : item.id ∉ d.stored) (hc : f' c = some { k with content := (k.content.submit item).1 })
    (hrest : ∀ q, q ≠ c → f' q = f q) :
    ∃ d', Depot.Step seen d d' ∧ d'.offers = d.offers ∧ d'.finalized = d.finalized ∧
      d'.stored = item.id :: d.stored ∧ Depicts f' d' ∧
      ∀ q, Moored f d q → Moored f' d' q := by
  -- what a chain shows now, it showed before, or it is the new item
  have hback : ∀ q k', f' q = some k' → ∃ k₀, f q = some k₀ ∧ k'.anchor? = k₀.anchor? ∧
      (k₀.content.Keyed → k'.content.Keyed) ∧
      ∀ x, k'.content.Holds x → k₀.content.Holds x ∨ (q = c ∧ x = item.id) := by
    intro q k' hk'
    by_cases hq : q = c
    · subst hq
      rw [hc, Option.some.injEq] at hk'
      subst hk'
      exact ⟨k, chain, rfl, ContentStore.Keyed.submit,
        fun x hx => (ContentStore.holds_submit hx).imp_right fun hnew => ⟨rfl, hnew⟩⟩
    · rw [hrest q hq] at hk'
      exact ⟨k', hk', rfl, id, fun x hx => Or.inl hx⟩
  refine ⟨{ d with holds := fun q x => ∃ k', f' q = some k' ∧ k'.content.Holds x
                   stored := item.id :: d.stored },
    .store (c := c) new fun q x hx => ?_, rfl, rfl, rfl,
    ⟨fun q => ?_, fun q x => Iff.rfl, fun q k' hk' => ?_⟩, fun q hq k' hk' => ?_⟩
  · obtain ⟨k', hk', hholds⟩ := hx
    obtain ⟨k₀, hk₀, -, -, hfrom⟩ := hback q k' hk'
    exact ⟨(h.live q).2 ⟨k₀, hk₀⟩,
      (hfrom x hholds).imp_left fun hold => (h.holds q x).2 ⟨k₀, hk₀, hold⟩⟩
  · show d.live q ↔ _
    rw [h.live]
    constructor
    · rintro ⟨k₀, hk₀⟩
      by_cases hq : q = c
      · exact ⟨_, hq ▸ hc⟩
      · exact ⟨k₀, (hrest q hq).trans hk₀⟩
    · rintro ⟨k', hk'⟩
      obtain ⟨k₀, hk₀, -⟩ := hback q k' hk'
      exact ⟨k₀, hk₀⟩
  · obtain ⟨k₀, hk₀, -, hkeyed, -⟩ := hback q k' hk'
    exact hkeyed (h.keyed q k₀ hk₀)
  · obtain ⟨k₀, hk₀, hanchor, -⟩ := hback q k' hk'
    rw [hanchor]
    exact hq k₀ hk₀

/-- A chain finalizes a block, and its items are removed on the chain and below. -/
theorem Depicts.finalize (h : Depicts f d) {b : Block} (live : ∃ k, f c = some k)
    (follows : Follows seen c (d.anchor c) b)
    (offered : ∀ x ∈ b.contentIds, ∃ o ∈ d.offers, o.proposal.Makes b)
    (hon : ∀ q, c.Above q → f' q = (f q).map (Face.lose b.contentIds))
    (hoff : ∀ q, ¬c.Above q → f' q = f q) :
    ∃ d', Evolves seen d d' [b] ∧ Depicts f' d' ∧ d'.anchor c = b ∧ d'.run c ≠ [] ∧
      ∀ q, q ≠ c → Moored f d q → Moored f' d' q := by
  -- what a chain shows now, it showed before, and nothing of the block is left from there on down
  have hback : ∀ q k', f' q = some k' → ∃ k, f q = some k ∧ k'.content.Within k.content ∧
      k'.anchor? = k.anchor? ∧
      ∀ x, k'.content.Holds x → c.Above q → x ∉ b.contentIds := by
    intro q k' hk'
    by_cases habove : c.Above q
    · rw [hon q habove, Option.map_eq_some_iff] at hk'
      obtain ⟨k, hk, rfl⟩ := hk'
      exact ⟨k, hk, ContentStore.deleteMany_within _ _, rfl,
        fun x hx _ hin => ContentStore.not_holds_deleteMany hin hx⟩
    · rw [hoff q habove] at hk'
      exact ⟨k', hk', fun _ _ hitem => hitem, rfl, fun _ _ hq => absurd hq habove⟩
  have hsome : ∀ q, (∃ k, f q = some k) ↔ ∃ k, f' q = some k := by
    intro q
    constructor
    · rintro ⟨k, hk⟩
      by_cases habove : c.Above q
      · exact ⟨_, (hon q habove).trans (congrArg _ hk)⟩
      · exact ⟨k, (hoff q habove).trans hk⟩
    · rintro ⟨k', hk'⟩
      obtain ⟨k, hk, -⟩ := hback q k' hk'
      exact ⟨k, hk⟩
  refine ⟨{ d with
      holds := fun q x => ∃ k, f' q = some k ∧ k.content.Holds x
      run := fun q => if q = c then d.run c ++ [b] else d.run q
      finalized := d.finalized ++ [b] },
    ⟨.single (.finalize ((h.live c).2 live) follows offered fun q x hx => ?_), rfl, rfl, rfl⟩,
    ⟨fun q => (h.live q).trans (hsome q), fun q x => Iff.rfl, fun q k' hk' => ?_⟩, ?_, ?_,
    fun q hne hq k' hk' => ?_⟩
  · obtain ⟨k', hk', hholds⟩ := hx
    obtain ⟨k, hk, hwithin, -, hgone⟩ := hback q k' hk'
    exact ⟨(h.holds q x).2 ⟨k, hk, hwithin.holds hholds⟩, hgone x hholds⟩
  · obtain ⟨k, hk, hwithin, -⟩ := hback q k' hk'
    exact hwithin.keyed (h.keyed q k hk)
  · show (if c = c then d.run c ++ [b] else d.run c).getLastD (d.genesis c) = b
    rw [if_pos rfl]
    exact List.getLastD_concat ..
  · show (if c = c then d.run c ++ [b] else d.run c) ≠ []
    rw [if_pos rfl]
    exact List.append_ne_nil_of_right_ne_nil _ (List.cons_ne_nil _ _)
  · obtain ⟨k, hk, -, hanchor, -⟩ := hback q k' hk'
    show _ = some ((if q = c then d.run c ++ [b] else d.run q).getLastD (d.genesis q))
    rw [if_neg hne, hanchor]
    exact hq k hk

/-! ### Splits -/

/-- The chain that an item on this route goes to when `c` splits. -/
def Route.target (c left right : ChainId) : Route → ChainId
  | .left => left
  | .right => right
  | .center => c

/-- Three chains show one part each of the store that `c` showed, the new ones starting from a seed,
and nothing else changes. -/
structure Parted (f f' : ChainId → Option Face) (c left right : ChainId) (k : Face)
    (cursor : Cursor) (seed : Block) : Prop where
  center_part : f' c = some ⟨k.content.routed cursor .center, k.anchor?⟩
  left_part : f' left = some ⟨k.content.routed cursor .left, some seed⟩
  right_part : f' right = some ⟨k.content.routed cursor .right, some seed⟩
  rest : ∀ q, q ∉ c :: [left, right] → f' q = f q

section Splitting

variable {left right q q' : ChainId} {k k' : Face} {cursor : Cursor} {seed : Block} {x : ContentId}

/-- Each of the three chains has its own route. -/
theorem Parted.exists_route (hp : Parted f f' c left right k cursor seed)
    (hq : q ∈ c :: [left, right]) (hk' : f' q = some k') :
    ∃ r : Route, q = r.target c left right ∧ k'.content = k.content.routed cursor r ∧
      (r ≠ .center → k'.anchor? = some seed) := by
  rcases List.mem_cons.1 hq with rfl | hq
  · obtain rfl := Option.some.inj (hp.center_part.symm.trans hk')
    exact ⟨.center, rfl, rfl, fun h => absurd rfl h⟩
  · rcases List.mem_cons.1 hq with rfl | hq
    · obtain rfl := Option.some.inj (hp.left_part.symm.trans hk')
      exact ⟨.left, rfl, rfl, fun _ => rfl⟩
    · obtain rfl := List.mem_singleton.1 hq
      obtain rfl := Option.some.inj (hp.right_part.symm.trans hk')
      exact ⟨.right, rfl, rfl, fun _ => rfl⟩

theorem Parted.keyed (hp : Parted f f' c left right k cursor seed) (h : Depicts f d)
    (chain : f c = some k) (hk' : f' q = some k') : k'.content.Keyed := by
  by_cases hq : q ∈ c :: [left, right]
  · obtain ⟨r, -, hcontent, -⟩ := hp.exists_route hq hk'
    rw [hcontent]
    exact (ContentStore.routed_within _ _ _).keyed (h.keyed c k chain)
  · exact h.keyed q k' ((hp.rest q hq).symm.trans hk')

/-- What one of the three chains holds was held by the chain that split. -/
theorem Parted.held (hp : Parted f f' c left right k cursor seed) (h : Depicts f d)
    (chain : f c = some k) (hq : q ∈ c :: [left, right]) (hk' : f' q = some k')
    (hx : k'.content.Holds x) : d.holds c x := by
  obtain ⟨r, -, hcontent, -⟩ := hp.exists_route hq hk'
  rw [hcontent] at hx
  exact (h.holds c x).2 ⟨k, chain, (ContentStore.routed_within _ _ _).holds hx⟩

/-- No item goes to two of the three chains. -/
theorem Parted.apart (hp : Parted f f' c left right k cursor seed)
    (hq : q ∈ c :: [left, right]) (hq' : q' ∈ c :: [left, right])
    (hx : ∃ k', f' q = some k' ∧ k'.content.Holds x)
    (hx' : ∃ k', f' q' = some k' ∧ k'.content.Holds x) : q = q' := by
  obtain ⟨k₁, hk₁, hholds₁⟩ := hx
  obtain ⟨k₂, hk₂, hholds₂⟩ := hx'
  obtain ⟨r₁, hq₁, hcontent₁, -⟩ := hp.exists_route hq hk₁
  obtain ⟨r₂, hq₂, hcontent₂, -⟩ := hp.exists_route hq' hk₂
  rw [hcontent₁] at hholds₁
  rw [hcontent₂] at hholds₂
  rw [hq₁, hq₂, ContentStore.routed_unique hholds₁ hholds₂]

/-- A chain splits at its anchor, and its store is parted. -/
theorem Depicts.split (h : Depicts f d) (chain : f c = some k) (started : d.run c ≠ [])
    (fresh : ∀ o ∈ d.offers, o.genesis ≠ d.anchor c) (hleft : left.parent? = some c)
    (hright : right.parent? = some c) (hp : Parted f f' c left right k cursor (d.anchor c)) :
    ∃ d', Evolves seen d d' [] ∧ Depicts f' d' ∧ d'.anchor c = d.anchor c ∧
      ∀ q, q ≠ c → Moored f d q → Moored f' d' q := by
  -- the chain is none of its children
  have hnot : c ∉ [left, right] := by
    intro hmem
    rcases List.mem_cons.1 hmem with rfl | hmem
    · exact ChainId.parent?_ne hleft rfl
    · exact ChainId.parent?_ne hright (List.mem_singleton.1 hmem).symm
  refine ⟨{ d with
      live := fun q => ∃ k', f' q = some k'
      holds := fun q x => ∃ k', f' q = some k' ∧ k'.content.Holds x
      genesis := fun q => if q ∈ [left, right] then d.anchor c else d.genesis q
      run := fun q => if q ∈ [left, right] then [] else d.run q },
    ⟨.single (.split ((h.live c).2 ⟨k, chain⟩) started fresh (fun q hq => ?_) (fun q hq => ?_)
      (fun q x hx => ?_) fun x q hq q' hq' => hp.apart hq hq'), rfl, rfl,
      (List.append_nil _).symm⟩,
    ⟨fun q => Iff.rfl, fun q x => Iff.rfl, fun q k' hk' => hp.keyed h chain hk'⟩, ?_,
    fun q hne hq k' hk' => ?_⟩
  · rcases List.mem_cons.1 hq with rfl | hq
    · exact hleft
    · exact List.mem_singleton.1 hq ▸ hright
  · obtain ⟨k', hk'⟩ := hq
    by_cases hq : q ∈ c :: [left, right]
    · rcases List.mem_cons.1 hq with rfl | hq
      · exact Or.inr ((h.live q).2 ⟨k, chain⟩)
      · exact Or.inl hq
    · exact Or.inr ((h.live q).2 ⟨k', (hp.rest q hq).symm.trans hk'⟩)
  · obtain ⟨k', hk', hholds⟩ := hx
    refine ⟨⟨k', hk'⟩, ?_⟩
    by_cases hq : q ∈ c :: [left, right]
    · have hold := hp.held h chain hq hk' hholds
      rcases List.mem_cons.1 hq with rfl | hq
      · exact Or.inr ⟨hnot, hold⟩
      · exact Or.inl ⟨hq, hold⟩
    · refine Or.inr ⟨fun hmem => hq (List.mem_cons_of_mem _ hmem), (h.holds q x).2 ?_⟩
      exact ⟨k', (hp.rest q hq).symm.trans hk', hholds⟩
  · show (if c ∈ [left, right] then [] else d.run c).getLastD
      (if c ∈ [left, right] then d.anchor c else d.genesis c) = d.anchor c
    rw [if_neg hnot, if_neg hnot]
    rfl
  · show _ = some ((if q ∈ [left, right] then [] else d.run q).getLastD
      (if q ∈ [left, right] then d.anchor c else d.genesis q))
    by_cases hmem : q ∈ [left, right]
    · rw [if_pos hmem, if_pos hmem]
      obtain ⟨r, hroute, -, hanchor⟩ := hp.exists_route (List.mem_cons_of_mem _ hmem) hk'
      refine hanchor ?_
      rintro rfl
      exact hne hroute
    · rw [if_neg hmem, if_neg hmem]
      refine hq k' ((hp.rest q fun hin => ?_).symm.trans hk')
      exact (List.mem_cons.1 hin).elim hne hmem

end Splitting

end ShardLedger
