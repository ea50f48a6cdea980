import ShardLedger.Proofs.Ledger.Routed

/-!
# Items that wait in two stores

A submission looks only at the store of the chain that the item is routed to. So if an item of the
same identity but with other fingerprints waits somewhere else, both will wait, and removing the
item by its identity removes one of them. This is the one way in which that comes about: splits and
merges never leave an item in two stores.

- `Ledger.Once`: an item waits in no more than one store.
- `Run.pending_once_iff`: when that holds throughout a run.
- `Run.pending_once_of_agree`: it does if an identity always comes with the same fingerprints.
- `Run.sample_pending_twice`: a run in which it does not.
-/

namespace ShardLedger

namespace Ledger

variable {seen : List Block} {l : Ledger} {id : ChainId} {x : ContentId} {item : ContentItem}

instance (l : Ledger) (id : ChainId) (x : ContentId) : Decidable (l.Pending id x) :=
  decidable_of_iff ((l.branch? id).any fun b => b.chain.content.contains x) (by
    rw [Option.any_eq_true]
    exact exists_congr fun b => and_congr_right fun _ => ContentStore.contains_iff_holds)

/-- The item waits in no more than one store of a chain that is registered or yet to be. -/
def Once (l : Ledger) (x : ContentId) : Prop :=
  ∀ id ∈ l.order, ∀ id' ∈ l.order, l.Pending id x → l.Pending id' x → id = id'

/-- In a tidy ledger, items wait on live chains. -/
theorem Tidy.pending_iff (h : l.Tidy seen) : l.Pending id x ↔
    ∃ c, l.root.chainAt id.path = some c ∧ c.content.Holds x := by
  constructor
  · rintro ⟨b, hb, hx⟩
    rcases branch?_cases hb with hlive | ⟨-, c, hc, -, rfl⟩
    · exact ⟨b.chain, chainAt_of_at? hlive, hx⟩
    · exact absurd hx (h.emptied c hc x)
  · rintro ⟨c, hc, hx⟩
    obtain ⟨b, hb, rfl⟩ := Option.map_eq_some_iff.1 hc
    exact ⟨b, branch?_live hb, hx⟩

/-- An item that is stored waits on a chain of the order. -/
theorem Tidy.pending_of_chainAt (h : l.Tidy seen) {p : List Side} {c : Chain}
    (hc : l.root.chainAt p = some c) (hx : c.content.Holds x) :
    c.id.path = p ∧ c.id ∈ l.order ∧ l.Pending c.id x := by
  have hpath := h.arranged.numbered.path_eq hc
  exact ⟨hpath, h.arranged.live_mem p c hc, h.pending_iff.2 ⟨c, hpath.symm ▸ hc, hx⟩⟩

/-- Items with the same fingerprints wait on one chain. -/
theorem Tidy.id_eq (h : l.Tidy seen) {id id' : ChainId} {c c' : Chain} {x x' : ContentId}
    {i j : ContentItem} (hid : id ∈ l.order) (hid' : id' ∈ l.order)
    (hc : l.root.chainAt id.path = some c) (hi : c.content.items[x]? = some i)
    (hc' : l.root.chainAt id'.path = some c') (hj : c'.content.items[x']? = some j)
    (hfirst : i.first = j.first) (hsecond : i.second = j.second) : id = id' :=
  ChainId.path_injective (h.arranged.mem_order id hid).1 (h.arranged.mem_order id' hid').1
    (h.sorted.path_eq hc hi hc' hj hfirst hsecond)

/-- In a tidy ledger, an item waits once if nothing else is stored under its identity. -/
theorem Tidy.once_iff (h : l.Tidy seen) :
    l.Once x ↔ ∀ i j, l.root.Stores x i → l.root.Stores x j → i = j := by
  constructor
  · rintro honce i j ⟨p, c, hc, hi⟩ ⟨q, d, hd, hj⟩
    obtain ⟨hpath, hmem, hpending⟩ := h.pending_of_chainAt hc ⟨i, hi⟩
    obtain ⟨hpath', hmem', hpending'⟩ := h.pending_of_chainAt hd ⟨j, hj⟩
    -- the two stores are one, so the items are one
    have hid := honce _ hmem _ hmem' hpending hpending'
    rw [← hpath, hid, hpath', hd, Option.some.injEq] at hc
    rw [hc, hi, Option.some.injEq] at hj
    exact hj
  · intro hsole id hid id' hid' hp hp'
    obtain ⟨c, hc, i, hi⟩ := h.pending_iff.1 hp
    obtain ⟨d, hd, j, hj⟩ := h.pending_iff.1 hp'
    obtain rfl := hsole i j ⟨_, c, hc, hi⟩ ⟨_, d, hd, hj⟩
    exact h.id_eq hid hid' hc hi hd hj rfl rfl

/-! ### Removing -/

/-- Removing an item takes it out of a store in which it waits, if there is one. -/
theorem invalidate_eq (l : Ledger) (x : ContentId) :
    ((l.invalidate x).1 = l ∧ ∀ id ∈ l.order, ¬l.Pending id x) ∨
      ∃ id ∈ l.order, l.Pending id x ∧ (l.invalidate x).1 =
        l.update id fun c => { c with content := (c.content.delete x).1 } := by
  rcases invalidate_cases l x with ⟨hsame, hnone⟩ | ⟨id, hid, b, hb, hx, hupdate⟩
  · refine Or.inl ⟨hsame, fun id hid ⟨b, hb, hx⟩ => ?_⟩
    exact hnone id hid b hb (ContentStore.contains_iff_holds.2 hx)
  · exact Or.inr ⟨id, hid, ⟨b, hb, ContentStore.contains_iff_holds.1 hx⟩, hupdate⟩

/-- A chain that drops an item is the only one that changes. -/
theorem Tidy.chainAt_delete (h : l.Tidy seen) (hp : l.Pending id x) (q : List Side) :
    ∃ s : Chain, ¬s.content.Holds x ∧
      (l.update id fun c => { c with content := (c.content.delete x).1 }).root.chainAt q =
        if q = id.path then some s else l.root.chainAt q := by
  obtain ⟨c, hc, -⟩ := h.pending_iff.1 hp
  obtain ⟨b, hb, rfl⟩ := Option.map_eq_some_iff.1 hc
  refine ⟨{ b.chain with content := (b.chain.content.delete x).1 },
    ContentStore.not_holds_delete b.chain.content x, ?_⟩
  unfold update
  rw [branch?_live hb]
  dsimp only
  rw [replace_live hb]
  exact Branch.chainAt_replace_withChain hb q

/-- An item that waits in one store is gone once it is removed. -/
theorem Tidy.invalidate_clears (h : l.Tidy seen) (honce : l.Once x) (id : ChainId) :
    ¬(l.invalidate x).1.Pending id x := by
  have hafter : (l.invalidate x).1.Tidy seen :=
    (invalidate_shifts x).tidy h (invalidate_progress h.arranged x).arranged
  rw [hafter.pending_iff]
  rintro ⟨c, hc, hx⟩
  rcases invalidate_eq l x with ⟨hsame, hnone⟩ | ⟨chain, hmem, hpending, hupdate⟩
  · rw [hsame] at hc
    obtain ⟨-, hmem, hpending⟩ := h.pending_of_chainAt hc hx
    exact hnone _ hmem hpending
  · obtain ⟨s, hs, hat⟩ := h.chainAt_delete hpending id.path
    rw [hupdate, hat] at hc
    split at hc
    · rw [← Option.some.inj hc] at hx
      exact hs hx
    · -- on any other chain it did not wait before
      obtain ⟨hpath, hmem', hpending'⟩ := h.pending_of_chainAt hc hx
      have hid := honce _ hmem' _ hmem hpending' hpending
      rw [hid] at hpath
      exact absurd hpath.symm ‹_›

/-! ### Submitting -/

theorem submitContent_order (l : Ledger) (item : ContentItem) :
    (l.submitContent item).1.order = l.order := by
  obtain ⟨b, -, heq⟩ := submitContent_eq l item
  rw [heq]
  rfl

theorem Tidy.submitContent (h : l.Tidy seen) (item : ContentItem) :
    (l.submitContent item).1.Tidy seen :=
  (submitContent_shifts h item).tidy h (submitContent_progress h.arranged item).arranged

/-- After a submission the item waits where it waited before, and on the chain that is named. -/
theorem Tidy.submitContent_pending (h : l.Tidy seen) (item : ContentItem) :
    (l.submitContent item).2.1 ∈ l.order ∧
      (l.submitContent item).1.Pending (l.submitContent item).2.1 item.id ∧
      ∀ id, l.Pending id item.id → (l.submitContent item).1.Pending id item.id := by
  obtain ⟨b, hb, heq⟩ := submitContent_eq l item
  have hc := Branch.chainAt_of_at? hb
  have hat : ∀ q, (l.submitContent item).1.root.chainAt q =
      if q = l.root.target item then
        some { b.chain with content := (b.chain.content.submit item).1 }
      else l.root.chainAt q := by
    intro q
    rw [heq]
    exact Branch.chainAt_replace_withChain hb q
  have hself := ContentStore.holds_submit_self b.chain.content item
  simp only [(h.submitContent item).pending_iff, hat]
  rw [heq]
  refine ⟨h.arranged.live_mem _ _ hc, ?_, fun id hp => ?_⟩
  · rw [if_pos (h.arranged.numbered.path_eq hc)]
    exact ⟨_, rfl, hself⟩
  · split
    · exact ⟨_, rfl, hself⟩
    · exact h.pending_iff.1 hp

/-- A submission is without effect if the identity is taken on the chain that it names. -/
theorem Tidy.submitContent_taken (h : l.Tidy seen) (hp : l.Pending id item.id)
    (hname : id = (l.submitContent item).2.1) : (l.submitContent item).1 = l := by
  obtain ⟨b, hb, heq⟩ := submitContent_eq l item
  have hc := Branch.chainAt_of_at? hb
  obtain ⟨c, hd, hx⟩ := h.pending_iff.1 hp
  rw [heq] at hname
  rw [hname, show b.chain.id.path = _ from h.arranged.numbered.path_eq hc, hc,
    Option.some.injEq] at hd
  subst hd
  have hself : b.withChain b.chain = b := by cases b <;> rfl
  rw [heq, ContentStore.submit_of_holds hx]
  show { l with root := Branch.replace (b.withChain b.chain) (l.root.target item) l.root } = l
  rw [hself, Branch.replace_self hb]

/-- A submission leaves every item in one store at most, if its identity waited nowhere but on the
chain that it names. -/
theorem Tidy.submitContent_once (h : l.Tidy seen) (honce : ∀ x, l.Once x)
    (hthere : ∀ id ∈ l.order, l.Pending id item.id → id = (l.submitContent item).2.1) :
    ∀ x, (l.submitContent item).1.Once x := by
  by_cases hwaits : ∃ id ∈ l.order, l.Pending id item.id
  · obtain ⟨id, hid, hp⟩ := hwaits
    rw [h.submitContent_taken hp (hthere id hid hp)]
    exact honce
  · -- under the identity of the item nothing was stored
    have hfresh : ∀ i, ¬l.root.Stores item.id i := by
      rintro i ⟨p, c, hc, hx⟩
      obtain ⟨-, hmem, hp⟩ := h.pending_of_chainAt hc ⟨i, hx⟩
      exact hwaits ⟨c.id, hmem, hp⟩
    have hcases : ∀ x i, (l.submitContent item).1.root.Stores x i →
        l.root.Stores x i ∨ (i = item ∧ item.id = x) := by
      intro x i hi
      refine ((submitContent_shifts h item).root.stores x i hi).imp_right ?_
      rintro ⟨hmem, hid⟩
      rw [List.mem_singleton] at hmem
      exact ⟨hmem, hmem ▸ hid⟩
    intro x
    refine (h.submitContent item).once_iff.2 fun i j hi hj => ?_
    rcases hcases x i hi with hold | ⟨rfl, rfl⟩
    · rcases hcases x j hj with hold' | ⟨rfl, rfl⟩
      · exact h.once_iff.1 (honce x) i j hold hold'
      · exact absurd hold (hfresh i)
    · rcases hcases _ j hj with hold' | ⟨rfl, -⟩
      · exact absurd hold' (hfresh j)
      · rfl

end Ledger

namespace Run

variable {rules : Rules} {ops before : List Operation} {r : Run} {x : ContentId}

/-- Whatever is stored was submitted. -/
theorem stored_submitted (h : Run.after rules ops = .ok r) {item : ContentItem}
    (hx : r.ledger.root.Stores x item) : item ∈ itemsOf ops ∧ item.id = x := by
  obtain ⟨l, hl, -⟩ := after_eq h
  obtain ⟨log, hadvances⟩ := advances (after_of_create hl []) h
  refine (hadvances.shifts.root.stores x item hx).resolve_left ?_
  -- nothing is stored in a fresh ledger
  obtain ⟨graph, -, rfl⟩ := create_eq hl
  intro hstart
  exact ContentStore.not_holds_empty ⟨item, Branch.stores_leaf.1 hstart⟩

/-- Nothing but a submission brings an item into a second store. -/
theorem once_perform {op : Operation} (h : Run.after rules ops = .ok r)
    (honce : ∀ x, r.ledger.Once x)
    (hthere : ∀ item, op = .submitContent item → ∀ id ∈ r.ledger.order,
      r.ledger.Pending id item.id → id = (r.ledger.submitContent item).2.1) :
    ∀ x, (r.perform rules op).ledger.Once x := by
  by_cases hop : ∃ item, op = .submitContent item
  · obtain ⟨item, rfl⟩ := hop
    exact (tidy h).submitContent_once honce (hthere item rfl)
  · have hnone : itemsOf [op] = [] := by
      cases op with
      | submitContent item => exact absurd ⟨item, rfl⟩ hop
      | _ => rfl
    obtain ⟨log, hadvances⟩ := perform_advances h (tidy h) op
    have hold : ∀ x i, (r.perform rules op).ledger.root.Stores x i → r.ledger.root.Stores x i := by
      intro x i hi
      refine (hadvances.shifts.root.stores x i hi).resolve_right ?_
      rw [hnone]
      rintro ⟨hmem, -⟩
      cases hmem
    intro x
    refine (tidy (after_perform h op)).once_iff.2 fun i j hi hj => ?_
    exact (tidy h).once_iff.1 (honce x) i j (hold x i hi) (hold x j hj)

/-- Throughout a run every item waits in no more than one store, so that removing it once removes it
altogether, exactly if no item is submitted while its identity waits on another chain than the one
it is routed to. -/
theorem pending_once_iff (rules : Rules) (ops : List Operation) :
    (∀ before r, before <+: ops → Run.after rules before = .ok r →
        ∀ x, r.ledger.Once x ∧ ∀ id, ¬(r.ledger.invalidate x).1.Pending id x) ↔
      ∀ before item r, before ++ [.submitContent item] <+: ops →
        Run.after rules before = .ok r → ∀ id ∈ r.ledger.order,
          r.ledger.Pending id item.id → id = (r.ledger.submitContent item).2.1 := by
  constructor
  · intro honce before item r hprefix h id hid hp
    obtain ⟨hmem, hnamed, hkept⟩ := (tidy h).submitContent_pending item
    obtain ⟨hone, -⟩ := honce _ _ hprefix (after_perform h (.submitContent item)) item.id
    -- the item waits on both chains after the submission
    have horder : (r.perform rules (.submitContent item)).ledger.order = r.ledger.order :=
      Ledger.submitContent_order r.ledger item
    exact hone id (horder ▸ hid) _ (horder ▸ hmem) (hkept id hp) hnamed
  · intro hthere before
    have hall : ∀ r, before <+: ops → Run.after rules before = .ok r →
        ∀ x, r.ledger.Once x := by
      induction before using List.reverseRecOn with
      | nil =>
        intro r _ h x
        refine (tidy h).once_iff.2 fun i j hi _ => ?_
        cases (stored_submitted h hi).1
      | append_singleton before op ih =>
        intro r hprefix h
        obtain ⟨r₀, hr₀, rfl⟩ := after_concat h
        have hearlier := (List.prefix_append before [op]).trans hprefix
        refine once_perform hr₀ (ih r₀ hearlier hr₀) ?_
        rintro item rfl
        exact hthere before item r₀ hprefix hr₀
    intro r hprefix h x
    have hone := hall r hprefix h x
    exact ⟨hone, (tidy h).invalidate_clears hone⟩

/-- Where an identity always comes with the same fingerprints, no item waits in two stores. -/
theorem pending_once_of_agree (h : Run.after rules ops = .ok r)
    (hagree : ∀ i ∈ itemsOf ops, ∀ j ∈ itemsOf ops, i.id = j.id →
      i.first = j.first ∧ i.second = j.second) : r.ledger.Once x := by
  intro id hid id' hid' hp hp'
  obtain ⟨c, hc, i, hi⟩ := (tidy h).pending_iff.1 hp
  obtain ⟨d, hd, j, hj⟩ := (tidy h).pending_iff.1 hp'
  obtain ⟨hmem, hix⟩ := stored_submitted h ⟨_, c, hc, hi⟩
  obtain ⟨hmem', hjx⟩ := stored_submitted h ⟨_, d, hd, hj⟩
  obtain ⟨hfirst, hsecond⟩ := hagree i hmem j hmem' (hix.trans hjx.symm)
  exact (tidy h).id_eq hid hid' hc hi hd hj hfirst hsecond

/-! ### The sample

Once the root is split and the item waits on the left, another item of its identity is submitted,
with fingerprints that lead to the right. -/

/-- The item with other fingerprints. -/
def sampleTwin : ContentItem :=
  { sampleItem with first := ⟨.allOnes 256⟩, second := ⟨.allOnes 256⟩ }

/-- Both wait, and only one of them is removed. -/
theorem sample_pending_twice : ∃ r x,
    Run.after sampleRules (sampleOps.take 6 ++ [.submitContent sampleTwin]) = .ok r ∧
    r.ledger.Pending (.ofWord 2) x ∧ r.ledger.Pending (.ofWord 3) x ∧ ¬r.ledger.Once x ∧
    (r.ledger.invalidate x).1.Pending (.ofWord 3) x := by
  obtain ⟨r, hr, hshown⟩ := @exists_after_of_any sampleRules
    (sampleOps.take 6 ++ [.submitContent sampleTwin])
    (fun r => .ofWord 2 ∈ r.ledger.order ∧ .ofWord 3 ∈ r.ledger.order ∧
      r.ledger.Pending (.ofWord 2) sampleItem.id ∧ r.ledger.Pending (.ofWord 3) sampleItem.id ∧
      (r.ledger.invalidate sampleItem.id).1.Pending (.ofWord 3) sampleItem.id) (by decide +kernel)
  obtain ⟨hleft, hright, hpending, hpending', hremains⟩ := of_decide_eq_true hshown
  refine ⟨r, sampleItem.id, hr, hpending, hpending', fun honce => ?_, hremains⟩
  have hsame := honce _ hleft _ hright hpending hpending'
  exact absurd hsame (by decide)

end Run

end ShardLedger
