import ShardLedger.Proofs.Ledger.Keeping

/-!
# Where items wait

The number of a chain, its cursor and the fingerprints of its items tell the same: the binary digits
of the number are the turns from the root, the cursor stands at the next bit, and every item of the
chain shows those digits in both its fingerprints. So an item that waits is found by routing it
again.

- `Branch.InPlace`: what a chain is for the items that it stores.
- `Ledger.Routed`: all items of a ledger are where routing looks for them.
- `Run.content_routed`: they are so at every point of a run.
-/

namespace ShardLedger

/-- The cursor of the topmost chain stands at its depth, and its items show the digits of its number.
If it is split, they go to neither side. -/
structure Branch.InPlace (b : Branch) : Prop where
  live : b.chain.retired = false
  cursor : b.chain.cursor.depth = b.chain.id.depth
  digits : ∀ (x : ContentId) (item : ContentItem), b.chain.content.items[x]? = some item →
    ∀ i < b.chain.id.depth,
      item.first.bit i = b.chain.id.number.testBit (b.chain.id.depth - 1 - i) ∧
        item.second.bit i = b.chain.id.number.testBit (b.chain.id.depth - 1 - i)
  undecided : b.isSplit = true → ∀ (x : ContentId) (item : ContentItem),
    b.chain.content.items[x]? = some item →
      item.first.bit b.chain.id.depth ≠ item.second.bit b.chain.id.depth

namespace Ledger

/-- All items of a ledger are where routing looks for them. -/
structure Routed (l : Ledger) : Prop where
  /-- Every live chain is in its place. -/
  inPlace : ∀ p b, l.root.at? p = some b → b.InPlace
  /-- An item that is stored would be submitted to the chain that stores it. -/
  found : ∀ (p : List Side) (c : Chain) (x : ContentId) (item : ContentItem),
    l.root.chainAt p = some c → c.content.items[x]? = some item →
      (l.submitContent item).2.1 = c.id
  /-- A submission names a live chain, and is refused if the identity is taken there. -/
  refused : ∀ item : ContentItem, ∃ p c, l.root.chainAt p = some c ∧ (l.submitContent item).2.1 = c.id ∧
    ((l.submitContent item).2.2 = false ↔ c.content.Holds item.id)
  /-- Items with the same fingerprints are in one store. In particular no two stores hold an item of
  one identity with the same fingerprints. -/
  apart : ∀ (id id' : ChainId) (b b' : Branch) (x x' : ContentId) (item item' : ContentItem),
    l.lookup? id = some b → l.lookup? id' = some b' →
    b.chain.content.items[x]? = some item → b'.chain.content.items[x']? = some item' →
    item.first = item'.first → item.second = item'.second → id = id'

end Ledger

namespace Branch

variable {b : Branch} {p : List Side} {item item' : ContentItem}

/-- Only the fingerprints of an item matter for where it is routed to. -/
theorem target_congr (hfirst : item.first = item'.first) (hsecond : item.second = item'.second)
    (b : Branch) : b.target item = b.target item' := by
  have hroute : ∀ c : Cursor, item.route c = item'.route c := fun c => by
    unfold ContentItem.route
    rw [hfirst, hsecond]
  induction b with
  | leaf => rfl
  | split c l r ihl ihr =>
    unfold target
    rw [hroute, ihl, ihr]

/-- Items with the same fingerprints lie at one place. -/
theorem Sorted.path_eq (h : b.Sorted p) {q q' : List Side} {c c' : Chain} {x x' : ContentId}
    (hc : b.chainAt q = some c) (hx : c.content.items[x]? = some item)
    (hc' : b.chainAt q' = some c') (hx' : c'.content.items[x']? = some item')
    (hfirst : item.first = item'.first) (hsecond : item.second = item'.second) : q = q' := by
  rw [← h.target_eq hc hx, ← h.target_eq hc' hx', target_congr hfirst hsecond]

/-- The topmost chain of a sorted branch is in its place. -/
theorem Sorted.inPlace (h : b.Sorted p) (hid : b.chain.id.number = ChainId.descend 1 p)
    (hlive : b.chain.retired = false) : b.InPlace := by
  have hdepth : b.chain.cursor.depth = b.chain.id.depth :=
    h.top.depth.trans (ChainId.depth_eq hid).symm
  refine ⟨hlive, hdepth, fun x item hx => ?_, fun hsplit x item hx => ?_⟩
  · exact (h.top.bound x item hx).bits hid
  · rw [← hdepth]
    exact ContentItem.route_eq_center.1 (h.central hsplit x item hx)

end Branch

namespace Ledger

variable {seen : List Block} {l : Ledger} {id : ChainId} {b : Branch} {p : List Side} {c : Chain}
  {x : ContentId} {item : ContentItem}

/-- A store with an item in it is that of a live chain. -/
theorem Tidy.live_of_stores (h : l.Tidy seen) (hb : l.lookup? id = some b)
    (hx : b.chain.content.items[x]? = some item) :
    l.root.chainAt id.path = some b.chain ∧ b.chain.id = id := by
  unfold lookup? at hb
  split at hb
  · rename_i hmem
    rcases branch?_cases hb with hlive | ⟨-, c, hc, -, rfl⟩
    · have hc := chainAt_of_at? hlive
      have hpos := (h.arranged.mem_order id (List.mem_append.2 hmem)).1
      exact ⟨hc, (h.arranged.live_id hpos hc).1⟩
    · exact absurd ⟨item, hx⟩ (h.emptied c hc x)
  · cases hb

/-- In a tidy ledger, routing finds an item where it is stored. -/
theorem Tidy.submitContent_stored (h : l.Tidy seen) (hc : l.root.chainAt p = some c)
    (hx : c.content.items[x]? = some item) : (l.submitContent item).2.1 = c.id := by
  obtain ⟨b, hb, heq⟩ := submitContent_eq l item
  rw [h.sorted.target_eq hc hx] at hb
  have hsame := (Branch.chainAt_of_at? hb).symm.trans hc
  rw [heq, ← Option.some.inj hsame]

theorem Tidy.routed (h : l.Tidy seen) : l.Routed where
  inPlace p b hb := by
    have hc := Branch.chainAt_of_at? hb
    obtain ⟨top, hrun⟩ := h.arranged.running p _ hc
    exact (h.sorted.at? hb).inPlace (h.arranged.numbered p _ hc) hrun.live
  found p c x item hc hx := h.submitContent_stored hc hx
  refused item := by
    obtain ⟨b, hb, heq⟩ := submitContent_eq l item
    refine ⟨_, _, Branch.chainAt_of_at? hb, ?_⟩
    rw [heq]
    exact ⟨rfl, ContentStore.submit_eq_false⟩
  apart id id' b b' x x' item item' hb hb' hx hx' hfirst hsecond := by
    obtain ⟨hc, rfl⟩ := h.live_of_stores hb hx
    obtain ⟨hc', rfl⟩ := h.live_of_stores hb' hx'
    -- the place tells the number
    exact ChainId.path_injective (h.arranged.numbered.pos Nat.one_pos hc)
      (h.arranged.numbered.pos Nat.one_pos hc') (h.sorted.path_eq hc hx hc' hx' hfirst hsecond)

end Ledger

namespace Run

variable {rules : Rules} {ops : List Operation} {r : Run}

/-- At every point of a run, all items are where routing looks for them. -/
theorem content_routed (h : Run.after rules ops = .ok r) : r.ledger.Routed := (tidy h).routed

/-- In the sample, the left child stores the item, whose first bits are the last digit of its number,
and a submission finds it there. -/
theorem sample_routed : ∃ r c, Run.after sampleRules (sampleOps.take 6) = .ok r ∧
    r.ledger.root.chainAt [.left] = some c ∧ c.id.number = 2 ∧ c.content.Holds sampleItem.id ∧
    (r.ledger.submitContent sampleItem).2 = (c.id, false) ∧ r.ledger.Routed := by
  obtain ⟨r, hr, hshown⟩ := @exists_after_of_any sampleRules (sampleOps.take 6)
    (fun r => (r.ledger.root.chainAt [.left]).any fun c =>
      c.id.number = 2 ∧ c.content.contains sampleItem.id = true ∧
        (r.ledger.submitContent sampleItem).2 = (c.id, false)) (by decide +kernel)
  obtain ⟨c, hc, hshown⟩ := (Option.any_eq_true ..).1 hshown
  obtain ⟨hnumber, hholds, hsubmit⟩ := of_decide_eq_true hshown
  exact ⟨r, c, hr, hc, hnumber, ContentStore.contains_iff_holds.1 hholds, hsubmit, content_routed hr⟩

end Run

end ShardLedger
