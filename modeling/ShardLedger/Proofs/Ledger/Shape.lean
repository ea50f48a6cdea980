import ShardLedger.Proofs.Ledger.Reached
import ShardLedger.Proofs.Ledger.Rooming
import ShardLedger.Proofs.Ledger.Routed

/-!
# The shape of the tree

Numbers are reserved when a chain splits, registered by the next pass, retired by a merge and given
free when the merged chain is drained. Through all of this the chains of a ledger form one tree.

- `Ledger.Parts`: a chain is split into two others.
- `Ledger.Shaped`: what the chains of a ledger look like.
- `Run.tree_shaped`: they look so at every point of a run.
-/

namespace ShardLedger

namespace Chain

variable {rules : Rules} {c : Chain}

/-- A chain in a reachable state on which nothing waits once it is retired. -/
structure Spent (rules : Rules) (c : Chain) : Prop where
  reachable : c.Reachable rules
  buffered : c.retired = true → c.buffered = ∅
  backlog : c.retired = true → c.backlog = .empty

/-- A retired chain takes no block. -/
theorem submit_retired_eq {b : Branch} (roster : Roster) (block : Block)
    (h : b.chain.retired = true) : (b.submit rules roster block).branch.chain = b.chain := by
  have hsubmitted := b.submitted rules roster block
  generalize b.submit rules roster block = s at hsubmitted ⊢
  cases hsubmitted with
  | screened => rfl
  | settled _ hreceive =>
    rw [Branch.chain_withChain]
    cases received hreceive with
    | retired => rfl
    | known => rfl
    | stale => rfl
    | buffered hretired => exact absurd h (ne_true_of_eq_false hretired)
    | below hretired => exact absurd h (ne_true_of_eq_false hretired)
  | entered _ hreceive =>
    cases received hreceive with
    | released hretired => exact absurd h (ne_true_of_eq_false hretired)

/-- What does not wait is not given up. -/
theorem discardPending_of_none {id : BlockId} (h : c.buffered = ∅) :
    (c.discardPending id).1 = c := by
  unfold discardPending
  rw [h, Std.ExtTreeMap.getElem?_empty]

theorem lasting_spent (rules : Rules) : Lasting rules (Spent rules) where
  reachable h := h.reachable
  submit {b} roster block h := by
    have hretired : (b.submit rules roster block).branch.chain.retired = b.chain.retired :=
      congrArg (·.2.2.1) (b.submit_place rules roster block)
    refine ⟨h.reachable.submit roster block, fun hret => ?_, fun hret => ?_⟩
    · rw [hretired] at hret
      rw [submit_retired_eq roster block hret]
      exact h.buffered hret
    · rw [hretired] at hret
      rw [submit_retired_eq roster block hret]
      exact h.backlog hret
  discardPending {c} id h := by
    have hretired : (c.discardPending id).1.retired = c.retired := by
      obtain ⟨backlog, buffered, heq, -⟩ := @discardPending_spec [] c id
      rw [heq]
    refine ⟨h.reachable.discardPending id, fun hret => ?_, fun hret => ?_⟩
    · rw [hretired] at hret
      rw [discardPending_of_none (h.buffered hret)]
      exact h.buffered hret
    · rw [hretired] at hret
      rw [discardPending_of_none (h.buffered hret)]
      exact h.backlog hret
  retire h := ⟨h.reachable.retire, fun _ => rfl, fun _ => rfl⟩
  rest content undelivered permanent h :=
    ⟨h.reachable.rest content undelivered permanent, h.buffered, h.backlog⟩
  child _ _ _ _ _ _ _ _ hgraph :=
    ⟨.start hgraph, fun hret => (nomatch hret), fun hret => (nomatch hret)⟩

end Chain

namespace Ledger

/-- Live chain `upper` is split into `left` and `right`, which are live chains of the ledger with
the next numbers below it. -/
def Parts (l : Ledger) (upper left right : ChainId) : Prop :=
  left.number = 2 * upper.number ∧ right.number = 2 * upper.number + 1 ∧
    ∃ (c : Chain) (bl br : Branch), l.branch? upper = some (.split c bl br) ∧
      l.branch? left = some bl ∧ l.branch? right = some br ∧
      c.retired = false ∧ bl.chain.retired = false ∧ br.chain.retired = false

/-- A merged chain: nothing is below it and nothing waits on it, and it is to be removed once. -/
structure Merged (l : Ledger) (id : ChainId) (b : Branch) : Prop where
  childless : b.children? = none
  buffered : b.chain.buffered = ∅
  backlog : b.chain.backlog = .empty
  content : b.chain.content = .empty
  leaving : l.leaving.count id = 1

/-- The chains of the ledger, those that are registered and those that are yet to be, form a tree
within the bounds of its configuration. -/
structure Shaped (rules : Rules) (l : Ledger) : Prop where
  distinct : l.order.Nodup
  complete : (∀ p c, l.root.chainAt p = some c → c.id ∈ l.order) ∧ ∀ c ∈ l.retired, c.id ∈ l.order
  occupied : l.roster.occupied.Perm l.order
  room : l.order.length ≤ rules.config.tree.maxChains
  depth : ∀ id ∈ l.order, id.depth ≤ rules.config.tree.maxDepth
  found : ∀ id ∈ l.order, ∃ b, l.branch? id = some b ∧ b.chain.id = id
  first : l.registered.head? = some .root
  root : ∃ b, l.branch? .root = some b ∧ b.chain.retired = false
  /-- A live chain other than the root is one of the two that a live chain is split into. -/
  parted : ∀ id ∈ l.order, id ≠ .root → ∀ b, l.branch? id = some b → b.chain.retired = false →
    ∃ upper ∈ l.order, ∃ left ∈ l.order, ∃ right ∈ l.order, upper.number = id.number / 2 ∧
      (id = left ∨ id = right) ∧ l.Parts upper left right
  merged : ∀ id ∈ l.order, ∀ b, l.branch? id = some b → b.chain.retired = true → l.Merged id b
  /-- Whenever a chain of less than the greatest depth is asked to split, it can. -/
  divisible : ∀ id b, l.branch? id = some b → ∀ block t r seed,
    b.Asks rules l.roster block t r seed → t.chain.id.depth < rules.config.tree.maxDepth →
      t.chain.Divisible rules.config

variable {seen : List Block} {rules : Rules} {l : Ledger} {id : ChainId} {b : Branch}

/-- A chain that is found and is not retired is live. -/
theorem Arranged.at?_of_live (h : l.Arranged seen) (hb : l.branch? id = some b)
    (hlive : b.chain.retired = false) : l.root.at? id.path = some b := by
  rcases branch?_cases hb with hat | ⟨-, c, hc, -, rfl⟩
  · exact hat
  · have hretired : c.retired = false := hlive
    rw [(h.halted c hc).1] at hretired
    cases hretired

/-- A chain that is found and is retired is a merged one. -/
theorem Arranged.mem_retired (h : l.Arranged seen) (hb : l.branch? id = some b)
    (hretired : b.chain.retired = true) : ∃ c ∈ l.retired, c.id = id ∧ b = .leaf c := by
  rcases branch?_cases hb with hat | ⟨-, hc⟩
  · obtain ⟨top, hrun⟩ := h.running _ _ (chainAt_of_at? hat)
    rw [hrun.live] at hretired
    cases hretired
  · exact hc

/-- Below its parent, a live chain has a sibling. -/
theorem Arranged.parted (h : l.Arranged seen) (hid : id ∈ l.order) (hroot : id ≠ .root)
    (hb : l.branch? id = some b) (hlive : b.chain.retired = false) :
    ∃ upper ∈ l.order, ∃ left ∈ l.order, ∃ right ∈ l.order, upper.number = id.number / 2 ∧
      (id = left ∨ id = right) ∧ l.Parts upper left right := by
  have hpos := (h.mem_order id hid).1
  have hone : 1 < id.number := by
    refine Nat.lt_of_le_of_ne hpos fun heq => hroot (ChainId.eq_of_number heq.symm)
  obtain ⟨upper, hupper⟩ : ∃ upper, id.parent? = some upper := by
    unfold ChainId.parent?
    rw [if_pos hone]
    exact ⟨_, rfl⟩
  obtain ⟨-, hhalf⟩ := ChainId.parent?_eq_some_iff.1 hupper
  obtain ⟨hupperPos, side, hpath⟩ := ChainId.parent?_path hupper
  -- the branch of the parent is split, for the chain stands below it
  have hat := h.at?_of_live hb hlive
  rw [hpath, Branch.at?_append, Option.bind_eq_some_iff] at hat
  obtain ⟨sub, hsub, hside⟩ := hat
  obtain ⟨c, bl, br, rfl⟩ : ∃ c bl br, sub = .split c bl br := by
    cases sub with
    | leaf => cases side <;> cases hside
    | split c bl br => exact ⟨c, bl, br, rfl⟩
  obtain ⟨hcid, hcmem⟩ := h.live_id hupperPos (chainAt_of_at? hsub)
  have hbelow : ∀ (s : Side) (e : Branch), (Branch.split c bl br).at? [s] = some e →
      e.chain.id.number = ChainId.descend upper.number [s] ∧ e.chain.id ∈ l.order ∧
        l.branch? e.chain.id = some e ∧ e.chain.retired = false := by
    intro s e he
    have hate : l.root.at? (upper.path ++ [s]) = some e := by
      rw [Branch.at?_append, hsub]
      exact he
    have hchain := Branch.chainAt_of_at? hate
    have hnumber := h.numbered _ _ hchain
    rw [ChainId.descend_append, ← ChainId.number_eq hupperPos] at hnumber
    obtain ⟨top, hrun⟩ := h.running _ _ hchain
    refine ⟨hnumber, h.live_mem _ _ hchain, branch?_live ?_, hrun.live⟩
    rw [h.numbered.path_eq hchain]
    exact hate
  obtain ⟨hl, hlmem, hlfound, hllive⟩ := hbelow .left bl (Branch.at?_nil bl)
  obtain ⟨hr, hrmem, hrfound, hrlive⟩ := hbelow .right br (Branch.at?_nil br)
  obtain ⟨top, hrun⟩ := h.running _ _ (chainAt_of_at? hsub)
  refine ⟨upper, hcid ▸ hcmem, bl.chain.id, hlmem, br.chain.id, hrmem, hhalf, ?_, hl, hr, c, bl, br,
    branch?_live hsub, hlfound, hrfound, hrun.live, hllive, hrlive⟩
  have hl : bl.chain.id.number = 2 * upper.number := hl
  have hr : br.chain.id.number = 2 * upper.number + 1 := hr
  rcases Nat.mod_two_eq_zero_or_one id.number with heven | hodd
  · exact Or.inl (ChainId.eq_of_number (by omega))
  · exact Or.inr (ChainId.eq_of_number (by omega))

/-- A merged chain is put on the list of those that leave, once. -/
theorem Tidy.merged (h : l.Tidy seen) (hspent : l.Every (Chain.Spent rules))
    (hb : l.branch? id = some b) (hretired : b.chain.retired = true) : l.Merged id b := by
  obtain ⟨c, hc, hid, rfl⟩ := h.arranged.mem_retired hb hretired
  have hcs := hspent.retired c hc
  refine ⟨rfl, hcs.buffered hretired, hcs.backlog hretired, ?_, ?_⟩
  · -- a store that holds nothing is empty
    have hitems : c.content.items = ∅ := by
      refine Std.ExtTreeMap.ext_getElem? fun {x} => ?_
      cases hx : c.content.items[x]? with
      | none => rw [Std.ExtTreeMap.getElem?_empty]
      | some item => exact absurd ⟨item, hx⟩ (h.emptied c hc x)
    show c.content = ⟨∅⟩
    rw [← hitems]
  · refine List.count_eq_one_of_mem ?_ ?_
    · rw [h.arranged.leaving]
      exact h.arranged.retired_nodup
    · rw [h.arranged.leaving]
      exact List.mem_map.2 ⟨c, hc, hid⟩

/-- The parts of the shape, from what is kept of the ledger. -/
theorem Tidy.shaped (h : l.Tidy seen) (hroomy : l.Roomy rules.config)
    (hspent : l.Every (Chain.Spent rules)) (hvalid : rules.config.validate = .ok ()) :
    l.Shaped rules := by
  have hmem : ∀ id, id ∈ l.roster.occupied ↔ id ∈ l.order := fun id =>
    ⟨hroomy.listed id, h.arranged.occupied id⟩
  have hperm : l.roster.occupied.Perm l.order :=
    (List.perm_ext_iff_of_nodup hroomy.nodup h.arranged.order_nodup).2 hmem
  refine
    { distinct := h.arranged.order_nodup
      complete := ⟨h.arranged.live_mem, h.arranged.retired_mem⟩, occupied := hperm
      room := hperm.length_eq ▸ hroomy.room
      depth := fun id hid => hroomy.depth id ((hmem id).2 hid)
      found := fun id hid => ?_, first := hroomy.first, root := ⟨l.root, ?_, ?_⟩
      parted := fun id hid hroot b hb hlive => h.arranged.parted hid hroot hb hlive
      merged := fun id _ b hb hretired => h.merged hspent hb hretired
      divisible := fun id b hb block t r seed hasks hdepth => ?_ }
  · obtain ⟨hpos, c, hc⟩ := h.arranged.mem_order id hid
    obtain ⟨b, hb, rfl⟩ := Option.map_eq_some_iff.1 hc
    exact ⟨b, hb, h.arranged.chain?_id hpos hc⟩
  · refine branch?_live ?_
    rw [show ChainId.root.path = [] from ChainId.turns_one, Branch.at?_nil]
  · obtain ⟨top, hrun⟩ := h.arranged.running [] _ (Branch.chainAt_nil _)
    exact hrun.live
  · -- the chain that is asked is a live one, with the number and the cursor that it has now
    obtain ⟨hplace, hlive⟩ := hasks.place
    have hid : t.chain.id = b.chain.id := congrArg Prod.fst hplace
    have hcursor : t.chain.cursor = b.chain.cursor := congrArg (·.2.1) hplace
    refine Chain.divisible_of_depth hvalid ?_ hdepth
    rw [hid, hcursor]
    exact (h.routed.inPlace _ b (h.arranged.at?_of_live hb hlive)).cursor

end Ledger

namespace Run

variable {rules : Rules} {ops : List Operation} {r : Run}

/-- After every sequence of operations, the chains of the ledger form a tree within the bounds of
its configuration. -/
theorem tree_shaped (h : Run.after rules ops = .ok r) : r.ledger.Shaped rules := by
  have hspent : r.ledger.Every (Chain.Spent rules) :=
    every (Chain.lasting_spent rules) (fun graph hgraph =>
      ⟨.start hgraph, fun hret => (nomatch hret), fun hret => (nomatch hret)⟩) h
  exact (tidy h).shaped (roomy h) hspent (valid_of_after h)

/-- The rules of the sample, but for chains that are merged as soon as nothing waits on them. -/
def sampleMergeRules : Rules := { sampleRules with load := .threshold 0 1 }

/-- In the sample, the root splits into two chains that are yet to be registered. Later these are
merged, but they stay, for the blocks that they have finalized are not in line yet. -/
theorem sample_tree_shaped :
    (∃ r, Run.after sampleMergeRules (sampleOps.take 5) = .ok r ∧
      r.ledger.roster.spawned.map (·.number) = [2, 3] ∧ r.ledger.Shaped sampleMergeRules) ∧
    ∃ r, Run.after sampleMergeRules (sampleOps.take 14 ++ [.tick]) = .ok r ∧
      r.ledger.registered.map (·.number) = [1, 2, 3] ∧ r.ledger.leaving.map (·.number) = [2, 3] ∧
      r.ledger.Shaped sampleMergeRules := by
  obtain ⟨r, hr, hspawned⟩ := @exists_after_of_any sampleMergeRules (sampleOps.take 5)
    (fun r => r.ledger.roster.spawned.map (·.number) = [2, 3]) (by decide +kernel)
  obtain ⟨r', hr', hmerged⟩ := @exists_after_of_any sampleMergeRules
    (sampleOps.take 14 ++ [.tick])
    (fun r => r.ledger.registered.map (·.number) = [1, 2, 3] ∧
      r.ledger.leaving.map (·.number) = [2, 3]) (by decide +kernel)
  obtain ⟨hregistered, hleaving⟩ := of_decide_eq_true hmerged
  exact ⟨⟨r, hr, of_decide_eq_true hspawned, tree_shaped hr⟩,
    r', hr', hregistered, hleaving, tree_shaped hr'⟩

end Run

end ShardLedger
