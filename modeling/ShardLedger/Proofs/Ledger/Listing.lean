import ShardLedger.Proofs.Ledger.Stock

/-!
# Items that two blocks list

A split moves pending items to the stores of the children, whether or not they have been offered to
a proposer of the parent chain. So an item can be offered a second time, further down, while the
block that carries it is not final yet; and then both blocks may be finalized. In faithful runs this
is the one way in which two finalized blocks come to list the same item.

- `Run.Overtaken`: a block was proposed below another one that was still out.
- `Run.overtaken_of_shared`: two finalized blocks list an item only if one was overtaken.
- `Run.listed_once_iff`: when no two finalized blocks list the same item, and where they never do.
- `Run.sample_listed_twice`: a run in which two finalized blocks do.
-/

namespace ShardLedger

namespace Run

variable {rules : Rules} {ops : List Operation} {r : Run} {d : Depot} {x : ContentId}
  {b b' upper lower : Block}

/-- The block was submitted, and its chain reported it as finalized. -/
def Finalized (ops : List Operation) (r : Run) (b : Block) : Prop :=
  b ∈ blocksOf ops ∧ (b.chain, b.id) ∈ r.finalizations

instance (ops : List Operation) (r : Run) (b : Block) : Decidable (Finalized ops r b) :=
  inferInstanceAs (Decidable (_ ∧ _))

/-- The proposal that `lower` is made from was returned while the proposal that `upper` is made
from was out and `upper` was not final, and the item waited on the chain of `lower`, which is
further down. -/
def Overtaken (rules : Rules) (ops : List Operation) (x : ContentId) (upper lower : Block) : Prop :=
  upper.chain.Above lower.chain ∧ upper.chain ≠ lower.chain ∧
    ∃ before maxSize later r, ops = before ++ .propose lower.chain maxSize :: later ∧
      Run.after rules before = .ok r ∧ r.ledger.Pending lower.chain x ∧
      (∃ p ∈ r.proposals, p.Makes upper) ∧ (upper.chain, upper.id) ∉ r.finalizations ∧
      ∃ p, r.ledger.proposal rules lower.chain maxSize = .ok p ∧ p.Makes lower

/-- Where one proposal comes after another one, there is the point at which it was returned. -/
theorem proposals_split {p p' : Proposal} (h : Run.after rules ops = .ok r)
    (hsub : [p, p'].Sublist r.proposals) :
    ∃ before chain maxSize later r₀, ops = before ++ .propose chain maxSize :: later ∧
      Run.after rules before = .ok r₀ ∧ p ∈ r₀.proposals ∧
      r₀.ledger.proposal rules chain maxSize = .ok p' := by
  induction ops using List.reverseRecOn generalizing r with
  | nil =>
    obtain ⟨l, hl, rfl⟩ := after_eq h
    cases hsub
  | append_singleton ops op ih =>
    obtain ⟨r₀, hr₀, rfl⟩ := after_concat h
    -- the last operation may have nothing to do with it
    have hearlier : [p, p'].Sublist r₀.proposals →
        ∃ before chain maxSize later r₀, ops ++ [op] = before ++ .propose chain maxSize :: later ∧
          Run.after rules before = .ok r₀ ∧ p ∈ r₀.proposals ∧
          r₀.ledger.proposal rules chain maxSize = .ok p' := by
      intro hold
      obtain ⟨before, chain, maxSize, later, r₁, rfl, hrest⟩ := ih hr₀ hold
      exact ⟨before, chain, maxSize, later ++ [op], r₁, by simp, hrest⟩
    cases op with
    | propose chain maxSize =>
      cases hp : r₀.ledger.proposal rules chain maxSize with
      | error e => exact hearlier (perform_propose_error hp ▸ hsub)
      | ok q =>
        rw [perform_propose_ok hp] at hsub
        obtain ⟨first, last, heq, hfirst, hlast⟩ := List.sublist_append_iff.1 hsub
        rcases List.eq_nil_or_concat last with rfl | ⟨init, y, rfl⟩
        · rw [List.append_nil] at heq
          exact hearlier (heq ▸ hfirst)
        · -- the second proposal is the new one
          have hlen := hlast.length_le
          rw [List.concat_eq_append, List.length_append, List.length_singleton] at hlen
          obtain rfl : init = [] := List.length_eq_zero_iff.1 (by simpa using hlen)
          obtain rfl : y = q := by simpa using hlast
          obtain ⟨hone, htwo⟩ := List.append_inj' (show [p] ++ [p'] = first ++ [y] from heq) rfl
          rw [← hone] at hfirst
          rw [List.singleton_inj] at htwo
          subst htwo
          exact ⟨ops, chain, maxSize, [], r₀, rfl, hr₀, List.singleton_sublist.1 hfirst, hp⟩
    | _ => exact hearlier hsub

/-- The depot finalized what the run reports. -/
theorem Stocks.mem_finalized (h : Stocks ops r d) (hclear : Clear ops) (hb : b ∈ blocksOf ops)
    (hfin : (b.chain, b.id) ∈ r.finalizations) : b ∈ d.finalized := by
  rw [h.finalized] at hfin
  obtain ⟨y, hy, heq⟩ := List.mem_map.1 hfin
  rw [← hclear.coherent y (List.mem_cons_of_mem _ (h.lawful.submitted y hy)) b
    (List.mem_cons_of_mem _ hb) (congrArg Prod.snd heq)]
  exact hy

theorem Stocks.overtaken (h : Run.after rules ops = .ok r) (hclear : Clear ops)
    (hfaithful : Faithful rules ops) (hd : Stocks ops r d) (hupper : upper ∈ blocksOf ops)
    (hx : x ∈ upper.contentIds) (hx' : x ∈ lower.contentIds) (hclash : d.Clash upper lower) :
    Overtaken rules ops x upper lower := by
  obtain ⟨o, o', hsub, hmakes, hmakes', habove, hne⟩ := hclash
  have hproposals : [o.proposal, o'.proposal].Sublist r.proposals := by
    have hmapped := hsub.map (·.proposal)
    rw [hd.offers] at hmapped
    exact hmapped.trans List.filter_sublist
  obtain ⟨before, chain, maxSize, later, r₀, rfl, hr₀, hp, hp'⟩ := proposals_split h hproposals
  obtain ⟨d₀, hd₀⟩ := exists_stocks hr₀ hclear.of_append hfaithful.of_append
  -- at that point the item is held on the lower chain, so no block that carries it is final
  have hids : x ∈ o'.proposal.contentIds := hmakes'.contentIds ▸ hx'
  have hcontent : o'.proposal.content ≠ [] := by
    intro hnil
    unfold Proposal.contentIds at hids
    rw [hnil] at hids
    cases hids
  obtain ⟨hchain, hheld, -⟩ := Ledger.proposal_offer rules
    (tracks hr₀ (List.Subset.refl _)).arranged hd₀.shows hp' hcontent
  obtain ⟨hpending, hholds⟩ := hheld x hids
  obtain rfl : chain = lower.chain := hchain.symm.trans hmakes'.1
  refine ⟨habove, hne, before, maxSize, later, r₀, rfl, hr₀, hpending, ⟨o.proposal, hp, hmakes⟩,
    fun hfin => ?_, o'.proposal, hp', hmakes'⟩
  rw [hd₀.finalized] at hfin
  obtain ⟨y, hy, heq⟩ := List.mem_map.1 hfin
  -- a block of that identity is the upper one, and its items would be gone
  have hsubset : blocksOf before ⊆ blocksOf (before ++ .propose lower.chain maxSize :: later) := by
    rw [blocksOf_append]
    exact List.subset_append_left _ _
  obtain rfl := hclear.coherent y
    (List.mem_cons_of_mem _ (hsubset (hd₀.lawful.submitted y hy))) upper
    (List.mem_cons_of_mem _ hupper) (congrArg Prod.snd heq)
  exact hd₀.lawful.gone y hy x hx _ hholds

/-- Two finalized blocks list an item only if one of them was overtaken by the other. -/
theorem overtaken_of_shared (h : Run.after rules ops = .ok r) (hclear : Clear ops)
    (hfaithful : Faithful rules ops) (hb : Finalized ops r b) (hb' : Finalized ops r b')
    (hx : x ∈ b.contentIds) (hx' : x ∈ b'.contentIds) (hne : b ≠ b') :
    Overtaken rules ops x b b' ∨ Overtaken rules ops x b' b := by
  obtain ⟨d, hd⟩ := exists_stocks h hclear hfaithful
  exact (hd.lawful.shared b (hd.mem_finalized hclear hb.1 hb.2) b'
    (hd.mem_finalized hclear hb'.1 hb'.2) hne x hx hx').imp
    (hd.overtaken h hclear hfaithful hb.1 hx hx') (hd.overtaken h hclear hfaithful hb'.1 hx' hx)

/-- Where neither of two chains is further down than the other one, no item is listed twice: neither
by blocks of one chain, whatever merges and splits it went through, nor by chains side by side. -/
theorem listed_once_of_apart (h : Run.after rules ops = .ok r) (hclear : Clear ops)
    (hfaithful : Faithful rules ops) (hb : Finalized ops r b) (hb' : Finalized ops r b')
    (hx : x ∈ b.contentIds) (hx' : x ∈ b'.contentIds)
    (hapart : b.chain = b'.chain ∨ (¬b.chain.Above b'.chain ∧ ¬b'.chain.Above b.chain)) :
    b = b' := by
  by_contra hne
  rcases overtaken_of_shared h hclear hfaithful hb hb' hx hx' hne with
    ⟨habove, hchain, -⟩ | ⟨habove, hchain, -⟩
  · rcases hapart with heq | ⟨hnot, -⟩
    · exact hchain heq
    · exact hnot habove
  · rcases hapart with heq | ⟨-, hnot⟩
    · exact hchain heq.symm
    · exact hnot habove

/-- In a faithful run, no item is listed by two different finalized blocks exactly if no finalized
block that lists it was overtaken by another one. Blocks of one chain never list an item twice,
whatever merges and splits the chain went through, nor do blocks of chains side by side. -/
theorem listed_once_iff (h : Run.after rules ops = .ok r)
    (hitems : ((itemsOf ops).map (·.id)).Nodup)
    (hcoherent : Coherent (Block.genesis .root :: blocksOf ops))
    (hfaithful : Faithful rules ops) :
    ((∀ b b' x, Finalized ops r b → Finalized ops r b' → x ∈ b.contentIds → x ∈ b'.contentIds →
        b = b') ↔
      ∀ upper lower x, Finalized ops r upper → Finalized ops r lower → x ∈ upper.contentIds →
        x ∈ lower.contentIds → ¬Overtaken rules ops x upper lower) ∧
    ∀ b b' x, Finalized ops r b → Finalized ops r b' → x ∈ b.contentIds → x ∈ b'.contentIds →
      b.chain = b'.chain ∨ (¬b.chain.Above b'.chain ∧ ¬b'.chain.Above b.chain) → b = b' := by
  have hclear : Clear ops := ⟨hitems, hcoherent⟩
  refine ⟨⟨?_, ?_⟩, fun b b' x => listed_once_of_apart h hclear hfaithful⟩
  · -- a block is not overtaken by itself
    rintro honce upper lower x hupper hlower hx hx' ⟨-, hne, -⟩
    exact hne (congrArg (fun b : Block => b.chain) (honce upper lower x hupper hlower hx hx'))
  · intro hnone b b' x hb hb' hx hx'
    by_contra hne
    rcases overtaken_of_shared h hclear hfaithful hb hb' hx hx' hne with hover | hover
    · exact hnone b b' x hb hb' hx hx' hover
    · exact hnone b' b x hb' hb hx' hx hover

/-! ### The sample

The root block that carries the item is not final when the root splits, and the item moves to the
left child, which offers it again. -/

/-- Every block of the sample was proposed. -/
theorem sample_faithful : Faithful sampleRules sampleOps := by
  have hall : ∀ i < sampleOps.length, ∀ b ∈ sampleOps[i]?.bind Operation.block?,
      (Run.after sampleRules (sampleOps.take i)).toOption.any
        (fun r => r.proposals.any fun p => p.Makes b) = true := by decide +kernel
  intro i b hi
  obtain ⟨hlt, -⟩ := List.getElem?_eq_some_iff.1 hi
  obtain ⟨r, hr, hp⟩ := exists_after_of_any (hall i hlt b (by rw [hi]; rfl))
  obtain ⟨p, hp, hmakes⟩ := List.any_eq_true.1 hp
  exact ⟨r, hr, p, hp, of_decide_eq_true hmakes⟩

/-- The two blocks that carry the item. -/
def sampleUpper : Block := sampleBlock ⟨2⟩ .root ⟨1⟩ [sampleItem.ref] 2

def sampleLower : Block := sampleBlock ⟨3⟩ (.ofWord 2) ⟨1⟩ [sampleItem.ref] 2

theorem sample_finalized : ∃ r, Run.after sampleRules sampleOps = .ok r ∧
    Finalized sampleOps r sampleUpper ∧ Finalized sampleOps r sampleLower := by
  obtain ⟨r, hr, hboth⟩ := @exists_after_of_any sampleRules sampleOps
    (fun r => Finalized sampleOps r sampleUpper ∧ Finalized sampleOps r sampleLower)
    (by decide +kernel)
  exact ⟨r, hr, of_decide_eq_true hboth⟩

/-- Two finalized blocks of the sample list the item. -/
theorem sample_listed_twice : ∃ r b b' x, Run.after sampleRules sampleOps = .ok r ∧
    ((itemsOf sampleOps).map (·.id)).Nodup ∧
    Coherent (Block.genesis .root :: blocksOf sampleOps) ∧ Faithful sampleRules sampleOps ∧
    Finalized sampleOps r b ∧ Finalized sampleOps r b' ∧ x ∈ b.contentIds ∧ x ∈ b'.contentIds ∧
    b ≠ b' := by
  obtain ⟨r, hr, hupper, hlower⟩ := sample_finalized
  exact ⟨r, sampleUpper, sampleLower, sampleItem.id, hr, by decide, sample_coherent,
    sample_faithful, hupper, hlower, by decide, by decide, by decide⟩

/-- In the sample, a finalized block was overtaken by another one, and no other block of the root
chain lists the item. -/
theorem sample_overtaken : ∃ r, Run.after sampleRules sampleOps = .ok r ∧
    (∃ upper lower x, Finalized sampleOps r upper ∧ Finalized sampleOps r lower ∧
      x ∈ upper.contentIds ∧ x ∈ lower.contentIds ∧
      Overtaken sampleRules sampleOps x upper lower) ∧
    ∀ b, Finalized sampleOps r b → sampleItem.id ∈ b.contentIds → b.chain = .root →
      b = sampleUpper := by
  obtain ⟨r, hr, hupper, hlower⟩ := sample_finalized
  obtain ⟨hiff, hapart⟩ := listed_once_iff hr (by decide) sample_coherent sample_faithful
  refine ⟨r, hr, ?_, fun b hb hx hroot =>
    hapart b sampleUpper sampleItem.id hb hupper hx (by decide) (.inl hroot)⟩
  have hne : sampleUpper ≠ sampleLower := by decide
  by_contra hnone
  refine hne (hiff.2 (fun b b' x hb hb' hx hx' hover => ?_) _ _ sampleItem.id hupper hlower
    (by decide) (by decide))
  exact hnone ⟨b, b', x, hb, hb', hx, hx', hover⟩

end Run

end ShardLedger
