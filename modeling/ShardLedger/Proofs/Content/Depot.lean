import Mathlib.Data.List.Induction
import Mathlib.Logic.Relation
import ShardLedger.Chain.Basic
import ShardLedger.Proofs.Order.Conservation
import ShardLedger.Proofs.Tree.Paths

/-!
# Where content is

The depot is what is left of a ledger if one looks only at content: which chain holds which item,
what was offered to proposers, and which blocks were finalized. Items move down when a chain
splits and up when its children are merged; they leave when a block that carries them is finalized
on the chain or above it. A record is kept of where every chain started and what it has finalized
since, so that it can be told which offers a chain can still take up.

- `Offer`, `Depot`, `Depot.Step`: the system.
- `Links.unique`: a block shows where the chain that it stands on started.
-/

namespace ShardLedger

/-- The content items that are offered. -/
def Proposal.contentIds (p : Proposal) : List ContentId := p.content.map (·.id)

/-- The block has the chain, the parent and the content that were proposed. -/
def Proposal.Makes (p : Proposal) (b : Block) : Prop :=
  p.chain = b.chain ∧ b.previous = [p.previous] ∧ b.content = p.content

instance (p : Proposal) (b : Block) : Decidable (p.Makes b) :=
  inferInstanceAs (Decidable (_ ∧ _ ∧ _))

theorem Proposal.Makes.contentIds {p : Proposal} {b : Block} (h : p.Makes b) :
    b.contentIds = p.contentIds := by
  unfold Block.contentIds Proposal.contentIds
  rw [h.2.2]

/-- A proposal, with the block that its chain had started from and the blocks from there to the one
that it extends. -/
structure Offer where
  proposal : Proposal
  genesis : Block
  line : List Block

/-- The chain that an offer was made for. -/
abbrev Offer.chain (o : Offer) : ChainId := o.proposal.chain

/-- The items that are offered. -/
abbrev Offer.ids (o : Offer) : List ContentId := o.proposal.contentIds

theorem Offer.mem_ids {o : Offer} {b : Block} (h : o.proposal.Makes b) {x : ContentId}
    (hx : x ∈ b.contentIds) : x ∈ o.ids := by
  rw [h.contentIds] at hx
  exact hx

/-- A ledger as far as content is concerned. -/
structure Depot where
  /-- The chains that take blocks. -/
  live : ChainId → Prop
  holds : ChainId → ContentId → Prop
  /-- The block that a chain started from, and what it has finalized since. -/
  genesis : ChainId → Block
  run : ChainId → List Block
  /-- The proposals with content, oldest first. -/
  offers : List Offer
  finalized : List Block
  /-- All items that ever came in. -/
  stored : List ContentId

/-- The block that a chain may start from: the first of all, or one of another chain. -/
def Seed (seen : List Block) (c : ChainId) (g : Block) : Prop :=
  g = Block.genesis .root ∨ (g ∈ seen ∧ g.chain ≠ c)

namespace Depot

/-- Only the root chain is live, and nothing has happened yet. -/
def start : Depot where
  live q := q = .root
  holds _ _ := False
  genesis _ := Block.genesis .root
  run _ := []
  offers := []
  finalized := []
  stored := []

/-- The last block that a chain finalized, or the one that it started from. -/
def anchor (d : Depot) (c : ChainId) : Block := (d.run c).getLastD (d.genesis c)

/-- The offer can still be taken up: its chain has not ended since. -/
def Potent (d : Depot) (o : Offer) : Prop := d.live o.chain ∧ d.genesis o.chain = o.genesis

/-- What can happen to a depot. -/
inductive Step (seen : List Block) : Depot → Depot → Prop
  /-- Items are taken out, or chains end and hand theirs to the chain above. -/
  | move {d : Depot} {live' : ChainId → Prop} {holds' : ChainId → ContentId → Prop}
      (live : ∀ c, live' c → d.live c)
      (source : ∀ c x, holds' c x → live' c ∧
        (d.holds c x ∨ ∃ q, d.holds q x ∧ q.parent? = some c ∧ ¬live' q)) :
      Step seen d { d with live := live', holds := holds' }
  /-- A new item is stored on a chain. -/
  | store {d : Depot} {c : ChainId} {x : ContentId} {holds' : ChainId → ContentId → Prop}
      (new : x ∉ d.stored)
      (source : ∀ q y, holds' q y → d.live q ∧ (d.holds q y ∨ (q = c ∧ y = x))) :
      Step seen d { d with holds := holds', stored := x :: d.stored }
  /-- Items of a chain are offered, unless a block on the way to the proposed one carries them. -/
  | offer {d : Depot} {o : Offer} {ahead : List Block} (live : d.live o.chain)
      (genesis : o.genesis = d.genesis o.chain) (line : o.line = d.run o.chain ++ ahead)
      (links : Links seen o.chain (d.anchor o.chain) ahead)
      (previous : o.proposal.previous = (o.line.getLastD o.genesis).id)
      (held : ∀ x ∈ o.ids, d.holds o.chain x ∧ ∀ b ∈ ahead, x ∉ b.contentIds) :
      Step seen d { d with offers := d.offers ++ [o] }
  /-- A chain finalizes a block whose content was offered, and that content is removed on the chain
  and below. -/
  | finalize {d : Depot} {c : ChainId} {b : Block} {holds' : ChainId → ContentId → Prop}
      (live : d.live c) (follows : Follows seen c (d.anchor c) b)
      (offered : ∀ x ∈ b.contentIds, ∃ o ∈ d.offers, o.proposal.Makes b)
      (source : ∀ q x, holds' q x → d.holds q x ∧ (c.Above q → x ∉ b.contentIds)) :
      Step seen d { d with
        holds := holds', run := fun q => if q = c then d.run c ++ [b] else d.run q
        finalized := d.finalized ++ [b] }
  /-- A chain splits at its anchor, which no offer starts from yet, and its items are shared out. -/
  | split {d : Depot} {c : ChainId} {born : List ChainId} {live' : ChainId → Prop}
      {holds' : ChainId → ContentId → Prop} (chain : d.live c) (started : d.run c ≠ [])
      (fresh : ∀ o ∈ d.offers, o.genesis ≠ d.anchor c)
      (children : ∀ q ∈ born, q.parent? = some c)
      (live : ∀ q, live' q → q ∈ born ∨ d.live q)
      (source : ∀ q x, holds' q x → live' q ∧
        ((q ∈ born ∧ d.holds c x) ∨ (q ∉ born ∧ d.holds q x)))
      (apart : ∀ x, ∀ q ∈ c :: born, ∀ q' ∈ c :: born, holds' q x → holds' q' x → q = q') :
      Step seen d { d with
        live := live', holds := holds'
        genesis := fun q => if q ∈ born then d.anchor c else d.genesis q
        run := fun q => if q ∈ born then [] else d.run q }

/-- Any number of steps. -/
abbrev Steps (seen : List Block) : Depot → Depot → Prop := Relation.ReflTransGen (Step seen)

end Depot

/-! ### Lines -/

section Lines

variable {seen : List Block} {c : ChainId} {g g' : Block}

theorem Links.mono {seen' : List Block} (hsub : seen ⊆ seen') : ∀ {xs : List Block} {a : Block},
    Links seen c a xs → Links seen' c a xs
  | [], _, _ => trivial
  | _ :: _, _, h => ⟨{ h.1 with mem := hsub h.1.mem }, h.2.mono hsub⟩

theorem Seed.mono {seen' : List Block} (h : Seed seen c g) (hsub : seen ⊆ seen') :
    Seed seen' c g := h.imp_right fun hmem => ⟨hsub hmem.1, hmem.2⟩

theorem Seed.mem (h : Seed seen c g) : g ∈ Block.genesis .root :: seen :=
  h.elim (fun heq => heq ▸ List.mem_cons_self ..) fun hmem => List.mem_cons_of_mem _ hmem.1

/-- No block of a line is one that the chain may start from. -/
theorem Seed.ne_of_follows {a b : Block} (h : Seed seen c g) (hb : Follows seen c a b) : g ≠ b := by
  rintro rfl
  rcases h with rfl | ⟨-, hchain⟩
  · cases hb.parent
  · exact hchain hb.chain

/-- Where identities are not shared, the last block of a line tells the whole line and the block
that it starts from. -/
theorem Links.unique (hcoherent : Coherent (Block.genesis .root :: seen)) {xs : List Block}
    (hg : Seed seen c g) (hg' : Seed seen c g') (h : Links seen c g xs) {xs' : List Block}
    (h' : Links seen c g' xs') (hlast : (xs.getLastD g).id = (xs'.getLastD g').id) :
    g = g' ∧ xs = xs' := by
  -- back from the last block: equal blocks name equal parents
  induction xs using List.reverseRecOn generalizing xs' with
  | nil =>
    rcases List.eq_nil_or_concat xs' with rfl | ⟨ys', y', rfl⟩
    · exact ⟨hcoherent g hg.mem g' hg'.mem hlast, rfl⟩
    · -- the first block would stand in the middle of the other line
      rw [List.concat_eq_append] at h' hlast
      have hy := (links_append.1 h').2.1
      rw [List.getLastD_concat] at hlast
      exact absurd (hcoherent g hg.mem y' (List.mem_cons_of_mem _ hy.mem) hlast)
        (hg.ne_of_follows hy)
  | append_singleton ys y ih =>
    obtain ⟨hys, hy, -⟩ := links_append.1 h
    rw [List.getLastD_concat] at hlast
    rcases List.eq_nil_or_concat xs' with rfl | ⟨ys', y', rfl⟩
    · exact absurd (hcoherent g' hg'.mem y (List.mem_cons_of_mem _ hy.mem) hlast.symm)
        (hg'.ne_of_follows hy)
    · rw [List.concat_eq_append] at h' hlast ⊢
      obtain ⟨hys', hy', -⟩ := links_append.1 h'
      rw [List.getLastD_concat] at hlast
      obtain rfl := hcoherent y (List.mem_cons_of_mem _ hy.mem) y'
        (List.mem_cons_of_mem _ hy'.mem) hlast
      -- so the two last blocks are one, and so are the lines before them
      have hparents := hy.parent.symm.trans hy'.parent
      obtain ⟨rfl, rfl⟩ := ih hys hys' (Option.some.inj hparents)
      exact ⟨rfl, rfl⟩

end Lines

end ShardLedger
