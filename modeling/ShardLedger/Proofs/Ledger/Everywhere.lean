import ShardLedger.Proofs.Ledger.Run
import ShardLedger.Proofs.Tree.Life

/-!
# What holds of every chain of a run

A ledger does few things to a single chain: it submits blocks to it, gives up what waits on it,
moves its content and its finalized blocks, splits children off it, and merges it into its parent. A
statement about one chain that outlives each of these holds of every chain of every run, live or
merged.

- `Chain.Lasting`: such a statement.
- `Branch.Every`, `Ledger.Every`: it holds of all chains.
- `Branch.Every.submit`: the chain that is submitted to, those below it, and new ones.
- `Run.every`: the chains of a run.
-/

namespace ShardLedger

variable {rules : Rules} {P : Chain → Prop}

/-- What is said of a chain is said of the children that start from blocks of chain `upper`. -/
def Chain.PassesOn (rules : Rules) (P : Chain → Prop) (upper : ChainId) : Prop :=
  ∀ side id seed graph cursor, upper.child? side = some id → seed.chain = upper →
    newGraph rules.config seed.id = .ok graph → P (start id seed graph .empty cursor)

/-- A statement about a chain in a reachable state that outlives all that is done to the chain. -/
structure Chain.Lasting (rules : Rules) (P : Chain → Prop) : Prop where
  reachable : ∀ {c}, P c → c.Reachable rules
  submit : ∀ {b : Branch} (roster : Roster) (block : Block), P b.chain →
    P (b.submit rules roster block).branch.chain
  discardPending : ∀ {c : Chain} (id : BlockId), P c → P (c.discardPending id).1
  retire : ∀ {c : Chain}, P c → P c.retire
  rest : ∀ {c : Chain} (content : ContentStore) (undelivered : List Block) (permanent : Bool),
    P c → P { c with content, undelivered, permanent }
  child : ∀ {c : Chain}, P c → PassesOn rules P c.id

theorem Chain.Lasting.of_bare {c d : Chain} (hP : Lasting rules P) (h : P c)
    (heq : d.bare = c.bare) : P d := by
  rw [eq_of_bare heq]
  exact hP.rest d.content c.undelivered c.permanent h

namespace Branch

variable {b b' old new : Branch} {c : Chain} {p : List Side} {roster roster' : Roster}
  {seen xs : List Block} {x : Block}

/-- Every chain of the branch is as `P` says. -/
def Every (P : Chain → Prop) (b : Branch) : Prop :=
  ∀ p c, b.chainAt p = some c → P c

/-- Every chain below the topmost one is. -/
def EveryBelow (P : Chain → Prop) (b : Branch) : Prop :=
  ∀ p ≠ [], ∀ c, b.chainAt p = some c → P c

theorem every_iff : b.Every P ↔ P b.chain ∧ b.EveryBelow P := by
  refine ⟨fun h => ⟨h [] _ (chainAt_nil b), fun p _ => h p⟩, fun ⟨htop, hbelow⟩ p c hc => ?_⟩
  by_cases hp : p = []
  · rw [hp, chainAt_nil, Option.some.injEq] at hc
    exact hc ▸ htop
  · exact hbelow p hp c hc

theorem every_leaf (h : P c) : (leaf c).Every P := by
  refine every_iff.2 ⟨h, fun p hp d hd => ?_⟩
  rw [chainAt_leaf hp] at hd
  cases hd

theorem EveryBelow.withChain (h : b.EveryBelow P) (c : Chain) :
    (b.withChain c).EveryBelow P := fun p hp d hd =>
  h p hp d ((chainAt_withChain c b hp).symm.trans hd)

theorem Every.withChain (h : b.Every P) (hc : P c) : (b.withChain c).Every P :=
  every_iff.2 ⟨(chain_withChain c b).symm ▸ hc, (every_iff.1 h).2.withChain c⟩

theorem Every.at? (h : b.Every P) (hsub : b.at? p = some old) : old.Every P :=
  fun q c hc => h (p ++ q) c ((chainAt_append hsub q).trans hc)

theorem Every.replace (h : b.Every P) (hnew : new.Every P) (hold : b.at? p = some old) :
    (replace new p b).Every P := by
  intro q c hc
  by_cases hprefix : p <+: q
  · obtain ⟨s, rfl⟩ := hprefix
    rw [chainAt_replace_on hold] at hc
    exact hnew s c hc
  · rw [chainAt_replace_off hprefix] at hc
    exact h q c hc

/-! ### Submitting -/

section

variable (hP : Chain.Lasting rules P)
include hP

/-- Chains below keep their states, content apart, and new ones have just started. -/
theorem Settled.everyBelow (hs : Settled rules roster b xs b' roster')
    (hown : ∀ x ∈ xs, x.chain = b.chain.id) (hchild : Chain.PassesOn rules P b.chain.id)
    (h : b.EveryBelow P) : b'.EveryBelow P := by
  intro p hp c hc
  have hbare : b'.bareAt p = some c.bare := bareAt_eq_some.2 ⟨c, hc, rfl⟩
  rcases hs.below with ⟨-, hkept⟩ | ⟨seed, left, right, graph, cursor, hsplit⟩
  · rw [hkept p hp] at hbare
    obtain ⟨d, hd, heq⟩ := bareAt_eq_some.1 hbare
    exact hP.of_bare (h p hp d hd) heq.symm
  · have hseed : seed.chain = b.chain.id := by
      obtain ⟨before, after, rfl⟩ := hsplit.seeded
      exact hown seed (by simp)
    have hstart {side : Side} {id : ChainId} (hside : b.chain.id.child? side = some id)
        (heq : c.bare = Chain.start id seed graph .empty cursor) : P c :=
      hP.of_bare (hchild _ _ _ _ _ hside hseed hsplit.newGraph) heq
    rw [hsplit.children p hp] at hbare
    split at hbare
    · exact hstart hsplit.left_child (Option.some.inj hbare).symm
    · split at hbare
      · exact hstart hsplit.right_child (Option.some.inj hbare).symm
      · cases hbare

/-- A block that enters may seed children. It leaves the number of the chain as it is. -/
theorem EveryBelow.apply (roster : Roster) (horderly : b.chain.Orderly seen)
    (hready : b.chain.Ready seen (x :: xs)) (hchild : Chain.PassesOn rules P b.chain.id)
    (h : b.EveryBelow P) : (b.apply rules roster x).1.EveryBelow P ∧
      (b.apply rules roster x).1.chain.id = b.chain.id := by
  cases ha : b.chain.apply x with
  | none =>
    rw [show b.apply rules roster x = (b, roster, []) from apply_of_none ha]
    exact ⟨h, rfl⟩
  | some a =>
    obtain ⟨top, htop, -⟩ := horderly.anchored
    have he := Chain.apply_entered horderly.toSound
      (hready.admitted x (List.mem_cons_self ..)) htop ha
    have hs := apply_settled rules roster ha
    have hid : (b.withChain a.outcome.1).chain.id = b.chain.id := by
      rw [chain_withChain, he.rest]
    refine ⟨hs.everyBelow hP (fun y hy => ?_) (hid ▸ hchild) (h.withChain _), hs.id.trans hid⟩
    rw [hid]
    exact (he.links.admitted y hy).chain

theorem EveryBelow.applyAll : ∀ (xs : List Block) {b : Branch} (roster : Roster),
    b.chain.Orderly seen → b.chain.Ready seen xs → Chain.PassesOn rules P b.chain.id →
      b.EveryBelow P → (b.applyAll rules roster xs).1.EveryBelow P
  | [], _, _, _, _, _, h => h
  | x :: rest, b, roster, horderly, hready, hchild, h => by
    obtain ⟨hbelow, hid⟩ := h.apply hP roster horderly hready hchild
    obtain ⟨hnext, hlater⟩ : (b.apply rules roster x).1.chain.Orderly seen ∧
        (b.apply rules roster x).1.chain.Ready seen rest := apply_orderly horderly hready
    have hnextChild : Chain.PassesOn rules P (b.apply rules roster x).1.chain.id := hid ▸ hchild
    exact EveryBelow.applyAll rest (b.apply rules roster x).2.1 hnext hlater hnextChild hbelow

theorem Every.submit (h : b.Every P) (roster : Roster) (block : Block) :
    (b.submit rules roster block).branch.Every P := by
  obtain ⟨htop, hbelow⟩ := every_iff.1 h
  obtain ⟨seen, horderly⟩ := (hP.reachable htop).orderly
  refine every_iff.2 ⟨hP.submit roster block htop, ?_⟩
  have hsubmitted := b.submitted rules roster block
  generalize b.submit rules roster block = s at hsubmitted ⊢
  cases hsubmitted with
  | screened => exact hbelow
  | settled => exact hbelow.withChain _
  | @entered parent c xs hscreen hreceive =>
    have hmore : b.chain.Orderly (block :: seen) := horderly.mono (List.subset_cons_self ..)
    obtain ⟨hb, hparent⟩ := Chain.admitted_of_screen (List.mem_cons_self ..) hscreen
    obtain ⟨hnext, hready, hakin, -⟩ := hmore.released hb hparent hreceive
    refine (hbelow.withChain c).applyAll hP xs roster (by rwa [chain_withChain])
      (by rwa [chain_withChain]) ?_
    rw [chain_withChain, hakin.id]
    exact hP.child htop

end

end Branch

namespace Ledger

variable {l l' : Ledger} {id : ChainId} {b : Branch}

/-- Every chain of the ledger is as `P` says, merged chains included. -/
structure Every (P : Chain → Prop) (l : Ledger) : Prop where
  live : l.root.Every P
  retired : ∀ c ∈ l.retired, P c

theorem Every.branch? (h : l.Every P) (hb : l.branch? id = some b) : b.Every P := by
  rcases branch?_cases hb with hlive | ⟨-, c, hc, -, rfl⟩
  · exact h.live.at? hlive
  · exact Branch.every_leaf (h.retired c hc)

theorem Every.replace (h : l.Every P) (hb : b.Every P) : (l.replace id b).Every P := by
  unfold Ledger.replace
  split
  · rename_i old hold
    exact ⟨h.live.replace hb hold, h.retired⟩
  · refine ⟨h.live, fun c hc => ?_⟩
    obtain ⟨c₀, hc₀, rfl⟩ := List.mem_map.1 hc
    split
    · exact (Branch.every_iff.1 hb).1
    · exact h.retired c₀ hc₀

/-- One chain changes by itself. -/
theorem Every.update (h : l.Every P) {f : Chain → Chain} (hf : ∀ c : Chain, P c → P (f c)) :
    (l.update id f).Every P := by
  unfold Ledger.update
  split
  · rename_i b hb
    have hevery := h.branch? hb
    exact h.replace (hevery.withChain (hf _ (Branch.every_iff.1 hevery).1))
  · exact h

section

variable (hP : Chain.Lasting rules P)
include hP

/-- A ledger starts with the root alone. -/
theorem every_create
    (hroot : ∀ graph, Chain.newGraph rules.config (Block.genesis .root).id = .ok graph →
      P (Chain.start .root (Block.genesis .root) graph .empty .top))
    (h : create rules = .ok l) : l.Every P := by
  obtain ⟨graph, hgraph, rfl⟩ := Run.create_eq h
  exact ⟨Branch.every_leaf (hP.rest _ _ true (hroot graph hgraph)), fun _ hc => nomatch hc⟩

/-! ### Operations -/

theorem Every.submitBlock (h : l.Every P) (block : Block) :
    (l.submitBlock rules block).1.Every P := by
  unfold Ledger.submitBlock
  split
  · exact h
  unfold submitTo
  split
  · exact h
  · rename_i b hb
    have hroster (roster : Roster) : ({ l with roster } : Ledger).Every P :=
      ⟨h.live, h.retired⟩
    exact (hroster _).replace ((h.branch? hb).submit hP l.roster block)

theorem Every.discardPending (h : l.Every P) (chain : ChainId) (block : BlockId) :
    (l.discardPending chain block).1.Every P := by
  rw [discardPending_eq]
  exact h.update fun _ hc => hP.discardPending block hc

theorem Every.submitContent (h : l.Every P) (item : ContentItem) :
    (l.submitContent item).1.Every P := by
  unfold Ledger.submitContent
  dsimp only
  split
  · exact h
  · rename_i b hb
    have hevery := h.live.at? hb
    have hcontent := hP.rest (b.chain.content.submit item).1 b.chain.undelivered
      b.chain.permanent (Branch.every_iff.1 hevery).1
    exact ⟨h.live.replace (hevery.withChain hcontent) hb, h.retired⟩

theorem Every.invalidate (h : l.Every P) (content : ContentId) :
    (l.invalidate content).1.Every P := by
  rcases invalidate_cases l content with ⟨hsame, -⟩ | ⟨id, -, b, -, -, hupdate⟩
  · rwa [hsame]
  · rw [hupdate]
    exact h.update fun c hc => hP.rest (c.content.delete content).1 c.undelivered c.permanent hc

/-! ### Passes -/

/-- The children of a merged chain retire without their content. -/
theorem Every.mergeAt? (h : l.Every P) (hm : l.mergeAt? rules id = some l') : l'.Every P := by
  obtain ⟨c, lc, rc, hat, rfl⟩ := mergeAt?_eq_some hm
  have hbranch := h.live.at? hat
  have hmerged : ∀ d : Chain, P d → P d.merged := fun d hd =>
    hP.rest .empty d.undelivered d.permanent (hP.retire hd)
  refine ⟨h.live.replace (Branch.every_leaf ?_) hat, fun d hd => ?_⟩
  · exact hP.rest _ c.undelivered c.permanent (hbranch [] c rfl)
  · rcases List.mem_append.1 hd with hd | hd
    · exact h.retired d hd
    · rcases List.mem_cons.1 hd with rfl | hd
      · exact hmerged lc (hbranch [.left] lc rfl)
      · rw [List.mem_singleton.1 hd]
        exact hmerged rc (hbranch [.right] rc rfl)

theorem Every.linearize (h : l.Every P) : l.linearize.1.Every P := by
  have hall : ∀ (sources : List Source) {l : Ledger}, l.Every P →
      (sources.foldl setQueue l).Every P := by
    intro sources
    induction sources with
    | nil => exact fun h => h
    | cons s rest ih =>
      exact fun h => ih (h.update fun c hc => hP.rest c.content s.queue c.permanent hc)
  rw [(linearize_eq l).1]
  exact hall _ ⟨h.live, h.retired⟩

omit hP in
theorem Every.removeDrained (h : l.Every P) : l.removeDrained.1.Every P := by
  have hall : ∀ (ids : List ChainId) {l : Ledger}, l.Every P → (ids.foldl remove l).Every P := by
    intro ids
    induction ids with
    | nil => exact fun h => h
    | cons id rest ih =>
      exact fun h => ih ⟨h.live, fun c hc => h.retired c (List.mem_filter.1 hc).1⟩
  exact hall _ h

theorem Every.tick (h : l.Every P) : (l.tick rules).ledger.Every P := by
  have hregistered : l.registerSpawned.1.Every P := ⟨h.live, h.retired⟩
  have hmerged : (l.registerSpawned.1.mergeIdle rules).1.Every P :=
    mergeIdle_closed (fun _ _ _ hl hm => hl.mergeAt? hP hm) hregistered
  exact (hmerged.linearize hP).removeDrained

theorem Every.settleWithin : ∀ (fuel : Nat) {l : Ledger}, l.Every P →
    (Ledger.settleWithin rules fuel l).1.Every P
  | 0, _, h => h
  | fuel + 1, _, h => by
    unfold Ledger.settleWithin
    dsimp only
    split
    · exact h.tick hP
    · exact Every.settleWithin fuel (h.tick hP)

theorem Every.settle (h : l.Every P) : (l.settle rules).1.Every P := by
  unfold Ledger.settle
  exact h.settleWithin hP _

end

end Ledger

namespace Run

variable {ops : List Operation} {r : Run} (hP : Chain.Lasting rules P)
include hP

theorem every_perform (h : r.ledger.Every P) (op : Operation) :
    (r.perform rules op).ledger.Every P := by
  cases op with
  | submitBlock block => exact h.submitBlock hP block
  | submitContent item => exact h.submitContent hP item
  | invalidate content => exact h.invalidate hP content
  | propose chain maxSize =>
    cases hp : r.ledger.proposal rules chain maxSize with
    | ok p => exact perform_propose_ok hp ▸ h
    | error e => exact (perform_propose_error hp).symm ▸ h
  | discardPending chain block => exact h.discardPending hP chain block
  | tick => exact h.tick hP
  | settle => exact h.settle hP

/-- What holds of the root at the start and outlives all that is done to a chain, holds of every
chain of a run. -/
theorem every
    (hroot : ∀ graph, Chain.newGraph rules.config (Block.genesis .root).id = .ok graph →
      P (Chain.start .root (Block.genesis .root) graph .empty .top))
    (h : Run.after rules ops = .ok r) : r.ledger.Every P := by
  obtain ⟨l, hl, rfl⟩ := after_eq h
  have hall : ∀ (ops : List Operation) {r : Run}, r.ledger.Every P →
      (ops.foldl (perform rules) r).ledger.Every P := by
    intro ops
    induction ops with
    | nil => exact fun h => h
    | cons op ops ih => exact fun h => ih (every_perform hP h op)
  exact hall ops (Ledger.every_create hP hroot hl)

end Run

end ShardLedger
