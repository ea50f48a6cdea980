import Mathlib.Order.WellFoundedSet
import ShardLedger.Proofs.Fork.Freeing

/-!
# Any order of arrival

Blocks arrive in any order, each of them naming any number of others. A block that names unknown
blocks waits for these; any other is released with all that it sets free. Whatever the order, a
block is released as soon as it has arrived with everything that it descends from, once, and after
the blocks that it names.

- `Ancestor`, `Dag`: blocks that descend from one another without cycles.
- `Intake`, `Intake.arriveAll`: blocks that arrive at a backlog.
- `Intake.Sound`: what holds after every arrival, and `Intake.Sound.mem_released_iff`: which blocks
  are released then.
- `Intake.confluent`: what is known does not depend on the order of arrival.
-/

namespace ShardLedger

/-- Block `a` is named by block `b`, and both are among the blocks. -/
def Names (blocks : List Block) (a b : Block) : Prop := a ∈ blocks ∧ b ∈ blocks ∧ a.id ∈ b.previous

/-- Block `b` descends from block `a`. -/
def Ancestor (blocks : List Block) : Block → Block → Prop := Relation.TransGen (Names blocks)

/-- Blocks of distinct names, none of which descends from itself. What they name besides each other
is known initially, and none of them is. -/
structure Dag (initial : List BlockId) (blocks : List Block) : Prop where
  distinct : (blocks.map (·.id)).Nodup
  acyclic : ∀ b, ¬Ancestor blocks b b
  outside : ∀ b ∈ blocks, ∀ k ∈ b.previous, k ∉ blocks.map (·.id) → k ∈ initial
  unknown : ∀ b ∈ blocks, b.id ∉ initial

theorem Ancestor.mem {blocks : List Block} {a b : Block} (h : Ancestor blocks a b) :
    a ∈ blocks ∧ b ∈ blocks := by
  obtain ⟨_, hfirst, -⟩ := Relation.TransGen.head'_iff.1 h
  obtain ⟨_, -, hlast⟩ := Relation.TransGen.tail'_iff.1 h
  exact ⟨hfirst.1, hlast.2.1⟩

/-- What grows from every block to those that name it grows along lines of descent. -/
theorem Ancestor.lt {blocks : List Block} {f : Block → Nat}
    (hf : ∀ a ∈ blocks, ∀ b ∈ blocks, a.id ∈ b.previous → f a < f b) {a b : Block}
    (h : Ancestor blocks a b) : f a < f b := by
  induction h with
  | single hnames => exact hf _ hnames.1 _ hnames.2.1 hnames.2.2
  | tail _ hnames ih => exact ih.trans (hf _ hnames.1 _ hnames.2.1 hnames.2.2)

/-- Without cycles, what holds of a block whenever it holds of all that the block descends from
holds of every block. -/
theorem Dag.induction {initial : List BlockId} {blocks : List Block} {P : Block → Prop}
    (hd : Dag initial blocks)
    (step : ∀ b ∈ blocks, (∀ a, Ancestor blocks a b → P a) → P b) : ∀ b ∈ blocks, P b := by
  have : IsStrictOrder Block (Ancestor blocks) :=
    { irrefl := hd.acyclic, trans := fun _ _ _ => Relation.TransGen.trans }
  have hwf : {b | b ∈ blocks}.WellFoundedOn (Ancestor blocks) :=
    (List.finite_toSet blocks).wellFoundedOn
  exact fun b hb => hwf.induction hb fun b hb ih => step b hb fun a ha => ih a ha.mem.1 ha

/-- A backlog that blocks arrive at, with the blocks released so far, in order. -/
structure Intake where
  backlog : Backlog
  released : List Block

namespace Intake

/-- What is known: the released blocks, besides what was known initially. -/
def known (initial : List BlockId) (s : Intake) : List BlockId :=
  initial ++ s.released.map (·.id)

/-- A block arrives. If it names unknown blocks it waits for them, otherwise it is released. -/
def arrive (initial : List BlockId) (s : Intake) (block : Block) : Intake :=
  match block.previous.filter (· ∉ s.known initial) with
  | [] => ⟨(s.backlog.release block).1, s.released ++ (s.backlog.release block).2⟩
  | missing => ⟨s.backlog.enlist block missing, s.released⟩

/-- Blocks arrive one after the other, from the first one on. -/
def arriveAll (initial : List BlockId) (arrivals : List Block) : Intake :=
  arrivals.foldl (arrive initial) ⟨.empty, []⟩

variable {initial : List BlockId} {blocks arrived arrivals : List Block} {s : Intake}
  {block a b : Block} {k : BlockId}

theorem mem_known : k ∈ s.known initial ↔ k ∈ initial ∨ k ∈ s.released.map (·.id) :=
  List.mem_append

/-- What holds after some blocks have arrived. -/
structure Sound (initial : List BlockId) (arrived : List Block) (s : Intake) : Prop where
  released : ∀ b ∈ s.released, b ∈ arrived
  once : (s.released.map (·.id)).Nodup
  order : InOrder (· ∈ initial) s.released
  /-- A block that has arrived and is not released waits for the unknown ones that it names. -/
  listed : ∀ k b, s.backlog.Listed k b ↔
    b ∈ arrived ∧ b ∉ s.released ∧ k ∈ b.previous ∧ k ∉ s.known initial
  waits : ∀ b ∈ arrived, b ∉ s.released → ∃ k ∈ b.previous, k ∉ s.known initial
  filled : s.backlog.Filled

theorem sound_start : Sound initial [] ⟨.empty, []⟩ where
  released _ hb := hb
  once := List.nodup_nil
  order := trivial
  listed _ _ := ⟨fun hb => absurd hb Backlog.not_listed_empty, fun hb => nomatch hb.1⟩
  waits _ hb := nomatch hb
  filled := Backlog.filled_empty

/-- Where blocks have distinct names, the backlog lists each under all that it waits for. -/
theorem Sound.indexed (h : s.Sound initial arrived) (hdistinct : (arrived.map (·.id)).Nodup) :
    s.backlog.Indexed where
  named hb := ((h.listed _ _).1 hb).2.2.1
  complete {k b k'} hb hk hmissing := by
    obtain ⟨harrived, hnot, -, -⟩ := (h.listed k b).1 hb
    obtain ⟨b', hb'⟩ := h.filled k' hmissing
    exact (h.listed k' b).2 ⟨harrived, hnot, hk, ((h.listed k' b').1 hb').2.2.2⟩
  single hb hb' hid :=
    List.inj_on_of_nodup_map hdistinct ((h.listed _ _).1 hb).1 ((h.listed _ _).1 hb').1 hid

/-- A new block is none of those that have arrived, nor does it share a name with one. -/
theorem Sound.fresh (h : s.Sound initial arrived) (hnew : block.id ∉ arrived.map (·.id)) :
    block ∉ s.released ∧ ∀ k b, s.backlog.Listed k b → b.id ≠ block.id := by
  refine ⟨fun hb => hnew (List.mem_map_of_mem (h.released _ hb)), fun k b hb hid => hnew ?_⟩
  exact hid ▸ List.mem_map_of_mem ((h.listed k b).1 hb).1

/-- A block that names unknown blocks waits for them. -/
theorem Sound.wait (h : s.Sound initial arrived) (hnew : block.id ∉ arrived.map (·.id))
    (hsome : block.previous.filter (· ∉ s.known initial) ≠ []) :
    Sound initial (arrived ++ [block])
      ⟨s.backlog.enlist block (block.previous.filter (· ∉ s.known initial)), s.released⟩ := by
  obtain ⟨hnot, hnames⟩ := h.fresh hnew
  have hmissing : ∀ k, k ∈ block.previous.filter (· ∉ s.known initial) ↔
      k ∈ block.previous ∧ k ∉ s.known initial := by
    intro k
    rw [List.mem_filter, decide_eq_true_eq]
  refine
    { released := fun b hb => List.mem_append_left _ (h.released b hb), once := h.once
      order := h.order, listed := fun k b => ?_, waits := fun b hb hout => ?_
      filled := h.filled.enlist _ }
  · rw [Backlog.listed_enlist_all _ fun k b hb hid => absurd hid (hnames k b hb), h.listed,
      hmissing, List.mem_append, List.mem_singleton]
    constructor
    · rintro (⟨hb, hrest⟩ | ⟨hk, rfl⟩)
      · exact ⟨.inl hb, hrest⟩
      · exact ⟨.inr rfl, hnot, hk⟩
    · rintro ⟨hb | rfl, hrest⟩
      · exact .inl ⟨hb, hrest⟩
      · exact .inr ⟨hrest.2, rfl⟩
  · rcases List.mem_append.1 hb with hb | hb
    · exact h.waits b hb hout
    · rw [List.mem_singleton.1 hb]
      obtain ⟨k, hk⟩ := List.exists_mem_of_ne_nil _ hsome
      exact ⟨k, (hmissing k).1 hk⟩

section Release

variable {q : Backlog} {free : List Block}

/-- What is set free has arrived, and was waiting. -/
theorem Sound.waiting_of_freed (h : s.Sound initial arrived)
    (hfreed : s.backlog.Freed [block.id] q free) (hb : b ∈ free) :
    b ∈ arrived ∧ b ∉ s.released := by
  obtain ⟨⟨k, hlisted⟩, -⟩ := (hfreed.mem_iff b).1 hb
  have hwaits := (h.listed k b).1 hlisted
  exact ⟨hwaits.1, hwaits.2.1⟩

/-- After a release, those blocks wait that waited and were not set free, and only for what is still
unknown. -/
theorem Sound.listed_release (h : s.Sound initial arrived)
    (hnames : ∀ k b, s.backlog.Listed k b → b.id ≠ block.id)
    (hfreed : s.backlog.Freed [block.id] q free) :
    q.Listed k b ↔ b ∈ arrived ++ [block] ∧ b ∉ s.released ++ block :: free ∧ k ∈ b.previous ∧
      k ∉ known initial ⟨q, s.released ++ block :: free⟩ := by
  have hnow : k ∈ known initial ⟨q, s.released ++ block :: free⟩ ↔
      k ∈ s.known initial ∨ k ∈ [block.id] ∨ k ∈ free.map (·.id) := by
    rw [mem_known, mem_known, List.map_append, List.mem_append, List.map_cons, List.mem_cons,
      List.mem_singleton, or_assoc]
  have hmem : b ∈ s.released ++ block :: free ↔ b ∈ s.released ∨ b = block ∨ b ∈ free := by
    rw [List.mem_append, List.mem_cons]
  rw [hnow, hmem, List.mem_append, List.mem_singleton, not_or, not_or, not_or, not_or]
  constructor
  · intro hb
    obtain ⟨hlisted, hnext⟩ := hfreed.listed_iff.1 hb
    obtain ⟨harrived, hout, hk, hunknown⟩ := (h.listed k b).1 hlisted
    refine ⟨.inl harrived, ⟨hout, fun heq => ?_, fun hin => ?_⟩, hk, hunknown, hnext⟩
    · exact hnames k b hlisted (heq ▸ rfl)
    · exact ((hfreed.mem_iff b).1 hin).2 k hb
  · rintro ⟨harrived, ⟨hout, hne, -⟩, hk, hunknown, hnext⟩
    exact hfreed.listed_iff.2
      ⟨(h.listed k b).2 ⟨harrived.resolve_right hne, hout, hk, hunknown⟩, hnext⟩

/-- What was released before is none of the arrivals that are released now. -/
theorem Sound.once_release (h : s.Sound initial arrived) (hdistinct : (arrived.map (·.id)).Nodup)
    (hnew : block.id ∉ arrived.map (·.id)) (hfreed : s.backlog.Freed [block.id] q free)
    (hnodup : ((block :: free).map (·.id)).Nodup) :
    ((s.released ++ block :: free).map (·.id)).Nodup := by
  rw [List.map_append]
  refine h.once.append hnodup fun i hbefore hafter => ?_
  obtain ⟨b, hb, rfl⟩ := List.mem_map.1 hbefore
  obtain ⟨b', hb', hid⟩ := List.mem_map.1 hafter
  rcases List.mem_cons.1 hb' with rfl | hb'
  · exact hnew (hid ▸ List.mem_map_of_mem (h.released b hb))
  · obtain ⟨harrived, hout⟩ := h.waiting_of_freed hfreed hb'
    have hsame : b' = b :=
      List.inj_on_of_nodup_map hdistinct harrived (h.released b hb) hid
    exact hout (hsame ▸ hb)

/-- The block and what it sets free come after all that they name: an unknown name that such a block
waits for is resolved by the release. -/
theorem Sound.order_release (h : s.Sound initial arrived)
    (hknown : ∀ k ∈ block.previous, k ∈ s.known initial)
    (hfreed : s.backlog.Freed [block.id] q free) :
    InOrder (· ∈ initial) (s.released ++ block :: free) := by
  refine h.order.append ⟨fun k hk => mem_known.1 (hknown k hk), ?_⟩
  refine hfreed.order.mono fun b hb k hk hgiven => ?_
  obtain ⟨harrived, hout⟩ := h.waiting_of_freed hfreed hb
  by_cases hin : k ∈ s.known initial
  · exact .inl (mem_known.1 hin)
  · have hwaited := (h.listed k b).2 ⟨harrived, hout, hk, hin⟩
    exact .inr (List.mem_singleton.1 (hgiven (Backlog.isMissing_of_listed hwaited)))

/-- A block that names only known blocks is released with all that it sets free. -/
theorem Sound.release (h : s.Sound initial arrived) (hdistinct : (arrived.map (·.id)).Nodup)
    (hnew : block.id ∉ arrived.map (·.id)) (hknown : ∀ k ∈ block.previous, k ∈ s.known initial) :
    Sound initial (arrived ++ [block])
      ⟨(s.backlog.release block).1, s.released ++ (s.backlog.release block).2⟩ := by
  obtain ⟨-, hnames⟩ := h.fresh hnew
  obtain ⟨free, heq, hfreed⟩ := Backlog.release_freed (h.indexed hdistinct) hnames
  have hnodup := s.backlog.release_nodup block
  rw [heq] at hnodup ⊢
  generalize (s.backlog.release block).1 = q at hfreed ⊢
  refine
    { released := fun b hb => ?_, once := h.once_release hdistinct hnew hfreed hnodup
      order := h.order_release hknown hfreed
      listed := fun k b => h.listed_release hnames hfreed
      waits := fun b hb hout => ?_, filled := h.filled.freed hfreed }
  · rw [List.mem_append, List.mem_singleton]
    rcases List.mem_append.1 hb with hb | hb
    · exact .inl (h.released b hb)
    · rcases List.mem_cons.1 hb with hb | hb
      · exact .inr hb
      · exact .inl (h.waiting_of_freed hfreed hb).1
  · have hsplit := hout
    rw [List.mem_append, List.mem_cons, not_or, not_or] at hsplit
    obtain ⟨hbefore, hne, hnot⟩ := hsplit
    have harrived : b ∈ arrived :=
      (List.mem_append.1 hb).resolve_right fun hb => hne (List.mem_singleton.1 hb)
    -- it waited before, and is not set free, so it waits still
    obtain ⟨k, hk, hunknown⟩ := h.waits b harrived hbefore
    obtain ⟨k', hwaits⟩ :=
      hfreed.waits_still ((h.listed k b).2 ⟨harrived, hbefore, hk, hunknown⟩) hnot
    obtain ⟨-, -, hk', hunknown'⟩ := (h.listed_release hnames hfreed).1 hwaits
    exact ⟨k', hk', hunknown'⟩

end Release

/-- What holds after some arrivals holds after one more. -/
theorem Sound.arrive (h : s.Sound initial arrived)
    (hdistinct : ((arrived ++ [block]).map (·.id)).Nodup) :
    (s.arrive initial block).Sound initial (arrived ++ [block]) := by
  rw [List.map_append, List.nodup_append] at hdistinct
  obtain ⟨hdistinct, -, hdisjoint⟩ := hdistinct
  have hnew : block.id ∉ arrived.map (·.id) := fun hmem =>
    hdisjoint _ hmem _ (List.mem_singleton_self _) rfl
  unfold Intake.arrive
  split
  · rename_i hnone
    refine h.release hdistinct hnew fun k hk => ?_
    by_contra hunknown
    have hmem : k ∈ block.previous.filter (· ∉ s.known initial) :=
      List.mem_filter.2 ⟨hk, decide_eq_true hunknown⟩
    rw [hnone] at hmem
    cases hmem
  · rename_i hsome
    exact h.wait hnew fun hnil => hsome hnil

theorem sound_arriveAll (hdistinct : (arrived.map (·.id)).Nodup) :
    (arriveAll initial arrived).Sound initial arrived := by
  induction arrived using List.reverseRecOn with
  | nil => exact sound_start
  | append_singleton arrived block ih =>
    unfold arriveAll
    rw [List.foldl_append]
    have hbefore := hdistinct
    rw [List.map_append] at hbefore
    exact (ih (List.nodup_append.1 hbefore).1).arrive hdistinct

/-- The blocks that a released one names were released before. -/
theorem Sound.named_released (h : s.Sound initial arrived) (hd : Dag initial blocks)
    (hsub : arrived ⊆ blocks) (hb : b ∈ s.released) (ha : Names blocks a b) : a ∈ s.released := by
  obtain ⟨hmem, -, hnamed⟩ := ha
  obtain ⟨pre, post, heq⟩ := List.append_of_mem hb
  have horder := h.order
  rw [heq] at horder
  rcases horder.named_before a.id hnamed with hinitial | hbefore
  · exact absurd hinitial (hd.unknown a hmem)
  · obtain ⟨a', ha', hid⟩ := List.mem_map.1 hbefore
    have hreleased : a' ∈ s.released := heq ▸ List.mem_append_left _ ha'
    have hsame : a' = a :=
      List.inj_on_of_nodup_map hd.distinct (hsub (h.released a' hreleased)) hmem hid
    exact hsame ▸ hreleased

theorem Sound.ancestor_released (h : s.Sound initial arrived) (hd : Dag initial blocks)
    (hsub : arrived ⊆ blocks) (hb : b ∈ s.released) (ha : Ancestor blocks a b) :
    a ∈ s.released := by
  induction ha using Relation.TransGen.head_induction_on with
  | single hnames => exact h.named_released hd hsub hb hnames
  | head hnames _ ih => exact h.named_released hd hsub ih hnames

/-- What has arrived with everything that it descends from does not wait any more: what it waited
for would be one of its ancestors, and none of them waits. -/
theorem Sound.released_of_ancestors (h : s.Sound initial arrived) (hd : Dag initial blocks) :
    ∀ b ∈ blocks, b ∈ arrived → (∀ a, Ancestor blocks a b → a ∈ arrived) → b ∈ s.released := by
  refine hd.induction fun b hb ih harrived hancestors => ?_
  by_contra hwaits
  obtain ⟨k, hk, hunknown⟩ := h.waits b harrived hwaits
  rw [mem_known, not_or] at hunknown
  obtain ⟨a, ha, rfl⟩ : ∃ a ∈ blocks, a.id = k := by
    by_contra hnone
    exact hunknown.1 (hd.outside b hb k hk fun hmem => hnone (List.mem_map.1 hmem))
  have hanc : Ancestor blocks a b := .single ⟨ha, hb, hk⟩
  have hreleased := ih a hanc (hancestors a hanc) fun a' ha' => hancestors a' (ha'.trans hanc)
  exact hunknown.2 (List.mem_map_of_mem hreleased)

/-- What is released is what has arrived with everything that it descends from. -/
theorem Sound.mem_released_iff (h : s.Sound initial arrived) (hd : Dag initial blocks)
    (hsub : arrived ⊆ blocks) :
    b ∈ s.released ↔ b ∈ arrived ∧ ∀ a, Ancestor blocks a b → a ∈ arrived :=
  ⟨fun hb => ⟨h.released b hb, fun a ha => h.released a (h.ancestor_released hd hsub hb ha)⟩,
    fun ⟨hb, hancestors⟩ => h.released_of_ancestors hd b (hsub hb) hb hancestors⟩

/-- Of the blocks, those are known that are released. -/
theorem Sound.mem_known_iff (h : s.Sound initial arrived) (hd : Dag initial blocks)
    (hsub : arrived ⊆ blocks) (hb : b ∈ blocks) : b.id ∈ s.known initial ↔ b ∈ s.released := by
  rw [mem_known, or_iff_right (hd.unknown b hb)]
  refine ⟨fun hmem => ?_, List.mem_map_of_mem⟩
  obtain ⟨b', hb', hid⟩ := List.mem_map.1 hmem
  have hsame : b' = b :=
    List.inj_on_of_nodup_map hd.distinct (hsub (h.released b' hb')) hb hid
  exact hsame ▸ hb'

/-- Once all have arrived, none is waited for. -/
theorem Sound.missingCount_eq_zero (h : s.Sound initial arrived) (hd : Dag initial blocks)
    (hall : ∀ b, b ∈ arrived ↔ b ∈ blocks) : s.backlog.missingCount = 0 := by
  refine h.filled.missingCount_eq_zero fun k b hb => ?_
  obtain ⟨harrived, hwaits, -, -⟩ := (h.listed k b).1 hb
  exact hwaits (h.released_of_ancestors hd b ((hall b).1 harrived) harrived
    fun a ha => (hall a).2 ha.mem.1)

/-- Blocks without cycles arrive in any order. After every arrival, those are known that have
arrived with everything that they descend from. They were released, each of them once and after
all that it names. When all have arrived, none is waited for. -/
theorem confluent (hd : Dag initial blocks) (hperm : arrivals.Perm blocks) :
    (∀ arrived, arrived <+: arrivals →
      (∀ b ∈ blocks, b.id ∈ (arriveAll initial arrived).known initial ↔
        b ∈ arrived ∧ ∀ a, Ancestor blocks a b → a ∈ arrived) ∧
      (∀ b, b ∈ (arriveAll initial arrived).released ↔
        b ∈ blocks ∧ b.id ∈ (arriveAll initial arrived).known initial) ∧
      ((arriveAll initial arrived).released.map (·.id)).Nodup ∧
      ∀ pre b post, (arriveAll initial arrived).released = pre ++ b :: post →
        ∀ k ∈ b.previous, k ∈ initial ∨ k ∈ pre.map (·.id)) ∧
    (arriveAll initial arrivals).backlog.missingCount = 0 := by
  have hdistinct : (arrivals.map (·.id)).Nodup := (hperm.map _).nodup_iff.2 hd.distinct
  refine ⟨fun arrived hpre => ?_,
    (sound_arriveAll hdistinct).missingCount_eq_zero hd fun b => hperm.mem_iff⟩
  have h : (arriveAll initial arrived).Sound initial arrived :=
    sound_arriveAll (hdistinct.sublist (hpre.sublist.map _))
  have hsub : arrived ⊆ blocks := fun b hb => hperm.subset (hpre.subset hb)
  refine ⟨fun b hb => ?_, fun b => ⟨fun hb => ?_, fun ⟨hb, hknown⟩ => ?_⟩, h.once, ?_⟩
  · rw [h.mem_known_iff hd hsub hb, h.mem_released_iff hd hsub]
  · have hmem := hsub (h.released b hb)
    exact ⟨hmem, (h.mem_known_iff hd hsub hmem).2 hb⟩
  · exact (h.mem_known_iff hd hsub hb).1 hknown
  · intro pre b post heq
    have horder := h.order
    rw [heq] at horder
    exact horder.named_before

/-- A block of a given name. -/
def sampleBlock (id : BlockId) (previous : List BlockId) : Block :=
  { Draft.extending .root id ⟨0, 0⟩ with previous, id }

/-- Four blocks each of which descends from all before it, by several ways. -/
def sampleBlocks : List Block :=
  [sampleBlock ⟨1⟩ [⟨0⟩], sampleBlock ⟨2⟩ [⟨1⟩, ⟨0⟩], sampleBlock ⟨3⟩ [⟨1⟩, ⟨2⟩],
    sampleBlock ⟨4⟩ [⟨1⟩, ⟨2⟩, ⟨3⟩]]

/-- The same blocks, of which the last two arrive first. They leave the list under the first block
when it is released, and wait on until the second one is. -/
def sampleArrivals : List Block :=
  [sampleBlock ⟨4⟩ [⟨1⟩, ⟨2⟩, ⟨3⟩], sampleBlock ⟨3⟩ [⟨1⟩, ⟨2⟩], sampleBlock ⟨1⟩ [⟨0⟩],
    sampleBlock ⟨2⟩ [⟨1⟩, ⟨0⟩]]

theorem sample_confluent : Dag [⟨0⟩] sampleBlocks ∧ sampleArrivals.Perm sampleBlocks ∧
    (arriveAll [⟨0⟩] (sampleArrivals.take 3)).released.map (·.id) = [⟨1⟩] ∧
    (arriveAll [⟨0⟩] sampleArrivals).released.map (·.id) = [⟨1⟩, ⟨2⟩, ⟨3⟩, ⟨4⟩] ∧
    (arriveAll [⟨0⟩] sampleArrivals).backlog.missingCount = 0 := by
  have hd : Dag [⟨0⟩] sampleBlocks :=
    { distinct := by decide +kernel
      acyclic := fun b hb => Nat.lt_irrefl _
        (hb.lt (f := fun b => b.id.digest.toNat) (by decide +kernel))
      outside := by decide +kernel, unknown := by decide +kernel }
  have hperm : sampleArrivals.Perm sampleBlocks := by decide +kernel
  exact ⟨hd, hperm, by decide +kernel, by decide +kernel, (confluent hd hperm).2⟩

end Intake

end ShardLedger
