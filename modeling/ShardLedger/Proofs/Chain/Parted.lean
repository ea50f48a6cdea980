import ShardLedger.Proofs.Chain.Line
import ShardLedger.Proofs.Fork.Straight

/-!
# What a line of blocks finalizes

A chain that takes a line of blocks finalizes a block of it as soon as the whole line outweighs the
part up to that block by the finalization weight. At all times the line is in two parts: the blocks
that are final, and after them those that are live.

- `weightAfter`, `outweighed`: the weight of a line, and the blocks that it outweighs.
- `outweighed_append`: where a line parts into those blocks and the others.
- `Chain.Parted`, `Chain.Parted.enter`: the two parts, and what the next block of the line moves
  from one to the other.
-/

namespace ShardLedger

variable {seen gone rest xs ys : List Block} {w W : Nat} {f f' : BlockId → Nat}

/-! ### The weight of a line -/

/-- The weight that a path of weight `w` reaches over some blocks: the sum, capped at the largest
64-bit word. -/
def weightAfter (w : Nat) (bs : List Block) : Nat :=
  bs.foldl (fun w b => addCapped w b.weight.toNat) w

/-- The blocks of a line that it outweighs by `W`: the weight of all its blocks exceeds that of
those up to the block by `W` or more. -/
def outweighed (W : Nat) (bs : List Block) : List Block :=
  (bs.zipIdx.filter fun (_, i) =>
    W ≤ weightAfter 0 bs - weightAfter 0 (bs.take (i + 1))).map (·.1)

theorem weightAfter_append (w : Nat) (xs ys : List Block) :
    weightAfter w (xs ++ ys) = weightAfter (weightAfter w xs) ys := List.foldl_append

theorem le_weightAfter : ∀ (bs : List Block) {w : Nat}, w ≤ maxWord →
    w ≤ weightAfter w bs ∧ weightAfter w bs ≤ maxWord
  | [], _, hw => ⟨Nat.le_refl _, hw⟩
  | b :: rest, w, hw => by
    obtain ⟨hle, hcap⟩ := le_weightAfter rest (addCapped_le w b.weight.toNat)
    exact ⟨Nat.le_trans (le_addCapped hw _) hle, hcap⟩

/-- A longer line weighs no less. -/
theorem weightAfter_mono (h : xs <+: ys) : weightAfter 0 xs ≤ weightAfter 0 ys := by
  obtain ⟨later, rfl⟩ := h
  rw [weightAfter_append]
  exact (le_weightAfter later (le_weightAfter xs (Nat.zero_le _)).2).1

/-- The weights grow along a line, so the blocks that it outweighs come first. -/
theorem outweighed_append
    (hgone : gone ≠ [] → W ≤ weightAfter 0 (gone ++ rest) - weightAfter 0 gone)
    (hrest : ∀ b later, rest = b :: later →
      weightAfter 0 (gone ++ rest) - weightAfter 0 (gone ++ [b]) < W) :
    outweighed W (gone ++ rest) = gone := by
  have hfirst : ∀ e ∈ gone.zipIdx,
      W ≤ weightAfter 0 (gone ++ rest) - weightAfter 0 ((gone ++ rest).take (e.2 + 1)) := by
    intro e he
    have hlt := List.snd_lt_of_mem_zipIdx he
    have hle : weightAfter 0 ((gone ++ rest).take (e.2 + 1)) ≤ weightAfter 0 gone := by
      rw [List.take_append_of_le_length (by omega)]
      exact weightAfter_mono (List.take_prefix ..)
    have hgap := hgone (List.ne_nil_of_length_pos (by omega))
    omega
  have hlast : ∀ e ∈ rest.zipIdx gone.length,
      ¬W ≤ weightAfter 0 (gone ++ rest) - weightAfter 0 ((gone ++ rest).take (e.2 + 1)) := by
    intro e he
    have hfrom := List.le_snd_of_mem_zipIdx he
    cases rest with
    | nil => cases he
    | cons b later =>
      have hbegins : gone ++ [b] <+: (gone ++ b :: later).take (e.2 + 1) := by
        refine List.prefix_take_iff.2 ⟨?_, ?_⟩
        · exact List.prefix_append_right_inj _ |>.2 ⟨later, rfl⟩
        · rw [List.length_append, List.length_singleton]
          omega
      have hle := weightAfter_mono hbegins
      have hgap := hrest b later rfl
      omega
  unfold outweighed
  rw [List.zipIdx_append, List.filter_append, Nat.zero_add,
    List.filter_eq_self.2 fun e he => decide_eq_true (hfirst e he),
    List.filter_eq_nil_iff.2 fun e he => by rw [decide_eq_true_eq]; exact hlast e he,
    List.append_nil, List.zipIdx_map_fst]

/-- Every block of a line has the weight of the path to it, which starts at `w`. -/
def Weighs (f : BlockId → Nat) : Nat → List Block → Prop
  | _, [] => True
  | w, b :: rest =>
    f b.id = addCapped w b.weight.toNat ∧ Weighs f (addCapped w b.weight.toNat) rest

theorem weighs_append : ∀ {xs ys : List Block} {w : Nat},
    Weighs f w (xs ++ ys) ↔ Weighs f w xs ∧ Weighs f (weightAfter w xs) ys
  | [], _, _ => (and_iff_right trivial).symm
  | x :: xs, ys, w => by
    show _ ∧ Weighs f _ (xs ++ ys) ↔ (_ ∧ Weighs f _ xs) ∧ _
    rw [weighs_append, and_assoc]
    rfl

theorem Weighs.congr : ∀ {xs : List Block} {w : Nat}, Weighs f w xs →
    (∀ b ∈ xs, f' b.id = f b.id) → Weighs f' w xs
  | [], _, _, _ => trivial
  | b :: _, _, h, hsame => ⟨(hsame b (List.mem_cons_self ..)).trans h.1,
      h.2.congr fun b hb => hsame b (List.mem_cons_of_mem _ hb)⟩

theorem Weighs.weight {b : Block} (h : Weighs f w (xs ++ b :: ys)) :
    f b.id = weightAfter w (xs ++ [b]) := by
  rw [weightAfter_append]
  exact (weighs_append.1 h).2.1

theorem Weighs.last : ∀ {xs : List Block} {w : Nat} {a : Block}, Weighs f w xs → f a.id = w →
    f (xs.getLastD a).id = weightAfter w xs
  | [], _, _, _, ha => ha
  | b :: rest, _, _, h, _ => by
    rw [List.getLastD_cons]
    exact h.2.last h.1

/-! ### The two parts of a line -/

theorem getLastD_map_id (xs : List Block) (a : Block) :
    (xs.map (·.id)).getLastD a.id = (xs.getLastD a).id := by
  rw [List.getLastD_eq_getLast?, List.getLastD_eq_getLast?, List.getLast?_map]
  cases xs.getLast? <;> rfl

/-- Blocks that are held under their names are found there. -/
theorem filterMap_held {m : BlockMap Block} : ∀ {xs : List Block}, (∀ b ∈ xs, m[b.id]? = some b) →
    (xs.map (·.id)).filterMap (fun n : BlockId => m[n]?) = xs
  | [], _ => rfl
  | b :: rest, h => by
    rw [List.map_cons, List.filterMap_cons_some (h b (List.mem_cons_self ..)),
      filterMap_held fun b hb => h b (List.mem_cons_of_mem _ hb)]

/-- What a list loses ends where it does not have the property. -/
theorem not_of_dropWhile_cons {kind : Block → Bool} {b : Block} (h : xs.dropWhile kind = b :: ys) :
    kind b = false := by
  have hnot := List.head_dropWhile_not kind (l := xs) (by rw [h]; exact List.cons_ne_nil _ _)
  simpa only [h, List.head_cons] using hnot

namespace Chain

variable {genesis x : Block} {c d : Chain} {a : Applied}

/-- A chain along a line whose blocks `gone` are final, and whose other blocks are live and lead on
from the last final one. -/
structure Parted (seen : List Block) (genesis : Block) (W : Nat) (gone rest : List Block)
    (c : Chain) : Prop extends Along seen genesis (gone ++ rest) c where
  leading : c.graph.Leading
  finalizedWeight : c.graph.finalizedWeight = W
  straight : c.graph.Straight (rest.map (·.id))
  top : c.blocks[c.graph.anchor]? = some (gone.getLastD genesis)
  top_weight : c.graph.weightOf c.graph.anchor = weightAfter 0 gone
  standing : ∀ b ∈ rest, c.blocks[b.id]? = some b
  settled : gone ≠ [] → W ≤ weightAfter 0 (gone ++ rest) - weightAfter 0 gone
  unsettled : ∀ b later, rest = b :: later →
    weightAfter 0 (gone ++ rest) - weightAfter 0 (gone ++ [b]) < W

/-- A chain that has just started has no blocks in either part. -/
theorem parted_start {config : Config} {id : ChainId} {genesis : Block} {graph : ForkGraph}
    {content : ContentStore} {cursor : Cursor} (permanent : Bool)
    (hg : newGraph config genesis.id = .ok graph) :
    ({ start id genesis graph content cursor with permanent } : Chain).Parted seen genesis
      config.fork.finalizedWeight [] [] := by
  have halong := @along_start seen config id genesis graph content cursor permanent hg
  have hfresh := ForkGraph.create_fresh hg
  exact
    { toAlong := halong, leading := hfresh.leading, finalizedWeight := hfresh.finalizedWeight
      straight := ⟨trivial,
        fun n hn => List.mem_singleton.2 ((hfresh.eq_of_live hn).trans hfresh.anchor.symm),
        hfresh.priorityTip.trans hfresh.anchor.symm⟩
      top := by
        show ((∅ : BlockMap Block).insert genesis.id genesis)[graph.anchor]? = some genesis
        rw [hfresh.anchor, Lookup.get_insert, if_pos rfl]
      top_weight := hfresh.weightOf
      standing := fun _ hb => absurd hb List.not_mem_nil
      settled := fun hne => absurd rfl hne
      unsettled := fun _ _ hb => absurd hb.symm (List.cons_ne_nil _ _) }

theorem Parted.of_bare (h : c.Parted seen genesis W gone rest) (heq : d.bare = c.bare) :
    d.Parted seen genesis W gone rest := by
  have halong := h.toAlong.of_bare heq
  rw [eq_of_bare heq] at halong ⊢
  exact ⟨halong, h.leading, h.finalizedWeight, h.straight, h.top, h.top_weight, h.standing,
    h.settled, h.unsettled⟩

/-- The queue for the global order plays no part. -/
theorem Parted.queue (h : c.Parted seen genesis W gone rest) (undelivered : List Block) :
    ({ c with undelivered } : Chain).Parted seen genesis W gone rest :=
  { toOrderly := h.toOrderly.rest c.content undelivered c.retired c.permanent
    running := h.running, buffered := h.buffered, backlog := h.backlog, tip := h.tip
    tip_block := h.tip_block, live := h.live, leading := h.leading
    finalizedWeight := h.finalizedWeight, straight := h.straight, top := h.top
    top_weight := h.top_weight, standing := h.standing, settled := h.settled
    unsettled := h.unsettled }

theorem Parted.outweighed (h : c.Parted seen genesis W gone rest) :
    ShardLedger.outweighed W (gone ++ rest) = gone := outweighed_append h.settled h.unsettled

theorem Parted.anchor_eq (h : c.Parted seen genesis W gone rest) :
    c.graph.anchor = (gone.getLastD genesis).id := (h.blocks_id _ _ h.top).symm

/-- The rank that comes next is the one that the last final block asks for. -/
theorem Parted.nextRank_eq (h : c.Parted seen genesis W gone rest) :
    c.nextRank = (gone.getLastD genesis).rank.next := by
  obtain ⟨top, htop, hnext⟩ := h.anchored
  rw [h.top, Option.some.injEq] at htop
  rw [hnext, htop]

/-- Along a path of live blocks, weights add up. -/
theorem Orderly.weighs (h : c.Orderly seen) : ∀ {xs : List Block} {p : BlockId},
    ForkGraph.Path c.graph.Under p (xs.map (·.id)) → (∀ b ∈ xs, c.blocks[b.id]? = some b) →
      Weighs c.graph.weightOf (c.graph.weightOf p) xs
  | [], _, _, _ => trivial
  | b :: rest, p, hpath, hheld => by
    have hweight := h.weights b.id p hpath.1 b (hheld b (List.mem_cons_self ..))
    have hlater := h.weighs hpath.2 fun b hb => hheld b (List.mem_cons_of_mem _ hb)
    rw [hweight] at hlater
    exact ⟨hweight, hlater⟩

/-! ### The next block -/

/-- What a block finalizes is read off the blocks that are live with it. -/
theorem Applied.finalized_eq {g : ForkGraph} {id parent : BlockId}
    (hgrown : g.Grown a.chain.graph id parent a.step) :
    a.outcome.2 = a.step.finalized.filterMap fun n : BlockId => a.chain.blocks[n]? := by
  unfold outcome
  split
  · rw [(ForkStep.isEmpty_iff.1 ‹_›).1]
    rfl
  · exact collect_finalized hgrown

section Stages

variable {g₁ g₂ graph : ForkGraph} {step : ForkStep} (h : c.Parted seen genesis W gone rest)
  (hs : ForkGraph.Stages c.graph g₁ g₂ graph x.id c.graph.priorityTip x.weight.toNat step)
include h hs

/-- With the new leaf, the live part of the line still weighs what leads to it. -/
theorem Parted.weighs₁ : Weighs g₁.weightOf (weightAfter 0 gone) (rest ++ [x]) := by
  have hold : Weighs c.graph.weightOf (weightAfter 0 gone) rest := h.top_weight ▸
    h.toOrderly.weighs (h.straight.path.mono fun _ _ => ForkGraph.Sole.under) h.standing
  have htip : c.graph.priorityTip = (rest.getLastD (gone.getLastD genesis)).id := by
    rw [h.straight.tip, h.anchor_eq, getLastD_map_id]
  refine weighs_append.2 ⟨hold.congr fun b hb => ?_, ?_, trivial⟩
  · rw [hs.weightOf₁, if_neg]
    intro heq
    exact hs.not_live (heq ▸ (h.blocks_live b.id).1 ⟨b, h.standing b hb⟩)
  · rw [hs.weightOf₁, if_pos rfl, htip, hold.last (h.anchor_eq ▸ h.top_weight)]

/-- The first live blocks are finalized, up to one that the new block does not lead by `W`. -/
theorem Parted.finalizes (hW : 0 < W) : step.finalized =
    ((rest ++ [x]).takeWhile fun b =>
      W ≤ weightAfter 0 (gone ++ rest ++ [x]) - g₁.weightOf b.id).map (·.id) := by
  have hweight : g₁.weightOf x.id = weightAfter 0 (gone ++ rest ++ [x]) := by
    rw [(h.weighs₁ hs).weight, ← weightAfter_append, ← List.append_assoc]
  rw [hs.finalized_eq h.isTree h.leading h.straight (h.finalizedWeight ▸ hW), h.finalizedWeight,
    hweight, ← List.map_singleton, ← List.map_append, List.takeWhile_map]
  rfl

section Cut

variable (hline : rest ++ [x] = xs ++ ys)
include hline

/-- Blocks that were final stay outweighed when the line grows. -/
theorem Parted.settled₁
    (hxs : ∀ b ∈ xs, W ≤ weightAfter 0 (gone ++ rest ++ [x]) - g₁.weightOf b.id) :
    gone ++ xs ≠ [] → W ≤ weightAfter 0 (gone ++ rest ++ [x]) - weightAfter 0 (gone ++ xs) := by
  intro hne
  have hweighs := h.weighs₁ hs
  rw [hline] at hweighs
  rcases List.eq_nil_or_concat xs with rfl | ⟨before, b, rfl⟩
  · rw [List.append_nil] at hne ⊢
    have hgap := h.settled hne
    have hgrows := weightAfter_mono (List.prefix_append (gone ++ rest) [x])
    omega
  · rw [List.concat_eq_append] at hxs hweighs ⊢
    have hgap := hxs b (List.mem_append_right _ (List.mem_singleton_self b))
    rw [List.append_assoc, List.singleton_append] at hweighs
    rwa [hweighs.weight, ← weightAfter_append] at hgap

theorem Parted.unsettled₁ {b : Block} {later : List Block} (hys : ys = b :: later)
    (hb : ¬W ≤ weightAfter 0 (gone ++ rest ++ [x]) - g₁.weightOf b.id) :
    weightAfter 0 (gone ++ rest ++ [x]) - weightAfter 0 (gone ++ xs ++ [b]) < W := by
  have hweighs := h.weighs₁ hs
  rw [hline, hys] at hweighs
  rwa [hweighs.weight, ← weightAfter_append, ← List.append_assoc, Nat.not_le] at hb

/-- The last block that is final weighs what leads to it. -/
theorem Parted.top_weight₁ :
    g₁.weightOf ((gone ++ xs).getLastD genesis).id = weightAfter 0 (gone ++ xs) := by
  have hweighs := h.weighs₁ hs
  rw [hline] at hweighs
  have hold : g₁.weightOf (gone.getLastD genesis).id = weightAfter 0 gone := by
    rw [hs.weightOf₁, if_neg, ← h.anchor_eq, h.top_weight]
    intro heq
    exact hs.not_live (heq ▸ (h.blocks_live _).1 ⟨_, h.anchor_eq ▸ h.top⟩)
  rw [getLastD_append, weightAfter_append]
  exact (weighs_append.1 hweighs).1.last hold

end Cut

/-- The new block parts the live blocks into those that it finalizes and those that stay. -/
theorem Parted.parts₁ (hW : 0 < W) : ∃ more rest', rest ++ [x] = more ++ rest' ∧
    step.finalized = more.map (·.id) ∧
    (gone ++ more ≠ [] →
      W ≤ weightAfter 0 (gone ++ rest ++ [x]) - weightAfter 0 (gone ++ more)) ∧
    ∀ b later, rest' = b :: later →
      weightAfter 0 (gone ++ rest ++ [x]) - weightAfter 0 (gone ++ more ++ [b]) < W := by
  obtain ⟨kind, hkind⟩ : ∃ kind : Block → Bool, kind = fun b : Block =>
    decide (W ≤ weightAfter 0 (gone ++ rest ++ [x]) - g₁.weightOf b.id) := ⟨_, rfl⟩
  have hline : rest ++ [x] = (rest ++ [x]).takeWhile kind ++ (rest ++ [x]).dropWhile kind :=
    List.takeWhile_append_dropWhile.symm
  refine ⟨_, _, hline, hkind ▸ h.finalizes hs hW, h.settled₁ hs hline fun b hb => ?_,
    fun b later hb => h.unsettled₁ hs hline hb ?_⟩
  · have hall := List.all_eq_true.1 List.all_takeWhile b hb
    rw [hkind] at hall
    exact of_decide_eq_true hall
  · have hnot := not_of_dropWhile_cons hb
    rw [hkind] at hnot
    exact of_decide_eq_false hnot

/-- With the new block, the whole live part of the line is held. -/
theorem Parted.standing₁ : ∀ b ∈ rest ++ [x], (c.blocks.insert x.id x)[b.id]? = some b := by
  intro b hb
  rw [Lookup.get_insert]
  rcases List.mem_append.1 hb with hb | hb
  · rw [if_neg]
    · exact h.standing b hb
    · intro heq
      exact hs.not_live (heq ▸ (h.blocks_live b.id).1 ⟨b, h.standing b hb⟩)
  · rw [List.mem_singleton.1 hb, if_pos rfl]

end Stages

/-- A block that was held when the graph let go of others is held after that, if it is live. -/
theorem Entered.held {top b : Block} (he : Entered seen c top x a)
    (hheld : a.chain.blocks[b.id]? = some b) (hlive : a.chain.graph.Live b.id) :
    a.outcome.1.blocks[b.id]? = some b := by
  have hgraph : a.outcome.1.graph.Live b.id := by
    rwa [he.rest]
  obtain ⟨b', hb'⟩ := (he.sound.blocks_live b.id).2 hgraph
  rw [Applied.outcome_blocks hb'] at hheld
  rw [hb', hheld]

/-- The next block of the line enters, and the blocks that it finalizes join those that are final
already. -/
theorem Parted.enter (h : c.Parted seen genesis W gone rest) (hW : 0 < W)
    (hx : Follows seen c.id ((gone ++ rest).getLastD genesis) x)
    (hnew : x.id ∉ (genesis :: (gone ++ rest)).map (·.id)) (config : Config) :
    ∃ a rest', c.apply x = some a ∧ rest ++ [x] = a.outcome.2 ++ rest' ∧
      (a.outcome.1.enqueueAll config a.outcome.2).Parted seen genesis W (gone ++ a.outcome.2)
        rest' := by
  obtain ⟨a, ha, halong⟩ := h.toAlong.enter hx hnew config
  have he := apply_entered h.toSound hx.toAdmitted h.top ha
  obtain ⟨parent, above, node, graph, hparent, -, -, -, hadd, happlied⟩ := apply_eq_some ha
  have hgrown := ForkGraph.add_grown h.isTree hadd
  obtain rfl : a.chain.graph = graph := by rw [happlied]
  obtain rfl : parent = c.graph.priorityTip := by
    rw [h.tip]
    exact Option.some.inj (hparent.symm.trans hx.parent)
  obtain ⟨g₁, g₂, hs⟩ := ForkGraph.add_stages h.isTree hadd
  have hheld : ∀ b ∈ rest ++ [x], a.chain.blocks[b.id]? = some b := by
    have hblocks : a.chain.blocks = c.blocks.insert x.id x := by rw [happlied]
    rw [hblocks]
    exact h.standing₁ hs
  obtain ⟨more, rest', hline, hfinalized, hsettled, hunsettled⟩ := h.parts₁ hs hW
  obtain rfl : a.outcome.2 = more := by
    rw [Applied.finalized_eq hgrown, hfinalized]
    exact filterMap_held fun b hb => hheld b (hline ▸ List.mem_append_left _ hb)
  have hstraight : a.chain.graph.Straight (rest'.map (·.id)) := by
    refine hs.straight h.isTree h.leading h.straight (h.finalizedWeight ▸ hW) ?_
    rw [hfinalized, ← List.map_append, ← hline, List.map_append, List.map_singleton]
  have hstanding : ∀ b ∈ rest', a.outcome.1.blocks[b.id]? = some b := by
    intro b hb
    obtain ⟨p, hsole⟩ := hstraight.path.exists_below b.id (List.mem_map_of_mem hb)
    obtain ⟨-, node, hnode, -⟩ := hsole.under
    exact he.held (hheld b (hline ▸ List.mem_append_right _ hb)) ⟨node, hnode⟩
  have htop : a.chain.graph.weightOf a.chain.graph.anchor =
      weightAfter 0 (gone ++ a.outcome.2) := by
    rw [hs.weightOf hgrown.isTree.anchor_live, ← h.top_weight₁ hs hline, getLastD_append,
      he.sound.blocks_id _ _ he.anchor]
  -- the same line, cut at another place
  have hall : gone ++ rest ++ [x] = gone ++ a.outcome.2 ++ rest' := by
    rw [List.append_assoc, hline, List.append_assoc]
  rw [hall] at halong hsettled hunsettled
  obtain ⟨undelivered, nextRank, permanent, heq⟩ := he.enqueueAll_eq config
  refine ⟨a, rest', ha, hline, ?_⟩
  rw [heq] at halong ⊢
  exact
    { toAlong := halong, leading := hs.leading h.leading
      finalizedWeight := hs.finalizedWeight.trans h.finalizedWeight
      straight := hstraight
      top := getLastD_append gone _ genesis ▸ he.anchor
      top_weight := htop
      standing := hstanding, settled := hsettled, unsettled := hunsettled }

end Chain

end ShardLedger
