import ShardLedger.Proofs.Chain.Orderly
import ShardLedger.Proofs.Fork.Behind

/-!
# Blocks in a line

Blocks of which each follows the one before it have one parent each, and no two of them the same.
Where such blocks wait, no list is longer than one, and a block sets free exactly those after it
that wait, up to the first one that does not. A chain that takes blocks of a line one after another
never forks, so its priority tip is the last of them.

- `Backlog.Lists`, `Backlog.Names`: exactly these blocks wait.
- `Backlog.release_line`: what a block of a line sets free.
- `Chain.Along`, `Chain.Along.enter`: a chain grows along a line.
-/

namespace ShardLedger

variable {seen rest xs W : List Block} {id : ChainId} {a b x y z : Block} {q : Backlog}
  {m : BlockMap Block} {k : BlockId}

/-! ### Lines -/

/-- Every block of a line but the first one follows another one of it. -/
theorem Links.parent : ∀ {xs : List Block} {a : Block}, Links seen id a xs →
    ∀ x ∈ xs, ∃ p ∈ a :: xs, x.parent? = some p.id
  | y :: rest, a, h, x, hx => by
    rcases List.mem_cons.1 hx with rfl | hx
    · exact ⟨a, List.mem_cons_self .., h.1.parent⟩
    · obtain ⟨p, hp, hparent⟩ := h.2.parent x hx
      exact ⟨p, List.mem_cons_of_mem _ hp, hparent⟩

/-- Blocks of different names in a line follow different blocks. -/
theorem Links.only (h : Links seen id y (z :: rest)) (hids : ((y :: z :: rest).map (·.id)).Nodup)
    (hx : x ∈ z :: rest) (hparent : x.parent? = some y.id) : x = z := by
  rcases List.mem_cons.1 hx with rfl | hx
  · rfl
  · obtain ⟨p, hp, hp'⟩ := h.2.parent x hx
    rw [hparent, Option.some.injEq] at hp'
    exact absurd (List.mem_map.2 ⟨p, hp, hp'.symm⟩) (List.nodup_cons.1 hids).1

/-- So no two of them follow the same block. -/
theorem Links.parent_inj : ∀ {xs : List Block} {a : Block}, Links seen id a xs →
    ((a :: xs).map (·.id)).Nodup → ∀ x ∈ xs, ∀ y ∈ xs, x.parent? = y.parent? → x = y
  | z :: rest, a, h, hids, x, hx, y, hy, hparent => by
    by_cases hfirst : x.parent? = some a.id
    · exact (h.only hids hx hfirst).trans (h.only hids hy (hparent ▸ hfirst)).symm
    · -- neither of them is the first one
      have hrest : ∀ w ∈ z :: rest, w.parent? = x.parent? → w ∈ rest := fun w hw heq =>
        (List.mem_cons.1 hw).resolve_left fun hwz => hfirst (heq ▸ hwz ▸ h.1.parent)
      exact h.2.parent_inj (List.nodup_cons.1 hids).2 x (hrest x hx rfl) y
        (hrest y hy hparent.symm) hparent

theorem Links.tail (h : Links seen id y (z :: rest)) : Links seen id z rest := h.2

namespace Backlog

/-! ### What waits -/

/-- Exactly the blocks `W` are listed, each of them alone under its parent. -/
def Lists (W : List Block) (q : Backlog) : Prop :=
  ∀ (k : BlockId) (waiters : List Block), q.waiting[k]? = some waiters ↔
    ∃ y ∈ W, y.parent? = some k ∧ waiters = [y]

/-- Exactly the blocks `W` are known by their names. -/
def Names (W : List Block) (m : BlockMap Block) : Prop :=
  ∀ (n : BlockId) (y : Block), m[n]? = some y ↔ y ∈ W ∧ y.id = n

theorem Lists.congr {W' : List Block} (h : Lists W q) (hW : ∀ y, y ∈ W ↔ y ∈ W') :
    Lists W' q := by
  intro k waiters
  rw [h k waiters]
  exact exists_congr fun y => and_congr_left fun _ => hW y

theorem Names.congr {W' : List Block} (h : Names W m) (hW : ∀ y, y ∈ W ↔ y ∈ W') :
    Names W' m := by
  intro n y
  rw [h n y, hW]

theorem lists_empty : Lists [] empty := by
  intro k waiters
  rw [show empty.waiting[k]? = (none : Option (List Block)) from Std.ExtTreeMap.getElem?_empty]
  exact ⟨fun h => (nomatch h), fun ⟨_, h, _⟩ => (nomatch h)⟩

theorem names_empty : Names [] ∅ := by
  intro n y
  rw [Std.ExtTreeMap.getElem?_empty]
  exact ⟨fun h => (nomatch h), fun h => (nomatch h.1)⟩

theorem Lists.eq_empty (h : Lists [] q) : q = .empty := by
  have hnone : q.waiting = ∅ := by
    refine Std.ExtTreeMap.ext_getElem? fun {k} => ?_
    rw [Std.ExtTreeMap.getElem?_empty]
    cases hw : q.waiting[k]? with
    | none => rfl
    | some waiters =>
      obtain ⟨_, hy, -⟩ := (h k waiters).1 hw
      cases hy
  cases q
  exact congrArg Backlog.mk hnone

theorem Names.eq_empty (h : Names [] m) : m = ∅ := by
  refine Std.ExtTreeMap.ext_getElem? fun {n} => ?_
  rw [Std.ExtTreeMap.getElem?_empty]
  cases hn : m[n]? with
  | none => rfl
  | some y => exact absurd ((h n y).1 hn).1 List.not_mem_nil

theorem Lists.lookup_none (h : Lists W q) (hk : ∀ y ∈ W, y.parent? ≠ some k) :
    q.waiting[k]? = none := by
  cases hw : q.waiting[k]? with
  | none => rfl
  | some waiters =>
    obtain ⟨y, hy, hparent, -⟩ := (h k waiters).1 hw
    exact absurd hparent (hk y hy)

theorem Lists.lookup_some (h : Lists W q) (hy : y ∈ W) (hparent : y.parent? = some k) :
    q.waiting[k]? = some [y] := (h k [y]).2 ⟨y, hy, hparent, rfl⟩

theorem Names.lookup_none {n : BlockId} (h : Names W m) (hn : ∀ y ∈ W, y.id ≠ n) : m[n]? = none := by
  cases hy : m[n]? with
  | none => rfl
  | some y =>
    obtain ⟨hin, hid⟩ := (h n y).1 hy
    exact absurd hid (hn y hin)

/-- Another block waits, for a parent that nothing else waits for. -/
theorem Lists.enlist (h : Lists W q) (hparent : y.parent? = some k)
    (hk : ∀ w ∈ W, w.parent? ≠ some k) : Lists (y :: W) (q.enlist y [k]) := by
  have hnone := h.lookup_none hk
  have henlist : q.enlist y [k] = ⟨q.waiting.insert k [y]⟩ := by
    show q.enlistUnder y k = _
    unfold enlistUnder
    rw [hnone]
    rfl
  intro k' waiters
  rw [henlist, Lookup.get_insert]
  split
  · rename_i hkk
    subst hkk
    constructor
    · intro hw
      exact ⟨y, List.mem_cons_self .., hparent, (Option.some.inj hw).symm⟩
    · rintro ⟨w, hw, hwk, rfl⟩
      rcases List.mem_cons.1 hw with rfl | hw
      · rfl
      · exact absurd hwk (hk w hw)
  · rename_i hkk
    rw [h k' waiters]
    constructor
    · rintro ⟨w, hw, hwk⟩
      exact ⟨w, List.mem_cons_of_mem _ hw, hwk⟩
    · rintro ⟨w, hw, hwk, rfl⟩
      rcases List.mem_cons.1 hw with rfl | hw
      · exact absurd (Option.some.inj (hparent.symm.trans hwk)) hkk
      · exact ⟨w, hw, hwk, rfl⟩

theorem Names.insert (h : Names W m) (hnew : ∀ w ∈ W, w.id ≠ y.id) :
    Names (y :: W) (m.insert y.id y) := by
  intro n w
  rw [Lookup.get_insert]
  split
  · rename_i hn
    constructor
    · intro hw
      cases hw
      exact ⟨List.mem_cons_self .., hn⟩
    · rintro ⟨hw, rfl⟩
      rcases List.mem_cons.1 hw with rfl | hw
      · rfl
      · exact absurd hn.symm (hnew w hw)
  · rename_i hn
    rw [h n w]
    constructor
    · rintro ⟨hw, hid⟩
      exact ⟨List.mem_cons_of_mem _ hw, hid⟩
    · rintro ⟨hw, hid⟩
      rcases List.mem_cons.1 hw with rfl | hw
      · exact absurd hid hn
      · exact ⟨hw, hid⟩

/-- The block that waits for `k` is taken off its list. -/
theorem Lists.erase (h : Lists W q) (hk : ∀ w ∈ W, w.parent? = some k ↔ w = z) :
    Lists (W.filter (· ≠ z)) ⟨q.waiting.erase k⟩ := by
  intro k' waiters
  rw [Lookup.get_erase]
  split
  · rename_i hkk
    subst hkk
    refine ⟨fun hw => (nomatch hw), ?_⟩
    rintro ⟨w, hw, hwk, -⟩
    rw [List.mem_filter, decide_eq_true_eq] at hw
    exact absurd ((hk w hw.1).1 hwk) hw.2
  · rename_i hkk
    rw [h k' waiters]
    constructor
    · rintro ⟨w, hw, hwk, rfl⟩
      refine ⟨w, List.mem_filter.2 ⟨hw, decide_eq_true fun hwz => hkk ?_⟩, hwk, rfl⟩
      exact Option.some.inj (((hk w hw).2 hwz).symm.trans hwk)
    · rintro ⟨w, hw, hwk⟩
      exact ⟨w, (List.mem_filter.1 hw).1, hwk⟩

/-- Names of waiting blocks are forgotten. -/
theorem Names.forget (h : Names W m) {out : List Block} {ids : List BlockId}
    (hids : ∀ w ∈ W, w.id ∈ ids ↔ w ∈ out) :
    Names (W.filter (· ∉ out)) (ids.foldl (fun m id => m.erase id) m) := by
  intro n w
  rw [Lookup.get_eraseAll, List.mem_filter, decide_eq_true_eq]
  split
  · rename_i hn
    refine ⟨fun hw => (nomatch hw), ?_⟩
    rintro ⟨⟨hw, hout⟩, rfl⟩
    exact absurd ((hids w hw).1 hn) hout
  · rename_i hn
    rw [h n w]
    constructor
    · rintro ⟨hw, rfl⟩
      exact ⟨⟨hw, fun hout => hn ((hids w hw).2 hout)⟩, rfl⟩
    · rintro ⟨⟨hw, -⟩, hid⟩
      exact ⟨hw, hid⟩

/-! ### What a block of a line sets free -/

theorem releaseAll_nil {released : BlockSet} (h : q.waiting[k]? = none) :
    q.releaseAll released [k] = (q, []) := by
  have hnot : q.awaited [k] = [] := by
    rw [awaited, List.dropWhile_cons_of_pos (by rw [isMissing, Lookup.contains_eq_false.2 h]; rfl)]
    rfl
  unfold releaseAll
  split
  · rfl
  · rename_i hstack
    rw [hnot] at hstack
    cases hstack

/-- The only block that waits for `k` is released, and whatever it sets free. -/
theorem releaseAll_one {released : BlockSet} (h : q.waiting[k]? = some [z])
    (hz : z.parent? = some k) (hnew : z.id ∉ released) :
    q.releaseAll released [k] =
      ((releaseAll ⟨q.waiting.erase k⟩ (released.insert z.id) [z.id]).1,
        z :: (releaseAll ⟨q.waiting.erase k⟩ (released.insert z.id) [z.id]).2) := by
  have hmissing : q.awaited [k] = [k] := by
    rw [awaited, List.dropWhile_cons_of_neg]
    rw [isMissing, Lookup.contains_iff.2 ⟨_, h⟩]
    decide
  have hgone : (q.waiting.erase k)[k]? = (none : Option (List Block)) := by
    rw [Lookup.get_erase, if_pos rfl]
  have hsat : satisfied ⟨q.waiting.erase k⟩ z = true := by
    rw [satisfied, Block.previous_eq hz, List.all_cons, List.all_nil, Bool.and_true, isMissing,
      Lookup.contains_eq_false.2 hgone]
    rfl
  have hrecord : released.contains z.id = false := by
    cases hin : released.contains z.id with
    | false => rfl
    | true => exact absurd (Std.ExtTreeSet.contains_iff_mem.1 hin) hnew
  have hfree : setFree ⟨q.waiting.erase k⟩ released [z] = ([z], released.insert z.id) := by
    unfold setFree
    rw [hsat, hrecord]
    rfl
  rw [releaseAll]
  split
  · rename_i hstack
    rw [hmissing] at hstack
    cases hstack
  · rename_i id rest hstack
    rw [hmissing] at hstack
    cases hstack
    rw [h]
    simp only [Option.getD_some, hfree]
    rfl

/-- Behind block `y`, a line is released up to the first block that does not wait. -/
theorem releaseAll_line (W : List Block) : ∀ (rest : List Block) {y : Block} {q : Backlog}
    {released : BlockSet}, Links seen id y rest → ((y :: rest).map (·.id)).Nodup →
      Lists (W.filter (· ∈ rest)) q → (∀ w ∈ rest, w.id ∉ released) →
        ∃ q', q.releaseAll released [y.id] = (q', rest.takeWhile (· ∈ W)) ∧
          Lists (W.filter (· ∈ rest.dropWhile (· ∈ W))) q'
  | [], y, q, released, _, _, hlists, _ => by
    refine ⟨q, releaseAll_nil (hlists.lookup_none fun w hw => ?_), hlists⟩
    simp at hw
  | z :: rest, y, q, released, hlinks, hids, hlists, hnew => by
    have hids' := (List.nodup_cons.1 hids).2
    have hzrest : ∀ w ∈ rest, w.id ≠ z.id := fun w hw heq =>
      (List.nodup_cons.1 hids').1 (List.mem_map.2 ⟨w, hw, heq⟩)
    have honly : ∀ w ∈ W.filter (· ∈ z :: rest), w.parent? = some y.id ↔ w = z := fun w hw =>
      ⟨hlinks.only hids (of_decide_eq_true (List.mem_filter.1 hw).2),
        fun heq => heq ▸ hlinks.1.parent⟩
    by_cases hz : z ∈ W
    · -- the block after `y` goes, and the others that wait are behind that one
      have hlater : Lists (W.filter (· ∈ rest)) ⟨q.waiting.erase y.id⟩ := by
        refine (hlists.erase honly).congr fun w => ?_
        simp only [List.mem_filter, decide_eq_true_eq, List.mem_cons]
        refine ⟨fun ⟨⟨hw, hin⟩, hne⟩ => ⟨hw, hin.resolve_left hne⟩, fun ⟨hw, hin⟩ => ⟨⟨hw, .inr hin⟩, ?_⟩⟩
        rintro rfl
        exact hzrest w hin rfl
      have hnew' : ∀ w ∈ rest, w.id ∉ released.insert z.id := by
        intro w hw hin
        rcases Lookup.mem_insert.1 hin with heq | hin
        · exact hzrest w hw heq.symm
        · exact hnew w (List.mem_cons_of_mem _ hw) hin
      obtain ⟨q', hrelease, hleft⟩ := releaseAll_line W rest hlinks.tail hids' hlater hnew'
      have hlisted : z ∈ W.filter (· ∈ z :: rest) :=
        List.mem_filter.2 ⟨hz, decide_eq_true (List.mem_cons_self ..)⟩
      refine ⟨q', ?_, ?_⟩
      · rw [releaseAll_one (hlists.lookup_some hlisted hlinks.1.parent) hlinks.1.parent
          (hnew z (List.mem_cons_self ..)), hrelease, List.takeWhile_cons, if_pos (decide_eq_true hz)]
      · rwa [List.dropWhile_cons, if_pos (decide_eq_true hz)]
    · have hstop : ¬decide (z ∈ W) = true := fun h => hz (of_decide_eq_true h)
      refine ⟨q, ?_, ?_⟩
      · rw [List.takeWhile_cons, if_neg hstop]
        refine releaseAll_nil (hlists.lookup_none fun w hw hparent => hz ?_)
        exact (honly w hw).1 hparent ▸ (List.mem_filter.1 hw).1
      · rwa [List.dropWhile_cons, if_neg hstop]

/-- A block of a line sets free those that wait right after it, up to the first one that does not
wait. -/
theorem release_line (hlinks : Links seen id y rest) (hids : ((y :: rest).map (·.id)).Nodup)
    (hW : W ⊆ rest) (hlists : Lists W q) : ∃ q',
      q.release y = (q', y :: rest.takeWhile (· ∈ W)) ∧
        Lists (W.filter (· ∈ rest.dropWhile (· ∈ W))) q' := by
  have hall : Lists (W.filter (· ∈ rest)) q := by
    refine hlists.congr fun w => ?_
    rw [List.mem_filter, decide_eq_true_eq]
    exact ⟨fun hw => ⟨hw, hW hw⟩, And.left⟩
  have hnew : ∀ w ∈ rest, w.id ∉ (∅ : BlockSet).insert y.id := by
    intro w hw hin
    rcases Lookup.mem_insert.1 hin with heq | hin
    · exact (List.nodup_cons.1 hids).1 (List.mem_map.2 ⟨w, hw, heq.symm⟩)
    · exact Std.ExtTreeSet.not_mem_empty hin
  obtain ⟨q', hrelease, hleft⟩ := releaseAll_line W rest hlinks hids hall hnew
  refine ⟨q', ?_, hleft⟩
  unfold release
  rw [hrelease]

end Backlog

/-! ### Growing along a line -/

namespace Chain

variable {front : List Block} {genesis : Block} {c d : Chain} {parent : BlockId}

/-- A chain that started from a block and took a line of blocks after it, on which nothing waits.
What is live is part of the line, and the last block of it is the priority tip. -/
structure Along (seen : List Block) (genesis : Block) (front : List Block) (c : Chain) : Prop
    extends Orderly seen c where
  running : c.retired = false
  buffered : c.buffered = ∅
  backlog : c.backlog = .empty
  tip : c.graph.priorityTip = (front.getLastD genesis).id
  tip_block : c.blocks[(front.getLastD genesis).id]? = some (front.getLastD genesis)
  live : ∀ n, c.graph.Live n → n ∈ (genesis :: front).map (·.id)

theorem Along.of_bare (h : c.Along seen genesis front) (heq : d.bare = c.bare) :
    d.Along seen genesis front := by
  have horderly := h.toOrderly.of_bare heq
  rw [eq_of_bare heq] at horderly ⊢
  exact ⟨horderly, h.running, h.buffered, h.backlog, h.tip, h.tip_block, h.live⟩

theorem along_start {config : Config} {id : ChainId} {genesis : Block} {graph : ForkGraph}
    {content : ContentStore} {cursor : Cursor} (permanent : Bool)
    (hg : newGraph config genesis.id = .ok graph) :
    ({ start id genesis graph content cursor with permanent } : Chain).Along seen genesis [] := by
  have hfresh := ForkGraph.create_fresh hg
  refine ⟨(orderly_start hg).rest content [] false permanent, rfl, rfl, rfl, hfresh.priorityTip, ?_,
    fun n hn => ?_⟩
  · show ((∅ : BlockMap Block).insert genesis.id genesis)[genesis.id]? = some genesis
    rw [Lookup.get_insert, if_pos rfl]
  · rw [hfresh.eq_of_live hn]
    exact List.mem_cons_self ..

/-- No block of the line asks for a higher rank than the chain has come to. -/
theorem Along.nextRank_le (h : c.Along seen genesis front) :
    c.nextRank ≤ (front.getLastD genesis).rank.next := h.toOrderly.nextRank_le h.tip_block

theorem Along.not_live (h : c.Along seen genesis front)
    (hnew : x.id ∉ (genesis :: front).map (·.id)) : ¬c.graph.Live x.id :=
  fun hlive => hnew (h.live _ hlive)

theorem Along.ready (h : c.Along seen genesis front) (hx : Admitted seen c.id x)
    (hnew : x.id ∉ (genesis :: front).map (·.id)) : c.Ready seen [x] where
  admitted y hy := List.mem_singleton.1 hy ▸ hx
  nodup := List.nodup_cons.2 ⟨List.not_mem_nil, List.nodup_nil⟩
  fresh y hy := List.mem_singleton.1 hy ▸ h.not_live hnew
  unbuffered y hy := by rw [h.buffered, Std.ExtTreeMap.getElem?_empty]

/-- The next block of the line enters, and becomes the priority tip. -/
theorem Along.enter (h : c.Along seen genesis front)
    (hx : Follows seen c.id (front.getLastD genesis) x)
    (hnew : x.id ∉ (genesis :: front).map (·.id)) (config : Config) :
    ∃ a, c.apply x = some a ∧
      (a.outcome.1.enqueueAll config a.outcome.2).Along seen genesis (front ++ [x]) := by
  obtain ⟨a, ha⟩ := h.apply_isSome (h.not_live hnew) hx.parent h.tip_block hx.rank_le
  refine ⟨a, ha, ?_⟩
  have hready := h.ready hx.toAdmitted hnew
  have horderly := (h.toOrderly.enter hready ha config).1
  obtain ⟨top, htop, -⟩ := h.anchored
  have he := apply_entered h.toSound hx.toAdmitted htop ha
  obtain ⟨parent, above, node, graph, hparent, -, -, -, hadd, happlied⟩ := apply_eq_some ha
  have hgrown := ForkGraph.add_grown h.isTree hadd
  obtain rfl : a.chain.graph = graph := by rw [happlied]
  have hlast : (front ++ [x]).getLastD genesis = x := by rw [getLastD_append]; rfl
  -- the parent of the block is the priority tip
  obtain rfl : parent = c.graph.priorityTip := by
    rw [h.tip]
    exact Option.some.inj (hparent.symm.trans hx.parent)
  obtain ⟨htip, hleaf⟩ := ForkGraph.add_after_tip h.isTree h.priority hadd
  have hblock : a.outcome.1.blocks[x.id]? = some x := by
    have hlive : a.outcome.1.graph.Live x.id := by
      rw [he.rest]
      exact hleaf.live
    obtain ⟨b, hb⟩ := (he.sound.blocks_live x.id).2 hlive
    have hchain := Applied.outcome_blocks hb
    rw [happlied, Lookup.get_insert, if_pos rfl] at hchain
    exact hb.trans hchain.symm
  obtain ⟨undelivered, nextRank, permanent, heq⟩ := he.enqueueAll_eq config
  rw [heq] at horderly ⊢
  refine ⟨horderly, h.running, h.buffered, h.backlog, ?_, ?_, fun n hn => ?_⟩
  · rw [hlast]
    exact htip
  · rw [hlast]
    exact hblock
  · rw [← List.cons_append, List.map_append, List.mem_append]
    rcases (hgrown.live n hn).2 with rfl | hold
    · exact .inr (List.mem_singleton_self _)
    · exact .inl (h.live n hold)

end Chain

end ShardLedger
