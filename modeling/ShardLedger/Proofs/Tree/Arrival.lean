import Mathlib.Data.List.Nodup
import ShardLedger.Proofs.Chain.Line
import ShardLedger.Proofs.Tree.Buffering
import ShardLedger.Proofs.Tree.Life

/-!
# Blocks that arrive in any order

The blocks of a line may arrive in any order. What has arrived is at all times a part of the line
without a gap, which has been applied, and some later blocks, which wait: a block right after the
applied part is applied, together with those that wait right after it, and every other one waits. So
whatever the order, the same blocks are applied in the same order.

- `Unforked`: a line of blocks that a chain accepts.
- `Branch.submit_next`, `Branch.submit_early`: a block of the line arrives.
- `Branch.deliver_line`: all of them arrive.
- `Branch.arrival_order`: the order of arrival does not matter.
-/

namespace ShardLedger

/-- A line of blocks after the genesis of chain `id`, which the chain accepts. -/
structure Unforked (rules : Rules) (id : ChainId) (genesis : Block) (xs : List Block) : Prop where
  links : Links xs id genesis xs
  names : ((genesis :: xs).map (·.id)).Nodup
  accepted : ∀ x ∈ xs, rules.accepts x = true

/-- On a chain that has grown along a line, nothing waits. -/
theorem Chain.holding_along {c : Chain} {seen front : List Block} {genesis : Block}
    (h : c.Along seen genesis front) : c.holding .empty ∅ = c := by
  rw [← h.backlog, ← h.buffered]
  rfl

namespace Branch

variable {rules : Rules} {roster : Roster} {b : Branch} {seen front back rest W xs ys : List Block}
  {genesis x y : Block} {q : Backlog} {m : BlockMap Block}

/-! ### Applying a line -/

theorem applyAll_cons (rules : Rules) (roster : Roster) (b : Branch) (x : Block)
    (rest : List Block) : applyAll rules roster b (x :: rest) =
      ((applyAll rules (b.apply rules roster x).2.1 (b.apply rules roster x).1 rest).1,
        (applyAll rules (b.apply rules roster x).2.1 (b.apply rules roster x).1 rest).2.1,
        if (b.apply rules roster x).2.2.isEmpty then
          (applyAll rules (b.apply rules roster x).2.1 (b.apply rules roster x).1 rest).2.2.1
        else
          (applyAll rules (b.apply rules roster x).2.1 (b.apply rules roster x).1 rest).2.2.1 + 1,
        (b.apply rules roster x).2.2 ++
          (applyAll rules (b.apply rules roster x).2.1 (b.apply rules roster x).1 rest).2.2.2) :=
  rfl

/-- Blocks are applied one part after the other. -/
theorem applyAll_append (rules : Rules) (ys : List Block) : ∀ (xs : List Block) (roster : Roster)
    (b : Branch), ∃ n, applyAll rules roster b (xs ++ ys) =
      ((applyAll rules (applyAll rules roster b xs).2.1 (applyAll rules roster b xs).1 ys).1,
        (applyAll rules (applyAll rules roster b xs).2.1 (applyAll rules roster b xs).1 ys).2.1, n,
        (applyAll rules roster b xs).2.2.2 ++
          (applyAll rules (applyAll rules roster b xs).2.1 (applyAll rules roster b xs).1 ys).2.2.2)
  | [], _, _ => ⟨_, rfl⟩
  | x :: rest, roster, b => by
    obtain ⟨n, ih⟩ := applyAll_append rules ys rest (b.apply rules roster x).2.1
      (b.apply rules roster x).1
    rw [List.cons_append, applyAll_cons, applyAll_cons, ih, List.append_assoc]
    exact ⟨_, rfl⟩

theorem apply_along (rules : Rules) (roster : Roster) (h : b.chain.Along seen genesis front)
    (hx : Follows seen b.chain.id (front.getLastD genesis) x)
    (hnew : x.id ∉ (genesis :: front).map (·.id)) :
    (b.apply rules roster x).1.chain.Along seen genesis (front ++ [x]) ∧
      (b.apply rules roster x).1.chain.id = b.chain.id := by
  obtain ⟨a, ha, halong⟩ := h.enter hx hnew rules.config
  refine ⟨halong.of_bare (apply_top ha), ?_⟩
  obtain ⟨nextRank, permanent, heq⟩ := Chain.enqueueAll_eq rules.config a.outcome.2 a.outcome.1
  have hid : (b.apply rules roster x).1.chain.id = _ := Chain.id_of_bare (apply_top ha)
  rw [heq, Chain.Applied.outcome_rest ha] at hid
  exact hid

/-- A chain that applies a line grows along it. -/
theorem applyAll_along (rules : Rules) : ∀ (xs : List Block) (roster : Roster) {b : Branch}
    {front : List Block},
    b.chain.Along seen genesis front → Links seen b.chain.id (front.getLastD genesis) xs →
      ((genesis :: front ++ xs).map (·.id)).Nodup →
        (applyAll rules roster b xs).1.chain.Along seen genesis (front ++ xs) ∧
          (applyAll rules roster b xs).1.chain.id = b.chain.id
  | [], _, _, front, h, _, _ => ⟨(List.append_nil front).symm ▸ h, rfl⟩
  | x :: rest, roster, b, front, h, hlinks, hids => by
    have hnew : x.id ∉ (genesis :: front).map (·.id) := by
      rw [List.map_append, List.nodup_append] at hids
      exact fun hin => hids.2.2 _ hin _ (List.mem_cons_self ..) rfl
    obtain ⟨halong, hid⟩ := apply_along rules roster h hlinks.1 hnew
    have hlast : (front ++ [x]).getLastD genesis = x := by
      rw [getLastD_append]
      rfl
    have hlater := applyAll_along rules rest (b.apply rules roster x).2.1 halong
      (by rw [hid, hlast]; exact hlinks.2) (by simpa using hids)
    rw [List.append_assoc, List.singleton_append, hid] at hlater
    exact hlater

/-! ### One arrival -/

/-- A block of a list without repetitions is in one of the two parts that the list is cut in. -/
theorem mem_dropWhile_iff {p : Block → Bool} (hrest : rest.Nodup) (hy : y ∈ rest) :
    y ∈ rest.dropWhile p ↔ y ∉ rest.takeWhile p := by
  rw [← List.takeWhile_append_dropWhile (p := p) (l := rest)] at hrest hy
  exact ⟨fun hdrop htake => (List.nodup_append.1 hrest).2.2 y htake y hdrop rfl,
    (List.mem_append.1 hy).resolve_left⟩

/-- The blocks behind the first one of a line are told apart by their names. -/
theorem id_mem_cons_iff (hids : ((x :: rest).map (·.id)).Nodup) (hxs : xs ⊆ rest) (hy : y ∈ rest) :
    y.id ∈ (x :: xs).map (·.id) ↔ y ∈ xs := by
  refine ⟨fun hin => ?_, fun hin => List.mem_map_of_mem (List.mem_cons_of_mem _ hin)⟩
  obtain ⟨v, hv, hid⟩ := List.mem_map.1 hin
  rw [List.map_cons, List.nodup_cons] at hids
  rcases List.mem_cons.1 hv with rfl | hv
  · exact absurd (hid ▸ List.mem_map_of_mem hy) hids.1
  · exact List.inj_on_of_nodup_map hids.2 (hxs hv) hy hid ▸ hv

theorem holding_holding {q' : Backlog} {m' : BlockMap Block} :
    (b.holding q m).withChain (b.chain.holding q' m') = b.holding q' m' := by
  cases b <;> rfl

/-- A block that is new to the line and does not wait is unknown. -/
theorem knows_eq_false (h : b.chain.Along seen genesis front)
    (hnew : y.id ∉ (genesis :: front).map (·.id)) (hnames : Backlog.Names W m)
    (hW : ∀ w ∈ W, w.id ≠ y.id) : (b.chain.holding q m).knows y.id = false := by
  have hblocks : b.chain.blocks[y.id]? = none := h.not_held (h.not_live hnew)
  exact Bool.or_eq_false_iff.2 ⟨Lookup.contains_eq_false.2 hblocks,
    Lookup.contains_eq_false.2 (hnames.lookup_none hW)⟩

section

variable (h : b.chain.Along seen genesis front)
  (hids : ((genesis :: front ++ x :: rest).map (·.id)).Nodup) (hW : W ⊆ rest)
  (hlists : Backlog.Lists W q) (hnames : Backlog.Names W m)

include hids in
theorem new_of_nodup (hy : y ∈ x :: rest) : y.id ∉ (genesis :: front).map (·.id) := by
  rw [List.map_append, List.nodup_append] at hids
  exact fun hin => hids.2.2 _ hin _ (List.mem_map_of_mem hy) rfl

include hids in
theorem back_nodup : ((x :: rest).map (·.id)).Nodup := by
  rw [List.map_append, List.nodup_append] at hids
  exact hids.2.1

include h hids hW hlists hnames

/-- The next block of the line is applied, together with the blocks that wait right after it. -/
theorem submit_next (roster : Roster)
    (hlinks : Links seen b.chain.id (front.getLastD genesis) (x :: rest))
    (haccepts : rules.accepts x = true) :
    ∃ q' m' n, Backlog.Lists (W.filter (· ∈ rest.dropWhile (· ∈ W))) q' ∧
      Backlog.Names (W.filter (· ∈ rest.dropWhile (· ∈ W))) m' ∧
      (b.holding q m).submit rules roster x =
        ⟨(applyAll rules roster b (x :: rest.takeWhile (· ∈ W))).1.holding q' m',
          (applyAll rules roster b (x :: rest.takeWhile (· ∈ W))).2.1, .applied n,
          (applyAll rules roster b (x :: rest.takeWhile (· ∈ W))).2.2.2⟩ := by
  have hback := back_nodup hids
  have hfirst : ∀ w ∈ rest, w.id ≠ x.id := fun w hw heq =>
    (List.nodup_cons.1 hback).1 (List.mem_map.2 ⟨w, hw, heq⟩)
  obtain ⟨q', hrelease, hleft⟩ := Backlog.release_line hlinks.2 hback hW hlists
  have hscreen : Chain.screen rules (b.holding q m).chain.id x =
      .ok (front.getLastD genesis).id := by
    rw [holding_chain]
    exact Chain.screen_of_admitted hlinks.1.toAdmitted haccepts hlinks.1.parent
  have hknows : (b.chain.holding q m).knows x.id = false :=
    knows_eq_false h (new_of_nodup hids (List.mem_cons_self ..)) hnames fun w hw => hfirst w (hW hw)
  have hreceive : (b.holding q m).chain.receive x (front.getLastD genesis).id =
      (b.chain.holding q' (((x :: rest.takeWhile (· ∈ W)).map (·.id)).foldl
        (fun m id => m.erase id) m), .released (x :: rest.takeWhile (· ∈ W))) := by
    rw [holding_chain, Chain.receive_releases (c := b.chain.holding q m) h.running hknows
      h.tip_block hlinks.1.rank_le, show (b.chain.holding q m).backlog.release x = _ from hrelease]
    rfl
  -- what is left waits behind the first block that does not
  have hleft' : Backlog.Names (W.filter (· ∉ rest.takeWhile (· ∈ W))) _ :=
    hnames.forget fun w hw =>
      id_mem_cons_iff hback (List.takeWhile_sublist _).subset (hW hw)
  refine ⟨q', _, (applyAll rules roster b (x :: rest.takeWhile (· ∈ W))).2.2.1, hleft,
    hleft'.congr fun w => ?_, ?_⟩
  · simp only [List.mem_filter, decide_eq_true_eq]
    exact and_congr_right fun hw =>
      (mem_dropWhile_iff ((List.nodup_cons.1 hback).2.of_map _) (hW hw)).symm
  · rw [submit_released hscreen hreceive, holding_holding, applyAll_holding]

/-- A block of the line that is not the next one waits. -/
theorem submit_early (roster : Roster)
    (hlinks : Links seen b.chain.id (front.getLastD genesis) (x :: rest))
    (haccepts : rules.accepts y = true) (hy : y ∈ rest) (hyW : y ∉ W) :
    ∃ q' m', Backlog.Lists (y :: W) q' ∧ Backlog.Names (y :: W) m' ∧
      (b.holding q m).submit rules roster y = ⟨b.holding q' m', roster, .buffered, []⟩ := by
  have hback := back_nodup hids
  obtain ⟨p, hp, hparent⟩ := hlinks.2.parent y hy
  have hadmitted := hlinks.admitted y (List.mem_cons_of_mem _ hy)
  have hinj : ∀ w ∈ W, w.id ≠ y.id := fun w hw hid => hyW <|
    List.inj_on_of_nodup_map (List.nodup_cons.1 hback).2 (hW hw) hy hid ▸ hw
  have honly : ∀ w ∈ W, w.parent? ≠ some p.id := fun w hw heq => hyW <|
    hlinks.2.parent_inj hback w (hW hw) y hy (heq.trans hparent.symm) ▸ hw
  have hscreen : Chain.screen rules (b.holding q m).chain.id y = .ok p.id := by
    rw [holding_chain]
    exact Chain.screen_of_admitted hadmitted haccepts hparent
  have hknows : (b.chain.holding q m).knows y.id = false :=
    knows_eq_false h (new_of_nodup hids (List.mem_cons_of_mem _ hy)) hnames hinj
  have hgone : b.chain.blocks[p.id]? = none := h.not_held (h.not_live (new_of_nodup hids hp))
  have hrank : b.chain.nextRank ≤ y.rank.current :=
    (hlinks.above h.nextRank_le).1 y (List.mem_cons_of_mem _ hy)
  have hreceive : (b.holding q m).chain.receive y p.id =
      (b.chain.holding (q.enlist y [p.id]) (m.insert y.id y), .done .buffered) := by
    rw [holding_chain]
    exact Chain.receive_buffers (c := b.chain.holding q m) h.running hknows hgone hrank
  refine ⟨_, _, hlists.enlist hparent honly, hnames.insert hinj, ?_⟩
  rw [submit_done hscreen hreceive, holding_holding]

end

/-! ### All arrivals -/

theorem deliver_cons (rules : Rules) (roster : Roster) (b : Branch) (y : Block) (ys : List Block) :
    b.deliver rules roster (y :: ys) =
      (((b.submit rules roster y).branch.deliver rules (b.submit rules roster y).roster ys).1,
        b.receipt rules roster y ::
          ((b.submit rules roster y).branch.deliver rules (b.submit rules roster y).roster ys).2) :=
  rfl

/-- Once the next block has arrived, those that are yet to come and those that still wait are the
rest of the line. -/
theorem perm_dropWhile (hrest : rest.Nodup) (hperm : (W ++ ys).Perm rest) :
    (W.filter (· ∈ rest.dropWhile (· ∈ W)) ++ ys).Perm (rest.dropWhile (· ∈ W)) := by
  have hnodup := List.nodup_append.1 (hperm.nodup_iff.2 hrest)
  refine (List.perm_ext_iff_of_nodup ?_ (hrest.sublist (List.dropWhile_sublist _))).2 fun w => ?_
  · exact List.nodup_append.2 ⟨hnodup.1.filter _, hnodup.2.1, fun v hv w hw =>
      hnodup.2.2 v (List.mem_filter.1 hv).1 w hw⟩
  · rw [List.mem_append, List.mem_filter, decide_eq_true_eq]
    constructor
    · rintro (⟨-, hdrop⟩ | hw)
      · exact hdrop
      · -- a block that does not wait stands after the ones that do
        have hin := hperm.subset (List.mem_append_right _ hw)
        refine (mem_dropWhile_iff hrest hin).2 fun htake => ?_
        have hwait := of_decide_eq_true (List.all_eq_true.1 List.all_takeWhile w htake)
        exact hnodup.2.2 w hwait w hw rfl
    · intro hdrop
      have hin := hperm.symm.subset ((List.dropWhile_sublist _).subset hdrop)
      exact (List.mem_append.1 hin).imp_left fun hw => ⟨hw, hdrop⟩

/-- What still waits does not wait for the applied part of the line. -/
theorem filter_subset_tail :
    W.filter (· ∈ rest.dropWhile (· ∈ W)) ⊆ (rest.dropWhile (· ∈ W)).tail := by
  intro w hw
  rw [List.mem_filter, decide_eq_true_eq] at hw
  obtain ⟨hw, hdrop⟩ := hw
  cases hd : rest.dropWhile (· ∈ W) with
  | nil =>
    rw [hd] at hdrop
    cases hdrop
  | cons d later =>
    have hnot := List.head_dropWhile_not (p := fun v => decide (v ∈ W)) (l := rest)
      (by rw [hd]; exact List.cons_ne_nil _ _)
    simp only [hd, List.head_cons, decide_eq_false_iff_not] at hnot
    rw [hd] at hdrop
    exact (List.mem_cons.1 hdrop).resolve_left fun heq => hnot (heq ▸ hw)

/-- One arrival, and then all others. -/
theorem delivered_of_submit {b b' last : Branch} {roster' : Roster} {outcome : Outcome}
    {events later : List Event}
    (hsubmit : b.submit rules roster y = ⟨b', roster', outcome, events⟩)
    (hout : outcome.isAccepted = true)
    (hlater : (b'.deliver rules roster' ys).1 = last ∧
      eventsIn (b'.deliver rules roster' ys).2 = later ∧
      ∀ r ∈ (b'.deliver rules roster' ys).2, r.outcome.isAccepted = true) :
    (b.deliver rules roster (y :: ys)).1 = last ∧
      eventsIn (b.deliver rules roster (y :: ys)).2 = events ++ later ∧
      ∀ r ∈ (b.deliver rules roster (y :: ys)).2, r.outcome.isAccepted = true := by
  obtain ⟨hlast, hevents, hall⟩ := hlater
  have hreceipt : (b.receipt rules roster y).outcome = outcome ∧
      (b.receipt rules roster y).events = events := by
    unfold receipt
    rw [hsubmit]
    exact ⟨rfl, rfl⟩
  rw [deliver_cons, hsubmit]
  refine ⟨hlast, ?_, List.forall_mem_cons.2 ⟨hreceipt.1.symm ▸ hout, hall⟩⟩
  show (b.receipt rules roster y).events ++ eventsIn _ = _
  rw [hreceipt.2, hevents]

theorem holding_along (h : b.chain.Along seen genesis front) : b.holding .empty ∅ = b := by
  rw [← h.backlog, ← h.buffered]
  exact holding_self b

/-- Blocks of a line arrive on a chain that has grown along it, while others of them wait there. The
chain ends up as if it had applied them all in order. -/
theorem deliver_line : ∀ (ys : List Block) (roster : Roster) {b : Branch}
    {front back W : List Block} {q : Backlog} {m : BlockMap Block},
    b.chain.Along seen genesis front → Links seen b.chain.id (front.getLastD genesis) back →
      ((genesis :: front ++ back).map (·.id)).Nodup → (∀ x ∈ back, rules.accepts x = true) →
      (W ++ ys).Perm back → W ⊆ back.tail → Backlog.Lists W q → Backlog.Names W m →
        ((b.holding q m).deliver rules roster ys).1 = (applyAll rules roster b back).1 ∧
        eventsIn ((b.holding q m).deliver rules roster ys).2 =
          (applyAll rules roster b back).2.2.2 ∧
        ∀ r ∈ ((b.holding q m).deliver rules roster ys).2, r.outcome.isAccepted = true
  | [], roster, b, front, [], W, q, m, h, _, hids, _, hperm, hW, hlists, hnames => by
    rw [List.append_nil] at hperm
    obtain rfl := hperm.eq_nil
    obtain rfl := hlists.eq_empty
    obtain rfl := hnames.eq_empty
    rw [holding_along h]
    exact ⟨rfl, rfl, fun _ hr => nomatch hr⟩
  | [], _, _, _, x :: rest, W, _, _, _, _, hids, _, hperm, hW, _, _ => by
    -- the next block is not among those that wait
    rw [List.append_nil] at hperm
    have hx : x ∈ rest := hW (hperm.symm.subset (List.mem_cons_self ..))
    exact absurd (List.mem_map_of_mem hx) (List.nodup_cons.1 (back_nodup hids)).1
  | y :: _, _, _, _, [], _, _, _, _, _, _, _, hperm, _, _, _ =>
    nomatch hperm.subset (List.mem_append_right _ (List.mem_cons_self ..))
  | y :: ys, roster, b, front, x :: rest, W, q, m, h, hlinks, hids, haccepts, hperm, hW, hlists,
      hnames => by
    have hback := back_nodup hids
    have hmid : (y :: (W ++ ys)).Perm (x :: rest) := List.perm_middle.symm.trans hperm
    have hy : y ∈ x :: rest := hmid.subset (List.mem_cons_self ..)
    have hyW : y ∉ W := fun hin => (List.nodup_append.1 (hperm.nodup_iff.2 (hback.of_map _))).2.2
      y hin y (List.mem_cons_self ..) rfl
    by_cases hyx : y = x
    · subst hyx
      obtain ⟨q', m', n, hlists', hnames', hsubmit⟩ :=
        submit_next h hids hW hlists hnames roster hlinks (haccepts y hy)
      -- the applied part of the line now ends where the first block is missing
      have hline : y :: rest = (y :: rest.takeWhile (· ∈ W)) ++ rest.dropWhile (· ∈ W) := by
        rw [List.cons_append, List.takeWhile_append_dropWhile]
      obtain ⟨n', happly⟩ := applyAll_append rules (rest.dropWhile (· ∈ W))
        (y :: rest.takeWhile (· ∈ W)) roster b
      have hparts := hlinks
      rw [hline] at hparts hids
      obtain ⟨hnow, hlater⟩ := links_append.1 hparts
      obtain ⟨halong, hid⟩ := applyAll_along rules _ roster h hnow (by
        rw [← List.append_assoc, List.map_append, List.nodup_append] at hids
        exact hids.1)
      obtain ⟨hbranch, hevents, hall⟩ := deliver_line ys
        (applyAll rules roster b (y :: rest.takeWhile (· ∈ W))).2.1 halong
        (by rwa [hid, getLastD_append]) (by simpa using hids)
        (fun w hw => haccepts w (List.mem_cons_of_mem _ ((List.dropWhile_sublist _).subset hw)))
        (perm_dropWhile (List.nodup_cons.1 hback).2.of_map hmid.cons_inv) filter_subset_tail
        hlists' hnames'
      rw [hline, happly]
      exact delivered_of_submit hsubmit rfl ⟨hbranch, hevents, hall⟩
    · obtain ⟨q', m', hlists', hnames', hsubmit⟩ := submit_early h hids hW hlists hnames roster hlinks
        (haccepts y hy) ((List.mem_cons.1 hy).resolve_left hyx) hyW
      have hlater := deliver_line ys roster h hlinks hids haccepts
        (W := y :: W) hmid (List.cons_subset.2 ⟨(List.mem_cons.1 hy).resolve_left hyx, hW⟩)
        hlists' hnames'
      have hboth := delivered_of_submit hsubmit rfl hlater
      rwa [List.nil_append] at hboth

/-- The blocks of a line may be submitted to a fresh chain in any order: none is turned away, the
same events are reported, and the chain and its children end up the same, with nothing waiting. -/
theorem arrival_order {id : ChainId} {graph : ForkGraph} {content : ContentStore}
    {cursor : Cursor} {permanent : Bool} {b : Branch}
    (hgraph : Chain.newGraph rules.config genesis.id = .ok graph)
    (hb : b = leaf { Chain.start id genesis graph content cursor with permanent })
    (hline : Unforked rules id genesis xs) (roster : Roster) (hperm : ys.Perm xs) :
    (∀ r ∈ (b.deliver rules roster ys).2, r.outcome.isAccepted = true) ∧
      eventsIn (b.deliver rules roster ys).2 = eventsIn (b.deliver rules roster xs).2 ∧
      (b.deliver rules roster ys).1 = (b.deliver rules roster xs).1 ∧
      (b.deliver rules roster ys).1.chain.buffered = ∅ ∧
      (b.deliver rules roster ys).1.chain.backlog = .empty := by
  have halong : b.chain.Along xs genesis [] := by
    rw [hb]
    exact Chain.along_start permanent hgraph
  have hlinks : Links xs b.chain.id genesis xs := by
    rw [hb]
    exact hline.links
  have hdeliver : ∀ zs : List Block, zs.Perm xs →
      (b.deliver rules roster zs).1 = (applyAll rules roster b xs).1 ∧
        eventsIn (b.deliver rules roster zs).2 = (applyAll rules roster b xs).2.2.2 ∧
        ∀ r ∈ (b.deliver rules roster zs).2, r.outcome.isAccepted = true := by
    intro zs hzs
    have h := deliver_line zs roster (W := []) halong hlinks hline.names hline.accepted
      hzs (List.nil_subset _) Backlog.lists_empty Backlog.names_empty
    rwa [holding_along halong] at h
  obtain ⟨hbranch, hevents, hall⟩ := hdeliver ys hperm
  obtain ⟨hbranch', hevents', -⟩ := hdeliver xs (List.Perm.refl _)
  have hlast := (applyAll_along rules xs roster halong hlinks hline.names).1
  exact ⟨hall, hevents.trans hevents'.symm, hbranch.trans hbranch'.symm, hbranch ▸ hlast.buffered,
    hbranch ▸ hlast.backlog⟩

/-- One confirmation makes a block final, and every chain splits. -/
def sampleSplitting : Rules := { sampleRules 1 with load := ⟨fun _ => true, fun _ _ _ => false⟩ }

/-- Three blocks in a line. -/
def sampleLine : List Block :=
  [sampleAfter 0 1 ⟨1, 2⟩, sampleAfter 1 2 ⟨2, 3⟩, sampleAfter 2 3 ⟨3, 4⟩]

/-- Three blocks arrive in the reverse order. The last of them releases the others, and the chain
splits in the middle of that. -/
theorem sample_arrival_order : ∃ graph, Unforked sampleSplitting (.ofWord 2) sampleSeed sampleLine ∧
    (sampleRun sampleSplitting graph sampleLine.reverse).2.map (·.outcome) =
      [.buffered, .buffered, .applied 3] ∧
    (sampleRun sampleSplitting graph sampleLine.reverse).1.isSplit = true ∧
    eventsIn (sampleRun sampleSplitting graph sampleLine.reverse).2 =
      eventsIn (sampleRun sampleSplitting graph sampleLine).2 ∧
    (sampleRun sampleSplitting graph sampleLine.reverse).1 =
      (sampleRun sampleSplitting graph sampleLine).1 ∧
    (sampleRun sampleSplitting graph sampleLine.reverse).1.chain.buffered = ∅ := by
  have hline : Unforked sampleSplitting (.ofWord 2) sampleSeed sampleLine := by
    have hfirst : Follows sampleLine (.ofWord 2) sampleSeed (sampleAfter 0 1 ⟨1, 2⟩) :=
      ⟨⟨by decide, by decide, by decide⟩, by decide, by decide⟩
    have hsecond : Follows sampleLine (.ofWord 2) (sampleAfter 0 1 ⟨1, 2⟩)
        (sampleAfter 1 2 ⟨2, 3⟩) := ⟨⟨by decide, by decide, by decide⟩, by decide, by decide⟩
    have hthird : Follows sampleLine (.ofWord 2) (sampleAfter 1 2 ⟨2, 3⟩)
        (sampleAfter 2 3 ⟨3, 4⟩) := ⟨⟨by decide, by decide, by decide⟩, by decide, by decide⟩
    exact ⟨⟨hfirst, hsecond, hthird, trivial⟩, by decide, fun _ _ => rfl⟩
  obtain ⟨graph, hgraph, hout, hsplit⟩ : ∃ graph,
      Chain.newGraph sampleSplitting.config sampleSeed.id = .ok graph ∧
      (sampleRun sampleSplitting graph sampleLine.reverse).2.map (·.outcome) =
        [.buffered, .buffered, .applied 3] ∧
      (sampleRun sampleSplitting graph sampleLine.reverse).1.isSplit = true :=
    ⟨_, rfl, by decide +kernel, by decide +kernel⟩
  obtain ⟨-, hevents, hbranch, hbuffered, -⟩ := @arrival_order sampleSplitting _ _ _ _ _ .empty .top
    false _ hgraph rfl hline ⟨[], []⟩ sampleLine.reverse_perm
  exact ⟨graph, hline, hout, hsplit, hevents, hbranch, hbuffered⟩

end Branch

end ShardLedger
