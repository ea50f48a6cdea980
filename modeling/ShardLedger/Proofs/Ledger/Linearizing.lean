import ShardLedger.Proofs.Ledger.Floors
import ShardLedger.Proofs.Order.LaneByLane
import ShardLedger.Proofs.StableSort

/-!
# One run of the linearizer

A run sees of its sources no more than their floors and heads. So what it does can be said for any
sources, whether their queues are sorted or not: from each of them it takes what stands before the
first block that the bar holds back.

## Proof structure

A run takes one head after the other (`Drained`), and all that holds of a run holds of such heads by
induction. Where the queues are sorted, the heads come in the order of a stable sort, because a list
that is sorted by rank is told by its blocks of each rank (`eq_of_filter_eq`). Where no two sources
have a rank in common, the lowest head is the same wherever a scan starts (`Drained.unscanned`).

- `Interleaved`: a list that takes queues apart, head by head.
- `Source.below`, `Source.beyond`: the two parts of a source at a bar.
- `Linearizer.Turns`: a run as a loop that draws a fresh bar in every turn.
- `Linearizer.run_merges`: all that a run does.
-/

namespace ShardLedger

/-! ### The bar -/

/-- The bar is the least floor. Without sources it is the largest word. -/
def IsBar (bar : UInt64) (sources : List Source) : Prop :=
  (∀ s ∈ sources, bar ≤ s.floor) ∧
    ((∃ s ∈ sources, s.floor = bar) ∨ (sources = [] ∧ bar = topWord))

theorem isBar_confirmBar (sources : List Source) : IsBar (confirmBar sources) sources := by
  -- the running minimum is where it started, or it is a floor
  have hfold : ∀ (sources : List Source) (bar : UInt64),
      let low := sources.foldl (fun bar s => if s.floor < bar then s.floor else bar) bar
      low = bar ∨ ∃ s ∈ sources, s.floor = low := by
    intro sources
    induction sources with
    | nil => exact fun bar => .inl rfl
    | cons t rest ih =>
      intro bar
      rcases ih (if t.floor < bar then t.floor else bar) with hsame | ⟨s, hs, hfloor⟩
      · rw [List.foldl_cons, hsame]
        split
        · exact .inr ⟨t, List.mem_cons_self .., rfl⟩
        · exact .inl rfl
      · exact .inr ⟨s, List.mem_cons_of_mem _ hs, hfloor⟩
  refine ⟨fun s hs => confirmBar_le hs, ?_⟩
  rcases hfold sources topWord with hsame | hfloor
  · cases sources with
    | nil => exact .inr ⟨rfl, rfl⟩
    | cons s rest =>
      -- then the first floor is the largest word as well
      have hbar : confirmBar (s :: rest) = topWord := hsame
      have hle := confirmBar_le (List.mem_cons_self (a := s) (l := rest))
      exact .inl ⟨s, List.mem_cons_self .., UInt64.le_antisymm (hbar ▸ le_topWord s.floor) hle⟩
  · exact .inl hfloor

/-- Only the floors count, in whatever order. -/
theorem confirmBar_congr {sources sources' : List Source}
    (h : (sources.map (·.floor)).Perm (sources'.map (·.floor))) :
    confirmBar sources = confirmBar sources' := by
  have hle : ∀ {xs ys : List Source}, (xs.map (·.floor)).Perm (ys.map (·.floor)) →
      confirmBar xs ≤ confirmBar ys := by
    intro xs ys hperm
    refine le_confirmBar fun s hs => ?_
    obtain ⟨t, ht, hfloor⟩ := List.mem_map.1 (hperm.mem_iff.2 (List.mem_map_of_mem hs))
    rw [← hfloor]
    exact confirmBar_le ht
  exact UInt64.le_antisymm (hle h) (hle h.symm)

/-! ### The two parts of a source -/

namespace Source

variable {bar : UInt64} {s : Source} {b : Block} {queue : List Block}

/-- The blocks of the source before the first one that is not below the bar. -/
def below (bar : UInt64) (s : Source) : List (ChainId × Block) :=
  (s.queue.takeWhile fun b => b.rank.current < bar).map (s.chain, ·)

/-- The source from the first block on that is not below the bar. -/
def beyond (bar : UInt64) (s : Source) : Source :=
  { s with queue := s.queue.dropWhile fun b => b.rank.current < bar }

theorem below_cons (hq : s.queue = b :: queue) (hb : b.rank.current < bar) :
    s.below bar = (s.chain, b) :: ({ s with queue } : Source).below bar := by
  unfold below
  rw [hq, List.takeWhile_cons_of_pos (by simpa using hb), List.map_cons]

theorem beyond_cons (hq : s.queue = b :: queue) (hb : b.rank.current < bar) :
    s.beyond bar = ({ s with queue } : Source).beyond bar := by
  unfold beyond
  rw [hq, List.dropWhile_cons_of_pos (by simpa using hb)]

/-- A head that is not below the bar holds the whole queue back. -/
theorem held_back (h : ∀ rank ∈ s.headRank?, bar ≤ rank) : s.below bar = [] ∧ s.beyond bar = s := by
  obtain ⟨chain, floor, queue⟩ := s
  cases queue with
  | nil => exact ⟨rfl, rfl⟩
  | cons b queue =>
    have hb : ¬b.rank.current < bar := UInt64.not_lt.2 (h _ rfl)
    unfold below beyond
    rw [List.takeWhile_cons_of_neg (by simpa using hb),
      List.dropWhile_cons_of_neg (by simpa using hb)]
    exact ⟨rfl, rfl⟩

/-- What is left of a source has no head below the bar. -/
theorem le_headRank_beyond : ∀ rank ∈ (s.beyond bar).headRank?, bar ≤ rank := by
  intro rank hrank
  obtain ⟨b, hb, rfl⟩ := Option.map_eq_some_iff.1 hrank
  have hnot := List.head?_dropWhile_not (fun b : Block => decide (b.rank.current < bar)) s.queue
  have hb : (s.queue.dropWhile fun b => decide (b.rank.current < bar)).head? = some b := hb
  rw [hb] at hnot
  exact UInt64.not_lt.1 (of_decide_eq_false (by simpa using hnot))

/-- The head of a sorted queue ranks no higher than anything that is taken. -/
theorem head_le_below (hsorted : (s.queue.map (·.rank.current)).Pairwise (· ≤ ·))
    {d : ChainId × Block} (hd : d ∈ s.below bar) :
    ∃ rank ∈ s.headRank?, rank ≤ d.2.rank.current := by
  obtain ⟨x, hx, rfl⟩ := List.mem_map.1 hd
  have hx := (List.takeWhile_sublist _).subset hx
  obtain ⟨chain, floor, queue⟩ := s
  cases queue with
  | nil => cases hx
  | cons b queue =>
    refine ⟨b.rank.current, rfl, ?_⟩
    rcases List.mem_cons.1 hx with rfl | hx
    · exact UInt64.le_refl _
    · rw [List.map_cons, List.pairwise_cons] at hsorted
      exact hsorted.1 _ (List.mem_map_of_mem hx)

end Source

/-! ### Head by head -/

/-- The list takes the queues apart: each of its elements is the head of some queue, until nothing
is left of any. -/
inductive Interleaved {α : Type} : List (List α) → List α → Prop
  | done {queues : List (List α)} (h : ∀ q ∈ queues, q = []) : Interleaved queues []
  | take {pre post : List (List α)} {q out : List α} {x : α}
      (h : Interleaved (pre ++ q :: post) out) : Interleaved (pre ++ (x :: q) :: post) (x :: out)

/-- The lowest heads below the bar are taken from the sources one by one, until there is none. -/
inductive Drained (bar : UInt64) :
    List Source → List (ChainId × Block) → List Source → Prop
  | done {sources : List Source} (h : ∀ s ∈ sources, ∀ rank ∈ s.headRank?, bar ≤ rank) :
      Drained bar sources [] sources
  | take {pre post left : List Source} {s : Source} {b : Block} {queue : List Block}
      {taken : List (ChainId × Block)} (hq : s.queue = b :: queue)
      (hlow : Lowest bar pre b.rank.current post)
      (h : Drained bar (pre ++ { s with queue } :: post) taken left) :
      Drained bar (pre ++ s :: post) ((s.chain, b) :: taken) left

theorem drained (bar : UInt64) (sources : List Source) :
    Drained bar sources (drainBelow bar sources).1 (drainBelow bar sources).2 := by
  cases htake : takeLowest? bar sources with
  | none =>
    rw [drainBelow_none htake]
    exact .done (le_of_takeLowest?_none htake)
  | some found =>
    obtain ⟨⟨chain, b⟩, left⟩ := found
    rw [drainBelow_some htake]
    obtain ⟨pre, s, post, queue, hsplit, hq, rfl, hleft, hlow⟩ := takeLowest?_spec htake
    have hlater := drained bar left
    rw [hleft] at hlater ⊢
    rw [hsplit]
    exact .take hq hlow hlater
termination_by queuedCount sources
decreasing_by exact queuedCount_takeLowest? htake

section

variable {bar : UInt64} {sources left : List Source} {taken : List (ChainId × Block)}

/-- What is left of every source begins with the first block that is not below the bar. -/
theorem Drained.left_eq (h : Drained bar sources taken left) :
    left = sources.map (Source.beyond bar) := by
  induction h with
  | @done sources h =>
    exact (List.map_id' sources).symm.trans
      (List.map_congr_left fun s hs => (Source.held_back (h s hs)).2.symm)
  | take hq hlow _ ih =>
    rw [ih, List.map_append, List.map_append, List.map_cons, List.map_cons,
      Source.beyond_cons hq hlow.below]

theorem Drained.interleaved (h : Drained bar sources taken left) :
    Interleaved (sources.map (Source.below bar)) taken := by
  induction h with
  | done h =>
    refine .done fun q hq => ?_
    obtain ⟨s, hs, rfl⟩ := List.mem_map.1 hq
    exact (Source.held_back (h s hs)).1
  | take hq hlow _ ih =>
    rw [List.map_append, List.map_cons, Source.below_cons hq hlow.below]
    rw [List.map_append, List.map_cons] at ih
    exact ih.take

/-- Nothing is taken where no head is below the bar. -/
theorem drainBelow_eq_self (h : ∀ s ∈ sources, ∀ rank ∈ s.headRank?, bar ≤ rank) :
    drainBelow bar sources = ([], sources) := by
  cases htake : takeLowest? bar sources with
  | none => exact drainBelow_none htake
  | some found =>
    obtain ⟨pre, s, post, queue, rfl, hq, -, -, hlow⟩ := takeLowest?_spec htake
    have hle := h s (List.mem_append_right _ (List.mem_cons_self ..)) found.1.2.rank.current
      (by unfold Source.headRank?; rw [hq]; rfl)
    exact absurd hlow.below (UInt64.not_lt.2 hle)

/-! ### Sorted queues -/

/-- Blocks of the same rank come in the order of the sources. -/
theorem Drained.filter_eq (h : Drained bar sources taken left)
    (hsorted : ∀ s ∈ sources, (s.queue.map (·.rank.current)).Pairwise (· ≤ ·)) (rank : UInt64) :
    taken.filter (fun d => d.2.rank.current = rank) =
      (sources.flatMap (Source.below bar)).filter (fun d => d.2.rank.current = rank) := by
  induction h with
  | done h =>
    rw [List.flatMap_eq_nil_iff.2 fun s hs => (Source.held_back (h s hs)).1]
  | @take pre post left s b queue taken hq hlow _ ih =>
    obtain ⟨hpre, hs, hpost⟩ : (∀ s ∈ pre, (s.queue.map (·.rank.current)).Pairwise (· ≤ ·)) ∧
        (s.queue.map (·.rank.current)).Pairwise (· ≤ ·) ∧
        ∀ s ∈ post, (s.queue.map (·.rank.current)).Pairwise (· ≤ ·) := by
      rwa [List.forall_mem_append, List.forall_mem_cons] at hsorted
    have hcut : (queue.map (·.rank.current)).Pairwise (· ≤ ·) := by
      rw [hq, List.map_cons, List.pairwise_cons] at hs
      exact hs.2
    have hlater := ih (List.forall_mem_append.2 ⟨hpre, List.forall_mem_cons.2 ⟨hcut, hpost⟩⟩)
    rw [List.flatMap_append, List.flatMap_cons, List.filter_append, List.filter_append] at hlater ⊢
    rw [Source.below_cons hq hlow.below]
    by_cases hrank : b.rank.current = rank
    · -- the sources before it have only higher ranks
      have hnone :
          (pre.flatMap (Source.below bar)).filter (fun d => d.2.rank.current = rank) = [] := by
        refine List.filter_eq_nil_iff.2 fun d hd => ?_
        obtain ⟨t, ht, hd⟩ := List.mem_flatMap.1 hd
        obtain ⟨r, hr, hle⟩ := Source.head_le_below (hpre t ht) hd
        have hlt := UInt64.lt_of_lt_of_le (hlow.before t ht r hr) hle
        rw [decide_eq_true_eq]
        rintro rfl
        exact UInt64.lt_irrefl _ (hrank ▸ hlt)
      rw [hnone, List.nil_append] at hlater ⊢
      rw [List.filter_cons_of_pos (by simpa using hrank),
        List.filter_cons_of_pos (by simpa using hrank), hlater, List.cons_append]
    · rw [List.filter_cons_of_neg (by simpa using hrank),
        List.filter_cons_of_neg (by simpa using hrank), hlater]

end

section

variable {α : Type} (key : α → UInt64)

/-- A sorted list is told by its elements of each key, in their order. -/
theorem eq_of_filter_eq : ∀ {xs ys : List α},
    (xs.map key).Pairwise (· ≤ ·) → (ys.map key).Pairwise (· ≤ ·) →
      (∀ k, xs.filter (fun x => key x = k) = ys.filter (fun x => key x = k)) → xs = ys
  | [], [], _, _, _ => rfl
  | [], y :: ys, _, _, h => by
    have hy := h (key y)
    rw [List.filter_cons_of_pos (by simp)] at hy
    cases hy
  | x :: xs, [], _, _, h => by
    have hx := h (key x)
    rw [List.filter_cons_of_pos (by simp)] at hx
    cases hx
  | x :: xs, y :: ys, hxs, hys, h => by
    rw [List.map_cons, List.pairwise_cons] at hxs hys
    -- neither of the first elements is lower than the other one
    have hle : ∀ {x y : α} {xs ys : List α}, (∀ k ∈ ys.map key, key y ≤ k) →
        (x :: xs).filter (fun z => key z = key x) = (y :: ys).filter (fun z => key z = key x) →
          key y ≤ key x := by
      intro x y xs ys hleast heq
      have hx : x ∈ (y :: ys).filter (fun z => key z = key x) :=
        heq ▸ List.mem_filter.2 ⟨List.mem_cons_self .., by simp⟩
      rcases List.mem_cons.1 (List.mem_filter.1 hx).1 with rfl | hx
      · exact UInt64.le_refl _
      · exact hleast _ (List.mem_map_of_mem hx)
    have hkey : key x = key y :=
      UInt64.le_antisymm (hle hxs.1 (h (key y)).symm) (hle hys.1 (h (key x)))
    have hfirst := h (key x)
    rw [List.filter_cons_of_pos (by simp), List.filter_cons_of_pos (by simp [hkey]),
      List.cons.injEq] at hfirst
    rw [hfirst.1, List.cons.injEq]
    refine ⟨rfl, eq_of_filter_eq hxs.2 hys.2 fun k => ?_⟩
    by_cases hk : key x = k
    · exact hk ▸ hfirst.2
    · have hrest := h k
      rwa [List.filter_cons_of_neg (by simpa using hk),
        List.filter_cons_of_neg (by simpa [← hkey] using hk)] at hrest

/-- The stable sort by a key. -/
def sortedBy (xs : List α) : List α := xs.mergeSort fun x y => key x ≤ key y

theorem sortedBy_sorted (xs : List α) : ((sortedBy key xs).map key).Pairwise (· ≤ ·) :=
  List.pairwise_map.2 (pairwise_mergeSort_key key xs)

/-- The sort is stable. -/
theorem filter_sortedBy (xs : List α) (k : UInt64) :
    (sortedBy key xs).filter (fun x => key x = k) = xs.filter (fun x => key x = k) :=
  filter_mergeSort_key key xs k

end

/-! ### The order of a scan -/

section

variable {bar : UInt64} {sources sources' left left' pre post : List Source} {s t : Source}
  {taken taken' : List (ChainId × Block)}

/-- The two sources have no rank in common in what is taken from them. -/
def Source.Differ (bar : UInt64) (s t : Source) : Prop :=
  ∀ x ∈ s.below bar, ∀ y ∈ t.below bar, x.2.rank.current ≠ y.2.rank.current

theorem Source.Differ.symm (h : s.Differ bar t) : t.Differ bar s :=
  fun x hx y hy heq => h y hy x hx heq.symm

/-- No two different sources have a rank in common in what is taken from them. -/
def Apart (bar : UInt64) (sources : List Source) : Prop := sources.Pairwise (Source.Differ bar)

theorem Apart.perm (h : Apart bar sources) (hperm : sources.Perm sources') : Apart bar sources' :=
  (hperm.pairwise_iff Source.Differ.symm).1 h

theorem apart_middle : Apart bar (pre ++ s :: post) ↔
    (∀ t ∈ pre ++ post, s.Differ bar t) ∧ Apart bar (pre ++ post) :=
  (List.perm_middle.pairwise_iff Source.Differ.symm).trans List.pairwise_cons

/-- Whichever way the sources are scanned, the same heads are taken. -/
theorem Drained.unscanned (h : Drained bar sources taken left) :
    ∀ {sources' left' : List Source} {taken' : List (ChainId × Block)}, sources.Perm sources' →
      Apart bar sources → Drained bar sources' taken' left' → taken = taken' := by
  have hhead : ∀ {s : Source} {b : Block} {queue : List Block}, s.queue = b :: queue →
      s.headRank? = some b.rank.current := by
    intro s b queue hq
    unfold Source.headRank?
    rw [hq]
    rfl
  induction h with
  | done hnone =>
    intro sources' left' taken' hperm _ h'
    cases h' with
    | done => rfl
    | @take pre' post' _ s' b' queue' _ hq' hlow' =>
      have hs' := hperm.mem_iff.2 (List.mem_append_right pre' (List.mem_cons_self (l := post')))
      exact absurd hlow'.below (UInt64.not_lt.2 (hnone s' hs' _ (hhead hq')))
  | @take pre post left s b queue taken hq hlow _ ih =>
    intro sources' left' taken' hperm hapart h'
    have hs := List.mem_append_right pre (List.mem_cons_self (a := s) (l := post))
    cases h' with
    | done hnone' =>
      exact absurd hlow.below (UInt64.not_lt.2 (hnone' s (hperm.mem_iff.1 hs) _ (hhead hq)))
    | @take pre' post' _ s' b' queue' taken' hq' hlow' hrest' =>
      have hs' := List.mem_append_right pre' (List.mem_cons_self (a := s') (l := post'))
      have hfinds : Finds bar (pre ++ s :: post) pre.length b.rank.current :=
        ⟨pre, s, post, rfl, rfl, hhead hq, hlow⟩
      have hfinds' : Finds bar (pre' ++ s' :: post') pre'.length b'.rank.current :=
        ⟨pre', s', post', rfl, rfl, hhead hq', hlow'⟩
      have hrank : b.rank.current = b'.rank.current :=
        UInt64.le_antisymm (hfinds.le s' (hperm.mem_iff.2 hs') _ (hhead hq'))
          (hfinds'.le s (hperm.mem_iff.1 hs) _ (hhead hq))
      obtain ⟨hdiffer, hothers⟩ := apart_middle.1 hapart
      -- heads of one rank are heads of one source
      obtain rfl : s = s' := by
        by_contra hne
        have hs' : s' ∈ pre ++ post := by
          have hin := List.perm_middle.mem_iff.1 (hperm.mem_iff.2 hs')
          exact (List.mem_cons.1 hin).resolve_left (Ne.symm hne)
        refine hdiffer s' hs' (s.chain, b) ?_ (s'.chain, b') ?_ hrank
        · rw [Source.below_cons hq hlow.below]
          exact List.mem_cons_self ..
        · rw [Source.below_cons hq' hlow'.below]
          exact List.mem_cons_self ..
      rw [hq, List.cons.injEq] at hq'
      obtain ⟨rfl, rfl⟩ := hq'
      have hsame : (pre ++ post).Perm (pre' ++ post') :=
        ((List.perm_middle.symm.trans hperm).trans List.perm_middle).cons_inv
      rw [ih ((List.perm_middle.trans (hsame.cons _)).trans List.perm_middle.symm) ?_ hrest']
      refine apart_middle.2 ⟨fun t ht x hx => hdiffer t ht x ?_, hothers⟩
      rw [Source.below_cons hq hlow.below]
      exact List.mem_cons_of_mem _ hx

end

namespace Linearizer

/-! ### Whole runs -/

/-- A run as a loop: what lies below the bar of the sources is placed, and then a fresh bar is drawn
from what is left of them, until a turn places nothing. -/
inductive Turns : Linearizer → List Source → Linearizer → List Linearized → List Source → Prop
  | last {l l' : Linearizer} {sources left : List Source}
      (h : l.run sources = (l', [], left)) : Turns l sources l' [] left
  | more {l l₁ l' : Linearizer} {sources left₁ left : List Source} {out later : List Linearized}
      (h : l.run sources = (l₁, out, left₁)) (hsome : out ≠ [])
      (hmore : Turns l₁ left₁ l' later left) : Turns l sources l' (out ++ later) left

/-- What a run below a bar makes of its sources: `out` is placed, and `left` is left of them. -/
structure Merges (l : Linearizer) (sources : List Source) (bar : UInt64) (l' : Linearizer)
    (out : List Linearized) (left : List Source) : Prop where
  isBar : IsBar bar sources
  /-- The loop comes to its end. -/
  turns : l.Turns sources l' out left
  noted : l' = ⟨l.delivered + out.length, bar⟩
  numbered : out.map (·.seq) = List.range' l.delivered out.length
  /-- Of each source all is placed that stands before the first block which is not below the bar, in
  its order. -/
  placed : Interleaved (sources.map (Source.below bar)) (out.map fun d => (d.chain, d.block))
  left_eq : left = sources.map (Source.beyond bar)
  again : l'.run left = (l', [], left)
  /-- From sorted queues comes their stable merge. -/
  merged : (∀ s ∈ sources, (s.queue.map (·.rank.current)).Pairwise (· ≤ ·)) →
    out.map (fun d => (d.chain, d.block)) =
      sortedBy (·.2.rank.current) (sources.flatMap (Source.below bar))
  /-- Where no ranks are tied, the order of the sources does not matter. -/
  unscanned : Apart bar sources → ∀ sources', sources.Perm sources' →
    (l.run sources').2.1 = out

theorem run_eq (l : Linearizer) (sources : List Source) :
    l.run sources =
      (⟨l.delivered + (drainBelow (confirmBar sources) sources).1.length, confirmBar sources⟩,
        (drainBelow (confirmBar sources) sources).1.zipIdx.map fun ((chain, block), i) =>
          ⟨l.delivered + i, chain, block⟩,
        (drainBelow (confirmBar sources) sources).2) := rfl

/-- A second run right after the first one places nothing. -/
theorem run_again (l : Linearizer) (sources : List Source) :
    (l.run sources).1.run (l.run sources).2.2 = ((l.run sources).1, [], (l.run sources).2.2) := by
  have hleft := (drained (confirmBar sources) sources).left_eq
  have hbar : confirmBar (drainBelow (confirmBar sources) sources).2 = confirmBar sources := by
    refine confirmBar_congr ?_
    rw [hleft, List.map_map]
    exact List.Perm.refl _
  have hnone : drainBelow (confirmBar sources) (drainBelow (confirmBar sources) sources).2 =
      ([], (drainBelow (confirmBar sources) sources).2) := by
    refine drainBelow_eq_self fun s hs => ?_
    rw [hleft] at hs
    obtain ⟨t, -, rfl⟩ := List.mem_map.1 hs
    exact Source.le_headRank_beyond
  rw [run_eq l sources, run_eq]
  dsimp only
  rw [hbar, hnone]
  rfl

theorem run_turns (l : Linearizer) (sources : List Source) :
    l.Turns sources (l.run sources).1 (l.run sources).2.1 (l.run sources).2.2 := by
  by_cases hnil : (l.run sources).2.1 = []
  · rw [hnil]
    exact .last (by rw [← hnil])
  · have hmore := Turns.more rfl hnil (.last (run_again l sources))
    rwa [List.append_nil] at hmore

/-- A run merges what its sources have below the least floor. -/
theorem run_merges (l : Linearizer) (sources : List Source) :
    l.Merges sources (confirmBar sources) (l.run sources).1 (l.run sources).2.1
      (l.run sources).2.2 := by
  have hdrained := drained (confirmBar sources) sources
  have hout : (l.run sources).2.1.map (fun d => (d.chain, d.block)) =
      (drainBelow (confirmBar sources) sources).1 := Ledger.map_zipIdx_block l.delivered _
  have hlength :
      (l.run sources).2.1.length = (drainBelow (confirmBar sources) sources).1.length := by
    rw [← hout, List.length_map]
  refine
    { isBar := isBar_confirmBar sources, turns := run_turns l sources, noted := ?_, numbered := ?_
      placed := ?_, left_eq := hdrained.left_eq, again := run_again l sources
      merged := fun hsorted => ?_, unscanned := fun hapart sources' hperm => ?_ }
  · rw [hlength]
    rfl
  · rw [hlength]
    exact Ledger.map_zipIdx_seq l.delivered _
  · rw [hout]
    exact hdrained.interleaved
  · rw [hout]
    refine eq_of_filter_eq (·.2.rank.current) (drainBelow_sorted _ hsorted)
      (sortedBy_sorted _ _) fun k => ?_
    rw [hdrained.filter_eq hsorted, filter_sortedBy]
  · have hbar : confirmBar sources = confirmBar sources' := confirmBar_congr (hperm.map _)
    rw [run_eq l sources', run_eq l sources, ← hbar]
    dsimp only
    rw [hdrained.unscanned hperm hapart (drained _ sources')]

def sampleSource (chain : ChainId) (floor : UInt64) (ranks : List UInt64) : Source :=
  ⟨chain, floor, ranks.map (Run.sampleBlock ⟨1⟩ chain ⟨0⟩ [])⟩

/-- Two sorted sources with a tie and with a block that is held back, and two that have no tie, of
which the first is not sorted. -/
theorem sample_run_merges : ∃ tied mixed : List Source,
    (∀ s ∈ tied, (s.queue.map (·.rank.current)).Pairwise (· ≤ ·)) ∧
      (Linearizer.run ⟨7, 0⟩ tied).2.1.map (fun d => (d.seq, d.chain, d.block.rank.current)) =
        [(7, .ofWord 2, 1), (8, .ofWord 2, 3), (9, .ofWord 3, 3)] ∧
      (Linearizer.run ⟨7, 0⟩ tied).2.1.map (fun d => (d.chain, d.block)) =
        sortedBy (·.2.rank.current) (tied.flatMap (Source.below 5)) ∧
      Apart (confirmBar mixed) mixed ∧ mixed.reverse ≠ mixed ∧
      (Linearizer.run ⟨7, 0⟩ mixed.reverse).2.1 = (Linearizer.run ⟨7, 0⟩ mixed).2.1 := by
  let tied := [sampleSource (.ofWord 2) 5 [1, 3, 9], sampleSource (.ofWord 3) 6 [3, 5]]
  let mixed := [sampleSource (.ofWord 2) 5 [3, 1, 9, 4], sampleSource (.ofWord 3) 6 [2, 4]]
  have hsorted : ∀ s ∈ tied, (s.queue.map (·.rank.current)).Pairwise (· ≤ ·) := by decide +kernel
  have hapart : Apart (confirmBar mixed) mixed := by
    unfold Apart Source.Differ
    decide +kernel
  exact ⟨tied, mixed, hsorted, by decide +kernel, (run_merges _ tied).merged hsorted, hapart,
    by decide +kernel, (run_merges _ mixed).unscanned hapart _ (List.reverse_perm _).symm⟩

end Linearizer

end ShardLedger
