import ShardLedger.Ledger.Linearizer
import ShardLedger.Proofs.Order.Board

/-!
# Draining the queues

One pass of the linearizer is a run of deliveries on the board: it takes the first of the lowest
heads as long as that one lies below the bar, and the bar lies below all that a chain may still
finalize.

- `confirmBar_le`, `takeLowest?_spec`: the bar and the head that is taken.
- `drainBelow_drains`: what a pass takes from its sources and what it leaves.
- `drainBelow_steps`: the pass as steps of the board.
-/

namespace ShardLedger

/-- The bar is no higher than any floor. -/
theorem confirmBar_le {sources : List Source} {s : Source} (h : s ∈ sources) :
    confirmBar sources ≤ s.floor := by
  -- the running minimum, for any start
  have hfold : ∀ (sources : List Source) (bar : UInt64),
      let low := sources.foldl (fun bar s => if s.floor < bar then s.floor else bar) bar
      low ≤ bar ∧ ∀ s ∈ sources, low ≤ s.floor := by
    intro sources
    induction sources with
    | nil => exact fun bar => ⟨UInt64.le_refl _, fun _ h => nomatch h⟩
    | cons t rest ih =>
      intro bar
      obtain ⟨hlow, hrest⟩ := ih (if t.floor < bar then t.floor else bar)
      have hmin : (if t.floor < bar then t.floor else bar) ≤ bar ∧
          (if t.floor < bar then t.floor else bar) ≤ t.floor := by
        split
        · rename_i hlt
          exact ⟨UInt64.le_of_lt hlt, UInt64.le_refl _⟩
        · rename_i hnot
          exact ⟨UInt64.le_refl _, UInt64.not_lt.1 hnot⟩
      refine ⟨UInt64.le_trans hlow hmin.1, fun s hs => ?_⟩
      rcases List.mem_cons.1 hs with rfl | hs
      · exact UInt64.le_trans hlow hmin.2
      · exact hrest s hs
  exact (hfold sources topWord).2 s h

/-- The lowest head below the bar: every head before it is higher, and none after it is lower. -/
structure Lowest (bar : UInt64) (pre : List Source) (rank : UInt64) (post : List Source) :
    Prop where
  below : rank < bar
  before : ∀ s ∈ pre, ∀ r ∈ s.headRank?, rank < r
  after : ∀ s ∈ post, ∀ r ∈ s.headRank?, rank ≤ r

theorem lowestHead?_none {bar : UInt64} : ∀ {sources : List Source},
    lowestHead? bar sources = none → ∀ s ∈ sources, ∀ r ∈ s.headRank?, bar ≤ r
  | [], _, _, hs => nomatch hs
  | t :: rest, h, s, hs => by
    unfold lowestHead? at h
    dsimp only at h
    -- an empty queue, a head on or above the bar, and a head below it, which is found for sure
    split at h
    · rename_i hnone
      rw [Option.map_eq_none_iff] at h
      rcases List.mem_cons.1 hs with rfl | hs
      · intro r hr
        rw [hnone] at hr
        cases hr
      · exact lowestHead?_none h s hs
    · rename_i rank hrank
      split at h
      · rename_i hbar
        rw [Option.map_eq_none_iff] at h
        rcases List.mem_cons.1 hs with rfl | hs
        · intro r hr
          rw [hrank, Option.mem_some_iff] at hr
          exact hr ▸ hbar
        · exact lowestHead?_none h s hs
      · split at h
        · cases h
        · split at h <;> cases h

/-- The head of the source in place `i` is the one to take. -/
def Finds (bar : UInt64) (sources : List Source) (i : Nat) (rank : UInt64) : Prop :=
  ∃ pre s post, sources = pre ++ s :: post ∧ pre.length = i ∧ s.headRank? = some rank ∧
    Lowest bar pre rank post

section

variable {bar rank : UInt64} {sources rest : List Source} {t : Source} {i : Nat}

theorem Finds.lt (h : Finds bar sources i rank) : rank < bar := by
  obtain ⟨_, _, _, _, _, _, hlow⟩ := h
  exact hlow.below

/-- No head is lower than the one to take. -/
theorem Finds.le (h : Finds bar sources i rank) :
    ∀ s ∈ sources, ∀ r ∈ s.headRank?, rank ≤ r := by
  obtain ⟨pre, u, post, rfl, -, hu, hlow⟩ := h
  intro s hs r hr
  rcases List.mem_append.1 hs with hs | hs
  · exact UInt64.le_of_lt (hlow.before s hs r hr)
  · rcases List.mem_cons.1 hs with rfl | hs
    · rw [hu, Option.mem_some_iff] at hr
      exact hr ▸ UInt64.le_refl _
    · exact hlow.after s hs r hr

/-- A head found further back is taken if it is strictly below the head of the first source. -/
theorem Finds.later (h : Finds bar rest i rank) (hfirst : ∀ q ∈ t.headRank?, rank < q) :
    Finds bar (t :: rest) (i + 1) rank := by
  obtain ⟨pre, s, post, rfl, rfl, hs, hlow⟩ := h
  refine ⟨t :: pre, s, post, rfl, rfl, hs, hlow.below, fun u hu => ?_, hlow.after⟩
  rcases List.mem_cons.1 hu with rfl | hu
  · exact hfirst
  · exact hlow.before u hu

/-- The head of the first source is taken if none is lower. -/
theorem Finds.first (hfirst : t.headRank? = some rank) (hbelow : rank < bar)
    (hrest : ∀ s ∈ rest, ∀ r ∈ s.headRank?, rank ≤ r) : Finds bar (t :: rest) 0 rank :=
  ⟨[], t, rest, rfl, rfl, hfirst, hbelow, fun _ hs => (nomatch hs), hrest⟩

end

theorem lowestHead?_spec {bar : UInt64} : ∀ {sources : List Source} {i : Nat} {rank : UInt64},
    lowestHead? bar sources = some (i, rank) → Finds bar sources i rank
  | t :: rest, i, rank, h => by
    unfold lowestHead? at h
    dsimp only at h
    -- the same three cases, the last of them against what is found further back
    split at h
    · rename_i hnone
      obtain ⟨⟨j, r⟩, hj, heq⟩ := Option.map_eq_some_iff.1 h
      rw [Prod.mk.injEq] at heq
      obtain ⟨rfl, rfl⟩ := heq
      refine (lowestHead?_spec hj).later fun q hq => ?_
      rw [hnone] at hq
      cases hq
    · rename_i first hfirst
      split at h
      · rename_i hbar
        obtain ⟨⟨j, r⟩, hj, heq⟩ := Option.map_eq_some_iff.1 h
        rw [Prod.mk.injEq] at heq
        obtain ⟨rfl, rfl⟩ := heq
        refine (lowestHead?_spec hj).later fun q hq => ?_
        rw [hfirst, Option.mem_some_iff] at hq
        exact hq ▸ UInt64.lt_of_lt_of_le (lowestHead?_spec hj).lt hbar
      · rename_i hbar
        have hbelow := UInt64.not_le.1 hbar
        split at h
        · rename_i hnone
          rw [Option.map_eq_none_iff] at hnone
          rw [Option.some.injEq, Prod.mk.injEq] at h
          obtain ⟨rfl, rfl⟩ := h
          refine .first hfirst hbelow fun s hs r hr => ?_
          exact UInt64.le_trans (UInt64.le_of_lt hbelow) (lowestHead?_none hnone s hs r hr)
        · rename_i j other hsome
          obtain ⟨⟨k, r⟩, hk, heq⟩ := Option.map_eq_some_iff.1 hsome
          rw [Prod.mk.injEq] at heq
          obtain ⟨rfl, rfl⟩ := heq
          split at h
          · rename_i hlt
            rw [Option.some.injEq, Prod.mk.injEq] at h
            obtain ⟨rfl, rfl⟩ := h
            refine (lowestHead?_spec hk).later fun q hq => ?_
            rw [hfirst, Option.mem_some_iff] at hq
            exact hq ▸ hlt
          · rename_i hnot
            rw [Option.some.injEq, Prod.mk.injEq] at h
            obtain ⟨rfl, rfl⟩ := h
            refine .first hfirst hbelow fun s hs r' hr' => ?_
            exact UInt64.le_trans (UInt64.not_lt.1 hnot) ((lowestHead?_spec hk).le s hs r' hr')

theorem takeHead?_append : ∀ (pre : List Source) {s : Source} {post : List Source} {block : Block}
    {queue : List Block}, s.queue = block :: queue →
    takeHead? pre.length (pre ++ s :: post) =
      some ((s.chain, block), pre ++ { s with queue } :: post)
  | [], s, post, block, queue, h => by
    show takeHead? 0 (s :: post) = _
    unfold takeHead?
    rw [h]
    rfl
  | t :: pre, s, post, block, queue, h => by
    show (takeHead? pre.length (pre ++ s :: post)).map _ = _
    rw [takeHead?_append pre h]
    rfl

/-- What is taken is the first of the lowest heads, and it lies below the bar. -/
theorem takeLowest?_spec {bar : UInt64} {sources left : List Source} {taken : ChainId × Block}
    (h : takeLowest? bar sources = some (taken, left)) :
    ∃ pre s post queue, sources = pre ++ s :: post ∧ s.queue = taken.2 :: queue ∧
      taken.1 = s.chain ∧ left = pre ++ { s with queue } :: post ∧
      Lowest bar pre taken.2.rank.current post := by
  unfold takeLowest? at h
  cases hlow : lowestHead? bar sources with
  | none =>
    rw [hlow] at h
    cases h
  | some found =>
    rw [hlow] at h
    obtain ⟨pre, s, post, rfl, hlen, hrank, hlowest⟩ := lowestHead?_spec hlow
    have htake : takeHead? found.1 (pre ++ s :: post) = some (taken, left) := h
    unfold Source.headRank? at hrank
    cases hq : s.queue with
    | nil =>
      rw [hq] at hrank
      cases hrank
    | cons block queue =>
      rw [hq] at hrank
      have hr : block.rank.current = found.2 := Option.some.inj hrank
      rw [← hlen, takeHead?_append pre hq, Option.some.injEq, Prod.mk.injEq] at htake
      obtain ⟨rfl, rfl⟩ := htake
      exact ⟨pre, s, post, queue, rfl, hq, rfl, rfl, hr ▸ hlowest⟩

/-- If nothing is taken, no head lies below the bar. -/
theorem le_of_takeLowest?_none {bar : UInt64} {sources : List Source}
    (h : takeLowest? bar sources = none) : ∀ s ∈ sources, ∀ rank ∈ s.headRank?, bar ≤ rank := by
  refine lowestHead?_none ?_
  cases hlow : lowestHead? bar sources with
  | none => rfl
  | some found =>
    -- what is found can be taken
    obtain ⟨pre, s, post, rfl, hlen, hrank, -⟩ := lowestHead?_spec hlow
    unfold takeLowest? at h
    rw [hlow] at h
    obtain ⟨block, hhead, -⟩ := Option.map_eq_some_iff.1 hrank
    obtain ⟨queue, hq⟩ := List.head?_eq_some_iff.1 hhead
    have htake : takeHead? found.1 (pre ++ s :: post) = none := h
    rw [← hlen, takeHead?_append pre hq] at htake
    cases htake

/-- A source as a lane, with the anchor that its chain has. -/
def Source.lane (anchor : ChainId → Option Block) (s : Source) : Lane :=
  ⟨s.chain, anchor s.chain, s.queue⟩

theorem drainBelow_none {bar : UInt64} {sources : List Source}
    (h : takeLowest? bar sources = none) : drainBelow bar sources = ([], sources) := by
  unfold drainBelow
  split
  · rfl
  · rename_i heq
    rw [h] at heq
    cases heq

theorem drainBelow_some {bar : UInt64} {sources left : List Source} {taken : ChainId × Block}
    (h : takeLowest? bar sources = some (taken, left)) :
    drainBelow bar sources = (taken :: (drainBelow bar left).1, (drainBelow bar left).2) := by
  rw [drainBelow]
  split
  · rename_i heq
    rw [h] at heq
    cases heq
  · rename_i taken' left' heq
    rw [h, Option.some.injEq, Prod.mk.injEq] at heq
    obtain ⟨rfl, rfl⟩ := heq
    rfl

theorem queuedCount_takeLowest? {bar : UInt64} {sources left : List Source}
    {taken : ChainId × Block} (h : takeLowest? bar sources = some (taken, left)) :
    queuedCount left < queuedCount sources := by
  unfold takeLowest? at h
  obtain ⟨found, -, htake⟩ := Option.bind_eq_some_iff.1 h
  have := queuedCount_takeHead? htake
  omega

/-- What a pass takes was queued and lies below the bar, and what it leaves does not. -/
structure Drains (bar : UInt64) (sources : List Source) (taken : List (ChainId × Block))
    (left : List Source) : Prop where
  chains : left.map (·.chain) = sources.map (·.chain)
  takes : ∀ t ∈ taken, t.2.rank.current < bar ∧ ∃ s ∈ sources, s.chain = t.1 ∧ t.2 ∈ s.queue
  leaves : ∀ t ∈ left, ∃ s ∈ sources, s.chain = t.chain ∧ t.queue <:+ s.queue
  heads : ∀ s ∈ left, ∀ rank ∈ s.headRank?, bar ≤ rank

theorem drainBelow_drains (bar : UInt64) (sources : List Source) :
    Drains bar sources (drainBelow bar sources).1 (drainBelow bar sources).2 := by
  cases htake : takeLowest? bar sources with
  | none =>
    rw [drainBelow_none htake]
    exact ⟨rfl, fun _ ht => (nomatch ht), fun t ht => ⟨t, ht, rfl, List.suffix_rfl⟩,
      le_of_takeLowest?_none htake⟩
  | some found =>
    obtain ⟨taken, left⟩ := found
    rw [drainBelow_some htake]
    obtain ⟨pre, s, post, queue, heq, hq, hchain, hleft, hlow⟩ := takeLowest?_spec htake
    have hlater := drainBelow_drains bar left
    have hs : s ∈ sources := heq ▸ List.mem_append_right _ (List.mem_cons_self ..)
    -- one queue has lost its head
    have hcut : ∀ t ∈ left, ∃ s ∈ sources, s.chain = t.chain ∧ t.queue <:+ s.queue := by
      intro t ht
      rw [hleft, List.mem_append, List.mem_cons] at ht
      rcases ht with ht | rfl | ht
      · exact ⟨t, heq ▸ List.mem_append_left _ ht, rfl, List.suffix_rfl⟩
      · exact ⟨s, hs, rfl, hq ▸ List.suffix_cons ..⟩
      · exact ⟨t, heq ▸ List.mem_append_right _ (List.mem_cons_of_mem _ ht), rfl, List.suffix_rfl⟩
    refine ⟨hlater.chains.trans ?_, fun t ht => ?_, fun t ht => ?_, hlater.heads⟩
    · rw [heq, hleft]
      simp only [List.map_append, List.map_cons]
    · rcases List.mem_cons.1 ht with rfl | ht
      · exact ⟨hlow.below, s, hs, hchain.symm, hq ▸ List.mem_cons_self ..⟩
      · obtain ⟨hbelow, t', ht', hid, hmem⟩ := hlater.takes t ht
        obtain ⟨s', hs', hid', hsuffix⟩ := hcut t' ht'
        exact ⟨hbelow, s', hs', hid'.trans hid, hsuffix.subset hmem⟩
    · obtain ⟨t', ht', hid, hsuffix⟩ := hlater.leaves t ht
      obtain ⟨s', hs', hid', hsuffix'⟩ := hcut t' ht'
      exact ⟨s', hs', hid'.trans hid, hsuffix.trans hsuffix'⟩
termination_by queuedCount sources
decreasing_by exact queuedCount_takeLowest? htake

/-- A pass delivers what it takes on the board, provided that every chain may only finalize from the
bar on. -/
theorem drainBelow_steps {seen : List Block} {anchor : ChainId → Option Block} (bar : UInt64)
    (sources : List Source)
    (hbar : ∀ s ∈ sources, ∀ top ∈ anchor s.chain, bar ≤ top.rank.next) :
    ∀ fin del, Board.Steps seen ⟨sources.map (Source.lane anchor), fin, del⟩
      ⟨(drainBelow bar sources).2.map (Source.lane anchor), fin,
        del ++ (drainBelow bar sources).1⟩ := by
  cases htake : takeLowest? bar sources with
  | none =>
    rw [drainBelow_none htake]
    intro fin del
    rw [List.append_nil]
  | some found =>
    obtain ⟨taken, left⟩ := found
    rw [drainBelow_some htake]
    obtain ⟨pre, s, post, queue, heq, hq, hchain, hleft, hlow⟩ := takeLowest?_spec htake
    have hchains : left.map (·.chain) = sources.map (·.chain) := by
      rw [heq, hleft]
      simp only [List.map_append, List.map_cons]
    have hbar' : ∀ t ∈ left, ∀ top ∈ anchor t.chain, bar ≤ top.rank.next := by
      intro t ht
      obtain ⟨t', ht', hid⟩ := List.mem_map.1 (hchains ▸ List.mem_map_of_mem ht)
      exact hid ▸ hbar t' ht'
    -- one delivery, and the rest of the pass from what it leaves
    intro fin del
    have hmore := @drainBelow_steps seen anchor bar left hbar' fin (del ++ [taken])
    rw [List.append_assoc, List.singleton_append] at hmore
    refine .head ?_ hmore
    have hrank : ∀ t : Source, ∀ h ∈ (t.lane anchor).queue.head?,
        h.rank.current ∈ t.headRank? := fun t h hh =>
      Option.mem_map_of_mem (fun b : Block => b.rank.current) hh
    have hlane : s.lane anchor = ⟨s.chain, anchor s.chain, taken.2 :: queue⟩ := by
      unfold Source.lane
      rw [hq]
    have htaken : taken = (s.chain, taken.2) := by
      rw [← hchain]
    rw [heq] at hbar
    rw [heq, hleft, List.map_append, List.map_cons, List.map_append, List.map_cons, hlane, htaken]
    refine Board.Step.deliver ?_ ?_ ?_
    · intro lane hl h hh
      obtain ⟨t, ht, rfl⟩ := List.mem_map.1 hl
      exact hlow.before t ht _ (hrank t h hh)
    · intro lane hl h hh
      obtain ⟨t, ht, rfl⟩ := List.mem_map.1 hl
      exact hlow.after t ht _ (hrank t h hh)
    · -- whoever may still finalize does so from the bar on, which is above the head
      rw [← hlane, ← List.map_cons, ← List.map_append]
      intro lane hl top htop
      obtain ⟨t, ht, rfl⟩ := List.mem_map.1 hl
      exact UInt64.le_of_lt (UInt64.lt_of_lt_of_le hlow.below (hbar t ht top htop))
termination_by queuedCount sources
decreasing_by exact queuedCount_takeLowest? htake

end ShardLedger
