import ShardLedger.Proofs.Order.Draining

/-!
# Lane by lane

Where a pass leaves some lanes out, what it delivers is no step of the board. What still holds is
said lane by lane: properties that every step keeps, whichever lanes are part of the pass.

- `Lane.Closed`, `Board.Steps.each`: properties of lanes that steps keep.
- `Lane.Above`: a lane above a bar, but for blocks that were waiting when the bar was drawn.
- `drainBelow_sorted`: from sorted queues, blocks are taken in order.
-/

namespace ShardLedger

namespace Lane

variable {seen : List Block} {P : Lane → Prop} {bar : UInt64} {waiting : ChainId → Block → Prop}

/-- A property of lanes that they keep when they finalize a block, split, retire or deliver. -/
structure Closed (seen : List Block) (P : Lane → Prop) : Prop where
  extend : ∀ {id a b q}, Follows seen id a b → P ⟨id, some a, q⟩ → P ⟨id, some b, q ++ [b]⟩
  newborn : ∀ {id b q}, P ⟨id, some b, q⟩ → ∀ c, P ⟨c, some b, []⟩
  retire : ∀ {id a? q}, P ⟨id, a?, q⟩ → P ⟨id, none, q⟩
  tail : ∀ {id a? b q}, P ⟨id, a?, b :: q⟩ → P ⟨id, a?, q⟩

/-- What is left of a queue keeps the property as well. -/
theorem Closed.suffix (hP : Closed seen P) {id : ChainId} {a? : Option Block} :
    ∀ {q q' : List Block}, q' <:+ q → P ⟨id, a?, q⟩ → P ⟨id, a?, q'⟩
  | [], _, hsuffix, h => by
    rw [List.suffix_nil.1 hsuffix]
    exact h
  | _ :: _, _, hsuffix, h => by
    rcases List.suffix_cons_iff.1 hsuffix with rfl | hsuffix
    · exact h
    · exact hP.suffix hsuffix (hP.tail h)

theorem ranked_closed : Closed seen (Ranked []) where
  extend hb h := h.extend hb
  newborn h c := h.newborn c
  retire h := h.retire
  tail h := h.tail

/-- Neither the queue of a lane nor what its chain may still finalize ranks below a bar, except for
blocks that were waiting on the chain. -/
structure Above (bar : UInt64) (waiting : ChainId → Block → Prop) (lane : Lane) : Prop where
  anchor : ∀ top ∈ lane.anchor?, bar ≤ top.rank.next
  queue : ∀ x ∈ lane.queue, bar ≤ x.rank.current ∨ waiting lane.chain x

theorem above_closed : Closed seen (Above bar waiting) where
  extend {id a b q} hb h := by
    have hbar : bar ≤ b.rank.current := UInt64.le_trans (h.anchor a rfl) hb.rank_le
    refine ⟨fun top htop => ?_, fun x hx => ?_⟩
    · rw [← Option.mem_some_iff.1 htop]
      exact UInt64.le_trans hbar hb.ordered
    · rcases List.mem_append.1 hx with hx | hx
      · exact h.queue x hx
      · exact .inl (List.mem_singleton.1 hx ▸ hbar)
  newborn h _ := ⟨h.anchor, fun _ hx => nomatch hx⟩
  retire h := ⟨fun _ htop => (nomatch htop), h.queue⟩
  tail h := ⟨h.anchor, fun x hx => h.queue x (List.mem_cons_of_mem _ hx)⟩

end Lane

namespace Board

variable {seen : List Block} {P : Lane → Prop}

theorem Step.each (hP : Lane.Closed seen P) {b b' : Board} (hs : Step seen b b')
    (h : ∀ lane ∈ b.lanes, P lane) : ∀ lane ∈ b'.lanes, P lane := by
  intro lane hl
  cases hs with
  | @finalize pre post fin del id a b q born follows =>
    have hnew := hP.extend follows (h _ (mem_middle pre post _))
    rcases List.mem_append.1 hl with hl | hl
    · rcases mem_exchange hl with rfl | hold
      · exact hnew
      · exact h lane hold
    · obtain ⟨c, -, rfl⟩ := List.mem_map.1 hl
      exact hP.newborn hnew c
  | @retire pre post fin del id a q =>
    rcases mem_exchange hl with rfl | hold
    · exact hP.retire (h _ (mem_middle pre post _))
    · exact h lane hold
  | @deliver pre post fin del id a b q =>
    rcases mem_exchange hl with rfl | hold
    · exact hP.tail (h _ (mem_middle pre post _))
    · exact h lane hold
  | close => exact h lane (mem_of_removed hl)

/-- What all lanes have and every step keeps, all lanes have after any number of steps. -/
theorem Steps.each (hP : Lane.Closed seen P) {b b' : Board} (hs : Steps seen b b')
    (h : ∀ lane ∈ b.lanes, P lane) : ∀ lane ∈ b'.lanes, P lane :=
  hs.induct (fun _ _ hstep h => hstep.each hP h) h

end Board

/-- From sorted queues, blocks are taken in the order of their ranks. -/
theorem drainBelow_sorted (bar : UInt64) {sources : List Source}
    (h : ∀ s ∈ sources, (s.queue.map (·.rank.current)).Pairwise (· ≤ ·)) :
    ((drainBelow bar sources).1.map (·.2.rank.current)).Pairwise (· ≤ ·) := by
  -- the pass on a board whose chains finalize nothing more
  have hsteps := @drainBelow_steps [] (fun _ => none) bar sources fun _ _ _ htop => nomatch htop
  have hranked : Board.Ranked ⟨sources.map (Source.lane fun _ => none), [], []⟩ := by
    refine ⟨fun lane hl => ?_, List.Pairwise.nil⟩
    obtain ⟨s, hs, rfl⟩ := List.mem_map.1 hl
    exact
      { sorted := h s hs
        queue_anchor := fun _ htop => nomatch htop
        delivered_queue := fun _ hd => nomatch hd
        delivered_anchor := fun _ hd => nomatch hd }
  exact ((hsteps [] []).induct (fun _ _ => Board.Ranked.step) hranked).sorted

end ShardLedger
