import Mathlib.Data.List.Flatten
import ShardLedger.Proofs.Ledger.Keeping

/-!
# Settling

Every pass that is not idle finishes some work: it registers a chain, undoes a split and lets two
chains leave, places a block, or removes a chain. So settling comes to an end before its fuel does.

- `Ledger.work`: what is left to do; `Run.Tracks.tick_work`: what a pass finishes of it.
- `Ledger.SettlesTo`, `Run.Tracks.settle_settles`: settling ends with an idle pass.
-/

namespace ShardLedger

namespace Branch

variable {old new : Branch}

/-- The splits of a branch change as those of the part that is replaced. -/
theorem splits_replace : ∀ {p : List Side} {b : Branch}, b.at? p = some old →
    (replace new p b).splits + old.splits = b.splits + new.splits
  | [], b, h => by
    rw [at?_nil, Option.some.injEq] at h
    subst h
    show new.splits + b.splits = _
    omega
  | .left :: p, split c l r, h => by
    have hl := splits_replace (p := p) (b := l) h
    show (replace new p l).splits + r.splits + 1 + old.splits = l.splits + r.splits + 1 + new.splits
    omega
  | .right :: p, split c l r, h => by
    have hr := splits_replace (p := p) (b := r) h
    show l.splits + (replace new p r).splits + 1 + old.splits = l.splits + r.splits + 1 + new.splits
    omega

theorem splits_withChain (c : Chain) (b : Branch) : (b.withChain c).splits = b.splits := by
  cases b <;> rfl

end Branch

namespace Ledger

variable {seen : List Block} {rules : Rules} {l l' : Ledger} {id : ChainId}

/-- What is left to do on the tree. -/
def chores (l : Ledger) : Nat := l.roster.spawned.length + 3 * l.root.splits + l.leaving.length

/-- What is left to do before a pass is idle, in the worst case. -/
def work (l : Ledger) : Nat := l.chores + l.undelivered.length

/-! ### The tree -/

theorem registerSpawned_chores (l : Ledger) :
    l.registerSpawned.1.chores + l.registerSpawned.2.length = l.chores := by
  show 0 + 3 * l.root.splits + l.leaving.length + l.roster.spawned.length = _
  unfold chores
  omega

/-- A merge undoes a split. -/
theorem mergeAt?_splits (hm : l.mergeAt? rules id = some l') :
    l'.root.splits + 1 = l.root.splits := by
  obtain ⟨c, lc, rc, hat, rfl⟩ := mergeAt?_eq_some hm
  exact @Branch.splits_replace _ (.leaf { c with
    content := (c.content.absorb [lc.content, rc.content]).1 }) _ _ hat

/-- A merge undoes a split, and two chains are to leave. -/
theorem mergeAt?_chores (hm : l.mergeAt? rules id = some l') : l'.chores + 1 = l.chores := by
  have hsplits := mergeAt?_splits hm
  obtain ⟨c, lc, rc, -, rfl⟩ := mergeAt?_eq_some hm
  unfold chores
  show l.roster.spawned.length + _ + (l.leaving ++ [lc.id, rc.id]).length + 1 = _
  rw [List.length_append]
  simp only [List.length_cons, List.length_nil]
  omega

theorem mergeRound_chores : ∀ (ids : List ChainId) (active : UInt64) (l : Ledger),
    (mergeRound rules ids active l).ledger.chores + (mergeRound rules ids active l).merged.length =
      l.chores
  | [], _, _ => rfl
  | id :: rest, active, l => by
    unfold mergeRound
    split
    · rfl
    · split
      · exact mergeRound_chores rest active l
      · rename_i l' hm
        have hrest := mergeRound_chores rest (active - 2) l'
        have hfirst := mergeAt?_chores hm
        dsimp only
        rw [List.length_cons]
        omega

theorem mergeRounds_chores : ∀ (fuel : Nat) (l : Ledger),
    (mergeRounds rules fuel l).1.chores + (mergeRounds rules fuel l).2.length = l.chores
  | 0, _ => rfl
  | fuel + 1, l => by
    have hround := @mergeRound_chores rules l.registered (UInt64.ofNat l.activeCount) l
    unfold mergeRounds
    dsimp only
    split
    · exact hround
    · have hlater := mergeRounds_chores fuel
        (mergeRound rules l.registered (UInt64.ofNat l.activeCount) l).ledger
      dsimp only
      rw [List.length_append]
      omega

theorem update_chores (f : Chain → Chain) (l : Ledger) (id : ChainId) :
    (l.update id f).chores = l.chores := by
  unfold update
  split
  · rename_i b hb
    rcases branch?_cases hb with hlive | ⟨hnone, -⟩
    · rw [replace_live hlive]
      have hsplits := @Branch.splits_replace _ (b.withChain (f b.chain)) _ _ hlive
      rw [Branch.splits_withChain] at hsplits
      have hroot : (Branch.replace (b.withChain (f b.chain)) id.path l.root).splits =
          l.root.splits := Nat.add_right_cancel hsplits
      show l.roster.spawned.length + 3 * (Branch.replace _ id.path l.root).splits +
        l.leaving.length = _
      rw [hroot]
      rfl
    · unfold replace live?
      rw [hnone]
      rfl
  · rfl

theorem linearize_chores (l : Ledger) : l.linearize.1.chores = l.chores := by
  have hall : ∀ (sources : List Source) (l : Ledger),
      (sources.foldl setQueue l).chores = l.chores := by
    intro sources
    induction sources with
    | nil => exact fun _ => rfl
    | cons s rest ih =>
      intro l
      rw [List.foldl_cons, ih]
      exact update_chores _ l s.chain
  rw [(linearize_eq l).1, hall]
  rfl

/-- What is removed no longer has to leave. -/
theorem removeAll_chores : ∀ (ids : List ChainId) (l : Ledger), ids.Nodup → ids ⊆ l.leaving →
    (ids.foldl remove l).chores + ids.length = l.chores
  | [], _, _, _ => rfl
  | id :: rest, l, hnodup, hsub => by
    obtain ⟨hid, hnodup⟩ := List.nodup_cons.1 hnodup
    have hmem : id ∈ l.leaving := hsub (List.mem_cons_self ..)
    have hrest : rest ⊆ (l.remove id).leaving := fun a ha =>
      (List.mem_erase_of_ne fun heq : a = id => hid (heq ▸ ha)).2 (hsub (List.mem_cons_of_mem _ ha))
    have hlater := removeAll_chores rest (l.remove id) hnodup hrest
    have hfirst : (l.remove id).chores + 1 = l.chores := by
      have hlength : (l.leaving.erase id).length + 1 = l.leaving.length :=
        List.length_erase_add_one hmem
      show l.roster.spawned.length + 3 * l.root.splits + (l.leaving.erase id).length + 1 = _
      unfold chores
      omega
    rw [List.foldl_cons, List.length_cons]
    omega

theorem removeDrained_chores (hnodup : l.leaving.Nodup) :
    l.removeDrained.1.chores + l.removeDrained.2.1.length = l.chores :=
  removeAll_chores _ l (hnodup.sublist List.filter_sublist) fun _ ha => (List.mem_filter.1 ha).1

/-- What a pass finishes on the tree is what it reports. -/
theorem tick_chores (rules : Rules) (h : l.Arranged seen) :
    (l.tick rules).ledger.chores + ((l.tick rules).report.registered.length +
      (l.tick rules).report.merged.length + (l.tick rules).report.removed.length) = l.chores := by
  obtain ⟨harranged, -⟩ := registerSpawned_retires h
  have hmerged := mergeIdle_retires rules harranged
  obtain ⟨hplaced, -⟩ := linearize_delivers hmerged.arranged hmerged.spawned
  have hregister := registerSpawned_chores l
  have hmerge := @mergeRounds_chores rules (l.registerSpawned.1.root.splits + 1) l.registerSpawned.1
  have hplace := linearize_chores (l.registerSpawned.1.mergeIdle rules).1
  have hremove := @removeDrained_chores (l.registerSpawned.1.mergeIdle rules).1.linearize.1
    (hplaced.arranged.leaving ▸ hplaced.arranged.retired_nodup)
  show (l.registerSpawned.1.mergeIdle rules).1.linearize.1.removeDrained.1.chores +
    (l.registerSpawned.2.length + (l.registerSpawned.1.mergeIdle rules).2.length +
      (l.registerSpawned.1.mergeIdle rules).1.linearize.1.removeDrained.2.1.length) = _
  unfold mergeIdle at *
  omega

/-! ### The bound -/

theorem mem_chains : ∀ {b : Branch} {p : List Side} {c : Chain}, b.chainAt p = some c →
    c ∈ b.chains
  | .leaf d, [], c, h => by
    rw [Branch.chainAt_nil, Option.some.injEq] at h
    exact h ▸ List.mem_singleton_self _
  | .split d l r, [], c, h => by
    rw [Branch.chainAt_nil, Option.some.injEq] at h
    exact h ▸ List.mem_cons_self ..
  | .split d l r, .left :: p, c, h =>
    List.mem_cons_of_mem _ (List.mem_append_left _ (mem_chains (b := l) (p := p) h))
  | .split d l r, .right :: p, c, h =>
    List.mem_cons_of_mem _ (List.mem_append_right _ (mem_chains (b := r) (p := p) h))

theorem length_flatMap_total {α β : Type} (f : α → List β) :
    ∀ xs : List α, (xs.flatMap f).length = total (xs.map fun x => (f x).length)
  | [] => rfl
  | x :: rest => by
    rw [List.flatMap_cons, List.length_append, length_flatMap_total f rest]
    rfl

/-- The chains of the order, each once, are among those of the tree and the merged ones. -/
theorem Arranged.found_subperm (h : l.Arranged seen) :
    (l.order.filterMap l.chain?).Subperm (l.root.chains ++ l.retired) := by
  have hids : (l.order.filterMap l.chain?).map (·.id) = l.order := by
    rw [List.map_filterMap]
    refine (List.filterMap_congr fun a ha => ?_).trans List.filterMap_some
    obtain ⟨hpos, c, hc⟩ := h.mem_order a ha
    rw [hc]
    exact congrArg some (h.chain?_id hpos hc)
  have hnodup : (l.order.filterMap l.chain?).Nodup :=
    List.Nodup.of_map (·.id) (hids.symm ▸ h.order_nodup)
  refine List.subperm_of_subset hnodup fun c hc => ?_
  obtain ⟨a, ha, hc⟩ := List.mem_filterMap.1 hc
  rcases (h.chain?_iff (h.mem_order a ha).1).1 hc with hlive | ⟨hretired, -⟩
  · exact List.mem_append_left _ (mem_chains hlive)
  · exact List.mem_append_right _ hretired

/-- The fuel of settling is enough. -/
theorem Arranged.work_le (h : l.Arranged seen) : l.work ≤ l.pendingWork := by
  have hqueued : l.undelivered = (l.order.filterMap l.chain?).flatMap (·.undelivered) := by
    rw [← queued_lanes]
    show (l.order.filterMap fun id => (l.chain? id).map Lane.of).flatMap (·.queue) = _
    rw [← List.map_filterMap, List.flatMap_map]
    rfl
  obtain ⟨cs, hperm, hsub⟩ := h.found_subperm
  have hle : l.undelivered.length ≤
      ((l.root.chains ++ l.retired).flatMap (·.undelivered)).length := by
    rw [hqueued, ← (hperm.flatMap_right _).length_eq]
    exact (hsub.flatMap _).length_le
  rw [length_flatMap_total] at hle
  unfold work pendingWork chores
  omega

/-! ### Settling -/

/-- Passes that are not idle, up to one that is. That last one is left out. -/
inductive SettlesTo (rules : Rules) : Ledger → List Pass → Ledger → Prop where
  | idle {l : Ledger} (h : (l.tick rules).report.isIdle = true) :
    SettlesTo rules l [] (l.tick rules).ledger
  | busy {l l' : Ledger} {later : List Pass} (h : (l.tick rules).report.isIdle = false)
    (hlater : SettlesTo rules (l.tick rules).ledger later l') :
    SettlesTo rules l (l.tick rules :: later) l'

/-- Settling ends with an idle pass. -/
theorem SettlesTo.last {passes : List Pass} (hs : SettlesTo rules l passes l')
    (h : l.Arranged seen) : ∃ l₀ : Ledger, l₀.Arranged seen ∧
      (l₀.tick rules).report.isIdle = true ∧ l' = (l₀.tick rules).ledger := by
  induction hs with
  | idle hidle => exact ⟨_, h, hidle, rfl⟩
  | busy _ _ ih => exact ih (tick_delivers rules h).1.arranged

end Ledger

namespace Run

variable {seen : List Block} {rules : Rules} {r : Run}

/-- What a pass reports, it has finished of the work. -/
theorem Tracks.tick_work (h : r.Tracks seen rules) :
    (r.ledger.tick rules).ledger.work + ((r.ledger.tick rules).report.registered.length +
      (r.ledger.tick rules).report.merged.length + (r.ledger.tick rules).report.removed.length +
      (r.ledger.tick rules).report.linearized) = r.ledger.work := by
  have hchores := Ledger.tick_chores rules h.arranged
  obtain ⟨hd, -⟩ := Ledger.tick_delivers rules h.arranged
  have haccount := (@Tracks.account_passes seen rules r _ [r.ledger.tick rules] [] h
    (by simpa using hd)).length_eq
  have hlinearized : (r.ledger.tick rules).report.linearized =
      (r.ledger.tick rules).delivered.length := rfl
  unfold finalizedBlocks linearized at haccount
  simp only [List.flatMap_append, List.flatMap_singleton, List.map_append, List.length_append,
    List.length_map, List.length_nil] at haccount
  unfold Ledger.work
  omega

/-- Settling ends before its fuel does. -/
theorem Tracks.settleWithin_settles (fuel : Nat) (h : r.Tracks seen rules)
    (hfuel : r.ledger.work < fuel) : Ledger.SettlesTo rules r.ledger
      (Ledger.settleWithin rules fuel r.ledger).2 (Ledger.settleWithin rules fuel r.ledger).1 := by
  induction fuel generalizing r with
  | zero => exact absurd hfuel (Nat.not_lt_zero _)
  | succ fuel ih =>
    have hwork := h.tick_work
    unfold Ledger.settleWithin
    dsimp only at hwork ⊢
    split
    · exact .idle ‹_›
    · rename_i hbusy
      refine .busy (Bool.eq_false_iff.2 hbusy)
        (ih (h.perform .tick fun _ hb => absurd hb (Option.not_mem_none _)) ?_)
      -- a pass that is not idle reports something
      have hsome : 0 < (r.ledger.tick rules).report.registered.length +
          (r.ledger.tick rules).report.merged.length +
          (r.ledger.tick rules).report.removed.length +
          (r.ledger.tick rules).report.linearized := by
        refine Nat.pos_of_ne_zero fun hzero => hbusy ?_
        unfold PassReport.isIdle
        simp only [Nat.add_eq_zero_iff, List.length_eq_zero_iff] at hzero
        obtain ⟨⟨⟨hregistered, hmerged⟩, hremoved⟩, hlinearized⟩ := hzero
        rw [hregistered, hmerged, hremoved, hlinearized]
        rfl
      show (r.ledger.tick rules).ledger.work < fuel
      omega

theorem Tracks.settle_settles (h : r.Tracks seen rules) :
    Ledger.SettlesTo rules r.ledger (r.ledger.settle rules).2 (r.ledger.settle rules).1 :=
  h.settleWithin_settles _ (Nat.lt_succ_of_le h.arranged.work_le)

end Run

end ShardLedger
