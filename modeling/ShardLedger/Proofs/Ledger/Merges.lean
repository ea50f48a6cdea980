import ShardLedger.Proofs.Ledger.Quiescent
import ShardLedger.Proofs.Ledger.Shape

/-!
# Merging to the end

A pass merges in rounds, each of them over the chains that are registered when it starts, with a
count of the live ones that goes down as it merges. The count is right throughout, every round that
merges something undoes splits, so the rounds end, and they leave nothing that could be merged.

- `Ledger.Rounds`: the rounds, however many there are; `Ledger.mergeIdle_rounds`: they end.
- `Ledger.activeCount_word`: the count is a word; `Ledger.mergeBound_toNat`: the bound that it is
  compared with.
- `Ledger.Merges`: one merge after the other; `Ledger.Rounds.merges`: the rounds are no more than
  that, with enough chains left after each.
- `Run.merges_exhausted`: what the merges of a pass come to.
-/

namespace ShardLedger

namespace Ledger

variable {seen : List Block} {rules : Rules} {l l' l'' : Ledger} {id : ChainId}
  {merged later : List ChainId}

/-- A round over the registered chains. -/
def round (rules : Rules) (l : Ledger) : MergeRound :=
  mergeRound rules l.registered (UInt64.ofNat l.activeCount) l

/-- Rounds of merges up to the first one that is stopped or merges nothing. -/
inductive Rounds (rules : Rules) : Ledger → List ChainId → Ledger → Prop where
  | last {l : Ledger} (h : (l.round rules).stopped = true ∨ (l.round rules).merged = []) :
    Rounds rules l (l.round rules).merged (l.round rules).ledger
  | again {l l' : Ledger} {later : List ChainId} (hgoes : (l.round rules).stopped = false)
    (hmerged : (l.round rules).merged ≠ []) (h : Rounds rules (l.round rules).ledger later l') :
    Rounds rules l ((l.round rules).merged ++ later) l'

/-- One merge after the other, below the chains listed. Each takes two live registered chains away
and leaves no fewer than the least number, if two more than that number is a word. -/
inductive Merges (rules : Rules) : Ledger → List ChainId → Ledger → Prop where
  | done (l : Ledger) : Merges rules l [] l
  | merge {l l' l'' : Ledger} {id : ChainId} {later : List ChainId}
    (hm : l.mergeAt? rules id = some l') (hcount : l'.activeCount + 2 = l.activeCount)
    (henough : rules.config.tree.minChains + 2 < UInt64.size →
      rules.config.tree.minChains ≤ l'.activeCount)
    (h : Merges rules l' later l'') : Merges rules l (id :: later) l''

/-- Too few live chains are left to merge, or no two leaves are to be folded into their parent, as
their loads are now. -/
def Exhausted (rules : Rules) (l : Ledger) : Prop :=
  l.activeCount < rules.config.tree.minChains + 2 ∨
    ∀ p c left right, l.root.at? p = some (.split c (.leaf left) (.leaf right)) →
      rules.load.shouldMerge c.load left.load right.load = false

theorem Merges.trans (h₁ : Merges rules l merged l') (h₂ : Merges rules l' later l'') :
    Merges rules l (merged ++ later) l'' := by
  induction h₁ with
  | done => exact h₂
  | merge hm hcount henough _ ih => exact .merge hm hcount henough (ih h₂)

theorem Merges.eq_of_nil (h : Merges rules l [] l') : l' = l := by
  cases h with
  | done => rfl

/-! ### The rounds end -/

theorem mergeRound_splits : ∀ (ids : List ChainId) (active : UInt64) (l : Ledger),
    (mergeRound rules ids active l).ledger.root.splits +
      (mergeRound rules ids active l).merged.length = l.root.splits
  | [], _, _ => rfl
  | id :: rest, active, l => by
    unfold mergeRound
    split
    · rfl
    · split
      · exact mergeRound_splits rest active l
      · rename_i l' hm
        have hrest := mergeRound_splits rest (active - 2) l'
        have hfirst := mergeAt?_splits hm
        dsimp only
        rw [List.length_cons]
        omega

/-- The fuel of the rounds is never what ends them. -/
theorem mergeRounds_rounds : ∀ (fuel : Nat) {l : Ledger}, l.root.splits < fuel →
    Rounds rules l (mergeRounds rules fuel l).2 (mergeRounds rules fuel l).1
  | 0, _, h => absurd h (Nat.not_lt_zero _)
  | fuel + 1, l, hfuel => by
    have hsplits : (l.round rules).ledger.root.splits + (l.round rules).merged.length =
      l.root.splits := mergeRound_splits ..
    show Rounds rules l
      (if (l.round rules).stopped || (l.round rules).merged.isEmpty then
        ((l.round rules).ledger, (l.round rules).merged)
      else
        ((mergeRounds rules fuel (l.round rules).ledger).1,
          (l.round rules).merged ++ (mergeRounds rules fuel (l.round rules).ledger).2)).2
      (if (l.round rules).stopped || (l.round rules).merged.isEmpty then
        ((l.round rules).ledger, (l.round rules).merged)
      else
        ((mergeRounds rules fuel (l.round rules).ledger).1,
          (l.round rules).merged ++ (mergeRounds rules fuel (l.round rules).ledger).2)).1
    split
    · rename_i hend
      rw [Bool.or_eq_true, List.isEmpty_iff] at hend
      exact .last hend
    · rename_i hgoes
      rw [Bool.or_eq_true, not_or, Bool.not_eq_true, List.isEmpty_iff] at hgoes
      have hsome := List.length_pos_of_ne_nil hgoes.2
      exact .again hgoes.1 hgoes.2 (mergeRounds_rounds fuel (by omega))

/-- The merges of a pass are rounds up to the last one. -/
theorem mergeIdle_rounds (rules : Rules) (l : Ledger) :
    Rounds rules l (l.mergeIdle rules).2 (l.mergeIdle rules).1 :=
  mergeRounds_rounds _ (Nat.lt_succ_self _)

/-! ### Counts as words -/

theorem mergeBound_toNat (rules : Rules) :
    (mergeBound rules).toNat = (rules.config.tree.minChains + 2) % UInt64.size := by
  unfold mergeBound
  rw [UInt64.toNat_add, UInt64.toNat_ofNat']
  exact Nat.mod_add_mod ..

/-- Where the sum wraps, any two chains may be merged away. -/
example : mergeBound (.ofConfig { tree := { minChains := UInt64.size - 1 } }) = 1 := by decide

/-- Whether the bound wraps or not, a count below it is below the sum. -/
theorem lt_of_lt_mergeBound {active : UInt64} (h : active < mergeBound rules) :
    active.toNat < rules.config.tree.minChains + 2 := by
  have hlt := UInt64.lt_iff_toNat_lt.1 h
  rw [mergeBound_toNat] at hlt
  exact Nat.lt_of_lt_of_le hlt (Nat.mod_le ..)

/-- A count that reaches the bound reaches the sum, if the sum is a word. -/
theorem le_of_not_lt_mergeBound {active : UInt64}
    (hmin : rules.config.tree.minChains + 2 < UInt64.size) (h : ¬active < mergeBound rules) :
    rules.config.tree.minChains + 2 ≤ active.toNat := by
  have hle := UInt64.le_iff_toNat_le.1 (UInt64.not_lt.1 h)
  rwa [mergeBound_toNat, Nat.mod_eq_of_lt hmin] at hle

/-- There are fewer chains than words, since zero is not the number of a chain. -/
theorem Arranged.order_length (h : l.Arranged seen) : l.order.length < UInt64.size := by
  have hnodup : (0 :: l.order.map (·.number)).Nodup := by
    refine List.nodup_cons.2 ⟨fun hzero => ?_, ?_⟩
    · obtain ⟨id, hid, hnumber⟩ := List.mem_map.1 hzero
      exact (h.mem_order id hid).1.ne' hnumber
    · exact h.order_nodup.map fun _ _ => ChainId.eq_of_number
  have hsub : 0 :: l.order.map (·.number) ⊆ List.range UInt64.size := by
    refine List.cons_subset.2 ⟨List.mem_range.2 (by decide), fun n hn => ?_⟩
    obtain ⟨id, -, rfl⟩ := List.mem_map.1 hn
    exact List.mem_range.2 id.lt
  have hlength := (List.subperm_of_subset hnodup hsub).length_le
  rwa [List.length_cons, List.length_map, List.length_range] at hlength

/-- The count of the live registered chains is a word. -/
theorem activeCount_word (h : l.Arranged seen) (hspawned : l.roster.spawned = []) :
    (UInt64.ofNat l.activeCount).toNat = l.activeCount := by
  refine UInt64.toNat_ofNat_of_lt' (Nat.lt_of_le_of_lt (List.length_filter_le ..) ?_)
  exact order_eq_registered hspawned ▸ h.order_length

/-! ### What a merge does to the count -/

theorem live?_isSome (l : Ledger) (a : ChainId) :
    (l.live? a).isSome = (l.root.bareAt a.path).isSome := by
  unfold live? Branch.bareAt Branch.chainAt
  rw [Option.isSome_map, Option.isSome_map]

/-- After a merge, the two leaves are not live, and the others are live as before. -/
theorem Folds.live?_isSome {c lc rc : Chain} (hf : Folds l id c lc rc) {a : ChainId}
    (ha : 0 < a.number) : ((l.fold id c lc rc).live? a).isSome =
      (a != rc.id && a != lc.id && (l.live? a).isSome) := by
  rw [Ledger.live?_isSome, Ledger.live?_isSome]
  by_cases hl : a = lc.id
  · rw [hl, hf.left_path, Branch.bareAt_eq_none.2 (hf.chainAt_below (List.cons_ne_nil _ _))]
    simp
  · by_cases hr : a = rc.id
    · rw [hr, hf.right_path, Branch.bareAt_eq_none.2 (hf.chainAt_below (List.cons_ne_nil _ _))]
      simp
    · have hsame : (l.fold id c lc rc).root.bareAt a.path = l.root.bareAt a.path := by
        refine hf.still_live (fun hp => hl ?_) fun hp => hr ?_
        · exact ChainId.path_injective ha hf.left_pos (hp.trans hf.left_path.symm)
        · exact ChainId.path_injective ha hf.right_pos (hp.trans hf.right_path.symm)
      rw [hsame, bne_iff_ne.2 hr, bne_iff_ne.2 hl, Bool.true_and, Bool.true_and]

/-- A merge takes two live chains away, once all chains are registered. -/
theorem mergeAt?_activeCount (h : l.Arranged seen) (hspawned : l.roster.spawned = [])
    (hm : l.mergeAt? rules id = some l') : l'.activeCount + 2 = l.activeCount := by
  obtain ⟨c, lc, rc, hat, rfl⟩ := mergeAt?_eq_some hm
  have hf := h.folds hat
  have horder := order_eq_registered hspawned
  have hnodup : (l.registered.filter fun a => (l.live? a).isSome).Nodup :=
    (horder ▸ h.order_nodup).sublist List.filter_sublist
  -- the live chains are those from before without the two leaves
  have hlive : (l.registered.filter fun a => ((l.fold id c lc rc).live? a).isSome) =
      ((l.registered.filter fun a => (l.live? a).isSome).erase lc.id).erase rc.id := by
    rw [(hnodup.erase lc.id).erase_eq_filter, hnodup.erase_eq_filter, List.filter_filter,
      List.filter_filter]
    exact List.filter_congr fun a ha => hf.live?_isSome (h.mem_order a (horder ▸ ha)).1
  have hmem : ∀ {p : List Side} {e : Chain}, l.root.chainAt p = some e →
      e.id ∈ l.registered.filter fun a => (l.live? a).isSome := by
    intro p e he
    refine List.mem_filter.2 ⟨horder ▸ h.live_mem p e he, ?_⟩
    rw [Ledger.live?_isSome, h.numbered.path_eq he, Branch.bareAt_eq_some.2 ⟨e, he, rfl⟩]
    rfl
  have hleft := List.length_erase_add_one (hmem hf.left_live)
  have hright := List.length_erase_add_one
    ((List.mem_erase_of_ne hf.left_ne_right.symm).2 (hmem hf.right_live))
  show (l.registered.filter fun a => ((l.fold id c lc rc).live? a).isSome).length + 2 =
    (l.registered.filter fun a => (l.live? a).isSome).length
  rw [hlive]
  omega

/-! ### What the rounds leave -/

theorem Merges.retires (hm : Merges rules l merged l') (h : l.Arranged seen) :
    Retires seen l l' := by
  induction hm with
  | done => exact .refl h
  | merge hm _ _ _ ih =>
    have hfirst := mergeAt?_retires h hm
    exact hfirst.trans (ih hfirst.arranged)

/-- The count that a round starts with is right at every merge of it, and when it is stopped. -/
theorem mergeRound_merges : ∀ (ids : List ChainId) {active : UInt64} {l : Ledger},
    l.Arranged seen → l.roster.spawned = [] → active.toNat = l.activeCount →
      Merges rules l (mergeRound rules ids active l).merged
        (mergeRound rules ids active l).ledger ∧
      ((mergeRound rules ids active l).stopped = true →
        (mergeRound rules ids active l).ledger.activeCount < rules.config.tree.minChains + 2)
  | [], _, l, _, _, _ => ⟨.done l, fun hstopped => nomatch hstopped⟩
  | id :: rest, active, l, h, hspawned, hactive => by
    unfold mergeRound
    split
    · rename_i hfew
      exact ⟨.done l, fun _ => hactive ▸ lt_of_lt_mergeBound hfew⟩
    · rename_i henough
      split
      · exact mergeRound_merges rest h hspawned hactive
      · rename_i l' hm
        have hr := mergeAt?_retires h hm
        have hcount := mergeAt?_activeCount h hspawned hm
        -- the two leaves were counted, so the count does not wrap
        have hleft : (active - 2).toNat = l'.activeCount := by
          have htwo : 2 ≤ active := UInt64.le_iff_toNat_le.2 (show 2 ≤ active.toNat by omega)
          rw [UInt64.toNat_sub_of_le _ _ htwo]
          exact Nat.sub_eq_of_eq_add (hactive.trans hcount.symm)
        obtain ⟨hmerges, hstopped⟩ :=
          mergeRound_merges rest hr.arranged (hr.spawned.trans hspawned) hleft
        refine ⟨.merge hm hcount (fun hmin => ?_) hmerges, hstopped⟩
        have hbound := le_of_not_lt_mergeBound hmin henough
        omega

theorem round_merges (h : l.Arranged seen) (hspawned : l.roster.spawned = []) :
    Merges rules l (l.round rules).merged (l.round rules).ledger ∧
      ((l.round rules).stopped = true →
        (l.round rules).ledger.activeCount < rules.config.tree.minChains + 2) :=
  mergeRound_merges _ h hspawned (activeCount_word h hspawned)

/-- A round that merges nothing was stopped before it had merged, or found nothing to merge. -/
theorem mergeRound_merged_eq_nil : ∀ {ids : List ChainId} {active : UInt64},
    (mergeRound rules ids active l).merged = [] ↔
      active < mergeBound rules ∨ ∀ id ∈ ids, l.mergeAt? rules id = none
  | [], _ => ⟨fun _ => .inr fun _ hid => (nomatch hid), fun _ => rfl⟩
  | id :: rest, active => by
    unfold mergeRound
    split
    · rename_i hfew
      exact ⟨fun _ => .inl hfew, fun _ => rfl⟩
    · rename_i henough
      rw [List.forall_mem_cons]
      split
      · rename_i hnone
        rw [mergeRound_merged_eq_nil, hnone, eq_self, true_and]
      · rename_i l' hm
        constructor
        · intro hnil
          cases hnil
        · rintro (hfew | ⟨hnone, -⟩)
          · exact absurd hfew henough
          · cases hm.symm.trans hnone

/-- Two leaves are not merged exactly if the load policy does not ask for it. -/
theorem mergeAt?_eq_none : l.mergeAt? rules id = none ↔
    ∀ c left right, l.live? id = some (.split c (.leaf left) (.leaf right)) →
      rules.load.shouldMerge c.load left.load right.load = false := by
  constructor
  · intro hm c left right hat
    cases hshould : rules.load.shouldMerge c.load left.load right.load with
    | false => rfl
    | true =>
      unfold mergeAt? at hm
      simp only [hat, Branch.mergeLoads?, Branch.merge?, hshould, if_true, bind, Option.bind,
        pure] at hm
      cases hm
  · intro hnever
    cases hm : l.mergeAt? rules id with
    | none => rfl
    | some l' =>
      obtain ⟨c, left, right, hat, -⟩ := mergeAt?_eq_some hm
      unfold mergeAt? at hm
      simp only [show l.live? id = _ from hat, Branch.mergeLoads?, hnever c left right hat,
        Bool.false_eq_true, if_false, bind, Option.bind] at hm
      cases hm

theorem Rounds.merges (hr : Rounds rules l merged l') (h : l.Arranged seen)
    (hspawned : l.roster.spawned = []) : Merges rules l merged l' := by
  induction hr with
  | last => exact (round_merges h hspawned).1
  | again _ _ _ ih =>
    have hround := (@round_merges _ rules _ h hspawned).1
    have hretires := hround.retires h
    exact hround.trans (ih hretires.arranged (hretires.spawned.trans hspawned))

theorem Rounds.exhausted (hr : Rounds rules l merged l') (h : l.Arranged seen)
    (hspawned : l.roster.spawned = []) : Exhausted rules l' := by
  induction hr with
  | @last l hend =>
    obtain ⟨hround, hstopped⟩ := @round_merges _ rules _ h hspawned
    rcases hend with hs | hmerged
    · exact .inl (hstopped hs)
    · -- a round that merges nothing changes nothing
      have hsame : (l.round rules).ledger = l := by
        rw [hmerged] at hround
        exact hround.eq_of_nil
      rw [hsame]
      refine (mergeRound_merged_eq_nil.1 hmerged).imp
        (fun hfew => activeCount_word h hspawned ▸ lt_of_lt_mergeBound hfew)
        fun hnone p c left right hat => ?_
      have hc := Branch.chainAt_of_at? hat
      have hpath : c.id.path = p := h.numbered.path_eq hc
      have hmem : c.id ∈ l.registered := order_eq_registered hspawned ▸ h.live_mem p c hc
      have hat : l.root.at? c.id.path = _ := hpath ▸ hat
      exact mergeAt?_eq_none.1 (hnone c.id hmem) c left right hat
  | again _ _ _ ih =>
    have hretires := (@round_merges _ rules _ h hspawned).1.retires h
    exact ih hretires.arranged (hretires.spawned.trans hspawned)

end Ledger

namespace Run

variable {rules : Rules} {ops : List Operation} {r : Run}

/-- The merges of a pass come to an end: each of them takes two live chains away and leaves enough,
and afterwards there are too few for another one, or nothing is to be merged. -/
theorem merges_exhausted (h : Run.after rules ops = .ok r) :
    let l := r.ledger.registerSpawned.1
    let l' := (l.mergeIdle rules).1
    let merged := (r.ledger.tick rules).report.merged
    Ledger.Rounds rules l merged l' ∧ Ledger.Merges rules l merged l' ∧
      Ledger.Exhausted rules l' := by
  have harranged := (Ledger.registerSpawned_retires (tracks h (List.Subset.refl _)).arranged).1
  have hrounds := Ledger.mergeIdle_rounds rules r.ledger.registerSpawned.1
  exact ⟨hrounds, hrounds.merges harranged rfl, hrounds.exhausted harranged rfl⟩

/-- An item moves down two splits before it is finalized, and no pass is made meanwhile. -/
def sampleCascade : List Operation :=
  let left : ChainId := .ofWord 2
  let lower : ChainId := .ofWord 4
  [ .submitContent sampleItem,
    .submitBlock (sampleBlock ⟨1⟩ .root (Block.genesis .root).id [] 1),
    .submitBlock (sampleBlock ⟨2⟩ .root ⟨1⟩ [] 2),
    .submitBlock (sampleBlock ⟨3⟩ left ⟨1⟩ [] 2),
    .submitBlock (sampleBlock ⟨4⟩ left ⟨3⟩ [] 3),
    .submitBlock (sampleBlock ⟨5⟩ lower ⟨3⟩ [sampleItem.ref] 3),
    .submitBlock (sampleBlock ⟨6⟩ lower ⟨5⟩ [] 4) ]

/-- One pass undoes both splits, the lower one first. -/
theorem sample_merges_exhausted : ∃ r, Run.after sampleMergeRules sampleCascade = .ok r ∧
    (r.ledger.tick sampleMergeRules).report.merged.map (·.number) = [2, 1] ∧
    let l := r.ledger.registerSpawned.1
    let l' := (l.mergeIdle sampleMergeRules).1
    let merged := (r.ledger.tick sampleMergeRules).report.merged
    Ledger.Rounds sampleMergeRules l merged l' ∧ Ledger.Merges sampleMergeRules l merged l' ∧
      Ledger.Exhausted sampleMergeRules l' := by
  obtain ⟨r, hr, hmerged⟩ := @exists_after_of_any sampleMergeRules sampleCascade
    (fun r => (r.ledger.tick sampleMergeRules).report.merged.map (·.number) = [2, 1])
    (by decide +kernel)
  exact ⟨r, hr, of_decide_eq_true hmerged, merges_exhausted hr⟩

end Run

end ShardLedger
