import Mathlib.Tactic.Tauto
import ShardLedger.Proofs.Lookup
import ShardLedger.Simulation.Audit

/-!
# What an audit finds

Each check of an audit goes through the outcome of a run and lists what is wrong. Here it is said
what the checks look for, without the way in which they look: a check finds nothing exactly if the
outcome has the property that it is about.

- `RunResult.Sound`: the properties.
- `Audit.all_eq_nil_iff`: an audit finds nothing exactly if the outcome has all of them.
-/

namespace ShardLedger

namespace RunResult

variable (r : RunResult)

/-- The blocks that were reported finalized, in the order of the reports. -/
def finalizedIds : List BlockId := r.finalized.map (·.2)

/-- The item is pending in some chain. -/
def Waits (x : ContentId) : Prop := ∃ c ∈ r.chains, x ∈ c.pending

/-- A finalized block carries the item. -/
def Carried (x : ContentId) : Prop :=
  ∃ id ∈ r.finalizedIds, ∃ b, r.blocks[id]? = some b ∧ x ∈ b.contentIds

/-- The chain is one of the two that a live chain was split into. -/
def Linked (id : ChainId) : Prop :=
  ∃ upper parent left right, id.parent? = some upper ∧ Audit.chain? r upper = some parent ∧
    parent.retired = false ∧ parent.children = some (left, right) ∧ (id = left ∨ id = right)

/-- What must hold of the outcome of a run. -/
structure Sound : Prop where
  /-- No block stands twice in the global order. -/
  once : (r.linearized.map (·.id)).Nodup
  /-- Ranks never decrease along the global order. -/
  ranked : (r.linearized.map (·.rank.current)).Pairwise (· ≤ ·)
  /-- No block is finalized twice. -/
  finalized_once : r.finalizedIds.Nodup
  /-- Blocks in the global order are finalized. -/
  finalized : ∀ b ∈ r.linearized, b.id ∈ r.finalizedIds
  /-- A finalized block extends a finalized block or the root genesis. -/
  attached : ∀ id ∈ r.finalizedIds, ∃ b parent, r.blocks[id]? = some b ∧
    b.parent? = some parent ∧ (parent = r.rootGenesis ∨ parent ∈ r.finalizedIds)
  /-- No item is pending in two chains. -/
  sole : ∀ x, (r.chains.filter (·.pending.contains x)).length ≤ 1
  /-- A pending item is not carried by a finalized block. -/
  consumed : ∀ x, r.Waits x → ¬r.Carried x
  /-- A pending item was not invalidated. -/
  withdrawn : ∀ x, r.Waits x → x ∉ r.invalidated
  /-- A submitted item that was not invalidated is pending or carried by a finalized block. -/
  kept : ∀ x ∈ r.submitted, x ∉ r.invalidated → r.Waits x ∨ r.Carried x
  /-- What is left without a place in the global order is not below the final bar. -/
  delivered : ∀ c ∈ r.chains, ∀ rank ∈ c.undeliveredHead, r.finalBar ≤ rank
  /-- A live chain other than the root is linked from a live parent. -/
  linked : ∀ c ∈ r.chains, c.retired = false → c.id.isRoot = false → r.Linked c.id

end RunResult

namespace Audit

variable {r : RunResult} {x : ContentId}

/-! ### The global order -/

theorem duplicates_eq_nil : ∀ (blocks : List Block) (seen : BlockMap Nat) (seq : Nat),
    duplicates seen seq blocks = [] ↔
      (∀ b ∈ blocks, seen[b.id]? = none) ∧ (blocks.map (·.id)).Nodup
  | [], _, _ => iff_of_true rfl ⟨fun _ hb => (nomatch hb), List.nodup_nil⟩
  | block :: rest, seen, seq => by
    unfold duplicates
    rw [List.map_cons, List.nodup_cons, List.forall_mem_cons]
    cases hseen : seen[block.id]? with
    | some first => simp
    | none =>
      dsimp only
      rw [duplicates_eq_nil rest]
      -- a block is new to the rest if it is new so far and not the first one
      have hnew : (∀ b ∈ rest, (seen.insert block.id seq)[b.id]? = none) ↔
          block.id ∉ rest.map (·.id) ∧ ∀ b ∈ rest, seen[b.id]? = none := by
        simp only [Lookup.get_insert, List.mem_map, not_exists, not_and]
        constructor
        · intro h
          refine ⟨fun b hb heq => ?_, fun b hb => ?_⟩
          · have hb := h b hb
            rw [if_pos heq.symm] at hb
            cases hb
          · have hb := h b hb
            split at hb
            · cases hb
            · exact hb
        · rintro ⟨hfirst, hold⟩ b hb
          rw [if_neg fun heq => hfirst b hb heq.symm]
          exact hold b hb
      rw [hnew, eq_self]
      tauto

theorem exactlyOnce_eq_nil : exactlyOnce r = [] ↔ (r.linearized.map (·.id)).Nodup := by
  unfold exactlyOnce
  rw [duplicates_eq_nil]
  refine and_iff_right fun b _ => ?_
  exact Std.ExtTreeMap.getElem?_empty

theorem regressions_eq_nil : ∀ (blocks : List Block) (seq : Nat) (previous : UInt64),
    regressions seq previous blocks = [] ↔
      (previous :: blocks.map (·.rank.current)).Pairwise (· ≤ ·)
  | [], _, previous => iff_of_true rfl (List.pairwise_singleton _ previous)
  | block :: rest, seq, previous => by
    unfold regressions
    dsimp only
    rw [List.map_cons, List.pairwise_cons]
    split
    · rename_i hlt
      refine iff_of_false (List.cons_ne_nil _ _) fun h => ?_
      exact UInt64.not_le.2 hlt (h.1 _ (List.mem_cons_self ..))
    · rename_i hnot
      have hle := UInt64.not_lt.1 hnot
      rw [regressions_eq_nil rest, List.pairwise_cons]
      refine ⟨fun h => ⟨fun rank hrank => ?_, h⟩, And.right⟩
      rcases List.mem_cons.1 hrank with rfl | hrank
      · exact hle
      · exact UInt64.le_trans hle (h.1 rank hrank)

theorem rankOrder_eq_nil :
    rankOrder r = [] ↔ (r.linearized.map (·.rank.current)).Pairwise (· ≤ ·) := by
  unfold rankOrder
  split
  · rename_i hnil
    rw [hnil]
    exact iff_of_true rfl List.Pairwise.nil
  · rename_i block rest hcons
    rw [regressions_eq_nil, hcons, List.map_cons]

/-! ### Finalized blocks -/

theorem contains_finalizedSet {id : BlockId} :
    (finalizedSet r).contains id = true ↔ id ∈ r.finalizedIds := by
  unfold finalizedSet
  rw [Std.ExtTreeSet.contains_insertMany_list, Bool.or_eq_true, List.contains_iff_mem]
  simp [RunResult.finalizedIds]

theorem repeated_eq_nil : ∀ (ids : List BlockId) (seen : BlockSet),
    repeated seen ids = [] ↔ (∀ id ∈ ids, id ∉ seen) ∧ ids.Nodup
  | [], _ => iff_of_true rfl ⟨fun _ hid => (nomatch hid), List.nodup_nil⟩
  | id :: rest, seen => by
    unfold repeated
    rw [List.nodup_cons, List.forall_mem_cons]
    split
    · rename_i hseen
      rw [Std.ExtTreeSet.contains_iff_mem] at hseen
      exact iff_of_false (List.cons_ne_nil _ _) fun h => h.1.1 hseen
    · rename_i hseen
      rw [Std.ExtTreeSet.contains_iff_mem] at hseen
      have hnew : (∀ a ∈ rest, a ∉ seen.insert id) ↔ id ∉ rest ∧ ∀ a ∈ rest, a ∉ seen := by
        simp only [Lookup.mem_insert, not_or]
        exact ⟨fun h => ⟨fun hid => (h id hid).1 rfl, fun a ha => (h a ha).2⟩,
          fun h a ha => ⟨fun heq => h.1 (heq ▸ ha), h.2 a ha⟩⟩
      rw [repeated_eq_nil rest, hnew]
      tauto

theorem finalizedOnly_eq_nil : finalizedOnly r = [] ↔
    r.finalizedIds.Nodup ∧ ∀ b ∈ r.linearized, b.id ∈ r.finalizedIds := by
  unfold finalizedOnly
  dsimp only
  rw [List.append_eq_nil_iff, repeated_eq_nil, List.map_eq_nil_iff, List.filter_eq_nil_iff]
  refine and_congr (and_iff_right fun id _ => ?_) (forall₂_congr fun b _ => ?_)
  · exact Std.ExtTreeSet.not_mem_empty
  · rw [← contains_finalizedSet, Bool.not_eq_true', Bool.not_eq_false]

theorem ancestry_eq_nil : ancestry r = [] ↔
    ∀ id ∈ r.finalizedIds, ∃ b parent, r.blocks[id]? = some b ∧ b.parent? = some parent ∧
      (parent = r.rootGenesis ∨ parent ∈ r.finalizedIds) := by
  unfold ancestry RunResult.finalizedIds
  dsimp only
  rw [List.filterMap_eq_nil_iff, List.forall_mem_map]
  refine forall₂_congr fun ⟨chain, id⟩ _ => ?_
  dsimp only
  cases hb : r.blocks[id]? with
  | none => simp
  | some b =>
    cases hp : b.parent? with
    | none => simp [hp]
    | some parent =>
      have hset := @contains_finalizedSet r parent
      unfold RunResult.finalizedIds at hset
      simp only [Option.bind_some, hp, ite_eq_left_iff, Bool.or_eq_true, decide_eq_true_eq, hset,
        reduceCtorEq, imp_false, not_not, Option.some.injEq, exists_and_left, exists_eq_left']

/-! ### Content -/

theorem mem_carried : x ∈ carried r ↔ r.Carried x := by
  have hwalk : x ∈ carried r ↔
      ∃ entry ∈ r.finalized, ∃ b, r.blocks[entry.2]? = some b ∧ x ∈ b.contentIds := by
    refine Lookup.mem_foldl_iff (fun items entry => ?_) r.finalized
    dsimp only
    cases hb : r.blocks[entry.2]? with
    | none => simp
    | some b => simp [Std.ExtTreeSet.mem_insertMany_list]
  refine hwalk.trans ?_
  constructor
  · rintro ⟨entry, hentry, hb⟩
    exact ⟨entry.2, List.mem_map_of_mem hentry, hb⟩
  · rintro ⟨id, hid, hb⟩
    obtain ⟨entry, hentry, rfl⟩ := List.mem_map.1 hid
    exact ⟨entry, hentry, hb⟩

theorem mem_pendingItems : x ∈ pendingItems r ↔ r.Waits x :=
  Lookup.mem_foldl_iff (fun items c => by simp [Std.ExtTreeSet.mem_insertMany_list]) r.chains

/-- Some chain holds an item that is pending. -/
theorem holders_ne_nil (h : r.Waits x) : holders r x ≠ [] := by
  obtain ⟨c, hc, hx⟩ := h
  refine List.ne_nil_of_mem (a := c.id) (List.mem_map_of_mem (List.mem_filter.2 ⟨hc, ?_⟩))
  exact List.contains_iff_mem.2 hx

theorem pendingViolations_eq_nil (h : r.Waits x) : pendingViolations r (carried r) x = [] ↔
    (r.chains.filter (·.pending.contains x)).length ≤ 1 ∧ ¬r.Carried x ∧ x ∉ r.invalidated := by
  have hlength : (holders r x).length = (r.chains.filter (·.pending.contains x)).length :=
    List.length_map _
  have hsome := holders_ne_nil h
  unfold pendingViolations
  rw [← hlength, ← mem_carried]
  cases hh : holders r x with
  | nil => exact absurd hh hsome
  | cons chain others =>
    cases others with
    | nil => simp
    | cons other rest => simp

theorem content_eq_nil : content r = [] ↔
    (∀ x, (r.chains.filter (·.pending.contains x)).length ≤ 1) ∧
      (∀ x, r.Waits x → ¬r.Carried x) ∧ (∀ x, r.Waits x → x ∉ r.invalidated) ∧
      ∀ x ∈ r.submitted, x ∉ r.invalidated → r.Waits x ∨ r.Carried x := by
  have hpending : (pendingItems r).toList.flatMap (pendingViolations r (carried r)) = [] ↔
      ∀ x, r.Waits x → (r.chains.filter (·.pending.contains x)).length ≤ 1 ∧ ¬r.Carried x ∧
        x ∉ r.invalidated := by
    rw [List.flatMap_eq_nil_iff]
    simp only [Std.ExtTreeSet.mem_toList, mem_pendingItems]
    exact forall₂_congr fun x hx => pendingViolations_eq_nil hx
  have hlost : ((r.submitted.toList.filter fun item => !r.invalidated.contains item &&
        !(pendingItems r).contains item && !(carried r).contains item).map
          Violation.contentLost) = [] ↔
      ∀ x ∈ r.submitted, x ∉ r.invalidated → r.Waits x ∨ r.Carried x := by
    rw [List.map_eq_nil_iff, List.filter_eq_nil_iff]
    simp only [Std.ExtTreeSet.mem_toList, ← mem_pendingItems, ← mem_carried,
      ← Std.ExtTreeSet.contains_iff_mem]
    refine forall₂_congr fun x _ => ?_
    cases r.invalidated.contains x <;> cases (pendingItems r).contains x <;>
      cases (carried r).contains x <;> simp
  -- an item that is not pending is in no chain
  have hnone : ∀ x, ¬r.Waits x → (r.chains.filter (·.pending.contains x)).length ≤ 1 := by
    intro x hx
    rw [List.filter_eq_nil_iff.2 fun c hc hcontains =>
      hx ⟨c, hc, List.contains_iff_mem.1 hcontains⟩]
    exact Nat.zero_le _
  unfold content
  dsimp only
  rw [List.append_eq_nil_iff, hpending, hlost]
  constructor
  · rintro ⟨hall, hkept⟩
    refine ⟨fun x => ?_, fun x hx => (hall x hx).2.1, fun x hx => (hall x hx).2.2, hkept⟩
    by_cases hx : r.Waits x
    · exact (hall x hx).1
    · exact hnone x hx
  · rintro ⟨hsole, hconsumed, hwithdrawn, hkept⟩
    exact ⟨fun x hx => ⟨hsole x, hconsumed x hx, hwithdrawn x hx⟩, hkept⟩

/-! ### Chains -/

theorem progress_eq_nil : progress r = [] ↔
    ∀ c ∈ r.chains, ∀ rank ∈ c.undeliveredHead, r.finalBar ≤ rank := by
  unfold progress
  rw [List.filterMap_eq_nil_iff]
  refine forall₂_congr fun c _ => ?_
  cases hhead : c.undeliveredHead with
  | none => simp
  | some rank => simp [UInt64.not_lt]

theorem isLinked_iff {id : ChainId} : isLinked r id = true ↔ r.Linked id := by
  unfold isLinked
  constructor
  · intro h
    split at h
    · cases h
    · rename_i parent hparent
      obtain ⟨upper, hupper, hparent⟩ := Option.bind_eq_some_iff.1 hparent
      rw [Bool.and_eq_true, Bool.not_eq_true'] at h
      split at h
      · rename_i left right hchildren
        rw [Bool.or_eq_true, decide_eq_true_eq, decide_eq_true_eq] at h
        exact ⟨upper, parent, left, right, hupper, hparent, h.1, hchildren,
          h.2.imp Eq.symm Eq.symm⟩
      · exact absurd h.2 Bool.false_ne_true
  · rintro ⟨upper, parent, left, right, hupper, hparent, hlive, hchildren, hid⟩
    rw [hupper, Option.bind_some, hparent]
    dsimp only
    rw [hlive, hchildren]
    simpa using hid.imp Eq.symm Eq.symm

theorem shape_eq_nil : shape r = [] ↔
    ∀ c ∈ r.chains, c.retired = false → c.id.isRoot = false → r.Linked c.id := by
  unfold shape
  rw [List.map_eq_nil_iff, List.filter_eq_nil_iff]
  refine forall₂_congr fun c _ => ?_
  rw [← isLinked_iff]
  cases c.retired <;> cases c.id.isRoot <;> simp

/-- An audit finds nothing exactly if all is as it must be. -/
theorem all_eq_nil_iff : all r = [] ↔ r.Sound := by
  unfold all
  simp only [List.append_eq_nil_iff, exactlyOnce_eq_nil, rankOrder_eq_nil, finalizedOnly_eq_nil,
    ancestry_eq_nil, content_eq_nil, progress_eq_nil, shape_eq_nil]
  constructor
  · rintro ⟨⟨⟨⟨⟨⟨honce, hranked⟩, hfonce, hfinal⟩, hattached⟩, hsole, hconsumed, hwithdrawn, hkept⟩,
      hdelivered⟩, hlinked⟩
    exact ⟨honce, hranked, hfonce, hfinal, hattached, hsole, hconsumed, hwithdrawn, hkept,
      hdelivered, hlinked⟩
  · intro h
    exact ⟨⟨⟨⟨⟨⟨h.once, h.ranked⟩, h.finalized_once, h.finalized⟩, h.attached⟩, h.sole, h.consumed,
      h.withdrawn, h.kept⟩, h.delivered⟩, h.linked⟩

end Audit

end ShardLedger
