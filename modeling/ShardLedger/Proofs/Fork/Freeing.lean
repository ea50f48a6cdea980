import ShardLedger.Proofs.Fork.Behind

/-!
# Blocks that wait for several others

A block may be listed under several blocks that it misses. It is taken off one list after the other,
and set free when the last of them is resolved. Releasing a block sets free exactly those that are
then on no list any more, each of them after all that it waited for.

- `Backlog.Indexed`: the waiting blocks stand on all lists that they belong on.
- `InOrder`: every block comes after the blocks that it names.
- `Backlog.Freed`, `Backlog.release_freed`: what releasing a block sets free and what it leaves.
-/

namespace ShardLedger

/-- Every block comes after those that it names, except for names that are given. -/
def InOrder (given : BlockId → Prop) : List Block → Prop
  | [] => True
  | b :: later => (∀ k ∈ b.previous, given k) ∧ InOrder (fun k => given k ∨ k = b.id) later

namespace InOrder

variable {given given' : BlockId → Prop}

theorem mono : ∀ {xs : List Block} {given given' : BlockId → Prop},
    (∀ b ∈ xs, ∀ k ∈ b.previous, given k → given' k) → InOrder given xs → InOrder given' xs
  | [], _, _, _, _ => trivial
  | b :: xs, _, _, hsub, ⟨hb, hlater⟩ => by
    obtain ⟨hfirst, hrest⟩ := List.forall_mem_cons.1 hsub
    refine ⟨fun k hk => hfirst k hk (hb k hk), mono (fun x hx k hk => ?_) hlater⟩
    exact Or.imp_left (hrest x hx k hk)

theorem of_forall : ∀ {xs : List Block} {given : BlockId → Prop},
    (∀ b ∈ xs, ∀ k ∈ b.previous, given k) → InOrder given xs
  | [], _, _ => trivial
  | _ :: _, _, h => by
    obtain ⟨hfirst, hrest⟩ := List.forall_mem_cons.1 h
    exact ⟨hfirst, of_forall fun x hx k hk => .inl (hrest x hx k hk)⟩

theorem append : ∀ {xs ys : List Block} {given : BlockId → Prop}, InOrder given xs →
    InOrder (fun k => given k ∨ k ∈ xs.map (·.id)) ys → InOrder given (xs ++ ys)
  | [], _, _, _, hys => hys.mono fun _ _ _ _ hk => hk.resolve_right List.not_mem_nil
  | b :: xs, ys, _, ⟨hb, hxs⟩, hys => by
    refine ⟨hb, hxs.append (hys.mono fun _ _ k _ hk => ?_)⟩
    rw [List.map_cons, List.mem_cons, ← or_assoc] at hk
    exact hk

/-- What a block names is given or stands before it. -/
theorem named_before : ∀ {pre post : List Block} {b : Block} {given : BlockId → Prop},
    InOrder given (pre ++ b :: post) → ∀ k ∈ b.previous, given k ∨ k ∈ pre.map (·.id)
  | [], _, _, _, ⟨hb, _⟩ => fun k hk => .inl (hb k hk)
  | x :: pre, _, _, _, ⟨_, hlater⟩ => fun k hk => by
    rw [List.map_cons, List.mem_cons, ← or_assoc]
    exact hlater.named_before k hk

end InOrder

namespace Backlog

variable {q q' : Backlog} {out : List Block} {stack rest : List BlockId} {k id : BlockId}
  {b block : Block}

theorem not_isMissing : q.isMissing k = false ↔ q.waiting[k]? = none := Lookup.contains_eq_false

/-- A block that comes in is listed under all that it misses. -/
theorem listed_enlist_all : ∀ (missing : List BlockId) {q : Backlog},
    (∀ k b, q.Listed k b → b.id = block.id → b = block) →
      ((q.enlist block missing).Listed k b ↔ q.Listed k b ∨ (k ∈ missing ∧ b = block))
  | [], _, _ => (or_iff_left fun hk => nomatch hk.1).symm
  | id :: rest, q, hname => by
    have hfirst : ∀ {k b}, (q.enlistUnder block id).Listed k b ↔
        q.Listed k b ∨ (k = id ∧ b = block) := listed_enlistUnder_iff (hname id)
    show ((q.enlistUnder block id).enlist block rest).Listed k b ↔ _
    rw [listed_enlist_all rest fun k b hb hid => ?_, hfirst, List.mem_cons, or_and_right, or_assoc]
    exact (hfirst.1 hb).elim (fun hb => hname k b hb hid) And.right

/-- Something waits for every block that is waited for: no list is empty. -/
def Filled (q : Backlog) : Prop := ∀ k, q.isMissing k = true → ∃ b, q.Listed k b

theorem filled_empty : empty.Filled := by
  intro k hmissing
  obtain ⟨waiters, hw⟩ := Lookup.contains_iff.1 hmissing
  exact absurd (hw.symm.trans Std.ExtTreeMap.getElem?_empty) (Option.some_ne_none _)

theorem Filled.enlist : ∀ (missing : List BlockId) {q : Backlog}, q.Filled →
    (q.enlist block missing).Filled
  | [], _, h => h
  | id :: rest, q, h => by
    refine Filled.enlist rest fun k hmissing => ?_
    unfold enlistUnder at hmissing ⊢
    dsimp only at hmissing ⊢
    split at hmissing
    · rename_i hthere
      rw [if_pos hthere]
      exact h k hmissing
    · rename_i hnot
      rw [if_neg hnot]
      by_cases hk : id = k
      · exact ⟨block, listed_insert.2 (by rw [if_pos hk]; simp)⟩
      · obtain ⟨waiters, hw⟩ := Lookup.contains_iff.1 hmissing
        rw [Lookup.get_insert, if_neg hk] at hw
        obtain ⟨b, hb⟩ := h k (Lookup.contains_iff.2 ⟨waiters, hw⟩)
        exact ⟨b, listed_insert.2 (by rw [if_neg hk]; exact hb)⟩

/-- Where no block waits, no block is waited for. -/
theorem Filled.missingCount_eq_zero (h : q.Filled) (hnone : ∀ k b, ¬q.Listed k b) :
    q.missingCount = 0 := by
  have hempty : q.waiting = ∅ := by
    refine Std.ExtTreeMap.ext_getElem? fun {k} => ?_
    rw [Std.ExtTreeMap.getElem?_empty]
    refine not_isMissing.1 (Bool.eq_false_iff.2 fun hmissing => ?_)
    obtain ⟨b, hb⟩ := h k hmissing
    exact hnone k b hb
  unfold missingCount
  rw [hempty, Std.ExtTreeMap.size_empty]

/-- A waiting block is listed under blocks that it names, under each of them that is waited for at
all; and no two waiting blocks share an identity. -/
structure Indexed (q : Backlog) : Prop where
  named : ∀ {k b}, q.Listed k b → k ∈ b.previous
  complete : ∀ {k b k'}, q.Listed k b → k' ∈ b.previous → q.isMissing k' = true → q.Listed k' b
  single : ∀ {k b k' b'}, q.Listed k b → q.Listed k' b' → b.id = b'.id → b = b'

theorem isMissing_erase : isMissing ⟨q.waiting.erase id⟩ k = true ↔
    id ≠ k ∧ q.isMissing k = true := by
  unfold isMissing
  rw [Lookup.contains_iff, Lookup.contains_iff, Lookup.get_erase]
  by_cases hid : id = k
  · simp [hid]
  · rw [if_neg hid]
    exact (and_iff_right hid).symm

/-- Only the block that is resolved stops being waited for. -/
theorem eq_of_not_listed_erase (hb : q.Listed k b)
    (hnot : ¬Listed ⟨q.waiting.erase id⟩ k b) : id = k := by
  refine Decidable.byContradiction fun hne => ?_
  exact hnot (listed_erase.2 ⟨hne, hb⟩)

theorem eq_of_not_isMissing_erase (hmissing : q.isMissing k = true)
    (hnot : isMissing ⟨q.waiting.erase id⟩ k = false) : id = k := by
  refine Decidable.byContradiction fun hne => ?_
  rw [isMissing_erase.2 ⟨hne, hmissing⟩] at hnot
  cases hnot

theorem Indexed.erase (h : q.Indexed) (id : BlockId) : Indexed ⟨q.waiting.erase id⟩ where
  named hb := h.named (listed_erase.1 hb).2
  complete hb hk hmissing :=
    have ⟨hne, hmissing⟩ := isMissing_erase.1 hmissing
    listed_erase.2 ⟨hne, h.complete (listed_erase.1 hb).2 hk hmissing⟩
  single hb hb' := h.single (listed_erase.1 hb).2 (listed_erase.1 hb').2

theorem isMissing_of_listed (hb : q.Listed k b) : q.isMissing k = true := by
  refine Lookup.contains_iff.2 ?_
  cases hw : q.waiting[k]? with
  | none => exact absurd hb (not_listed_of_none hw)
  | some waiters => exact ⟨waiters, rfl⟩

/-- A block is satisfied if nothing that it names is waited for. -/
theorem satisfied_iff : q.satisfied b = true ↔ ∀ k ∈ b.previous, q.isMissing k = false := by
  unfold satisfied
  rw [List.all_eq_true]
  refine forall₂_congr fun k _ => ?_
  rw [Bool.not_eq_true']

/-- A satisfied block is on no list. -/
theorem Indexed.not_listed (h : q.Indexed) (hsat : q.satisfied b = true) : ¬q.Listed k b := by
  intro hb
  have hnot := satisfied_iff.1 hsat k (h.named hb)
  rw [isMissing_of_listed hb] at hnot
  cases hnot

theorem setFree_satisfied (q : Backlog) : ∀ (blocks : List Block) (released : BlockSet),
    ∀ b ∈ (q.setFree released blocks).1, q.satisfied b = true
  | [], _, _, hb => nomatch hb
  | block :: rest, released, b, hb => by
    unfold setFree at hb
    split at hb
    · rename_i hfree
      rcases List.mem_cons.1 hb with rfl | hb
      · exact (Bool.and_eq_true_iff.1 hfree).1
      · exact q.setFree_satisfied rest _ b hb
    · exact q.setFree_satisfied rest _ b hb

/-- What is left when all that waits for the blocks of a stack, and for nothing else, was set
free. -/
structure Freed (q : Backlog) (stack : List BlockId) (q' : Backlog) (out : List Block) : Prop where
  gone : ∀ k : BlockId, k ∈ stack ∨ k ∈ out.map (·.id) → q'.waiting[k]? = none
  kept : ∀ k : BlockId, k ∉ stack → k ∉ out.map (·.id) → q'.waiting[k]? = q.waiting[k]?
  mem_iff : ∀ b, b ∈ out ↔ (∃ k, q.Listed k b) ∧ ∀ k, ¬q'.Listed k b
  order : InOrder (fun k => q.isMissing k = true → k ∈ stack) out

theorem freed_refl (h : q.awaited stack = []) : Freed q stack q [] where
  gone _ hk := none_of_awaited_nil h (hk.resolve_right List.not_mem_nil)
  kept _ _ _ := rfl
  mem_iff _ := ⟨fun hb => (nomatch hb), fun ⟨⟨k, hb⟩, hnot⟩ => absurd hb (hnot k)⟩
  order := trivial

/-- Lists go as a whole. -/
theorem Freed.none_or_same (h : Freed q stack q' out) (k : BlockId) :
    q'.waiting[k]? = none ∨ q'.waiting[k]? = q.waiting[k]? := by
  by_cases hk : k ∈ stack ∨ k ∈ out.map (·.id)
  · exact .inl (h.gone k hk)
  · rw [not_or] at hk
    exact .inr (h.kept k hk.1 hk.2)

theorem Freed.left (h : Freed q stack q' out) (hb : q'.Listed k b) : q.Listed k b :=
  listed_of_kept (h.none_or_same k) hb

/-- What waited and is not set free waits still. -/
theorem Freed.waits_still (h : Freed q stack q' out) (hb : q.Listed k b) (hnot : b ∉ out) :
    ∃ k, q'.Listed k b :=
  Classical.byContradiction fun hnone => hnot ((h.mem_iff b).2 ⟨⟨k, hb⟩, not_exists.1 hnone⟩)

theorem Filled.freed (h : q.Filled) (hf : Freed q stack q' out) : q'.Filled := by
  intro k hmissing
  rcases hf.none_or_same k with hnone | hsame
  · rw [not_isMissing.2 hnone] at hmissing
    cases hmissing
  · unfold isMissing at hmissing
    unfold Listed
    rw [Std.ExtTreeMap.contains_eq_isSome_getElem?, hsame] at hmissing
    rw [hsame]
    exact h k (by rwa [isMissing, Std.ExtTreeMap.contains_eq_isSome_getElem?])

/-- What is not resolved stays waited for. -/
theorem Freed.listed_iff (h : Freed q stack q' out) :
    q'.Listed k b ↔ q.Listed k b ∧ k ∉ stack ∧ k ∉ out.map (·.id) := by
  constructor
  · intro hb
    refine ⟨h.left hb, fun hk => ?_, fun hk => ?_⟩
    · exact not_listed_of_none (h.gone k (.inl hk)) hb
    · exact not_listed_of_none (h.gone k (.inr hk)) hb
  · rintro ⟨hb, hstack, hout⟩
    unfold Listed at hb ⊢
    rwa [h.kept k hstack hout]

/-- The list of the first block of the stack that something waits for is resolved: what is then on
no list is set free, and goes on the stack. -/
theorem Freed.step {free later : List Block} (hq : q.Indexed)
    (hstack : q.awaited stack = id :: rest)
    (hfree : ∀ b, b ∈ free ↔ q.Listed id b ∧ ∀ k, ¬Listed ⟨q.waiting.erase id⟩ k b)
    (h : Freed ⟨q.waiting.erase id⟩ ((free.map (·.id)).reverse ++ rest) q' later) :
    Freed q stack q' (free ++ later) := by
  obtain ⟨hid, hrest⟩ := mem_of_awaited hstack
  have hmem : ∀ k, k ∈ (free.map (·.id)).reverse ++ rest ↔ k ∈ free.map (·.id) ∨ k ∈ rest := by
    intro k
    rw [List.mem_append, List.mem_reverse]
  have houts : ∀ k, k ∈ (free ++ later).map (·.id) ↔
      k ∈ free.map (·.id) ∨ k ∈ later.map (·.id) := by
    intro k
    rw [List.map_append, List.mem_append]
  refine ⟨fun _ => none_of_awaited_cons hstack h.none_or_same h.gone,
    fun k hnstack hnout => ?_, fun b => ?_, ?_⟩
  · rw [houts, not_or] at hnout
    have hne : id ≠ k := fun heq => hnstack (heq ▸ hid)
    have hnot : k ∉ (free.map (·.id)).reverse ++ rest := fun hk =>
      ((hmem k).1 hk).elim hnout.1 fun hk => hnstack (hrest hk)
    rw [h.kept k hnot hnout.2, Lookup.get_erase, if_neg hne]
  · rw [List.mem_append, hfree, h.mem_iff]
    constructor
    · rintro (⟨hb, hnot⟩ | ⟨⟨k, hb⟩, hnot⟩)
      · exact ⟨⟨id, hb⟩, fun k hb' => hnot k (h.left hb')⟩
      · exact ⟨⟨k, (listed_erase.1 hb).2⟩, hnot⟩
    · rintro ⟨⟨k, hb⟩, hnot⟩
      by_cases hsome : ∃ k, Listed ⟨q.waiting.erase id⟩ k b
      · exact .inr ⟨hsome, hnot⟩
      · have hnone := not_exists.1 hsome
        exact .inl ⟨eq_of_not_listed_erase hb (hnone k) ▸ hb, hnone⟩
  · -- what was waited for before and is not any more, the stack resolves
    refine InOrder.append (.of_forall fun b hb k hk hmissing => ?_)
      (h.order.mono fun b _ k _ hgiven => ?_)
    · obtain ⟨hlisted, hnone⟩ := (hfree b).1 hb
      exact eq_of_not_listed_erase (hq.complete hlisted hk hmissing) (hnone k) ▸ hid
    · cases hmissing : isMissing ⟨q.waiting.erase id⟩ k with
      | true => exact ((hmem k).1 (hgiven hmissing)).symm.imp_left fun hk _ => hrest hk
      | false => exact .inl fun hbefore => eq_of_not_isMissing_erase hbefore hmissing ▸ hid

/-- Once a list has gone, those of its blocks are set free that are on no other list. -/
theorem Indexed.mem_setFree_iff (h : q.Indexed) {released : BlockSet}
    (hfresh : ∀ k b, q.Listed k b → b.id ∉ released) :
    b ∈ (setFree ⟨q.waiting.erase id⟩ released (q.waiting[id]?.getD [])).1 ↔
      q.Listed id b ∧ ∀ k, ¬Listed ⟨q.waiting.erase id⟩ k b := by
  have hsub := setFree_subset ⟨q.waiting.erase id⟩ (q.waiting[id]?.getD []) released
  constructor
  · intro hb
    exact ⟨hsub b hb, fun k => (h.erase id).not_listed (setFree_satisfied _ _ _ b hb)⟩
  · rintro ⟨hb, hnone⟩
    have hsat : satisfied ⟨q.waiting.erase id⟩ b = true := by
      refine satisfied_iff.2 fun k hk => Bool.eq_false_iff.2 fun hmissing => hnone k ?_
      obtain ⟨hne, hmissing⟩ := isMissing_erase.1 hmissing
      exact listed_erase.2 ⟨hne, h.complete hb hk hmissing⟩
    -- a block of its name is set free, and that is the block itself
    obtain ⟨y, hy, hid⟩ := List.mem_map.1
      ((setFree_covers _ _ released b hb hsat).resolve_right (hfresh id b hb))
    exact h.single (hsub y hy) hb hid ▸ hy

theorem releaseAll_freed (q : Backlog) (h : q.Indexed) {released : BlockSet}
    (hfresh : ∀ k b, q.Listed k b → b.id ∉ released) (stack : List BlockId) :
    Freed q stack (q.releaseAll released stack).1 (q.releaseAll released stack).2 := by
  unfold releaseAll
  split
  · exact freed_refl ‹_›
  · rename_i id rest hstack
    have hrecord := (setFree_nodup ⟨q.waiting.erase id⟩ (q.waiting[id]?.getD []) released).2.2
    refine .step h hstack (fun b => h.mem_setFree_iff hfresh)
      (releaseAll_freed _ (h.erase id) (fun k b hb hin => ?_) _)
    have hlisted := (listed_erase.1 hb).2
    -- what is still listed is not on the record: what was set free is on no list
    rcases (hrecord b.id).1 hin with hin | hin
    · obtain ⟨y, hy, hid⟩ := List.mem_map.1 hin
      obtain ⟨hy, hnone⟩ := (h.mem_setFree_iff hfresh).1 hy
      exact hnone k (h.single hy hlisted hid ▸ hb)
    · exact hfresh k b hlisted hin
termination_by q.waiting.size
decreasing_by exact size_erase_lt_of_awaited ‹_›

/-- A released block comes first, and sets free what waited for it and for nothing else, or for
blocks that it sets free. -/
theorem release_freed (h : q.Indexed) (hnew : ∀ k b, q.Listed k b → b.id ≠ block.id) :
    ∃ free, (q.release block).2 = block :: free ∧
      Freed q [block.id] (q.release block).1 free :=
  ⟨_, rfl, releaseAll_freed q h (fresh_insert hnew) _⟩

end Backlog

end ShardLedger
