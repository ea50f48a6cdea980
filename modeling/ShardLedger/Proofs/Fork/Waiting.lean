import ShardLedger.Fork.Backlog
import ShardLedger.Proofs.Lookup

/-!
# What waits in a backlog

A backlog neither makes blocks up nor changes them. Releasing a block or giving one up takes whole
lists out of it, so nothing waits any more for what a taken block waited for.

- `Coherent`: an identity stands for one block only.
- `Backlog.Listed`, `Backlog.All`: the waiting blocks, and a property of all of them.
- `Backlog.Loses`: blocks are taken out of a backlog.
- `Backlog.release_loses`, `Backlog.release_nodup`, `Backlog.discard_loses`.
- `Backlog.HeldIn`: the waiting blocks are those of a map.
-/

namespace ShardLedger

/-- A block with a parent names nothing else. -/
theorem Block.previous_eq {b : Block} {p : BlockId} (h : b.parent? = some p) :
    b.previous = [p] := by
  unfold Block.parent? at h
  split at h
  · rename_i heq
    rw [heq, Option.some.inj h]
  · cases h

/-- The parent is among the previous blocks. -/
theorem Block.previous_of_parent {b : Block} {p : BlockId} (h : b.parent? = some p) :
    p ∈ b.previous := by
  rw [Block.previous_eq h]
  exact List.mem_singleton_self p

/-- No two of the blocks share an identity. -/
def Coherent (blocks : List Block) : Prop :=
  ∀ x ∈ blocks, ∀ y ∈ blocks, x.id = y.id → x = y

instance (blocks : List Block) : Decidable (Coherent blocks) :=
  inferInstanceAs (Decidable (∀ x ∈ blocks, ∀ y ∈ blocks, x.id = y.id → x = y))

theorem Coherent.mono {blocks blocks' : List Block} (h : Coherent blocks)
    (hsub : blocks' ⊆ blocks) : Coherent blocks' :=
  fun x hx y hy hid => h x (hsub hx) y (hsub hy) hid

namespace Backlog

variable {P : Block → Prop} {q q' q'' : Backlog} {out : List Block} {k : BlockId} {b : Block}

/-- Block `b` waits for `k`. -/
def Listed (q : Backlog) (k : BlockId) (b : Block) : Prop := b ∈ q.waiting[k]?.getD []

/-- Every waiting block has the property. -/
def All (P : Block → Prop) (q : Backlog) : Prop :=
  ∀ (id : BlockId) (waiters : List Block), q.waiting[id]? = some waiters → ∀ b ∈ waiters, P b

theorem all_iff : q.All P ↔ ∀ k b, q.Listed k b → P b := by
  constructor
  · intro h k b hb
    unfold Listed at hb
    cases hw : q.waiting[k]? with
    | none => exact nomatch hw ▸ hb
    | some waiters => exact h k waiters hw b (by rwa [hw] at hb)
  · intro h k waiters hw b hb
    exact h k b (by unfold Listed; rwa [hw])

theorem not_listed_empty : ¬empty.Listed k b := by
  show b ∉ (∅ : BlockMap (List Block))[k]?.getD []
  rw [Std.ExtTreeMap.getElem?_empty]
  exact List.not_mem_nil

theorem all_empty : empty.All P := all_iff.2 fun _ _ hb => absurd hb not_listed_empty

theorem listed_insert {id : BlockId} {waiters : List Block} :
    Listed ⟨q.waiting.insert id waiters⟩ k b ↔ if id = k then b ∈ waiters else q.Listed k b := by
  unfold Listed
  rw [Lookup.get_insert]
  split <;> rfl

theorem listed_erase {id : BlockId} :
    Listed ⟨q.waiting.erase id⟩ k b ↔ id ≠ k ∧ q.Listed k b := by
  unfold Listed
  rw [Lookup.get_erase]
  by_cases hid : id = k
  · rw [if_pos hid]
    exact ⟨fun hb => (nomatch hb), fun hb => absurd hid hb.1⟩
  · rw [if_neg hid]
    exact ⟨fun hb => ⟨hid, hb⟩, And.right⟩

/-! ### Coming in -/

theorem listed_enlistUnder {block : Block} {missing : BlockId}
    (h : (q.enlistUnder block missing).Listed k b) :
    q.Listed k b ∨ (k = missing ∧ b = block) := by
  unfold enlistUnder at h
  dsimp only at h
  split at h
  · exact .inl h
  · rw [listed_insert] at h
    split at h
    · rename_i hk
      rcases List.mem_append.1 h with h | h
      · exact .inl (hk ▸ h)
      · exact .inr ⟨hk.symm, List.mem_singleton.1 h⟩
    · exact .inl h

/-- What waits once a block has come in: what waited, and the block for what it misses. -/
theorem listed_enlist {block : Block} : ∀ (missing : List BlockId) {q : Backlog},
    (q.enlist block missing).Listed k b → q.Listed k b ∨ (k ∈ missing ∧ b = block)
  | [], _, h => .inl h
  | id :: rest, q, h => by
    rcases listed_enlist rest (q := q.enlistUnder block id) h with h | ⟨hk, hb⟩
    · rcases listed_enlistUnder h with h | ⟨rfl, hb⟩
      · exact .inl h
      · exact .inr ⟨List.mem_cons_self .., hb⟩
    · exact .inr ⟨List.mem_cons_of_mem _ hk, hb⟩

theorem All.enlist {block : Block} (hb : P block) (missing : List BlockId) (h : q.All P) :
    (q.enlist block missing).All P := by
  rw [all_iff] at h ⊢
  intro k b hlisted
  rcases listed_enlist missing hlisted with hlisted | ⟨-, rfl⟩
  · exact h k b hlisted
  · exact hb

/-! ### Being taken out -/

/-- What is left of a backlog when some blocks were taken out of it, each with all that waited for
the same block. -/
structure Loses (q q' : Backlog) (out : List Block) : Prop where
  left : ∀ k b, q'.Listed k b → q.Listed k b
  taken : ∀ y ∈ out, ∃ k, q.Listed k y ∧ ∀ b, ¬q'.Listed k b

theorem Loses.refl (q : Backlog) : Loses q q [] := ⟨fun _ _ hb => hb, fun _ hy => nomatch hy⟩

theorem Loses.trans {later : List Block} (h₁ : Loses q q' out) (h₂ : Loses q' q'' later) :
    Loses q q'' (out ++ later) := by
  refine ⟨fun k b hb => h₁.left k b (h₂.left k b hb), fun y hy => ?_⟩
  rcases List.mem_append.1 hy with hy | hy
  · obtain ⟨k, hk, hnone⟩ := h₁.taken y hy
    exact ⟨k, hk, fun b hb => hnone b (h₂.left k b hb)⟩
  · obtain ⟨k, hk, hnone⟩ := h₂.taken y hy
    exact ⟨k, h₁.left k y hk, hnone⟩

/-- A property of all waiting blocks stays one, and the blocks taken out have it. -/
theorem Loses.all (h : Loses q q' out) (hq : q.All P) : q'.All P ∧ ∀ b ∈ out, P b := by
  rw [all_iff] at hq ⊢
  refine ⟨fun k b hb => hq k b (h.left k b hb), fun b hb => ?_⟩
  obtain ⟨k, hk, -⟩ := h.taken b hb
  exact hq k b hk

/-- Blocks are taken out with the whole list that they stand on. -/
theorem loses_erase {id : BlockId} (h : ∀ y ∈ out, q.Listed id y) :
    Loses q ⟨q.waiting.erase id⟩ out :=
  ⟨fun _ _ hb => (listed_erase.1 hb).2,
    fun y hy => ⟨id, h y hy, fun _ hb => (listed_erase.1 hb).1 rfl⟩⟩

/-! ### Release -/

theorem setFree_subset (q : Backlog) : ∀ (blocks : List Block) (released : BlockSet),
    ∀ b ∈ (q.setFree released blocks).1, b ∈ blocks
  | [], _, b, hb => nomatch hb
  | block :: rest, released, b, hb => by
    unfold setFree at hb
    split at hb
    · rcases List.mem_cons.1 hb with rfl | hb
      · exact List.mem_cons_self ..
      · exact List.mem_cons_of_mem _ (q.setFree_subset rest _ b hb)
    · exact List.mem_cons_of_mem _ (q.setFree_subset rest _ b hb)

theorem releaseAll_loses (q : Backlog) (released : BlockSet) (stack : List BlockId) :
    Loses q (q.releaseAll released stack).1 (q.releaseAll released stack).2 := by
  unfold releaseAll
  split
  · exact .refl q
  · rename_i id rest hstack
    -- the list of the top of the stack goes, and with it the blocks on it that are free
    exact (loses_erase fun y hy => setFree_subset _ _ _ y hy).trans (releaseAll_loses _ _ _)
termination_by q.waiting.size
decreasing_by exact size_erase_lt_of_awaited ‹_›

/-- A released block stands first, before all that it sets free. -/
theorem release_loses (q : Backlog) (block : Block) : ∃ free,
    (q.release block).2 = block :: free ∧ Loses q (q.release block).1 free :=
  ⟨_, rfl, q.releaseAll_loses _ _⟩

theorem mem_of_awaited {q : Backlog} {id : BlockId} {stack rest : List BlockId}
    (h : q.awaited stack = id :: rest) : id ∈ stack ∧ rest ⊆ stack := by
  have hsub : (id :: rest).Sublist stack := h ▸ List.dropWhile_sublist _
  exact ⟨hsub.subset (List.mem_cons_self ..), fun n hn => hsub.subset (List.mem_cons_of_mem _ hn)⟩

/-- Whatever is released waited for a block of the stack, or for one that was released too. -/
theorem releaseAll_waited (q : Backlog) (released : BlockSet) (stack : List BlockId) :
    ∀ y ∈ (q.releaseAll released stack).2, ∃ k, q.Listed k y ∧
      (k ∈ stack ∨ k ∈ (q.releaseAll released stack).2.map (·.id)) := by
  intro y hy
  unfold releaseAll at hy ⊢
  split at hy
  · cases hy
  · rename_i id rest hstack
    obtain ⟨hid, hrest⟩ := mem_of_awaited hstack
    simp only [List.map_append, List.mem_append]
    rcases List.mem_append.1 hy with hfree | hlater
    · exact ⟨id, setFree_subset _ _ _ y hfree, .inl hid⟩
    · obtain ⟨k, hlisted, hk⟩ := releaseAll_waited _ _ _ y hlater
      refine ⟨k, (listed_erase.1 hlisted).2, ?_⟩
      rw [List.mem_append, List.mem_reverse] at hk
      rcases hk with (hfreed | hold) | hlater
      · exact .inr (.inl hfreed)
      · exact .inl (hrest hold)
      · exact .inr (.inr hlater)
termination_by q.waiting.size
decreasing_by exact size_erase_lt_of_awaited ‹_›

/-- Whatever a released block sets free waited for it, or for another block that is set free. -/
theorem release_waited (q : Backlog) (block : Block) : ∃ free,
    (q.release block).2 = block :: free ∧
      ∀ y ∈ free, ∃ k ∈ (q.release block).2.map (·.id), q.Listed k y := by
  refine ⟨_, rfl, fun y hy => ?_⟩
  obtain ⟨k, hlisted, hk⟩ := q.releaseAll_waited _ _ y hy
  refine ⟨k, ?_, hlisted⟩
  rcases hk with hk | hk
  · rw [List.mem_singleton.1 hk]
    exact List.mem_cons_self ..
  · exact List.mem_cons_of_mem _ hk

/-- A block and all that it sets free have the property, and so has what still waits. -/
theorem All.release (h : q.All P) {block : Block} (hb : P block) :
    (q.release block).1.All P ∧ ∀ b ∈ (q.release block).2, P b := by
  obtain ⟨free, hfree, hloses⟩ := q.release_loses block
  obtain ⟨hq, hall⟩ := hloses.all h
  rw [hfree, List.forall_mem_cons]
  exact ⟨hq, hb, hall⟩

/-- The blocks of a list that are set free are new, each of them once, and on record after that. -/
theorem setFree_nodup (q : Backlog) : ∀ (blocks : List Block) (released : BlockSet),
    ((q.setFree released blocks).1.map (·.id)).Nodup ∧
      (∀ n ∈ (q.setFree released blocks).1.map (·.id), n ∉ released) ∧
      ∀ n, n ∈ (q.setFree released blocks).2 ↔
        n ∈ (q.setFree released blocks).1.map (·.id) ∨ n ∈ released
  | [], _ =>
    ⟨List.nodup_nil, fun _ hn => (nomatch hn), fun _ => (or_iff_right List.not_mem_nil).symm⟩
  | block :: rest, released => by
    unfold setFree
    split
    · rename_i hfree
      obtain ⟨hnodup, hnew, hrecord⟩ := q.setFree_nodup rest (released.insert block.id)
      have hnot : block.id ∉ released := by
        intro hin
        rw [Std.ExtTreeSet.contains_iff_mem.2 hin, Bool.not_true, Bool.and_false] at hfree
        cases hfree
      simp only [List.map_cons, List.nodup_cons, List.forall_mem_cons]
      refine ⟨⟨fun hin => hnew _ hin (Lookup.mem_insert.2 (.inl rfl)), hnodup⟩,
        ⟨hnot, fun n hn hin => hnew n hn (Lookup.mem_insert.2 (.inr hin))⟩, fun n => ?_⟩
      rw [hrecord, Lookup.mem_insert, List.mem_cons, eq_comm, or_left_comm, or_assoc]
    · exact q.setFree_nodup rest released

theorem releaseAll_nodup (q : Backlog) (released : BlockSet) (stack : List BlockId) :
    ((q.releaseAll released stack).2.map (·.id)).Nodup ∧
      ∀ n ∈ (q.releaseAll released stack).2.map (·.id), n ∉ released := by
  unfold releaseAll
  split
  · exact ⟨List.nodup_nil, fun _ hn => absurd hn List.not_mem_nil⟩
  · rename_i id rest hstack
    obtain ⟨hnodup, hnew, hrecord⟩ :=
      (⟨q.waiting.erase id⟩ : Backlog).setFree_nodup (q.waiting[id]?.getD []) released
    obtain ⟨hlater, hlaterNew⟩ := releaseAll_nodup ⟨q.waiting.erase id⟩
      ((⟨q.waiting.erase id⟩ : Backlog).setFree released (q.waiting[id]?.getD [])).2
      ((((⟨q.waiting.erase id⟩ : Backlog).setFree released (q.waiting[id]?.getD [])).1.map
        (·.id)).reverse ++ rest)
    -- what is released later is not on the record, which holds what is released now
    simp only [List.map_append, List.forall_mem_append]
    refine ⟨List.nodup_append.2 ⟨hnodup, hlater, fun n hn m hm hnm => ?_⟩, hnew, fun n hn hin => ?_⟩
    · exact hlaterNew m hm ((hrecord m).2 (.inl (hnm ▸ hn)))
    · exact hlaterNew n hn ((hrecord n).2 (.inr hin))
termination_by q.waiting.size
decreasing_by exact size_erase_lt_of_awaited ‹_›

/-- No two of the released blocks share an identity. -/
theorem release_nodup (q : Backlog) (block : Block) :
    ((q.release block).2.map (·.id)).Nodup := by
  obtain ⟨hnodup, hnew⟩ := q.releaseAll_nodup ((∅ : BlockSet).insert block.id) [block.id]
  exact List.nodup_cons.2 ⟨fun hin => hnew _ hin (Lookup.mem_insert.2 (.inl rfl)), hnodup⟩

/-! ### Giving up -/

theorem listed_strikeUnder {id previous : BlockId} :
    (q.strikeUnder id previous).Listed k b ↔ q.Listed k b ∧ (k = previous → b.id ≠ id) := by
  unfold strikeUnder
  split
  · rename_i hnone
    refine (and_iff_left_of_imp fun hb => ?_).symm
    rintro rfl
    unfold Listed at hb
    rw [hnone] at hb
    cases hb
  · rename_i waiters hw
    -- the list that is struck from is dropped, or replaced by what is left of it
    have hlist : q.Listed previous b ↔ b ∈ waiters := by
      unfold Listed
      rw [hw]
      rfl
    have hleft : b ∈ waiters.filter (·.id ≠ id) ↔ b ∈ waiters ∧ b.id ≠ id := by
      rw [List.mem_filter, decide_eq_true_eq]
    dsimp only
    split
    · rename_i hempty
      rw [listed_erase, and_comm, and_congr_right_iff]
      intro hb
      refine ⟨fun hne hk => absurd hk.symm hne, fun hne hk => ?_⟩
      have := hleft.2 ⟨hlist.1 (hk ▸ hb), hne hk.symm⟩
      rw [List.isEmpty_iff.1 hempty] at this
      cases this
    · rw [listed_insert]
      by_cases hk : previous = k
      · subst hk
        rw [if_pos rfl, hleft, hlist, eq_self, true_imp_iff]
      · rw [if_neg hk, and_iff_left fun h => absurd h.symm hk]

/-- A struck block waits for nothing that it names. -/
theorem listed_strike {id : BlockId} : ∀ (previous : List BlockId) {q : Backlog},
    (q.strike id previous).Listed k b ↔ q.Listed k b ∧ (k ∈ previous → b.id ≠ id)
  | [], _ => (and_iff_left fun hk => nomatch hk).symm
  | p :: rest, q => by
    show ((q.strikeUnder id p).strike id rest).Listed k b ↔ _
    rw [listed_strike rest, listed_strikeUnder, and_assoc, List.mem_cons, or_imp]

theorem strike_loses (q : Backlog) (id : BlockId) (previous : List BlockId) :
    Loses q (q.strike id previous) [] :=
  ⟨fun _ _ hb => ((listed_strike previous).1 hb).1, fun _ hy => nomatch hy⟩

theorem dropUnseen_loses : ∀ (blocks : List Block) (q : Backlog) (seen : BlockSet),
    Loses q (q.dropUnseen seen blocks).1 [] ∧ (q.dropUnseen seen blocks).2.1 ⊆ blocks
  | [], q, _ => ⟨.refl q, List.Subset.refl _⟩
  | block :: rest, q, seen => by
    unfold dropUnseen
    split
    · obtain ⟨hloses, hsub⟩ := dropUnseen_loses rest q seen
      exact ⟨hloses, List.subset_cons_of_subset _ hsub⟩
    · obtain ⟨hloses, hsub⟩ := dropUnseen_loses rest (q.strike block.id block.previous)
        (seen.insert block.id)
      exact ⟨(strike_loses ..).trans hloses, List.cons_subset_cons _ hsub⟩

theorem discardAll_loses (q : Backlog) (seen : BlockSet) (stack : List BlockId) :
    Loses q (q.discardAll seen stack).1 (q.discardAll seen stack).2 := by
  unfold discardAll
  split
  · exact .refl q
  · rename_i id rest hstack
    obtain ⟨hloses, hsub⟩ := dropUnseen_loses (q.waiting[id]?.getD [])
      ⟨q.waiting.erase id⟩ seen
    have hfirst := (loses_erase fun y hy => hsub hy).trans hloses
    rw [List.append_nil] at hfirst
    exact hfirst.trans (discardAll_loses _ _ _)
termination_by q.waiting.size
decreasing_by
  exact Nat.lt_of_le_of_lt (size_dropUnseen_le ..) (size_erase_lt_of_awaited ‹_›)

/-- A discarded block is struck, and then all that waits behind it is taken out. -/
theorem discard_loses (q : Backlog) (block : Block) :
    Loses (q.strike block.id block.previous) (q.discard block).1 (q.discard block).2 :=
  discardAll_loses _ _ _

theorem All.discard (h : q.All P) (block : Block) : (q.discard block).1.All P :=
  ((q.discard_loses block).all ((q.strike_loses ..).all h).1).1

/-! ### Waiting blocks by name -/

/-- A map knows all waiting blocks by their names, and each waits for the parent that it names. -/
def HeldIn (m : BlockMap Block) (q : Backlog) : Prop :=
  ∀ k b, q.Listed k b → m[b.id]? = some b ∧ b.parent? = some k

variable {m : BlockMap Block}

theorem HeldIn.mono (h : q.HeldIn m) (hleft : ∀ k b, q'.Listed k b → q.Listed k b) :
    q'.HeldIn m := fun k b hb => h k b (hleft k b hb)

/-- What still waits is none of the blocks that were taken out: it would be the same block, and
nothing waits any more for the parent of that. -/
theorem HeldIn.apart (h : q.HeldIn m) (hs : Loses q q' out) (hb : q'.Listed k b) :
    b.id ∉ out.map (·.id) := by
  intro hin
  obtain ⟨y, hy, hid⟩ := List.mem_map.1 hin
  obtain ⟨k', hk', hnone⟩ := hs.taken y hy
  obtain ⟨hmb, hpb⟩ := h k b (hs.left k b hb)
  obtain ⟨hmy, hpy⟩ := h k' y hk'
  rw [hid, hmb, Option.some.injEq] at hmy
  rw [← hmy, hpb, Option.some.injEq] at hpy
  exact hnone b (hpy ▸ hb)

/-- The names of blocks that do not wait may be forgotten. -/
theorem HeldIn.erase (h : q.HeldIn m) {ids : List BlockId}
    (hids : ∀ k b, q.Listed k b → b.id ∉ ids) :
    q.HeldIn (ids.foldl (fun m id => m.erase id) m) := by
  intro k b hb
  rw [Lookup.get_eraseAll, if_neg (hids k b hb)]
  exact h k b hb

/-- A new block is entered in both. -/
theorem HeldIn.enlist (h : q.HeldIn m) {block : Block} {parent : BlockId}
    (hnew : m[block.id]? = none) (hparent : block.parent? = some parent) :
    (q.enlist block [parent]).HeldIn (m.insert block.id block) := by
  intro k b hb
  rw [Lookup.get_insert]
  rcases listed_enlist [parent] hb with hb | ⟨hk, rfl⟩
  · obtain ⟨hmb, hpb⟩ := h k b hb
    have hne : block.id ≠ b.id := fun heq => by
      rw [← heq, hnew] at hmb
      cases hmb
    rw [if_neg hne]
    exact ⟨hmb, hpb⟩
  · rw [if_pos rfl, List.mem_singleton.1 hk]
    exact ⟨rfl, hparent⟩

end Backlog

end ShardLedger
