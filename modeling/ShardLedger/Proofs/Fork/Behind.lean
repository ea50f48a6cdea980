import ShardLedger.Proofs.Fork.Waiting

/-!
# What waits behind a block

A block may wait for one that waits itself. Releasing a block, or giving it up, follows these waits
to their end: all that is behind the block goes, list by list, and nothing stays listed under a
block that went.

- `Backlog.Behind`: a block waits for another one, directly or through others.
- `Backlog.Swept`: what following a stack to its end leaves of a backlog, and
  `Backlog.Swept.mem_iff`: exactly what is behind the stack has gone.
- `Backlog.release_swept`, `Backlog.discard_swept`.
- `Backlog.Lined`: no list is empty or names a block twice.
-/

namespace ShardLedger

namespace Backlog

variable {q q' q'' : Backlog} {m : BlockMap Block} {out later : List Block}
  {stack rest : List BlockId} {k id : BlockId} {b block x : Block}

/-- Block `x` waits for `id`, or for a block that does so in turn. -/
inductive Behind (q : Backlog) (id : BlockId) : Block → Prop where
  | direct {x : Block} (h : q.Listed id x) : Behind q id x
  | through {x y : Block} (h : Behind q id y) (hx : q.Listed y.id x) : Behind q id x

theorem Behind.mono (h : q.Behind id x) (hsub : ∀ k b, q.Listed k b → q'.Listed k b) :
    q'.Behind id x := by
  induction h with
  | direct h => exact .direct (hsub _ _ h)
  | through _ hx ih => exact ih.through (hsub _ _ hx)

/-- One more wait in front. -/
theorem Behind.after (h : q.Behind b.id x) (hb : q.Listed id b) : q.Behind id x := by
  induction h with
  | direct h => exact (Behind.direct hb).through h
  | through _ hx ih => exact ih.through hx

/-- All that is behind a block is listed somewhere. -/
theorem Behind.listed (h : q.Behind id x) : ∃ k, q.Listed k x := by
  cases h with
  | direct h => exact ⟨_, h⟩
  | through _ hx => exact ⟨_, hx⟩

theorem not_listed_of_none (h : q.waiting[k]? = none) : ¬q.Listed k b := by
  unfold Listed
  rw [h]
  exact List.not_mem_nil

/-! ### Following a stack to its end -/

/-- What is left of a backlog once everything behind the blocks of a stack was taken out. -/
structure Swept (q : Backlog) (stack : List BlockId) (q' : Backlog) (out : List Block) : Prop where
  /-- Lists go as a whole. -/
  kept : ∀ k : BlockId, q'.waiting[k]? = none ∨ q'.waiting[k]? = q.waiting[k]?
  /-- Nothing stays behind the stack, nor behind what was taken out. -/
  gone : ∀ k : BlockId, k ∈ stack ∨ k ∈ out.map (·.id) → q'.waiting[k]? = none
  taken : ∀ k b, q.Listed k b → ¬q'.Listed k b → b.id ∈ out.map (·.id)
  behind : ∀ y ∈ out, ∃ k ∈ stack, q.Behind k y

/-- What goes is what was behind the stack. -/
theorem Swept.mem_iff (h : Swept q stack q' out) {n : BlockId} :
    n ∈ out.map (·.id) ↔ ∃ k ∈ stack, ∃ x, q.Behind k x ∧ x.id = n := by
  constructor
  · intro hn
    obtain ⟨y, hy, rfl⟩ := List.mem_map.1 hn
    obtain ⟨k, hk, hbehind⟩ := h.behind y hy
    exact ⟨k, hk, y, hbehind, rfl⟩
  · rintro ⟨k, hk, x, hx, rfl⟩
    induction hx with
    | direct hx => exact h.taken _ _ hx (not_listed_of_none (h.gone _ (.inl hk)))
    | through _ hx ih => exact h.taken _ _ hx (not_listed_of_none (h.gone _ (.inr ih)))

theorem Swept.mem_singleton_iff (h : Swept q [id] q' out) {n : BlockId} :
    n ∈ out.map (·.id) ↔ ∃ x, q.Behind id x ∧ x.id = n := by
  rw [h.mem_iff]
  exact ⟨fun ⟨k, hk, hx⟩ => List.mem_singleton.1 hk ▸ hx,
    fun hx => ⟨_, List.mem_singleton_self _, hx⟩⟩

/-- Where lists go as a whole, what is left was there before. -/
theorem listed_of_kept (hkept : q'.waiting[k]? = none ∨ q'.waiting[k]? = q.waiting[k]?)
    (hb : q'.Listed k b) : q.Listed k b := by
  unfold Listed at hb ⊢
  rcases hkept with hnone | hsame
  · rw [hnone] at hb
    cases hb
  · rwa [hsame] at hb

theorem Swept.left (h : Swept q stack q' out) (hb : q'.Listed k b) : q.Listed k b :=
  listed_of_kept (h.kept k) hb

/-- What was not taken out is left. -/
theorem Swept.stays (h : Swept q stack q' out) (hb : q.Listed k b) (hout : b.id ∉ out.map (·.id)) :
    q'.Listed k b :=
  Classical.byContradiction fun hnot => hout (h.taken k b hb hnot)

/-- The blocks of a stack above the first one that something waits for are waited for by nothing. -/
theorem none_or_mem_awaited (hk : k ∈ stack) : q.waiting[k]? = none ∨ k ∈ q.awaited stack := by
  rw [← List.takeWhile_append_dropWhile (p := fun id => !q.isMissing id) (l := stack)] at hk
  rcases List.mem_append.1 hk with htake | hdrop
  · have hnot := List.all_eq_true.1 List.all_takeWhile k htake
    rw [Bool.not_eq_true', isMissing, Lookup.contains_eq_false] at hnot
    exact .inl hnot
  · exact .inr hdrop

/-- Where nothing is awaited, nothing waits for the blocks of the stack. -/
theorem none_of_awaited_nil (h : q.awaited stack = []) (hk : k ∈ stack) :
    q.waiting[k]? = none := by
  rcases none_or_mem_awaited (q := q) hk with hnone | hin
  · exact hnone
  · rw [h] at hin
    cases hin

/-- Once the list of the first block of the stack that something waits for has gone, and the lists
of the rest and of what goes on the stack, all that the stack asks for has gone. -/
theorem none_of_awaited_cons (hstack : q.awaited stack = id :: rest)
    (hkept : ∀ k : BlockId, q'.waiting[k]? = none ∨ q'.waiting[k]? = (q.waiting.erase id)[k]?)
    (hgone : ∀ k : BlockId, k ∈ (out.map (·.id)).reverse ++ rest ∨ k ∈ later.map (·.id) →
      q'.waiting[k]? = none)
    (hk : k ∈ stack ∨ k ∈ (out ++ later).map (·.id)) : q'.waiting[k]? = none := by
  rw [List.map_append, List.mem_append] at hk
  rcases hk with hk | hk | hk
  · rcases hkept k with hnone | hsame
    · exact hnone
    · rw [Lookup.get_erase] at hsame
      split at hsame
      · exact hsame
      · rename_i hne
        rcases none_or_mem_awaited (q := q) hk with hnone | hin
        · exact hsame.trans hnone
        · rw [hstack] at hin
          have hin := (List.mem_cons.1 hin).resolve_left fun heq => hne heq.symm
          exact hgone k (.inl (List.mem_append_right _ hin))
  · exact hgone k (.inl (List.mem_append_left _ (List.mem_reverse.2 hk)))
  · exact hgone k (.inr hk)

theorem swept_refl (h : q.awaited stack = []) : Swept q stack q [] where
  kept _ := .inr rfl
  gone _ hk := none_of_awaited_nil h (hk.resolve_right List.not_mem_nil)
  taken _ _ hb hnot := absurd hb hnot
  behind _ hy := nomatch hy

/-- The list of the first block of the stack that something waits for is taken out, and the blocks
on it go on the stack. -/
theorem Swept.step (hstack : q.awaited stack = id :: rest)
    (hsub : ∀ b ∈ out, q.Listed id b) (hall : ∀ b, q.Listed id b → b.id ∈ out.map (·.id))
    (h : Swept ⟨q.waiting.erase id⟩ ((out.map (·.id)).reverse ++ rest) q' later) :
    Swept q stack q' (out ++ later) := by
  obtain ⟨hid, hrest⟩ := mem_of_awaited hstack
  refine ⟨fun k => ?_, fun _ => none_of_awaited_cons hstack h.kept h.gone,
    fun k b hb hnot => ?_, fun y hy => ?_⟩
  · rcases h.kept k with hnone | hsame
    · exact .inl hnone
    · rw [Lookup.get_erase] at hsame
      split at hsame
      · exact .inl hsame
      · exact .inr hsame
  · rw [List.map_append, List.mem_append]
    by_cases hk : id = k
    · exact .inl (hall b (hk ▸ hb))
    · exact .inr (h.taken k b (listed_erase.2 ⟨hk, hb⟩) hnot)
  · rcases List.mem_append.1 hy with hy | hy
    · exact ⟨id, hid, .direct (hsub y hy)⟩
    · obtain ⟨k, hk, hbehind⟩ := h.behind y hy
      have hbehind := hbehind.mono fun k b hb => (listed_erase.1 hb).2
      rcases List.mem_append.1 hk with hk | hk
      · obtain ⟨z, hz, rfl⟩ := List.mem_map.1 (List.mem_reverse.1 hk)
        exact ⟨id, hid, hbehind.after (hsub z hz)⟩
      · exact ⟨k, hrest hk, hbehind⟩

/-! ### Release -/

/-- What is satisfied and not released yet is set free. -/
theorem setFree_covers (q : Backlog) : ∀ (blocks : List Block) (released : BlockSet),
    ∀ b ∈ blocks, q.satisfied b = true →
      b.id ∈ (q.setFree released blocks).1.map (·.id) ∨ b.id ∈ released
  | [], _, _, hb, _ => nomatch hb
  | block :: rest, released, b, hb, hsat => by
    unfold setFree
    split
    · rw [List.map_cons, List.mem_cons]
      rcases List.mem_cons.1 hb with rfl | hb
      · exact .inl (.inl rfl)
      · rcases q.setFree_covers rest (released.insert block.id) b hb hsat with hin | hin
        · exact .inl (.inr hin)
        · exact (Lookup.mem_insert.1 hin).imp (fun heq => .inl heq.symm) fun hin => hin
    · rename_i hnot
      rcases List.mem_cons.1 hb with rfl | hb
      · rw [hsat, Bool.true_and, Bool.not_eq_true', Bool.not_eq_false] at hnot
        exact .inr (Std.ExtTreeSet.contains_iff_mem.1 hnot)
      · exact q.setFree_covers rest released b hb hsat

/-- A block that waits for its parent only is satisfied once nothing is listed there. -/
theorem HeldIn.satisfied (h : q.HeldIn m) (hb : q.Listed id b) :
    satisfied ⟨q.waiting.erase id⟩ b = true := by
  have hgone : (q.waiting.erase id)[id]? = none := by rw [Lookup.get_erase, if_pos rfl]
  rw [Backlog.satisfied, Block.previous_eq (h id b hb).2, List.all_cons, List.all_nil,
    Bool.and_true, isMissing, Lookup.contains_eq_false.2 hgone]
  rfl

/-- Blocks that are listed elsewhere are none of those that were on a list. -/
theorem HeldIn.fresh_erase (h : q.HeldIn m) {record record' : BlockSet}
    (hsub : ∀ b ∈ out, q.Listed id b) (hfresh : ∀ k b, q.Listed k b → b.id ∉ record)
    (hrecord : ∀ n, n ∈ record' ↔ n ∈ out.map (·.id) ∨ n ∈ record) :
    ∀ k b, Listed ⟨q.waiting.erase id⟩ k b → b.id ∉ record' := by
  intro k b hb hin
  rcases (hrecord b.id).1 hin with hin | hin
  · exact h.apart (loses_erase hsub) hb hin
  · exact hfresh k b (listed_erase.1 hb).2 hin

theorem releaseAll_swept (q : Backlog) (h : q.HeldIn m) {released : BlockSet}
    (hfresh : ∀ k b, q.Listed k b → b.id ∉ released) (stack : List BlockId) :
    Swept q stack (q.releaseAll released stack).1 (q.releaseAll released stack).2 := by
  unfold releaseAll
  split
  · exact swept_refl ‹_›
  · rename_i id rest hstack
    have hsub : ∀ b ∈ ((⟨q.waiting.erase id⟩ : Backlog).setFree released
        (q.waiting[id]?.getD [])).1, q.Listed id b := setFree_subset _ _ _
    refine .step hstack hsub (fun b hb => ?_) (releaseAll_swept _
      (h.mono fun k b hb => (listed_erase.1 hb).2)
      (h.fresh_erase hsub hfresh (setFree_nodup _ _ _).2.2) _)
    exact (setFree_covers _ _ released b hb (h.satisfied hb)).resolve_right (hfresh id b hb)
termination_by q.waiting.size
decreasing_by exact size_erase_lt_of_awaited ‹_›

/-- A block that nothing is named after starts the record of what was released. -/
theorem fresh_insert (hnew : ∀ k b, q.Listed k b → b.id ≠ block.id) (k : BlockId) (b : Block)
    (hb : q.Listed k b) : b.id ∉ (∅ : BlockSet).insert block.id := by
  intro hin
  rcases Lookup.mem_insert.1 hin with heq | hin
  · exact hnew k b hb heq.symm
  · exact Std.ExtTreeSet.not_mem_empty hin

/-- A released block takes everything behind it along. -/
theorem release_swept (h : q.HeldIn m) (hnew : ∀ k b, q.Listed k b → b.id ≠ block.id) :
    ∃ free, (q.release block).2 = block :: free ∧
      Swept q [block.id] (q.release block).1 free :=
  ⟨_, rfl, releaseAll_swept q h (fresh_insert hnew) _⟩

/-! ### Giving up -/

theorem strikeUnder_of_none {previous : BlockId} (h : q.waiting[previous]? = none) :
    q.strikeUnder id previous = q := by
  unfold strikeUnder
  rw [h]

/-- Of blocks that wait for one parent, whose list is gone, all that are unseen are dropped, and
nothing else changes. -/
theorem dropUnseen_spec (hid : q.waiting[id]? = none) : ∀ (blocks : List Block) (seen : BlockSet),
    (∀ b ∈ blocks, b.previous = [id]) →
      (q.dropUnseen seen blocks).1 = q ∧
        (∀ b ∈ blocks, b.id ∈ (q.dropUnseen seen blocks).2.1.map (·.id) ∨ b.id ∈ seen) ∧
        ∀ n, n ∈ (q.dropUnseen seen blocks).2.2 ↔
          n ∈ (q.dropUnseen seen blocks).2.1.map (·.id) ∨ n ∈ seen
  | [], _, _ =>
    ⟨rfl, fun _ hb => (nomatch hb), fun _ => (or_iff_right List.not_mem_nil).symm⟩
  | block :: rest, seen, hprev => by
    obtain ⟨hfirst, hrest⟩ := List.forall_mem_cons.1 hprev
    unfold dropUnseen
    split
    · rename_i hseen
      obtain ⟨hsame, hall, hrecord⟩ := dropUnseen_spec hid rest seen hrest
      refine ⟨hsame, fun b hb => ?_, hrecord⟩
      rcases List.mem_cons.1 hb with rfl | hb
      · exact .inr (Std.ExtTreeSet.contains_iff_mem.1 hseen)
      · exact hall b hb
    · have hstrike : q.strike block.id block.previous = q := by
        rw [hfirst]
        exact strikeUnder_of_none hid
      obtain ⟨hsame, hall, hrecord⟩ := dropUnseen_spec hid rest (seen.insert block.id) hrest
      rw [hstrike]
      dsimp only
      refine ⟨hsame, fun b hb => ?_, fun n => ?_⟩
      · rw [List.map_cons, List.mem_cons]
        rcases List.mem_cons.1 hb with rfl | hb
        · exact .inl (.inl rfl)
        · rcases hall b hb with hin | hin
          · exact .inl (.inr hin)
          · exact (Lookup.mem_insert.1 hin).imp (fun heq => .inl heq.symm) fun hin => hin
      · rw [hrecord, Lookup.mem_insert, List.map_cons, List.mem_cons, eq_comm, or_left_comm,
          or_assoc]

theorem discardAll_swept (q : Backlog) (h : q.HeldIn m) {seen : BlockSet}
    (hfresh : ∀ k b, q.Listed k b → b.id ∉ seen) (stack : List BlockId) :
    Swept q stack (q.discardAll seen stack).1 (q.discardAll seen stack).2 := by
  unfold discardAll
  split
  · exact swept_refl ‹_›
  · rename_i id rest hstack
    have hsub : ∀ b ∈ ((⟨q.waiting.erase id⟩ : Backlog).dropUnseen seen
        (q.waiting[id]?.getD [])).2.1, q.Listed id b := (dropUnseen_loses _ _ _).2
    have hgone : (q.waiting.erase id)[id]? = none := by rw [Lookup.get_erase, if_pos rfl]
    obtain ⟨hsame, hall, hrecord⟩ := dropUnseen_spec (q := ⟨q.waiting.erase id⟩) hgone
      (q.waiting[id]?.getD []) seen fun b hb => Block.previous_eq (h id b hb).2
    refine .step hstack hsub (fun b hb => (hall b hb).resolve_right (hfresh id b hb)) ?_
    -- striking the dropped blocks from their list, which is gone, changes nothing
    have hlater := discardAll_swept _ (hsame ▸ h.mono fun k b hb => (listed_erase.1 hb).2)
      (hsame ▸ h.fresh_erase hsub hfresh hrecord)
      (((((⟨q.waiting.erase id⟩ : Backlog).dropUnseen seen
        (q.waiting[id]?.getD [])).2.1.map (·.id)).reverse) ++ rest)
    simpa only [hsame] using hlater
termination_by q.waiting.size
decreasing_by
  exact Nat.lt_of_le_of_lt (size_dropUnseen_le ..) (size_erase_lt_of_awaited ‹_›)

/-- Giving up a block takes out everything behind it, once it is struck itself. -/
theorem discard_swept (h : q.HeldIn m)
    (hnew : ∀ k b, (q.strike block.id block.previous).Listed k b → b.id ≠ block.id) :
    Swept (q.strike block.id block.previous) [block.id] (q.discard block).1 (q.discard block).2 :=
  discardAll_swept _ (h.mono (strike_loses ..).left) (fresh_insert hnew) _

/-! ### The lists -/

/-- No list is empty, and none names a block twice. -/
def Lined (q : Backlog) : Prop :=
  ∀ (k : BlockId) (waiters : List Block), q.waiting[k]? = some waiters →
    waiters ≠ [] ∧ (waiters.map (·.id)).Nodup

theorem lined_empty : empty.Lined := by
  intro k waiters hw
  have hnone : empty.waiting[k]? = none := Std.ExtTreeMap.getElem?_empty
  rw [hnone] at hw
  cases hw

theorem Lined.swept (h : q.Lined) (hs : Swept q stack q' out) : q'.Lined := by
  intro k waiters hw
  rcases hs.kept k with hnone | hsame
  · rw [hnone] at hw
    cases hw
  · exact h k waiters (hsame ▸ hw)

theorem Lined.erase (h : q.Lined) (id : BlockId) : Lined ⟨q.waiting.erase id⟩ := by
  intro k waiters hw
  rw [Lookup.get_erase] at hw
  split at hw
  · cases hw
  · exact h k waiters hw

theorem Lined.strikeUnder (h : q.Lined) (id previous : BlockId) :
    (q.strikeUnder id previous).Lined := by
  unfold Backlog.strikeUnder
  split
  · exact h
  · rename_i old hold
    dsimp only
    split
    · exact h.erase previous
    · rename_i hne
      intro k waiters hw
      rw [Lookup.get_insert] at hw
      split at hw
      · cases hw
        exact ⟨fun hnil => hne (List.isEmpty_iff.2 hnil),
          (h previous old hold).2.sublist (List.filter_sublist.map _)⟩
      · exact h k waiters hw

theorem Lined.strike (id : BlockId) : ∀ (previous : List BlockId) {q : Backlog}, q.Lined →
    (q.strike id previous).Lined
  | [], _, h => h
  | p :: rest, _, h => Lined.strike id rest (h.strikeUnder id p)

/-- A block that is not on the list yet is added at its end. -/
theorem enlistUnder_eq (hnew : ∀ b, q.Listed k b → b.id ≠ block.id) :
    q.enlistUnder block k = ⟨q.waiting.insert k (q.waiting[k]?.getD [] ++ [block])⟩ := by
  refine if_neg fun hany => ?_
  obtain ⟨b, hb, heq⟩ := List.any_eq_true.1 hany
  exact hnew b hb (of_decide_eq_true heq)

/-- A block that is on the list already stays there. -/
theorem enlistUnder_of_listed {w : Block} (hw : q.Listed k w) (hid : w.id = block.id) :
    q.enlistUnder block k = q :=
  if_pos (List.any_eq_true.2 ⟨w, hw, decide_eq_true hid⟩)

theorem listed_enlistUnder_iff (hname : ∀ b, q.Listed id b → b.id = block.id → b = block) :
    (q.enlistUnder block id).Listed k b ↔ q.Listed k b ∨ (k = id ∧ b = block) := by
  refine ⟨listed_enlistUnder, fun hb => ?_⟩
  by_cases hthere : ∃ w, q.Listed id w ∧ w.id = block.id
  · obtain ⟨w, hw, hwid⟩ := hthere
    rw [enlistUnder_of_listed hw hwid]
    refine hb.elim (fun hb => hb) fun ⟨hk, hb⟩ => ?_
    rw [hk, hb, ← hname w hw hwid]
    exact hw
  · rw [enlistUnder_eq fun w hw hwid => hthere ⟨w, hw, hwid⟩, listed_insert]
    rcases hb with hb | ⟨rfl, rfl⟩
    · split
      · rename_i hk
        subst hk
        exact List.mem_append_left _ hb
      · exact hb
    · rw [if_pos rfl]
      exact List.mem_append_right _ (List.mem_singleton_self b)

theorem listed_enlist_iff {parent : BlockId} (hnew : ∀ b, q.Listed parent b → b.id ≠ block.id) :
    (q.enlist block [parent]).Listed k b ↔ q.Listed k b ∨ (k = parent ∧ b = block) :=
  listed_enlistUnder_iff fun b hb hid => absurd hid (hnew b hb)

theorem Lined.enlistUnder (h : q.Lined) (block : Block) (missing : BlockId) :
    (q.enlistUnder block missing).Lined := by
  by_cases hthere : ∃ w, q.Listed missing w ∧ w.id = block.id
  · obtain ⟨w, hw, hwid⟩ := hthere
    rw [enlistUnder_of_listed hw hwid]
    exact h
  · have hnew : ∀ b, q.Listed missing b → b.id ≠ block.id := fun b hb hid => hthere ⟨b, hb, hid⟩
    rw [enlistUnder_eq hnew]
    intro k waiters hw
    rw [Lookup.get_insert] at hw
    split at hw
    · cases hw
      refine ⟨List.append_ne_nil_of_right_ne_nil _ (List.cons_ne_nil _ _), ?_⟩
      have hold : ((q.waiting[missing]?.getD []).map (·.id)).Nodup := by
        cases hw : q.waiting[missing]? with
        | none => exact List.nodup_nil
        | some waiters => exact (h missing waiters hw).2
      rw [List.map_append, List.map_singleton]
      refine List.nodup_append.2
        ⟨hold, List.nodup_cons.2 ⟨List.not_mem_nil, List.nodup_nil⟩, fun n hn n' hn' heq => ?_⟩
      obtain ⟨b, hb, rfl⟩ := List.mem_map.1 hn
      exact hnew b hb (heq.trans (List.mem_singleton.1 hn'))
    · exact h k waiters hw

theorem Lined.enlist (block : Block) : ∀ (missing : List BlockId) {q : Backlog}, q.Lined →
    (q.enlist block missing).Lined
  | [], _, h => h
  | id :: rest, _, h => Lined.enlist block rest (h.enlistUnder block id)

end Backlog

end ShardLedger
