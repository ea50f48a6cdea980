import Mathlib.Data.List.Induction
import Mathlib.Data.List.Nodup
import ShardLedger.Proofs.Fork.Behind

/-!
# Giving a block up

A block may stand on several lists, and blocks may wait for each other in a circle. Giving a block
up follows the waits behind it. Every block on the way is struck from all lists that it stands on,
those included that the walk has yet to reach, and no other block is.

- `Backlog.Action`, `Backlog.afterAll`: what may happen to a backlog.
- `Backlog.Tidy`: what holds of the waiting blocks throughout.
- `Backlog.Shorn`: some blocks are struck from all lists.
- `Backlog.Felled`: what following a stack takes out, step by step.
- `Backlog.discard_exact`: the blocks behind a block go with it, and all others keep their places.
-/

namespace ShardLedger

namespace Backlog

variable {q q' q'' : Backlog} {blocks gone later out waiters : List Block}
  {stack rest : List BlockId} {seen : BlockSet} {k id : BlockId} {b x y : Block}

/-! ### What happens to a backlog -/

/-- Something that happens to a backlog. -/
inductive Action where
  | submit (block : Block) (missing : List BlockId)
  | order (ready : Block)
  | discard (block : Block)
deriving DecidableEq

/-- The backlog after an action. -/
def act (q : Backlog) : Action → Backlog
  | .submit block missing => q.enlist block missing
  | .order ready => (q.release ready).1
  | .discard block => (q.discard block).1

/-- The backlog after some actions, beginning with nothing that waits. -/
def afterAll (actions : List Action) : Backlog := actions.foldl act empty

/-- The blocks that wait. -/
def waitingBlocks (q : Backlog) : List Block := q.waiting.values.flatten

theorem mem_waitingBlocks : y ∈ q.waitingBlocks ↔ ∃ k, q.Listed k y := by
  unfold waitingBlocks Listed
  rw [List.mem_flatten]
  constructor
  · rintro ⟨waiters, hwaiters, hy⟩
    obtain ⟨k, hk⟩ := Lookup.mem_values.1 hwaiters
    exact ⟨k, by rwa [hk]⟩
  · rintro ⟨k, hy⟩
    cases hk : q.waiting[k]? with
    | none =>
      rw [hk] at hy
      cases hy
    | some waiters =>
      rw [hk] at hy
      exact ⟨waiters, Lookup.mem_values.2 ⟨k, hk⟩, hy⟩

/-- Every waiting block is one of some blocks, and waits for blocks that it names only. -/
structure Tidy (blocks : List Block) (q : Backlog) : Prop where
  known : ∀ {k y}, q.Listed k y → y ∈ blocks
  named : ∀ {k y}, q.Listed k y → k ∈ y.previous
  lined : q.Lined

theorem Tidy.left (h : Tidy blocks q) (hleft : ∀ k y, q'.Listed k y → q.Listed k y)
    (hlined : q'.Lined) : Tidy blocks q' where
  known hy := h.known (hleft _ _ hy)
  named hy := h.named (hleft _ _ hy)
  lined := hlined

theorem Tidy.erase (h : Tidy blocks q) (id : BlockId) : Tidy blocks ⟨q.waiting.erase id⟩ :=
  h.left (fun _ _ hy => (listed_erase.1 hy).2) (h.lined.erase id)

theorem Lined.releaseAll {q : Backlog} (h : q.Lined) (released : BlockSet)
    (stack : List BlockId) : (q.releaseAll released stack).1.Lined := by
  unfold Backlog.releaseAll
  split
  · exact h
  · exact Lined.releaseAll (h.erase _) _ _
termination_by q.waiting.size
decreasing_by exact size_erase_lt_of_awaited ‹_›

theorem Lined.dropUnseen : ∀ (waiters : List Block) {q : Backlog} (seen : BlockSet), q.Lined →
    (q.dropUnseen seen waiters).1.Lined
  | [], _, _, h => h
  | block :: rest, q, seen, h => by
    unfold Backlog.dropUnseen
    split
    · exact Lined.dropUnseen rest seen h
    · exact Lined.dropUnseen rest _ (h.strike _ _)

theorem Lined.discardAll {q : Backlog} (h : q.Lined) (seen : BlockSet) (stack : List BlockId) :
    (q.discardAll seen stack).1.Lined := by
  unfold Backlog.discardAll
  split
  · exact h
  · exact Lined.discardAll (Lined.dropUnseen _ seen (h.erase _)) _ _
termination_by q.waiting.size
decreasing_by
  exact Nat.lt_of_le_of_lt (size_dropUnseen_le ..) (size_erase_lt_of_awaited ‹_›)

theorem Lined.act (h : q.Lined) (a : Action) : (q.act a).Lined := by
  cases a with
  | submit block missing => exact Lined.enlist block missing h
  | order ready => exact h.releaseAll _ _
  | discard block => exact (h.strike _ _).discardAll _ _

theorem lined_afterAll (actions : List Action) : (afterAll actions).Lined := by
  induction actions using List.reverseRecOn with
  | nil => exact lined_empty
  | append_singleton before a ih =>
    unfold afterAll
    rw [List.foldl_append]
    exact ih.act a

/-- What waits after an action waited before, or was submitted. -/
theorem listed_act {a : Action} (hy : (q.act a).Listed k y) :
    q.Listed k y ∨ ∃ missing, a = .submit y missing ∧ k ∈ missing := by
  cases a with
  | submit block missing =>
    rcases listed_enlist missing hy with hy | ⟨hk, rfl⟩
    · exact .inl hy
    · exact .inr ⟨missing, rfl, hk⟩
  | order ready => exact .inl ((q.releaseAll_loses _ _).left _ _ hy)
  | discard block =>
    exact .inl (((q.strike_loses _ _).trans (q.discard_loses block)).left _ _ hy)

/-- Whatever waits was submitted to wait where it does. -/
theorem listed_afterAll {actions : List Action} (hy : (afterAll actions).Listed k y) :
    ∃ missing, .submit y missing ∈ actions ∧ k ∈ missing := by
  induction actions using List.reverseRecOn with
  | nil => exact absurd hy not_listed_empty
  | append_singleton before a ih =>
    unfold afterAll at hy
    rw [List.foldl_append] at hy
    rcases listed_act hy with hy | ⟨missing, rfl, hk⟩
    · obtain ⟨missing, hmem, hk⟩ := ih hy
      exact ⟨missing, List.mem_append_left _ hmem, hk⟩
    · exact ⟨missing, List.mem_append_right _ (List.mem_singleton_self _), hk⟩

/-! ### Striking blocks from all lists -/

/-- Some blocks are struck from every list. Otherwise the lists stay as they are, except that an
empty one is dropped. -/
structure Shorn (q : Backlog) (gone : List Block) (q' : Backlog) : Prop where
  kept : ∀ k : BlockId, q'.waiting[k]?.getD [] = (q.waiting[k]?.getD []).filter (· ∉ gone)
  filled : ∀ k : BlockId, q'.waiting[k]? ≠ some []

theorem Shorn.listed_iff (h : Shorn q gone q') : q'.Listed k y ↔ q.Listed k y ∧ y ∉ gone := by
  unfold Listed
  rw [h.kept, List.mem_filter, decide_eq_true_iff]

theorem Shorn.trans (h : Shorn q gone q') (h' : Shorn q' later q'') :
    Shorn q (gone ++ later) q'' := by
  refine ⟨fun k => ?_, h'.filled⟩
  rw [h'.kept, h.kept, List.filter_filter]
  refine List.filter_congr fun y _ => ?_
  rw [← Bool.decide_and, decide_eq_decide, List.mem_append, not_or, and_comm]

theorem Lined.filled (h : q.Lined) : q.waiting[k]? ≠ some [] := fun hk => (h k [] hk).1 rfl

theorem shorn_refl (h : q.Lined) : Shorn q [] q := by
  refine ⟨fun k => ?_, fun k => h.filled⟩
  rw [List.filter_eq_self.2 fun y _ => decide_eq_true List.not_mem_nil]

theorem Lined.shorn (h : q.Lined) (hs : Shorn q gone q') : q'.Lined := by
  intro k waiters hw
  refine ⟨fun hnil => hs.filled k (hnil ▸ hw), ?_⟩
  have hkept := hs.kept k
  rw [hw, Option.getD_some] at hkept
  cases hold : q.waiting[k]? with
  | none =>
    rw [hold] at hkept
    rw [hkept]
    exact List.nodup_nil
  | some old =>
    rw [hold, Option.getD_some] at hkept
    rw [hkept]
    exact (h k old hold).2.sublist (List.filter_sublist.map _)

theorem Tidy.shorn (h : Tidy blocks q) (hs : Shorn q gone q') : Tidy blocks q' :=
  h.left (fun _ _ hy => (hs.listed_iff.1 hy).1) (h.lined.shorn hs)

/-- A list that goes as a whole is struck from all others. -/
theorem Shorn.of_erase (h : Shorn ⟨q.waiting.erase id⟩ (q.waiting[id]?.getD []) q') :
    Shorn q (q.waiting[id]?.getD []) q' := by
  refine ⟨fun k => ?_, h.filled⟩
  rw [h.kept, Lookup.get_erase]
  by_cases hk : id = k
  · subst hk
    rw [if_pos rfl]
    refine (List.filter_eq_nil_iff.2 fun y hy => ?_).symm
    rw [decide_eq_true_iff, not_not]
    exact hy
  · rw [if_neg hk]

theorem getD_strikeUnder (q : Backlog) (id p k : BlockId) :
    (q.strikeUnder id p).waiting[k]?.getD [] =
      if k = p then (q.waiting[k]?.getD []).filter (·.id ≠ id) else q.waiting[k]?.getD [] := by
  unfold strikeUnder
  split
  · rename_i hnone
    split
    · rename_i hk
      rw [hk, hnone]
      rfl
    · rfl
  · rename_i waiters hw
    dsimp only
    by_cases hk : k = p
    · subst hk
      rw [if_pos rfl, hw]
      split
      · rename_i hempty
        rw [Lookup.get_erase, if_pos rfl]
        exact (List.isEmpty_iff.1 hempty).symm
      · rw [Lookup.get_insert, if_pos rfl]
        rfl
    · rw [if_neg hk]
      split
      · rw [Lookup.get_erase, if_neg (Ne.symm hk)]
      · rw [Lookup.get_insert, if_neg (Ne.symm hk)]

theorem getD_strike (id k : BlockId) : ∀ (previous : List BlockId) (q : Backlog),
    (q.strike id previous).waiting[k]?.getD [] =
      if k ∈ previous then (q.waiting[k]?.getD []).filter (·.id ≠ id) else q.waiting[k]?.getD []
  | [], _ => (if_neg List.not_mem_nil).symm
  | p :: rest, q => by
    show ((q.strikeUnder id p).strike id rest).waiting[k]?.getD [] = _
    rw [getD_strike id k rest, getD_strikeUnder]
    by_cases hk : k = p
    · -- a second time changes nothing
      rw [if_pos hk, if_pos (List.mem_cons.2 (.inl hk)), List.filter_filter]
      simp only [Bool.and_self, ite_self]
    · rw [if_neg hk]
      simp only [List.mem_cons, hk, false_or]

/-- A waiting block stands only on lists of blocks that it names, so it is struck from all. -/
theorem Tidy.strike (h : Tidy blocks q) (hcoherent : Coherent blocks) (hy : y ∈ blocks) :
    Shorn q [y] (q.strike y.id y.previous) := by
  refine ⟨fun k => ?_, fun k => (h.lined.strike _ _).filled⟩
  rw [getD_strike]
  by_cases hk : k ∈ y.previous
  · rw [if_pos hk]
    refine List.filter_congr fun x hx => ?_
    rw [decide_eq_decide, List.mem_singleton, not_iff_not]
    exact ⟨hcoherent x (h.known hx) y hy, congrArg Block.id⟩
  · rw [if_neg hk]
    refine (List.filter_eq_self.2 fun x hx => ?_).symm
    rw [decide_eq_true_iff, List.mem_singleton]
    rintro rfl
    exact hk (h.named hx)

/-! ### Following the waits -/

/-- New blocks are all dropped, each struck from all lists, and on record after that. -/
theorem Tidy.dropUnseen (hcoherent : Coherent blocks) : ∀ (waiters : List Block) (seen : BlockSet)
    {q : Backlog}, Tidy blocks q → waiters ⊆ blocks → (waiters.map (·.id)).Nodup →
      (∀ y ∈ waiters, y.id ∉ seen) →
      (q.dropUnseen seen waiters).2.1 = waiters ∧
        Shorn q waiters (q.dropUnseen seen waiters).1 ∧
        ∀ n, n ∈ (q.dropUnseen seen waiters).2.2 ↔ n ∈ waiters.map (·.id) ∨ n ∈ seen
  | [], _, _, h, _, _, _ =>
    ⟨rfl, shorn_refl h.lined, fun _ => (or_iff_right List.not_mem_nil).symm⟩
  | y :: rest, seen, q, h, hsub, hnodup, hnew => by
    obtain ⟨hy, hrest⟩ := List.cons_subset.1 hsub
    rw [List.map_cons, List.nodup_cons] at hnodup
    obtain ⟨hnewY, hnewRest⟩ := List.forall_mem_cons.1 hnew
    have hstrike := h.strike hcoherent hy
    obtain ⟨hdropped, hshorn, hrecord⟩ := Tidy.dropUnseen hcoherent rest
      (seen.insert y.id) (h.shorn hstrike) hrest hnodup.2 fun x hx hin => by
        rcases Lookup.mem_insert.1 hin with heq | hin
        · exact hnodup.1 (heq ▸ List.mem_map_of_mem hx)
        · exact hnewRest x hx hin
    unfold Backlog.dropUnseen
    rw [if_neg fun hin => hnewY (Std.ExtTreeSet.contains_iff_mem.1 hin)]
    refine ⟨congrArg (y :: ·) hdropped, hstrike.trans hshorn, fun n => ?_⟩
    rw [hrecord, Lookup.mem_insert, List.map_cons, List.mem_cons, eq_comm, or_left_comm, or_assoc]

/-- What is left of a backlog when the waits behind a stack were followed to their end. -/
structure Felled (q : Backlog) (stack : List BlockId) (q' : Backlog) (out : List Block) :
    Prop where
  shorn : Shorn q out q'
  once : out.Nodup
  /-- Nothing stays behind the stack, nor behind what was taken out. -/
  gone : ∀ k y, k ∈ stack ∨ k ∈ out.map (·.id) → ¬q'.Listed k y
  behind : ∀ y ∈ out, ∃ k ∈ stack, q.Behind k y

theorem felled_refl (h : q.Lined) (hstack : q.awaited stack = []) : Felled q stack q [] where
  shorn := shorn_refl h
  once := List.nodup_nil
  gone _ _ hk := not_listed_of_none (none_of_awaited_nil hstack (hk.resolve_right List.not_mem_nil))
  behind _ hy := nomatch hy

/-- The blocks of the first list that the stack asks for are struck from all lists, and go on the
stack. -/
theorem Felled.step (hstack : q.awaited stack = id :: rest)
    (hout : ∀ y, y ∈ out ↔ q.Listed id y) (hnodup : out.Nodup) (hfirst : Shorn q out q')
    (h : Felled q' ((out.map (·.id)).reverse ++ rest) q'' later) :
    Felled q stack q'' (out ++ later) := by
  obtain ⟨hid, hrest⟩ := mem_of_awaited hstack
  have hall := hfirst.trans h.shorn
  refine ⟨hall, List.nodup_append'.2 ⟨hnodup, h.once, fun y hy hlater => ?_⟩,
    fun k y hk hy => ?_, fun y hy => ?_⟩
  · -- what is taken out later was still listed
    obtain ⟨k, -, hbehind⟩ := h.behind y hlater
    obtain ⟨k, hlisted⟩ := hbehind.listed
    exact (hfirst.listed_iff.1 hlisted).2 hy
  · rw [List.map_append, List.mem_append] at hk
    rcases hk with hk | hk | hk
    · obtain ⟨hlisted, hnot⟩ := hall.listed_iff.1 hy
      rcases none_or_mem_awaited (q := q) hk with hnone | hin
      · exact not_listed_of_none hnone hlisted
      · rw [hstack] at hin
        rcases List.mem_cons.1 hin with rfl | hin
        · exact hnot (List.mem_append_left _ ((hout y).2 hlisted))
        · exact h.gone k y (.inl (List.mem_append_right _ hin)) hy
    · exact h.gone k y (.inl (List.mem_append_left _ (List.mem_reverse.2 hk))) hy
    · exact h.gone k y (.inr hk) hy
  · rcases List.mem_append.1 hy with hy | hy
    · exact ⟨id, hid, .direct ((hout y).1 hy)⟩
    · obtain ⟨k, hk, hbehind⟩ := h.behind y hy
      have hbehind := hbehind.mono fun k y hy => (hfirst.listed_iff.1 hy).1
      rcases List.mem_append.1 hk with hk | hk
      · obtain ⟨z, hz, rfl⟩ := List.mem_map.1 (List.mem_reverse.1 hk)
        exact ⟨id, hid, hbehind.after ((hout z).1 hz)⟩
      · exact ⟨k, hrest hk, hbehind⟩

/-- Exactly what is behind the stack is taken out. -/
theorem Felled.mem_iff (h : Felled q stack q' out) :
    y ∈ out ↔ ∃ k ∈ stack, q.Behind k y := by
  refine ⟨h.behind y, ?_⟩
  rintro ⟨k, hk, hbehind⟩
  induction hbehind with
  | direct hy =>
    exact Decidable.byContradiction fun hnot =>
      h.gone _ _ (.inl hk) (h.shorn.listed_iff.2 ⟨hy, hnot⟩)
  | through _ hy ih =>
    exact Decidable.byContradiction fun hnot =>
      h.gone _ _ (.inr (List.mem_map_of_mem ih)) (h.shorn.listed_iff.2 ⟨hy, hnot⟩)

theorem discardAll_felled (hcoherent : Coherent blocks) (q : Backlog) (h : Tidy blocks q)
    (seen : BlockSet) (hfresh : ∀ k y, q.Listed k y → y.id ∉ seen) (stack : List BlockId) :
    Felled q stack (q.discardAll seen stack).1 (q.discardAll seen stack).2 := by
  unfold discardAll
  split
  · exact felled_refl h.lined ‹_›
  · rename_i id rest hstack
    have hnodup : ((q.waiting[id]?.getD []).map (·.id)).Nodup := by
      cases hw : q.waiting[id]? with
      | none => exact List.nodup_nil
      | some waiters => exact (h.lined id waiters hw).2
    obtain ⟨hdropped, hshorn, hrecord⟩ := Tidy.dropUnseen hcoherent (q.waiting[id]?.getD [])
      seen (h.erase id) (fun y hy => h.known hy) hnodup (fun y hy => hfresh id y hy)
    have hfirst := hshorn.of_erase
    have hlater := discardAll_felled hcoherent _ (h.shorn hfirst)
      ((⟨q.waiting.erase id⟩ : Backlog).dropUnseen seen (q.waiting[id]?.getD [])).2.2
      (fun k y hy hin => ?_)
      ((((⟨q.waiting.erase id⟩ : Backlog).dropUnseen seen
        (q.waiting[id]?.getD [])).2.1.map (·.id)).reverse ++ rest)
    · dsimp only
      rw [hdropped] at hlater ⊢
      exact .step hstack (fun y => Iff.rfl) (.of_map _ hnodup) hfirst hlater
    · -- what is still listed is none of the blocks that were dropped
      obtain ⟨hlisted, hnot⟩ := hfirst.listed_iff.1 hy
      rcases (hrecord y.id).1 hin with hin | hin
      · obtain ⟨x, hx, hid⟩ := List.mem_map.1 hin
        exact hnot (hcoherent x (h.known hx) y (h.known hlisted) hid ▸ hx)
      · exact hfresh k y hlisted hin
termination_by q.waiting.size
decreasing_by
  exact Nat.lt_of_le_of_lt (size_dropUnseen_le ..) (size_erase_lt_of_awaited ‹_›)

/-! ### The block that is given up -/

/-- What giving up block `b` takes out of a backlog, and what it leaves. -/
structure Discarded (q : Backlog) (b : Block) (q' : Backlog) (out : List Block) : Prop where
  once : (out.map (·.id)).Nodup
  mem_iff : ∀ x, x ∈ out ↔ x ≠ b ∧ q.Behind b.id x
  absent : ∀ k x, q'.Listed k x → x.id ≠ b.id ∧ x.id ∉ out.map (·.id)
  kept : ∀ k : BlockId, q'.waiting[k]?.getD [] =
    (q.waiting[k]?.getD []).filter fun x => x ≠ b ∧ x ∉ out
  filled : ∀ k : BlockId, q'.waiting[k]? ≠ some []

/-- What is behind a block is behind it still when the block itself stands on no list. -/
theorem Shorn.behind_iff (h : Shorn q [b] q') : q'.Behind b.id x ↔ x ≠ b ∧ q.Behind b.id x := by
  have hlisted : ∀ k y, q'.Listed k y ↔ q.Listed k y ∧ y ≠ b := fun k y => by
    rw [h.listed_iff, List.mem_singleton]
  constructor
  · intro hx
    obtain ⟨k, hk⟩ := hx.listed
    exact ⟨((hlisted k x).1 hk).2, hx.mono fun k y hy => ((hlisted k y).1 hy).1⟩
  · rintro ⟨hne, hx⟩
    induction hx with
    | direct hx => exact .direct ((hlisted _ _).2 ⟨hx, hne⟩)
    | @through x y _ hx ih =>
      -- a way that comes back to the block is cut short
      by_cases hy : y = b
      · exact .direct ((hlisted _ _).2 ⟨hy ▸ hx, hne⟩)
      · exact (ih hy).through ((hlisted _ _).2 ⟨hx, hne⟩)

theorem Tidy.discard (h : Tidy blocks q) (hcoherent : Coherent blocks) (hb : b ∈ blocks) :
    Discarded q b (q.discard b).1 (q.discard b).2 := by
  have hstrike := h.strike hcoherent hb
  have hleft := h.shorn hstrike
  have hfelled : Felled (q.strike b.id b.previous) [b.id] (q.discard b).1 (q.discard b).2 := by
    refine discardAll_felled hcoherent _ hleft _ (fresh_insert fun k y hy hid => ?_) _
    refine (hstrike.listed_iff.1 hy).2 (List.mem_singleton.2 ?_)
    exact hcoherent y (hleft.known hy) b hb hid
  have hall := hstrike.trans hfelled.shorn
  have hout : ∀ x ∈ (q.discard b).2, x ∈ blocks := fun x hx => by
    obtain ⟨k, -, hbehind⟩ := hfelled.behind x hx
    obtain ⟨k, hk⟩ := hbehind.listed
    exact hleft.known hk
  refine
    { once := hfelled.once.map_on fun x hx y hy => hcoherent x (hout x hx) y (hout y hy)
      mem_iff := fun x => ?_, absent := fun k x hx => ?_, kept := fun k => ?_
      filled := hall.filled }
  · rw [hfelled.mem_iff, ← hstrike.behind_iff]
    simp only [List.mem_singleton, exists_eq_left]
  · obtain ⟨hlisted, hnot⟩ := hall.listed_iff.1 hx
    have hx := h.known hlisted
    rw [List.singleton_append, List.mem_cons, not_or] at hnot
    refine ⟨fun hid => hnot.1 (hcoherent x hx b hb hid), fun hin => ?_⟩
    obtain ⟨y, hy, hid⟩ := List.mem_map.1 hin
    exact hnot.2 (hcoherent y (hout y hy) x hx hid ▸ hy)
  · rw [hall.kept]
    refine List.filter_congr fun x _ => ?_
    rw [decide_eq_decide, List.singleton_append, List.mem_cons, not_or]

/-- Where an identity stands for one block and every block waits for blocks that it names, giving a
block up takes out, each once, the other blocks that are behind it. They and the block are on no
list any more, every other block keeps its places, and no list is left empty. -/
theorem discard_exact (actions : List Action) (b : Block)
    (hnamed : ∀ k y, (afterAll actions).Listed k y → k ∈ y.previous)
    (hcoherent : Coherent (b :: (afterAll actions).waitingBlocks)) :
    Discarded (afterAll actions) b ((afterAll actions).discard b).1
      ((afterAll actions).discard b).2 := by
  have htidy : Tidy (b :: (afterAll actions).waitingBlocks) (afterAll actions) :=
    { known := fun hy => List.mem_cons_of_mem _ (mem_waitingBlocks.2 ⟨_, hy⟩)
      named := fun hy => hnamed _ _ hy
      lined := lined_afterAll actions }
  exact htidy.discard hcoherent (List.mem_cons_self ..)

/-- A block of a given name that waits for others. -/
def sampleWaiter (id : BlockId) (previous : List BlockId) : Block :=
  { Block.genesis .root with id, previous }

/-- Three blocks wait for each other in a circle, and one of them for a block that a fourth one
waits for as well. -/
def sampleCircle : List Action :=
  [.submit (sampleWaiter ⟨2⟩ [⟨1⟩, ⟨5⟩]) [⟨1⟩, ⟨5⟩], .submit (sampleWaiter ⟨1⟩ [⟨3⟩]) [⟨3⟩],
    .submit (sampleWaiter ⟨3⟩ [⟨2⟩]) [⟨2⟩], .submit (sampleWaiter ⟨4⟩ [⟨5⟩, ⟨6⟩]) [⟨5⟩, ⟨6⟩],
    .order (sampleWaiter ⟨6⟩ []), .discard (sampleWaiter ⟨7⟩ [⟨5⟩])]

theorem sample_discarded :
    Discarded (afterAll sampleCircle) (sampleWaiter ⟨1⟩ [⟨3⟩])
      ((afterAll sampleCircle).discard (sampleWaiter ⟨1⟩ [⟨3⟩])).1
      [sampleWaiter ⟨2⟩ [⟨1⟩, ⟨5⟩], sampleWaiter ⟨3⟩ [⟨2⟩]] := by
  have hout : ((afterAll sampleCircle).discard (sampleWaiter ⟨1⟩ [⟨3⟩])).2 =
      [sampleWaiter ⟨2⟩ [⟨1⟩, ⟨5⟩], sampleWaiter ⟨3⟩ [⟨2⟩]] := by decide +kernel
  rw [← hout]
  refine discard_exact sampleCircle _ (fun k y hy => ?_) (by decide +kernel)
  obtain ⟨missing, hmem, hk⟩ := listed_afterAll hy
  simp only [sampleCircle, List.mem_cons, Action.submit.injEq, List.not_mem_nil, reduceCtorEq,
    or_false] at hmem
  rcases hmem with ⟨rfl, rfl⟩ | ⟨rfl, rfl⟩ | ⟨rfl, rfl⟩ | ⟨rfl, rfl⟩ <;> exact hk

end Backlog

end ShardLedger
