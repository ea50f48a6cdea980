import ShardLedger.Proofs.Tree.Gone

/-!
# Discarded blocks that come back

A chain knows the blocks that are live or wait, and no others. So a discarded block that is
submitted again is not seen to be one, and it enters if its parent is still live. It is discarded
again in the same step, and both are reported a second time. That is the only way in which a block
is reported twice.

- `Branch.entered_gone`: of the blocks that are gone, only the submitted one may enter.
- `Branch.applied_iff`: when a block that entered before enters again.
- `Revisited`, `Chain.Life.reported_once_iff`: when no block is reported twice.
-/

namespace ShardLedger

theorem mem_enteredIn {events : List Event} {n : BlockId} :
    n ∈ enteredIn events ↔ ∃ chain weight, Event.applied chain n weight ∈ events := by
  rw [enteredIn, List.mem_flatMap]
  constructor
  · rintro ⟨e, he, hn⟩
    cases e with
    | applied chain block weight => exact ⟨chain, weight, List.mem_singleton.1 hn ▸ he⟩
    | finalized => cases hn
    | linearized => cases hn
  · rintro ⟨chain, weight, he⟩
    exact ⟨_, he, List.mem_singleton_self n⟩

theorem Chain.Ready.left {seen xs ys : List Block} {c : Chain} (h : c.Ready seen (xs ++ ys)) :
    c.Ready seen xs where
  admitted x hx := h.admitted x (List.mem_append_left _ hx)
  nodup := h.nodup.sublist ((List.sublist_append_left ..).map _)
  fresh x hx := h.fresh x (List.mem_append_left _ hx)
  unbuffered x hx := h.unbuffered x (List.mem_append_left _ hx)

namespace Branch

variable {rules : Rules} {roster : Roster} {seen queue xs : List Block} {b : Branch} {m c : Chain}
  {W : Nat} {id : ChainId} {events : List Event} {genesis x y : Block} {a : Chain.Applied}
  {n : BlockId} {count : Nat} {I : List Event → List Block → Chain → Prop}

/-! ### One submission -/

/-- The first of the released blocks enters first. -/
theorem applyAll_first (roster : Roster) (h : b.chain.apply x = some a) : ∃ later,
    (applyAll rules roster b (x :: xs)).2.2.2 = a.reports b.chain.id x.id ++ later := by
  refine ⟨(applyAll rules (b.apply rules roster x).2.1 (b.apply rules roster x).1 xs).2.2.2, ?_⟩
  rw [← apply_reports h]
  rfl

theorem apply_entered (roster : Roster) (b : Branch) (x : Block) :
    (enteredIn (b.apply rules roster x).2.2).Sublist [x.id] := by
  cases ha : b.chain.apply x with
  | none =>
    rw [show b.apply rules roster x = (b, roster, []) from apply_of_none ha]
    exact List.nil_sublist _
  | some a =>
    rw [apply_reports ha, a.enteredIn_reports]

/-- Only released blocks enter, and each of them once. -/
theorem applyAll_entered : ∀ (xs : List Block) (roster : Roster) (b : Branch),
    (enteredIn (applyAll rules roster b xs).2.2.2).Sublist (xs.map (·.id))
  | [], _, _ => .slnil
  | x :: rest, roster, b => by
    have hrest := applyAll_entered rest (b.apply rules roster x).2.1 (b.apply rules roster x).1
    show (enteredIn ((b.apply rules roster x).2.2 ++ _)).Sublist ([x.id] ++ rest.map (·.id))
    rw [enteredIn_append]
    exact (apply_entered roster b x).append hrest

/-- What enters was not live, and enters once. -/
theorem entered_fresh (horderly : b.chain.Orderly seen)
    (hseen : rules.accepts x = true → x ∈ seen) :
    (enteredIn (b.submit rules roster x).events).Nodup ∧
      ∀ n ∈ enteredIn (b.submit rules roster x).events, ¬b.chain.graph.Live n := by
  have hsubmitted := b.submitted rules roster x
  generalize b.submit rules roster x = s at hsubmitted ⊢
  cases hsubmitted with
  | screened => exact ⟨List.nodup_nil, fun _ hn => nomatch hn⟩
  | settled => exact ⟨List.nodup_nil, fun _ hn => nomatch hn⟩
  | @entered parent c xs hscreen hreceive =>
    obtain ⟨hb, hparent⟩ := Chain.admitted_of_accepted hseen hscreen
    obtain ⟨-, hready, hakin, -⟩ := horderly.released hb hparent hreceive
    have hsub := @applyAll_entered rules xs roster (b.withChain c)
    refine ⟨hready.nodup.sublist hsub, fun n hn => ?_⟩
    obtain ⟨y, hy, rfl⟩ := List.mem_map.1 (hsub.subset hn)
    rw [← hakin.graph]
    exact hready.fresh y hy

/-- When a released block is applied, whatever every block keeps still holds. The block is the
submitted one, or its parent was not live before. -/
theorem Applies.spec (happlies : Applies rules roster b x m y)
    (hI : Chain.Kept rules.config seen I) (horderly : b.chain.Orderly seen) (hseen : x ∈ seen)
    (h : I events queue b.chain) :
    m.Orderly seen ∧ (∃ more later, I (events ++ more) (queue ++ later) m) ∧
      Admitted seen b.chain.id y ∧
      (y = x ∨ ∃ k, y.parent? = some k ∧ ¬b.chain.graph.Live k) := by
  have hm := (happlies.orderly horderly hseen).1
  obtain ⟨parent, c, before, after, hscreen, hreceive, rfl⟩ := happlies
  obtain ⟨hb, hparent⟩ := Chain.admitted_of_screen hseen hscreen
  obtain ⟨hnext, hready, hakin, -⟩ := horderly.released hb hparent hreceive
  have hmem : y ∈ before ++ y :: after := by simp
  refine ⟨hm, ?_, hakin.id ▸ hready.admitted y hmem, ?_⟩
  · obtain ⟨later, -, hkept⟩ := applyAll_keeps hI before roster (b := b.withChain c)
      (by rwa [chain_withChain]) (by rw [chain_withChain]; exact hready.left)
      (show I events queue (b.withChain c).chain by rw [chain_withChain]; exact hI.akin hakin h)
    exact ⟨_, later, hkept⟩
  · -- what the submitted block sets free waited for a released block, and those were not live
    have hids : ∀ k ∈ (before ++ y :: after).map (·.id), ¬b.chain.graph.Live k := by
      rintro k hk
      obtain ⟨z, hz, rfl⟩ := List.mem_map.1 hk
      rw [← hakin.graph]
      exact hready.fresh z hz
    generalize hxs : before ++ y :: after = xs at hreceive hmem hids
    cases Chain.received hreceive with
    | released =>
      obtain ⟨free, hfree, hwaited⟩ := b.chain.backlog.release_waited x
      rw [hfree] at hmem
      refine (List.mem_cons.1 hmem).imp_right fun hy => ?_
      obtain ⟨k, hk, hlisted⟩ := hwaited y hy
      exact ⟨k, (horderly.held k y hlisted).2, hids k hk⟩

/-- Where a block counts as applied, it is the first that enters. -/
theorem applied_first (horderly : b.chain.Orderly seen)
    (hseen : rules.accepts x = true → x ∈ seen)
    (hout : (b.submit rules roster x).outcome = .applied count) :
    ∃ c a later, Chain.Akin b.chain c ∧ c.Orderly seen ∧ Admitted seen c.id x ∧
      c.apply x = some a ∧ (b.submit rules roster x).events = a.reports c.id x.id ++ later := by
  have hsubmitted := b.submitted rules roster x
  generalize b.submit rules roster x = s at hsubmitted hout ⊢
  cases hsubmitted with
  | screened => cases hout
  | settled hscreen hreceive =>
    cases hout
    exact absurd hreceive Chain.receive_ne_applied
  | @entered parent c xs hscreen hreceive =>
    obtain ⟨hb, hparent⟩ := Chain.admitted_of_accepted hseen hscreen
    obtain ⟨hnext, hready, hakin, -⟩ := horderly.released hb hparent hreceive
    obtain ⟨behind, above, rfl, habove, hrank⟩ := Chain.receive_released hreceive
    have hfirst := hready.fresh x (List.mem_cons_self ..)
    obtain ⟨a, ha⟩ := hnext.apply_isSome hfirst hparent habove hrank
    obtain ⟨later, hlater⟩ : ∃ later, (applyAll rules roster (b.withChain c) (x :: behind)).2.2.2 =
        a.reports (b.withChain c).chain.id x.id ++ later :=
      applyAll_first roster (by rwa [chain_withChain])
    rw [chain_withChain] at hlater
    exact ⟨c, a, later, hakin, hnext, hakin.id ▸ hb, ha, hlater⟩

/-- Nothing enters where the outcome does not count it. -/
theorem applied_of_entered (hn : n ∈ enteredIn (b.submit rules roster x).events) :
    ∃ count, (b.submit rules roster x).outcome = .applied count := by
  have hsubmitted := b.submitted rules roster x
  generalize b.submit rules roster x = s at hsubmitted hn ⊢
  cases hsubmitted with
  | screened => cases hn
  | settled => cases hn
  | entered => exact ⟨_, rfl⟩

section

variable (h : Chain.Buried W seen id genesis events queue b.chain)
  (horderly : b.chain.Orderly seen) (hcoherent : Coherent (genesis :: seen))
  (hgenesis : Chain.Foreign id genesis)
include h horderly hcoherent

include hgenesis in
/-- Of the blocks that are gone, only the submitted one may enter, and only where it had been
discarded. -/
theorem entered_gone (hseen : rules.accepts x = true → x ∈ seen)
    (hn : n ∈ enteredIn (b.submit rules roster x).events) (hgone : Gone genesis events n) :
    n = x.id ∧ n ∈ discardedIn events := by
  obtain ⟨chain, weight, he⟩ := mem_enteredIn.1 hn
  obtain ⟨m, y, a, happlies, ha, -, rfl, -⟩ := submit_events he
  have haccepts : rules.accepts x = true := by
    obtain ⟨_, _, _, _, hscreen, -⟩ := happlies
    exact Chain.accepts_of_screen hscreen
  obtain ⟨hm, ⟨more, later, hburied⟩, hy, hfrom⟩ := happlies.spec
    (Chain.kept_buried rules.config W hcoherent hgenesis) horderly (hseen haccepts) h
  rw [h.chain] at hy
  -- the parent is live by the time that the block enters
  obtain ⟨p, above, -, -, hparent, habove, -, -⟩ := hm.stages ha
  have hlive := (hm.blocks_live p).1 ⟨above, habove⟩
  have hdiscarded : y.id ∈ discardedIn events := by
    refine hgone.resolve_left fun hpassed => ?_
    exact hburied.not_passed hcoherent hgenesis hy hparent hlive
      (mem_passedIn_append.2 (.inl hpassed))
  refine ⟨?_, hdiscarded⟩
  rcases hfrom with rfl | ⟨k, hk, hdead⟩
  · rfl
  · -- a parent that was not live is gone, for the block has entered after it before
    obtain rfl : p = k := Option.some.inj (hparent.symm.trans hk)
    obtain ⟨top, hfollows, -, hknown⟩ := h.parent_known horderly hcoherent
      (List.mem_cons_of_mem _ hy.mem) (h.balance.mem_iff.2 (by simp [hdiscarded]))
    obtain rfl : top.id = p := Option.some.inj (hfollows.parent.symm.trans hparent)
    exact absurd hlive (hburied.not_live _ (hknown.resolve_left hdead).mono)

/-- A block that entered before enters again whenever its parent is live and the chain does not
know the block. -/
theorem applied_iff (hx : x ∈ seen) (haccepts : rules.accepts x = true)
    (hentered : x.id ∈ enteredIn events) :
    (∃ count, (b.submit rules roster x).outcome = .applied count) ↔
      b.chain.retired = false ∧ b.chain.knows x.id = false ∧
        ∃ p, x.parent? = some p ∧ b.chain.graph.Live p := by
  obtain ⟨top, hfollows, htop, -⟩ :=
    h.parent_known horderly hcoherent (List.mem_cons_of_mem _ hx) hentered
  have hscreen : Chain.screen rules b.chain.id x = .ok top.id := by
    rw [h.chain]
    exact Chain.screen_of_admitted hfollows.toAdmitted haccepts hfollows.parent
  have hsubmitted := b.submitted rules roster x
  generalize b.submit rules roster x = s at hsubmitted ⊢
  constructor
  · rintro ⟨count, hout⟩
    cases hsubmitted with
    | screened => cases hout
    | settled _ hreceive =>
      cases hout
      exact absurd hreceive Chain.receive_ne_applied
    | entered hscreen' hreceive =>
      cases hscreen.symm.trans hscreen'
      cases Chain.received hreceive with
      | released hretired hnew habove =>
        exact ⟨hretired, hnew, top.id, hfollows.parent, (horderly.blocks_live _).1 ⟨_, habove⟩⟩
  · rintro ⟨hretired, hnew, p, hp, hlive⟩
    obtain rfl : top.id = p := Option.some.inj (hfollows.parent.symm.trans hp)
    obtain ⟨above, habove⟩ := (horderly.blocks_live _).2 hlive
    -- the block above is the one that it followed before
    obtain rfl : above = top := hcoherent above (h.block_mem horderly habove) top htop
      (horderly.blocks_id _ _ habove)
    cases hsubmitted with
    | screened hscreen' => cases hscreen.symm.trans hscreen'
    | settled hscreen' hreceive =>
      cases hscreen.symm.trans hscreen'
      cases Chain.received hreceive with
      | retired hyes => cases hretired.symm.trans hyes
      | known _ hyes => cases hnew.symm.trans hyes
      | stale _ _ hnone => cases habove.symm.trans hnone
      | buffered _ _ hnone => cases habove.symm.trans hnone
      | below _ _ habove' hrank =>
        cases habove.symm.trans habove'
        exact absurd hrank (UInt64.not_lt.2 hfollows.rank_le)
    | entered => exact ⟨_, rfl⟩

omit hcoherent in
/-- A discarded block that enters is reported a second time, both as entered and as discarded. -/
theorem reported_again (hseen : rules.accepts x = true → x ∈ seen)
    (hdiscarded : x.id ∈ discardedIn events)
    (hout : (b.submit rules roster x).outcome = .applied count) :
    x.id ∈ enteredIn (b.submit rules roster x).events ∧
      x.id ∈ discardedIn (b.submit rules roster x).events := by
  obtain ⟨c, a, later, hakin, hc, hx, ha, hevents⟩ := applied_first horderly hseen hout
  obtain ⟨p, above, g₁, g₂, hparent, habove, -, hs⟩ := hc.stages ha
  have hburied := h.akin hakin
  rw [hburied.chain] at hx
  have hpruned := hburied.discarded_again hc hx hparent habove hs hdiscarded
  rw [hevents]
  simp [hpruned]

end

end Branch

/-! ### A whole life -/

/-- A block was submitted again after it had been discarded, and it entered again. -/
def Revisited (log : List Receipt) : Prop :=
  ∃ before r after count, log = before ++ r :: after ∧
    r.block.id ∈ discardedIn (eventsIn before) ∧ r.outcome = .applied count

theorem Revisited.append {log : List Receipt} (h : Revisited log) (later : List Receipt) :
    Revisited (log ++ later) := by
  obtain ⟨before, r, after, count, rfl, hgone, hout⟩ := h
  exact ⟨before, r, after ++ later, count, by simp, hgone, hout⟩

namespace Chain

variable {rules : Rules} {seen : List Block} {c : Chain} {id : ChainId} {log : List Receipt}
  {events : List Event} {queue : List Block} {genesis : Block} {W : Nat}

/-- What entered is reported once if and only if what was discarded is. -/
theorem Buried.nodup_iff (h : Buried W seen id genesis events queue c) (horderly : c.Orderly seen) :
    (enteredIn events).Nodup ↔ (discardedIn events).Nodup := by
  rw [h.balance.nodup_iff, List.nodup_append, List.nodup_append]
  refine ⟨fun hall => hall.1.2.1, fun hdiscarded => ⟨⟨(List.nodup_cons.1 h.once).2, hdiscarded,
    fun n hn m hm heq => h.apart n hn (heq ▸ hm)⟩, c.graph.nodup_others, ?_⟩⟩
  rintro n hn m hm rfl
  obtain ⟨hna, hlive⟩ := ForkGraph.mem_others.1 hm
  rcases List.mem_append.1 hn with hn | hn
  · -- the only finalized block that is live is the anchor
    rcases ForkGraph.mem_dropLast_or (List.mem_cons_of_mem genesis.id hn) with hpassed | hlast
    · exact h.not_live n (.inl hpassed) hlive
    · exact hna (hlast.trans (h.anchor_id horderly).symm)
  · exact h.not_live n (.inr hn) hlive

section

variable {graph : ForkGraph} {content : ContentStore} {cursor : Cursor}
  (h : (start id genesis graph content cursor).Becomes rules log c)
  (hg : newGraph rules.config genesis.id = .ok graph) (hcoherent : Coherent (genesis :: seen))
  (hgenesis : Foreign id genesis)
  (hseen : ∀ b ∈ submittedIn log, rules.accepts b = true → b ∈ seen)
include h hg hcoherent hgenesis hseen

/-- Unless a discarded block enters again, no block enters twice. -/
theorem Becomes.nodup_of_not_revisited (hnot : ¬Revisited log) :
    (enteredIn (eventsIn log)).Nodup := by
  induction h with
  | refl => exact List.nodup_nil
  | @submit log b roster x h ih =>
    rw [submittedIn_append, List.forall_mem_append] at hseen
    obtain ⟨horderly, hburied⟩ := h.buried hg hcoherent hgenesis hseen.1
    have hx : rules.accepts x = true → x ∈ seen := hseen.2 x (List.mem_singleton_self _)
    obtain ⟨hnodup, hfresh⟩ : (enteredIn (b.receipt rules roster x).events).Nodup ∧
        ∀ n ∈ enteredIn (b.receipt rules roster x).events, ¬b.chain.graph.Live n :=
      Branch.entered_fresh horderly hx
    rw [eventsIn_append, eventsIn_singleton, enteredIn_append]
    refine List.nodup_append.2 ⟨ih hseen.1 fun hrev => hnot (hrev.append _), hnodup, ?_⟩
    rintro n hn m hm rfl
    -- a block that enters a second time was gone, and is the one that was submitted
    have hgone := (hburied.live_or_gone horderly (.inr hn)).resolve_left (hfresh n hm)
    obtain ⟨rfl, hdiscarded⟩ :=
      Branch.entered_gone hburied horderly hcoherent hgenesis hx hm hgone
    obtain ⟨count, hout⟩ := Branch.applied_of_entered hm
    exact hnot ⟨log, _, [], count, rfl, hdiscarded, hout⟩
  | discardPending _ _ ih => exact ih hseen hnot
  | retire _ ih => exact ih hseen hnot
  | rest _ _ _ _ ih => exact ih hseen hnot

/-- A discarded block that enters again has entered twice. -/
theorem Becomes.not_nodup_of_revisited (hrev : Revisited log) :
    ¬(enteredIn (eventsIn log)).Nodup := by
  obtain ⟨before, r, after, count, rfl, hdiscarded, hout⟩ := hrev
  rw [submittedIn_append, List.forall_mem_append] at hseen
  obtain ⟨b, roster, hbefore, hr⟩ := h.submitted rfl
  obtain ⟨horderly, hburied⟩ := hbefore.buried hg hcoherent hgenesis hseen.1
  rw [hr] at hout
  obtain ⟨hagain, -⟩ := Branch.reported_again hburied horderly
    (hseen.2 r.block (List.mem_map_of_mem (List.mem_cons_self ..))) hdiscarded hout
  have hfirst : r.block.id ∈ enteredIn (eventsIn before) :=
    hburied.balance.mem_iff.2 (by simp [hdiscarded])
  intro hnodup
  rw [eventsIn_append, enteredIn_append] at hnodup
  refine (List.nodup_append.1 hnodup).2.2 _ hfirst _ ?_ rfl
  rw [show eventsIn (r :: after) = r.events ++ eventsIn after from rfl, enteredIn_append, hr]
  exact List.mem_append_left _ hagain

end

/-- Where no two blocks share an identity, no block is reported twice to have entered or to be
discarded if and only if no discarded block enters again. A discarded block that is submitted
again enters whenever its parent is still live and the chain takes blocks and does not know the
block; and then it is reported a second time, both as entered and as discarded. -/
theorem Life.reported_once_iff {b : Branch} (h : Life rules genesis log b.chain)
    (hcoherent : Coherent (genesis :: submittedIn log)) :
    ((enteredIn (eventsIn log)).Nodup ∧ (discardedIn (eventsIn log)).Nodup ↔ ¬Revisited log) ∧
    ∀ roster, ∀ x ∈ submittedIn log, x.id ∈ discardedIn (eventsIn log) →
      ((∃ count, (b.receipt rules roster x).outcome = .applied count) ↔
        b.chain.retired = false ∧ b.chain.knows x.id = false ∧
          ∃ p, x.parent? = some p ∧ b.chain.graph.Live p) ∧
      ∀ count, (b.receipt rules roster x).outcome = .applied count →
        x.id ∈ enteredIn (b.receipt rules roster x).events ∧
          x.id ∈ discardedIn (b.receipt rules roster x).events := by
  have haccepted : Coherent (genesis :: acceptedIn rules log) := coherent_acceptedIn hcoherent
  obtain ⟨horderly, hburied⟩ := h.buried hcoherent
  constructor
  · rw [hburied.nodup_iff horderly, and_self, ← hburied.nodup_iff horderly]
    obtain ⟨id, graph, content, cursor, hg, hgenesis, hlife⟩ := h
    refine ⟨fun hnodup hrev => ?_,
      hlife.nodup_of_not_revisited hg haccepted hgenesis mem_acceptedIn_of_accepts⟩
    exact hlife.not_nodup_of_revisited hg haccepted hgenesis mem_acceptedIn_of_accepts hrev hnodup
  · intro roster x hx hdiscarded
    have hentered : x.id ∈ enteredIn (eventsIn log) :=
      hburied.balance.mem_iff.2 (by simp [hdiscarded])
    -- it entered before, so it was accepted then
    obtain ⟨_, x', hid, hfollows, -⟩ := hburied.came _ hentered
    obtain ⟨hx', haccepts⟩ := mem_acceptedIn.1 hfollows.mem
    obtain rfl := hcoherent x' (List.mem_cons_of_mem _ hx') x (List.mem_cons_of_mem _ hx) hid
    exact ⟨Branch.applied_iff hburied horderly haccepted hfollows.mem haccepts hentered,
      fun count hout => Branch.reported_again hburied horderly (mem_acceptedIn_of_accepts x' hx)
        hdiscarded hout⟩

end Chain

namespace Branch

/-- Block 5 is discarded while block zero, which it follows, is still the anchor. It is submitted
again, enters again, and is reported again. -/
theorem sample_reported_twice : ∃ (log : List Receipt) (c : Chain),
    Chain.Life (sampleRules 2) sampleSeed log c ∧ Coherent (sampleSeed :: submittedIn log) ∧
    submittedIn log = sampleForks ++ [sampleAfter 0 5 ⟨1, 1⟩] ∧
    enteredIn (eventsIn log) = [⟨5⟩, ⟨1⟩, ⟨6⟩, ⟨2⟩, ⟨7⟩, ⟨3⟩, ⟨5⟩] ∧
    discardedIn (eventsIn log) = [⟨5⟩, ⟨5⟩] ∧
    ¬(enteredIn (eventsIn log)).Nodup ∧ ¬(discardedIn (eventsIn log)).Nodup := by
  obtain ⟨graph, hgraph, hentered, hdiscarded⟩ : ∃ graph,
      Chain.newGraph (sampleRules 2).config sampleSeed.id = .ok graph ∧
      enteredIn (eventsIn (sampleRun (sampleRules 2) graph
        (sampleForks ++ [sampleAfter 0 5 ⟨1, 1⟩])).2) =
          [⟨5⟩, ⟨1⟩, ⟨6⟩, ⟨2⟩, ⟨7⟩, ⟨3⟩, ⟨5⟩] ∧
      discardedIn (eventsIn (sampleRun (sampleRules 2) graph
        (sampleForks ++ [sampleAfter 0 5 ⟨1, 1⟩])).2) = [⟨5⟩, ⟨5⟩] :=
    ⟨_, rfl, by decide +kernel, by decide +kernel⟩
  refine ⟨_, _, sample_life hgraph (sampleForks ++ [sampleAfter 0 5 ⟨1, 1⟩]), ?_,
    submittedIn_deliver .., hentered, hdiscarded, ?_, ?_⟩
  · rw [sampleRun, submittedIn_deliver]
    decide
  · rw [hentered]
    decide
  · rw [hdiscarded]
    decide

/-- Before block 5 is submitted again, no block is reported twice; and the chain will take it. -/
theorem sample_reported_once : ∃ (log : List Receipt) (b : Branch),
    Chain.Life (sampleRules 2) sampleSeed log b.chain ∧
    Coherent (sampleSeed :: submittedIn log) ∧
    discardedIn (eventsIn log) = [⟨5⟩] ∧ (enteredIn (eventsIn log)).Nodup ∧ ¬Revisited log ∧
    ∃ count, (b.receipt (sampleRules 2) ⟨[], []⟩ (sampleAfter 0 5 ⟨1, 1⟩)).outcome =
      .applied count := by
  obtain ⟨graph, hgraph, hentered, hdiscarded, hretired, hnew, hlive⟩ : ∃ graph,
      Chain.newGraph (sampleRules 2).config sampleSeed.id = .ok graph ∧
      enteredIn (eventsIn (sampleRun (sampleRules 2) graph sampleForks).2) =
        [⟨5⟩, ⟨1⟩, ⟨6⟩, ⟨2⟩, ⟨7⟩, ⟨3⟩] ∧
      discardedIn (eventsIn (sampleRun (sampleRules 2) graph sampleForks).2) = [⟨5⟩] ∧
      (sampleRun (sampleRules 2) graph sampleForks).1.chain.retired = false ∧
      (sampleRun (sampleRules 2) graph sampleForks).1.chain.knows ⟨5⟩ = false ∧
      (sampleRun (sampleRules 2) graph sampleForks).1.chain.graph.contains ⟨0⟩ = true :=
    ⟨_, rfl, by decide +kernel, by decide +kernel, by decide +kernel, by decide +kernel,
      by decide +kernel⟩
  have hlife := sample_life hgraph sampleForks
  have hsubmitted : submittedIn (sampleRun (sampleRules 2) graph sampleForks).2 = sampleForks :=
    submittedIn_deliver ..
  have hcoherent : Coherent
      (sampleSeed :: submittedIn (sampleRun (sampleRules 2) graph sampleForks).2) := by
    rw [hsubmitted]
    decide
  have hnodup : (enteredIn (eventsIn (sampleRun (sampleRules 2) graph sampleForks).2)).Nodup ∧
      (discardedIn (eventsIn (sampleRun (sampleRules 2) graph sampleForks).2)).Nodup := by
    rw [hentered, hdiscarded]
    decide
  obtain ⟨honce, hagain⟩ := hlife.reported_once_iff hcoherent
  refine ⟨_, _, hlife, hcoherent, hdiscarded, hnodup.1, honce.1 hnodup, ?_⟩
  refine (hagain ⟨[], []⟩ (sampleAfter 0 5 ⟨1, 1⟩) ?_ ?_).1.2
    ⟨hretired, hnew, ⟨0⟩, rfl, Lookup.contains_iff.1 hlive⟩
  · rw [hsubmitted]
    decide
  · rw [hdiscarded]
    decide

end Branch

end ShardLedger
