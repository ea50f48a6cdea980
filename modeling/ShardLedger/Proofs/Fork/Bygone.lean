import ShardLedger.Proofs.Fork.Turnover

/-!
# What lies behind the anchor

The anchor keeps the name of the block that it followed, which left the graph long ago. As long as
no block of the past is added again, that name leads nowhere.

- `ForkGraph.Bygone`: nothing of the past is live but the anchor.
- `ForkGraph.NeverAgain`: calls that add no block of the past.
- `ForkGraph.bygone_after`: what such calls keep.
-/

namespace ShardLedger

namespace ForkGraph

variable {g g' g₁ g₂ : ForkGraph} {id previous genesis n p : BlockId} {weight W : Nat} {keep : Bool}
  {step : ForkStep} {past : List BlockId}

/-- The past holds the anchor, and of what it holds nothing else is live. The anchor follows a
block of the past, if any. -/
structure Bygone (g : ForkGraph) (past : List BlockId) : Prop extends IsTree g where
  anchor_mem : g.anchor ∈ past
  only_anchor : ∀ n ∈ past, g.Live n → n = g.anchor
  behind : ∀ node p, g.nodes[g.anchor]? = some node → node.previous = some p →
    p ∈ past ∧ p ≠ g.anchor

/-- What the anchor follows is not live. -/
theorem Bygone.behind_gone (h : g.Bygone past) {node : ForkNode}
    (hnode : g.nodes[g.anchor]? = some node) (hp : node.previous = some p) :
    p ≠ g.anchor ∧ ¬g.Live p := by
  obtain ⟨hpast, hne⟩ := h.behind node p hnode hp
  exact ⟨hne, fun hlive => hne (h.only_anchor p hpast hlive)⟩

theorem bygone_create (h : create genesis W keep = .ok g) : g.Bygone [genesis] := by
  have hfresh := create_fresh h
  refine ⟨hfresh.isTree, List.mem_singleton.2 hfresh.anchor, fun n hn _ => ?_, ?_⟩
  · rw [List.mem_singleton.1 hn, hfresh.anchor]
  · intro node p hnode hp
    rw [(hfresh.node_eq hnode).2] at hp
    cases hp

/-- The last node of a path is below one that the path passes. -/
theorem Path.last_below {below : BlockId → BlockId → Prop} :
    ∀ {a : BlockId} {ns : List BlockId}, Path below a ns → ns ≠ [] →
      ∃ q ∈ (a :: ns).dropLast, below (ns.getLastD a) q
  | _, [], _, hne => absurd rfl hne
  | a, [n], h, _ => ⟨a, List.mem_singleton_self a, h.1⟩
  | a, n :: m :: rest, h, _ => by
    obtain ⟨q, hq, hbelow⟩ := h.2.last_below (List.cons_ne_nil m rest)
    exact ⟨q, List.mem_cons_of_mem a hq, hbelow⟩

/-- A node that was there before follows what it did. -/
theorem Stages.previous_eq (hs : Stages g g₁ g₂ g' id previous weight step) {node' : ForkNode}
    (hn : g'.nodes[n]? = some node') (hne : id ≠ n) :
    ∃ node, g.nodes[n]? = some node ∧ node.previous = node'.previous := by
  obtain ⟨parent, hparent, rfl⟩ := hs.attached
  obtain ⟨-, node₁, hn₁, hprev, -⟩ := hs.pruned.kept n node' (hs.nodes₂ hn)
  obtain ⟨old, hold, hsame⟩ := attach_previous hparent hn₁ hne
  exact ⟨old, hold, hsame.trans hprev.symm⟩

/-- A block that is not of the past adds to it what it finalizes. -/
theorem Bygone.add (h : g.Bygone past) (hadd : g.add id previous weight = .ok (g', step))
    (hnew : id ∉ past) : g'.Bygone (past ++ step.finalized) := by
  obtain ⟨g₁, g₂, hs⟩ := add_stages h.toIsTree hadd
  have hgrown := add_grown h.toIsTree hadd
  have hanchor := hgrown.anchor
  have hline : ∀ n ∈ g.anchor :: step.finalized, n ∈ past ++ step.finalized := by
    intro n hn
    rcases List.mem_cons.1 hn with rfl | hn
    · exact List.mem_append_left _ h.anchor_mem
    · exact List.mem_append_right _ hn
  -- of the old anchor and the blocks that were finalized, the last one stays
  have honly : ∀ n ∈ g.anchor :: step.finalized, g'.Live n → n = g'.anchor := by
    intro n hn hlive
    rcases mem_dropLast_or hn with hpassed | heq
    · exact absurd hlive (hs.passed n hpassed)
    · exact heq.trans hanchor.symm
  refine ⟨hgrown.isTree, ?_, fun n hn hlive => ?_, fun node p hnode hp => ?_⟩
  · rw [hanchor]
    exact hline _ (List.getLastD_mem_cons ..)
  · rcases List.mem_append.1 hn with hn | hn
    · rcases (hgrown.live n hlive).2 with rfl | hold
      · exact absurd hn hnew
      · exact honly n (h.only_anchor n hn hold ▸ List.mem_cons_self ..) hlive
    · exact honly n (List.mem_cons_of_mem _ hn) hlive
  · by_cases hempty : step.finalized = []
    · rw [hempty, List.getLastD_nil] at hanchor
      rw [hanchor] at hnode ⊢
      have hne : id ≠ g.anchor := fun heq => hnew (heq ▸ h.anchor_mem)
      obtain ⟨old, hold, hsame⟩ := hs.previous_eq hnode hne
      obtain ⟨hpast, hpa⟩ := h.behind old p hold (hsame.trans hp)
      exact ⟨List.mem_append_left _ hpast, hpa⟩
    · obtain ⟨q, hq, hbelow⟩ := hs.moved.path.last_below hempty
      rw [hs.anchor₂] at hq hbelow
      rw [← hanchor] at hbelow
      have hne := hs.tree₂.ne_of_under hbelow
      obtain ⟨-, node₂, hnode₂, hprev⟩ := hbelow
      rw [hs.nodes₂ hnode, Option.some.injEq] at hnode₂
      rw [← hnode₂, hp, Option.some.injEq] at hprev
      subst hprev
      exact ⟨hline _ (List.dropLast_subset _ hq), Ne.symm hne⟩

/-- No call that succeeds adds a block of the past, to which the finalized blocks come as they
are finalized. -/
def NeverAgain (g : ForkGraph) (past : List BlockId) : List Call → Prop
  | [] => True
  | c :: rest =>
    match g.add c.id c.previous c.weight with
    | .ok (g', step) => c.id ∉ past ∧ NeverAgain g' (past ++ step.finalized) rest
    | .error _ => NeverAgain g past rest

instance NeverAgain.decidable : ∀ (calls : List Call) (g : ForkGraph) (past : List BlockId),
    Decidable (NeverAgain g past calls)
  | [], _, _ => isTrue trivial
  | c :: rest, g, past =>
    match hadd : g.add c.id c.previous c.weight with
    | .ok (g', step) =>
      have := NeverAgain.decidable rest g' (past ++ step.finalized)
      decidable_of_iff (c.id ∉ past ∧ NeverAgain g' (past ++ step.finalized) rest)
        (by rw [NeverAgain, hadd])
    | .error _ =>
      have := NeverAgain.decidable rest g past
      decidable_of_iff (NeverAgain g past rest) (by rw [NeverAgain, hadd])

theorem Bygone.calls : ∀ (calls : List Call) {t : Tally} {past : List BlockId},
    t.graph.Bygone past → NeverAgain t.graph past calls →
      ∃ past, (calls.foldl Tally.call t).graph.Bygone past
  | [], _, past, h, _ => ⟨past, h⟩
  | c :: rest, t, past, h, hnever => by
    rw [List.foldl_cons]
    unfold NeverAgain at hnever
    cases hadd : t.graph.add c.id c.previous c.weight with
    | ok added =>
      obtain ⟨g', step⟩ := added
      have hcall : t.call c = ⟨g', Function.update t.increment c.id c.weight⟩ := by
        simp only [Tally.call, hadd]
      rw [hadd] at hnever
      rw [hcall]
      exact Bygone.calls rest (h.add hadd hnever.1) hnever.2
    | error e =>
      have hcall : t.call c = t := by
        simp only [Tally.call, hadd]
      rw [hadd] at hnever
      rw [hcall]
      exact Bygone.calls rest h hnever

/-- Where no block of the past is added again, the past is gone but for the anchor. -/
theorem bygone_after (h : create genesis W keep = .ok g) {calls : List Call}
    (hnever : NeverAgain g [genesis] calls) : ∃ past, (Tally.after g calls).graph.Bygone past :=
  Bygone.calls calls (bygone_create h) hnever

end ForkGraph

end ShardLedger
