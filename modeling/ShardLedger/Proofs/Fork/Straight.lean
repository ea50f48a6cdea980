import ShardLedger.Proofs.Fork.Turnover

/-!
# Fork graphs without a fork

Where every block is added after the priority tip, one node follows another and the tip is the only
leaf. Nothing then trails the tip that could be pruned, and the anchor moves over the first nodes of
the line for as long as the tip leads them.

- `ForkGraph.Straight`: a graph whose live nodes are one line.
- `ForkGraph.path_takeWhile`: the longest path of some nodes of a line.
- `ForkGraph.Stages.straight`: what adding a block to such a graph finalizes, and what it leaves.
-/

namespace ShardLedger

namespace ForkGraph

variable {g g' g₁ g₂ : ForkGraph} {id n m p a : BlockId} {weight M : Nat} {step : ForkStep}
  {line ns : List BlockId} {below below' : BlockId → BlockId → Prop}

/-! ### Paths -/

theorem path_append : ∀ {xs ys : List BlockId} {a : BlockId},
    Path below a (xs ++ ys) ↔ Path below a xs ∧ Path below (xs.getLastD a) ys
  | [], _, _ => (and_iff_right trivial).symm
  | x :: xs, ys, a => by
    show _ ∧ Path below x (xs ++ ys) ↔ (_ ∧ Path below x xs) ∧ _
    rw [path_append, and_assoc, List.getLastD_cons]

/-- Other edges may take the place of those that the path runs over. -/
theorem Path.imp : ∀ {ns : List BlockId} {a : BlockId}, Path below a ns →
    (∀ n ∈ ns, ∀ p, below n p → below' n p) → Path below' a ns
  | [], _, _, _ => trivial
  | n :: _, _, h, himp => ⟨himp n (List.mem_cons_self ..) _ h.1,
      h.2.imp fun m hm => himp m (List.mem_cons_of_mem _ hm)⟩

/-- Whatever the path passes has a node below it. -/
theorem Path.follower : ∀ {ns : List BlockId} {a : BlockId}, Path below a ns →
    ∀ n ∈ (a :: ns).dropLast, ∃ m, below m n
  | m :: rest, a, h, n, hn => by
    rw [List.dropLast_cons_cons] at hn
    rcases List.mem_cons.1 hn with rfl | hn
    · exact ⟨m, h.1⟩
    · exact h.2.follower n hn

/-- Down a line there is only one way to go, so the longest path over nodes of some kind ends where
the first node of another kind stands. -/
theorem path_takeWhile {kind : BlockId → Prop} [DecidablePred kind]
    (honly : ∀ n m p, below n p → below m p → n = m) :
    ∀ {line ns : List BlockId} {a : BlockId}, Path below a line →
      (∀ n, ¬below n (line.getLastD a)) → Path (fun n p => below n p ∧ kind n) a ns →
      (∀ ms, Path (fun n p => below n p ∧ kind n) a ms → ms <+: ns) →
        ns = line.takeWhile (kind ·)
  | [], [], _, _, _, _, _ => rfl
  | [], n :: _, _, _, hend, hpath, _ => absurd hpath.1.1 (hend n)
  | n :: rest, [], a, hline, _, _, hlongest => by
    have hnot : ¬kind n := fun hn =>
      List.cons_ne_nil _ _ (List.prefix_nil.1 (hlongest [n] ⟨⟨hline.1, hn⟩, trivial⟩))
    rw [List.takeWhile_cons, if_neg (by rwa [decide_eq_true_eq])]
  | n :: rest, m :: later, a, hline, hend, hpath, hlongest => by
    obtain rfl := honly m n a hpath.1.1 hline.1
    rw [List.takeWhile_cons, if_pos (decide_eq_true hpath.1.2)]
    refine congrArg (m :: ·) (path_takeWhile honly hline.2 ?_ hpath.2 fun ms hms => ?_)
    · rwa [List.getLastD_cons] at hend
    · exact (List.cons_prefix_cons.1 (hlongest (m :: ms) ⟨hpath.1, hms⟩)).2

/-! ### Straight graphs -/

/-- Node `n` is all that follows `p`. -/
def Sole (g : ForkGraph) (n p : BlockId) : Prop := ∀ m, g.Under m p ↔ m = n

/-- The live nodes are the anchor and a line of nodes after it, each of which is all that follows
the one before. The line ends with the priority tip. -/
structure Straight (g : ForkGraph) (line : List BlockId) : Prop where
  path : Path g.Sole g.anchor line
  live : ∀ n, g.Live n → n ∈ g.anchor :: line
  tip : g.priorityTip = line.getLastD g.anchor

theorem Sole.under (h : g.Sole n p) : g.Under n p := (h n).2 rfl

theorem Sole.unique (hn : g.Sole n p) (hm : g.Sole m p) : n = m := (hm n).1 hn.under

/-- Its only leaf is the priority tip. -/
theorem Straight.leaf_eq (h : g.Straight line) (hg : g.Rooted) (hleaf : g.IsLeaf n) :
    n = g.priorityTip := by
  rw [h.tip]
  refine (mem_dropLast_or (h.live n hleaf.live)).resolve_left fun hn => ?_
  obtain ⟨m, hm⟩ := h.path.follower n hn
  exact hg.not_under_leaf hleaf hm.under

theorem Straight.nodup (h : g.Straight line) (hg : g.Rooted) : (g.anchor :: line).Nodup := by
  obtain ⟨height, hh⟩ := hg.grounded
  exact ((h.path.mono fun _ _ => Sole.under).nodup hh).1

/-! ### Adding a block -/

section Stages

variable (hg : g.IsTree) (hl : g.Leading)
  (hs : Stages g g₁ g₂ g' id g.priorityTip weight step) (h : g.Straight line)
include hg hl hs h

/-- With the new leaf the line is longer by one. -/
theorem Stages.straight₁ : g₁.Straight (line ++ [id]) := by
  have hunder := hs.under₁ hg
  -- nothing followed the tip, and the new leaf is all that does now
  have hold : ∀ n p, g.Sole n p → g₁.Sole n p := by
    intro n p hn m
    rw [hunder, hn m]
    refine ⟨fun hm => hm.resolve_left fun hnew => ?_, .inr⟩
    exact hg.not_under_leaf hl.isLeaf (hnew.2 ▸ hn.under)
  have hlast : g₁.Sole id g.priorityTip := by
    intro m
    rw [hunder, and_iff_left rfl]
    exact ⟨fun hm => hm.resolve_right (hg.not_under_leaf hl.isLeaf), .inl⟩
  refine ⟨path_append.2 ⟨?_, ?_⟩, fun n hn => ?_, ?_⟩
  · rw [hs.anchor₁]
    exact h.path.mono hold
  · rw [hs.anchor₁, ← h.tip]
    exact ⟨hlast, trivial⟩
  · rw [hs.anchor₁, ← List.cons_append, List.mem_append, List.mem_singleton]
    exact ((hs.live₁ n).1 hn).elim .inr fun hn => .inl (h.live n hn)
  · obtain ⟨parent, -, rfl⟩ := hs.attached
    rw [List.getLastD_concat]
    exact if_pos (.inr rfl)

/-- Nothing is pruned, for what would go are nodes with none but dead leaves. -/
theorem Stages.pruned_eq_nil (hW : 0 < g.finalizedWeight) : step.pruned = [] := by
  refine List.eq_nil_iff_forall_not_mem.2 fun n hn => ?_
  obtain ⟨hlive, hdoomed⟩ := (hs.mem_pruned hg hl hW n).1 hn
  obtain ⟨t, hleaf, hdesc⟩ := hs.tree₁.exists_leaf hlive
  have hgap := hdoomed t (hs.tree₁.leaf_iff.2 hleaf) hdesc
  obtain rfl := (hs.straight₁ hg hl h).leaf_eq hs.tree₁.toRooted hleaf
  rw [(hs.leading₁ hl).maxTipWeight hs.tree₁] at hgap
  have hzero : g₁.weightOf g₁.priorityTip - g₁.tree.weight g₁.priorityTip = 0 := Nat.sub_self _
  omega

/-- The nodes that are finalized are the first ones of the line, up to the first that the new leaf
does not lead by the finalization weight. -/
theorem Stages.finalized_eq (hW : 0 < g.finalizedWeight) :
    step.finalized = (line ++ [id]).takeWhile fun n =>
      g.finalizedWeight ≤ g₁.weightOf id - g₁.weightOf n := by
  have h₁ := hs.straight₁ hg hl h
  have hnone := hs.pruned_eq_nil hg hl h hW
  have hrule := hs.rule hg hl hW
  have htip : g₁.priorityTip = id := by
    rw [h₁.tip, List.getLastD_concat]
  rw [(hs.leading₁ hl).maxTipWeight hs.tree₁, htip] at hrule
  have hsettles : ∀ n p, g₁.tree.Settles g.finalizedWeight (g₁.weightOf id) n p ↔
      g₁.Sole n p ∧ g.finalizedWeight ≤ g₁.weightOf id - g₁.weightOf n := by
    intro n p
    have hspared : ∀ m, ¬g₁.tree.Doomed g.finalizedWeight (g₁.weightOf id) m := fun m hm => by
      rw [← hrule.mem_pruned, hnone] at hm
      cases hm
    exact and_congr_left fun _ => forall_congr' fun m =>
      iff_congr (and_iff_left (hspared m)) Iff.rfl
  have hunique : ∀ n m p, g₁.Sole n p → g₁.Sole m p → n = m := fun _ _ _ => Sole.unique
  refine path_takeWhile hunique h₁.path (fun n hn => ?_) ?_ fun ms hms => ?_
  · rw [List.getLastD_concat, ← htip] at hn
    exact hs.tree₁.not_under_leaf (hs.leading₁ hl).isLeaf hn.under
  · exact hrule.finalized.mono fun n p => (hsettles n p).1
  · exact hrule.finalized_longest ms (hms.mono fun n p => (hsettles n p).2)

/-- The rest of the line is left. -/
theorem Stages.straight (hW : 0 < g.finalizedWeight) {rest : List BlockId}
    (hrest : line ++ [id] = step.finalized ++ rest) : g'.Straight rest := by
  have h₁ := hs.straight₁ hg hl h
  have hnone := hs.pruned_eq_nil hg hl h hW
  have hrule := hs.rule hg hl hW
  have hanchor : g'.anchor = step.finalized.getLastD g₁.anchor := hrule.anchor
  have hnodup := h₁.nodup hs.tree₁.toRooted
  have hpath := h₁.path
  rw [hrest] at hnodup hpath
  rw [← List.cons_append, List.nodup_append] at hnodup
  have hapart : ∀ n ∈ rest, n ∉ g₁.anchor :: step.finalized := fun n hn hin =>
    hnodup.2.2 n hin n hn rfl
  have hkept : ∀ n ∈ rest, g₁.Live n → g'.Live n := fun n hn hlive =>
    (hrule.live n).2 ⟨hlive, hnone ▸ List.not_mem_nil,
      fun hpassed => hapart n hn (List.dropLast_subset _ hpassed)⟩
  have hnot : ∀ n ∈ rest, n ≠ g'.anchor := fun n hn heq => hapart n hn <| by
    rw [heq, hanchor, ← List.getLast_eq_getLastD (List.cons_ne_nil _ _)]
    exact List.getLast_mem _
  refine ⟨?_, fun n hn => ?_, ?_⟩
  · rw [hanchor]
    refine (path_append.1 hpath).2.imp fun n hn p hsole m => ?_
    rw [show g'.Under m p ↔ _ from hrule.under m p, ← hsole m]
    refine ⟨fun hm => hm.2.2, fun hm => ?_⟩
    obtain rfl := (hsole m).1 hm
    obtain ⟨-, node, hnode, -⟩ := hm
    exact ⟨hkept m hn ⟨node, hnode⟩, hnot m hn, hsole.under⟩
  · obtain ⟨hlive, -, hpassed⟩ := (hrule.live n).1 hn
    have hin := h₁.live n hlive
    rw [hrest, ← List.cons_append, List.mem_append] at hin
    rw [hanchor, List.mem_cons]
    exact hin.imp_left fun hin => (mem_dropLast_or hin).resolve_left hpassed
  · obtain ⟨hsame, -⟩ := hs.isLeaf (hs.leading₁ hl).isLeaf hs.spared
    rw [hsame, h₁.tip, hrest, hanchor]
    simp [List.getLastD_eq_getLast?]

end Stages

end ForkGraph

end ShardLedger
