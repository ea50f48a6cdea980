import Mathlib.Data.List.Nodup
import ShardLedger.Fork.Query
import ShardLedger.Proofs.Fork.Bygone

/-!
# Forward and backward queries

One query follows the previous nodes towards the anchor, the other one takes level after level of
followers away from it. They ask for the same thing from two sides: a block is so many hops ahead
of another one exactly if that is so many steps back from it.

- `ForkGraph.stepsBack`, `ForkGraph.depth`, `ForkGraph.height`: how far live nodes are from the
  anchor.
- `ForkGraph.backTrace`, `ForkGraph.aheadTrace`: the rounds of either walk.
- `ForkGraph.Deep`: a node hangs so many steps below the anchor.
- `ForkGraph.Surveyed`, `ForkGraph.surveyed_after`: what the queries answer, and after how long.
-/

namespace ShardLedger

namespace ForkGraph

variable {g : ForkGraph} {x y z p : BlockId} {m n c H : Nat} {d : Nat} {f : BlockSet}
  {past : List BlockId}

/-! ### Measures -/

/-- The node that a node leads back to in so many steps. -/
def stepsBack (g : ForkGraph) : Nat → BlockId → Option BlockId
  | 0, x => some x
  | n + 1, x => (g.nodes[x]?.bind (·.previous)).bind (g.stepsBack n)

/-- The number of steps back from a live node to the anchor. -/
def depth (g : ForkGraph) (x : BlockId) : Nat :=
  ((List.range g.nodes.size).find? fun n => g.stepsBack n x = some g.anchor).getD 0

/-- The number of levels of the tree. -/
def height (g : ForkGraph) : Nat := (g.nodes.keys.map g.depth).foldl max 0 + 1

/-- Where a walk back stands after each of its rounds. It ends with the round that finds nothing to
step to. -/
def backTrace (g : ForkGraph) : Nat → BlockId → List BlockId
  | 0, _ => []
  | n + 1, id =>
    match g.nodes[id]?.bind (·.previous) with
    | some previous => if g.contains previous then previous :: g.backTrace n previous else [id]
    | none => [id]

/-- The levels that a walk ahead comes to, one a round. It ends with the round that finds an empty
one. -/
def aheadTrace (g : ForkGraph) : Nat → BlockSet → List BlockSet
  | 0, _ => []
  | n + 1, frontier =>
    if frontier.isEmpty then []
    else g.followersOf frontier :: g.aheadTrace n (g.followersOf frontier)

theorem getLastD_backTrace (g : ForkGraph) : ∀ (n : Nat) (x : BlockId),
    (g.backTrace n x).getLastD x = g.back n x
  | 0, _ => rfl
  | n + 1, x => by
    unfold backTrace back
    cases g.nodes[x]?.bind (·.previous) with
    | none => rfl
    | some p =>
      dsimp only
      split
      · rw [List.getLastD_cons, getLastD_backTrace g n]
      · rfl

theorem getLastD_aheadTrace (g : ForkGraph) : ∀ (n : Nat) (f : BlockSet),
    (g.aheadTrace n f).getLastD f = g.ahead n f
  | 0, _ => rfl
  | n + 1, f => by
    unfold aheadTrace ahead
    split
    · rfl
    · rw [List.getLastD_cons, getLastD_aheadTrace g n]

/-- The last of some steps may be taken by itself. -/
theorem stepsBack_succ (g : ForkGraph) (n : Nat) (x : BlockId) :
    g.stepsBack (n + 1) x = (g.stepsBack n x).bind fun z => g.nodes[z]?.bind (·.previous) := by
  induction n generalizing x with
  | zero =>
    show (g.nodes[x]?.bind (·.previous)).bind some = _
    exact Option.bind_fun_some _
  | succ n ih =>
    show (g.nodes[x]?.bind (·.previous)).bind (g.stepsBack (n + 1)) =
      ((g.nodes[x]?.bind (·.previous)).bind (g.stepsBack n)).bind _
    cases g.nodes[x]?.bind (·.previous) with
    | none => rfl
    | some p => exact ih p

theorem Under.previous (hu : g.Under x p) : g.nodes[x]?.bind (·.previous) = some p := by
  obtain ⟨-, node, hn, hp⟩ := hu
  rw [hn]
  exact hp

theorem Under.stepsBack (hu : g.Under x p) : g.stepsBack (n + 1) x = g.stepsBack n p := by
  rw [ForkGraph.stepsBack, hu.previous]
  rfl

/-! ### Depths -/

/-- Node `x` hangs so many steps below the anchor. -/
inductive Deep (g : ForkGraph) : BlockId → Nat → Prop
  | anchor : Deep g g.anchor 0
  | under {x p : BlockId} {n : Nat} (hu : g.Under x p) (h : Deep g p n) : Deep g x (n + 1)

theorem Rooted.deep (hg : g.Rooted) (hx : g.Live x) : ∃ n, g.Deep x n := by
  have hd := hg.descends_anchor hx
  induction hd using Relation.ReflTransGen.head_induction_on with
  | refl => exact ⟨0, .anchor⟩
  | head hu _ ih =>
    obtain ⟨n, hn⟩ := ih (hg.above_live hu)
    exact ⟨n + 1, hn.under hu⟩

theorem Deep.live (hg : g.Rooted) (h : g.Deep x n) : g.Live x := by
  cases h with
  | anchor => exact hg.anchor_live
  | under hu _ => exact Descends.live (.single hu) (hg.above_live hu)

/-- The nodes on the way to the anchor are distinct, so there are no more steps than nodes. -/
theorem Deep.lt_size (hg : g.Rooted) (h : g.Deep x n) : n < g.nodes.size := by
  obtain ⟨height, hh⟩ := hg.grounded
  obtain ⟨way, hlength, hnodup, hway⟩ : ∃ way : List BlockId, way.length = n + 1 ∧ way.Nodup ∧
      ∀ y ∈ way, g.Live y ∧ height y ≤ height x := by
    induction h with
    | anchor =>
      refine ⟨[g.anchor], rfl, List.nodup_singleton _, fun y hy => ?_⟩
      rw [List.mem_singleton.1 hy]
      exact ⟨hg.anchor_live, Nat.le_refl _⟩
    | @under x p n hu h ih =>
      obtain ⟨way, hlength, hnodup, hway⟩ := ih
      have hlower := hh x p hu
      refine ⟨x :: way, by rw [List.length_cons, hlength], List.nodup_cons.2 ⟨fun hx => ?_, hnodup⟩,
        List.forall_mem_cons.2 ⟨⟨(h.under hu).live hg, Nat.le_refl _⟩, fun y hy => ?_⟩⟩
      · exact absurd (hway x hx).2 (Nat.not_le.2 hlower)
      · exact ⟨(hway y hy).1, Nat.le_trans (hway y hy).2 (Nat.le_of_lt hlower)⟩
  have hkeys : way ⊆ g.nodes.keys := fun y hy =>
    Std.ExtTreeMap.mem_keys.2 (Lookup.contains_iff.2 (hway y hy).1)
  have hle := hnodup.length_le_of_subset hkeys
  rw [hlength, Std.ExtTreeMap.length_keys] at hle
  exact hle

/-- The anchor is reached after so many steps, neither before nor again. -/
theorem Deep.stepsBack_iff (hg : g.Bygone past) (h : g.Deep x n) :
    g.stepsBack m x = some g.anchor ↔ m = n := by
  induction h generalizing m with
  | anchor =>
    cases m with
    | zero => exact iff_of_true rfl rfl
    | succ m =>
      refine iff_of_false (fun hm => ?_) (Nat.succ_ne_zero m)
      -- what the anchor follows is not live, and so leads no further
      obtain ⟨node, hnode⟩ := hg.anchor_live
      rw [stepsBack, hnode] at hm
      obtain ⟨p, hp, hm⟩ := Option.bind_eq_some_iff.1 hm
      obtain ⟨hne, hgone⟩ := hg.behind_gone hnode hp
      cases m with
      | zero => exact hne (Option.some.inj hm)
      | succ m =>
        obtain ⟨_, hq, -⟩ := Option.bind_eq_some_iff.1 hm
        obtain ⟨node', hnode', -⟩ := Option.bind_eq_some_iff.1 hq
        exact hgone ⟨node', hnode'⟩
  | @under x p n hu h ih =>
    cases m with
    | zero =>
      refine iff_of_false (fun hm => hu.1 (Option.some.inj hm)) (Nat.succ_ne_zero n).symm
    | succ m => rw [hu.stepsBack, ih, Nat.succ_inj]

theorem Deep.depth_eq (hg : g.Bygone past) (h : g.Deep x n) : g.depth x = n := by
  unfold depth
  rw [List.find?_range_eq_some.2 ⟨decide_eq_true ((h.stepsBack_iff hg).2 rfl),
    List.mem_range.2 (h.lt_size hg.toRooted), fun m hm => ?_⟩]
  · rfl
  · rw [Bool.not_eq_true', decide_eq_false_iff_not, h.stepsBack_iff hg]
    exact Nat.ne_of_lt hm

theorem depth_lt_height (hx : g.Live x) : g.depth x < g.height := by
  have hkey : x ∈ g.nodes.keys := Std.ExtTreeMap.mem_keys.2 (Lookup.contains_iff.2 hx)
  refine Nat.lt_succ_of_le ((foldl_max_spec (g.nodes.keys.map g.depth)).2 _ ?_)
  exact List.mem_cons_of_mem _ (List.mem_map_of_mem hkey)

/-! ### Back -/

theorem back_live : ∀ (d : Nat) {x : BlockId}, g.Live x → g.Live (g.back d x)
  | 0, _, h => h
  | d + 1, _, h => by
    unfold back
    split
    · split
      · exact back_live d (Lookup.contains_iff.1 ‹_›)
      · exact h
    · exact h

/-- A walk back from the anchor stays there. -/
theorem Bygone.previous_anchor (hg : g.Bygone past) (hp : g.nodes[g.anchor]?.bind (·.previous) =
    some p) : ¬g.contains p = true := by
  obtain ⟨node, hnode, hp⟩ := Option.bind_eq_some_iff.1 hp
  exact fun hlive => (hg.behind_gone hnode hp).2 (Lookup.contains_iff.1 hlive)

theorem Rooted.contains_of_under (hg : g.Rooted) (hu : g.Under x p) : g.contains p = true :=
  Lookup.contains_iff.2 (hg.above_live hu)

/-- A walk back ends where so many steps lead, but at the anchor at the latest. -/
theorem Deep.back (hg : g.Bygone past) (h : g.Deep x n) :
    g.stepsBack (min d n) x = some (g.back d x) := by
  induction h generalizing d with
  | anchor =>
    rw [Nat.min_zero]
    cases d with
    | zero => rfl
    | succ d =>
      unfold ForkGraph.back
      split
      · rw [if_neg (hg.previous_anchor ‹_›)]
        rfl
      · rfl
  | @under x p n hu h ih =>
    cases d with
    | zero =>
      rw [Nat.zero_min]
      rfl
    | succ d =>
      unfold ForkGraph.back
      rw [Nat.succ_min_succ, hu.stepsBack, ih, hu.previous]
      dsimp only
      rw [if_pos (hg.contains_of_under hu)]

theorem Deep.rounds (hg : g.Bygone past) (h : g.Deep x n) :
    (g.backTrace d x).length ≤ n + 1 := by
  induction h generalizing d with
  | anchor =>
    cases d with
    | zero => exact Nat.zero_le _
    | succ d =>
      unfold backTrace
      split
      · rw [if_neg (hg.previous_anchor ‹_›)]
        exact Nat.le_refl _
      · exact Nat.le_refl _
  | @under x p n hu h ih =>
    cases d with
    | zero => exact Nat.zero_le _
    | succ d =>
      unfold backTrace
      rw [hu.previous]
      dsimp only
      rw [if_pos (hg.contains_of_under hu)]
      exact Nat.succ_le_succ ih

/-! ### Ahead -/

/-- The followers of some nodes are the nodes right below them. -/
theorem Rooted.mem_followersOf (hg : g.Rooted) :
    z ∈ g.followersOf f ↔ ∃ y ∈ f, g.Under z y := by
  unfold followersOf
  rw [Std.ExtTreeSet.foldl_eq_foldl_toList]
  refine (Lookup.mem_foldl_iff (p := g.Under z) (fun found id => ?_) f.toList).trans ?_
  · split
    · rename_i node hnode
      rw [Std.ExtTreeSet.mem_union_iff, hg.mem_following id node hnode]
    · rename_i hnone
      exact (or_iff_left fun hu => (hg.not_under hnone hu).2 rfl).symm
  · simp only [Std.ExtTreeSet.mem_toList]

/-- A walk ahead comes to a node if so many steps lead back from there, within the tree. -/
theorem Deep.mem_ahead (hg : g.Bygone past) (h : g.Deep x n) :
    x ∈ g.ahead d f ↔ d ≤ n ∧ ∃ y ∈ f, g.stepsBack d x = some y := by
  induction d generalizing f with
  | zero =>
    rw [and_iff_right (Nat.zero_le n)]
    simp [ahead, stepsBack]
  | succ d ih =>
    unfold ahead
    split
    · rename_i hempty
      rw [Std.ExtTreeSet.isEmpty_iff.1 hempty]
      simp
    rw [ih]
    constructor
    · rintro ⟨hle, z, hz, hback⟩
      obtain ⟨y, hy, hu⟩ := hg.mem_followersOf.1 hz
      -- the node below another one is not the anchor
      have hne : d ≠ n := fun heq =>
        hu.1 (Option.some.inj (hback.symm.trans ((h.stepsBack_iff hg).2 heq)))
      refine ⟨by omega, y, hy, ?_⟩
      rw [stepsBack_succ, hback]
      exact hu.previous
    · rintro ⟨hle, y, hy, hback⟩
      rw [stepsBack_succ] at hback
      obtain ⟨z, hz, hback⟩ := Option.bind_eq_some_iff.1 hback
      obtain ⟨node, hnode, hprev⟩ := Option.bind_eq_some_iff.1 hback
      have hna : z ≠ g.anchor := fun heq => by
        have := (h.stepsBack_iff hg).1 (heq ▸ hz)
        omega
      exact ⟨by omega, z, hg.mem_followersOf.2 ⟨y, hy, hna, node, hnode, hprev⟩, hz⟩

theorem ahead_live (hg : g.Rooted) : ∀ (d : Nat) {f : BlockSet}, (∀ y ∈ f, g.Live y) →
    ∀ x ∈ g.ahead d f, g.Live x
  | 0, _, h => h
  | d + 1, f, h => by
    unfold ahead
    split
    · exact h
    · refine ahead_live hg d fun z hz => ?_
      obtain ⟨y, -, hu⟩ := hg.mem_followersOf.1 hz
      exact Descends.live (.single hu) (hg.above_live hu)

/-- Every round takes the walk one level down, and there are no more than `H` of them. -/
theorem Rooted.ahead_rounds (hg : g.Rooted) (hH : ∀ x n, g.Deep x n → n < H) :
    ∀ (d : Nat) {c : Nat} {f : BlockSet}, c ≤ H → (∀ x ∈ f, ∃ n, g.Deep x n ∧ c ≤ n) →
      (g.aheadTrace d f).length + c ≤ H
  | 0, c, f, hc, _ => by
    unfold aheadTrace
    rw [List.length_nil, Nat.zero_add]
    exact hc
  | d + 1, c, f, hc, hf => by
    unfold aheadTrace
    split
    · rw [List.length_nil, Nat.zero_add]
      exact hc
    · rename_i hsome
      obtain ⟨x, hx⟩ : ∃ x, x ∈ f := by
        by_contra hnone
        exact hsome (Std.ExtTreeSet.isEmpty_iff.2
          (Std.ExtTreeSet.eq_empty_iff_forall_not_mem.2 (not_exists.1 hnone)))
      obtain ⟨n, hn, hcn⟩ := hf x hx
      have hnH := hH x n hn
      have hlater := hg.ahead_rounds hH d (c := c + 1) (f := g.followersOf f) (by omega)
        fun z hz => by
          obtain ⟨y, hy, hu⟩ := hg.mem_followersOf.1 hz
          obtain ⟨n, hn, hcn⟩ := hf y hy
          exact ⟨n + 1, hn.under hu, Nat.succ_le_succ hcn⟩
      rw [List.length_cons]
      omega

/-! ### The queries -/

theorem bind_eq_ok {α β ε : Type} {v : Except ε α} {f : α → Except ε β} {b : β} :
    v >>= f = .ok b ↔ ∃ a, v = .ok a ∧ f a = .ok b := by
  cases v with
  | error e => exact ⟨fun h => (nomatch h), fun ⟨_, h, _⟩ => nomatch h⟩
  | ok a => exact ⟨fun h => ⟨a, rfl, h⟩, fun ⟨_, h, hf⟩ => Except.ok.inj h ▸ hf⟩

/-- Questions are answered one by one, and all of them or none. -/
theorem mapM_eq_ok {α β ε : Type} {f : α → Except ε β} {v : α → β} {P : α → Prop}
    (hf : ∀ a b, f a = .ok b ↔ P a ∧ v a = b) : ∀ {as : List α} {bs : List β},
      as.mapM f = .ok bs ↔ (∀ a ∈ as, P a) ∧ as.map v = bs
  | [], bs => by
    rw [List.mapM_nil]
    exact ⟨fun h => ⟨fun _ ha => (nomatch ha), Except.ok.inj h⟩, fun h => congrArg Except.ok h.2⟩
  | a :: rest, bs => by
    simp only [List.mapM_cons, bind_eq_ok, hf, mapM_eq_ok hf, List.forall_mem_cons]
    constructor
    · rintro ⟨b, ⟨ha, hb⟩, bs', ⟨hrest, hbs⟩, heq⟩
      exact ⟨⟨ha, hrest⟩, by rw [List.map_cons, hb, hbs]; exact Except.ok.inj heq⟩
    · rintro ⟨⟨ha, hrest⟩, hbs⟩
      exact ⟨v a, ⟨ha, rfl⟩, rest.map v, ⟨hrest, rfl⟩, congrArg Except.ok hbs⟩

theorem node_eq_ok {node : ForkNode} : g.node x = .ok node ↔ g.nodes[x]? = some node := by
  unfold ForkGraph.node
  cases g.nodes[x]? with
  | none => exact ⟨fun h => (nomatch h), fun h => nomatch h⟩
  | some found => exact ⟨fun h => congrArg some (Except.ok.inj h),
      fun h => congrArg Except.ok (Option.some.inj h)⟩

/-- The query ahead is answered for a live node and a distance. -/
theorem descendantsAt_eq_ok {d : Int} {found : List BlockId} : g.descendantsAt y d = .ok found ↔
    0 ≤ d ∧ g.Live y ∧ (g.ahead d.toNat ((∅ : BlockSet).insert y)).toList = found := by
  unfold descendantsAt
  by_cases hd : d < 0
  · rw [if_pos hd]
    exact ⟨fun h => (nomatch h), fun h => absurd h.1 (Int.not_le.2 hd)⟩
  · rw [if_neg hd, and_iff_right (Int.not_lt.1 hd)]
    show (g.node y >>= fun _ =>
      .ok (g.ahead d.toNat ((∅ : BlockSet).insert y)).toList) = .ok found ↔ _
    simp only [bind_eq_ok, node_eq_ok, Except.ok.injEq, exists_and_right]
    rfl

/-- The query back is answered for live nodes and a distance. -/
theorem ancestorsAt_eq_ok {d : Int} {refs found : List BlockId} :
    g.ancestorsAt refs d = .ok found ↔ 0 ≤ d ∧ (∀ x ∈ refs, g.Live x) ∧
      ((∅ : BlockSet).insertMany (refs.map (g.back d.toNat))).toList = found := by
  have hone : ∀ x y, (do
      let _ ← g.node x
      return g.back d.toNat x : Except LedgerError BlockId) = .ok y ↔
        g.Live x ∧ g.back d.toNat x = y := by
    intro x y
    show (g.node x >>= fun _ => .ok (g.back d.toNat x)) = .ok y ↔ _
    simp only [bind_eq_ok, node_eq_ok, Except.ok.injEq, exists_and_right]
    rfl
  unfold ancestorsAt
  by_cases hd : d < 0
  · rw [if_pos hd]
    exact ⟨fun h => (nomatch h), fun h => absurd h.1 (Int.not_le.2 hd)⟩
  · rw [if_neg hd, and_iff_right (Int.not_lt.1 hd)]
    refine bind_eq_ok.trans ?_
    simp only [mapM_eq_ok hone, and_assoc, exists_and_left, exists_eq_left']
    exact and_congr_right fun _ => ⟨Except.ok.inj, congrArg Except.ok⟩

theorem mem_insertMany {ids : List BlockId} : y ∈ ((∅ : BlockSet).insertMany ids).toList ↔
    y ∈ ids := by
  simp [Std.ExtTreeSet.mem_insertMany_list]

theorem ancestorsAt_singleton (hx : g.Live x) (d : Nat) :
    g.ancestorsAt [x] d = .ok [g.back d x] :=
  ancestorsAt_eq_ok.2
    ⟨Int.natCast_nonneg d, fun _ hy => List.mem_singleton.1 hy ▸ hx, rfl⟩

/-! ### Agreement -/

/-- The two queries agree on a graph, and stop in time. -/
structure Surveyed (g : ForkGraph) : Prop where
  /-- The depth of a live node is the number of steps from there to the anchor. -/
  depth_iff : ∀ x, g.Live x → ∀ n, g.stepsBack n x = some g.anchor ↔ n = g.depth x
  back : ∀ x, g.Live x → ∀ d : Nat, ∃ y,
    g.stepsBack (min d (g.depth x)) x = some y ∧ g.ancestorsAt [x] d = .ok [y]
  ahead : ∀ x y, g.Live x → g.Live y → ∀ d : Nat, ∃ found, g.descendantsAt y d = .ok found ∧
    (x ∈ found ↔ d ≤ g.depth x ∧ g.ancestorsAt [x] d = .ok [y])
  union : ∀ refs, (∀ x ∈ refs, g.Live x) → ∀ d : Nat, ∃ found, g.ancestorsAt refs d = .ok found ∧
    ∀ y, y ∈ found ↔ ∃ x ∈ refs, g.ancestorsAt [x] d = .ok [y]
  back_live : ∀ refs d found, g.ancestorsAt refs d = .ok found → ∀ y ∈ found, g.Live y
  ahead_live : ∀ y d found, g.descendantsAt y d = .ok found → ∀ x ∈ found, g.Live x
  back_rounds : ∀ x, g.Live x → ∀ d, (g.backTrace d x).getLastD x = g.back d x ∧
    (g.backTrace d x).length ≤ g.height
  ahead_rounds : ∀ y, g.Live y → ∀ d, (g.aheadTrace d ((∅ : BlockSet).insert y)).getLastD
      ((∅ : BlockSet).insert y) = g.ahead d ((∅ : BlockSet).insert y) ∧
    (g.aheadTrace d ((∅ : BlockSet).insert y)).length ≤ g.height

theorem Bygone.surveyed (hg : g.Bygone past) : g.Surveyed := by
  have hdeep : ∀ x, g.Live x → g.Deep x (g.depth x) := fun x hx => by
    obtain ⟨n, hn⟩ := hg.deep hx
    exact hn.depth_eq hg ▸ hn
  have hbound : ∀ x n, g.Deep x n → n < g.height := fun x n hn =>
    hn.depth_eq hg ▸ depth_lt_height (hn.live hg.toRooted)
  have hmem : ∀ {x y : BlockId}, x ∈ (∅ : BlockSet).insert y ↔ y = x := fun {x y} => by
    rw [Lookup.mem_insert, or_iff_left Std.ExtTreeSet.not_mem_empty]
  have hsame : ∀ {x : BlockId}, g.Live x → ∀ (d : Nat) (y : BlockId),
      g.ancestorsAt [x] d = .ok [y] ↔ g.back d x = y := fun hx d y => by
    rw [ancestorsAt_singleton hx, Except.ok.injEq, List.cons.injEq, and_iff_left rfl]
  refine
    { depth_iff := fun x hx n => (hdeep x hx).stepsBack_iff hg
      back := fun x hx d => ⟨_, (hdeep x hx).back hg, ancestorsAt_singleton hx d⟩
      ahead := fun x y hx hy d =>
        ⟨_, descendantsAt_eq_ok.2 ⟨Int.natCast_nonneg d, hy, rfl⟩, ?_⟩
      union := fun refs hrefs d =>
        ⟨_, ancestorsAt_eq_ok.2 ⟨Int.natCast_nonneg d, hrefs, rfl⟩, fun y => ?_⟩
      back_live := fun refs d found h y hy => ?_
      ahead_live := fun y d found h x hx => ?_
      back_rounds := fun x hx d => ⟨getLastD_backTrace g d x,
        Nat.le_trans ((hdeep x hx).rounds hg) (hbound x _ (hdeep x hx))⟩
      ahead_rounds := fun y hy d => ⟨getLastD_aheadTrace g d _, ?_⟩ }
  · rw [Std.ExtTreeSet.mem_toList, Int.toNat_natCast, (hdeep x hx).mem_ahead hg, hsame hx]
    refine and_congr_right fun hle => ?_
    have hback := (hdeep x hx).back hg (d := d)
    rw [Nat.min_eq_left hle] at hback
    simp only [hmem, hback, Option.some.injEq, exists_eq_left', eq_comm]
  · rw [mem_insertMany, List.mem_map]
    refine exists_congr fun x => and_congr_right fun hx => ?_
    exact (hsame (hrefs x hx) d y).symm
  · obtain ⟨-, hrefs, rfl⟩ := ancestorsAt_eq_ok.1 h
    obtain ⟨x, hx, rfl⟩ := List.mem_map.1 (mem_insertMany.1 hy)
    exact ForkGraph.back_live _ (hrefs x hx)
  · obtain ⟨-, hy, rfl⟩ := descendantsAt_eq_ok.1 h
    refine ForkGraph.ahead_live hg.toRooted _ (fun z hz => ?_) x (Std.ExtTreeSet.mem_toList.1 hx)
    exact hmem.1 hz ▸ hy
  · refine hg.toRooted.ahead_rounds hbound d (Nat.zero_le _) fun x hx => ?_
    exact ⟨_, hmem.1 hx ▸ hdeep y hy, Nat.zero_le _⟩

/-- Where no block of the past is added again, the queries agree on all that they are asked. -/
theorem surveyed_after (genesis : BlockId) (W : Nat) (keep : Bool) (g : ForkGraph)
    (h : create genesis W keep = .ok g) (calls : List Call)
    (hnever : NeverAgain g [genesis] calls) : (Tally.after g calls).graph.Surveyed := by
  obtain ⟨past, hpast⟩ := bygone_after h hnever
  exact hpast.surveyed

/-- The anchor moves on to a block that others fork from, and the genesis is not added again, for
what it should follow is unknown. -/
def sampleForking : List Call :=
  [⟨⟨1⟩, ⟨0⟩, 1⟩, ⟨⟨2⟩, ⟨1⟩, 1⟩, ⟨⟨3⟩, ⟨2⟩, 1⟩, ⟨⟨0⟩, ⟨9⟩, 1⟩, ⟨⟨4⟩, ⟨2⟩, 1⟩]

theorem sample_surveyed : ∃ g, create ⟨0⟩ 2 false = .ok g ∧
    (Tally.after g sampleForking).graph.anchor = ⟨1⟩ ∧
    (Tally.after g sampleForking).graph.depth ⟨4⟩ = 2 ∧
    (Tally.after g sampleForking).graph.height = 3 ∧
    (Tally.after g sampleForking).graph.Surveyed :=
  ⟨_, rfl, by decide +kernel, by decide +kernel, by decide +kernel,
    surveyed_after ⟨0⟩ 2 false _ rfl sampleForking (by decide +kernel)⟩

end ForkGraph

end ShardLedger
