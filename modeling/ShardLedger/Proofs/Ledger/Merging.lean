import ShardLedger.Proofs.Ledger.Lanes

/-!
# Chains merge and leave

Two leaves are folded into their parent: they leave the tree, and on the board their lanes retire.
Once a merged chain has nothing left to deliver it is removed, and its lane closes.

- `Ledger.Retires`: what stages do that deliver nothing.
- `Ledger.mergeIdle_retires`, `Ledger.removeDrained_retires`.
-/

namespace ShardLedger

/-- What a leaf is once it has been merged into its parent. -/
def Chain.merged (c : Chain) : Chain := { c.retire with content := .empty }

@[simp] theorem Chain.merged_id (c : Chain) : c.merged.id = c.id := rfl

namespace Ledger

variable {seen : List Block} {l l' l'' : Ledger} {id : ChainId}

/-- The ledger stays arranged, and on the board lanes retire or close. -/
structure Retires (seen : List Block) (l l' : Ledger) : Prop where
  arranged : l'.Arranged seen
  linearizer : l'.linearizer = l.linearizer
  spawned : l'.roster.spawned = l.roster.spawned
  steps : ∀ fin del, Board.Steps seen ⟨l.lanes, fin, del⟩ ⟨l'.lanes, fin, del⟩

theorem Retires.refl (h : l.Arranged seen) : Retires seen l l :=
  ⟨h, rfl, rfl, fun _ _ => .refl⟩

theorem Retires.trans (h₁ : Retires seen l l') (h₂ : Retires seen l' l'') :
    Retires seen l l'' :=
  ⟨h₂.arranged, h₂.linearizer.trans h₁.linearizer, h₂.spawned.trans h₁.spawned,
    fun fin del => (h₁.steps fin del).trans (h₂.steps fin del)⟩

/-! ### Merging -/

/-- What a merge of two leaves makes of a ledger. -/
def fold (l : Ledger) (id : ChainId) (parent left right : Chain) : Ledger :=
  { l with
    root := Branch.replace (.leaf { parent with
      content := (parent.content.absorb [left.content, right.content]).1 }) id.path l.root
    retired := l.retired ++ [left.merged, right.merged]
    leaving := l.leaving ++ [left.id, right.id] }

theorem mergeAt?_eq_some {rules : Rules} (h : l.mergeAt? rules id = some l') :
    ∃ c lc rc, l.root.at? id.path = some (.split c (.leaf lc) (.leaf rc)) ∧
      l' = l.fold id c lc rc := by
  unfold mergeAt? at h
  obtain ⟨b, hb, h⟩ := Option.bind_eq_some_iff.1 h
  obtain ⟨⟨parent, left, right⟩, hloads, h⟩ := Option.bind_eq_some_iff.1 h
  unfold Branch.mergeLoads? at hloads
  split at hloads
  · rename_i c lc rc _
    dsimp only at h
    split at h
    · refine ⟨c, lc, rc, hb, ?_⟩
      exact (Option.some.inj h).symm
    · cases h
  · cases hloads

section Fold

variable {c lc rc : Chain}

/-- The places of a split chain and of its two leaves. -/
structure Folds (l : Ledger) (id : ChainId) (c lc rc : Chain) : Prop where
  at?_eq : l.root.at? id.path = some (.split c (.leaf lc) (.leaf rc))
  left_live : l.root.chainAt (id.path ++ [.left]) = some lc
  right_live : l.root.chainAt (id.path ++ [.right]) = some rc
  top_path : c.id.path = id.path
  left_path : lc.id.path = id.path ++ [.left]
  right_path : rc.id.path = id.path ++ [.right]
  left_pos : 0 < lc.id.number
  right_pos : 0 < rc.id.number

theorem Arranged.folds (h : l.Arranged seen)
    (hat : l.root.at? id.path = some (.split c (.leaf lc) (.leaf rc))) : Folds l id c lc rc := by
  have hl : l.root.chainAt (id.path ++ [.left]) = some lc :=
    (Branch.chainAt_append hat _).trans rfl
  have hr : l.root.chainAt (id.path ++ [.right]) = some rc :=
    (Branch.chainAt_append hat _).trans rfl
  exact
    { at?_eq := hat, left_live := hl, right_live := hr
      top_path := h.numbered.path_eq (chainAt_of_at? hat)
      left_path := h.numbered.path_eq hl, right_path := h.numbered.path_eq hr
      left_pos := h.numbered.pos Nat.one_pos hl
      right_pos := h.numbered.pos Nat.one_pos hr }

/-- Below the merged chain nothing is left. -/
theorem Folds.chainAt_below (hf : Folds l id c lc rc) {s : List Side} (hs : s ≠ []) :
    (l.fold id c lc rc).root.chainAt (id.path ++ s) = none := by
  show Branch.chainAt (Branch.replace _ id.path l.root) _ = none
  rw [Branch.chainAt_replace_on hf.at?_eq]
  exact Branch.chainAt_leaf hs

theorem Folds.chainAt_off {p : List Side} (hp : ¬id.path <+: p) :
    (l.fold id c lc rc).root.chainAt p = l.root.chainAt p :=
  Branch.chainAt_replace_off hp

theorem Folds.bareAt_top (hf : Folds l id c lc rc) :
    (l.fold id c lc rc).root.bareAt id.path = l.root.bareAt id.path := by
  unfold Branch.bareAt
  have hold := Branch.chainAt_append hf.at?_eq []
  have hnew : (l.fold id c lc rc).root.chainAt (id.path ++ []) = _ :=
    Branch.chainAt_replace_on hf.at?_eq []
  rw [List.append_nil] at hold hnew
  rw [hold, hnew]
  rfl

/-- Every live chain is as it was, content apart. -/
theorem Folds.live (hf : Folds l id c lc rc) {p : List Side} {e : Chain}
    (he : (l.fold id c lc rc).root.chainAt p = some e) :
    ∃ e₀, l.root.chainAt p = some e₀ ∧ e.bare = e₀.bare := by
  by_cases hp : id.path <+: p
  · obtain ⟨s, rfl⟩ := hp
    by_cases hs : s = []
    · rw [hs, List.append_nil] at he ⊢
      have hbare := Branch.bareAt_eq_some.2 ⟨e, he, rfl⟩
      rw [hf.bareAt_top] at hbare
      obtain ⟨e₀, he₀, heq⟩ := Branch.bareAt_eq_some.1 hbare
      exact ⟨e₀, he₀, heq.symm⟩
    · rw [hf.chainAt_below hs] at he
      cases he
  · rw [Folds.chainAt_off hp] at he
    exact ⟨e, he, rfl⟩

/-- Every chain that was live still is, but for the two leaves. -/
theorem Folds.still_live (hf : Folds l id c lc rc) {p : List Side}
    (hl : p ≠ id.path ++ [.left]) (hr : p ≠ id.path ++ [.right]) :
    (l.fold id c lc rc).root.bareAt p = l.root.bareAt p := by
  by_cases hp : id.path <+: p
  · obtain ⟨s, rfl⟩ := hp
    by_cases hs : s = []
    · rw [hs, List.append_nil]
      exact hf.bareAt_top
    · rw [bareAt_append hf.at?_eq, Branch.bareAt_eq_none.2 (hf.chainAt_below hs)]
      -- the two leaves were all that was below the chain
      cases s with
      | nil => exact absurd rfl hs
      | cons side s =>
        cases side with
        | left =>
          cases s with
          | nil => exact absurd rfl hl
          | cons => rfl
        | right =>
          cases s with
          | nil => exact absurd rfl hr
          | cons => rfl
  · unfold Branch.bareAt
    rw [Folds.chainAt_off hp]

theorem Folds.left_ne_right (hf : Folds l id c lc rc) : lc.id ≠ rc.id := by
  intro heq
  have := hf.left_path
  rw [heq, hf.right_path, List.append_cancel_left_eq] at this
  cases this

/-- The leaves are no retired chains yet. -/
theorem Folds.not_retired (h : l.Arranged seen) (hf : Folds l id c lc rc) :
    ∀ e ∈ l.retired, e.id ≠ lc.id ∧ e.id ≠ rc.id := fun e he =>
  ⟨h.not_retired (hf.left_path ▸ hf.left_live) e he,
    h.not_retired (hf.right_path ▸ hf.right_live) e he⟩

/-- A merged chain is found among the retired ones. -/
theorem Folds.chain?_left (h : l.Arranged seen) (hf : Folds l id c lc rc) :
    (l.fold id c lc rc).chain? lc.id = some lc.merged := by
  rw [chain?_eq, hf.left_path, hf.chainAt_below (List.cons_ne_nil _ _)]
  dsimp only [fold]
  have hnone : l.retired.find? (·.id = lc.id) = none :=
    List.find?_eq_none.2 fun e he heq => (hf.not_retired h e he).1 (of_decide_eq_true heq)
  rw [List.find?_append, hnone, Option.none_or, List.find?_cons_of_pos (by simp)]

theorem Folds.chain?_right (h : l.Arranged seen) (hf : Folds l id c lc rc) :
    (l.fold id c lc rc).chain? rc.id = some rc.merged := by
  rw [chain?_eq, hf.right_path, hf.chainAt_below (List.cons_ne_nil _ _)]
  dsimp only [fold]
  have hnone : l.retired.find? (·.id = rc.id) = none :=
    List.find?_eq_none.2 fun e he heq => (hf.not_retired h e he).2 (of_decide_eq_true heq)
  rw [List.find?_append, hnone, Option.none_or,
    List.find?_cons_of_neg (by simp [hf.left_ne_right]),
    List.find?_cons_of_pos (by simp)]

theorem Folds.chain?_other (hf : Folds l id c lc rc) {a : ChainId} (hpos : 0 < a.number)
    (hl : a ≠ lc.id) (hr : a ≠ rc.id) :
    ((l.fold id c lc rc).chain? a).map Chain.bare = (l.chain? a).map Chain.bare := by
  have hbare : (l.fold id c lc rc).root.bareAt a.path = l.root.bareAt a.path := by
    refine hf.still_live (fun hp => hl ?_) fun hp => hr ?_
    · exact ChainId.path_injective hpos hf.left_pos (hp.trans hf.left_path.symm)
    · exact ChainId.path_injective hpos hf.right_pos (hp.trans hf.right_path.symm)
  rw [chain?_eq, chain?_eq]
  cases hold : l.root.chainAt a.path with
  | none =>
    rw [Branch.bareAt_eq_none.2 hold, Branch.bareAt_eq_none] at hbare
    rw [hbare]
    dsimp only [fold]
    rw [List.find?_append]
    have hnone : [lc.merged, rc.merged].find? (·.id = a) = none := by
      rw [List.find?_cons_of_neg (by simp [Ne.symm hl]),
        List.find?_cons_of_neg (by simp [Ne.symm hr]), List.find?_nil]
    rw [hnone, Option.or_none]
  | some e =>
    rw [Branch.bareAt_eq_some.2 ⟨e, hold, rfl⟩, Branch.bareAt_eq_some] at hbare
    obtain ⟨e', he', heq⟩ := hbare
    rw [he']
    exact congrArg some heq

/-- A retired chain was retired before, or is one of the leaves. -/
theorem Folds.retired_cases {e : Chain} (he : e ∈ (l.fold id c lc rc).retired) :
    e ∈ l.retired ∨ (e.retired = true ∧ e.id = lc.id) ∨ (e.retired = true ∧ e.id = rc.id) := by
  rcases List.mem_append.1 he with he | he
  · exact Or.inl he
  · rcases List.mem_cons.1 he with rfl | he
    · exact Or.inr (Or.inl ⟨rfl, rfl⟩)
    · rw [List.mem_singleton.1 he]
      exact Or.inr (Or.inr ⟨rfl, rfl⟩)

theorem Folds.retired_nodup (h : l.Arranged seen) (hf : Folds l id c lc rc) :
    ((l.fold id c lc rc).retired.map (·.id)).Nodup := by
  show ((l.retired ++ [lc.merged, rc.merged]).map (·.id)).Nodup
  rw [List.map_append]
  show (_ ++ [lc.id, rc.id]).Nodup
  refine List.nodup_append.2 ⟨h.retired_nodup, ?_, ?_⟩
  · exact List.nodup_cons.2 ⟨fun hm => hf.left_ne_right (List.mem_singleton.1 hm),
      List.nodup_singleton _⟩
  · rintro a ha a' ha' rfl
    obtain ⟨e, he, rfl⟩ := List.mem_map.1 ha
    obtain ⟨hl, hr⟩ := hf.not_retired h e he
    rcases List.mem_cons.1 ha' with heq | ha'
    · exact hl heq
    · exact hr (List.mem_singleton.1 ha')

/-- The chains of the order are found, the merged ones among them. -/
theorem Folds.exists_chain (h : l.Arranged seen) (hf : Folds l id c lc rc) {a : ChainId}
    (ha : a ∈ l.order) : 0 < a.number ∧ ∃ e, (l.fold id c lc rc).chain? a = some e := by
  obtain ⟨hpos, e, he⟩ := h.mem_order a ha
  refine ⟨hpos, ?_⟩
  by_cases hl : a = lc.id
  · exact ⟨_, hl ▸ hf.chain?_left h⟩
  · by_cases hr : a = rc.id
    · exact ⟨_, hr ▸ hf.chain?_right h⟩
    · have hsame := hf.chain?_other hpos hl hr
      rw [he] at hsame
      obtain ⟨e', he', -⟩ := Option.map_eq_some_iff.1 hsame
      exact ⟨e', he'⟩

/-- A merge keeps a ledger arranged. -/
theorem Arranged.fold (h : l.Arranged seen) (hf : Folds l id c lc rc) :
    (l.fold id c lc rc).Arranged seen := by
  refine
    { numbered := fun p e he => ?_, running := fun p e he => ?_, halted := fun e he => ?_
      retired_nodup := hf.retired_nodup h, order_nodup := h.order_nodup
      mem_order := fun a ha => hf.exists_chain h ha, live_mem := fun p e he => ?_
      retired_mem := fun e he => ?_, occupied := h.occupied, leaving := ?_
      root_registered := h.root_registered }
  · obtain ⟨e₀, he₀, heq⟩ := hf.live he
    rw [Chain.id_of_bare heq]
    exact h.numbered p e₀ he₀
  · obtain ⟨e₀, he₀, heq⟩ := hf.live he
    obtain ⟨top, hrun⟩ := h.running p e₀ he₀
    exact ⟨top, hrun.of_bare heq⟩
  · -- where a chain retired earlier, a merge brings none to life
    rcases Folds.retired_cases he with hold | ⟨hret, hid⟩ | ⟨hret, hid⟩
    · obtain ⟨hret, hpos, hnone⟩ := h.halted e hold
      refine ⟨hret, hpos, ?_⟩
      cases hnew : (l.fold id c lc rc).root.chainAt e.id.path with
      | none => rfl
      | some e' =>
        obtain ⟨e₀, he₀, -⟩ := hf.live hnew
        rw [hnone] at he₀
        cases he₀
    · rw [hid, hf.left_path]
      exact ⟨hret, hf.left_pos, hf.chainAt_below (List.cons_ne_nil _ _)⟩
    · rw [hid, hf.right_path]
      exact ⟨hret, hf.right_pos, hf.chainAt_below (List.cons_ne_nil _ _)⟩
  · obtain ⟨e₀, he₀, heq⟩ := hf.live he
    rw [Chain.id_of_bare heq]
    exact h.live_mem p e₀ he₀
  · rcases Folds.retired_cases he with hold | ⟨-, hid⟩ | ⟨-, hid⟩
    · exact h.retired_mem e hold
    · exact hid ▸ h.live_mem _ _ hf.left_live
    · exact hid ▸ h.live_mem _ _ hf.right_live
  · show l.leaving ++ [lc.id, rc.id] = (l.retired ++ [_, _]).map _
    rw [List.map_append, h.leaving]
    rfl

end Fold

/-- A lane retires in its place. -/
theorem rows_retire {order : List ChainId} (hnodup : order.Nodup) (hid : id ∈ order)
    {view view' : ChainId → Option Lane} {lane : Lane} (hview : view id = some lane)
    (hview' : view' id = some { lane with anchor? := none })
    (hsame : ∀ a ∈ order, a ≠ id → view' a = view a) (fin del : List (ChainId × Block)) :
    Board.Steps seen ⟨order.filterMap view, fin, del⟩ ⟨order.filterMap view', fin, del⟩ := by
  obtain ⟨pre, post, hsplit⟩ := rows_split hnodup hid view
  rw [hsplit view fun _ _ _ => rfl, hsplit view' hsame, hview, hview']
  exact .single Board.Step.retire

/-- A merge retires two lanes. -/
theorem mergeAt?_retires {rules : Rules} (h : l.Arranged seen)
    (hm : l.mergeAt? rules id = some l') : Retires seen l l' := by
  obtain ⟨c, lc, rc, hat, rfl⟩ := mergeAt?_eq_some hm
  have hf := h.folds hat
  refine ⟨h.fold hf, rfl, rfl, fun fin del => ?_⟩
  have hleft := h.live_mem _ _ hf.left_live
  have hright := h.live_mem _ _ hf.right_live
  have hview : ∀ {e : Chain} {p : List Side}, l.root.chainAt p = some e → e.id.path = p →
      l.laneAt e.id = some (Lane.of e) := by
    intro e p he hp
    unfold laneAt
    rw [chain?_live (hp ▸ he)]
    rfl
  have hother : ∀ a ∈ l.order, a ≠ lc.id → a ≠ rc.id →
      (l.fold id c lc rc).laneAt a = l.laneAt a := fun a ha hl hr =>
    laneAt_of_bare (hf.chain?_other (h.mem_order a ha).1 hl hr)
  -- the left leaf retires first, then the right one
  have hfirst : ∀ a, a ≠ lc.id →
      (fun a => if a = lc.id then some { Lane.of lc with anchor? := none } else l.laneAt a) a =
        l.laneAt a := fun a ha => if_neg ha
  refine .trans (rows_retire h.order_nodup hleft (hview hf.left_live hf.left_path)
    (if_pos rfl) (fun a _ ha => hfirst a ha) fin del)
    (rows_retire h.order_nodup hright (?_ : _ = some (Lane.of rc)) ?_ (fun a ha hr => ?_) fin del)
  · rw [if_neg (Ne.symm hf.left_ne_right)]
    exact hview hf.right_live hf.right_path
  · show ((l.fold id c lc rc).chain? rc.id).map Lane.of = _
    rw [hf.chain?_right h]
    rfl
  · by_cases hl : a = lc.id
    · rw [if_pos hl, hl]
      show ((l.fold id c lc rc).chain? lc.id).map Lane.of = _
      rw [hf.chain?_left h]
      rfl
    · rw [if_neg hl]
      exact hother a ha hl hr

section Closed

variable {P : Ledger → Prop} {rules : Rules}

theorem mergeRound_closed (hstep : ∀ l id l', P l → l.mergeAt? rules id = some l' → P l') :
    ∀ (ids : List ChainId) (active : UInt64) {l : Ledger}, P l →
      P (mergeRound rules ids active l).ledger
  | [], _, _, h => h
  | id :: rest, active, l, h => by
    unfold mergeRound
    split
    · exact h
    · split
      · exact mergeRound_closed hstep rest active h
      · rename_i l' hm
        exact mergeRound_closed hstep rest (active - 2) (hstep l id l' h hm)

theorem mergeRounds_closed (hstep : ∀ l id l', P l → l.mergeAt? rules id = some l' → P l') :
    ∀ (fuel : Nat) {l : Ledger}, P l → P (mergeRounds rules fuel l).1
  | 0, _, h => h
  | fuel + 1, l, h => by
    have hround := mergeRound_closed hstep l.registered (UInt64.ofNat l.activeCount) h
    unfold mergeRounds
    dsimp only
    split
    · exact hround
    · exact mergeRounds_closed hstep fuel hround

/-- What every merge keeps, the merges of a pass keep. -/
theorem mergeIdle_closed (hstep : ∀ l id l', P l → l.mergeAt? rules id = some l' → P l')
    (h : P l) : P (l.mergeIdle rules).1 := mergeRounds_closed hstep _ h

end Closed

/-- The merges of a pass. -/
theorem mergeIdle_retires (rules : Rules) (h : l.Arranged seen) :
    Retires seen l (l.mergeIdle rules).1 :=
  mergeIdle_closed (P := Retires seen l)
    (fun _ _ _ hr hm => hr.trans (mergeAt?_retires hr.arranged hm)) (.refl h)

/-! ### Removing -/

section Remove

variable {c : Chain}

/-- Removing a merged chain changes no other chain. -/
theorem chain?_remove {a : ChainId} (ha : a ≠ id) : (l.remove id).chain? a = l.chain? a := by
  have hfind : ∀ cs : List Chain,
      (cs.filter fun e : Chain => e.id ≠ id).find? (·.id = a) = cs.find? (·.id = a) := by
    intro cs
    rw [List.find?_filter]
    congr 1
    refine funext fun e : Chain => ?_
    by_cases he : e.id = a
    · simp [he, ha]
    · simp [he]
  rw [chain?_eq, chain?_eq]
  dsimp only [remove]
  rw [hfind]

theorem order_remove (hid : id ∈ l.registered) : (l.remove id).order = l.order.erase id :=
  (List.erase_append_left _ hid).symm

theorem Arranged.remove (h : l.Arranged seen) (hregistered : id ∈ l.registered)
    (hc : c ∈ l.retired) (hid : c.id = id) : (l.remove id).Arranged seen := by
  have horder : (l.remove id).order = l.order.erase id := order_remove hregistered
  have hmem : ∀ {a}, a ∈ l.order.erase id → a ≠ id ∧ a ∈ l.order := fun ha =>
    (List.Nodup.mem_erase_iff h.order_nodup).1 ha
  have hback : ∀ {a}, a ≠ id → a ∈ l.order → a ∈ (l.remove id).order := fun hne ha =>
    horder ▸ (List.Nodup.mem_erase_iff h.order_nodup).2 ⟨hne, ha⟩
  -- no live chain has the number of the one that goes, the root in particular
  have hlive : ∀ p e, l.root.chainAt p = some e → e.id ≠ id := by
    intro p e he heq
    have hnone := (h.halted c hc).2.2
    rw [hid, ← heq, h.numbered.path_eq he, he] at hnone
    cases hnone
  have hroot : ChainId.root ≠ id := by
    intro heq
    refine hlive [] l.root.chain (Branch.chainAt_nil _) (heq ▸ ChainId.eq_of_number ?_)
    exact h.numbered [] _ (Branch.chainAt_nil _)
  refine
    { numbered := h.numbered, running := h.running
      halted := fun e he => h.halted e (List.mem_filter.1 he).1
      retired_nodup := ?_, order_nodup := ?_, mem_order := fun a ha => ?_
      live_mem := fun p e he => hback (hlive p e he) (h.live_mem p e he)
      retired_mem := fun e he => ?_, occupied := fun a ha => ?_, leaving := ?_
      root_registered := ?_ }
  · exact h.retired_nodup.sublist (List.filter_sublist.map _)
  · rw [horder]
    exact h.order_nodup.erase id
  · rw [horder] at ha
    obtain ⟨hne, ha⟩ := hmem ha
    rw [chain?_remove hne]
    exact h.mem_order a ha
  · obtain ⟨he, hne⟩ := List.mem_filter.1 he
    exact hback (by simpa using hne) (h.retired_mem e he)
  · rw [horder] at ha
    obtain ⟨hne, ha⟩ := hmem ha
    show a ∈ l.roster.occupied.erase id
    exact (List.mem_erase_of_ne hne).2 (h.occupied a ha)
  · show l.leaving.erase id = (l.retired.filter fun e : Chain => e.id ≠ id).map (·.id)
    rw [h.leaving, List.Nodup.erase_eq_filter h.retired_nodup, List.filter_map]
    congr 1
    refine List.filter_congr fun e _ => ?_
    by_cases he : e.id = id <;> simp [he]
  · exact (List.mem_erase_of_ne hroot).2 h.root_registered

/-- The lane of a drained chain closes. -/
theorem remove_retires (h : l.Arranged seen) (hregistered : id ∈ l.registered)
    (hc : c ∈ l.retired) (hid : c.id = id) (hq : c.undelivered = []) :
    Retires seen l (l.remove id) := by
  refine ⟨h.remove hregistered hc hid, rfl, rfl, fun fin del => ?_⟩
  have hmem : id ∈ l.order := hid ▸ h.retired_mem c hc
  obtain ⟨before, after, heq⟩ := List.append_of_mem hmem
  have hnodup := h.order_nodup
  rw [heq] at hnodup
  obtain ⟨-, hafter, hdisj⟩ := List.nodup_append.1 hnodup
  have hbefore : id ∉ before := fun hm => hdisj id hm id (List.mem_cons_self ..) rfl
  have hrest : (l.remove id).order = before ++ after := by
    rw [order_remove hregistered, heq, List.erase_append_right _ hbefore, List.erase_cons_head]
  have hchain : l.chain? id = some c :=
    (h.chain?_iff (h.mem_order id hmem).1).2 (Or.inr ⟨hc, hid⟩)
  have hlane : Lane.of c = ⟨id, none, []⟩ := by
    unfold Lane.of
    rw [if_pos (h.halted c hc).1, hq, hid]
  -- all other lanes keep their places
  have hsame : ∀ xs : List ChainId, id ∉ xs →
      xs.filterMap (l.remove id).laneAt = xs.filterMap l.laneAt := by
    intro xs hxs
    refine List.filterMap_congr fun a ha => ?_
    unfold laneAt
    rw [chain?_remove fun heq : a = id => hxs (heq ▸ ha)]
  have hold :
      l.lanes = before.filterMap l.laneAt ++ ⟨id, none, []⟩ :: after.filterMap l.laneAt := by
    show l.order.filterMap l.laneAt = _
    have hview : l.laneAt id = some ⟨id, none, []⟩ := by
      unfold laneAt
      rw [hchain, Option.map_some, hlane]
    rw [heq, List.filterMap_append, List.filterMap_cons_some hview]
  have hnew : (l.remove id).lanes = before.filterMap l.laneAt ++ after.filterMap l.laneAt := by
    show (l.remove id).order.filterMap (l.remove id).laneAt = _
    rw [hrest, List.filterMap_append, hsame _ hbefore, hsame _ (List.nodup_cons.1 hafter).1]
  rw [hold, hnew]
  exact .single .close

theorem removeAll_retires : ∀ (ids : List ChainId) {l : Ledger}, l.Arranged seen →
    ids.Nodup → (∀ id ∈ ids, id ∈ l.registered ∧
      ∃ c ∈ l.retired, c.id = id ∧ c.undelivered = []) →
    Retires seen l (ids.foldl remove l)
  | [], _, h, _, _ => .refl h
  | id :: rest, l, h, hnodup, hdrained => by
    obtain ⟨hid, hnodup⟩ := List.nodup_cons.1 hnodup
    obtain ⟨hregistered, c, hc, hcid, hq⟩ := hdrained id (List.mem_cons_self ..)
    -- one removal, and the rest from what it leaves, where the other chains are as drained
    have hfirst := remove_retires h hregistered hc hcid hq
    refine hfirst.trans (removeAll_retires rest hfirst.arranged hnodup fun a ha => ?_)
    obtain ⟨haregistered, d, hd, hda, hq⟩ := hdrained a (List.mem_cons_of_mem _ ha)
    have hne : a ≠ id := fun heq => hid (heq ▸ ha)
    refine ⟨(List.mem_erase_of_ne hne).2 haregistered, d, List.mem_filter.2 ⟨hd, ?_⟩, hda, hq⟩
    simpa [hda] using hne

/-- A merged chain is drained if it is registered and has nothing left to deliver. -/
theorem Arranged.drained (h : l.Arranged seen) (hleaving : id ∈ l.leaving)
    (hdrained : l.isDrained id = true) : id ∈ l.registered ∧
      ∃ c ∈ l.retired, c.id = id ∧ c.undelivered = [] := by
  rw [h.leaving] at hleaving
  obtain ⟨c, hc, hcid⟩ := List.mem_map.1 hleaving
  have hmem : id ∈ l.order := hcid ▸ h.retired_mem c hc
  have hchain : l.chain? id = some c :=
    (h.chain?_iff (h.mem_order id hmem).1).2 (Or.inr ⟨hc, hcid⟩)
  obtain ⟨b, hb, hbc⟩ := Option.map_eq_some_iff.1 hchain
  unfold isDrained at hdrained
  split at hdrained
  · rename_i hregistered
    rw [hb] at hdrained
    refine ⟨hregistered, c, hc, hcid, ?_⟩
    rw [← hbc]
    simpa using hdrained
  · -- a chain that is yet to be registered stays
    rename_i hnot
    have hspawned := (List.mem_append.1 hmem).resolve_left hnot
    simp [hspawned] at hdrained

/-- The removals of a pass. -/
theorem removeDrained_retires (h : l.Arranged seen) : Retires seen l l.removeDrained.1 := by
  have hnodup : l.leaving.Nodup := h.leaving ▸ h.retired_nodup
  refine removeAll_retires _ h (hnodup.sublist List.filter_sublist) fun id hid => ?_
  obtain ⟨hleaving, hdrained⟩ := List.mem_filter.1 hid
  exact h.drained hleaving hdrained

end Remove

end Ledger

end ShardLedger
