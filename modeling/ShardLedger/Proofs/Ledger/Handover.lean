import ShardLedger.Proofs.Ledger.Custody

/-!
# Content in passes

A merge hands the content of two leaves up to their parent. Nothing else that a pass does changes
what a depot shows.

- `Ledger.mergeAt?_carries`: a merge.
- `Ledger.tick_carries`, `Ledger.settle_carries`: whole passes.
-/

namespace ShardLedger

namespace Ledger

variable {seen : List Block} {l l' : Ledger} {id : ChainId}

/-! ### Merging -/

section Fold

variable {c lc rc : Chain}

theorem Folds.parents (h : l.Arranged seen) (hf : Folds l id c lc rc) :
    lc.id.parent? = some c.id ∧ rc.id.parent? = some c.id := by
  have htop := chainAt_of_at? hf.at?_eq
  have hnum : c.id.number = ChainId.descend 1 id.path := h.numbered _ _ htop
  have hpos : 0 < c.id.number := h.numbered.pos Nat.one_pos htop
  constructor
  · refine @ChainId.parent?_of_number c.id lc.id .left hpos ?_
    rw [h.numbered _ _ hf.left_live, ChainId.descend_append, hnum]
  · refine @ChainId.parent?_of_number c.id rc.id .right hpos ?_
    rw [h.numbered _ _ hf.right_live, ChainId.descend_append, hnum]

/-- Nothing is seen below the merged chain. -/
theorem Folds.faceAt_below (hf : Folds l id c lc rc) {s : List Side} (hs : s ≠ []) :
    (l.fold id c lc rc).root.faceAt (id.path ++ s) = none := by
  unfold Branch.faceAt
  rw [hf.chainAt_below hs]
  rfl

/-- What is seen after a merge was seen before, but for the parent, which takes the content of both
leaves. -/
theorem Folds.faces_some (hf : Folds l id c lc rc) {q : ChainId} {k : Face}
    (hk : (l.fold id c lc rc).root.faces q = some k) :
    (q = c.id ∧ k = ⟨(c.content.absorb [lc.content, rc.content]).1, c.face.anchor?⟩) ∨
      l.root.faces q = some k := by
  rw [Branch.faces_eq_some] at hk
  by_cases hprefix : id.path <+: q.path
  · obtain ⟨s, hs⟩ := hprefix
    rw [← hs] at hk
    by_cases hnil : s = []
    · have htop := Branch.faceAt_replace_on hf.at?_eq (.leaf { c with
        content := (c.content.absorb [lc.content, rc.content]).1 }) []
      rw [hnil, show (l.fold id c lc rc).root.faceAt _ = _ from htop, Branch.faceAt_nil,
        Option.some.injEq, Prod.mk.injEq] at hk
      exact Or.inl ⟨hk.1.symm, hk.2.symm⟩
    · rw [hf.faceAt_below hnil] at hk
      cases hk
  · rw [show (l.fold id c lc rc).root.faceAt _ = _ from Branch.faceAt_replace_off hprefix] at hk
    exact Or.inr (Branch.faces_eq_some.2 hk)

/-- A leaf that is merged is no longer seen. -/
theorem Folds.faces_leaf (hf : Folds l id c lc rc) {e : Chain} {side : Side}
    (hlive : l.root.chainAt (id.path ++ [side]) = some e)
    (hpath : e.id.path = id.path ++ [side]) :
    l.root.faces e.id = some e.face ∧ (l.fold id c lc rc).root.faces e.id = none := by
  rw [Branch.faces_eq_some]
  unfold Branch.faces
  rw [hpath, hf.faceAt_below (List.cons_ne_nil _ _)]
  refine ⟨?_, rfl⟩
  unfold Branch.faceAt
  rw [hlive]
  rfl

theorem Folds.faces_top (hf : Folds l id c lc rc) : l.root.faces c.id = some c.face := by
  rw [Branch.faces_eq_some, hf.top_path]
  unfold Branch.faceAt
  rw [chainAt_of_at? hf.at?_eq]
  rfl

/-- Two leaves hand their content up to their parent. -/
theorem fold_carries (h : l.Arranged seen) (hf : Folds l id c lc rc) :
    Carries seen l (l.fold id c lc rc) [] := by
  refine ⟨[], rfl, fun d hd _ _ => ?_⟩
  obtain ⟨hleft, hright⟩ := hf.parents h
  obtain ⟨hleftFace, hleftEnd⟩ := hf.faces_leaf hf.left_live hf.left_path
  obtain ⟨hrightFace, hrightEnd⟩ := hf.faces_leaf hf.right_live hf.right_path
  have hkeyed := hd.depicts.keyed
  obtain ⟨d', hevolves, hdepicts, hmoored⟩ :=
    @Depicts.move seen _ (l.fold id c lc rc).root.faces d hd.depicts fun q k' hk' => by
      rcases hf.faces_some hk' with ⟨rfl, rfl⟩ | hold
      · refine ⟨(hkeyed _ _ hf.faces_top).absorb (hkeyed _ _ hleftFace)
          (hkeyed _ _ hrightFace), ⟨_, hf.faces_top, rfl⟩, ?_⟩
        rintro x ⟨item, hitem⟩
        -- an item of the parent comes from one of the three stores
        rcases ContentStore.get_absorb hitem with hitem | hitem | hitem
        · exact ⟨c.id, _, hf.faces_top, ⟨item, hitem⟩, Or.inl rfl⟩
        · exact ⟨lc.id, _, hleftFace, ⟨item, hitem⟩, Or.inr ⟨hleft, hleftEnd⟩⟩
        · exact ⟨rc.id, _, hrightFace, ⟨item, hitem⟩, Or.inr ⟨hright, hrightEnd⟩⟩
      · exact ⟨hkeyed q k' hold, ⟨k', hold, rfl⟩, fun x hx => ⟨q, k', hold, hx, Or.inl rfl⟩⟩
  refine ⟨d', hevolves, hdepicts, fun q => hmoored q (hd.moored q), fun e he x => ?_⟩
  rcases List.mem_append.1 he with he | he
  · exact hd.emptied e he x
  · rcases List.mem_cons.1 he with rfl | he
    · exact ContentStore.not_holds_empty
    · rw [List.mem_singleton.1 he]
      exact ContentStore.not_holds_empty

end Fold

theorem mergeAt?_carries {rules : Rules} (h : l.Arranged seen)
    (hm : l.mergeAt? rules id = some l') : Carries seen l l' [] := by
  obtain ⟨c, lc, rc, hat, rfl⟩ := mergeAt?_eq_some hm
  exact fold_carries h (h.folds hat)

theorem mergeIdle_carries (rules : Rules) (h : l.Arranged seen) :
    Carries seen l (l.mergeIdle rules).1 [] := by
  have hboth := @mergeIdle_closed l (fun l' => l'.Arranged seen ∧ Carries seen l l' []) rules
    (fun _ _ _ hl hm => ⟨(mergeAt?_retires hl.1 hm).arranged,
      hl.2.trans (mergeAt?_carries hl.1 hm)⟩) ⟨h, .refl seen l⟩
  exact hboth.2

/-! ### Whole passes -/

theorem setQueue_carries (s : Source) : Carries seen l (l.setQueue s) [] :=
  update_carries (f := fun c => { c with undelivered := s.queue })
    ⟨fun _ => rfl, fun _ => rfl, fun _ _ _ hx => hx⟩ s.chain

theorem setQueues_carries : ∀ (sources : List Source) {l : Ledger},
    Carries seen l (sources.foldl setQueue l) []
  | [], l => .refl seen l
  | s :: rest, _ => (setQueue_carries s).trans (setQueues_carries rest)

theorem linearize_carries : Carries seen l l.linearize.1 [] := by
  rw [(linearize_eq l).1]
  have hcount : Carries seen l { l with linearizer :=
      ⟨l.linearizer.delivered + (drainBelow l.confirmBar l.sources).1.length, l.confirmBar⟩ } [] :=
    .same fun d hd => { hd with }
  exact hcount.trans (setQueues_carries _)

theorem removeAll_carries : ∀ (ids : List ChainId) {l : Ledger},
    Carries seen l (ids.foldl remove l) []
  | [], l => .refl seen l
  | id :: rest, l => by
    have hfirst : Carries seen l (l.remove id) [] := .same fun d hd =>
      ⟨hd.depicts, hd.moored, fun e he => hd.emptied e (List.mem_filter.1 he).1⟩
    exact hfirst.trans (removeAll_carries rest)

theorem tick_carries (rules : Rules) (h : l.Arranged seen) :
    Carries seen l (l.tick rules).ledger [] := by
  obtain ⟨harranged, -⟩ := registerSpawned_retires h
  have hfirst : Carries seen l l.registerSpawned.1 [] := .same fun d hd => { hd with }
  have hplaced := (hfirst.trans (mergeIdle_carries rules harranged)).trans linearize_carries
  exact hplaced.trans (removeAll_carries _)

theorem settleWithin_carries (rules : Rules) : ∀ (fuel : Nat) {l : Ledger}, l.Arranged seen →
    Carries seen l (settleWithin rules fuel l).1 []
  | 0, l, _ => .refl seen l
  | fuel + 1, l, h => by
    have hfirst := tick_carries rules h
    unfold settleWithin
    dsimp only
    split
    · exact hfirst
    · exact hfirst.trans (settleWithin_carries rules fuel (tick_delivers rules h).1.arranged)

theorem settle_carries (rules : Rules) (h : l.Arranged seen) :
    Carries seen l (l.settle rules).1 [] := settleWithin_carries rules _ h

end Ledger

end ShardLedger
