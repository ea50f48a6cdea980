import ShardLedger.Proofs.Content.Store

/-!
# A split undone

A split sends every item to one of three stores. Each of them lives on by itself; as long as no two
come to hold the same identity, pouring the children back leaves exactly what the three held
together, in whichever order they are poured.

- `ContentStore.Disjoint`: no identity is held by both stores.
- `ContentStore.Change`, `ContentStore.Parts.after`: what may happen to the parts in the meantime.
- `ContentStore.get_absorb_of_disjoint`: stores that share nothing are united.
- `ContentStore.separate_then_aggregate`: the items go where their route says, and come back.
-/

namespace ShardLedger

/-- The counts of a list in another order have the same sum. -/
theorem total_perm {l l' : List Nat} (h : l.Perm l') : total l = total l' := by
  induction h with
  | nil => rfl
  | cons n _ ih => rw [total, total, ih]
  | swap n m l =>
    simp only [total]
    omega
  | trans _ _ ih ih' => rw [ih, ih']

namespace ContentStore

variable {s t : ContentStore} {others : List ContentStore} {x : ContentId} {item : ContentItem}
  {c : Cursor}

/-- Two stores are equal if they hold the same items. -/
theorem ext_get (h : ∀ x : ContentId, s.items[x]? = t.items[x]?) : s = t := by
  cases s
  cases t
  congr 1
  exact Std.ExtTreeMap.ext_getElem? h

/-! ### Stores that share nothing -/

/-- No identity is held by both stores. -/
def Disjoint (s t : ContentStore) : Prop := ∀ x, s.Holds x → ¬t.Holds x

theorem Disjoint.symm (h : s.Disjoint t) : t.Disjoint s := fun x ht hs => h x hs ht

theorem mem_ids : x ∈ s.ids ↔ s.Holds x := by
  unfold ids
  rw [Std.ExtTreeMap.mem_keys, ← Std.ExtTreeMap.contains_iff_mem]
  exact contains_iff_holds

instance : Decidable (s.Disjoint t) :=
  decidable_of_iff (∀ x ∈ s.ids, x ∉ t.ids) (by simp only [mem_ids, Disjoint])

/-- Of two stores that share nothing, the union holds what either holds. -/
theorem get_union_of_disjoint (h : s.Disjoint t) :
    (mk (s.items ∪ t.items)).items[x]? = some item ↔
      s.items[x]? = some item ∨ t.items[x]? = some item := by
  show (s.items ∪ t.items)[x]? = some item ↔ _
  rw [Std.ExtTreeMap.getElem?_union, Option.or_eq_some_iff]
  constructor
  · rintro (ht | ⟨-, hs⟩)
    · exact Or.inr ht
    · exact Or.inl hs
  · rintro (hs | ht)
    · refine Or.inr ⟨?_, hs⟩
      rw [Option.eq_none_iff_forall_ne_some]
      intro found hfound
      exact h x ⟨item, hs⟩ ⟨found, hfound⟩
    · exact Or.inl ht

/-- Stores of which no two share an identity are united by pouring them together. -/
theorem get_absorb_of_disjoint (h : (s :: others).Pairwise Disjoint) :
    (s.absorb others).1.items[x]? = some item ↔
      ∃ t ∈ s :: others, t.items[x]? = some item := by
  induction others generalizing s with
  | nil => simp [absorb]
  | cons o rest ih =>
    rw [List.pairwise_cons, List.pairwise_cons] at h
    obtain ⟨hs, ho, hrest⟩ := h
    have hso : s.Disjoint o := hs o (List.mem_cons_self ..)
    -- the first store is poured in, and the rest after it
    have hunited : (mk (s.items ∪ o.items) :: rest).Pairwise Disjoint := by
      refine List.pairwise_cons.2 ⟨fun t ht x hx => ?_, hrest⟩
      obtain ⟨found, hfound⟩ := hx
      rcases (get_union_of_disjoint hso).1 hfound with hfound | hfound
      · exact hs t (List.mem_cons_of_mem _ ht) x ⟨found, hfound⟩
      · exact ho t ht x ⟨found, hfound⟩
    have hstep : s.absorb (o :: rest) =
        (((mk (s.items ∪ o.items)).absorb rest).1, (s.absorb (o :: rest)).2) := rfl
    rw [hstep, ih hunited]
    simp only [List.mem_cons, exists_eq_or_imp, get_union_of_disjoint hso, or_assoc]

/-! ### The parts of a split -/

/-- Something that happens to one of the parts of a split. -/
inductive Change where
  | submit (part : Route) (item : ContentItem)
  | delete (part : Route) (id : ContentId)
  | deleteMany (part : Route) (ids : List ContentId)
deriving DecidableEq

namespace Parts

variable {p : Parts}

/-- The part that a route leads to. -/
def part (p : Parts) : Route → ContentStore
  | .left => p.left
  | .right => p.right
  | .center => p.center

/-- One part is replaced. -/
def setPart (p : Parts) (r : Route) (s : ContentStore) : Parts :=
  match r with
  | .left => { p with left := s }
  | .right => { p with right := s }
  | .center => { p with center := s }

/-- The parts after a change. -/
def change (p : Parts) : Change → Parts
  | .submit r item => p.setPart r ((p.part r).submit item).1
  | .delete r id => p.setPart r ((p.part r).delete id).1
  | .deleteMany r ids => p.setPart r ((p.part r).deleteMany ids).1

/-- The parts after some changes, one after the other. -/
def after (p : Parts) (changes : List Change) : Parts := changes.foldl change p

/-- No identity is held by two parts. -/
def Apart (p : Parts) : Prop := [p.center, p.left, p.right].Pairwise Disjoint

instance : Decidable p.Apart := inferInstanceAs (Decidable (List.Pairwise ..))

/-- The children are poured back into the part that stayed: whatever their order, they are left
empty, all their items are counted, and the union of the three parts remains. -/
theorem Apart.aggregate (h : p.Apart) {children : List ContentStore}
    (hchildren : children.Perm [p.left, p.right]) :
    (p.center.aggregate children).2 = ([empty, empty], p.left.size + p.right.size) ∧
    ∀ (x : ContentId) (item : ContentItem),
      (p.center.aggregate children).1.items[x]? = some item ↔
        ∃ r, (p.part r).items[x]? = some item := by
  refine ⟨Prod.ext ?_ ?_, fun x item => ?_⟩
  · show children.map (fun _ => empty) = [empty, empty]
    rw [List.map_const', hchildren.length_eq]
    rfl
  · show total (children.map size) = p.left.size + p.right.size
    rw [total_perm (hchildren.map size)]
    simp only [List.map_cons, List.map_nil, total, Nat.add_zero]
  · have hperm : (p.center :: children).Perm [p.center, p.left, p.right] := hchildren.cons _
    have hany := (hperm.symm.pairwise_iff Disjoint.symm).1 h
    refine (get_absorb_of_disjoint hany).trans ?_
    simp only [hperm.mem_iff, List.mem_cons, List.not_mem_nil, or_false, exists_eq_or_imp,
      exists_eq_left]
    constructor
    · rintro (hitem | hitem | hitem)
      · exact ⟨.center, hitem⟩
      · exact ⟨.left, hitem⟩
      · exact ⟨.right, hitem⟩
    · rintro ⟨r, hitem⟩
      cases r with
      | left => exact Or.inr (Or.inl hitem)
      | right => exact Or.inr (Or.inr hitem)
      | center => exact Or.inl hitem

end Parts

/-- Each part is what the route leads to. -/
theorem part_separate (s : ContentStore) (c : Cursor) (r : Route) :
    (s.separate c).part r = s.routed c r := by
  cases r <;> rfl

theorem get_part_separate {r : Route} :
    ((s.separate c).part r).items[x]? = some item ↔
      s.items[x]? = some item ∧ item.route c = r := by
  rw [part_separate, get_routed, Option.filter_eq_some_iff, decide_eq_true_iff]

theorem separate_apart (s : ContentStore) (c : Cursor) : (s.separate c).Apart := by
  have hroutes {r r' : Route} (hne : r ≠ r') : (s.routed c r).Disjoint (s.routed c r') :=
    fun x hr hr' => hne (routed_unique hr hr')
  show [s.routed c .center, s.routed c .left, s.routed c .right].Pairwise Disjoint
  simp [hroutes]

/-- A split undone at once leaves the store as it was. -/
theorem aggregate_separate (s : ContentStore) (c : Cursor) {children : List ContentStore}
    (hchildren : children.Perm [(s.separate c).left, (s.separate c).right]) :
    ((s.separate c).center.aggregate children).1 = s := by
  refine ext_get fun x => Option.ext fun item => ?_
  rw [((separate_apart s c).aggregate hchildren).2]
  simp only [get_part_separate, exists_and_left, exists_eq', and_true]

/-- A split sends every item, unchanged, where its route says and nowhere else. Whatever then comes
into the three stores and goes out of them, if no identity is in two of them in the end, then the
children poured back in either order are left empty, as many items are counted as they held, and
their parent holds exactly what the three held. If nothing happened in between, it is the store
before the split. -/
theorem separate_then_aggregate (s : ContentStore) (c : Cursor) :
    (∀ (x : ContentId) (item : ContentItem) (r : Route),
      ((s.separate c).part r).items[x]? = some item ↔
        s.items[x]? = some item ∧ item.route c = r) ∧
    (∀ changes p children, (s.separate c).after changes = p → p.Apart →
      children.Perm [p.left, p.right] →
      (p.center.aggregate children).2 = ([empty, empty], p.left.size + p.right.size) ∧
      ∀ (x : ContentId) (item : ContentItem),
        (p.center.aggregate children).1.items[x]? = some item ↔
          ∃ r, (p.part r).items[x]? = some item) ∧
    ∀ children, children.Perm [(s.separate c).left, (s.separate c).right] →
      ((s.separate c).center.aggregate children).1 = s :=
  ⟨fun _ _ _ => get_part_separate, fun _ _ _ _ hapart hchildren => hapart.aggregate hchildren,
    fun _ hchildren => aggregate_separate s c hchildren⟩

/-- Three items, of which one goes each way where the last bit decides. -/
def sampleSplit : ContentStore :=
  let items : List ContentItem := [⟨⟨1⟩, ⟨0⟩, ⟨0⟩, 4⟩, ⟨⟨2⟩, ⟨1⟩, ⟨1⟩, 5⟩, ⟨⟨3⟩, ⟨0⟩, ⟨1⟩, 6⟩]
  items.foldl (fun s item => (s.submit item).1) empty

/-- Then an item comes in on the left, the one on the right goes, and so does the one that
stayed. -/
def sampleParts : Parts :=
  (sampleSplit.separate ⟨255, by decide⟩).after
    [.submit .left ⟨⟨4⟩, ⟨1⟩, ⟨1⟩, 7⟩, .delete .right ⟨2⟩, .deleteMany .center [⟨3⟩, ⟨9⟩]]

theorem sample_regrouped :
    (sampleParts.center.aggregate [sampleParts.right, sampleParts.left]).2 =
      ([empty, empty], 2) ∧
    ∀ (x : ContentId) (item : ContentItem),
      (sampleParts.center.aggregate [sampleParts.right, sampleParts.left]).1.items[x]? =
        some item ↔ ∃ r, (sampleParts.part r).items[x]? = some item := by
  have hsize : sampleParts.left.size + sampleParts.right.size = 2 := by decide +kernel
  rw [← hsize]
  exact (separate_then_aggregate sampleSplit ⟨255, by decide⟩).2.1 _ sampleParts _ rfl
    (by decide +kernel) (List.Perm.swap ..)

end ContentStore

end ShardLedger
