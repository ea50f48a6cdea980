import ShardLedger.Proofs.Content.Routing
import ShardLedger.Proofs.Tree.Settling

/-!
# Stores in a branch

In a sorted branch every item lies where its fingerprints lead: on the lowest chain whose turns both
of them show. Splits move items down and merges move them up, and neither loses one.

- `Branch.Sorted`: the invariant, and `Branch.Sorted.target_eq`: an item is routed to where it lies.
- `Branch.Shifts`: what a change does to the stores of a branch: some items come, some may go, and
  all others stay somewhere.
- `Branch.shifts_spawn`, `Branch.shifts_merge`, `Branch.shifts_settleAll`.
-/

namespace ShardLedger

/-- The cursor of the chain stands at its depth, and all its items are bound for its place. -/
structure Chain.Sorted (p : List Side) (c : Chain) : Prop where
  depth : c.cursor.depth = p.length
  keyed : c.content.Keyed
  bound : ∀ (x : ContentId) (item : ContentItem), c.content.items[x]? = some item →
    item.BoundFor p

/-- The items of the chain go to neither side of a split. -/
def Chain.Central (c : Chain) : Prop :=
  ∀ (x : ContentId) (item : ContentItem), c.content.items[x]? = some item →
    item.route c.cursor = .center

/-- A chain that keeps part of its items is still sorted. -/
theorem Chain.Sorted.within {p : List Side} {c : Chain} {s : ContentStore} (h : c.Sorted p)
    (hs : s.Within c.content) : ({ c with content := s } : Chain).Sorted p where
  depth := h.depth
  keyed := hs.keyed h.keyed
  bound x item hx := h.bound x item (hs x item hx)

/-- The chain keeps its cursor, and of its items it drops none but those in `gone`. -/
structure Chain.Sheds (gone : List ContentId) (c d : Chain) : Prop where
  cursor : d.cursor = c.cursor
  within : d.content.Within c.content
  holds : ∀ x, c.content.Holds x → x ∉ gone → d.content.Holds x

/-- A change that leaves cursor and content alone. -/
theorem Chain.sheds_same {c d : Chain} (hcursor : d.cursor = c.cursor)
    (hcontent : d.content = c.content) : c.Sheds [] d where
  cursor := hcursor
  within _ _ hx := hcontent ▸ hx
  holds _ hx _ := hcontent ▸ hx

theorem Chain.sheds_consume (c : Chain) (ids : List ContentId) : c.Sheds ids (c.consume ids) where
  cursor := rfl
  within := c.content.deleteMany_within ids
  holds _ hx hnot := hx.deleteMany hnot

namespace Branch

variable {b b' b'' old new l l' r r' : Branch} {c d : Chain} {p q : List Side} {x : ContentId}
  {item : ContentItem} {came came' : List ContentItem} {gone gone' : List ContentId}

/-- Every item lies on the lowest chain that both its fingerprints lead to. -/
inductive Sorted : List Side → Branch → Prop
  | leaf {p : List Side} {c : Chain} (top : c.Sorted p) : Sorted p (leaf c)
  | split {p : List Side} {c : Chain} {l r : Branch} (top : c.Sorted p) (central : c.Central)
      (left : Sorted (p ++ [.left]) l) (right : Sorted (p ++ [.right]) r) : Sorted p (split c l r)

theorem Sorted.top (h : b.Sorted p) : b.chain.Sorted p := by
  cases h with
  | leaf top => exact top
  | split top => exact top

theorem Sorted.central (h : b.Sorted p) (hsplit : b.isSplit = true) : b.chain.Central := by
  cases h with
  | leaf => cases hsplit
  | split _ central => exact central

/-- Whatever stands below in a sorted branch is sorted. -/
theorem Sorted.at? {sub : Branch} (h : b.Sorted p) (hq : b.at? q = some sub) :
    sub.Sorted (p ++ q) := by
  induction h generalizing q with
  | @leaf p c top =>
    cases q with
    | nil =>
      rw [at?_nil, Option.some.injEq] at hq
      rw [List.append_nil, ← hq]
      exact .leaf top
    | cons => cases hq
  | @split p c l r top central left right ihl ihr =>
    cases q with
    | nil =>
      rw [at?_nil, Option.some.injEq] at hq
      rw [List.append_nil, ← hq]
      exact .split top central left right
    | cons side q =>
      cases side with
      | left => simpa using ihl hq
      | right => simpa using ihr hq

theorem Sorted.chainAt (h : b.Sorted p) (hq : b.chainAt q = some c) : c.Sorted (p ++ q) := by
  obtain ⟨sub, hsub, rfl⟩ := Option.map_eq_some_iff.1 hq
  exact (h.at? hsub).top

/-- An item is routed to the chain on which it lies. -/
theorem Sorted.target_eq (h : b.Sorted p) (hq : b.chainAt q = some c)
    (hx : c.content.items[x]? = some item) : b.target item = q := by
  induction h generalizing q with
  | leaf top =>
    cases q with
    | nil => rfl
    | cons => cases hq
  | @split p d l r top central left right ihl ihr =>
    unfold target
    cases q with
    | nil =>
      rw [chainAt_nil, Option.some.injEq] at hq
      subst hq
      rw [show item.route d.cursor = .center from central x item hx]
    | cons side q =>
      -- the item is bound for the child, so the split sends it there
      have hroute : ∀ {sub : Branch}, sub.Sorted (p ++ [side]) → sub.chainAt q = some c →
          item.route d.cursor = side.route := by
        intro sub hsub hc
        have hbound := ((hsub.chainAt hc).bound x item hx).of_append
        exact ((ContentItem.boundFor_concat top.depth).1 hbound).2
      cases side with
      | left =>
        rw [hroute left hq]
        exact congrArg _ (ihl hq)
      | right =>
        rw [hroute right hq]
        exact congrArg _ (ihr hq)

/-- An item is bound for where it is routed to, and would stay there. -/
theorem Sorted.target_bound (h : b.Sorted p) (hi : item.BoundFor p) :
    item.BoundFor (p ++ b.target item) ∧ ∀ sub, b.at? (b.target item) = some sub →
      sub.isSplit = true → item.route sub.chain.cursor = .center := by
  induction h with
  | leaf top =>
    refine ⟨by simpa [target] using hi, ?_⟩
    rintro sub hsub hsplit
    obtain rfl : _ = sub := Option.some.inj ((at?_nil _).symm.trans hsub)
    cases hsplit
  | @split p d l r top central left right ihl ihr =>
    have hdown : ∀ side : Side, item.route d.cursor = side.route → item.BoundFor (p ++ [side]) :=
      fun side hroute => (ContentItem.boundFor_concat top.depth).2 ⟨hi, hroute⟩
    unfold target
    split
    · obtain ⟨hbound, hstays⟩ := ihl (hdown .left ‹_›)
      exact ⟨by simpa using hbound, hstays⟩
    · obtain ⟨hbound, hstays⟩ := ihr (hdown .right ‹_›)
      exact ⟨by simpa using hbound, hstays⟩
    · refine ⟨by simpa using hi, ?_⟩
      rintro sub hsub -
      obtain rfl : _ = sub := Option.some.inj ((at?_nil _).symm.trans hsub)
      assumption

/-! ### What is stored -/

/-- The item lies in one of the stores, under that identity. -/
def Stores (b : Branch) (x : ContentId) (item : ContentItem) : Prop :=
  ∃ q c, b.chainAt q = some c ∧ c.content.items[x]? = some item

/-- An item of that identity lies in one of the stores. -/
def Holds (b : Branch) (x : ContentId) : Prop := ∃ item, b.Stores x item

theorem stores_leaf : (leaf c).Stores x item ↔ c.content.items[x]? = some item := by
  constructor
  · rintro ⟨q, d, hq, hx⟩
    cases q with
    | nil =>
      obtain rfl : c = d := Option.some.inj hq
      exact hx
    | cons => cases hq
  · intro hx
    exact ⟨[], c, chainAt_nil _, hx⟩

theorem stores_split : (split c l r).Stores x item ↔
    c.content.items[x]? = some item ∨ l.Stores x item ∨ r.Stores x item := by
  constructor
  · rintro ⟨q, d, hq, hx⟩
    cases q with
    | nil =>
      obtain rfl : c = d := Option.some.inj hq
      exact Or.inl hx
    | cons side q =>
      cases side with
      | left => exact Or.inr (Or.inl ⟨q, d, hq, hx⟩)
      | right => exact Or.inr (Or.inr ⟨q, d, hq, hx⟩)
  · rintro (hx | ⟨q, d, hq, hx⟩ | ⟨q, d, hq, hx⟩)
    · exact ⟨[], c, chainAt_nil _, hx⟩
    · exact ⟨.left :: q, d, hq, hx⟩
    · exact ⟨.right :: q, d, hq, hx⟩

theorem holds_iff : b.Holds x ↔ ∃ q c, b.chainAt q = some c ∧ c.content.Holds x := by
  constructor
  · rintro ⟨item, q, c, hq, hx⟩
    exact ⟨q, c, hq, item, hx⟩
  · rintro ⟨q, c, hq, item, hx⟩
    exact ⟨item, q, c, hq, hx⟩

theorem holds_leaf : (leaf c).Holds x ↔ c.content.Holds x := by
  simp only [Holds, stores_leaf, ContentStore.Holds]

theorem holds_split : (split c l r).Holds x ↔ c.content.Holds x ∨ l.Holds x ∨ r.Holds x := by
  simp only [Holds, stores_split, ContentStore.Holds, exists_or]

/-! ### Changes -/

/-- A change to a branch at the end of a path: the items in `came` may come in, those in `gone` may
go, and every other item stays in one of the stores. If items lay where they belong, they do. -/
structure Shifts (p : List Side) (came : List ContentItem) (gone : List ContentId)
    (b b' : Branch) : Prop where
  sorted : b.Sorted p → b'.Sorted p
  stores : ∀ x item, b'.Stores x item → b.Stores x item ∨ (item ∈ came ∧ item.id = x)
  holds : ∀ x, b.Holds x → x ∉ gone → b'.Holds x

theorem Shifts.refl (p : List Side) (b : Branch) : Shifts p [] [] b b :=
  ⟨id, fun _ _ => Or.inl, fun _ h _ => h⟩

theorem Shifts.trans (h₁ : Shifts p came gone b b') (h₂ : Shifts p came' gone' b' b'') :
    Shifts p (came ++ came') (gone ++ gone') b b'' where
  sorted h := h₂.sorted (h₁.sorted h)
  stores x item h := by
    rcases h₂.stores x item h with h | ⟨hmem, hid⟩
    · refine (h₁.stores x item h).imp_right ?_
      rintro ⟨hmem, hid⟩
      exact ⟨List.mem_append_left _ hmem, hid⟩
    · exact Or.inr ⟨List.mem_append_right _ hmem, hid⟩
  holds x h hnot := by
    rw [List.mem_append, not_or] at hnot
    exact h₂.holds x (h₁.holds x h hnot.1) hnot.2

theorem Shifts.mono (h : Shifts p came gone b b') (hcame : came ⊆ came') (hgone : gone ⊆ gone') :
    Shifts p came' gone' b b' where
  sorted := h.sorted
  stores x item hx := (h.stores x item hx).imp_right fun hnew => ⟨hcame hnew.1, hnew.2⟩
  holds x hx hnot := h.holds x hx fun hmem => hnot (hgone hmem)

/-- A change to the left child. -/
theorem Shifts.left (h : Shifts (p ++ [.left]) came gone l l') :
    Shifts p came gone (.split c l r) (.split c l' r) where
  sorted hs := by
    cases hs with
    | split top central left right => exact .split top central (h.sorted left) right
  stores x item hx := by
    rw [stores_split] at hx ⊢
    rcases hx with hx | hx | hx
    · exact Or.inl (Or.inl hx)
    · exact (h.stores x item hx).imp_left fun hx => Or.inr (Or.inl hx)
    · exact Or.inl (Or.inr (Or.inr hx))
  holds x hx hnot := by
    rw [holds_split] at hx ⊢
    exact hx.imp_right (Or.imp_left fun hx => h.holds x hx hnot)

/-- A change to the right child. -/
theorem Shifts.right (h : Shifts (p ++ [.right]) came gone r r') :
    Shifts p came gone (.split c l r) (.split c l r') where
  sorted hs := by
    cases hs with
    | split top central left right => exact .split top central left (h.sorted right)
  stores x item hx := by
    rw [stores_split] at hx ⊢
    rcases hx with hx | hx | hx
    · exact Or.inl (Or.inl hx)
    · exact Or.inl (Or.inr (Or.inl hx))
    · exact (h.stores x item hx).imp_left fun hx => Or.inr (Or.inr hx)
  holds x hx hnot := by
    rw [holds_split] at hx ⊢
    exact hx.imp_right (Or.imp_right fun hx => h.holds x hx hnot)

/-- A change to what stands at the end of a path. -/
theorem Shifts.replace (h : Shifts (p ++ q) came gone old new) (hq : b.at? q = some old) :
    Shifts p came gone b (Branch.replace new q b) := by
  induction q generalizing p b with
  | nil =>
    rw [at?_nil, Option.some.injEq] at hq
    rw [List.append_nil] at h
    subst hq
    exact h
  | cons side q ih =>
    cases b with
    | leaf => cases hq
    | split c l r =>
      cases side with
      | left => exact .left (ih (by simpa using h) hq)
      | right => exact .right (ih (by simpa using h) hq)

/-- What a change to the topmost chain alone has to do. -/
theorem shifts_withChain (hcursor : d.cursor = b.chain.cursor)
    (hstored : ∀ x item, d.content.items[x]? = some item →
      b.chain.content.items[x]? = some item ∨ (item ∈ came ∧ item.id = x))
    (hkept : ∀ x, b.chain.content.Holds x → x ∉ gone → d.content.Holds x)
    (hbound : b.Sorted p → ∀ item ∈ came, item.BoundFor p ∧
      (b.isSplit = true → item.route b.chain.cursor = .center)) :
    Shifts p came gone b (b.withChain d) where
  sorted hs := by
    have htop : d.Sorted p := by
      refine ⟨hcursor ▸ hs.top.depth, fun x item hx => ?_, fun x item hx => ?_⟩
      · rcases hstored x item hx with hx | ⟨-, hid⟩
        · exact hs.top.keyed x item hx
        · exact hid
      · rcases hstored x item hx with hx | ⟨hmem, -⟩
        · exact hs.top.bound x item hx
        · exact (hbound hs item hmem).1
    cases hs with
    | leaf => exact .leaf htop
    | split top central left right =>
      refine .split htop (fun x item hx => ?_) left right
      rw [hcursor]
      rcases hstored x item hx with hx | ⟨hmem, -⟩
      · exact central x item hx
      · exact (hbound (.split top central left right) item hmem).2 rfl
  stores x item hx := by
    cases b with
    | leaf c =>
      simp only [withChain, stores_leaf] at hx ⊢
      exact hstored x item hx
    | split c l r =>
      simp only [withChain, stores_split] at hx ⊢
      rcases hx with hx | hx
      · exact (hstored x item hx).imp_left Or.inl
      · exact Or.inl (Or.inr hx)
  holds x hx hnot := by
    cases b with
    | leaf c =>
      simp only [withChain, holds_leaf] at hx ⊢
      exact hkept x hx hnot
    | split c l r =>
      simp only [withChain, holds_split] at hx ⊢
      exact hx.imp_left fun hx => hkept x hx hnot

/-- The topmost chain drops items. -/
theorem shifts_shed (h : b.chain.Sheds gone d) : Shifts p [] gone b (b.withChain d) :=
  shifts_withChain h.cursor (fun x item hx => Or.inl (h.within x item hx)) h.holds
    fun _ _ hmem => nomatch hmem

/-- Every chain drops items. -/
theorem shifts_map {f : Chain → Chain} (hf : ∀ c : Chain, c.Sheds gone (f c)) (p : List Side)
    (b : Branch) : Shifts p [] gone b (b.map f) := by
  induction b generalizing p with
  | leaf c => exact shifts_shed (b := .leaf c) (hf c)
  | split c l r ihl ihr =>
    have htop : Shifts p [] gone (.split c l r) (.split (f c) l r) :=
      shifts_shed (b := .split c l r) (hf c)
    have hall := (htop.trans (ihl (p ++ [.left])).left).trans (ihr (p ++ [.right])).right
    exact hall.mono (List.Subset.refl _) (by simp)

/-- An item comes in where it is bound for, if it would stay there. -/
theorem shifts_store (hbound : b.Sorted p → item.BoundFor p ∧
    (b.isSplit = true → item.route b.chain.cursor = .center)) :
    Shifts p [item] []
      b (b.withChain { b.chain with content := (b.chain.content.submit item).1 }) := by
  refine shifts_withChain rfl (fun x found hx => ?_) (fun x hx _ => hx.submit item) ?_
  · rcases ContentStore.get_submit hx with hx | ⟨rfl, hid⟩
    · exact Or.inl hx
    · exact Or.inr ⟨List.mem_singleton_self _, hid⟩
  · intro hs found hmem
    rw [List.mem_singleton] at hmem
    subst hmem
    exact hbound hs

/-- A split moves every item to the part that it goes to. -/
theorem shifts_spawn (rules : Rules) (roster : Roster) (seed : Block) (p : List Side)
    (b : Branch) : Shifts p [] [] b (b.spawn rules roster seed).1 := by
  rcases spawn_eq rules roster seed b with heq | ⟨c, rfl, hsplits⟩
  · rw [heq]
    exact .refl p b
  obtain ⟨left, right, cursor, graph, -, -, hcursor, -, -, heq⟩ := hsplits
  rw [heq]
  have hwithin := c.content.routed_within c.cursor
  refine ⟨fun hs => ?_, fun x item hx => Or.inl ?_, fun x hx _ => ?_⟩
  · have htop : c.Sorted p := hs.top
    -- a child is one bit deeper, and gets what is bound for it
    have hchild : ∀ (side : Side) (id : ChainId), (Chain.start id seed graph
        (c.content.routed c.cursor side.route) cursor).Sorted (p ++ [side]) := by
      intro side id
      refine ⟨?_, (hwithin _).keyed htop.keyed, fun x item hx => ?_⟩
      · rw [List.length_append, ← htop.depth]
        exact Cursor.deeper_depth hcursor
      · exact (ContentItem.boundFor_concat htop.depth).2
          ⟨htop.bound x item (hwithin _ x item hx), ContentStore.route_of_routed hx⟩
    refine .split (htop.within (hwithin _)) (fun x item hx => ?_) (.leaf (hchild .left left))
      (.leaf (hchild .right right))
    exact ContentStore.route_of_routed hx
  · rw [stores_split, stores_leaf, stores_leaf] at hx
    rw [stores_leaf]
    rcases hx with hx | hx | hx
    · exact hwithin _ x item hx
    · exact hwithin _ x item hx
    · exact hwithin _ x item hx
  · rw [holds_leaf] at hx
    obtain ⟨item, hx⟩ := hx
    rw [holds_split, holds_leaf, holds_leaf]
    have hself := ContentStore.get_routed_self (c := c.cursor) hx
    cases hroute : item.route c.cursor with
    | left =>
      rw [hroute] at hself
      exact Or.inr (Or.inl ⟨item, hself⟩)
    | right =>
      rw [hroute] at hself
      exact Or.inr (Or.inr ⟨item, hself⟩)
    | center =>
      rw [hroute] at hself
      exact Or.inl ⟨item, hself⟩

/-- A merge moves the items of two leaves up. -/
theorem shifts_merge (p : List Side) (c lc rc : Chain) :
    Shifts p [] [] (.split c (.leaf lc) (.leaf rc))
      (.leaf { c with content := (c.content.absorb [lc.content, rc.content]).1 }) where
  sorted hs := by
    cases hs with
    | split top central left right =>
      refine .leaf ⟨top.depth, top.keyed.absorb left.top.keyed right.top.keyed, fun x item hx => ?_⟩
      -- what is bound for a child is bound for its parent
      rcases ContentStore.get_absorb hx with hx | hx | hx
      · exact top.bound x item hx
      · exact (left.top.bound x item hx).of_append
      · exact (right.top.bound x item hx).of_append
  stores x item hx := by
    rw [stores_leaf] at hx
    rw [stores_split, stores_leaf, stores_leaf]
    exact Or.inl (ContentStore.get_absorb hx)
  holds x hx _ := by
    rw [holds_split, holds_leaf, holds_leaf] at hx
    rw [holds_leaf]
    exact ContentStore.holds_absorb hx

/-! ### Finalizing -/

/-- A finalized block takes its items out of the whole branch. -/
theorem shifts_settle (rules : Rules) (roster : Roster) (block : Block) (p : List Side)
    (b : Branch) : Shifts p [] block.contentIds b (b.settle rules roster block).1 := by
  have hconsumed : Shifts p [] block.contentIds b (b.map (·.consume block.contentIds)) :=
    shifts_map (fun c => c.sheds_consume block.contentIds) p b
  have hplaced := hconsumed.trans (shifts_shed (Chain.sheds_same
    (d := (b.map (·.consume block.contentIds)).chain.enqueue rules.config block) rfl rfl))
  have hall := hplaced.trans (shifts_spawn rules roster block p (b.placed rules.config block))
  rw [settle_eq]
  exact hall.mono (List.Subset.refl _) (by simp)

/-- Finalized blocks take their items out of the whole branch. -/
theorem shifts_settleAll (rules : Rules) (p : List Side) : ∀ (blocks : List Block)
    (roster : Roster) (b : Branch), Shifts p [] (blocks.flatMap (·.contentIds)) b
      (settleAll rules roster b blocks).1
  | [], _, b => .refl p b
  | block :: rest, roster, b =>
    (shifts_settle rules roster block p b).trans
      (shifts_settleAll rules p rest (b.settle rules roster block).2
        (b.settle rules roster block).1)

end Branch

end ShardLedger
