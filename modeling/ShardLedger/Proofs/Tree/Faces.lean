import ShardLedger.Proofs.Content.Depicting
import ShardLedger.Proofs.Tree.Entering

/-!
# The faces of a tree

A depot sees the face of every live chain. When a chain of the tree finalizes a run of blocks, the
faces change the way a run of depot steps says: each block takes its items from the stores of the
chain and of all chains below, and the block that seeds a split has the store parted.

- `Branch.faces`: the faces of a tree, by number.
- `Fits`: a depot that shows a tree, but perhaps for the anchor of one chain.
- `Fits.settleAll`: finalizing a run of blocks.
-/

namespace ShardLedger

/-- What a depot shows of the chain. -/
def Chain.face (c : Chain) : Face := { content := c.content, anchor? := c.blocks[c.graph.anchor]? }

theorem Chain.face_start {config : Config} {id : ChainId} {seed : Block} {graph : ForkGraph}
    {content : ContentStore} {cursor : Cursor} (hg : newGraph config seed.id = .ok graph) :
    (start id seed graph content cursor).face = ⟨content, some seed⟩ := by
  have hanchor := (@running_start [] config id seed graph content cursor hg).anchor
  unfold face
  rw [hanchor]
  rfl

namespace Branch

variable {root old b b' : Branch} {id q : ChainId} {p : List Side} {k : Face}

/-- The number and the face of the chain at the end of a path. -/
def faceAt (b : Branch) (p : List Side) : Option (ChainId × Face) :=
  (b.chainAt p).map fun c => (c.id, c.face)

/-- The faces of a tree, by number. -/
def faces (b : Branch) (q : ChainId) : Option Face :=
  (b.faceAt q.path).bind fun e => if e.1 = q then some e.2 else none

theorem faceAt_nil (b : Branch) : b.faceAt [] = some (b.chain.id, b.chain.face) := by
  simp [faceAt]

theorem faces_eq_some : b.faces q = some k ↔ b.faceAt q.path = some (q, k) := by
  unfold faces
  rw [Option.bind_eq_some_iff]
  constructor
  · rintro ⟨⟨c, k'⟩, he, h⟩
    dsimp only at h
    split at h
    · rename_i hc
      rw [he, hc, Option.some.inj h]
    · cases h
  · intro h
    exact ⟨(q, k), h, if_pos rfl⟩

theorem faces_congr (h : b'.faceAt q.path = b.faceAt q.path) : b'.faces q = b.faces q := by
  unfold faces
  rw [h]

/-- Faces that are changed where they stand. -/
theorem faces_map {g : Face → Face}
    (h : b'.faceAt q.path = (b.faceAt q.path).map fun e => (e.1, g e.2)) :
    b'.faces q = (b.faces q).map g := by
  unfold faces
  rw [h]
  cases b.faceAt q.path with
  | none => rfl
  | some e =>
    show (if e.1 = q then some (g e.2) else none) = (if e.1 = q then some e.2 else none).map g
    split <;> rfl

/-- Along the path of a chain, the branch that took its place is seen. -/
theorem faceAt_replace_on (h : root.at? p = some old) (b : Branch) (s : List Side) :
    (replace b p root).faceAt (p ++ s) = b.faceAt s := by
  unfold faceAt
  rw [chainAt_replace_on h]

theorem faceAt_replace_off {s : List Side} (h : ¬p <+: s) :
    (replace b p root).faceAt s = root.faceAt s := by
  unfold faceAt
  rw [chainAt_replace_off h]

/-- Two branches in one place, of which one has the faces of the other, but changed. -/
theorem faces_replace_map (h : root.at? p = some old) {g : Face → Face}
    (hg : ∀ s, b'.faceAt s = (b.faceAt s).map fun e => (e.1, g e.2)) :
    (p <+: q.path → (replace b' p root).faces q = ((replace b p root).faces q).map g) ∧
      (¬p <+: q.path → (replace b' p root).faces q = (replace b p root).faces q) := by
  constructor
  · rintro ⟨s, hs⟩
    refine faces_map ?_
    rw [← hs, faceAt_replace_on h, faceAt_replace_on h]
    exact hg s
  · intro hoff
    refine faces_congr ?_
    rw [faceAt_replace_off hoff, faceAt_replace_off hoff]

/-- The face of the chain itself. -/
theorem faces_replace_top (h : root.at? id.path = some old) (hid : b.chain.id = id) :
    (replace b id.path root).faces id = some b.chain.face := by
  have htop := faceAt_replace_on h b []
  rw [List.append_nil, faceAt_nil, hid] at htop
  exact faces_eq_some.2 htop

theorem faces_top (h : root.at? id.path = some b) (hid : b.chain.id = id) :
    root.faces id = some b.chain.face := by
  have hself := faces_replace_top h hid
  rwa [replace_self h] at hself

/-- Another chain of the same number in the place of one. -/
theorem faces_replace_chain (h : root.at? p = some b) {c : Chain} (hid : c.id = b.chain.id)
    (q : ChainId) :
    (root.faces q = some b.chain.face ∧ b.chain.id = q ∧
        (replace (b.withChain c) p root).faces q = some c.face) ∨
      ((q.path = p → b.chain.id ≠ q) ∧
        (replace (b.withChain c) p root).faces q = root.faces q) := by
  -- only the end of the path shows another face
  have hview : ∀ s, (replace (b.withChain c) p root).faceAt s =
      if s = p then some (c.id, c.face) else root.faceAt s := by
    intro s
    by_cases hprefix : p <+: s
    · obtain ⟨t, rfl⟩ := hprefix
      rw [faceAt_replace_on h]
      by_cases ht : t = []
      · rw [ht, List.append_nil, if_pos rfl, faceAt_nil, chain_withChain]
      · unfold faceAt
        rw [if_neg (by simpa using ht), chainAt_withChain _ _ ht, chainAt_append h]
    · rw [faceAt_replace_off hprefix, if_neg]
      rintro rfl
      exact hprefix (List.prefix_refl _)
  have hold : root.faceAt p = some (b.chain.id, b.chain.face) := by
    unfold faceAt chainAt
    rw [h]
    rfl
  by_cases hq : q.path = p
  · unfold faces
    rw [hview, if_pos hq, hq, hold, hid]
    by_cases hc : b.chain.id = q
    · exact Or.inl ⟨if_pos hc, hc, if_pos hc⟩
    · exact Or.inr ⟨fun _ => hc, (if_neg hc).trans (if_neg hc).symm⟩
  · exact Or.inr ⟨fun heq => absurd heq hq, faces_congr ((hview _).trans (if_neg hq))⟩

/-! ### Finalizing -/

theorem faceAt_placed (config : Config) (block : Block) (b : Branch) (s : List Side) :
    (b.placed config block).faceAt s =
      (b.faceAt s).map fun e => (e.1, e.2.lose block.contentIds) := by
  unfold placed faceAt
  by_cases hs : s = []
  · subst hs
    rw [chainAt_nil, chainAt_nil, chain_withChain, chain_map]
    rfl
  · rw [chainAt_withChain _ _ hs, chainAt_map]
    cases b.chainAt s <;> rfl

theorem chain_id_placed (config : Config) (block : Block) (b : Branch) :
    (b.placed config block).chain.id = b.chain.id := by
  have h := faceAt_placed config block b []
  rw [faceAt_nil, faceAt_nil] at h
  exact congrArg Prod.fst (Option.some.inj h)

/-- A chain that has split, and its two children, as leaves. -/
theorem faceAt_split_leaves (c l r : Chain) (s : List Side) :
    (split c (leaf l) (leaf r)).faceAt s =
      if s = [] then some (c.id, c.face)
      else if s = [.left] then some (l.id, l.face)
      else if s = [.right] then some (r.id, r.face) else none := by
  cases s with
  | nil => rfl
  | cons side s =>
    cases side <;> cases s <;> rfl

end Branch

open Branch

/-- The depot shows the faces, but perhaps for the anchor of one chain. -/
structure Fits (f : ChainId → Option Face) (d : Depot) (id : ChainId) : Prop where
  depicts : Depicts f d
  moored : ∀ q, q ≠ id → Moored f d q

variable {seen : List Block} {rules : Rules} {roster roster' : Roster} {root old b b' : Branch}
  {id : ChainId} {d : Depot} {block seed : Block} {c : Chain}

/-- A chain finalizes a block, and does not split yet. -/
theorem Fits.placed (hat : root.at? id.path = some old)
    (h : Fits (replace b id.path root).faces d id) (hid : b.chain.id = id)
    (follows : Follows seen id (d.anchor id) block)
    (offered : ∀ x ∈ block.contentIds, ∃ o ∈ d.offers, o.proposal.Makes block) (config : Config) :
    ∃ d', Evolves seen d d' [block] ∧
      Fits (replace (b.placed config block) id.path root).faces d' id ∧
      d'.anchor id = block ∧ d'.run id ≠ [] := by
  obtain ⟨d', hevolves, hdepicts, hanchor, hrun, hmoored⟩ :=
    h.depicts.finalize ⟨_, faces_replace_top hat hid⟩ follows offered
      (fun q hq => (faces_replace_map hat (faceAt_placed config block b)).1 hq)
      fun q hq => (faces_replace_map hat (faceAt_placed config block b)).2 hq
  exact ⟨d', hevolves, ⟨hdepicts, fun q hq => hmoored q hq (h.moored q hq)⟩, hanchor, hrun⟩

/-- What is seen of a leaf that has split. -/
theorem parted_of_splitsTo (hat : root.at? c.id.path = some old) (hpos : 0 < c.id.number)
    (hs : SplitsTo rules roster seed c b' roster') :
    b'.chain.id = c.id ∧ ∃ left right, left.parent? = some c.id ∧ right.parent? = some c.id ∧
      Parted (replace (leaf c) c.id.path root).faces (replace b' c.id.path root).faces c.id left
        right c.face c.cursor seed := by
  obtain ⟨left, right, cursor, graph, hleft, hright, -, hgraph, -, rfl⟩ := hs
  refine ⟨rfl, left, right, ChainId.child?_parent? hpos hleft, ChainId.child?_parent? hpos hright,
    ?_⟩
  -- what is seen at the end of a path that goes on from the chain
  have hview := fun s => (faceAt_replace_on hat _ s).trans (faceAt_split_leaves
    { c with content := (c.content.separate c.cursor).center }
    (Chain.start left seed graph (c.content.separate c.cursor).left cursor)
    (Chain.start right seed graph (c.content.separate c.cursor).right cursor) s)
  rw [Chain.face_start hgraph, Chain.face_start hgraph] at hview
  refine
    { center_part := faces_replace_top hat rfl, left_part := ?_, right_part := ?_
      rest := fun q hq => ?_ }
  · rw [faces_eq_some, ChainId.child?_path hpos hleft, hview]
    rfl
  · rw [faces_eq_some, ChainId.child?_path hpos hright, hview]
    rfl
  · rw [List.mem_cons, List.mem_cons, List.mem_singleton, not_or, not_or] at hq
    obtain ⟨hne, hl, hr⟩ := hq
    by_cases habove : c.id.path <+: q.path
    · obtain ⟨s, hs⟩ := habove
      unfold faces
      rw [← hs, hview, faceAt_replace_on hat]
      -- whoever shares a path with one of the three without being it is not seen at all
      by_cases hnil : s = []
      · rw [if_pos hnil, hnil, faceAt_nil]
        show (if c.id = q then _ else none) = if c.id = q then _ else none
        rw [if_neg (Ne.symm hne), if_neg (Ne.symm hne)]
      · have hnone : (leaf c).faceAt s = none := by
          unfold faceAt
          rw [chainAt_leaf hnil]
          rfl
        rw [if_neg hnil, hnone]
        split
        · exact if_neg (Ne.symm hl)
        · split
          · exact if_neg (Ne.symm hr)
          · rfl
    · exact faces_congr (by rw [faceAt_replace_off habove, faceAt_replace_off habove])

/-- A leaf splits at the block that it has just finalized. -/
theorem Fits.spawned (hat : root.at? id.path = some old)
    (h : Fits (replace (leaf c) id.path root).faces d id) (hid : c.id = id) (hpos : 0 < id.number)
    (hanchor : d.anchor id = seed) (started : d.run id ≠ [])
    (fresh : ∀ o ∈ d.offers, o.genesis ≠ seed)
    (hs : SplitsTo rules roster seed c b' roster') :
    ∃ d', Evolves seen d d' [] ∧ Fits (replace b' id.path root).faces d' id ∧
      d'.anchor id = seed ∧ b'.chain.id = id := by
  subst hid hanchor
  obtain ⟨hid, left, right, hleft, hright, hp⟩ := parted_of_splitsTo hat hpos hs
  obtain ⟨d', hevolves, hdepicts, hanchor, hmoored⟩ :=
    h.depicts.split (faces_replace_top hat rfl) started fresh hleft hright hp
  exact ⟨d', hevolves, ⟨hdepicts, fun q hq => hmoored q hq (h.moored q hq)⟩, hanchor, hid⟩

/-- A chain finalizes a block, which may seed a split. -/
theorem Fits.settle (hat : root.at? id.path = some old)
    (h : Fits (replace b id.path root).faces d id) (hid : b.chain.id = id) (hpos : 0 < id.number)
    (follows : Follows seen id (d.anchor id) block)
    (offered : ∀ x ∈ block.contentIds, ∃ o ∈ d.offers, o.proposal.Makes block)
    (fresh : ∀ o ∈ d.offers, o.genesis ≠ block) (rules : Rules) (roster : Roster) :
    ∃ d', Evolves seen d d' [block] ∧
      Fits (replace (b.settle rules roster block).1 id.path root).faces d' id ∧
      d'.anchor id = block ∧ (b.settle rules roster block).1.chain.id = id := by
  obtain ⟨d₁, hfirst, hfits, hanchor, hrun⟩ := h.placed hat hid follows offered rules.config
  have hid₁ := (chain_id_placed rules.config block b).trans hid
  rw [settle_eq]
  -- the block takes its items out first, and what is left of the leaf may then be parted
  rcases spawn_eq rules roster block (b.placed rules.config block) with heq | ⟨c, hleaf, hs⟩
  · rw [heq]
    exact ⟨d₁, hfirst, hfits, hanchor, hid₁⟩
  · rw [hleaf] at hfits hid₁
    obtain ⟨d₂, hmore, hfits, hanchor, hid₂⟩ :=
      hfits.spawned hat hid₁ hpos hanchor hrun (hfirst.offers ▸ fresh) hs
    exact ⟨d₂, hfirst.trans hmore, hfits, hanchor, hid₂⟩

/-- A chain finalizes a linked run of blocks, oldest first. -/
theorem Fits.settleAll (hat : root.at? id.path = some old) (hpos : 0 < id.number) (rules : Rules) :
    ∀ (blocks : List Block) (roster : Roster) {b : Branch} {d : Depot},
      Fits (replace b id.path root).faces d id → b.chain.id = id →
      Links seen id (d.anchor id) blocks →
      (∀ block ∈ blocks, ∀ x ∈ block.contentIds, ∃ o ∈ d.offers, o.proposal.Makes block) →
      (∀ o ∈ d.offers, ∀ block ∈ blocks, o.genesis ≠ block) →
      ∃ d', Evolves seen d d' blocks ∧
        Fits (replace (Branch.settleAll rules roster b blocks).1 id.path root).faces d' id ∧
        d'.anchor id = blocks.getLastD (d.anchor id)
  | [], _, _, d, h, _, _, _, _ => ⟨d, .refl seen d, h, rfl⟩
  | block :: rest, roster, b, d, h, hid, hlinks, hoffered, hfresh => by
    -- the first block, then the others on what it leaves
    obtain ⟨d₁, hfirst, hfits, hanchor, hid₁⟩ := h.settle hat hid hpos hlinks.1
      (hoffered block (List.mem_cons_self ..))
      (fun o ho => hfresh o ho block (List.mem_cons_self ..)) rules roster
    have hrest := hlinks.2
    rw [← hanchor] at hrest
    obtain ⟨d₂, hmore, hfits, hlast⟩ := Fits.settleAll hat hpos rules rest
      (b.settle rules roster block).2 hfits hid₁ hrest
      (fun y hy => hfirst.offers ▸ hoffered y (List.mem_cons_of_mem _ hy))
      (hfirst.offers ▸ fun o ho y hy => hfresh o ho y (List.mem_cons_of_mem _ hy))
    refine ⟨d₂, hfirst.trans hmore, hfits, ?_⟩
    rw [hlast, hanchor, List.getLastD_cons]

end ShardLedger
