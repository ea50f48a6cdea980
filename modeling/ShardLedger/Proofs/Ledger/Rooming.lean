import ShardLedger.Proofs.Ledger.Run
import ShardLedger.Proofs.Tree.Splitting

/-!
# Numbers in use

The roster knows which numbers are taken. They are those of the chains that are registered or are
yet to be, so it is never wrong about the room that is left: a split takes two numbers that no chain
has, and the removal of a merged chain gives one free.

- `Ledger.Roomy`: what holds of the numbers in use.
- `Ledger.Roomy.submitBlock`, `Ledger.Roomy.tick`: what keeps it.
- `Run.roomy`: it holds at every point of a run.
-/

namespace ShardLedger

namespace Ledger

variable {seen : List Block} {rules : Rules} {config : Config} {l l' : Ledger} {id : ChainId}

/-- The numbers in use are those of registered chains and of chains yet to be registered, there are
no more of them than allowed, and the root comes first. -/
structure Roomy (config : Config) (l : Ledger) : Prop where
  listed : ∀ id ∈ l.roster.occupied, id ∈ l.order
  nodup : l.roster.occupied.Nodup
  room : l.roster.occupied.length ≤ config.tree.maxChains
  depth : ∀ id ∈ l.roster.occupied, id.depth ≤ config.tree.maxDepth
  first : l.registered.head? = some .root

/-- Nothing but the numbers matters, and the order of registration. -/
theorem Roomy.congr (h : l.Roomy config) (hregistered : l'.registered = l.registered)
    (hroster : l'.roster = l.roster) : l'.Roomy config where
  listed := by
    unfold order
    rw [hregistered, hroster]
    exact h.listed
  nodup := hroster ▸ h.nodup
  room := hroster ▸ h.room
  depth := hroster ▸ h.depth
  first := hregistered ▸ h.first

/-- A split takes two numbers at the end. -/
theorem Roomy.takes {r : Roster} (h : l.Roomy config) (htakes : l.roster.Takes config id r) :
    ({ l with roster := r } : Ledger).Roomy config := by
  obtain ⟨hdepth, left, right, hleft, hright, hreserve⟩ := htakes
  unfold Roster.reserve? at hreserve
  split at hreserve
  · cases hreserve
  rename_i hfree
  obtain ⟨hroom, hnew, hnew'⟩ : _ ∧ left ∉ l.roster.occupied ∧ right ∉ l.roster.occupied := by
    simpa only [not_or] using hfree
  rw [Option.some.injEq] at hreserve
  subst hreserve
  have hne : left ≠ right := by
    intro heq
    have hl : left.number = 2 * id.number := ChainId.child?_number hleft
    have hr : right.number = 2 * id.number + 1 := ChainId.child?_number hright
    rw [heq] at hl
    omega
  refine ⟨fun a ha => ?_, ?_, ?_, fun a ha => ?_, h.first⟩
  · show a ∈ l.registered ++ (l.roster.spawned ++ [left, right])
    rw [← List.append_assoc]
    rcases List.mem_append.1 ha with ha | ha
    · exact List.mem_append_left _ (h.listed a ha)
    · exact List.mem_append_right _ ha
  · refine List.nodup_append.2 ⟨h.nodup, by simpa using hne, ?_⟩
    rintro a ha a' ha' rfl
    rcases List.mem_cons.1 ha' with rfl | ha'
    · exact hnew ha
    · exact hnew' (List.mem_singleton.1 ha' ▸ ha)
  · show (l.roster.occupied ++ [left, right]).length ≤ _
    rw [List.length_append]
    exact Nat.not_lt.1 hroom
  · rcases List.mem_append.1 ha with ha | ha
    · exact h.depth a ha
    · rcases List.mem_cons.1 ha with rfl | ha
      · exact Nat.le_trans (ChainId.child?_depth hleft) hdepth
      · rw [List.mem_singleton.1 ha]
        exact Nat.le_trans (ChainId.child?_depth hright) hdepth

/-! ### Operations -/

theorem replace_rest (l : Ledger) (id : ChainId) (b : Branch) :
    (l.replace id b).registered = l.registered ∧ (l.replace id b).roster = l.roster := by
  unfold replace
  split <;> exact ⟨rfl, rfl⟩

theorem Roomy.update (h : l.Roomy config) (id : ChainId) (f : Chain → Chain) :
    (l.update id f).Roomy config := by
  unfold Ledger.update
  split
  · exact h.congr (replace_rest l id _).1 (replace_rest l id _).2
  · exact h

theorem Roomy.submitBlock (h : l.Roomy rules.config) (block : Block) :
    (l.submitBlock rules block).1.Roomy rules.config := by
  unfold Ledger.submitBlock submitTo
  split
  · exact h
  split
  · exact h
  · rename_i b hb
    -- every split of the chain is one step
    have hroster : ({ l with roster := (b.submit rules l.roster block).roster } : Ledger).Roomy
        rules.config :=
      Branch.submit_closed (P := fun r => ({ l with roster := r } : Ledger).Roomy rules.config)
        (fun htakes hr => hr.takes htakes) rfl h
    obtain ⟨hregistered, hsame⟩ := replace_rest
      { l with roster := (b.submit rules l.roster block).roster } block.chain
      (b.submit rules l.roster block).branch
    exact hroster.congr hregistered hsame

theorem Roomy.discardPending (h : l.Roomy config) (chain : ChainId) (block : BlockId) :
    (l.discardPending chain block).1.Roomy config := by
  rw [discardPending_eq]
  exact h.update chain _

theorem Roomy.submitContent (h : l.Roomy config) (item : ContentItem) :
    (l.submitContent item).1.Roomy config := by
  unfold Ledger.submitContent
  dsimp only
  split
  · exact h
  · exact h.congr rfl rfl

theorem Roomy.invalidate (h : l.Roomy config) (content : ContentId) :
    (l.invalidate content).1.Roomy config := by
  rcases invalidate_cases l content with ⟨hsame, -⟩ | ⟨id, -, b, -, -, hupdate⟩
  · rwa [hsame]
  · rw [hupdate]
    exact h.update id _

/-! ### Passes -/

theorem Roomy.registerSpawned (h : l.Roomy config) : l.registerSpawned.1.Roomy config where
  listed a ha := by
    rw [registerSpawned_order]
    exact h.listed a ha
  nodup := h.nodup
  room := h.room
  depth := h.depth
  first := by
    show (l.registered ++ l.roster.spawned).head? = _
    rw [List.head?_append, h.first, Option.some_or]

theorem Roomy.mergeIdle (h : l.Roomy config) : (l.mergeIdle rules).1.Roomy config :=
  mergeIdle_closed (fun _ _ _ hl hm => by
    obtain ⟨c, lc, rc, -, rfl⟩ := mergeAt?_eq_some hm
    exact hl.congr rfl rfl) h

theorem Roomy.linearize (h : l.Roomy config) : l.linearize.1.Roomy config := by
  have hall : ∀ (sources : List Source) {l : Ledger}, l.Roomy config →
      (sources.foldl setQueue l).Roomy config := by
    intro sources
    induction sources with
    | nil => exact fun h => h
    | cons s rest ih =>
      intro l h
      obtain ⟨hregistered, hroster, -⟩ := setQueue_rest l s
      exact ih (h.congr hregistered hroster)
  rw [(linearize_eq l).1]
  exact hall _ (h.congr rfl rfl)

/-- A merged chain gives its number free. -/
theorem Roomy.remove (h : l.Roomy config) (hid : id ≠ .root) : (l.remove id).Roomy config where
  listed a ha := by
    obtain ⟨hne, ha⟩ := (List.Nodup.mem_erase_iff h.nodup).1 ha
    refine List.mem_append.2 ((List.mem_append.1 (h.listed a ha)).imp_left fun hregistered => ?_)
    exact (List.mem_erase_of_ne hne).2 hregistered
  nodup := h.nodup.erase id
  room := Nat.le_trans (List.length_erase_le ..) h.room
  depth a ha := h.depth a (List.mem_of_mem_erase ha)
  first := by
    obtain ⟨rest, hrest⟩ : ∃ rest, l.registered = .root :: rest := List.head?_eq_some_iff.1 h.first
    show (l.registered.erase id).head? = _
    rw [hrest, List.erase_cons_tail (by simpa using Ne.symm hid)]
    rfl

theorem Roomy.removeAll : ∀ (ids : List ChainId) {l : Ledger}, l.Roomy config →
    .root ∉ ids → (ids.foldl Ledger.remove l).Roomy config
  | [], _, h, _ => h
  | _ :: rest, _, h, hroot =>
    have ⟨hid, hrest⟩ := List.ne_and_not_mem_of_not_mem_cons hroot
    Roomy.removeAll rest (h.remove (Ne.symm hid)) hrest

/-- The root is never merged. -/
theorem Arranged.root_not_leaving (h : l.Arranged seen) : .root ∉ l.leaving := by
  intro hmem
  rw [h.leaving] at hmem
  obtain ⟨c, hc, hid⟩ := List.mem_map.1 hmem
  have hnone := (h.halted c hc).2.2
  rw [hid, show ChainId.root.path = [] from ChainId.turns_one, Branch.chainAt_nil] at hnone
  cases hnone

theorem Roomy.removeDrained (h : l.Roomy config) (harranged : l.Arranged seen) :
    l.removeDrained.1.Roomy config :=
  Roomy.removeAll _ h fun hroot => harranged.root_not_leaving (List.mem_filter.1 hroot).1

theorem Roomy.tick (h : l.Roomy rules.config) (harranged : l.Arranged seen) :
    (l.tick rules).ledger.Roomy rules.config := by
  have hmerged := mergeIdle_retires rules (registerSpawned_retires harranged).1
  obtain ⟨hplaced, -⟩ := linearize_delivers hmerged.arranged hmerged.spawned
  exact h.registerSpawned.mergeIdle.linearize.removeDrained hplaced.arranged

theorem Roomy.settleWithin : ∀ (fuel : Nat) {l : Ledger}, l.Roomy rules.config → l.Arranged seen →
    (Ledger.settleWithin rules fuel l).1.Roomy rules.config
  | 0, _, h, _ => h
  | fuel + 1, _, h, harranged => by
    unfold Ledger.settleWithin
    dsimp only
    split
    · exact h.tick harranged
    · exact Roomy.settleWithin fuel (h.tick harranged) (tick_delivers rules harranged).1.arranged

theorem Roomy.settle (h : l.Roomy rules.config) (harranged : l.Arranged seen) :
    (l.settle rules).1.Roomy rules.config := by
  unfold Ledger.settle
  exact h.settleWithin _ harranged

end Ledger

namespace Run

variable {rules : Rules} {ops : List Operation} {r : Run}

/-- A ledger is made for a valid configuration only. -/
theorem valid_of_create {l : Ledger} (h : Ledger.create rules = .ok l) :
    rules.config.validate = .ok () := by
  unfold Ledger.create at h
  cases hv : rules.config.validate with
  | error => rw [hv] at h; cases h
  | ok => rfl

theorem valid_of_after (h : Run.after rules ops = .ok r) : rules.config.validate = .ok () := by
  obtain ⟨l, hl, -⟩ := after_eq h
  exact valid_of_create hl

theorem create_roomy {l : Ledger} (h : Ledger.create rules = .ok l) : l.Roomy rules.config := by
  obtain ⟨-, hmin, hmax, -⟩ := Config.bounds_of_validate (valid_of_create h)
  obtain ⟨graph, -, rfl⟩ := create_eq h
  refine ⟨fun _ ha => ha, List.nodup_singleton _, Nat.le_trans hmin hmax, fun a ha => ?_, rfl⟩
  rw [List.mem_singleton.1 ha]
  exact Nat.zero_le _

theorem roomy_perform {seen : List Block} (h : r.ledger.Roomy rules.config)
    (ht : r.Tracks seen rules) (op : Operation) :
    (r.perform rules op).ledger.Roomy rules.config := by
  cases op with
  | submitBlock block => exact h.submitBlock block
  | submitContent item => exact h.submitContent item
  | invalidate content => exact h.invalidate content
  | propose chain maxSize =>
    cases hp : r.ledger.proposal rules chain maxSize with
    | ok p => exact perform_propose_ok hp ▸ h
    | error e => exact (perform_propose_error hp).symm ▸ h
  | discardPending chain block => exact h.discardPending chain block
  | tick => exact h.tick ht.arranged
  | settle => exact h.settle ht.arranged

/-- At every point of a run, the numbers in use are those of its chains. -/
theorem roomy (h : Run.after rules ops = .ok r) : r.ledger.Roomy rules.config := by
  induction ops using List.reverseRecOn generalizing r with
  | nil =>
    obtain ⟨l, hl, rfl⟩ := after_eq h
    exact create_roomy hl
  | append_singleton ops op ih =>
    obtain ⟨r₀, hr₀, rfl⟩ := after_concat h
    exact roomy_perform (ih hr₀) (tracks hr₀ (List.Subset.refl _)) op

end Run

end ShardLedger
