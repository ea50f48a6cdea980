import Mathlib.Data.List.Basic
import ShardLedger.Ledger.Branch

/-!
# Finding chains in a branch

The number of a chain and the path that leads to it tell the same: `ChainId.path` reads the path
off the number, and `ChainId.descend` goes back. `Branch.chainAt` is the chain at the end of a
path, and everything that is done to a branch is told by what it does to the chain at each path.

- `ChainId.path_descend`, `ChainId.path_injective`.
- `Branch.chainAt`, and what replacing, mapping and exchanging the topmost chain do to it.
- `Branch.Numbered`: every chain has the number of its place.
-/

namespace ShardLedger

namespace ChainId

/-- The number that is reached from `n` by a path. -/
def descend (n : Nat) : List Side → Nat
  | [] => n
  | .left :: path => descend (2 * n) path
  | .right :: path => descend (2 * n + 1) path

theorem descend_pos {n : Nat} (hn : 0 < n) : ∀ path : List Side, 0 < descend n path
  | [] => hn
  | .left :: path => descend_pos (n := 2 * n) (by omega) path
  | .right :: path => descend_pos (n := 2 * n + 1) (by omega) path

theorem descend_append (n : Nat) : ∀ p q : List Side,
    descend n (p ++ q) = descend (descend n p) q
  | [], _ => rfl
  | .left :: p, q => descend_append (2 * n) p q
  | .right :: p, q => descend_append (2 * n + 1) p q

theorem turns_one : turns 1 = [] := by rw [turns, dif_pos (Nat.le_refl 1)]

/-- The path to a number reached by a path leads on along that path. -/
theorem turns_descend {n : Nat} (hn : 0 < n) : ∀ path : List Side,
    turns (descend n path) = turns n ++ path
  | [] => (List.append_nil _).symm
  | .left :: path => by
    have hstep : turns (2 * n) = turns n ++ [.left] := by
      rw [turns, dif_neg (by omega), show 2 * n / 2 = n by omega, if_pos (by omega)]
    show turns (descend (2 * n) path) = _
    rw [turns_descend (by omega) path, hstep, List.append_assoc, List.singleton_append]
  | .right :: path => by
    have hstep : turns (2 * n + 1) = turns n ++ [.right] := by
      rw [turns, dif_neg (by omega), show (2 * n + 1) / 2 = n by omega, if_neg (by omega)]
    show turns (descend (2 * n + 1) path) = _
    rw [turns_descend (by omega) path, hstep, List.append_assoc, List.singleton_append]

/-- Following the turns to a number leads to it. -/
theorem descend_turns {n : Nat} (hn : 0 < n) : descend 1 (turns n) = n := by
  induction n using Nat.strongRecOn with
  | _ n ih =>
    -- half the number is its parent, and the parity is the last turn
    rw [turns]
    split
    · show 1 = n
      omega
    · rw [descend_append, ih (n / 2) (by omega) (by omega)]
      split
      · show 2 * (n / 2) = n
        omega
      · show 2 * (n / 2) + 1 = n
        omega

/-- A chain stands at the end of a path if its number does. -/
theorem path_descend {c : ChainId} {path : List Side} (h : c.number = descend 1 path) :
    c.path = path := by
  show turns c.number = path
  rw [h, turns_descend Nat.one_pos, turns_one, List.nil_append]

theorem number_eq {c : ChainId} (hc : 0 < c.number) : c.number = descend 1 c.path :=
  (descend_turns hc).symm

theorem eq_of_number {a b : ChainId} (h : a.number = b.number) : a = b := by
  cases a
  cases b
  cases h
  rfl

/-- The path tells the chain. -/
theorem path_injective {a b : ChainId} (ha : 0 < a.number) (hb : 0 < b.number)
    (h : a.path = b.path) : a = b :=
  eq_of_number (by rw [number_eq ha, number_eq hb, h])

/-- A child is numbered one step further down. -/
theorem child?_number {c child : ChainId} {side : Side} (h : c.child? side = some child) :
    child.number = descend c.number [side] := by
  unfold child? at h
  cases side with
  | left =>
    dsimp only at h
    split at h
    · rw [Option.some.injEq] at h
      rw [← h]
      rfl
    · cases h
  | right =>
    dsimp only at h
    split at h
    · rw [Option.some.injEq] at h
      rw [← h]
      rfl
    · cases h

theorem child?_path {c child : ChainId} {side : Side} (hc : 0 < c.number)
    (h : c.child? side = some child) : child.path = c.path ++ [side] := by
  refine path_descend ?_
  rw [child?_number h, descend_append, ← number_eq hc]

/-- The number of the parent is half that of the chain. -/
theorem parent?_eq_some_iff {c upper : ChainId} :
    c.parent? = some upper ↔ 1 < c.number ∧ upper.number = c.number / 2 := by
  unfold parent?
  rw [Option.ite_none_right_eq_some, Option.some.injEq]
  exact and_congr_right fun _ =>
    ⟨fun h => (congrArg number h).symm, fun h => eq_of_number h.symm⟩

/-- Whatever is numbered one step further down is a child. -/
theorem parent?_of_number {c child : ChainId} {side : Side} (hc : 0 < c.number)
    (h : child.number = descend c.number [side]) : child.parent? = some c := by
  have hbounds : 1 < child.number ∧ child.number / 2 = c.number := by
    cases side with
    | left =>
      have : child.number = 2 * c.number := h
      omega
    | right =>
      have : child.number = 2 * c.number + 1 := h
      omega
  exact parent?_eq_some_iff.2 ⟨hbounds.1, hbounds.2.symm⟩

theorem child?_parent? {c child : ChainId} {side : Side} (hc : 0 < c.number)
    (h : c.child? side = some child) : child.parent? = some c :=
  parent?_of_number hc (child?_number h)

theorem parent?_path {c child : ChainId} (h : child.parent? = some c) :
    0 < c.number ∧ ∃ side, child.path = c.path ++ [side] := by
  obtain ⟨hnum, hhalf⟩ := parent?_eq_some_iff.1 h
  refine ⟨hhalf ▸ Nat.div_pos hnum (by decide), ?_⟩
  unfold path
  rw [turns.eq_def child.number, dif_neg (Nat.not_le.2 hnum), hhalf]
  exact ⟨_, rfl⟩

theorem parent?_ne {c child : ChainId} (h : child.parent? = some c) : child ≠ c := by
  rintro rfl
  obtain ⟨-, side, hside⟩ := parent?_path h
  have hlength := congrArg List.length hside
  rw [List.length_append, List.length_singleton] at hlength
  omega

/-- The chain is the other one or stands above it in the tree. -/
def Above (c q : ChainId) : Prop := c.path <+: q.path

instance (c q : ChainId) : Decidable (c.Above q) := inferInstanceAs (Decidable (_ <+: _))

theorem Above.refl (c : ChainId) : c.Above c := List.prefix_refl _

theorem above_child {a c child : ChainId} (h : a.Above c) (hc : child.parent? = some c) :
    a.Above child := by
  obtain ⟨-, side, hside⟩ := parent?_path hc
  unfold Above
  rw [hside]
  exact h.trans (List.prefix_append _ _)

/-- Whatever stands above a child and is not the child stands above the chain. -/
theorem Above.of_child {a c child : ChainId} (h : a.Above child) (hc : child.parent? = some c)
    (hne : a ≠ child) : a.Above c := by
  obtain ⟨-, side, hside⟩ := parent?_path hc
  unfold Above at h
  rw [hside, List.prefix_concat_iff] at h
  rcases h with heq | h
  · -- the path of the child tells the child, for it is not empty
    refine absurd ?_ hne
    have hpos : ∀ b : ChainId, b.path = c.path ++ [side] → 0 < b.number := by
      intro b hb
      rcases Nat.eq_zero_or_pos b.number with hzero | hpos
      · have hnil : b.path = [] := by
          unfold path
          rw [hzero, turns, dif_pos (Nat.zero_le _)]
        rw [hnil] at hb
        exact absurd hb (List.append_ne_nil_of_right_ne_nil _ (List.cons_ne_nil _ _)).symm
      · exact hpos
    exact path_injective (hpos a heq) (hpos child hside) (heq.trans hside.symm)
  · exact h

end ChainId

namespace Branch

variable {b new old : Branch} {p q : List Side}

theorem at?_nil (b : Branch) : b.at? [] = some b := by
  unfold at?
  rfl

theorem at?_append : ∀ (p : List Side) (b : Branch) (q : List Side),
    b.at? (p ++ q) = (b.at? p).bind (·.at? q)
  | [], b, q => by
    rw [at?_nil]
    rfl
  | _ :: _, leaf _, _ => rfl
  | .left :: p, split _ l _, q => at?_append p l q
  | .right :: p, split _ _ r, q => at?_append p r q

/-- The chain at the end of a path. -/
def chainAt (b : Branch) (p : List Side) : Option Chain := (b.at? p).map chain

@[simp] theorem chainAt_nil (b : Branch) : b.chainAt [] = some b.chain := by
  unfold chainAt
  rw [at?_nil]
  rfl

theorem chainAt_of_at? {sub : Branch} (h : b.at? p = some sub) : b.chainAt p = some sub.chain := by
  unfold chainAt
  rw [h]
  rfl

theorem chainAt_append {sub : Branch} (h : b.at? p = some sub) (q : List Side) :
    b.chainAt (p ++ q) = sub.chainAt q := by
  unfold chainAt
  rw [at?_append, h]
  rfl

/-- Below a leaf there is nothing. -/
theorem chainAt_leaf {c : Chain} (h : p ≠ []) : (leaf c).chainAt p = none := by
  cases p with
  | nil => exact absurd rfl h
  | cons => rfl

/-! ### Replacing -/

theorem at?_replace : ∀ {p : List Side} {b : Branch}, b.at? p = some old →
    (replace new p b).at? p = some new
  | [], _, _ => by
    unfold replace
    exact at?_nil _
  | .left :: p, split _ l _, h => at?_replace (p := p) (b := l) h
  | .right :: p, split _ _ r, h => at?_replace (p := p) (b := r) h

/-- Away from its path, replacing changes nothing. -/
theorem chainAt_replace_off : ∀ {p q : List Side} {b : Branch}, ¬p <+: q →
    (replace new p b).chainAt q = b.chainAt q
  | [], _, _, h => absurd (List.nil_prefix) h
  | _ :: _, _, leaf _, _ => by
    unfold replace
    rfl
  | .left :: _, [], split _ _ _, _ => rfl
  | .right :: _, [], split _ _ _, _ => rfl
  | .left :: p, .left :: q, split _ l _, h =>
    chainAt_replace_off (p := p) (q := q) (b := l) fun hp =>
      h (List.cons_prefix_cons.2 ⟨rfl, hp⟩)
  | .right :: p, .right :: q, split _ _ r, h =>
    chainAt_replace_off (p := p) (q := q) (b := r) fun hp =>
      h (List.cons_prefix_cons.2 ⟨rfl, hp⟩)
  | .left :: _, .right :: _, split _ _ _, _ => rfl
  | .right :: _, .left :: _, split _ _ _, _ => rfl

/-- Along its path, replacing shows the new branch. -/
theorem chainAt_replace_on (h : b.at? p = some old) (q : List Side) :
    (replace new p b).chainAt (p ++ q) = new.chainAt q :=
  chainAt_append (at?_replace h) q

/-- Replacing twice is replacing once. -/
theorem replace_replace (first second : Branch) : ∀ (p : List Side) (b : Branch),
    replace second p (replace first p b) = replace second p b
  | [], _ => rfl
  | _ :: _, leaf _ => rfl
  | .left :: p, split c l r => by
    show split c (replace second p (replace first p l)) r = _
    rw [replace_replace]
    rfl
  | .right :: p, split c l r => by
    show split c l (replace second p (replace first p r)) = _
    rw [replace_replace]
    rfl

theorem replace_self : ∀ {p : List Side} {b : Branch}, b.at? p = some old →
    replace old p b = b
  | [], b, h => by
    rw [at?_nil, Option.some.injEq] at h
    exact h.symm
  | .left :: p, split c l r, h => by
    show split c (replace old p l) r = _
    rw [replace_self (p := p) (b := l) h]
  | .right :: p, split c l r, h => by
    show split c l (replace old p r) = _
    rw [replace_self (p := p) (b := r) h]

/-! ### Changing chains in place -/

theorem at?_map (f : Chain → Chain) : ∀ (p : List Side) (b : Branch),
    (b.map f).at? p = (b.at? p).map (map f)
  | [], b => by
    rw [at?_nil, at?_nil]
    rfl
  | _ :: _, leaf _ => rfl
  | .left :: p, split _ l _ => at?_map f p l
  | .right :: p, split _ _ r => at?_map f p r

theorem chain_map (f : Chain → Chain) (b : Branch) : (b.map f).chain = f b.chain := by
  cases b <;> rfl

theorem chainAt_map (f : Chain → Chain) (b : Branch) (p : List Side) :
    (b.map f).chainAt p = (b.chainAt p).map f := by
  unfold chainAt
  rw [at?_map, Option.map_map, Option.map_map]
  congr 1
  exact funext (chain_map f)

@[simp] theorem chain_withChain (c : Chain) (b : Branch) : (b.withChain c).chain = c := by
  cases b <;> rfl

theorem chainAt_withChain (c : Chain) (b : Branch) (h : p ≠ []) :
    (b.withChain c).chainAt p = b.chainAt p := by
  cases p with
  | nil => exact absurd rfl h
  | cons side p =>
    cases b with
    | leaf => rfl
    | split => cases side <;> rfl

/-- A chain is exchanged where it stands, and nothing else changes. -/
theorem chainAt_replace_withChain {c : Chain} (h : b.at? p = some old) (q : List Side) :
    (replace (old.withChain c) p b).chainAt q = if q = p then some c else b.chainAt q := by
  by_cases hprefix : p <+: q
  · obtain ⟨s, rfl⟩ := hprefix
    rw [chainAt_replace_on h, chainAt_append h]
    by_cases hs : s = []
    · subst hs
      rw [chainAt_nil, chain_withChain, if_pos (List.append_nil p)]
    · rw [chainAt_withChain _ _ hs, if_neg fun heq => hs (List.append_right_eq_self.1 heq)]
  · rw [chainAt_replace_off hprefix, if_neg]
    rintro rfl
    exact hprefix (List.prefix_refl q)

/-! ### Numbers -/

/-- The chains of a branch are numbered by their places, from `n` at the top. -/
def Numbered (n : Nat) (b : Branch) : Prop :=
  ∀ p c, b.chainAt p = some c → c.id.number = ChainId.descend n p

/-- In a tree of chains, a chain stands where its number says. -/
theorem Numbered.path_eq (h : b.Numbered 1) {c : Chain} (hp : b.chainAt p = some c) :
    c.id.path = p := ChainId.path_descend (h p c hp)

theorem Numbered.pos {n : Nat} (hn : 0 < n) (h : b.Numbered n) {c : Chain}
    (hp : b.chainAt p = some c) : 0 < c.id.number := by
  rw [h p c hp]
  exact ChainId.descend_pos hn p

end Branch

end ShardLedger
