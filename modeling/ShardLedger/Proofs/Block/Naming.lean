import Mathlib.Algebra.Group.Nat.Defs
import Mathlib.Data.List.Basic
import ShardLedger.Block.Basic

/-!
# What names a block

A block is named by the digest of a byte string. Every field of its draft has a fixed width there or
is counted, and the proposer stands at the end, so the byte string tells the draft. It is also
longer than the label that names the genesis.

- `wordBytes_injective`, `Digest.toBytes_injective`: bytes tell words and digests.
- `Draft.preimage_injective`: the byte string tells the draft, as long as its lists can be counted.
- `Draft.named_apart`: so does the identity of its block, as long as the digest keeps byte strings
  apart.
-/

namespace ShardLedger

/-- A number is told by its bytes. -/
theorem eq_of_bytes {a b : Nat} (k : Nat) (ha : a < 2 ^ (8 * k)) (hb : b < 2 ^ (8 * k))
    (h : ∀ i < k, UInt8.ofNat (a >>> (8 * i)) = UInt8.ofNat (b >>> (8 * i))) : a = b := by
  refine Nat.eq_of_testBit_eq fun j => ?_
  by_cases hj : j < 8 * k
  · -- bit `j` is in byte `j / 8`
    have hbyte := congrArg UInt8.toNat (h (j / 8) (by omega))
    rw [UInt8.toNat_ofNat', UInt8.toNat_ofNat'] at hbyte
    have hbit := congrArg (·.testBit (j % 8)) hbyte
    have hplace : 8 * (j / 8) + j % 8 = j := Nat.div_add_mod j 8
    simpa only [Nat.testBit_mod_two_pow, Nat.mod_lt j (by decide : 8 > 0), decide_true,
      Bool.true_and, Nat.testBit_shiftRight, hplace] using hbit
  · have hle : 2 ^ (8 * k) ≤ 2 ^ j := Nat.pow_le_pow_right (by decide) (Nat.not_lt.1 hj)
    rw [Nat.testBit_lt_two_pow (Nat.lt_of_lt_of_le ha hle),
      Nat.testBit_lt_two_pow (Nat.lt_of_lt_of_le hb hle)]

@[simp] theorem length_wordBytes (w : UInt64) : (wordBytes w).length = 8 := by
  simp [wordBytes]

theorem wordBytes_injective {v w : UInt64} (h : wordBytes v = wordBytes w) : v = w := by
  refine UInt64.toNat_inj.1 (eq_of_bytes 8 v.toNat_lt w.toNat_lt fun i hi => ?_)
  exact List.map_inj_left.1 h i (List.mem_range.2 hi)

/-- A count below the number of words is told by its word. -/
theorem eq_of_wordBytes {m n : Nat} (hm : m < UInt64.size) (hn : n < UInt64.size)
    (h : wordBytes (UInt64.ofNat m) = wordBytes (UInt64.ofNat n)) : m = n := by
  have hword := congrArg UInt64.toNat (wordBytes_injective h)
  rwa [UInt64.toNat_ofNat_of_lt' hm, UInt64.toNat_ofNat_of_lt' hn] at hword

theorem Digest.toBytes_injective {d e : Digest} (h : d.toBytes = e.toBytes) : d = e := by
  refine BitVec.eq_of_toNat_eq (eq_of_bytes byteCount d.isLt e.isLt fun i hi => ?_)
  -- bytes are listed from the most significant one on
  have hbyte := List.map_inj_left.1 h (byteCount - 1 - i) (List.mem_range.2 (by omega))
  unfold byte at hbyte
  rwa [show byteCount - 1 - (byteCount - 1 - i) = i by omega] at hbyte

/-- Lists of equally many items are told by the items' bytes, if these have one length. -/
theorem flatMap_injective {α β : Type} {f : α → List β} {n : Nat}
    (hlength : ∀ a, (f a).length = n) (hf : ∀ a b, f a = f b → a = b) :
    ∀ {xs ys : List α}, xs.length = ys.length → xs.flatMap f = ys.flatMap f → xs = ys
  | [], [], _, _ => rfl
  | x :: xs, y :: ys, hlen, h => by
    rw [List.flatMap_cons, List.flatMap_cons] at h
    obtain ⟨hhead, htail⟩ := List.append_inj h (by rw [hlength, hlength])
    rw [hf x y hhead, flatMap_injective hlength hf (Nat.succ.inj hlen) htail]

theorem length_flatMap {α β : Type} {f : α → List β} {n : Nat} (hlength : ∀ a, (f a).length = n)
    (xs : List α) : (xs.flatMap f).length = xs.length * n := by
  rw [List.length_flatMap, List.map_congr_left fun a _ => hlength a, List.map_const',
    List.sum_replicate_nat]

namespace Draft

theorem length_refBytes (r : ContentRef) : (refBytes r).length = 40 := by
  simp [refBytes, Digest.byteCount]

theorem refBytes_injective (r s : ContentRef) (h : refBytes r = refBytes s) : r = s := by
  obtain ⟨hid, hsize⟩ := List.append_inj h (by simp)
  obtain ⟨⟨d⟩, size⟩ := r
  obtain ⟨⟨e⟩, size'⟩ := s
  obtain rfl : d = e := Digest.toBytes_injective hid
  obtain rfl : size = size' := wordBytes_injective hsize
  rfl

/-- The lists of the draft are no longer than a word can count. -/
structure Counted (d : Draft) : Prop where
  previous : d.previous.length < UInt64.size
  content : d.content.length < UInt64.size

/-- The byte string tells the draft. -/
theorem preimage_injective {d e : Draft} (hd : d.Counted) (he : e.Counted)
    (h : d.preimage = e.preimage) : d = e := by
  have hblock : ∀ id : BlockId, id.digest.toBytes.length = 32 := fun id =>
    id.digest.length_toBytes
  have hbytes : ∀ a b : BlockId, a.digest.toBytes = b.digest.toBytes → a = b := by
    rintro ⟨a⟩ ⟨b⟩ hab
    rw [show a = b from Digest.toBytes_injective hab]
  unfold preimage at h
  simp only [List.append_assoc] at h
  -- field by field from the front, where the counts give the lengths of the lists
  obtain ⟨hcount, h⟩ := List.append_inj h (by simp)
  have hcount := eq_of_wordBytes hd.previous he.previous hcount
  obtain ⟨hprevious, h⟩ := List.append_inj h (by
    rw [length_flatMap hblock, length_flatMap hblock, hcount])
  obtain ⟨hchain, h⟩ := List.append_inj h (by simp)
  obtain ⟨hitems, h⟩ := List.append_inj h (by simp)
  have hitems := eq_of_wordBytes hd.content he.content hitems
  obtain ⟨hcontent, h⟩ := List.append_inj h (by
    rw [length_flatMap length_refBytes, length_flatMap length_refBytes, hitems])
  obtain ⟨hweight, h⟩ := List.append_inj h (by simp)
  obtain ⟨hcurrent, h⟩ := List.append_inj h (by simp)
  obtain ⟨hnext, hproposer⟩ := List.append_inj h (by simp)
  have hprevious := flatMap_injective hblock hbytes hcount hprevious
  have hcontent := flatMap_injective length_refBytes refBytes_injective hitems hcontent
  have hchain := eq_of_wordBytes d.chain.lt e.chain.lt hchain
  have hweight := wordBytes_injective hweight
  have hcurrent := wordBytes_injective hcurrent
  have hnext := wordBytes_injective hnext
  have hproposer : d.proposer = e.proposer :=
    String.toByteArray_inj.1 (ByteArray.ext (Array.toList_inj.1 hproposer))
  obtain ⟨previous, ⟨number, _⟩, content, weight, ⟨current, next⟩, proposer⟩ := d
  obtain ⟨previous', ⟨number', _⟩, content', weight', ⟨current', next'⟩, proposer'⟩ := e
  dsimp only at *
  subst hprevious hchain hcontent hweight hcurrent hnext hproposer
  rfl

/-- Six words are always there. -/
theorem le_length_preimage (d : Draft) : 48 ≤ d.preimage.length := by
  unfold preimage
  simp only [List.length_append, length_wordBytes]
  omega

/-- Two drafts have one byte string exactly if they agree in every field. So, unless the digest
confuses their byte strings, their blocks have one identity exactly if they are one block. -/
theorem named_apart {d e : Draft} (hd : d.Counted) (he : e.Counted) :
    (d.preimage = e.preimage ↔ d = e) ∧
      ((Blake3.hash d.preimage = Blake3.hash e.preimage → d.preimage = e.preimage) →
        ((Block.ofDraft d).id = (Block.ofDraft e).id ↔ Block.ofDraft d = Block.ofDraft e)) := by
  have htold : d.preimage = e.preimage ↔ d = e := ⟨preimage_injective hd he, congrArg preimage⟩
  refine ⟨htold, fun hfree => ⟨fun hid => ?_, congrArg Block.id⟩⟩
  have hhash : Blake3.hash d.preimage = Blake3.hash e.preimage := congrArg BlockId.digest hid
  exact congrArg Block.ofDraft (htold.1 (hfree hhash))

/-- A draft whose previous block goes by the bytes of four ones. -/
def sampleFollowing : Draft :=
  .extending .root ⟨Digest.ofBytes (List.replicate 4 (wordBytes 1)).flatten⟩ ⟨1, 1⟩

/-- A draft whose proposer goes by the same bytes. But for the counts, the two byte strings would be
the bytes of eight ones. -/
def sampleProposed : Draft :=
  { sampleFollowing with
    previous := []
    proposer := String.join (List.replicate 4 "\x01\x00\x00\x00\x00\x00\x00\x00") }

theorem sample_named_apart : sampleFollowing.Counted ∧ sampleProposed.Counted ∧
    sampleFollowing.preimage.length = sampleProposed.preimage.length ∧
    sampleFollowing.preimage ≠ sampleProposed.preimage ∧
    (Block.ofDraft sampleFollowing).id ≠ (Block.ofDraft sampleProposed).id := by
  have hfollowing : sampleFollowing.Counted := ⟨by decide, by decide⟩
  have hproposed : sampleProposed.Counted := ⟨by decide, by decide⟩
  have hne : sampleFollowing ≠ sampleProposed := fun h =>
    List.cons_ne_nil _ _ (congrArg Draft.previous h)
  have hhash : Blake3.hash sampleFollowing.preimage ≠ Blake3.hash sampleProposed.preimage := by
    decide +kernel
  obtain ⟨htold, hnamed⟩ := named_apart hfollowing hproposed
  refine ⟨hfollowing, hproposed, by decide +kernel, mt htold.1 hne, mt (hnamed ?_).1 ?_⟩
  · exact fun h => absurd h hhash
  · exact fun h => hne (congrArg Block.toDraft h)

end Draft

end ShardLedger
