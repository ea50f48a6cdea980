import ShardLedger.Digest.Basic

/-!
# BLAKE3

The unkeyed BLAKE3 hash with a 256-bit output. A message is cut into chunks of 1024 bytes, each
chunk into blocks of 64 bytes that are compressed one after the other into a chaining value, and
the chaining values are joined pairwise, level by level, until one node is left. Joining level by
level, with an odd last value carried up, gives the left-complete tree that the function asks for.

- `Blake3.hash`: the digest of a byte string.
-/

namespace ShardLedger

namespace Blake3

/-- A chaining value: eight words. -/
abbrev Chaining := Vector UInt32 8

/-- A message block, or the working state of a compression: sixteen words. -/
abbrev Words := Vector UInt32 16

/-- The initial chaining value. -/
def iv : Chaining :=
  #v[0x6A09E667, 0xBB67AE85, 0x3C6EF372, 0xA54FF53A,
     0x510E527F, 0x9B05688C, 0x1F83D9AB, 0x5BE0CD19]

/-- The order in which a round passes the message words to the next one. -/
def permutation : Vector (Fin 16) 16 :=
  #v[2, 6, 3, 10, 7, 0, 4, 13, 1, 11, 12, 5, 9, 14, 15, 8]

/-- Marks the first block of a chunk. -/
def chunkStart : UInt32 := 1

/-- Marks the last block of a chunk. -/
def chunkEnd : UInt32 := 2

/-- Marks a node that joins two chaining values. -/
def parentNode : UInt32 := 4

/-- Marks the last compression of all. -/
def rootNode : UInt32 := 8

/-- Rotation to the right, for `n` strictly between 0 and 32. -/
def rotateRight (x n : UInt32) : UInt32 := (x >>> n) ||| (x <<< (32 - n))

/-- The quarter-round: mixes the message words `x` and `y` into four words of the state. -/
def quarter (v : Words) (a b c d : Fin 16) (x y : UInt32) : Words :=
  let va := v[a] + v[b] + x
  let vd := rotateRight (v[d] ^^^ va) 16
  let vc := v[c] + vd
  let vb := rotateRight (v[b] ^^^ vc) 12
  let va := va + vb + y
  let vd := rotateRight (vd ^^^ va) 8
  let vc := vc + vd
  let vb := rotateRight (vb ^^^ vc) 7
  (((v.set a va).set b vb).set c vc).set d vd

/-- One round: the four columns, then the four diagonals. -/
def round (v m : Words) : Words :=
  let v := quarter v 0 4 8 12 m[0] m[1]
  let v := quarter v 1 5 9 13 m[2] m[3]
  let v := quarter v 2 6 10 14 m[4] m[5]
  let v := quarter v 3 7 11 15 m[6] m[7]
  let v := quarter v 0 5 10 15 m[8] m[9]
  let v := quarter v 1 6 11 12 m[10] m[11]
  let v := quarter v 2 7 8 13 m[12] m[13]
  quarter v 3 4 9 14 m[14] m[15]

/-- The message words in the order of the next round. -/
def permute (m : Words) : Words := permutation.map fun i => m[i]

/-- So many rounds, the message words being permuted in between. -/
def rounds : Nat → Words → Words → Words
  | 0, v, _ => v
  | n + 1, v, m => rounds n (round v m) (permute m)

/-- The compression function, cut to the eight words that make a chaining value. -/
def compress (cv : Chaining) (m : Words) (counter : UInt64) (length flags : UInt32) : Chaining :=
  let v : Words :=
    #v[cv[0], cv[1], cv[2], cv[3], cv[4], cv[5], cv[6], cv[7],
       iv[0], iv[1], iv[2], iv[3],
       counter.toUInt32, (counter >>> 32).toUInt32, length, flags]
  let v := rounds 7 v m
  #v[v[0] ^^^ v[8], v[1] ^^^ v[9], v[2] ^^^ v[10], v[3] ^^^ v[11],
     v[4] ^^^ v[12], v[5] ^^^ v[13], v[6] ^^^ v[14], v[7] ^^^ v[15]]

/-- Sixteen little-endian words from at most 64 bytes, the missing bytes being zero. -/
def wordsOf (bytes : List UInt8) : Words :=
  let padded := bytes.toArray
  Vector.ofFn fun i =>
    let byte (k : Nat) : UInt32 := (padded.getD (4 * i.val + k) 0).toUInt32
    byte 0 ||| (byte 1 <<< 8) ||| (byte 2 <<< 16) ||| (byte 3 <<< 24)

/-- The pieces of `size + 1` bytes that a byte string falls into; the last may be shorter, and
an empty string has none. -/
def pieces (size : Nat) (bytes : List UInt8) : List (List UInt8) :=
  match bytes with
  | [] => []
  | b :: rest => (b :: rest.take size) :: pieces size (rest.drop size)
termination_by bytes.length
decreasing_by
  rw [List.length_cons, List.length_drop]
  omega

/-- Compress the blocks of one chunk. `last` is added to the flags of the last block. -/
def chunkBlocks (counter : UInt64) (last : UInt32) (cv : Chaining) (start : UInt32) :
    List (List UInt8) → Chaining
  | [] => compress cv (wordsOf []) counter 0 (start ||| chunkEnd ||| last)
  | [block] =>
    compress cv (wordsOf block) counter (UInt32.ofNat block.length) (start ||| chunkEnd ||| last)
  | block :: rest =>
    chunkBlocks counter last
      (compress cv (wordsOf block) counter (UInt32.ofNat block.length) start) 0 rest

/-- The chaining value of a chunk. -/
def chunk (counter : Nat) (last : UInt32) (bytes : List UInt8) : Chaining :=
  chunkBlocks (UInt64.ofNat counter) last iv chunkStart (pieces 63 bytes)

/-- The chaining value of the node above two others. -/
def join (last : UInt32) (left right : Chaining) : Chaining :=
  compress iv (left ++ right) 0 64 (parentNode ||| last)

/-- One level up: neighbours are joined, and an odd last value is carried. -/
def joinLevel : List Chaining → List Chaining
  | left :: right :: rest => join 0 left right :: joinLevel rest
  | rest => rest

theorem length_joinLevel (cvs : List Chaining) :
    (joinLevel cvs).length = (cvs.length + 1) / 2 := by
  fun_induction joinLevel cvs with
  | case1 left right rest ih => simp [ih]; omega
  | case2 rest h =>
    match rest with
    | [] => rfl
    | [_] => simp
    | left :: right :: rest => exact absurd rfl (h left right rest)

/-- Join level by level; the join that leaves one value is marked as the root. -/
def joinAll : List Chaining → Chaining
  | [] => iv
  | [cv] => cv
  | [left, right] => join rootNode left right
  | a :: b :: c :: rest => joinAll (joinLevel (a :: b :: c :: rest))
termination_by cvs => cvs.length
decreasing_by
  rw [length_joinLevel]
  simp only [List.length_cons]
  omega

/-- The bytes of a chaining value, words being little-endian. -/
def bytesOf (cv : Chaining) : List UInt8 :=
  cv.toList.flatMap fun (w : UInt32) =>
    [w.toUInt8, (w >>> 8).toUInt8, (w >>> 16).toUInt8, (w >>> 24).toUInt8]

/-- The root chaining value of a byte string. -/
def rootOf (bytes : List UInt8) : Chaining :=
  match pieces 1023 bytes with
  | [] => chunk 0 rootNode []
  | [only] => chunk 0 rootNode only
  | chunks => joinAll (chunks.zipIdx.map fun (piece, i) => chunk i 0 piece)

/-- The BLAKE3 digest of a byte string. -/
def hash (bytes : List UInt8) : Digest :=
  Digest.ofBytes (bytesOf (rootOf bytes))

end Blake3

/-- The digest of a text: that of its UTF-8 bytes. -/
def Digest.ofText (text : String) : Digest :=
  Blake3.hash text.toUTF8.data.toList

end ShardLedger
