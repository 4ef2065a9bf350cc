import SourceIndex.Text.Number

/-!
# Content digests

The BLAKE3 digest of some octets, of 256 bits and without a key. The input is cut into chunks of
1024 octets, a chunk into blocks of 64, and the chunks are joined in pairs up to one root.
-/

namespace SourceIndex.Digest

/-- Eight words that carry a result from one step to the next. -/
abbrev Chain := Vector UInt32 8

/-- The sixteen words of a block or of the mixing state. -/
abbrev Block := Vector UInt32 16

/-- The chain that every digest starts from. -/
def seed : Chain :=
  #v[0x6A09E667, 0xBB67AE85, 0x3C6EF372, 0xA54FF53A, 0x510E527F, 0x9B05688C, 0x1F83D9AB,
    0x5BE0CD19]

/-- Marks the first block of a chunk. -/
def chunkStart : UInt32 := 1

/-- Marks the last block of a chunk. -/
def chunkEnd : UInt32 := 2

/-- Marks the join of two results. -/
def parentMark : UInt32 := 4

/-- Marks the step that yields the digest. -/
def rootMark : UInt32 := 8

/-- A word turned right by some bits, fewer than 32 and more than none. -/
def rotate (w : UInt32) (n : UInt32) : UInt32 :=
  (w >>> n) ||| (w <<< (32 - n))

/-- Four words of the state mixed with two words of the message. -/
def mix (v : Block) (a b c d : Fin 16) (x y : UInt32) : Block :=
  let va := v[a] + v[b] + x
  let vd := rotate (v[d] ^^^ va) 16
  let vc := v[c] + vd
  let vb := rotate (v[b] ^^^ vc) 12
  let va := va + vb + y
  let vd := rotate (vd ^^^ va) 8
  let vc := vc + vd
  let vb := rotate (vb ^^^ vc) 7
  (((v.set a va).set b vb).set c vc).set d vd

/-- One round: the columns of the state, then its diagonals. -/
def round (v m : Block) : Block :=
  let v := mix v 0 4 8 12 m[0] m[1]
  let v := mix v 1 5 9 13 m[2] m[3]
  let v := mix v 2 6 10 14 m[4] m[5]
  let v := mix v 3 7 11 15 m[6] m[7]
  let v := mix v 0 5 10 15 m[8] m[9]
  let v := mix v 1 6 11 12 m[10] m[11]
  let v := mix v 2 7 8 13 m[12] m[13]
  mix v 3 4 9 14 m[14] m[15]

/-- The message words in the order of the next round. -/
def permute (m : Block) : Block :=
  #v[m[2], m[6], m[3], m[10], m[7], m[0], m[4], m[13], m[1], m[11], m[12], m[5], m[9], m[14],
    m[15], m[8]]

/-- So many rounds, with the message permuted between them. -/
def rounds : Nat → Block → Block → Block
  | 0, v, _ => v
  | n + 1, v, m => rounds n (round v m) (permute m)

/-- What a step works on. -/
structure Input where
  chain : Chain
  block : Block
  counter : UInt64
  size : UInt32
  marks : UInt32

/-- The chain that a step yields. -/
def compress (i : Input) : Chain :=
  let h := i.chain
  let v : Block :=
    #v[h[0], h[1], h[2], h[3], h[4], h[5], h[6], h[7], seed[0], seed[1], seed[2], seed[3],
      i.counter.toUInt32, (i.counter >>> 32).toUInt32, i.size, i.marks]
  let v := rounds 7 v i.block
  Vector.ofFn fun k => v[k.val] ^^^ v[k.val + 8]

/-- A word from its octets, the least significant first. -/
def word (bytes : List UInt8) : UInt32 :=
  bytes.foldr (fun b w => (w <<< 8) ||| b.toUInt32) 0

/-- The words of a block; octets that are missing count as zero. -/
def blockOf (bytes : List UInt8) : Block :=
  Vector.ofFn fun k => word ((bytes.drop (4 * k.val)).take 4)

/-- The last step of a chunk, not yet taken; all blocks but the last are compressed. -/
def chunkInput (counter : UInt64) : Nat → Chain → UInt32 → List UInt8 → Input
  | 0, chain, marks, bytes => ⟨chain, blockOf bytes, counter, bytes.length.toUInt32, marks⟩
  | blocks + 1, chain, marks, bytes =>
      if bytes.length ≤ 64 then
        ⟨chain, blockOf bytes, counter, bytes.length.toUInt32, marks ||| chunkEnd⟩
      else
        let next := compress ⟨chain, blockOf (bytes.take 64), counter, 64, marks⟩
        chunkInput counter blocks next 0 (bytes.drop 64)

/-- The last steps of the chunks of some octets. -/
def chunkInputs : Nat → UInt64 → List UInt8 → List Input
  | 0, _, _ => []
  | chunks + 1, counter, bytes =>
      chunkInput counter 16 seed chunkStart (bytes.take 1024) ::
        chunkInputs chunks (counter + 1) (bytes.drop 1024)

/-- The step that joins two results. -/
def join (left right : Input) : Input :=
  ⟨seed, ((compress left) ++ (compress right)).cast rfl, 0, 64, parentMark⟩

/-- Neighbours joined in pairs; an odd one at the end is left as it is. -/
def joinPairs : List Input → List Input
  | a :: b :: rest => join a b :: joinPairs rest
  | rest => rest

theorem length_joinPairs_le : ∀ inputs : List Input, (joinPairs inputs).length ≤ inputs.length
  | [] => Nat.le_refl _
  | [_] => Nat.le_refl _
  | _ :: _ :: rest => by
      have := length_joinPairs_le rest
      simp only [joinPairs, List.length_cons]
      omega

/-- The last step of all. -/
def rootInput : List Input → Input
  | [] => chunkInput 0 16 seed chunkStart []
  | [a] => a
  | a :: b :: rest => rootInput (join a b :: joinPairs rest)
termination_by inputs => inputs.length
decreasing_by
  have := length_joinPairs_le rest
  simp only [List.length_cons]
  omega

/-- The octets of a word, the least significant first. -/
def octets (w : UInt32) : List UInt8 :=
  [w.toUInt8, (w >>> 8).toUInt8, (w >>> 16).toUInt8, (w >>> 24).toUInt8]

/-- The digest of some octets. -/
def digest (bytes : List UInt8) : List UInt8 :=
  let chunks := max 1 ((bytes.length + 1023) / 1024)
  let root := rootInput (chunkInputs chunks 0 bytes)
  (compress { root with counter := 0, marks := root.marks ||| rootMark }).toList.flatMap octets

/-- Octets written with two hexadecimal digits each. -/
def hex (bytes : List UInt8) : String :=
  String.ofList (bytes.flatMap fun b => Text.hexDigits b.toNat)

/-- The written digest of some octets. -/
def hexDigest (bytes : List UInt8) : String :=
  hex (digest bytes)

end SourceIndex.Digest
