/-
**The digest of a chunk (`SHA/SHA3-384_fpga.cpp`).**

`SHA_new` copies the chunk into an array of 8192 bytes, pads it, and hands the padded message to
`sha256_process_arm`, which runs over its blocks with the SHA-2 instructions of the processor.
The instructions are modelled lane by lane after their documentation.

The array `message` is modelled as an unbounded one, together with the list of its stores: an index
from 8192 on is outside the array of the source, and the stores are what a statement about the
bounds is about.

Main definitions:

* `DedupLzw.Sha.vsha256hq_u32`, `vsha256h2q_u32`, `vsha256su0q_u32`, `vsha256su1q_u32` — the
  instructions;
* `DedupLzw.Sha.sha256_process_arm` — the loop over the blocks;
* `DedupLzw.Sha.messageStores`, `DedupLzw.Sha.messageReads` — the indices of `message` in use;
* `DedupLzw.Sha.SHA_new` — the digest.

Main results:

* `DedupLzw.Sha.messageIndices_lt_iff` — when the padded message fits into the array.
-/

import DedupLzw.Cdc

set_option relaxedAutoImplicit false
set_option autoImplicit false

namespace DedupLzw

namespace Sha

open Cdc

/-! ### The instructions -/

/-- `uint32x4_t`, the lowest lane first. -/
structure U32x4 where
  l0 : UInt32
  l1 : UInt32
  l2 : UInt32
  l3 : UInt32
deriving DecidableEq, Repr

/-- `vaddq_u32` -/
def vaddq_u32 (x y : U32x4) : U32x4 := ⟨x.l0 + y.l0, x.l1 + y.l1, x.l2 + y.l2, x.l3 + y.l3⟩

/-- Rotation of a word to the right. -/
def ror (x : UInt32) (n : UInt32) : UInt32 := (x >>> n) ||| (x <<< (32 - n))

/-- Four rounds on the working variables, `a` to `d` in `x` and `e` to `h` in `y`, with the words
`w`: what `SHA256H` and `SHA256H2` have in common. -/
def SHA256hash (x y w : U32x4) : U32x4 × U32x4 :=
  [w.l0, w.l1, w.l2, w.l3].foldl (fun (p : U32x4 × U32x4) w =>
    let (x, y) := p
    let chs := ((y.l1 ^^^ y.l2) &&& y.l0) ^^^ y.l2
    let maj := (x.l0 &&& x.l1) ||| ((x.l0 ||| x.l1) &&& x.l2)
    let t := y.l3 + (ror y.l0 6 ^^^ ror y.l0 11 ^^^ ror y.l0 25) + chs + w
    let e := t + x.l3
    let a := t + (ror x.l0 2 ^^^ ror x.l0 13 ^^^ ror x.l0 22) + maj
    (⟨a, x.l0, x.l1, x.l2⟩, ⟨e, y.l0, y.l1, y.l2⟩)) (x, y)

/-- `vsha256hq_u32 (hash_abcd, hash_efgh, wk)` -/
def vsha256hq_u32 (hash_abcd hash_efgh wk : U32x4) : U32x4 := (SHA256hash hash_abcd hash_efgh wk).1

/-- `vsha256h2q_u32 (hash_efgh, hash_abcd, wk)` -/
def vsha256h2q_u32 (hash_efgh hash_abcd wk : U32x4) : U32x4 := (SHA256hash hash_abcd hash_efgh wk).2

/-- `vsha256su0q_u32` -/
def vsha256su0q_u32 (w0_3 w4_7 : U32x4) : U32x4 :=
  let s (x : UInt32) : UInt32 := ror x 7 ^^^ ror x 18 ^^^ (x >>> 3)
  ⟨w0_3.l0 + s w0_3.l1, w0_3.l1 + s w0_3.l2, w0_3.l2 + s w0_3.l3, w0_3.l3 + s w4_7.l0⟩

/-- `vsha256su1q_u32`: the upper two lanes use the lower two of the result. -/
def vsha256su1q_u32 (tw0_3 w8_11 w12_15 : U32x4) : U32x4 :=
  let s (x : UInt32) : UInt32 := ror x 17 ^^^ ror x 19 ^^^ (x >>> 10)
  let l0 := tw0_3.l0 + w8_11.l1 + s w12_15.l2
  let l1 := tw0_3.l1 + w8_11.l2 + s w12_15.l3
  ⟨l0, l1, tw0_3.l2 + w8_11.l3 + s l0, tw0_3.l3 + w12_15.l0 + s l1⟩

/-- A word loaded from four bytes, the first one least significant. -/
def loadWord (data : Buffer) (p : ℕ) : UInt32 :=
  (data p).toUInt32 ||| ((data (p + 1)).toUInt32 <<< 8) ||| ((data (p + 2)).toUInt32 <<< 16)
    ||| ((data (p + 3)).toUInt32 <<< 24)

/-- `vld1q_u32` at the byte `p`. -/
def vld1q_u32 (data : Buffer) (p : ℕ) : U32x4 :=
  ⟨loadWord data p, loadWord data (p + 4), loadWord data (p + 8), loadWord data (p + 12)⟩

/-- `vrev32q_u8`: the bytes of every lane reversed. -/
def vrev32q_u8 (x : U32x4) : U32x4 :=
  let rev (w : UInt32) : UInt32 :=
    (w >>> 24) ||| ((w >>> 8) &&& (0xFF00 : UInt32)) ||| ((w <<< 8) &&& (0xFF0000 : UInt32))
      ||| (w <<< 24)
  ⟨rev x.l0, rev x.l1, rev x.l2, rev x.l3⟩

/-! ### The blocks -/

/-- The round constants, four at a time. -/
def K : List U32x4 :=
  [⟨0x428A2F98, 0x71374491, 0xB5C0FBCF, 0xE9B5DBA5⟩,
   ⟨0x3956C25B, 0x59F111F1, 0x923F82A4, 0xAB1C5ED5⟩,
   ⟨0xD807AA98, 0x12835B01, 0x243185BE, 0x550C7DC3⟩,
   ⟨0x72BE5D74, 0x80DEB1FE, 0x9BDC06A7, 0xC19BF174⟩,
   ⟨0xE49B69C1, 0xEFBE4786, 0x0FC19DC6, 0x240CA1CC⟩,
   ⟨0x2DE92C6F, 0x4A7484AA, 0x5CB0A9DC, 0x76F988DA⟩,
   ⟨0x983E5152, 0xA831C66D, 0xB00327C8, 0xBF597FC7⟩,
   ⟨0xC6E00BF3, 0xD5A79147, 0x06CA6351, 0x14292967⟩,
   ⟨0x27B70A85, 0x2E1B2138, 0x4D2C6DFC, 0x53380D13⟩,
   ⟨0x650A7354, 0x766A0ABB, 0x81C2C92E, 0x92722C85⟩,
   ⟨0xA2BFE8A1, 0xA81A664B, 0xC24B8B70, 0xC76C51A3⟩,
   ⟨0xD192E819, 0xD6990624, 0xF40E3585, 0x106AA070⟩,
   ⟨0x19A4C116, 0x1E376C08, 0x2748774C, 0x34B0BCB5⟩,
   ⟨0x391C0CB3, 0x4ED8AA4A, 0x5B9CCA4F, 0x682E6FF3⟩,
   ⟨0x748F82EE, 0x78A5636F, 0x84C87814, 0x8CC70208⟩,
   ⟨0x90BEFFFA, 0xA4506CEB, 0xBEF9A3F7, 0xC67178F2⟩]

/-- `STATE0` and `STATE1`. -/
structure ShaState where
  STATE0 : U32x4
  STATE1 : U32x4
deriving DecidableEq, Repr

/-- The variables inside a block: the state, the words and constants of the next four rounds, and
the message words, those used next in `MSG0`. -/
structure ShaBlock where
  state : ShaState
  TMP : U32x4
  MSG0 : U32x4
  MSG1 : U32x4
  MSG2 : U32x4
  MSG3 : U32x4
deriving DecidableEq, Repr

/-- The hash instructions of four rounds. -/
def hashRounds (st : ShaState) (TMP : U32x4) : ShaState where
  STATE0 := vsha256hq_u32 st.STATE0 st.STATE1 TMP
  STATE1 := vsha256h2q_u32 st.STATE1 st.STATE0 TMP

/-- Four rounds that extend the message schedule; `k` holds the constants of the next four.  The
source names the four message registers in turn. -/
def roundsExtend (b : ShaBlock) (k : U32x4) : ShaBlock where
  state := hashRounds b.state b.TMP
  TMP := vaddq_u32 b.MSG1 k
  MSG0 := b.MSG1
  MSG1 := b.MSG2
  MSG2 := b.MSG3
  MSG3 := vsha256su1q_u32 (vsha256su0q_u32 b.MSG0 b.MSG1) b.MSG2 b.MSG3

/-- Four rounds once the message schedule is complete. -/
def roundsOnly (b : ShaBlock) (k : U32x4) : ShaBlock where
  state := hashRounds b.state b.TMP
  TMP := vaddq_u32 b.MSG1 k
  MSG0 := b.MSG1
  MSG1 := b.MSG2
  MSG2 := b.MSG3
  MSG3 := b.MSG0

/-- One block: rounds 0 to 47 extend the schedule, rounds 48 to 59 do not, rounds 60 to 63 prepare
nothing further. -/
def shaBlock (st : ShaState) (data : Buffer) : ShaState :=
  let MSG (p : ℕ) : U32x4 := vrev32q_u8 (vld1q_u32 data p)
  let start : ShaBlock :=
    { state := st, TMP := vaddq_u32 (MSG 0) (K.getD 0 ⟨0, 0, 0, 0⟩)
      MSG0 := MSG 0, MSG1 := MSG 16, MSG2 := MSG 32, MSG3 := MSG 48 }
  let extended := ((K.drop 1).take 12).foldl roundsExtend start
  let last := ((K.drop 13).take 3).foldl roundsOnly extended
  let res := hashRounds last.state last.TMP
  { STATE0 := vaddq_u32 res.STATE0 st.STATE0, STATE1 := vaddq_u32 res.STATE1 st.STATE1 }

/-- `sha256_process_arm`: one block for every 64 bytes. -/
def sha256_process_arm (state : ShaState) (data : Buffer) (length : ℕ) : ShaState :=
  (List.range (length / 64)).foldl (fun st blk => shaBlock st fun j => data (64 * blk + j)) state

/-! ### Padding -/

/-- The bytes of the bit length, the most significant first. -/
def len_bytes (len : ℕ) : List UInt8 :=
  let bit_len : UInt64 := UInt64.ofNat len * 8
  [(bit_len >>> 56).toUInt8, (bit_len >>> 48).toUInt8, (bit_len >>> 40).toUInt8,
   (bit_len >>> 32).toUInt8, (bit_len >>> 24).toUInt8, (bit_len >>> 16).toUInt8,
   (bit_len >>> 8).toUInt8, (bit_len >>> 0).toUInt8]

/-- The length of the chunk with the 0x80 byte and the length field. -/
def buff_len (len : ℕ) : ℕ := len + 9

/-- The number of blocks. -/
def pad (len : ℕ) : ℕ := (buff_len len + 63) / 64

/-- The number of zero bytes between the 0x80 byte and the length field. -/
def zeros (len : ℕ) : ℕ := 64 * pad len - buff_len len

/-- The length of the padded message. -/
def message_len (len : ℕ) : ℕ := 64 * pad len

/-- The stores of `SHA_new` into `message`, in order: the chunk, the 0x80 byte, the length. -/
def messageStores (data : List UInt8) : List (ℕ × UInt8) :=
  let len := data.length
  data.mapIdx (fun i c => (i, c)) ++ [(len, 0x80)] ++
    (List.range' (len + zeros len + 1) (message_len len - (len + zeros len + 1))).map fun j =>
      (j, (len_bytes len).getD (j - len - zeros len - 1) 0)

/-- The array `message`, all zero before the stores. -/
def message (data : List UInt8) : Buffer :=
  (messageStores data).foldl (fun message st => Function.update message st.1 st.2) fun _ => 0

/-- The indices of `message` that `sha256_process_arm` reads. -/
def messageReads (data : List UInt8) : List ℕ := List.range (64 * (message_len data.length / 64))

/-- The initial state. -/
def shaInit : ShaState where
  STATE0 := ⟨0x6a09e667, 0xbb67ae85, 0x3c6ef372, 0xa54ff53a⟩
  STATE1 := ⟨0x510e527f, 0x9b05688c, 0x1f83d9ab, 0x5be0cd19⟩

/-- `SHA_new`: the 32 bytes of the digest. -/
def SHA_new (data : List UInt8) : List UInt8 :=
  let st := sha256_process_arm shaInit (message data) (message_len data.length)
  [st.STATE0.l0, st.STATE0.l1, st.STATE0.l2, st.STATE0.l3,
   st.STATE1.l0, st.STATE1.l1, st.STATE1.l2, st.STATE1.l3].flatMap fun (w : UInt32) =>
    [(w >>> 24).toUInt8, (w >>> 16).toUInt8, (w >>> 8).toUInt8, (w >>> 0).toUInt8]

example : (SHA_new [97, 98, 99]).take 8 = [0xba, 0x78, 0x16, 0xbf, 0x8f, 0x01, 0xcf, 0xea] := by
  decide +kernel

/-! ### The indices in use -/

theorem message_len_eq (len : ℕ) : message_len len = len + zeros len + 9 := by
  simp only [message_len, zeros, pad, buff_len]
  omega

theorem message_len_le_iff (len : ℕ) : message_len len ≤ 8192 ↔ len ≤ 8183 := by
  simp only [message_len, pad, buff_len]
  omega

/-- The indices of the stores: the chunk with its 0x80 byte, and the length field. -/
theorem mem_messageStores {data : List UInt8} {j : ℕ} :
    j ∈ (messageStores data).map Prod.fst ↔
      j ≤ data.length ∨
        data.length + zeros data.length + 1 ≤ j ∧ j < message_len data.length := by
  have hdata : (data.mapIdx fun i c => (i, c)).map Prod.fst = List.range data.length := by
    refine List.ext_getElem (by simp) fun i _ _ => ?_
    simp
  have hlen := message_len_eq data.length
  simp only [messageStores, List.map_append, List.map_map, List.mem_append, hdata, List.mem_range,
    List.map_cons, List.map_nil, List.mem_singleton, Function.comp_def, List.map_id',
    List.mem_range'_1]
  omega

/-- All indices of `message` in use are inside the array exactly when the padded message fits. -/
theorem messageIndices_lt_iff (data : List UInt8) :
    ((∀ j ∈ (messageStores data).map Prod.fst, j < 8192) ∧ ∀ j ∈ messageReads data, j < 8192) ↔
      data.length ≤ 8183 := by
  have hlen := message_len_eq data.length
  rw [← message_len_le_iff]
  constructor
  · rintro ⟨hstores, _⟩
    -- the last store of the length field
    have hlast := hstores (message_len data.length - 1) (mem_messageStores.2 (Or.inr (by omega)))
    omega
  · intro hle
    refine ⟨fun j hj => ?_, fun j hj => ?_⟩
    · have hj' := mem_messageStores.1 hj
      omega
    · have hj' : j < 64 * (message_len data.length / 64) := List.mem_range.1 hj
      omega

end Sha

end DedupLzw
