/-
**The digest is SHA-256.**

The message that `SHA_new` builds is the padded chunk, byte for byte, and no store goes where an
earlier one went.  The instructions run four rounds at a time: before the group `n` of four rounds
the state holds the working variables after `4 * n` rounds, the temporary holds the next four words
with their constants, and the message registers hold the sixteen words from `4 * n` on.

Main definitions:

* `DedupLzw.Sha.lanes` — four consecutive words in a register;
* `DedupLzw.Sha.groupAt` — the registers before a group of four rounds.

Main results:

* `DedupLzw.Sha.message_eq` — the message is the padded chunk;
* `DedupLzw.Sha.hashRounds_ofVars`, `roundsExtend_groupAt` — four rounds;
* `DedupLzw.Sha.sha256_process_arm_eq` — the loop over the blocks;
* `DedupLzw.Sha.SHA_new_sha256` — **the digest**.
-/

import DedupLzw.Sha
import DedupLzw.Sha256

set_option relaxedAutoImplicit false
set_option autoImplicit false

namespace DedupLzw

namespace Sha

open Cdc Sha256

/-! ### The functions on words -/

theorem chs_eq_ch (x y z : UInt32) : ((y ^^^ z) &&& x) ^^^ z = ch x y z := by
  apply UInt32.toBitVec_inj.1
  ext i hi
  simp only [ch, UInt32.toBitVec_xor, UInt32.toBitVec_and, UInt32.toBitVec_not,
    BitVec.getElem_xor, BitVec.getElem_and, BitVec.getElem_not]
  cases x.toBitVec[i] <;> simp

theorem or_eq_maj (x y z : UInt32) : (x &&& y) ||| ((x ||| y) &&& z) = maj x y z := by
  apply UInt32.toBitVec_inj.1
  ext i hi
  simp only [maj, UInt32.toBitVec_xor, UInt32.toBitVec_and, UInt32.toBitVec_or,
    BitVec.getElem_xor, BitVec.getElem_and, BitVec.getElem_or]
  cases x.toBitVec[i] <;> cases y.toBitVec[i] <;> simp

/-- A word loaded least significant byte first and reversed is the one that starts with its most
significant byte. -/
theorem rev_loadWord (data : Buffer) (p : ℕ) :
    (loadWord data p >>> 24) ||| ((loadWord data p >>> 8) &&& (0xFF00 : UInt32))
      ||| ((loadWord data p <<< 8) &&& (0xFF0000 : UInt32)) ||| (loadWord data p <<< 24)
      = word data p := by
  apply UInt32.toBitVec_inj.1
  apply BitVec.eq_of_getLsbD_eq
  intro i hi
  have hlow : (0xFF00 : UInt32).toBitVec.getLsbD i = (decide (8 ≤ i) && decide (i < 16)) := by
    interval_cases i <;> rfl
  have hhigh : (0xFF0000 : UInt32).toBitVec.getLsbD i = (decide (16 ≤ i) && decide (i < 24)) := by
    interval_cases i <;> rfl
  have hbyte : i < 8 ∨ (8 ≤ i ∧ i < 16) ∨ (16 ≤ i ∧ i < 24) ∨ 24 ≤ i := by omega
  simp only [loadWord, word, UInt32.toBitVec_or, UInt32.toBitVec_and, UInt32.toBitVec_shiftLeft,
    UInt32.toBitVec_shiftRight, UInt8.toBitVec_toUInt32, BitVec.getLsbD_or, BitVec.getLsbD_and,
    hlow, hhigh]
  -- one byte of the word after the other
  rcases hbyte with h | ⟨hge, hlt⟩ | ⟨hge, hlt⟩ | h
  · simp (disch := omega) [decide_eq_true, decide_eq_false]
  · simp (disch := omega) [decide_eq_true, decide_eq_false, show 8 + i - 16 = i - 8 by omega]
  · simp (disch := omega) [decide_eq_true, decide_eq_false, Nat.sub_sub]
  · simp (disch := omega) [decide_eq_true, decide_eq_false]

/-! ### Four rounds -/

/-- The working variables in the two registers of the state. -/
def ofVars (v : Vars) : ShaState := ⟨⟨v.a, v.b, v.c, v.d⟩, ⟨v.e, v.f, v.g, v.h⟩⟩

/-- Four consecutive words in a register. -/
def lanes (f : ℕ → UInt32) (t : ℕ) : U32x4 := ⟨f t, f (t + 1), f (t + 2), f (t + 3)⟩

/-- One of the four rounds of `SHA256hash`. -/
def hashStep (p : U32x4 × U32x4) (w : UInt32) : U32x4 × U32x4 :=
  let (x, y) := p
  let chs := ((y.l1 ^^^ y.l2) &&& y.l0) ^^^ y.l2
  let maj := (x.l0 &&& x.l1) ||| ((x.l0 ||| x.l1) &&& x.l2)
  let t := y.l3 + (ror y.l0 6 ^^^ ror y.l0 11 ^^^ ror y.l0 25) + chs + w
  let e := t + x.l3
  let a := t + (ror x.l0 2 ^^^ ror x.l0 13 ^^^ ror x.l0 22) + maj
  (⟨a, x.l0, x.l1, x.l2⟩, ⟨e, y.l0, y.l1, y.l2⟩)

theorem SHA256hash_eq (x y w : U32x4) :
    SHA256hash x y w = [w.l0, w.l1, w.l2, w.l3].foldl hashStep (x, y) := rfl

/-- A step is a round; the constant is already added to the word. -/
theorem hashStep_ofVars (v : Vars) (k w : UInt32) :
    hashStep ((ofVars v).STATE0, (ofVars v).STATE1) (w + k)
      = ((ofVars (Sha256.round v k w)).STATE0, (ofVars (Sha256.round v k w)).STATE1) := by
  have hwords : v.h + bigSigma1 v.e + ch v.e v.f v.g + (w + k)
      = v.h + bigSigma1 v.e + ch v.e v.f v.g + k + w := by
    rw [UInt32.add_comm w k, UInt32.add_assoc _ k w]
  simp only [hashStep, ofVars, Sha256.round, chs_eq_ch, or_eq_maj, ← hwords, UInt32.add_comm v.d,
    ← UInt32.add_assoc _ (bigSigma0 v.a)]
  rfl

/-- The hash instructions are four rounds. -/
theorem hashRounds_ofVars (M : ℕ → UInt32) (v : Vars) (t : ℕ) :
    hashRounds (ofVars (rounds M v t)) (lanes (fun t => W M t + Sha256.K.getD t 0) t)
      = ofVars (rounds M v (t + 4)) := by
  simp only [hashRounds, vsha256hq_u32, vsha256h2q_u32, SHA256hash_eq, lanes, List.foldl_cons,
    List.foldl_nil, hashStep_ofVars]
  rfl

/-! ### The registers between the groups -/

/-- The registers before the group `n` of four rounds. -/
def groupAt (M : ℕ → UInt32) (v : Vars) (n : ℕ) : ShaBlock where
  state := ofVars (rounds M v (4 * n))
  TMP := lanes (fun t => W M t + Sha256.K.getD t 0) (4 * n)
  MSG0 := lanes (W M) (4 * n)
  MSG1 := lanes (W M) (4 * n + 4)
  MSG2 := lanes (W M) (4 * n + 8)
  MSG3 := lanes (W M) (4 * n + 12)

/-- The schedule instructions give the next four words. -/
theorem su_lanes (M : ℕ → UInt32) (t : ℕ) :
    vsha256su1q_u32 (vsha256su0q_u32 (lanes (W M) t) (lanes (W M) (t + 4))) (lanes (W M) (t + 8))
      (lanes (W M) (t + 12)) = lanes (W M) (t + 16) := by
  have hnext : ∀ s, W M s + smallSigma0 (W M (s + 1)) + W M (s + 9) + smallSigma1 (W M (s + 14))
      = W M (s + 16) := by
    intro s
    rw [W_add_sixteen]
    ac_rfl
  have h0 := hnext t
  have h1 := hnext (t + 1)
  have h2 := hnext (t + 2)
  have h3 := hnext (t + 3)
  simp only [Nat.add_assoc, Nat.reduceAdd] at h0 h1 h2 h3
  -- the upper two lanes use the two words just made
  simp only [lanes, Nat.add_assoc, Nat.reduceAdd, ← h0, ← h1, ← h2, ← h3]
  rfl

theorem roundsExtend_groupAt (M : ℕ → UInt32) (v : Vars) (n : ℕ) :
    roundsExtend (groupAt M v n) (lanes (fun t => Sha256.K.getD t 0) (4 * (n + 1)))
      = groupAt M v (n + 1) := by
  have hmsg := su_lanes M (4 * n)
  have hhash := hashRounds_ofVars M v (4 * n)
  rw [roundsExtend, groupAt, groupAt, ShaBlock.mk.injEq]
  exact ⟨hhash, rfl, rfl, rfl, rfl, hmsg⟩

/-- The groups that extend the schedule. -/
theorem foldl_roundsExtend (M : ℕ → UInt32) (v : Vars) (n : ℕ) :
    ((List.range n).map fun m => lanes (fun t => Sha256.K.getD t 0) (4 * (m + 1))).foldl
      roundsExtend (groupAt M v 0) = groupAt M v n := by
  induction n with
  | zero => rfl
  | succ n ih =>
      rw [List.range_succ, List.map_append, List.foldl_append, ih]
      exact roundsExtend_groupAt M v n

/-! ### The blocks -/

theorem ofVars_compress (v : Vars) (M : ℕ → UInt32) :
    ofVars (compress v M) =
      { STATE0 := vaddq_u32 (ofVars (rounds M v 64)).STATE0 (ofVars v).STATE0
        STATE1 := vaddq_u32 (ofVars (rounds M v 64)).STATE1 (ofVars v).STATE1 } := rfl

/-- The registers a block starts with. -/
theorem groupAt_zero (data : Buffer) (v : Vars) :
    groupAt (Sha256.block data 0) v 0 =
      { state := ofVars v
        TMP := vaddq_u32 (vrev32q_u8 (vld1q_u32 data 0)) (K.getD 0 ⟨0, 0, 0, 0⟩)
        MSG0 := vrev32q_u8 (vld1q_u32 data 0), MSG1 := vrev32q_u8 (vld1q_u32 data 16)
        MSG2 := vrev32q_u8 (vld1q_u32 data 32), MSG3 := vrev32q_u8 (vld1q_u32 data 48) } := by
  have hmsg : ∀ t, t + 3 < 16 →
      vrev32q_u8 (vld1q_u32 data (4 * t)) = lanes (W (Sha256.block data 0)) t := by
    intro t ht
    simp only [vrev32q_u8, vld1q_u32, rev_loadWord, lanes, W_of_lt _ (show t < 16 by omega),
      W_of_lt _ (show t + 1 < 16 by omega), W_of_lt _ (show t + 2 < 16 by omega), W_of_lt _ ht,
      Sha256.block, Nat.mul_zero, Nat.zero_add, Nat.mul_add, Nat.mul_one, Nat.reduceMul]
  have h0 := hmsg 0 (by omega)
  have h4 := hmsg 4 (by omega)
  have h8 := hmsg 8 (by omega)
  have h12 := hmsg 12 (by omega)
  have hK : K.getD 0 ⟨0, 0, 0, 0⟩ = lanes (fun t => Sha256.K.getD t 0) 0 := rfl
  rw [groupAt, ← h0, ← h4, ← h8, ← h12, hK]
  rw [show vrev32q_u8 (vld1q_u32 data 0) = _ from h0]
  rfl

/-- The groups that only hash: without new words the registers still turn, and the words of the last
group come out of the third one. -/
theorem foldl_roundsOnly (M : ℕ → UInt32) (v : Vars) :
    ∃ b, ((K.drop 13).take 3).foldl roundsOnly (groupAt M v 12) = b ∧
      b.state = ofVars (rounds M v 60) ∧
      b.TMP = lanes (fun t => W M t + Sha256.K.getD t 0) 60 := by
  have h48 := hashRounds_ofVars M v 48
  have h52 := hashRounds_ofVars M v 52
  have h56 := hashRounds_ofVars M v 56
  refine ⟨_, rfl, ?_, rfl⟩
  rw [← h56, ← h52, ← h48]
  rfl

/-- One block. -/
theorem shaBlock_ofVars (data : Buffer) (v : Vars) :
    shaBlock (ofVars v) data = ofVars (compress v (Sha256.block data 0)) := by
  have hconsts : (K.drop 1).take 12
      = (List.range 12).map fun m => lanes (fun t => Sha256.K.getD t 0) (4 * (m + 1)) := rfl
  have h60 := hashRounds_ofVars (Sha256.block data 0) v 60
  obtain ⟨b, hb, hstate, htmp⟩ := foldl_roundsOnly (Sha256.block data 0) v
  rw [shaBlock, ofVars_compress, ← groupAt_zero, hconsts, foldl_roundsExtend, hb, hstate, htmp, h60]

/-- The loop over the blocks. -/
theorem sha256_process_arm_eq (data : Buffer) (v : Vars) (length : ℕ) :
    sha256_process_arm (ofVars v) data length = ofVars (hashBlocks data v (length / 64)) := by
  rw [sha256_process_arm, hashBlocks]
  generalize length / 64 = n
  induction n with
  | zero => rfl
  | succ n ih =>
      have hblock : Sha256.block (fun j => data (64 * n + j)) 0 = Sha256.block data n := by
        funext t
        simp only [Sha256.block, word, Nat.mul_zero, Nat.zero_add, Nat.add_assoc]
      rw [List.range_succ, List.foldl_concat, List.foldl_concat, ih, shaBlock_ofVars, hblock]

/-! ### The message -/

theorem foldl_update_of_not_mem {stores : List (ℕ × UInt8)} {j : ℕ} (m : Buffer)
    (hj : j ∉ stores.map Prod.fst) :
    stores.foldl (fun m st => Function.update m st.1 st.2) m j = m j := by
  induction stores generalizing m with
  | nil => rfl
  | cons st stores ih =>
      rw [List.map_cons, List.mem_cons, not_or] at hj
      rw [List.foldl_cons, ih _ hj.2, Function.update_of_ne hj.1]

/-- Where no index is stored to twice, every store stays. -/
theorem foldl_update_of_mem {stores : List (ℕ × UInt8)} (hnodup : (stores.map Prod.fst).Nodup)
    {j : ℕ} {c : UInt8} (m : Buffer) (hmem : (j, c) ∈ stores) :
    stores.foldl (fun m st => Function.update m st.1 st.2) m j = c := by
  induction stores generalizing m with
  | nil => exact absurd hmem List.not_mem_nil
  | cons st stores ih =>
      rw [List.map_cons, List.nodup_cons] at hnodup
      rw [List.foldl_cons]
      rcases List.mem_cons.1 hmem with rfl | htail
      · rw [foldl_update_of_not_mem _ hnodup.1, Function.update_self]
      · exact ih hnodup.2 _ htail

/-- No index of the message is stored to twice. -/
theorem nodup_messageStores (data : List UInt8) : ((messageStores data).map Prod.fst).Nodup := by
  have hdata : (data.mapIdx fun i c => (i, c)).map Prod.fst = List.range data.length := by
    refine List.ext_getElem (by simp) fun i _ _ => ?_
    simp
  simp only [messageStores, List.map_append, List.map_map, hdata, List.map_cons, List.map_nil,
    Function.comp_def, List.map_id']
  refine List.Nodup.append ?_ List.nodup_range' ?_
  · exact List.nodup_range.append (List.nodup_singleton _) (by simp)
  · intro j hj hfield
    have hfield' := List.mem_range'_1.1 hfield
    rcases List.mem_append.1 hj with hdata | hend
    · have := List.mem_range.1 hdata
      omega
    · have := List.mem_singleton.1 hend
      omega

theorem zeros_eq (len : ℕ) : zeros len = zeroCount len := by
  unfold zeros pad buff_len zeroCount
  omega

/-- A byte of the bit length. -/
theorem toUInt8_shiftRight (n : ℕ) {k : ℕ} (hk : k < 8) :
    (UInt64.ofNat n >>> UInt64.ofNat (8 * k)).toUInt8 = UInt8.ofNat (n / 256 ^ k) := by
  rw [← UInt8.toNat_inj, UInt64.toNat_toUInt8, UInt64.toNat_shiftRight, UInt64.toNat_ofNat',
    UInt64.toNat_ofNat', UInt8.toNat_ofNat', Nat.shiftRight_eq_div_pow]
  interval_cases k <;> norm_num <;> omega

theorem len_bytes_eq (len : ℕ) : len_bytes len = bigEndian (8 * len) := by
  have hbits : UInt64.ofNat len * 8 = UInt64.ofNat (8 * len) := by
    rw [Nat.mul_comm, UInt64.ofNat_mul]
    rfl
  have hbyte := fun k (hk : k < 8) => toUInt8_shiftRight (8 * len) hk
  simp only [len_bytes, hbits, bigEndian, List.range_succ, List.range_zero, List.nil_append,
    List.cons_append, List.map_cons, List.map_nil, ← hbyte 0 (by omega), ← hbyte 1 (by omega),
    ← hbyte 2 (by omega), ← hbyte 3 (by omega), ← hbyte 4 (by omega), ← hbyte 5 (by omega),
    ← hbyte 6 (by omega), ← hbyte 7 (by omega)]
  rfl

/-- The message is the padded chunk, and zero behind it. -/
theorem message_eq (data : List UInt8) (j : ℕ) : message data j = (padding data).getD j 0 := by
  have hlen := message_len_eq data.length
  have hpad := length_padding data
  have hzeros := zeros_eq data.length
  by_cases hmem : j ∈ (messageStores data).map Prod.fst
  · obtain ⟨⟨j, c⟩, hstore, rfl⟩ := List.mem_map.1 hmem
    rw [message, foldl_update_of_mem (nodup_messageStores data) _ hstore]
    simp only [messageStores, List.mem_append, List.mem_mapIdx, List.mem_singleton, List.mem_map,
      List.mem_range'_1, Prod.mk.injEq] at hstore
    rcases hstore with (⟨i, hi, rfl, rfl⟩ | ⟨rfl, rfl⟩) | ⟨i, hi, rfl, rfl⟩
    · -- a byte of the chunk
      rw [padding, List.append_assoc, List.append_assoc, List.getD_append _ _ _ _ hi,
        List.getD_eq_getElem _ _ hi]
    · -- the 0x80 byte
      rw [padding, List.append_assoc, List.append_assoc,
        List.getD_append_right _ _ _ _ le_rfl, Nat.sub_self]
      rfl
    · -- a byte of the length field
      have hfront : (data ++ [0x80] ++ List.replicate (zeroCount data.length) (0 : UInt8)).length
          = data.length + zeros data.length + 1 := by
        simp only [List.length_append, List.length_singleton, List.length_replicate]
        omega
      rw [padding, List.getD_append_right _ _ _ _ (hfront ▸ hi.1), hfront, len_bytes_eq]
      congr 1
      dsimp only
      omega
  · rw [message, foldl_update_of_not_mem _ hmem]
    rw [mem_messageStores] at hmem
    rcases Nat.lt_or_ge j (padding data).length with hlt | hge
    · -- one of the zero bytes
      rw [padding, List.append_assoc, List.append_assoc,
        List.getD_append_right _ _ _ _ (by omega), List.getD_append_right _ _ _ _ (by simp; omega),
        List.getD_append _ _ _ _ (by simp; omega)]
      rw [List.getD_eq_getElem?_getD, List.getElem?_replicate]
      split <;> rfl
    · rw [List.getD_eq_default _ _ hge]

/-- The bytes handed over. -/
theorem map_message (data : List UInt8) :
    (List.range (message_len data.length)).map (message data) = padding data := by
  have hlen : (padding data).length = message_len data.length := by
    rw [length_padding, message_len_eq, zeros_eq]
  refine List.ext_getElem (by simp [hlen]) fun j h₁ h₂ => ?_
  rw [List.getElem_map, List.getElem_range, message_eq, List.getD_eq_getElem _ _ h₂]

/-- The digest of a chunk. -/
theorem SHA_new_eq (data : List UInt8) : SHA_new data = sha256 data := by
  have hinit : shaInit = ofVars Sha256.init := rfl
  have hmessage : message data = fun j => (padding data).getD j 0 := funext (message_eq data)
  have hlen : (padding data).length = message_len data.length := by
    rw [length_padding, message_len_eq, zeros_eq]
  have hbytes : ∀ w : UInt32,
      [(w >>> 24).toUInt8, (w >>> 16).toUInt8, (w >>> 8).toUInt8, (w >>> 0).toUInt8]
        = wordBytes w := by
    intro w
    rw [UInt32.shiftRight_zero]
    rfl
  rw [SHA_new, hinit, sha256_process_arm_eq, sha256, hlen, hmessage]
  simp only [hbytes]
  rfl

/-- `SHA_new` computes the SHA-256 digest of every chunk whose padded form fits into its array: the
bytes handed over are the chunk, 0x80, the least number of zero bytes that fill the last block, and
the bit length; no store overwrites another or leaves the array; and different chunks have different
padded messages. -/
theorem SHA_new_sha256 (data : List UInt8) (hlen : data.length ≤ 8183) :
    (∃ z, IsLeast {z | 64 ∣ data.length + 1 + z + 8} z ∧
      (List.range (message_len data.length)).map (message data)
        = data ++ [0x80] ++ List.replicate z 0 ++ bigEndian (8 * data.length)) ∧
      ((messageStores data).map Prod.fst).Nodup ∧
      (∀ j ∈ (messageStores data).map Prod.fst, j < 8192) ∧ message_len data.length ≤ 8192 ∧
      SHA_new data = sha256 data ∧
      ∀ data' : List UInt8, data'.length ≤ 8183 → data' ≠ data →
        (List.range (message_len data'.length)).map (message data')
          ≠ (List.range (message_len data.length)).map (message data) := by
  refine ⟨⟨_, isLeast_zeroCount _, map_message data⟩, nodup_messageStores data,
    ((messageIndices_lt_iff data).2 hlen).1, (message_len_le_iff _).2 hlen, SHA_new_eq data, ?_⟩
  intro data' _ hne
  rw [map_message, map_message]
  exact fun heq => hne (padding_injective heq)

/-- The shortest chunk that needs a second block. -/
theorem SHA_new_sha256_second_block :
    SHA_new (List.replicate 56 97) = sha256 (List.replicate 56 97) :=
  (SHA_new_sha256 (List.replicate 56 97) (by decide)).2.2.2.2.1

end Sha

end DedupLzw
