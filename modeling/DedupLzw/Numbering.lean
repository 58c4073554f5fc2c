/-
**The numbers of the chunks.**

`runApp` counts the new chunks in `curr`, `dedup_hash` enters the digests with these numbers, and
the decoder finds a repeated chunk by its number among the chunks it has decompressed.  Over a whole
run, across the packets, the three agree: the records are the stream of chunks deduplicated by
digest (`DedupLzw/FirstSeen.lean`), written out.

The counter is an `int`, so this is about runs with fewer than 2³¹ different digests.

Main definitions:

* `DedupLzw.App.recordOf` — the record that stands for an entry of the deduplicated stream;
* `DedupLzw.App.Deduplicates` — the state of a run that has deduplicated its chunks;
* `DedupLzw.App.Numbered` — what the numbers mean, in terms of the chunks and the records.

Main results:

* `DedupLzw.App.Deduplicates.processChunk` — one more chunk;
* `DedupLzw.App.Reachable.deduplicates` — every run deduplicates its chunks;
* `DedupLzw.App.reachable_numbered` — **encoder and decoder agree on the numbers**.
-/

import DedupLzw.Cuts
import DedupLzw.FirstSeen
import DedupLzw.Records

set_option relaxedAutoImplicit false
set_option autoImplicit false

namespace DedupLzw

namespace App

open Cdc Sha FirstSeen

/-! ### `dedup_hash` -/

theorem dedup_hash_of_some {shaSum : List UInt8} {shaMap : ShaMap} (curr : BitVec 32)
    {x : BitVec 32} (h : shaMap.lookup shaSum = some x) :
    dedup_hash shaSum shaMap curr = (x, shaMap) := by
  rw [dedup_hash, h]

theorem dedup_hash_of_none {shaSum : List UInt8} {shaMap : ShaMap} (curr : BitVec 32)
    (h : shaMap.lookup shaSum = none) :
    dedup_hash shaSum shaMap curr = (-1, shaMap ++ [(shaSum, curr)]) := by
  rw [dedup_hash, h]

section Kernel

variable (lzw_hw_streams : List UInt8 → ℕ → List UInt8) {st : AppState}

/-! ### The deduplicated stream -/

/-- The record written for an entry of the deduplicated stream. -/
def recordOf : Entry (List UInt8) → Record
  | .fresh chunk =>
      let tempbuf := lzw_hw_streams chunk chunk.length
      .compressed (tempCount tempbuf) (tempBody tempbuf (tempCount tempbuf))
  | .again n => .duplicate (BitVec.ofNat 32 n)

/-- The record of a chunk for which `dedup_hash` returns `x`. -/
def recordFor (chunk : List UInt8) (x : BitVec 32) : Record :=
  if x = -1 then recordOf lzw_hw_streams (.fresh chunk) else .duplicate x

section ProcessChunk

variable (st : AppState) (chunk : List UInt8)

theorem processChunk_shaMap :
    (processChunk lzw_hw_streams st chunk).shaMap
      = (dedup_hash (SHA_new chunk) st.shaMap st.curr).2 := by
  unfold processChunk
  dsimp only
  split <;> rfl

theorem processChunk_curr :
    (processChunk lzw_hw_streams st chunk).curr
      = if (dedup_hash (SHA_new chunk) st.shaMap st.curr).1 = -1 then st.curr + 1
        else st.curr := by
  unfold processChunk
  dsimp only
  split <;> rfl

theorem processChunk_records :
    (processChunk lzw_hw_streams st chunk).records = st.records ++
      [recordFor lzw_hw_streams chunk (dedup_hash (SHA_new chunk) st.shaMap st.curr).1] := by
  unfold processChunk recordFor
  dsimp only
  split <;> rfl

theorem processChunk_file :
    (processChunk lzw_hw_streams st chunk).file = st.file ++
      (recordFor lzw_hw_streams chunk (dedup_hash (SHA_new chunk) st.shaMap st.curr).1).bytes := by
  unfold processChunk recordFor
  dsimp only
  split <;> rfl

/-- A digest that has a number keeps it. -/
theorem processChunk_lookup {digest : List UInt8} {x : BitVec 32}
    (h : st.shaMap.lookup digest = some x) :
    (processChunk lzw_hw_streams st chunk).shaMap.lookup digest = some x := by
  rw [processChunk_shaMap, dedup_hash]
  split
  · rw [List.lookup_append, h]
    rfl
  · exact h

/-- The digest of a processed chunk has a number. -/
theorem processChunk_lookup_self :
    ∃ x, (processChunk lzw_hw_streams st chunk).shaMap.lookup (SHA_new chunk) = some x := by
  rw [processChunk_shaMap]
  cases h : st.shaMap.lookup (SHA_new chunk) with
  | none =>
      rw [dedup_hash_of_none _ h, List.lookup_append, h]
      exact ⟨st.curr, by simp⟩
  | some x =>
      rw [dedup_hash_of_some _ h]
      exact ⟨x, h⟩

end ProcessChunk

/-- The run has deduplicated its chunks by their digests, and written out the result. -/
structure Deduplicates (st : AppState) : Prop where
  shaMap : st.shaMap = numbered (BitVec.ofNat 32) (firsts (st.chunks.map SHA_new))
  curr : st.curr = BitVec.ofNat 32 (firsts (st.chunks.map SHA_new)).length
  records : st.records = (entries SHA_new st.chunks).map (recordOf lzw_hw_streams)
  file : st.file = st.records.flatMap Record.bytes

variable {lzw_hw_streams}

theorem deduplicates_init : Deduplicates lzw_hw_streams AppState.init := ⟨rfl, rfl, rfl, rfl⟩

theorem Deduplicates.frame (h : Deduplicates lzw_hw_streams st) (b : Buffer) (n p i : ℕ) :
    Deduplicates lzw_hw_streams (st.frame b n p i) := ⟨h.shaMap, h.curr, h.records, h.file⟩

/-- What is looked up. -/
theorem Deduplicates.lookup (h : Deduplicates lzw_hw_streams st) (digest : List UInt8) :
    st.shaMap.lookup digest
      = if digest ∈ firsts (st.chunks.map SHA_new)
        then some (BitVec.ofNat 32 ((firsts (st.chunks.map SHA_new)).idxOf digest)) else none := by
  rw [h.shaMap, lookup_numbered]

/-- A small number is not the -1 by which `dedup_hash` says that a digest is new. -/
theorem ofNat_ne_neg_one {n : ℕ} (h : n < 2 ^ 31) : BitVec.ofNat 32 n ≠ -1 := by
  intro heq
  have hval := congrArg BitVec.toNat heq
  simp at hval
  omega

/-- The number of different digests. -/
def digests (chunks : List (List UInt8)) : ℕ := (firsts (chunks.map SHA_new)).length

theorem digests_le (chunks : List (List UInt8)) : digests chunks ≤ chunks.length := by
  have := length_firsts_le (chunks.map SHA_new)
  rwa [List.length_map] at this

theorem digests_le_append (chunks chunks' : List (List UInt8)) :
    digests chunks ≤ digests (chunks ++ chunks') := by
  rw [digests, digests, List.map_append]
  exact length_firsts_le_append _ _

/-- One more chunk. -/
theorem Deduplicates.processChunk (h : Deduplicates lzw_hw_streams st) (chunk : List UInt8)
    (hlen : digests st.chunks < 2 ^ 31) :
    Deduplicates lzw_hw_streams (processChunk lzw_hw_streams st chunk) := by
  have hlookup := h.lookup (SHA_new chunk)
  have hfirsts : firsts ((st.chunks ++ [chunk]).map SHA_new)
      = FirstSeen.see (firsts (st.chunks.map SHA_new)) (SHA_new chunk) := by
    rw [List.map_append, List.map_singleton, firsts_concat]
  have hfile : (App.processChunk lzw_hw_streams st chunk).file
      = (App.processChunk lzw_hw_streams st chunk).records.flatMap Record.bytes := by
    rw [processChunk_file, processChunk_records, List.flatMap_append, ← h.file,
      List.flatMap_singleton]
  by_cases hmem : SHA_new chunk ∈ firsts (st.chunks.map SHA_new)
  · -- the digest has a number, and it is not -1
    have hidx := lt_trans (List.idxOf_lt_length_of_mem hmem) hlen
    have hne := ofNat_ne_neg_one hidx
    rw [if_pos hmem] at hlookup
    rw [see_of_mem hmem] at hfirsts
    have hfound := dedup_hash_of_some st.curr hlookup
    refine ⟨?_, ?_, ?_, hfile⟩
    · rw [processChunk_shaMap, hfound, processChunk_chunks, hfirsts, h.shaMap]
    · rw [processChunk_curr, hfound, if_neg hne, processChunk_chunks, hfirsts, h.curr]
    · rw [processChunk_records, hfound, recordFor, if_neg hne, processChunk_chunks, entries_concat,
        entry, if_pos hmem, List.map_append, ← h.records]
      rfl
  · -- the digest is entered under the next number
    rw [if_neg hmem] at hlookup
    rw [see_of_notMem hmem] at hfirsts
    have hfound := dedup_hash_of_none st.curr hlookup
    refine ⟨?_, ?_, ?_, hfile⟩
    · rw [processChunk_shaMap, hfound, processChunk_chunks, hfirsts, numbered_concat, ← h.shaMap,
        h.curr]
    · rw [processChunk_curr, hfound, if_pos rfl, processChunk_chunks, hfirsts, h.curr,
        List.length_append, List.length_singleton, BitVec.ofNat_add]
      rfl
    · rw [processChunk_records, hfound, recordFor, if_pos rfl, processChunk_chunks, entries_concat,
        entry, if_neg hmem, List.map_append, ← h.records]
      rfl

/-- Every run deduplicates its chunks. -/
theorem Reachable.deduplicates (h : Reachable lzw_hw_streams st)
    (hlen : digests st.chunks < 2 ^ 31) : Deduplicates lzw_hw_streams st := by
  induction h with
  | init => exact deduplicates_init
  | enter inputBuf length _ _ ih => exact (ih hlen).frame inputBuf length 0 0
  | @round st _ _ ih =>
      obtain ⟨e, _, hround⟩ := appRound_eq lzw_hw_streams st
      rw [hround] at hlen ⊢
      rw [frame_chunks, processChunk_chunks] at hlen
      have hbefore := lt_of_le_of_lt (digests_le_append _ _) hlen
      exact ((ih hbefore).processChunk _ hbefore).frame _ _ _ _

/-! ### What the numbers mean -/

/-- The records before position `n` that hold a compressed chunk. -/
def compressedBefore (st : AppState) (n : ℕ) : ℕ := (st.records.take n).countP Record.isCompressed

/-- Encoder and decoder agree on the numbers of the chunks in the state `st` of a run. -/
structure Numbered (st : AppState) : Prop where
  /-- `shaMap` holds the digests seen so far. -/
  seen : ∀ digest, (∃ index, st.shaMap.lookup digest = some index) ↔
    digest ∈ st.chunks.map SHA_new
  /-- Different digests have different numbers. -/
  injective : ∀ digest digest' index, st.shaMap.lookup digest = some index →
    st.shaMap.lookup digest' = some index → digest = digest'
  /-- The numbers in use are those below `curr`. -/
  onto : ∀ index : BitVec 32, (∃ digest, st.shaMap.lookup digest = some index) ↔
    index.toNat < st.curr.toNat
  /-- They are given in the order in which the digests first appear. -/
  ordered : ∀ digest digest' index index', st.shaMap.lookup digest = some index →
    st.shaMap.lookup digest' = some index' →
    (index.toNat < index'.toNat ↔
      (st.chunks.map SHA_new).idxOf digest < (st.chunks.map SHA_new).idxOf digest')
  /-- `curr` counts the compressed chunks written. -/
  count : st.curr.toNat = compressedBefore st st.records.length
  /-- Every number written is that of a compressed chunk before it, also as the decoder reads it, if
  it keeps one entry of `Chunks` for each of these. -/
  earlier : ∀ n index, st.records[n]? = some (.duplicate index) →
    index.toNat < compressedBefore st n ∧
      ∀ (Chunks : List (List UInt8)) rest, Chunks.length = compressedBefore st n →
        let Header := (Decoder.Stream.readHeader ⟨(Record.duplicate index).bytes ++ rest, false⟩).1
        Header &&& 1 ≠ 0 ∧ (Header >>> 1).toNat = index.toNat ∧
          (Header >>> 1).toNat < Chunks.length
  /-- If equal digests belong to equal chunks, that is the record written for an identical one. -/
  identical : (∀ c ∈ st.chunks, ∀ c' ∈ st.chunks, SHA_new c = SHA_new c' → c = c') →
    ∀ n index, st.records[n]? = some (.duplicate index) →
      ∃ m < n, st.chunks[m]? = st.chunks[n]? ∧ compressedBefore st m = index.toNat ∧
        ∃ count body, st.records[m]? = some (.compressed count body)

/-- Counting the compressed chunks of the records is counting the chunks passed on. -/
theorem countP_recordOf (es : List (Entry (List UInt8))) :
    (es.map (recordOf lzw_hw_streams)).countP Record.isCompressed = (fresh es).length := by
  induction es with
  | nil => rfl
  | cons e es ih =>
      cases e with
      | fresh chunk =>
          rw [List.map_cons, List.countP_cons_of_pos rfl, ih]
          rfl
      | again n =>
          rw [List.map_cons, List.countP_cons_of_neg (by simp [recordOf, Record.isCompressed]), ih]
          rfl

theorem Deduplicates.compressedBefore_eq (h : Deduplicates lzw_hw_streams st) (n : ℕ) :
    compressedBefore st n = (fresh (entries SHA_new (st.chunks.take n))).length := by
  rw [compressedBefore, h.records, ← List.map_take, countP_recordOf, entries_take]

theorem Deduplicates.lookup_eq_some_iff (h : Deduplicates lzw_hw_streams st) {digest : List UInt8}
    {index : BitVec 32} :
    st.shaMap.lookup digest = some index ↔ digest ∈ st.chunks.map SHA_new ∧
      BitVec.ofNat 32 ((firsts (st.chunks.map SHA_new)).idxOf digest) = index := by
  rw [h.lookup]
  by_cases hmem : digest ∈ firsts (st.chunks.map SHA_new)
  · rw [if_pos hmem, Option.some_inj]
    exact (and_iff_right (mem_firsts.1 hmem)).symm
  · rw [if_neg hmem]
    exact iff_of_false (by simp) fun hd => hmem (mem_firsts.2 hd.1)

/-- A duplicate record stands for a number of the deduplicated stream. -/
theorem Deduplicates.again (h : Deduplicates lzw_hw_streams st) {n : ℕ} {index : BitVec 32}
    (hrec : st.records[n]? = some (.duplicate index)) :
    ∃ i, (entries SHA_new st.chunks)[n]? = some (.again i) ∧ BitVec.ofNat 32 i = index := by
  rw [h.records, List.getElem?_map] at hrec
  obtain ⟨e, he, hrecord⟩ := Option.map_eq_some_iff.1 hrec
  cases e with
  | fresh chunk => simp [recordOf] at hrecord
  | again i => exact ⟨i, he, by simpa [recordOf] using hrecord⟩

/-! No number wraps around in a run with fewer than 2³¹ digests. -/

theorem toNat_ofNat_of_lt {n : ℕ} (h : n < 2 ^ 31) : (BitVec.ofNat 32 n).toNat = n := by
  rw [BitVec.toNat_ofNat]
  omega

theorem toNat_idxOf {chunks : List (List UInt8)} (hlen : digests chunks < 2 ^ 31)
    {digest : List UInt8} (hmem : digest ∈ chunks.map SHA_new) :
    (BitVec.ofNat 32 ((firsts (chunks.map SHA_new)).idxOf digest)).toNat
      = (firsts (chunks.map SHA_new)).idxOf digest :=
  toNat_ofNat_of_lt (lt_trans (List.idxOf_lt_length_of_mem (mem_firsts.2 hmem)) hlen)

theorem Deduplicates.toNat_curr (h : Deduplicates lzw_hw_streams st)
    (hlen : digests st.chunks < 2 ^ 31) :
    st.curr.toNat = (firsts (st.chunks.map SHA_new)).length := by
  rw [h.curr]
  exact toNat_ofNat_of_lt hlen

/-- The number of a duplicate record counts compressed chunks before it. -/
theorem Deduplicates.again_lt (h : Deduplicates lzw_hw_streams st)
    (hlen : digests st.chunks < 2 ^ 31) {n i : ℕ}
    (hi : (entries SHA_new st.chunks)[n]? = some (.again i)) :
    i < compressedBefore st n ∧ (BitVec.ofNat 32 i).toNat = i ∧ i < 2 ^ 31 := by
  have hlt := FirstSeen.again_lt SHA_new hi
  have hfresh := congrArg List.length (map_key_fresh SHA_new (st.chunks.take n))
  have hle := digests_le_append (st.chunks.take n) (st.chunks.drop n)
  rw [List.length_map] at hfresh
  rw [List.take_append_drop, digests, ← hfresh] at hle
  have hsmall : i < 2 ^ 31 := by omega
  exact ⟨by rwa [h.compressedBefore_eq], toNat_ofNat_of_lt hsmall, hsmall⟩

/-- A deduplicated run is numbered. -/
theorem Deduplicates.numbered (h : Deduplicates lzw_hw_streams st)
    (hlen : digests st.chunks < 2 ^ 31) : Numbered st where
  seen digest := by
    simp only [h.lookup_eq_some_iff, exists_and_left, exists_eq', and_true]
  injective digest digest' index hd hd' := by
    rw [h.lookup_eq_some_iff] at hd hd'
    have heq := congrArg BitVec.toNat (hd.2.trans hd'.2.symm)
    rw [toNat_idxOf hlen hd.1, toNat_idxOf hlen hd'.1] at heq
    exact (List.idxOf_inj (mem_firsts.2 hd.1)).1 heq
  onto index := by
    rw [h.toNat_curr hlen]
    constructor
    · rintro ⟨digest, hd⟩
      obtain ⟨hmem, rfl⟩ := h.lookup_eq_some_iff.1 hd
      rw [toNat_idxOf hlen hmem]
      exact List.idxOf_lt_length_of_mem (mem_firsts.2 hmem)
    · intro hlt
      refine ⟨(firsts (st.chunks.map SHA_new))[index.toNat], h.lookup_eq_some_iff.2 ⟨?_, ?_⟩⟩
      · exact mem_firsts.1 (List.getElem_mem _)
      · rw [(nodup_firsts _).idxOf_getElem, BitVec.ofNat_toNat, BitVec.setWidth_eq]
  ordered digest digest' index index' hd hd' := by
    obtain ⟨hmem, rfl⟩ := h.lookup_eq_some_iff.1 hd
    obtain ⟨hmem', rfl⟩ := h.lookup_eq_some_iff.1 hd'
    rw [toNat_idxOf hlen hmem, toNat_idxOf hlen hmem']
    exact idxOf_firsts_lt_iff hmem hmem'
  count := by
    have hfresh := congrArg List.length (map_key_fresh SHA_new st.chunks)
    rw [List.length_map] at hfresh
    rw [h.toNat_curr hlen, h.compressedBefore_eq, h.records, List.length_map, length_entries,
      List.take_length, hfresh]
  earlier n index hrec := by
    obtain ⟨i, hi, rfl⟩ := h.again hrec
    obtain ⟨hlt, hval, hsmall⟩ := h.again_lt hlen hi
    refine ⟨by rwa [hval], fun Chunks rest hChunks => ?_⟩
    rw [← hval] at hsmall
    obtain ⟨hbit, hindex⟩ := duplicate_header hsmall
    simp only [Record.bytes, readHeader_headerBytes]
    exact ⟨hbit, hindex, by rwa [hindex, hval, hChunks]⟩
  identical hinj n index hrec := by
    obtain ⟨i, hi, rfl⟩ := h.again hrec
    obtain ⟨_, hval, _⟩ := h.again_lt hlen hi
    obtain ⟨m, hmn, hsame, ⟨chunk, hchunk⟩, hcount⟩ := again_origin SHA_new hinj hi
    refine ⟨m, hmn, hsame, by rw [h.compressedBefore_eq, hcount, hval], ?_⟩
    rw [h.records, List.getElem?_map, hchunk]
    exact ⟨_, _, rfl⟩

/-- Encoder and decoder agree on the numbers of the chunks, in every state of every run of fewer
than 2³¹ chunks. -/
theorem reachable_numbered (h : Reachable lzw_hw_streams st) (hlen : st.chunks.length < 2 ^ 31) :
    Numbered st := by
  have hdigests := lt_of_le_of_lt (digests_le st.chunks) hlen
  exact (h.deduplicates hdigests).numbered hdigests

end Kernel

/-- The same packet twice. -/
theorem reachable_numbered_twice :
    Numbered (runPackets (runLzwKernel false) [(fun _ => 7, 12), (fun _ => 7, 12)]) := by
  refine reachable_numbered (reachable_runPackets _).1 ?_
  rw [runPackets_chunks]
  simp [chunksFrom_window]

end App

end DedupLzw
