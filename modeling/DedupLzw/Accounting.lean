/-
**What a run writes, and what it saves.**

For every chunk that has been seen before, `runApp` writes four bytes and counts the bytes that it
has not written.  This count, which the encoder prints in the end, is the length that the output
would have if these chunks were stored as they are, less the length that it has.

Packets that are received again, whatever is behind them in their slots, cost four bytes for each of
their chunks and leave the state of the deduplication as it is, provided that their chunks end where
they end.  And as long as no two different chunks have the same digest, the order of the packets has
no influence on the length of the output, though it has on the output.

Main definitions:

* `DedupLzw.App.saved`, `stored` — the bytes not written, and those there would be otherwise;
* `DedupLzw.App.Accounts` — what is counted in a state.

Main results:

* `DedupLzw.App.Accounts.processChunk` — one more chunk;
* `DedupLzw.App.bytes_dropped_accounts` — **what is counted in all states**;
* `DedupLzw.App.resent_packets` — **packets that are received again**;
* `DedupLzw.App.runPackets_perm` — **packets in another order**;
* `DedupLzw.Network.output_fits` — **the room for the output**.
-/

import DedupLzw.Expansion
import DedupLzw.System

set_option relaxedAutoImplicit false
set_option autoImplicit false

namespace DedupLzw

namespace App

open Cdc Sha FirstSeen

/-! ### What is counted -/

/-- The bytes that are not written for a chunk with this record. -/
def savedBy : List UInt8 × Record → ℤ
  | (_, .compressed _ _) => 0
  | (chunk, .duplicate _) => (chunk.length : ℤ) - 1 - 4

/-- The bytes there would be for a chunk with this record, if no number were written. -/
def storedBy : List UInt8 × Record → ℤ
  | (_, .compressed count body) => ((Record.compressed count body).bytes.length : ℤ)
  | (chunk, .duplicate _) => (chunk.length : ℤ) - 1

/-- The bytes not written for these chunks. -/
def saved (chunks : List (List UInt8)) (records : List Record) : ℤ :=
  ((chunks.zip records).map savedBy).sum

/-- The bytes there would be for these chunks. -/
def stored (chunks : List (List UInt8)) (records : List Record) : ℤ :=
  ((chunks.zip records).map storedBy).sum

section Concat

variable {chunks : List (List UInt8)} {records : List Record}
  (halign : chunks.length = records.length) (chunk : List UInt8) (record : Record)

include halign

theorem saved_concat : saved (chunks ++ [chunk]) (records ++ [record])
    = saved chunks records + savedBy (chunk, record) := by
  simp [saved, List.zip_append halign]

theorem stored_concat : stored (chunks ++ [chunk]) (records ++ [record])
    = stored chunks records + storedBy (chunk, record) := by
  simp [stored, List.zip_append halign]

end Concat

/-- A record is written, or saved. -/
theorem length_bytes_add_savedBy (chunk : List UInt8) (record : Record) :
    (record.bytes.length : ℤ) + savedBy (chunk, record) = storedBy (chunk, record) := by
  cases record with
  | compressed count body => simp [savedBy, storedBy]
  | duplicate index =>
      simp only [savedBy, storedBy, Record.bytes, length_headerBytes]
      push_cast
      ring

section Kernel

variable (lzw_hw_streams : List UInt8 → ℕ → List UInt8)

theorem processChunk_bytes_dropped (st : AppState) (chunk : List UInt8) :
    (processChunk lzw_hw_streams st chunk).bytes_dropped = st.bytes_dropped
      + BitVec.ofInt 32 (savedBy (chunk,
          recordFor lzw_hw_streams chunk (dedup_hash (SHA_new chunk) st.shaMap st.curr).1)) := by
  by_cases h : (dedup_hash (SHA_new chunk) st.shaMap st.curr).1 = -1
  · simp only [processChunk, recordFor, h, if_true, recordOf, savedBy]
    exact (BitVec.add_zero _).symm
  · simp only [processChunk, recordFor, h, if_false, savedBy]
    rfl

/-- What is counted in a state: a record for every chunk, the bytes of the records, and those that
are not written. -/
structure Accounts (st : AppState) : Prop where
  align : st.chunks.length = st.records.length
  file : (st.file.length : ℤ) + saved st.chunks st.records = stored st.chunks st.records
  dropped : st.bytes_dropped = BitVec.ofInt 32 (saved st.chunks st.records)

variable {lzw_hw_streams}

/-- One more chunk. -/
theorem Accounts.processChunk {st : AppState} (h : Accounts st) (chunk : List UInt8) :
    Accounts (processChunk lzw_hw_streams st chunk) := by
  have hrecord := length_bytes_add_savedBy chunk
    (recordFor lzw_hw_streams chunk (dedup_hash (SHA_new chunk) st.shaMap st.curr).1)
  have hfile := h.file
  refine ⟨?_, ?_, ?_⟩
  · rw [processChunk_chunks, processChunk_records, List.length_append, List.length_append, h.align]
    rfl
  · rw [processChunk_chunks, processChunk_records, processChunk_file, List.length_append,
      saved_concat h.align, stored_concat h.align]
    push_cast
    omega
  · rw [processChunk_chunks, processChunk_records, processChunk_bytes_dropped,
      saved_concat h.align, h.dropped, BitVec.ofInt_add]

theorem Reachable.accounts {st : AppState} (h : Reachable lzw_hw_streams st) : Accounts st := by
  induction h with
  | init => exact ⟨rfl, rfl, rfl⟩
  | enter inputBuf length _ _ ih => exact ⟨ih.align, ih.file, ih.dropped⟩
  | @round st _ _ ih =>
      obtain ⟨e, _, hround⟩ := appRound_eq lzw_hw_streams st
      rw [hround]
      have hnext : Accounts (App.processChunk lzw_hw_streams st
          (slice st.inputBuf st.lastChunkIdx e ++ [0])) := ih.processChunk _
      exact ⟨hnext.align, hnext.file, hnext.dropped⟩

/-- A number saves at least eight bytes. -/
theorem eight_le_savedBy {chunks : List (List UInt8)} {records : List Record}
    (hchunks : ∀ c ∈ chunks, 13 ≤ c.length) :
    ∀ p ∈ chunks.zip records, p.2.isCompressed = false → 8 ≤ savedBy p := by
  rintro ⟨c, r⟩ hp hr
  have hlen := hchunks c (List.of_mem_zip hp).1
  cases r with
  | compressed count body => simp [Record.isCompressed] at hr
  | duplicate index =>
      rw [savedBy]
      omega

/-- All numbers together save at least eight bytes each, and at most the payloads. -/
theorem saved_bounds {chunks : List (List UInt8)} {records : List Record}
    (halign : chunks.length = records.length) (hchunks : ∀ c ∈ chunks, 13 ≤ c.length) :
    8 * ((records.countP fun r => !r.isCompressed : ℕ) : ℤ) ≤ saved chunks records ∧
      saved chunks records ≤ ((chunks.map fun c => c.length - 1).sum : ℕ) := by
  induction chunks generalizing records with
  | nil =>
      cases records with
      | nil => exact ⟨le_rfl, le_rfl⟩
      | cons r rs => simp at halign
  | cons c cs ih =>
      cases records with
      | nil => simp at halign
      | cons r rs =>
          rw [List.length_cons, List.length_cons, Nat.add_right_cancel_iff] at halign
          obtain ⟨hlo, hhi⟩ := ih halign fun c' hc' => hchunks c' (List.mem_cons_of_mem _ hc')
          have hlen := hchunks c List.mem_cons_self
          have hsaved : saved (c :: cs) (r :: rs) = savedBy (c, r) + saved cs rs := by
            simp [saved]
          rw [hsaved, List.map_cons, List.sum_cons]
          cases r with
          | compressed count body =>
              rw [List.countP_cons_of_neg (by simp [Record.isCompressed]), savedBy]
              omega
          | duplicate index =>
              rw [List.countP_cons_of_pos (by simp [Record.isCompressed]), savedBy]
              omega

/-- In all states of all runs: the output and the bytes saved are what there would be without
numbers; every number saves at least eight bytes; and the counter holds the bytes saved, modulo 2³²,
and exactly while fewer than 2³¹ bytes have been processed. -/
theorem bytes_dropped_accounts {st : AppState} (h : Reachable lzw_hw_streams st) :
    (st.file.length : ℤ) + saved st.chunks st.records = stored st.chunks st.records ∧
      (∀ p ∈ st.chunks.zip st.records, p.2.isCompressed = false → 8 ≤ savedBy p) ∧
      8 * ((st.records.countP fun r => !r.isCompressed : ℕ) : ℤ) ≤ saved st.chunks st.records ∧
      st.bytes_dropped = BitVec.ofInt 32 (saved st.chunks st.records) ∧
      ((st.chunks.map fun c => c.length - 1).sum < 2 ^ 31 →
        st.bytes_dropped.toInt = saved st.chunks st.records) := by
  have hacc := h.accounts
  have hlong : ∀ c ∈ st.chunks, 13 ≤ c.length := by
    intro c hc
    obtain ⟨payload, rfl, hlo, _⟩ := h.chunk_shape c hc
    rw [List.length_append, List.length_singleton]
    omega
  obtain ⟨hlo, hhi⟩ := saved_bounds hacc.align hlong
  refine ⟨hacc.file, eight_le_savedBy hlong, hlo, hacc.dropped, fun hsmall => ?_⟩
  rw [hacc.dropped]
  exact BitVec.toInt_ofInt_eq_self (by decide) (by omega) (by omega)

/-! ### Packets that are received again -/

variable {packets packets' : List (Buffer × ℕ)}

/-- The packet has the bytes of one of these packets, whose chunks end where it ends. -/
def ResentFrom (packets : List (Buffer × ℕ)) (packet' : Buffer × ℕ) : Prop :=
  ∃ packet ∈ packets, packet'.2 = packet.2 ∧ ExactFit packet.1 packet.2 ∧
    ∀ j < packet.2, packet'.1 j = packet.1 j

theorem ResentFrom.chunksFrom_eq {packet' : Buffer × ℕ} (h : ResentFrom packets packet') :
    ∃ packet ∈ packets, chunksFrom packet'.1 packet'.2 0 = chunksFrom packet.1 packet.2 0 := by
  obtain ⟨packet, hmem, hlen, hfit, hbytes⟩ := h
  have hpos : 1 ≤ packet.2 := by
    have := hfit.1
    omega
  refine ⟨packet, hmem, ?_⟩
  rw [hlen]
  exact chunksFrom_fit ((endFrom_eq_iff hpos).2 hfit).le hbytes

/-- The digests of these packets have all been seen. -/
theorem resent_digests (h : ∀ packet' ∈ packets', ResentFrom packets packet') :
    ∀ c ∈ packets'.flatMap fun packet => chunksFrom packet.1 packet.2 0,
      SHA_new c ∈ (runPackets lzw_hw_streams packets).chunks.map SHA_new := by
  intro c hc
  obtain ⟨packet', hp', hc⟩ := List.mem_flatMap.1 hc
  obtain ⟨packet, hp, hsame⟩ := (h packet' hp').chunksFrom_eq
  rw [runPackets_chunks]
  exact List.mem_map_of_mem (List.mem_flatMap.2 ⟨packet, hp, hsame ▸ hc⟩)

/-- A packet of twelve letters, with something else behind it the second time. -/
theorem resentFrom_letters :
    ResentFrom [((fun _ => 7 : Buffer), 12)] (fun j => if j < 12 then 7 else 8, 12) := by
  refine ⟨_, List.mem_singleton.2 rfl, rfl, ⟨le_rfl, fun e _ hroom => ?_⟩, fun j hj => if_pos hj⟩
  dsimp only at hroom
  omega

/-- A number takes four bytes. -/
theorem length_duplicates (indices : List (BitVec 32)) :
    ((indices.map Record.duplicate).flatMap Record.bytes).length = 4 * indices.length := by
  induction indices with
  | nil => rfl
  | cons index indices ih =>
      rw [List.map_cons, List.flatMap_cons, List.length_append, ih, Record.bytes,
        length_headerBytes, List.length_cons]
      omega

/-- Packets that are received again, with whatever behind them, leave the state of the deduplication
as it is; for each of their chunks the number of an earlier chunk is written, that is, four
bytes. -/
theorem resent_packets (hlen : digests (runPackets lzw_hw_streams packets).chunks < 2 ^ 31)
    (hresent : ∀ packet' ∈ packets', ResentFrom packets packet') :
    let st := runPackets lzw_hw_streams packets
    let st' := runPackets lzw_hw_streams (packets ++ packets')
    st'.shaMap = st.shaMap ∧ st'.curr = st.curr ∧
      ∃ indices : List (BitVec 32), st'.records = st.records ++ indices.map .duplicate ∧
        (∀ index ∈ indices, index.toNat < st.curr.toNat) ∧
        indices.length = (packets'.map fun packet => (chunksFrom packet.1 packet.2 0).length).sum ∧
        st'.file.length = st.file.length + 4 * indices.length := by
  intro st st'
  obtain ⟨cs, hcs⟩ : ∃ cs, cs = packets'.flatMap fun packet => chunksFrom packet.1 packet.2 0 :=
    ⟨_, rfl⟩
  have hseen : ∀ c ∈ cs, SHA_new c ∈ st.chunks.map SHA_new := hcs ▸ resent_digests hresent
  have hchunks : st'.chunks = st.chunks ++ cs := by
    rw [hcs, runPackets_chunks, List.flatMap_append, ← runPackets_chunks lzw_hw_streams packets]
  have hfirsts : firsts (st'.chunks.map SHA_new) = firsts (st.chunks.map SHA_new) := by
    rw [hchunks, List.map_append]
    exact firsts_append_seen fun d hd => by
      obtain ⟨c, hc, rfl⟩ := List.mem_map.1 hd
      exact hseen c hc
  have hlen' : digests st'.chunks < 2 ^ 31 := by
    rw [digests, hfirsts]
    exact hlen
  have hded := (reachable_runPackets packets).1.deduplicates hlen
  have hded' := (reachable_runPackets (packets ++ packets')).1.deduplicates hlen'
  obtain ⟨indices, hindices⟩ : ∃ indices : List (BitVec 32), indices = cs.map fun c =>
      BitVec.ofNat 32 ((firsts (st.chunks.map SHA_new)).idxOf (SHA_new c)) := ⟨_, rfl⟩
  have hrecords : st'.records = st.records ++ indices.map .duplicate := by
    rw [hded'.records, hded.records, hchunks, entries_append_seen SHA_new hseen, List.map_append,
      List.map_map, hindices, List.map_map]
    rfl
  refine ⟨hded'.shaMap.trans (hfirsts ▸ hded.shaMap.symm),
    hded'.curr.trans (hfirsts ▸ hded.curr.symm), indices, hrecords, ?_, ?_, ?_⟩
  · intro index hindex
    rw [hindices] at hindex
    obtain ⟨c, hc, rfl⟩ := List.mem_map.1 hindex
    rw [hded.toNat_curr hlen, toNat_idxOf hlen (hseen c hc)]
    exact List.idxOf_lt_length_of_mem (mem_firsts.2 (hseen c hc))
  · rw [hindices, List.length_map, hcs, List.length_flatMap]
  · rw [hded'.file, hrecords, List.flatMap_append, List.length_append, length_duplicates,
      ← hded.file]

/-! ### Packets in another order -/

/-- The length of the output, from the chunks that are passed on and the number of all chunks. -/
theorem Deduplicates.length_file {st : AppState} (h : Deduplicates lzw_hw_streams st) :
    (st.file.length : ℤ) = ((fresh (entries SHA_new st.chunks)).map fun c =>
          ((recordOf lzw_hw_streams (.fresh c)).bytes.length : ℤ)).sum
        + 4 * ((st.chunks.length : ℤ) - (fresh (entries SHA_new st.chunks)).length) := by
  have hagain : ∀ n, ((recordOf lzw_hw_streams (.again n)).bytes.length : ℤ) = 4 := fun _ => rfl
  have hsum := sum_map_entries (g := fun e => ((recordOf lzw_hw_streams e).bytes.length : ℤ))
    hagain (entries SHA_new st.chunks)
  rw [length_entries] at hsum
  rw [h.file, h.records, List.length_flatMap, List.map_map, ← hsum, Nat.cast_list_sum,
    List.map_map]
  rfl

/-- The bytes saved, from the chunks that are passed on and all chunks. -/
theorem Deduplicates.saved_eq {st : AppState} (h : Deduplicates lzw_hw_streams st) :
    saved st.chunks st.records = (st.chunks.map fun c => (c.length : ℤ) - 1 - 4).sum
      - ((fresh (entries SHA_new st.chunks)).map fun c => (c.length : ℤ) - 1 - 4).sum := by
  rw [← sum_zip_entries, saved, h.records, List.zip_map_right, List.map_map]
  refine congrArg List.sum (List.map_congr_left fun p _ => ?_)
  obtain ⟨c, e⟩ := p
  cases e with
  | fresh c' => rfl
  | again n => rfl

/-- As long as no two different chunks have the same digest, the order of the packets has no
influence on the length of the output, on the number of chunks passed on, on which digests are
entered, nor on the bytes saved. -/
theorem runPackets_perm (hperm : packets.Perm packets')
    (hlen : digests (runPackets lzw_hw_streams packets).chunks < 2 ^ 31)
    (hsha : CollisionFree (runPackets lzw_hw_streams packets).chunks) :
    let st := runPackets lzw_hw_streams packets
    let st' := runPackets lzw_hw_streams packets'
    st.file.length = st'.file.length ∧ st.curr = st'.curr ∧
      (st.shaMap.map Prod.fst).Perm (st'.shaMap.map Prod.fst) ∧
      st.bytes_dropped = st'.bytes_dropped := by
  intro st st'
  have hchunks : st.chunks.Perm st'.chunks := by
    rw [runPackets_chunks, runPackets_chunks]
    exact hperm.flatMap_right _
  have hfresh := fresh_perm SHA_new hchunks hsha
  have hfirsts : (firsts (st.chunks.map SHA_new)).Perm (firsts (st'.chunks.map SHA_new)) := by
    rw [← map_key_fresh, ← map_key_fresh]
    exact hfresh.map SHA_new
  have hlen' : digests st'.chunks < 2 ^ 31 := by
    rw [digests, ← hfirsts.length_eq]
    exact hlen
  have hded := (reachable_runPackets packets).1.deduplicates hlen
  have hded' := (reachable_runPackets packets').1.deduplicates hlen'
  have hfile : (st.file.length : ℤ) = st'.file.length := by
    rw [hded.length_file, hded'.length_file, hchunks.length_eq, hfresh.length_eq,
      (hfresh.map _).sum_eq]
  refine ⟨Int.ofNat_inj.1 hfile, ?_, ?_, ?_⟩
  · rw [hded.curr, hded'.curr, hfirsts.length_eq]
  · rw [hded.shaMap, hded'.shaMap, map_fst_numbered, map_fst_numbered]
    exact hfirsts
  · rw [(reachable_runPackets packets).1.accounts.dropped,
      (reachable_runPackets packets').1.accounts.dropped, hded.saved_eq, hded'.saved_eq,
      (hchunks.map _).sum_eq, (hfresh.map _).sum_eq]

/-! ### The length of the output -/

/-- At most two bytes for each byte that is processed. -/
theorem length_runPackets_le {signed : Bool} (hkernel : RunsLzw lzw_hw_streams signed)
    (packets : List (Buffer × ℕ)) :
    (runPackets lzw_hw_streams packets).file.length
      ≤ 2 * (packets.map fun packet => packet.2 + 11).sum := by
  induction packets using List.reverseRecOn with
  | nil => exact le_rfl
  | append_singleton packets packet ih =>
      have hshape : ∀ c ∈ chunksFrom packet.1 packet.2 0, ChunkShape c := chunkShape_of_mem
      obtain ⟨rs, _, hfile, hsizes⟩ :=
        foldl_processChunk_records hkernel hshape (runPackets lzw_hw_streams packets)
      have htotal := length_records_le hsizes fun c hc => (hshape c hc).1
      have hend := endFrom_le packet.1 packet.2 0 (Nat.zero_le _)
      rw [sum_payloads] at htotal
      rw [runPackets_concat, runApp_eq, frame_file, hfile, List.length_append, List.map_append,
        List.sum_append, List.map_singleton, List.sum_singleton]
      omega

end Kernel

theorem resent_packets_letters :
    let st := runPackets (runLzwKernel false) [(fun _ => 7, 12)]
    let st' := runPackets (runLzwKernel false)
      ([(fun _ => 7, 12)] ++ [(fun j => if j < 12 then 7 else 8, 12)])
    st'.shaMap = st.shaMap ∧ st'.curr = st.curr ∧
      ∃ indices : List (BitVec 32), st'.records = st.records ++ indices.map .duplicate ∧
        (∀ index ∈ indices, index.toNat < st.curr.toNat) ∧
        indices.length = (([(fun j => if j < 12 then 7 else 8, 12)] :
          List (Buffer × ℕ)).map fun packet => (chunksFrom packet.1 packet.2 0).length).sum ∧
        st'.file.length = st.file.length + 4 * indices.length :=
  resent_packets (digests_window _ _) fun packet' hp' => by
    rw [List.mem_singleton.1 hp']
    exact resentFrom_letters

/-- A packet of one window and one of two, in either order. -/
theorem runPackets_perm_letters :
    let st := runPackets (runLzwKernel false) [(fun _ => 7, 12), (fun _ => 7, 24)]
    let st' := runPackets (runLzwKernel false) [(fun _ => 7, 24), (fun _ => 7, 12)]
    st.file.length = st'.file.length ∧ st.curr = st'.curr ∧
      (st.shaMap.map Prod.fst).Perm (st'.shaMap.map Prod.fst) ∧
      st.bytes_dropped = st'.bytes_dropped := by
  have hlen : digests (runPackets (runLzwKernel false)
      [(fun _ => 7, 12), (fun _ => 7, 24)]).chunks < 2 ^ 31 :=
    lt_of_le_of_lt (digests_le_payloadBytes _ _) (by simp [payloadBytes])
  have hwindow : ∀ c ∈ (runPackets (runLzwKernel false)
      [(fun _ => 7, 12), (fun _ => 7, 24)]).chunks, c = List.replicate 12 7 ++ [0] := by
    intro c hc
    rw [runPackets_chunks] at hc
    have htwo : chunksFrom (fun _ => 7) 24 0
        = [List.replicate 12 7 ++ [0], List.replicate 12 7 ++ [0]] := by
      rw [chunksFrom_of_lt (by decide), cutEnd_of_short (by decide), chunksFrom_of_lt (by decide),
        cutEnd_of_short (by decide), chunksFrom_of_le (by decide)]
      rfl
    simpa [htwo, chunksFrom_window, slice] using hc
  refine runPackets_perm (List.Perm.swap _ _ []) hlen fun c hc c' hc' _ => ?_
  rw [hwindow c hc, hwindow c' hc']

/-- The same packet twice. -/
theorem bytes_dropped_accounts_twice :
    let st := runPackets (runLzwKernel false) [(fun _ => 7, 12), (fun _ => 7, 12)]
    (st.file.length : ℤ) + saved st.chunks st.records = stored st.chunks st.records ∧
      (∀ p ∈ st.chunks.zip st.records, p.2.isCompressed = false → 8 ≤ savedBy p) ∧
      8 * ((st.records.countP fun r => !r.isCompressed : ℕ) : ℤ) ≤ saved st.chunks st.records ∧
      st.bytes_dropped = BitVec.ofInt 32 (saved st.chunks st.records) ∧
      ((st.chunks.map fun c => c.length - 1).sum < 2 ^ 31 →
        st.bytes_dropped.toInt = saved st.chunks st.records) :=
  bytes_dropped_accounts (reachable_runPackets _).1

end App

namespace Network

open App Cdc Client Encoder Delivery

/-- The room for the output. -/
def outputSize : ℕ := 70000000

section Kernel

variable {lzw_hw_streams : List UInt8 → ℕ → List UInt8} {signed : Bool} {blocksize clientsize : ℕ}
  {file : List UInt8} {input : ℕ → Buffer} {beyond : Buffer} {s : NetState}

theorem length_blocks_le (hpos : 1 ≤ clientsize) (hfull : clientsize ≤ file.length) :
    (blocks clientsize file.length).length ≤ file.length / clientsize + 1 := by
  have hloops : 1 ≤ file.length / clientsize := (Nat.one_le_div_iff hpos).2 hfull
  rw [blocks, List.length_append, List.length_append, fullBlocks, List.length_map,
    List.length_range, List.length_singleton]
  split
  · rw [List.length_nil]
    omega
  · rw [List.length_singleton]
    omega

/-- Behind a network that keeps the order, in all states: the output has at most two bytes for each
byte of the file and for eleven more behind each of its blocks.  With blocks of the usual size there
is room for the output of any file of up to 34950000 bytes. -/
theorem output_fits (hkernel : RunsLzw lzw_hw_streams signed) (hpos : 1 ≤ clientsize)
    (hclient : clientsize ≤ blocksize) (hblock : blocksize ≤ 16384)
    (hfull : clientsize ≤ file.length) (hfile : file.length < 2 ^ 31)
    (hreach : Relation.ReflTransGen (FifoStep lzw_hw_streams blocksize)
      (NetState.start (Client.main clientsize file beyond).sent input) s) :
    s.encoder.app.file.length ≤ 2 * (file.length + 11 * (file.length / clientsize + 1)) ∧
      (clientsize = 8192 → file.length ≤ 34950000 → s.encoder.app.file.length ≤ outputSize) := by
  have hle := hclient.trans hblock
  obtain ⟨hframed, _, hsent⟩ := client_sent hpos hle hfile beyond
  have hin := inOrder_of_reachable (fun d hd => (hframed d hd).mono hclient) hblock hreach
  -- what has been received is a beginning of the file, in at most all of its blocks
  have hbytes : (payloadBytes s.encoder.packets).length ≤ file.length := by
    have hsplit := congrArg List.length (hin.file_eq hpos hle hfull hfile)
    rw [List.length_append, ← payloadBytes_packets] at hsplit
    omega
  have hcount : s.encoder.packets.length ≤ file.length / clientsize + 1 := by
    have hpayloads := congrArg List.length hin.safe.payloads
    have hlen := congrArg List.length hsent
    have horder := congrArg List.length hin.order
    have hblocks := length_blocks_le hpos hfull
    simp only [payloads, List.length_map, List.length_append] at hpayloads hlen horder
    omega
  have hsum : (s.encoder.packets.map fun packet => packet.2 + 11).sum
      = (payloadBytes s.encoder.packets).length + 11 * s.encoder.packets.length := by
    rw [List.sum_map_add, payloadBytes, List.length_flatMap]
    simp [Nat.mul_comm]
  have hout := length_runPackets_le hkernel s.encoder.packets
  rw [← hin.safe.app_eq, hsum] at hout
  have hbound : s.encoder.app.file.length
      ≤ 2 * (file.length + 11 * (file.length / clientsize + 1)) := by omega
  refine ⟨hbound, fun hsize hsmall => ?_⟩
  rw [hsize] at hbound
  rw [outputSize]
  omega

end Kernel

/-- There is room for the output of a file of one block of the usual size. -/
theorem output_fits_fullBlock :
    (receive (runLzwKernel false) 8192 (resetRing (start fun _ _ => 0))
      (some (datagram 8192 true (List.replicate 8192 7)))).app.file.length ≤ outputSize := by
  have hlen : (List.replicate 8192 (7 : UInt8)).length = 8192 := List.length_replicate
  have hreach := block_reachable (runLzwKernel false) 8192 (fun _ _ => 0) (by decide) hlen
    (by decide) fun _ => 0
  exact (output_fits (runsLzw_runLzwKernel false) (by decide) le_rfl (by decide) hlen.ge
    (by rw [hlen]; decide) hreach).2 rfl (by rw [hlen]; decide)

end Network

end DedupLzw
