/-
**How much the output can grow.**

A record is at most twice as long as the payload of its chunk: a number takes four bytes, and a
compressed chunk takes four and 13 bits for each of its codes, of which there are no more than
bytes in the payload.  A payload has at least a window of 12 bytes, and there the two sides meet:
4 + ⌈13 · 12 / 8⌉ is twice 12.  The payloads of a packet add up to the packet and at most eleven
bytes from behind it.

Main definitions:

* `DedupLzw.App.RecordSize` — how long the record of a chunk is.

Main results:

* `DedupLzw.App.endFrom_le` — how far the last chunk reaches;
* `DedupLzw.App.recordFor_size` — the record of one chunk;
* `DedupLzw.App.runApp_expands` — **what a packet adds to the output**.
-/

import DedupLzw.Numbering
import DedupLzw.Records
import DedupLzw.StringBuffers

set_option relaxedAutoImplicit false
set_option autoImplicit false

namespace DedupLzw

namespace App

open Cdc Sha Lzw

/-! ### The payloads of a packet -/

/-- A chunk that starts inside the packet ends at most eleven bytes behind it. -/
theorem cutEnd_le_length {length s : ℕ} (b : Buffer) (hs : s < length) :
    cutEnd b length s ≤ length + 11 := by
  have hend := isChunkEnd_cutEnd b length s
  by_contra hlt
  -- the position before its end would have stopped it
  have hbefore := hend.least (cutEnd b length s - 1) (by omega) (by omega)
  omega

theorem endFrom_le (b : Buffer) (length s : ℕ) (hs : s ≤ length + 11) :
    endFrom b length s ≤ length + 11 := by
  fun_induction endFrom b length s with
  | case1 s hlt ih => exact ih (cutEnd_le_length b hlt)
  | case2 s _ => exact hs

/-- The payloads add up to the packet and what is copied from behind it. -/
theorem sum_payloads (b : Buffer) (length : ℕ) :
    ((chunksFrom b length 0).map fun c => c.length - 1).sum = endFrom b length 0 := by
  have hflat := congrArg List.length (flatten_payloads b length 0)
  rw [length_slice, List.length_flatten, List.map_map] at hflat
  rw [Nat.sub_zero] at hflat
  rw [← hflat]
  refine congrArg List.sum (List.map_congr_left fun c _ => ?_)
  rw [Function.comp_apply, List.length_dropLast]

/-! ### The record of a chunk -/

/-- The length of the record of a chunk: four bytes for a number, or four bytes and the packed codes
that `run_LZW` sends, at most one for every byte of the payload. -/
def RecordSize (signed : Bool) (chunk : List UInt8) (record : Record) : Prop :=
  ∃ st, lzwFinish signed chunk chunk.length = some st ∧ st.sent.length ≤ chunk.length - 1 ∧
    record.bytes.length =
      match record with
      | .duplicate _ => 4
      | .compressed _ _ => 4 + (13 * st.sent.length + 7) / 8

/-- With at least a window of payload, that is at most twice the payload. -/
theorem RecordSize.le_double {signed : Bool} {chunk : List UInt8} {record : Record}
    (h : RecordSize signed chunk record) (hlen : 13 ≤ chunk.length) :
    record.bytes.length ≤ 2 * (chunk.length - 1) := by
  obtain ⟨st, _, hsent, hsize⟩ := h
  rw [hsize]
  cases record with
  | compressed count body =>
      dsimp only
      omega
  | duplicate index =>
      dsimp only
      omega

/-- A chunk as `runCDC` returns it. -/
def ChunkShape (chunk : List UInt8) : Prop :=
  13 ≤ chunk.length ∧ chunk.length ≤ 8193 ∧ chunk.getLast? = some 0

theorem chunkShape_of_mem {b : Buffer} {length : ℕ} :
    ∀ c ∈ chunksFrom b length 0, ChunkShape c := by
  intro c hc
  obtain ⟨t, _, rfl⟩ := mem_chunksFrom c hc
  have hend := isChunkEnd_cutEnd b length t
  have hwindow := hend.window
  have hmax := hend.le_max
  refine ⟨?_, ?_, List.getLast?_concat⟩ <;>
    rw [List.length_append, length_slice, List.length_singleton] <;> omega

section Kernel

variable {lzw_hw_streams : List UInt8 → ℕ → List UInt8} {signed : Bool}

/-- The record of a chunk, whatever `dedup_hash` has returned for it. -/
theorem recordFor_size (hkernel : RunsLzw lzw_hw_streams signed) {chunk : List UInt8}
    (h : ChunkShape chunk) (x : BitVec 32) :
    RecordSize signed chunk (recordFor lzw_hw_streams chunk x) := by
  obtain ⟨hlo, hhi, hlast⟩ := h
  obtain ⟨st, hfin, hsent, hpacks⟩ := lzwFinish_bounded signed (by omega) hlast
  obtain ⟨state, output, hout, hshape⟩ := packs_outputCodes (st.sent.map Prod.fst)
  obtain ⟨rfl, rfl⟩ : st.state = state ∧ st.output = output := by
    rw [hpacks] at hout
    simpa using hout
  have hlen := hshape.length_eq
  rw [List.length_map] at hlen
  refine ⟨st, hfin, hsent, ?_⟩
  by_cases hx : x = -1
  · have hrun : run_LZW signed chunk chunk.length = some st.output := by
      rw [run_LZW, hfin, Option.map_some]
    obtain ⟨hcount, hbody⟩ := hkernel.tempbuf hrun (by omega)
    rw [recordFor, if_pos hx]
    simp only [recordOf, hcount, hbody, Record.bytes]
    rw [List.length_append, length_headerBytes, hlen]
  · rw [recordFor, if_neg hx]
    rfl

/-- The records of a sequence of chunks. -/
theorem foldl_processChunk_records (hkernel : RunsLzw lzw_hw_streams signed)
    {cs : List (List UInt8)} (hcs : ∀ c ∈ cs, ChunkShape c) (st : AppState) :
    ∃ rs, (cs.foldl (processChunk lzw_hw_streams) st).records = st.records ++ rs ∧
      (cs.foldl (processChunk lzw_hw_streams) st).file = st.file ++ rs.flatMap Record.bytes ∧
      List.Forall₂ (RecordSize signed) cs rs := by
  induction cs generalizing st with
  | nil => exact ⟨[], by simp, by simp, List.Forall₂.nil⟩
  | cons c cs ih =>
      obtain ⟨rs, hrecords, hfile, hsizes⟩ := ih
        (fun c' hc' => hcs c' (List.mem_cons_of_mem _ hc')) (processChunk lzw_hw_streams st c)
      have hsize := recordFor_size hkernel (hcs c List.mem_cons_self)
        (dedup_hash (SHA_new c) st.shaMap st.curr).1
      refine ⟨_ :: rs, ?_, ?_, List.Forall₂.cons hsize hsizes⟩
      · rw [List.foldl_cons, hrecords, processChunk_records, List.append_assoc]
        rfl
      · rw [List.foldl_cons, hfile, processChunk_file, List.flatMap_cons, List.append_assoc]

/-- The records together are at most twice as long as the payloads. -/
theorem length_records_le {cs : List (List UInt8)} {rs : List Record}
    (h : List.Forall₂ (RecordSize signed) cs rs) (hcs : ∀ c ∈ cs, 13 ≤ c.length) :
    (rs.flatMap Record.bytes).length ≤ 2 * (cs.map fun c => c.length - 1).sum := by
  induction h with
  | nil => exact le_rfl
  | @cons c r cs rs hsize _ ih =>
      have hhead := hsize.le_double (hcs c List.mem_cons_self)
      have htail := ih fun c' hc' => hcs c' (List.mem_cons_of_mem _ hc')
      rw [List.flatMap_cons, List.length_append, List.map_cons, List.sum_cons]
      omega

/-- What a packet adds to the output: one record for each of its chunks, whose payloads add up to at
most eleven bytes more than the packet; each record has four bytes, or four and the packed codes of
`run_LZW`, and is at most twice as long as the payload; so all records together have at most twice
as many bytes as the packet, and 22 more. -/
theorem runApp_expands (hkernel : RunsLzw lzw_hw_streams signed) (b : Buffer) (length : ℕ)
    (st : AppState) :
    ∃ cs rs, (runApp lzw_hw_streams b length st).chunks = st.chunks ++ cs ∧
      (runApp lzw_hw_streams b length st).records = st.records ++ rs ∧
      (runApp lzw_hw_streams b length st).file = st.file ++ rs.flatMap Record.bytes ∧
      (cs.map fun c => c.length - 1).sum ≤ length + 11 ∧
      List.Forall₂ (fun c r => RecordSize signed c r ∧ r.bytes.length ≤ 2 * (c.length - 1)) cs rs ∧
      (rs.flatMap Record.bytes).length ≤ 2 * (length + 11) := by
  have hshape : ∀ c ∈ chunksFrom b length 0, ChunkShape c := chunkShape_of_mem
  obtain ⟨rs, hrecords, hfile, hsizes⟩ := foldl_processChunk_records hkernel hshape st
  have hlong : ∀ c ∈ chunksFrom b length 0, 13 ≤ c.length := fun c hc => (hshape c hc).1
  have hsum := sum_payloads b length
  have hend := endFrom_le b length 0 (Nat.zero_le _)
  have htotal := length_records_le hsizes hlong
  refine ⟨_, rs, runApp_chunks _ b length st, ?_, ?_, by omega, ?_, by omega⟩
  · rw [runApp_eq, frame_records, hrecords]
  · rw [runApp_eq, frame_file, hfile]
  · exact ((List.forall₂_and_left _ _).2 ⟨hlong, hsizes⟩).imp fun c r h => ⟨h.2, h.2.le_double h.1⟩

end Kernel

/-- A packet of one byte adds at most 24 bytes to the output. -/
theorem runApp_expands_byte :
    (runApp (runLzwKernel false) (fun _ => 7) 1 AppState.init).file.length ≤ 24 := by
  obtain ⟨cs, rs, _, _, hfile, _, _, hle⟩ :=
    runApp_expands (runsLzw_runLzwKernel false) (fun _ => 7) 1 AppState.init
  rw [hfile]
  simpa [AppState.init] using hle

end App

end DedupLzw
