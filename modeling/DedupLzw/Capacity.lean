/-
**The arrays along the packet path.**

The array `outputChunk` takes the bytes of a chunk with its terminator, `message` takes these with
their padding, and `tempbuf` takes a count and the compressed bytes.  All three are sized after
`MAX_CHUNK_SIZE`, the largest payload of a chunk, but every stage adds something to it.  The padding
is what breaks first: the message of a chunk fits into its array up to a payload of 8182 bytes, and
up to there the other two arrays are large enough.

So the arrays hold what is put into them exactly when no chunk of the packet has a longer payload.
In terms of the packet: wherever more than 8194 bytes follow a content cut, the hash hits its target
within the first 8182 of them.

Main results:

* `DedupLzw.App.chunkAccesses_inBounds_iff` — the accesses for one chunk;
* `DedupLzw.App.foldl_processChunk_inBounds_iff` — those for the chunks of a packet;
* `DedupLzw.App.short_chunks_iff` — when all chunks of a packet are short;
* `DedupLzw.App.runApp_inBounds_iff` — **when all accesses of `runApp` are inside the arrays**.
-/

import DedupLzw.ChunkCodec
import DedupLzw.Cuts
import DedupLzw.Records

set_option relaxedAutoImplicit false
set_option autoImplicit false

namespace DedupLzw

namespace App

open Cdc Sha Lzw

/-! ### One chunk -/

/-- The stores of `runCDC` and the accesses of `SHA_new` are inside their arrays exactly when the
padded message is. -/
theorem chunkAccesses_inBounds_iff (chunk : List UInt8) :
    (∀ a ∈ chunkAccesses chunk, a.InBounds) ↔ chunk.length ≤ 8183 := by
  rw [← messageIndices_lt_iff]
  constructor
  · intro h
    constructor
    · intro j hj
      obtain ⟨st, hst, rfl⟩ := List.mem_map.1 hj
      exact h (.message st.1) (by simp only [chunkAccesses, List.mem_append, List.mem_map]; grind)
    · intro j hj
      exact h (.message j) (by simp only [chunkAccesses, List.mem_append, List.mem_map]; grind)
  · rintro ⟨hstores, hreads⟩ a ha
    have hlen := (messageIndices_lt_iff chunk).1 ⟨hstores, hreads⟩
    rw [chunkAccesses, List.mem_append, List.mem_append] at ha
    rcases ha with (ha | ha) | ha
    · obtain ⟨j, hj, rfl⟩ := List.mem_map.1 ha
      have hj' : j < chunk.length := List.mem_range.1 hj
      show j < 8192
      omega
    · obtain ⟨st, hst, rfl⟩ := List.mem_map.1 ha
      exact hstores st.1 (List.mem_map_of_mem hst)
    · obtain ⟨j, hj, rfl⟩ := List.mem_map.1 ha
      exact hreads j hj

section Kernel

variable {lzw_hw_streams : List UInt8 → ℕ → List UInt8}

/-- The loads from `tempbuf` are inside it, as long as the chunk is not longer than the two other
arrays allow. -/
theorem tempReads_inBounds {signed : Bool} (hkernel : RunsLzw lzw_hw_streams signed)
    {chunk : List UInt8} (hpos : 0 < chunk.length) (hlen : chunk.length ≤ 8183) :
    ∀ a ∈ tempReads (tempCount (lzw_hw_streams chunk chunk.length)), a.InBounds := by
  intro a ha
  obtain ⟨xs, hxs, hbound⟩ := run_LZW_length signed (by omega) hpos
  have hle := length_nonzero_le chunk
  have hsmall : xs.length < 2 ^ 31 := by omega
  rw [(hkernel.tempbuf hxs hsmall).1, tempReads, toInt_ofNat_of_lt hsmall] at ha
  obtain ⟨j, hj, rfl⟩ := List.mem_map.1 ha
  show j < 8192 / 8 * 13
  rcases List.mem_append.1 hj with hj | hj
  · have : j < 4 := by
      simp at hj
      omega
    omega
  · obtain ⟨i, hi, rfl⟩ := List.mem_map.1 hj
    have hi' : i < xs.length := List.mem_range.1 hi
    omega

variable (lzw_hw_streams)

/-- The accesses for one chunk: `tempbuf` is read if the chunk is new. -/
theorem processChunk_accesses (st : AppState) (chunk : List UInt8) :
    (processChunk lzw_hw_streams st chunk).accesses = st.accesses ++ chunkAccesses chunk ∨
      (processChunk lzw_hw_streams st chunk).accesses = st.accesses ++ chunkAccesses chunk ++
        tempReads (tempCount (lzw_hw_streams chunk chunk.length)) := by
  unfold processChunk
  dsimp only
  split
  · exact Or.inr rfl
  · exact Or.inl rfl

variable {lzw_hw_streams}

/-- One more chunk. -/
theorem processChunk_inBounds_iff {signed : Bool} (hkernel : RunsLzw lzw_hw_streams signed)
    (st : AppState) {chunk : List UInt8} (hpos : 0 < chunk.length) :
    ∃ accesses, (processChunk lzw_hw_streams st chunk).accesses = st.accesses ++ accesses ∧
      ((∀ a ∈ accesses, a.InBounds) ↔ chunk.length ≤ 8183) := by
  rcases processChunk_accesses lzw_hw_streams st chunk with h | h
  · exact ⟨_, h, chunkAccesses_inBounds_iff chunk⟩
  · rw [List.append_assoc] at h
    refine ⟨_, h, ?_⟩
    rw [← chunkAccesses_inBounds_iff]
    constructor
    · intro hall a ha
      exact hall a (List.mem_append_left _ ha)
    · intro hchunk a ha
      rcases List.mem_append.1 ha with ha | ha
      · exact hchunk a ha
      · exact tempReads_inBounds hkernel hpos ((chunkAccesses_inBounds_iff chunk).1 hchunk) a ha

/-- The chunks of a packet. -/
theorem foldl_processChunk_inBounds_iff {signed : Bool} (hkernel : RunsLzw lzw_hw_streams signed)
    {cs : List (List UInt8)} (hpos : ∀ c ∈ cs, 0 < c.length) (st : AppState) :
    ∃ accesses, (cs.foldl (processChunk lzw_hw_streams) st).accesses = st.accesses ++ accesses ∧
      ((∀ a ∈ accesses, a.InBounds) ↔ ∀ c ∈ cs, c.length ≤ 8183) := by
  induction cs generalizing st with
  | nil => exact ⟨[], by simp, by simp⟩
  | cons c cs ih =>
      obtain ⟨as, has, hiff⟩ := processChunk_inBounds_iff hkernel st (hpos c List.mem_cons_self)
      obtain ⟨as', has', hiff'⟩ :=
        ih (fun c' hc' => hpos c' (List.mem_cons_of_mem _ hc')) (processChunk lzw_hw_streams st c)
      refine ⟨as ++ as', ?_, ?_⟩
      · rw [List.foldl_cons, has', has, List.append_assoc]
      · rw [List.forall_mem_append, List.forall_mem_cons, hiff, hiff']

end Kernel

/-! ### Long chunks -/

/-- The content cuts are close enough for the payloads of the chunks to be at most 8182 bytes. -/
def CloseCuts (b : Buffer) (length : ℕ) : Prop :=
  ∀ s, Boundary b s → s + 8194 < length → ∃ i, s + 12 ≤ i ∧ i ≤ s + 8182 ∧ Hit b s i

/-- When a chunk is short. -/
theorem cutEnd_le_iff (b : Buffer) (length s : ℕ) :
    cutEnd b length s ≤ s + 8182 ↔
      (s + 8194 < length → ∃ i, s + 12 ≤ i ∧ i ≤ s + 8182 ∧ Hit b s i) := by
  have hend := isChunkEnd_cutEnd b length s
  constructor
  · intro hle hroom
    exact ⟨cutEnd b length s, hend.window, hle, hend.stop.resolve_left (by omega)⟩
  · intro hhit
    by_contra hlong
    obtain ⟨i, hwin, hle, hi⟩ := hhit (hend.least (s + 8182) (by omega) (by omega)).1
    exact (hend.least i hwin (by omega)).2 hi

/-- When all chunks of a packet are short. -/
theorem short_chunks_iff (b : Buffer) (length : ℕ) :
    (∀ c ∈ chunksFrom b length 0, c.length ≤ 8183) ↔ CloseCuts b length := by
  rw [forall_chunksFrom_iff _ fun s => by simp]
  refine forall_congr' fun s => forall_congr' fun _ => ?_
  have hlen : (slice b s (cutEnd b length s) ++ [0]).length = cutEnd b length s - s + 1 := by simp
  have hwindow := window_le_cutEnd b length s
  rw [hlen, ← cutEnd_le_iff]
  constructor
  · intro hshort
    rcases Nat.lt_or_ge (s + 12) length with hroom | hend
    · have := hshort hroom
      omega
    · rw [cutEnd_of_short (by omega)]
      omega
  · intro hle _
    omega

/-! ### The accesses of `runApp` -/

/-- All accesses of the call of `runApp` are inside the arrays. -/
def StaysInBounds (lzw_hw_streams : List UInt8 → ℕ → List UInt8) (b : Buffer) (length : ℕ)
    (st : AppState) : Prop :=
  ∃ accesses, (runApp lzw_hw_streams b length st).accesses = st.accesses ++ accesses ∧
    ∀ a ∈ accesses, a.InBounds

theorem staysInBounds_iff_chunks {lzw_hw_streams : List UInt8 → ℕ → List UInt8} {signed : Bool}
    (hkernel : RunsLzw lzw_hw_streams signed) (b : Buffer) (length : ℕ) (st : AppState) :
    StaysInBounds lzw_hw_streams b length st ↔
      ∀ c ∈ chunksFrom b length 0, c.length ≤ 8183 := by
  have hpos : ∀ c ∈ chunksFrom b length 0, 0 < c.length := by
    intro c hc
    obtain ⟨t, _, rfl⟩ := mem_chunksFrom c hc
    simp
  obtain ⟨as, has, hiff⟩ := foldl_processChunk_inBounds_iff hkernel hpos st
  rw [← hiff, StaysInBounds, runApp_eq, frame_accesses, has]
  constructor
  · rintro ⟨as', heq, hall⟩
    rwa [List.append_cancel_left heq]
  · exact fun hall => ⟨as, rfl, hall⟩

/-- All accesses of `runApp` to `outputChunk`, `message` and `tempbuf` are inside these arrays
exactly when the content cuts of the packet are close enough. -/
theorem runApp_inBounds_iff {lzw_hw_streams : List UInt8 → ℕ → List UInt8} {signed : Bool}
    (hkernel : RunsLzw lzw_hw_streams signed) (b : Buffer) (length : ℕ) (st : AppState) :
    StaysInBounds lzw_hw_streams b length st ↔ CloseCuts b length :=
  (staysInBounds_iff_chunks hkernel b length st).trans (short_chunks_iff b length)

/-- Twelve bytes whose hash is 8193, over and over. -/
def windows : Buffer := fun j => [0, 0, 0, 0, 0, 0, 0, 33, 2, 0, 1, 1].getD (j % 12) 0

theorem windows_hit (k : ℕ) : Hit windows (12 * k) (12 * k + 12) := by
  have hhash : rollingHash windows (12 * k) (12 * k + 12) = 8193 := by
    simp [rollingHash, Finset.sum_range_succ, Nat.add_sub_assoc, windows]
  rw [Hit, hhash]
  exact Or.inl (by norm_num)

/-- All content cuts are between these windows. -/
theorem dvd_of_boundary_windows {s : ℕ} (h : Boundary windows s) : 12 ∣ s := by
  induction h with
  | start => exact dvd_zero 12
  | @cut s e _ hwin _ hleast ih =>
      obtain ⟨k, rfl⟩ := ih
      have heq : e = 12 * k + 12 := by
        by_contra hne
        exact hleast _ le_rfl (by omega) (windows_hit k)
      exact ⟨k + 1, heq⟩

/-- A full slot of them stays inside the arrays. -/
theorem runApp_inBounds_windows :
    StaysInBounds (runLzwKernel false) windows 16384 AppState.init := by
  refine (runApp_inBounds_iff (runsLzw_runLzwKernel false) windows 16384 AppState.init).2 ?_
  intro s hs _
  obtain ⟨k, rfl⟩ := dvd_of_boundary_windows hs
  exact ⟨12 * k + 12, le_rfl, Nat.add_le_add_left (by decide) _, windows_hit k⟩

/-- A full slot of zero bytes, in which the hash never hits its target. -/
theorem zeros_out_of_bounds :
    ¬ StaysInBounds (runLzwKernel false) (fun _ => 0) 16384 AppState.init := by
  rw [staysInBounds_iff_chunks (runsLzw_runLzwKernel false), short_chunks_iff]
  intro hclose
  obtain ⟨i, _, hle, hhit⟩ := hclose 0 Boundary.start (by decide)
  have hhash : rollingHash (fun _ => 0) 0 i = 0 := by simp [rollingHash]
  rw [Hit, hhash] at hhit
  omega

end App

end DedupLzw
