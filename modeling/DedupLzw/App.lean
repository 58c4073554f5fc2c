/-
**The encoder's application (`App.cpp`, `SHA/dedup_hash.cpp`).**

`runApp` processes one packet: it cuts chunks until the packet is used up, looks the digest of each
chunk up among those seen so far, and writes a record, either the compressed chunk or the number of
the chunk it repeats.  The digests and their counter are static variables, so they persist from one
packet to the next.

The FPGA kernel that compresses a chunk is not part of the repository.  It is a parameter here: the
contents of `tempbuf` after the kernel has run on a chunk.  What the program relies on is
`RunsLzw`: the kernel writes the 4-byte count and then the bytes of `run_LZW`.

The state of a run is the frame of `runApp` together with its static variables and the output file,
to whose end `outputBuf` points; the file has no bound here.  It also records the chunks, the
records and the array accesses of the whole run, which nothing in the program reads: an access
outside `outputChunk`, `message` or `tempbuf` shows there and nowhere else.  The timers are left
out.

Main definitions:

* `DedupLzw.App.dedup_hash`, `processChunk`, `appRound`, `appLoop`, `runApp` — the source;
* `DedupLzw.App.RunsLzw` — what the program relies on about the kernel;
* `DedupLzw.App.Reachable`, `runPackets` — the states of all runs, and the run over given packets.

Main results:

* `DedupLzw.App.appRound_eq`, `appRound_advances` — what an iteration does;
* `DedupLzw.App.reachable_runApp`, `reachable_runPackets` — the runs pass through these states.
-/

import DedupLzw.Cdc
import DedupLzw.Sha
import DedupLzw.Lzw

set_option relaxedAutoImplicit false
set_option autoImplicit false

namespace DedupLzw

namespace App

open Cdc Sha Lzw

/-! ### Deduplication -/

/-- `std::unordered_map<std::vector<char>, int>`: the entries, in the order of their insertion. -/
abbrev ShaMap : Type := List (List UInt8 × BitVec 32)

/-- `dedup_hash`: the number of the digest, or -1 when it is new; then it has been inserted. -/
def dedup_hash (shaSum : List UInt8) (shaMap : ShaMap) (curr : BitVec 32) : BitVec 32 × ShaMap :=
  match shaMap.lookup shaSum with
  | none => (-1, shaMap ++ [(shaSum, curr)])
  | some x => (x, shaMap)

/-! ### Records -/

/-- A record of the output. -/
inductive Record where
  /-- A new chunk: the count of its compressed bytes, and the bytes written. -/
  | compressed (count : BitVec 32) (body : List UInt8)
  /-- The number of an earlier chunk. -/
  | duplicate (index : BitVec 32)
deriving DecidableEq, Repr

/-- The four bytes in which a header is written. -/
def headerBytes (header : BitVec 32) : List UInt8 :=
  [0, 8, 16, 24].map fun k => UInt8.ofBitVec (((header >>> k) &&& 0xFF).setWidth 8)

/-- The bytes of a record. -/
def Record.bytes : Record → List UInt8
  | .compressed count body => headerBytes (count <<< 1) ++ body
  | .duplicate index => headerBytes ((index <<< 1) ||| 1)

/-- Whether a record holds a compressed chunk. -/
def Record.isCompressed : Record → Bool
  | .compressed _ _ => true
  | .duplicate _ => false

/-! ### The state -/

/-- An access to one of the three arrays of fixed size. -/
inductive Access where
  /-- A store of `runCDC` into `outputChunk`. -/
  | outputChunk (index : ℕ)
  /-- A store of `SHA_new` into `message`, or a load of `sha256_process_arm` from it. -/
  | message (index : ℕ)
  /-- A load of `runApp` from `tempbuf`. -/
  | tempbuf (index : ℕ)
deriving DecidableEq, Repr

/-- The access is inside its array. -/
def Access.InBounds : Access → Prop
  | .outputChunk index => index < MAX_CHUNK_SIZE
  | .message index => index < 8192
  | .tempbuf index => index < (MAX_CHUNK_SIZE / 8) * 13

/-- The state of a run: the frame of the call of `runApp`, the static variables, the file written so
far, and what has happened so far. -/
structure AppState where
  inputBuf : Buffer
  length : ℕ
  packetTracker : ℕ
  lastChunkIdx : ℕ
  shaMap : ShaMap
  curr : BitVec 32
  bytes_dropped : BitVec 32
  file : List UInt8
  chunks : List (List UInt8)
  records : List Record
  accesses : List Access

/-- Before the first packet. -/
def AppState.init : AppState where
  inputBuf := fun _ => 0
  length := 0
  packetTracker := 0
  lastChunkIdx := 0
  shaMap := []
  curr := 0
  bytes_dropped := 0
  file := []
  chunks := []
  records := []
  accesses := []

/-- Appending a record to the output. -/
def AppState.write (st : AppState) (record : Record) : AppState :=
  { st with file := st.file ++ record.bytes, records := st.records ++ [record] }

/-! ### One chunk -/

/-- The `int` at the start of `tempbuf`. -/
def tempCount (tempbuf : List UInt8) : BitVec 32 :=
  let byte (i : ℕ) : BitVec 32 := (tempbuf.getD i 0).toBitVec.setWidth 32
  (byte 3 <<< 24) ||| (byte 2 <<< 16) ||| (byte 1 <<< 8) ||| byte 0

/-- The bytes copied from `tempbuf`. -/
def tempBody (tempbuf : List UInt8) (count : BitVec 32) : List UInt8 :=
  (List.range count.toInt.toNat).map fun i => tempbuf.getD (i + 4) 0

/-- The loads from `tempbuf`. -/
def tempReads (count : BitVec 32) : List Access :=
  ([3, 2, 1, 0] ++ (List.range count.toInt.toNat).map (· + 4)).map .tempbuf

/-- The accesses of `runCDC` to `outputChunk` and of `SHA_new` to `message`. -/
def chunkAccesses (chunk : List UInt8) : List Access :=
  (List.range chunk.length).map .outputChunk ++
    ((messageStores chunk).map fun st => .message st.1) ++ (messageReads chunk).map .message

/-- The state with another frame of `runApp`. -/
def AppState.frame (st : AppState) (inputBuf : Buffer) (length packetTracker lastChunkIdx : ℕ) :
    AppState :=
  { st with
    inputBuf := inputBuf
    length := length
    packetTracker := packetTracker
    lastChunkIdx := lastChunkIdx }

section Frame

variable (st : AppState) (b b' : Buffer) (n n' p p' i i' : ℕ)

@[simp] theorem frame_inputBuf : (st.frame b n p i).inputBuf = b := rfl

@[simp] theorem frame_length : (st.frame b n p i).length = n := rfl

@[simp] theorem frame_packetTracker : (st.frame b n p i).packetTracker = p := rfl

@[simp] theorem frame_lastChunkIdx : (st.frame b n p i).lastChunkIdx = i := rfl

@[simp] theorem frame_shaMap : (st.frame b n p i).shaMap = st.shaMap := rfl

@[simp] theorem frame_curr : (st.frame b n p i).curr = st.curr := rfl

@[simp] theorem frame_file : (st.frame b n p i).file = st.file := rfl

@[simp] theorem frame_chunks : (st.frame b n p i).chunks = st.chunks := rfl

@[simp] theorem frame_records : (st.frame b n p i).records = st.records := rfl

@[simp] theorem frame_accesses : (st.frame b n p i).accesses = st.accesses := rfl

@[simp] theorem frame_frame :
    (st.frame b n p i).frame b' n' p' i' = st.frame b' n' p' i' := rfl

@[simp] theorem frame_self :
    st.frame st.inputBuf st.length st.packetTracker st.lastChunkIdx = st := rfl

end Frame

/-- The chunk is in `outputChunk` and has been looked up. -/
def AppState.see (st : AppState) (chunk : List UInt8) (shaMap : ShaMap) : AppState :=
  { st with
    shaMap := shaMap
    chunks := st.chunks ++ [chunk]
    accesses := st.accesses ++ chunkAccesses chunk }

/-- The branch for a repeated chunk. -/
def writeDuplicate (st : AppState) (chunk : List UInt8) (index : BitVec 32) : AppState :=
  { st with
    bytes_dropped := st.bytes_dropped + BitVec.ofInt 32 ((chunk.length : ℤ) - 1 - 4)
  }.write (.duplicate index)

section Kernel

variable (lzw_hw_streams : List UInt8 → ℕ → List UInt8)

/-- The branch for a new chunk: `tempbuf` is what the kernel returns for it. -/
def writeCompressed (st : AppState) (chunk : List UInt8) : AppState :=
  let tempbuf := lzw_hw_streams chunk chunk.length
  let count := tempCount tempbuf
  { st with
    curr := st.curr + 1
    accesses := st.accesses ++ tempReads count
  }.write (.compressed count (tempBody tempbuf count))

/-- What follows `runCDC` in the loop of `runApp`, for the chunk in `outputChunk`. -/
def processChunk (st : AppState) (chunk : List UInt8) : AppState :=
  let found := dedup_hash (SHA_new chunk) st.shaMap st.curr
  let st := st.see chunk found.2
  if found.1 = -1 then writeCompressed lzw_hw_streams st chunk
  else writeDuplicate st chunk found.1

/-- One iteration of the loop of `runApp`. -/
def appRound (st : AppState) : AppState :=
  let (chunk, lastChunkIdx) := runCDC st.inputBuf st.length st.lastChunkIdx
  processChunk lzw_hw_streams
    (st.frame st.inputBuf st.length (st.packetTracker + (chunk.length - 1)) lastChunkIdx) chunk

/-- Processing a chunk neither uses nor changes the frame. -/
theorem processChunk_frame (st : AppState) (chunk : List UInt8) (b : Buffer) (n p i : ℕ) :
    processChunk lzw_hw_streams (st.frame b n p i) chunk
      = (processChunk lzw_hw_streams st chunk).frame b n p i := by
  by_cases h : (dedup_hash (SHA_new chunk) st.shaMap st.curr).1 = -1
  · have h' : (dedup_hash (SHA_new chunk) (st.frame b n p i).shaMap
        (st.frame b n p i).curr).1 = -1 := h
    simp only [processChunk, h, h', if_true]
    rfl
  · have h' : (dedup_hash (SHA_new chunk) (st.frame b n p i).shaMap
        (st.frame b n p i).curr).1 ≠ -1 := h
    simp only [processChunk, h, h', if_false]
    rfl

/-- One iteration: the chunk up to the end `e` found by `runCDC` is processed. -/
theorem appRound_eq (st : AppState) :
    ∃ e, IsChunkEnd st.inputBuf st.length st.lastChunkIdx e ∧
      appRound lzw_hw_streams st
        = (processChunk lzw_hw_streams st (slice st.inputBuf st.lastChunkIdx e ++ [0])).frame
            st.inputBuf st.length (st.packetTracker + (e - st.lastChunkIdx)) e := by
  obtain ⟨e, hend, hrun⟩ := runCDC_spec st.inputBuf st.length st.lastChunkIdx
  refine ⟨e, hend, ?_⟩
  have hlen : (slice st.inputBuf st.lastChunkIdx e ++ [0]).length - 1 = e - st.lastChunkIdx := by
    simp
  simp only [appRound, hrun, hlen, processChunk_frame]

/-- Every iteration advances by at least a window. -/
theorem appRound_advances (st : AppState) :
    (appRound lzw_hw_streams st).length = st.length ∧
      st.packetTracker + 12 ≤ (appRound lzw_hw_streams st).packetTracker := by
  obtain ⟨e, hend, hround⟩ := appRound_eq lzw_hw_streams st
  have hwindow := hend.window
  rw [hround]
  refine ⟨rfl, ?_⟩
  simp only [AppState.frame]
  omega

/-- The loop of `runApp`. -/
def appLoop (st : AppState) : AppState :=
  if st.packetTracker < st.length then appLoop (appRound lzw_hw_streams st) else st
termination_by st.length - st.packetTracker
decreasing_by
  have := appRound_advances lzw_hw_streams st
  omega

/-- The call of `runApp` on a packet, up to the loop. -/
def enter (inputBuf : Buffer) (length : ℕ) (st : AppState) : AppState :=
  st.frame inputBuf length 0 0

/-- `runApp`: its output is what the file has grown by. -/
def runApp (inputBuf : Buffer) (length : ℕ) (st : AppState) : AppState :=
  appLoop lzw_hw_streams (enter inputBuf length st)

/-! ### Runs -/

/-- The states of all runs over packets, at the test of the loop of `runApp`. -/
inductive Reachable : AppState → Prop
  /-- Before the first packet. -/
  | init : Reachable AppState.init
  /-- A further packet arrives once the one before it is used up. -/
  | enter {st : AppState} (inputBuf : Buffer) (length : ℕ) : Reachable st →
      st.length ≤ st.packetTracker → Reachable (enter inputBuf length st)
  /-- An iteration of the loop. -/
  | round {st : AppState} : Reachable st → st.packetTracker < st.length →
      Reachable (appRound lzw_hw_streams st)

/-- The run over a sequence of packets, each given by its buffer and its length. -/
def runPackets (packets : List (Buffer × ℕ)) : AppState :=
  packets.foldl (fun st packet => runApp lzw_hw_streams packet.1 packet.2 st) AppState.init

/-- What the program relies on about the kernel: for a chunk it writes the count of the compressed
bytes, the least significant byte first, and then the bytes of `run_LZW`. -/
def RunsLzw (signed : Bool) : Prop :=
  ∀ chunk xs, run_LZW signed chunk chunk.length = some xs → xs.length < 2 ^ 31 →
    headerBytes (BitVec.ofNat 32 xs.length) ++ xs <+: lzw_hw_streams chunk chunk.length

/-- The call of `run_LZW` in the place of the kernel. -/
def runLzwKernel (signed : Bool) (chunk : List UInt8) (chunksize : ℕ) : List UInt8 :=
  match run_LZW signed chunk chunksize with
  | some xs => headerBytes (BitVec.ofNat 32 xs.length) ++ xs
  | none => []

theorem runsLzw_runLzwKernel (signed : Bool) : RunsLzw (runLzwKernel signed) signed := by
  intro chunk xs hxs _
  rw [runLzwKernel, hxs]

/-- One more packet. -/
theorem runPackets_concat (packets : List (Buffer × ℕ)) (packet : Buffer × ℕ) :
    runPackets lzw_hw_streams (packets ++ [packet])
      = runApp lzw_hw_streams packet.1 packet.2 (runPackets lzw_hw_streams packets) := by
  simp [runPackets]

variable {lzw_hw_streams}

theorem reachable_appLoop {st : AppState} (h : Reachable lzw_hw_streams st) :
    Reachable lzw_hw_streams (appLoop lzw_hw_streams st) ∧
      (appLoop lzw_hw_streams st).length ≤ (appLoop lzw_hw_streams st).packetTracker := by
  fun_induction appLoop lzw_hw_streams st with
  | case1 st hroom ih => exact ih (h.round hroom)
  | case2 st hroom => exact ⟨h, Nat.le_of_not_lt hroom⟩

theorem reachable_runApp {st : AppState} (h : Reachable lzw_hw_streams st)
    (hdone : st.length ≤ st.packetTracker) (inputBuf : Buffer) (length : ℕ) :
    Reachable lzw_hw_streams (runApp lzw_hw_streams inputBuf length st) ∧
      (runApp lzw_hw_streams inputBuf length st).length
        ≤ (runApp lzw_hw_streams inputBuf length st).packetTracker :=
  reachable_appLoop (h.enter inputBuf length hdone)

/-- The state after a sequence of packets is reachable. -/
theorem reachable_runPackets (packets : List (Buffer × ℕ)) :
    Reachable lzw_hw_streams (runPackets lzw_hw_streams packets) ∧
      (runPackets lzw_hw_streams packets).length
        ≤ (runPackets lzw_hw_streams packets).packetTracker := by
  induction packets using List.reverseRecOn with
  | nil => exact ⟨Reachable.init, le_rfl⟩
  | append_singleton packets packet ih =>
      rw [runPackets_concat]
      exact reachable_runApp ih.1 ih.2 packet.1 packet.2

end Kernel

end App

end DedupLzw
