/-
**The client (`Client/client.cpp`).**

The client reads a file into memory and sends it in datagrams of `blocksize` bytes, each behind a
header of two bytes: the length, and in its highest bit the flag of the last datagram.  The full
blocks but the last one are sent in a loop; the last full block is sent on its own, since it carries
the flag when nothing remains; what remains is sent in the end.

The state records the datagrams and, for each of them, where `memcpy` reads from the file buffer.
The memory behind that buffer has unknown contents.

Main definitions:

* `DedupLzw.Client.datagram`, `DedupLzw.Client.send` — one block;
* `DedupLzw.Client.sendFile`, `DedupLzw.Client.main` — the source;
* `DedupLzw.Client.blocks` — what the client reads for a file.

Main results:

* `DedupLzw.Client.sendFile_eq` — the datagrams carry these blocks, the last one with the flag;
* `DedupLzw.Client.flatten_blocks` — the blocks make up the file, if there is a full one;
* `DedupLzw.Client.length_flatten_short` — they are too many bytes, if there is none.
-/

import DedupLzw.Cdc

set_option relaxedAutoImplicit false
set_option autoImplicit false

namespace DedupLzw

namespace Client

open Cdc

/-! ### The functions of the source -/

/-- The flag of the last datagram. -/
def DONE_BIT : UInt8 := (1 : UInt8) <<< 7

/-- A datagram: the low byte of the length, the high byte with the flag, and the payload. -/
def datagram (size : ℕ) (done : Bool) (payload : List UInt8) : List UInt8 :=
  let high := UInt8.ofNat (size >>> 8)
  let low := UInt8.ofNat (size &&& 0xFF)
  [low, if done then high ||| DONE_BIT else high] ++ payload

/-- The counter of the datagrams, the datagrams sent, and where each was copied from: the start and
the number of bytes. -/
structure ClientState where
  n : ℕ
  sent : List (List UInt8)
  copied : List (ℕ × ℕ)
deriving DecidableEq, Repr

/-- The bytes of a block of the buffer, given by its start and the number of its bytes. -/
def memcpy (buff : Buffer) (block : ℕ × ℕ) : List UInt8 :=
  slice buff block.1 (block.1 + block.2)

/-- Copying a block of the buffer and sending it. -/
def send (buff : Buffer) (done : Bool) (st : ClientState) (block : ℕ × ℕ) : ClientState where
  n := st.n + 1
  sent := st.sent ++ [datagram block.2 done (memcpy buff block)]
  copied := st.copied ++ [block]

/-- `main`, once the file is in `buff`. -/
def sendFile (blocksize : ℕ) (buff : Buffer) (bytes_read : ℕ) : ClientState :=
  let remainder := bytes_read % blocksize
  let loops := bytes_read / blocksize
  let st := (List.range (loops - 1)).foldl
    (fun st n => send buff false st (n * blocksize, blocksize)) ⟨0, [], []⟩
  let st := if remainder = 0 then send buff true st (st.n * blocksize, blocksize)
    else send buff false st (st.n * blocksize, blocksize)
  if remainder ≠ 0 then send buff true st (loops * blocksize, remainder) else st

/-- The size of the file, in an `int`. -/
def file_size (file : List UInt8) : ℤ := (BitVec.ofNat 32 file.length).toInt

/-- The memory from the file buffer on: the bytes read from the file, and what happens to be there
behind them. -/
def buff (file : List UInt8) (bytes_read : ℕ) (beyond : Buffer) : Buffer := fun j =>
  if j < bytes_read then file.getD j 0 else beyond j

/-- `main`: `malloc` fails for a negative size, and then nothing is sent. -/
def main (blocksize : ℕ) (file : List UInt8) (beyond : Buffer) : ClientState :=
  if file_size file < 0 then ⟨0, [], []⟩
  else
    let bytes_read := min (file_size file).toNat file.length
    sendFile blocksize (buff file bytes_read beyond) bytes_read

/-! ### What is sent -/

/-- The full blocks but the last one. -/
def fullBlocks (blocksize k : ℕ) : List (ℕ × ℕ) :=
  (List.range k).map fun n => (n * blocksize, blocksize)

/-- What the client copies for a file: at least one full block. -/
def blocks (blocksize bytes_read : ℕ) : List (ℕ × ℕ) :=
  fullBlocks blocksize (bytes_read / blocksize - 1) ++
    [((bytes_read / blocksize - 1) * blocksize, blocksize)] ++
    if bytes_read % blocksize = 0 then []
    else [(bytes_read / blocksize * blocksize, bytes_read % blocksize)]

/-- The datagrams of some blocks without the flag. -/
theorem foldl_send (buff : Buffer) (bs : List (ℕ × ℕ)) (st : ClientState) :
    bs.foldl (send buff false) st
      = ⟨st.n + bs.length,
          st.sent ++ bs.map fun p => datagram p.2 false (memcpy buff p),
          st.copied ++ bs⟩ := by
  induction bs generalizing st with
  | nil => simp
  | cons p bs ih =>
      rw [List.foldl_cons, ih]
      simp [send, Nat.add_assoc, Nat.add_comm 1]

/-- The datagrams carry the blocks of the file, the last one and no other with the flag. -/
theorem sendFile_eq (blocksize : ℕ) (buff : Buffer) (bytes_read : ℕ) :
    ∃ front last, blocks blocksize bytes_read = front ++ [last] ∧
      (sendFile blocksize buff bytes_read).copied = front ++ [last] ∧
      (sendFile blocksize buff bytes_read).sent
        = (front.map fun p => datagram p.2 false (memcpy buff p)) ++
          [datagram last.2 true (memcpy buff last)] := by
  have hloop : (List.range (bytes_read / blocksize - 1)).foldl
      (fun st n => send buff false st (n * blocksize, blocksize)) ⟨0, [], []⟩
      = (fullBlocks blocksize (bytes_read / blocksize - 1)).foldl (send buff false)
          ⟨0, [], []⟩ := by
    rw [fullBlocks, List.foldl_map]
  have hlen : (fullBlocks blocksize (bytes_read / blocksize - 1)).length
      = bytes_read / blocksize - 1 := by
    simp [fullBlocks]
  rw [sendFile, hloop, foldl_send]
  by_cases hrem : bytes_read % blocksize = 0
  · refine ⟨fullBlocks blocksize (bytes_read / blocksize - 1),
      ((bytes_read / blocksize - 1) * blocksize, blocksize), ?_, ?_, ?_⟩
    · simp [blocks, hrem]
    · simp [hrem, send, hlen]
    · simp [hrem, send, hlen]
  · refine ⟨fullBlocks blocksize (bytes_read / blocksize - 1) ++
      [((bytes_read / blocksize - 1) * blocksize, blocksize)],
      (bytes_read / blocksize * blocksize, bytes_read % blocksize), ?_, ?_, ?_⟩
    · simp [blocks, hrem]
    · simp [hrem, send, hlen]
    · simp [hrem, send, hlen]

theorem length_memcpy (buff : Buffer) (block : ℕ × ℕ) : (memcpy buff block).length = block.2 := by
  simp [memcpy]

/-- No block is larger than `blocksize`. -/
theorem blocks_le {blocksize bytes_read : ℕ} (hpos : 1 ≤ blocksize) :
    ∀ block ∈ blocks blocksize bytes_read, block.2 ≤ blocksize := by
  intro block hblock
  rw [blocks, List.mem_append, List.mem_append] at hblock
  rcases hblock with (hfull | hlast) | hrest
  · obtain ⟨n, _, rfl⟩ := List.mem_map.1 hfull
    exact le_rfl
  · rw [List.mem_singleton.1 hlast]
  · split at hrest
    · simp at hrest
    · rw [List.mem_singleton.1 hrest]
      exact (Nat.mod_lt _ hpos).le

/-- If there is a full block, all blocks are inside the file. -/
theorem blocks_inside {blocksize bytes_read : ℕ} (hpos : 1 ≤ blocksize)
    (hfull : blocksize ≤ bytes_read) :
    ∀ block ∈ blocks blocksize bytes_read, block.1 + block.2 ≤ bytes_read := by
  intro block hblock
  have hloops : 1 ≤ bytes_read / blocksize := (Nat.one_le_div_iff hpos).2 hfull
  have hdiv : bytes_read / blocksize * blocksize + bytes_read % blocksize = bytes_read :=
    Nat.div_add_mod' bytes_read blocksize
  have hblocks : ∀ n < bytes_read / blocksize, n * blocksize + blocksize ≤ bytes_read := by
    intro n hn
    have hle : (n + 1) * blocksize ≤ bytes_read / blocksize * blocksize :=
      Nat.mul_le_mul_right _ hn
    rw [Nat.succ_mul] at hle
    omega
  rw [blocks, List.mem_append, List.mem_append] at hblock
  rcases hblock with (hfront | hlast) | hrest
  · obtain ⟨n, hn, rfl⟩ := List.mem_map.1 hfront
    have hn' := List.mem_range.1 hn
    exact hblocks n (by omega)
  · rw [List.mem_singleton.1 hlast]
    exact hblocks _ (by omega)
  · split at hrest
    · simp at hrest
    · rw [List.mem_singleton.1 hrest]
      omega

/-- The bytes of full blocks. -/
theorem flatten_fullBlocks (b : Buffer) (blocksize k : ℕ) :
    ((fullBlocks blocksize k).map (memcpy b)).flatten
      = slice b 0 (k * blocksize) := by
  induction k with
  | zero => simp [fullBlocks]
  | succ k ih =>
      have hsucc : fullBlocks blocksize (k + 1)
          = fullBlocks blocksize k ++ [(k * blocksize, blocksize)] := by
        simp [fullBlocks, List.range_succ]
      rw [hsucc, List.map_append, List.flatten_append, ih, List.map_singleton,
        List.flatten_singleton, memcpy, slice_append b (Nat.zero_le _) (Nat.le_add_right _ _),
        Nat.succ_mul]

/-- The blocks of a file with a full block make up the file. -/
theorem flatten_blocks (b : Buffer) {blocksize bytes_read : ℕ} (hpos : 1 ≤ blocksize)
    (hfull : blocksize ≤ bytes_read) :
    ((blocks blocksize bytes_read).map (memcpy b)).flatten
      = slice b 0 bytes_read := by
  have hloops : 1 ≤ bytes_read / blocksize := (Nat.one_le_div_iff hpos).2 hfull
  have hlast : (bytes_read / blocksize - 1) * blocksize + blocksize
      = bytes_read / blocksize * blocksize := by
    rw [← Nat.succ_mul, Nat.succ_eq_add_one, Nat.sub_add_cancel hloops]
  have hdiv : bytes_read / blocksize * blocksize + bytes_read % blocksize = bytes_read :=
    Nat.div_add_mod' bytes_read blocksize
  rw [blocks, List.map_append, List.map_append, List.flatten_append, List.flatten_append,
    flatten_fullBlocks, List.map_singleton, List.flatten_singleton, memcpy, hlast,
    slice_append b (Nat.zero_le _) (by omega)]
  by_cases hrem : bytes_read % blocksize = 0
  · rw [if_pos hrem, List.map_nil, List.flatten_nil, List.append_nil]
    rw [hrem, Nat.add_zero] at hdiv
    rw [hdiv]
  · rw [if_neg hrem, List.map_singleton, List.flatten_singleton, memcpy, hdiv,
      slice_append b (Nat.zero_le _) (by omega)]

/-- Without a full block, a whole block is sent before what there is. -/
theorem length_flatten_short (b : Buffer) {blocksize bytes_read : ℕ}
    (hshort : bytes_read < blocksize) :
    ((blocks blocksize bytes_read).map (memcpy b)).flatten.length
      = blocksize + bytes_read := by
  have hloops : bytes_read / blocksize = 0 := Nat.div_eq_of_lt hshort
  have hrem : bytes_read % blocksize = bytes_read := Nat.mod_eq_of_lt hshort
  rw [blocks, hloops, hrem]
  by_cases hzero : bytes_read = 0
  · simp [fullBlocks, memcpy, hzero]
  · simp [fullBlocks, memcpy, hzero]

end Client

end DedupLzw
