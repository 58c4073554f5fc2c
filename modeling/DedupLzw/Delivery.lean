/-
**From the file to the packets.**

The client sends the last full block of the file on its own, also when there is no full block: then
it reads a whole block from a shorter buffer, sends that, and sends the file behind it.  With at
least one full block it sends the file, and the encoder receives it.

The size of the file is kept in an `int`, so a file of 2³¹ bytes or more is not sent as a whole
either.

This is about what the encoder receives.  Whether its output buffer and the arrays of `runApp` have
room for what it makes of that is another matter: they have no bound in these runs.

Main definitions:

* `DedupLzw.Delivery.Delivered` — the file reaches the encoder.

Main results:

* `DedupLzw.Delivery.sendFile_received` — client and encoder together;
* `DedupLzw.Delivery.delivered_iff` — **when the file reaches the encoder**.
-/

import DedupLzw.Encoder

set_option relaxedAutoImplicit false
set_option autoImplicit false

namespace DedupLzw

namespace Delivery

open Cdc Client Encoder

/-! ### Client and encoder together -/

/-- The flag of a datagram. -/
def flagged (datagram : List UInt8) : Bool := doneBit fun j => datagram.getD j 0

theorem flagged_datagram {size : ℕ} (hsize : size < 2 ^ 15) (done : Bool) (payload : List UInt8) :
    flagged (datagram size done payload) = done :=
  (packetLength_datagram hsize done payload fun _ _ => rfl).2

/-- The last datagram has the flag, and no other one. -/
def OnlyLastFlagged (datagrams : List (List UInt8)) : Prop :=
  ∃ front last, datagrams = front ++ [last] ∧ flagged last = true ∧
    ∀ datagram ∈ front, flagged datagram = false

/-- The packets of the encoder are the blocks the client copies. -/
theorem sendFile_received (lzw_hw_streams : List UInt8 → ℕ → List UInt8) {blocksize : ℕ}
    (hpos : 1 ≤ blocksize) (hblock : blocksize ≤ 16384) (buff : Buffer) (bytes_read : ℕ)
    (input : ℕ → Buffer) :
    (sendFile blocksize buff bytes_read).copied = blocks blocksize bytes_read ∧
      OnlyLastFlagged (sendFile blocksize buff bytes_read).sent ∧
      ∃ st, Encoder.main lzw_hw_streams blocksize input
        ((sendFile blocksize buff bytes_read).sent.map some) = (st, []) ∧ st.done = true ∧
        payloads st = (blocks blocksize bytes_read).map (memcpy buff) := by
  obtain ⟨front, last, hblocks, hcopied, hsent⟩ := sendFile_eq blocksize buff bytes_read
  have hle : ∀ block ∈ blocks blocksize bytes_read, block.2 ≤ blocksize := blocks_le hpos
  rw [hblocks] at hle ⊢
  have hfront : ∀ block ∈ front, block.2 ≤ blocksize := fun block h =>
    hle block (List.mem_append_left _ h)
  have hlast : last.2 ≤ blocksize := hle last (by simp)
  have hpayloads : ∀ payload ∈ front.map (memcpy buff), payload.length ≤ blocksize := by
    intro payload hmem
    obtain ⟨block, hmem', rfl⟩ := List.mem_map.1 hmem
    rw [length_memcpy]
    exact hfront block hmem'
  refine ⟨hcopied, ⟨_, _, hsent, flagged_datagram (by omega) true _, ?_⟩, ?_⟩
  · intro datagram hmem
    obtain ⟨block, hmem', rfl⟩ := List.mem_map.1 hmem
    have := hfront block hmem'
    exact flagged_datagram (by omega) false _
  · rw [← length_memcpy buff] at hlast
    obtain ⟨st, hrun, hdone, hall⟩ := main_datagrams lzw_hw_streams hblock hpayloads hlast input
    refine ⟨st, ?_, hdone, by rw [hall, List.map_append, List.map_singleton]⟩
    rw [hsent, List.map_append, List.map_map, ← hrun, List.map_map]
    simp only [length_memcpy, Function.comp_def, List.map_singleton]

/-! ### When the file arrives -/

/-- The file reaches the encoder: the payloads of its packets concatenate to the file, the last
datagram and no other one has the flag, the encoder receives them all and stops, and the client does
not read behind its file buffer. -/
structure Delivered (lzw_hw_streams : List UInt8 → ℕ → List UInt8) (blocksize : ℕ)
    (file : List UInt8) (beyond : Buffer) (input : ℕ → Buffer) : Prop where
  payload : (payloads (Encoder.main lzw_hw_streams blocksize input
    ((Client.main blocksize file beyond).sent.map some)).1).flatten = file
  flag : OnlyLastFlagged (Client.main blocksize file beyond).sent
  stops : (Encoder.main lzw_hw_streams blocksize input
      ((Client.main blocksize file beyond).sent.map some)).1.done = true ∧
    (Encoder.main lzw_hw_streams blocksize input
      ((Client.main blocksize file beyond).sent.map some)).2 = []
  reads : ∀ block ∈ (Client.main blocksize file beyond).copied, block.1 + block.2 ≤ file.length

/-- The size of a file in an `int`: negative, right, or too small by a multiple of 2³². -/
theorem file_size_cases (file : List UInt8) :
    (file_size file < 0 ∧ 2 ^ 31 ≤ file.length) ∨
      (file_size file = file.length ∧ file.length < 2 ^ 31) ∨
      (0 ≤ file_size file ∧ (file_size file).toNat + 2 ^ 32 ≤ file.length) := by
  rw [file_size, BitVec.toInt_eq_toNat_cond, BitVec.toNat_ofNat]
  split <;> omega

/-- The bytes that were read from the file. -/
theorem slice_buff {file : List UInt8} {n : ℕ} (hn : n = file.length) (beyond : Buffer) :
    slice (buff file n beyond) 0 n = file := by
  subst hn
  refine List.ext_getElem (by simp) fun i h₁ h₂ => ?_
  have hget : (slice (buff file file.length beyond) 0 file.length)[i]? = some file[i] := by
    have hlt : 0 + i < file.length := by omega
    rw [getElem?_slice hlt, Nat.zero_add, buff, if_pos h₂, List.getD_eq_getElem?_getD,
      List.getElem?_eq_getElem h₂, Option.getD_some]
  exact Option.some_inj.1 ((List.getElem?_eq_getElem h₁).symm.trans hget)

section

variable (lzw_hw_streams : List UInt8 → ℕ → List UInt8) {blocksize : ℕ}

/-- Client and encoder for a file whose size is not negative in an `int`. -/
theorem delivered_iff_blocks (hpos : 1 ≤ blocksize) (hblock : blocksize ≤ 16384)
    {file : List UInt8} (hsize : 0 ≤ file_size file) {n : ℕ}
    (hn : n = min (file_size file).toNat file.length) (beyond : Buffer) (input : ℕ → Buffer) :
    Delivered lzw_hw_streams blocksize file beyond input ↔
      ((blocks blocksize n).map (memcpy (buff file n beyond))).flatten = file ∧
        ∀ block ∈ blocks blocksize n, block.1 + block.2 ≤ file.length := by
  have hmain : Client.main blocksize file beyond
      = sendFile blocksize (buff file n beyond) n := by
    rw [Client.main, if_neg (not_lt.2 hsize), hn]
  obtain ⟨hcopied, hflag, st, hrun, hdone, hpayloads⟩ :=
    sendFile_received lzw_hw_streams hpos hblock (buff file n beyond) n input
  constructor
  · rintro ⟨hpayload, _, _, hreads⟩
    rw [hmain, hrun, hpayloads] at hpayload
    rw [hmain, hcopied] at hreads
    exact ⟨hpayload, hreads⟩
  · rintro ⟨hpayload, hreads⟩
    refine ⟨?_, ?_, ?_, ?_⟩
    · rw [hmain, hrun, hpayloads, hpayload]
    · rwa [hmain]
    · rw [hmain, hrun]
      exact ⟨hdone, rfl⟩
    · rwa [hmain, hcopied]

/-- What is sent is as long as the file only if there is a full block and the size is right. -/
theorem length_flatten_blocks (hpos : 1 ≤ blocksize) (b : Buffer) (n : ℕ) :
    ((blocks blocksize n).map (memcpy b)).flatten.length
      = if n < blocksize then blocksize + n else n := by
  split
  · next hshort => exact length_flatten_short b hshort
  · next hfull =>
      rw [flatten_blocks b hpos (Nat.le_of_not_lt hfull), length_slice, Nat.sub_zero]

/-- The file arrives exactly when it has at least one full block, and its size fits into an
`int`. -/
theorem delivered_iff (hpos : 1 ≤ blocksize) (hblock : blocksize ≤ 16384) {file : List UInt8}
    (hfile : 1 ≤ file.length) (beyond : Buffer) (input : ℕ → Buffer) :
    Delivered lzw_hw_streams blocksize file beyond input ↔
      blocksize ≤ file.length ∧ file.length < 2 ^ 31 := by
  rcases file_size_cases file with ⟨hneg, hlarge⟩ | ⟨hsize, hsmall⟩ | ⟨hsize, hlarge⟩
  · -- nothing is sent
    refine iff_of_false (fun h => ?_) fun h => by omega
    have hpayload := h.payload
    rw [Client.main, if_pos hneg] at hpayload
    have hempty : file = [] := hpayload.symm
    rw [hempty] at hfile
    exact absurd hfile (by decide)
  · have hn : file.length = min (file_size file).toNat file.length := by
      rw [hsize, Int.toNat_natCast, min_self]
    rw [delivered_iff_blocks lzw_hw_streams hpos hblock (by omega) hn]
    constructor
    · rintro ⟨hpayload, _⟩
      refine ⟨?_, hsmall⟩
      by_contra hshort
      have hlen := congrArg List.length hpayload
      rw [length_flatten_blocks hpos, if_pos (by omega)] at hlen
      omega
    · rintro ⟨hfull, _⟩
      rw [flatten_blocks _ hpos hfull, slice_buff rfl]
      exact ⟨rfl, blocks_inside hpos hfull⟩
  · -- the size is too small
    rw [delivered_iff_blocks lzw_hw_streams hpos hblock hsize rfl]
    refine iff_of_false (fun h => ?_) fun h => by omega
    have hlen := congrArg List.length h.1
    rw [length_flatten_blocks hpos] at hlen
    split at hlen <;> omega

end

/-- A file of three bytes arrives in blocks of two. -/
theorem delivered_three_bytes :
    Delivered (App.runLzwKernel false) 2 [1, 2, 3] (fun _ => 0) (fun _ _ => 0) :=
  (delivered_iff (App.runLzwKernel false) (by decide) (by decide) (by decide) (fun _ => 0)
    (fun _ _ => 0)).2 ⟨by decide, by decide⟩

/-- A file of one byte does not arrive in blocks of the usual size. -/
theorem short_file_not_delivered :
    ¬ Delivered (App.runLzwKernel false) 8192 [7] (fun _ => 0) (fun _ _ => 0) := by
  have hsize : file_size [7] = 1 := by decide
  rw [delivered_iff_blocks _ (by decide) (by decide) (by omega) rfl, hsize]
  rintro ⟨hpayload, _⟩
  have hlen := congrArg List.length hpayload
  rw [length_flatten_short _ (by decide)] at hlen
  exact absurd hlen (by decide)

end Delivery

end DedupLzw
