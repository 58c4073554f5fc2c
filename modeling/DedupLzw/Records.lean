/-
**The bytes of a record.**

A header goes out byte by byte, the least significant one first, and comes back in one read; the
count that the kernel puts in front of its bytes has the same form.  The lowest bit of a header
tells the two kinds of records apart, the other 31 are the count or the index.

Main results:

* `DedupLzw.App.readHeader_headerBytes` — the decoder reads the header that was written;
* `DedupLzw.App.tempCount_headerBytes` — `runApp` reads the count that the kernel wrote;
* `DedupLzw.App.compressed_header`, `duplicate_header` — the bits of a header;
* `DedupLzw.App.RunsLzw.tempbuf` — it copies the bytes of `run_LZW`.
-/

import DedupLzw.App
import DedupLzw.Decoder

set_option relaxedAutoImplicit false
set_option autoImplicit false

namespace DedupLzw

namespace App

open Decoder Lzw

/-! ### Bytes of a word -/

theorem and_mask_byte (c : BitVec 32) (k : ℕ) :
    ((c >>> k) &&& 0xFF).setWidth 8 = (c >>> k).setWidth 8 := by
  ext j hj
  have hbit : (0xFF : BitVec 32).getLsbD j = true := by interval_cases j <;> rfl
  simp only [BitVec.getElem_setWidth, BitVec.getLsbD_and, hbit, Bool.and_true]

theorem headerBytes_eq (c : BitVec 32) :
    headerBytes c = [UInt8.ofBitVec ((c >>> 0).setWidth 8), UInt8.ofBitVec ((c >>> 8).setWidth 8),
      UInt8.ofBitVec ((c >>> 16).setWidth 8), UInt8.ofBitVec ((c >>> 24).setWidth 8)] := by
  simp only [headerBytes, List.map_cons, List.map_nil, and_mask_byte]

@[simp] theorem length_headerBytes (c : BitVec 32) : (headerBytes c).length = 4 := rfl

/-- A word put together from its bytes by shifts. -/
theorem or_shifted_bytes (c : BitVec 32) :
    ((c >>> 24).setWidth 8).setWidth 32 <<< 24 ||| ((c >>> 16).setWidth 8).setWidth 32 <<< 16 |||
      ((c >>> 8).setWidth 8).setWidth 32 <<< 8 ||| ((c >>> 0).setWidth 8).setWidth 32 = c := by
  apply BitVec.eq_of_getLsbD_eq
  intro i hi
  simp only [BitVec.getLsbD_or, BitVec.getLsbD_shiftLeft, BitVec.getLsbD_setWidth,
    BitVec.getLsbD_ushiftRight]
  interval_cases i <;> simp

/-- A word put together from its bytes in memory. -/
theorem append_bytes (c : BitVec 32) :
    (c >>> 24).setWidth 8 ++ (c >>> 16).setWidth 8 ++ (c >>> 8).setWidth 8 ++
      (c >>> 0).setWidth 8 = c := by
  apply BitVec.eq_of_getLsbD_eq
  intro i hi
  simp only [BitVec.getLsbD_append, BitVec.getLsbD_setWidth, BitVec.getLsbD_ushiftRight]
  interval_cases i <;> simp

/-! ### Headers -/

/-- The decoder reads the header that was written. -/
theorem readHeader_headerBytes (header : BitVec 32) (rest : List UInt8) :
    Stream.readHeader ⟨headerBytes header ++ rest, false⟩ = (header, ⟨rest, false⟩) := by
  rw [headerBytes_eq]
  simp only [Stream.readHeader, List.cons_append, List.nil_append, append_bytes]

/-- At the end of the file the decoder finds no header. -/
theorem readHeader_nil : Stream.readHeader ⟨[], false⟩ = (0, ⟨[], true⟩) := rfl

/-- `runApp` reads the count that the kernel wrote. -/
theorem tempCount_headerBytes (count : BitVec 32) (ys : List UInt8) :
    tempCount (headerBytes count ++ ys) = count := by
  rw [headerBytes_eq]
  simp only [tempCount, List.cons_append, List.nil_append, List.getD_cons_zero,
    List.getD_cons_succ, UInt8.toBitVec_ofBitVec, or_shifted_bytes]

theorem and_one_eq_zero_iff (x : BitVec 32) : x &&& 1 = 0 ↔ x.toNat % 2 = 0 := by
  have hone : (1 : BitVec 32).toNat = 1 := rfl
  rw [← BitVec.toNat_inj, BitVec.toNat_and, hone, Nat.and_one_is_mod]
  rfl

/-- The lowest bit of the header of a compressed chunk, and the other bits. -/
theorem compressed_header {count : BitVec 32} (h : count.toNat < 2 ^ 31) :
    (count <<< 1) &&& 1 = 0 ∧ ((count <<< 1) >>> 1).toNat = count.toNat := by
  constructor
  · rw [and_one_eq_zero_iff, BitVec.toNat_shiftLeft, Nat.shiftLeft_eq]
    omega
  · rw [BitVec.toNat_ushiftRight, BitVec.toNat_shiftLeft, Nat.shiftLeft_eq,
      Nat.shiftRight_eq_div_pow]
    omega

/-- The lowest bit of the header of a repeated chunk, and the other bits. -/
theorem duplicate_header {index : BitVec 32} (h : index.toNat < 2 ^ 31) :
    ((index <<< 1) ||| 1) &&& 1 ≠ 0 ∧ (((index <<< 1) ||| 1) >>> 1).toNat = index.toNat := by
  have hval : ((index <<< 1) ||| 1).toNat = 2 * index.toNat + 1 := by
    rw [BitVec.toNat_or, BitVec.toNat_shiftLeft, Nat.shiftLeft_eq, Nat.mod_eq_of_lt (by omega)]
    have hor := Nat.two_pow_add_eq_or_of_lt (i := 1) (b := 1) (by norm_num) index.toNat
    rw [pow_one] at hor
    rw [pow_one, Nat.mul_comm, hor]
    rfl
  constructor
  · rw [Ne, and_one_eq_zero_iff, hval]
    omega
  · rw [BitVec.toNat_ushiftRight, hval, Nat.shiftRight_eq_div_pow]
    omega

/-! ### The record of a new chunk -/

theorem toInt_ofNat_of_lt {n : ℕ} (h : n < 2 ^ 31) : (BitVec.ofNat 32 n).toInt.toNat = n := by
  rw [BitVec.toInt_ofNat', Int.bmod_eq_of_le] <;> omega

/-- The bytes copied are those behind the count. -/
theorem tempBody_headerBytes {xs : List UInt8} (h : xs.length < 2 ^ 31) (ys : List UInt8) :
    tempBody (headerBytes (BitVec.ofNat 32 xs.length) ++ xs ++ ys) (BitVec.ofNat 32 xs.length)
      = xs := by
  rw [tempBody, toInt_ofNat_of_lt h]
  refine List.ext_getElem (by simp) fun i h₁ h₂ => ?_
  have hget : (headerBytes (BitVec.ofNat 32 xs.length) ++ xs ++ ys)[i + 4]? = some xs[i] := by
    rw [List.append_assoc, List.getElem?_append_right (by simp), length_headerBytes,
      Nat.add_sub_cancel, List.getElem?_append_left h₂, List.getElem?_eq_getElem h₂]
  rw [List.getElem_map, List.getElem_range, List.getD_eq_getElem?_getD, hget, Option.getD_some]

/-- What `runApp` reads from `tempbuf` after the kernel has run. -/
theorem RunsLzw.tempbuf {lzw_hw_streams : List UInt8 → ℕ → List UInt8} {signed : Bool}
    (h : RunsLzw lzw_hw_streams signed) {chunk xs : List UInt8}
    (hxs : run_LZW signed chunk chunk.length = some xs) (hlen : xs.length < 2 ^ 31) :
    tempCount (lzw_hw_streams chunk chunk.length) = BitVec.ofNat 32 xs.length ∧
      tempBody (lzw_hw_streams chunk chunk.length) (BitVec.ofNat 32 xs.length) = xs := by
  obtain ⟨ys, hys⟩ := h chunk xs hxs hlen
  rw [← hys]
  exact ⟨by rw [List.append_assoc, tempCount_headerBytes], tempBody_headerBytes hlen ys⟩

end App

end DedupLzw
