/-
**The output array and its `int` (`LZW/lzw.cpp`).**

`output_code` stores into an array, at an index that the caller keeps in an `int`.  In `Lzw.lean`
the bytes written so far are a list and the index is its length, which has no bound; no chunk of
this program comes near the largest `int`.  Here the function has its array and its `int`.  It does what
it does on lists as long as the `int` does not overflow, and it overflows as soon as there are 2³¹
bytes, that is, with the 1321528399th code.

Main definitions:

* `DedupLzw.OutputArray.output_code`, `outputCodes` — packing into the array;
* `DedupLzw.OutputArray.after` — the array after some bytes have been written.

Main results:

* `DedupLzw.OutputArray.outputCodes_eq` — the array holds what the list is;
* `DedupLzw.OutputArray.output_ptr_overflows` — a stream that is too long;
* `DedupLzw.OutputArray.code_stream_round_trip` — **the round trip of all others**.
-/

import DedupLzw.CodeStream

set_option relaxedAutoImplicit false
set_option autoImplicit false

namespace DedupLzw

namespace OutputArray

open Lzw Decoder

/-! ### The function of the source -/

/-- The array `output`, and the `int` that `output_ptr` points to. -/
structure Output where
  output : ℕ → UInt8
  output_ptr : BitVec 32

/-- `output[(*output_ptr)++] = (unsigned char) (x & 0xFF)`; a negative `int` is no index, and the
largest one cannot be incremented. -/
def writeByte (x : BitVec 32) (m : Output) : Option Output :=
  if 0 ≤ m.output_ptr.toInt ∧ m.output_ptr.toInt + 1 < 2 ^ 31 then
    some { output := Function.update m.output m.output_ptr.toNat (toUChar (x &&& 0xFF)),
           output_ptr := m.output_ptr + 1 }
  else none

/-- `output[(*output_ptr) - 1] = (unsigned char) (output[(*output_ptr) - 1] | x)` -/
def orLast (x : BitVec 32) (m : Output) : Option Output :=
  if 1 ≤ m.output_ptr.toInt then
    let last := (m.output_ptr - 1).toNat
    some { m with output := Function.update m.output last (m.output last ||| toUChar x) }
  else none

/-- `output_code`; `none` when it touches `output[-1]` or `output_ptr` overflows. -/
def output_code (code : BitVec 32) (state : UInt8) (m : Output) : Option (BitVec 32 × Output) :=
  let code := code &&& 0x1FFF
  match state.toNat with
  | 0 => do
      let code := code <<< 3
      let m ← writeByte (code >>> 8) m
      let m ← writeByte code m
      some (1, m)
  | 1 => do
      let code := code <<< 6
      let m ← orLast ((code >>> 16) &&& 0x07) m
      let m ← writeByte (code >>> 8) m
      let m ← writeByte code m
      some (2, m)
  | 2 => do
      let code := code <<< 1
      let m ← orLast ((code >>> 8) &&& 0x3F) m
      let m ← writeByte code m
      some (3, m)
  | 3 => do
      let code := code <<< 4
      let m ← orLast ((code >>> 16) &&& 0x01) m
      let m ← writeByte (code >>> 8) m
      let m ← writeByte code m
      some (4, m)
  | 4 => do
      let code := code <<< 7
      let m ← orLast ((code >>> 16) &&& 0x0F) m
      let m ← writeByte (code >>> 8) m
      let m ← writeByte code m
      some (5, m)
  | 5 => do
      let code := code <<< 2
      let m ← orLast ((code >>> 8) &&& 0x7F) m
      let m ← writeByte code m
      some (6, m)
  | 6 => do
      let code := code <<< 5
      let m ← orLast ((code >>> 16) &&& 0x03) m
      let m ← writeByte (code >>> 8) m
      let m ← writeByte code m
      some (7, m)
  | 7 => do
      let m ← orLast ((code >>> 8) &&& 0x1F) m
      let m ← writeByte code m
      some (0, m)
  | _ => some (-1, m)

/-- One call of `output_code`, its result stored in the `unsigned char state`. -/
def outputStep (p : UInt8 × Output) (code : BitVec 32) : Option (UInt8 × Output) :=
  (output_code code p.1 p.2).map fun r => (toUChar r.1, r.2)

/-- `output_code` on a sequence of codes in turn, from state 0 and `output_ptr` 0, on this array. -/
def outputCodes (array : ℕ → UInt8) (codes : List (BitVec 32)) : Option (UInt8 × Output) :=
  codes.foldlM outputStep (0, ⟨array, 0⟩)

theorem outputCodes_concat (array : ℕ → UInt8) (codes : List (BitVec 32)) (code : BitVec 32) :
    outputCodes array (codes ++ [code]) = (outputCodes array codes).bind (outputStep · code) := by
  simp [outputCodes, List.foldlM_append]

/-! ### The array and the list -/

section After

variable (array : ℕ → UInt8)

/-- The array after these bytes have been written. -/
def after (bytes : List UInt8) : Output :=
  ⟨fun j => bytes.getD j (array j), BitVec.ofNat 32 bytes.length⟩

/-- The array after these bytes have been written, if their number is an `int`. -/
def room (bytes : List UInt8) : Option Output :=
  if bytes.length < 2 ^ 31 then some (after array bytes) else none

theorem toInt_after {bytes : List UInt8} (h : bytes.length < 2 ^ 31) :
    (after array bytes).output_ptr.toInt = bytes.length := by
  rw [after, BitVec.toInt_eq_toNat_of_lt, BitVec.toNat_ofNat]
  · omega
  · rw [BitVec.toNat_ofNat]
    omega

/-- A byte stored behind the others. -/
theorem update_getD (init : List UInt8) (cells : ℕ → UInt8) (c : UInt8)
    (hinit : ∀ j < init.length, cells j = init.getD j (array j))
    (hrest : ∀ j, init.length < j → cells j = array j) :
    Function.update cells init.length c = fun j => (init ++ [c]).getD j (array j) := by
  funext j
  rcases lt_trichotomy j init.length with hlt | rfl | hgt
  · rw [Function.update_of_ne hlt.ne, hinit j hlt, List.getD_append _ _ _ _ hlt]
  · simp
  · rw [Function.update_of_ne hgt.ne', hrest j hgt, List.getD_eq_default]
    rw [List.length_append, List.length_singleton]
    omega

theorem room_writeByte (bytes : List UInt8) (x : BitVec 32) :
    (room array bytes).bind (writeByte x) = room array (Lzw.writeByte bytes x) := by
  rw [room, room, length_writeByte]
  by_cases hlen : bytes.length < 2 ^ 31
  · rw [if_pos hlen, Option.bind_some, writeByte, toInt_after array hlen]
    by_cases hnext : bytes.length + 1 < 2 ^ 31
    · have hptr : (BitVec.ofNat 32 bytes.length).toNat = bytes.length := by
        rw [BitVec.toNat_ofNat]
        omega
      have hcells := update_getD array bytes (fun j => bytes.getD j (array j))
        (toUChar (x &&& 0xFF)) (fun _ _ => rfl) fun j hj => List.getD_eq_default _ _ hj.le
      rw [if_pos ⟨by omega, by omega⟩, if_pos hnext, after, after, hptr, hcells, Lzw.writeByte,
        List.length_append, List.length_singleton, BitVec.ofNat_add]
      rfl
    · rw [if_neg (by omega), if_neg hnext]
  · rw [if_neg hlen, if_neg (by omega)]
    rfl

theorem room_orLast (bytes : List UInt8) (x : BitVec 32) :
    (room array bytes).bind (orLast x) = (Lzw.orLast bytes x).bind (room array) := by
  rcases List.eq_nil_or_concat bytes with rfl | ⟨init, b, rfl⟩
  · rfl
  · have hmerged : Lzw.orLast (init ++ [b]) x = some (init ++ [b ||| toUChar x]) := by
      simp [Lzw.orLast]
    have hlength : ∀ c : UInt8, (init ++ [c]).length = init.length + 1 := by simp
    rw [List.concat_eq_append, hmerged, Option.bind_some, room, room, hlength, hlength]
    by_cases hlen : init.length + 1 < 2 ^ 31
    · have hptr : (BitVec.ofNat 32 (init.length + 1) - 1).toNat = init.length := by
        rw [BitVec.ofNat_add, show (1 : BitVec 32) = BitVec.ofNat 32 1 from rfl,
          BitVec.add_sub_cancel, BitVec.toNat_ofNat]
        omega
      have hcells := update_getD array init (fun j => (init ++ [b]).getD j (array j))
        (b ||| toUChar x) (fun j hj => List.getD_append _ _ _ _ hj) fun j hj => by
          rw [List.getD_eq_default]
          rw [hlength]
          omega
      have hlast : (init ++ [b]).getD init.length (array init.length) = b := by simp
      rw [if_pos hlen, if_pos hlen, Option.bind_some, orLast, toInt_after array (by rwa [hlength]),
        hlength, if_pos (by omega), after, after, hlength, hlength]
      dsimp only
      rw [hptr, hlast, hcells]
    · rw [if_neg hlen, if_neg hlen]
      rfl

/-- The array of a branch that writes a byte. -/
theorem room_bind_writeByte {β : Type} (bytes : List UInt8) (x : BitVec 32)
    (f : Output → Option β) :
    ((room array bytes).bind fun m => (writeByte x m).bind f)
      = (room array (Lzw.writeByte bytes x)).bind f := by
  rw [← Option.bind_assoc, room_writeByte]

/-- The array of a branch that merges bits into the last byte. -/
theorem room_bind_orLast {β : Type} (bytes : List UInt8) (x : BitVec 32)
    (f : Output → Option β) :
    ((room array bytes).bind fun m => (orLast x m).bind f)
      = (Lzw.orLast bytes x).bind fun bytes => (room array bytes).bind f := by
  rw [← Option.bind_assoc, room_orLast, Option.bind_assoc]

/-- The function does to the array what it does to the list, unless there is no room. -/
theorem room_output_code (bytes : List UInt8) (code : BitVec 32) (state : UInt8) :
    (room array bytes).bind (output_code code state)
      = (Lzw.output_code code state bytes).bind fun r =>
          (room array r.2).map fun m => (r.1, m) := by
  unfold output_code Lzw.output_code
  generalize state.toNat = n
  rcases Nat.lt_or_ge n 8 with hlt | hge
  · interval_cases n <;>
      simp only [Option.bind_eq_bind, room_bind_writeByte, room_bind_orLast, Option.bind_assoc,
        Option.bind_some, Option.map_eq_bind, Function.comp_def]
  · obtain ⟨k, rfl⟩ : ∃ k, n = k + 8 := ⟨n - 8, by omega⟩
    simp only [Option.bind_some, Option.map_eq_bind, Function.comp_def]

/-- A sequence of codes in the array. -/
theorem outputCodes_eq (codes : List (BitVec 32)) :
    outputCodes array codes
      = (Lzw.outputCodes codes).bind fun p => (room array p.2).map fun m => (p.1, m) := by
  induction codes using List.reverseRecOn with
  | nil => rfl
  | append_singleton codes code ih =>
      obtain ⟨state, output, hout, _⟩ := packs_outputCodes codes
      have hstep : (room array output).bind (fun m => outputStep (state, m) code)
          = (Lzw.outputStep (state, output) code).bind fun p =>
              (room array p.2).map fun m => (p.1, m) := by
        simp only [outputStep, Lzw.outputStep, Option.map_eq_bind, Function.comp_def]
        rw [← Option.bind_assoc, room_output_code]
        simp only [Option.map_eq_bind, Option.bind_assoc, Function.comp_def, Option.bind_some]
      rw [outputCodes_concat, Lzw.outputCodes_concat, ih, hout, Option.bind_some,
        Option.bind_some, ← hstep, Option.bind_map]
      rfl

end After

/-! ### Whole streams -/

/-- The output of a stream of codes, up to the largest `int`. -/
theorem outputCodes_of_le (array : ℕ → UInt8) {codes : List (BitVec 32)}
    (hlen : codes.length ≤ 1321528398) :
    ∃ state output, Packs codes state output ∧ output.length < 2 ^ 31 ∧
      outputCodes array codes = some (state, after array output) := by
  obtain ⟨state, output, hout, hpacks⟩ := packs_outputCodes codes
  have hlength := hpacks.length_eq
  have hroom : output.length < 2 ^ 31 := by omega
  refine ⟨state, output, hpacks, hroom, ?_⟩
  rw [outputCodes_eq, hout, Option.bind_some, room, if_pos hroom, Option.map_some]

/-- One more code, and `output_ptr` overflows. -/
theorem outputCodes_eq_none_iff (array : ℕ → UInt8) (codes : List (BitVec 32)) :
    outputCodes array codes = none ↔ 1321528398 < codes.length := by
  obtain ⟨state, output, hout, hpacks⟩ := packs_outputCodes codes
  have hlength := hpacks.length_eq
  rw [outputCodes_eq, hout, Option.bind_some, Option.map_eq_none_iff, room, ite_eq_right_iff]
  dsimp only
  constructor
  · intro h
    by_contra hle
    exact absurd (h (by omega)) (by simp)
  · intro hlt hroom
    omega

/-- `1321528399` codes make up 2147483649 bytes: `output_ptr` overflows, and no `int` counts them,
whatever the overflow does. -/
theorem output_ptr_overflows :
    outputCodes (fun _ => 0) (List.replicate 1321528399 0) = none ∧
      ∀ output_ptr : BitVec 32, output_ptr.toInt ≠ (13 * 1321528399 + 7) / 8 := by
  constructor
  · rw [outputCodes_eq_none_iff, List.length_replicate]
    norm_num
  · intro output_ptr heq
    have hlt := BitVec.toInt_lt (x := output_ptr)
    omega

/-- The bytes in the array. -/
theorem map_after (array : ℕ → UInt8) (bytes : List UInt8) :
    (List.range bytes.length).map (after array bytes).output = bytes := by
  refine List.ext_getElem (by simp) fun j hj hj' => ?_
  rw [List.getElem_map, List.getElem_range]
  exact List.getD_eq_getElem _ _ hj'

/-- **The code stream round trip**: `output_code` on a nonempty sequence of at most 1321528398 codes
writes `⌈13 k / 8⌉` bytes and leaves the others as they are, passing only through the states 0 to 7
and never touching `output[-1]`; `Read_code` returns the 13 low bits of each code in order; and the
loop test of `Decompress` makes it read exactly these codes and consume exactly these bytes. -/
theorem code_stream_round_trip {codes : List (BitVec 32)} (hne : codes ≠ [])
    (hlen : codes.length ≤ 1321528398) (array : ℕ → UInt8) :
    (∀ m ≤ codes.length, ∃ state out, outputCodes array (codes.take m) = some (state, out) ∧
      state.toNat = m % 8 ∧ out.output_ptr.toInt = (13 * m + 7) / 8 ∧
      ∀ j, (13 * m + 7) / 8 ≤ j → out.output j = array j) ∧
    ∀ state out, outputCodes array codes = some (state, out) → ∀ rest Byte,
      let Size := out.output_ptr.toNat
      let r := readerOf ((List.range Size).map out.output) rest Byte
      (Read_codes r codes.length).1 = codes.map low13 ∧
      (Read_codes r codes.length).2.Input = ⟨rest, false⟩ ∧
      ∀ m, 1 ≤ m → m ≤ codes.length →
        loopTest Size (Read_codes r m).2.Input_position = decide (m < codes.length) := by
  constructor
  · intro m hm
    have htake : (codes.take m).length = m := by simpa using hm
    obtain ⟨state, output, hpacks, hroom, hout⟩ :=
      outputCodes_of_le array (by omega : (codes.take m).length ≤ 1321528398)
    have hlength := hpacks.length_eq
    rw [htake] at hlength
    refine ⟨state, after array output, hout, by rw [hpacks.state_eq, htake], ?_, fun j hj => ?_⟩
    · rw [toInt_after array hroom, hlength]
      push_cast
      rfl
    · exact List.getD_eq_default _ _ (by omega)
  · intro state out hsome rest Byte
    obtain ⟨state', output, hpacks, hroom, hout⟩ := outputCodes_of_le array hlen
    obtain ⟨rfl, rfl⟩ : state' = state ∧ after array output = out := by
      rw [hsome] at hout
      simpa [eq_comm] using hout
    have hptr : (after array output).output_ptr.toNat = output.length := by
      rw [after, BitVec.toNat_ofNat]
      omega
    rw [hptr]
    dsimp only
    rw [map_after]
    exact packed_read_back hpacks hne (by omega) rest Byte

/-- The round trip of nine codes, one of them too long for 13 bits: all states and the first one
again. -/
theorem code_stream_round_trip_nine :
    ∃ state out, outputCodes (fun _ => 7) [97, 98, 256, 258, 8193, 5, 6, 7, 8] = some (state, out) ∧
      out.output_ptr.toInt = 15 ∧ out.output 15 = 7 ∧
      (Read_codes (readerOf ((List.range out.output_ptr.toNat).map out.output) [] 0) 9).1
        = [97, 98, 256, 258, 1, 5, 6, 7, 8] := by
  obtain ⟨hwrites, hreads⟩ := code_stream_round_trip
    (by simp : ([97, 98, 256, 258, 8193, 5, 6, 7, 8] : List (BitVec 32)) ≠ []) (by simp) fun _ => 7
  obtain ⟨state, out, hout, _, hptr, hrest⟩ := hwrites 9 (by simp)
  exact ⟨state, out, hout, hptr, hrest 15 (by norm_num), (hreads state out hout [] 0).1⟩

end OutputArray

end DedupLzw
