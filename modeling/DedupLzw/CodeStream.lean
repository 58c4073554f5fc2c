/-
**The 13-bit code stream.**

`output_code` writes codes with an eight-state machine, `Read_code` reads them back bit by bit, and
`Decompress` recovers the number of codes from the number of bytes.  This module proves that the
three fit together, for every sequence of codes.

The argument goes through one number: the bytes written are the 13-bit codes packed most
significant first (`BitField.packed`), followed by fewer than eight zero bits.  Each call of
`output_code` appends one digit to it, and each bit read is a bit of it.

Main definitions:

* `DedupLzw.Lzw.low13` — the 13 bits of a code that are transmitted;
* `DedupLzw.Lzw.Packs` — what has been written after a sequence of codes.

Main results:

* `DedupLzw.Lzw.packs_step`, `packs_outputCodes` — `output_code` packs the codes, never touches
  `output[-1]` and never reaches the error state;
* `DedupLzw.Decoder.Read_code_at` — `Read_code` reads the next 13 bits;
* `DedupLzw.Decoder.loopTest_iff` — the loop test counts the codes;
* `DedupLzw.Decoder.packed_read_back` — what is read back of packed codes.
-/

import DedupLzw.BitField
import DedupLzw.Lzw
import DedupLzw.Decoder

set_option relaxedAutoImplicit false
set_option autoImplicit false

namespace DedupLzw

open BitField

/-! ### Bytes as a number -/

/-- The number a string of bytes makes up, first byte most significant. -/
def value (bytes : List UInt8) : ℕ := packed 8 (bytes.map UInt8.toNat)

@[simp] theorem value_nil : value [] = 0 := rfl

theorem value_concat (bytes : List UInt8) (b : UInt8) :
    value (bytes ++ [b]) = value bytes * 256 + b.toNat := by
  simp [value, packed_concat]

namespace Lzw

/-! ### Writing -/

/-- The 13 bits of a code that are transmitted. -/
def low13 (code : BitVec 32) : ℕ := code.toNat % 8192

theorem low13_lt (code : BitVec 32) : low13 code < 2 ^ 13 := Nat.mod_lt _ (by norm_num)

theorem toNat_and_mask (x : BitVec 32) (n : ℕ) (hn : n ≤ 31) :
    (x &&& BitVec.ofNat 32 (2 ^ n - 1)).toNat = x.toNat % 2 ^ n := by
  have hlt : 2 ^ n - 1 < 2 ^ 32 := by
    have : 2 ^ n ≤ 2 ^ 31 := Nat.pow_le_pow_right (by norm_num) hn
    omega
  rw [BitVec.toNat_and, BitVec.toNat_ofNat, Nat.mod_eq_of_lt hlt, Nat.and_two_pow_sub_one_eq_mod]

theorem toNat_shiftRight (x : BitVec 32) (n : ℕ) : (x >>> n).toNat = x.toNat / 2 ^ n := by
  rw [BitVec.toNat_ushiftRight, Nat.shiftRight_eq_div_pow]

/-- Shifting a masked code left loses nothing. -/
theorem toNat_shiftLeft {c : BitVec 32} (hc : c.toNat < 8192) (sh : ℕ) (hsh : sh ≤ 7) :
    (c <<< sh).toNat = c.toNat * 2 ^ sh := by
  have hpow : 2 ^ sh ≤ 2 ^ 7 := Nat.pow_le_pow_right (by norm_num) hsh
  have : c.toNat * 2 ^ sh ≤ 8192 * 2 ^ 7 := Nat.mul_le_mul hc.le hpow
  rw [BitVec.toNat_shiftLeft, Nat.shiftLeft_eq, Nat.mod_eq_of_lt (by omega)]

theorem toNat_toUChar (x : BitVec 32) : (toUChar x).toNat = x.toNat % 256 := by
  simp [toUChar]

theorem value_writeByte (output : List UInt8) (x : BitVec 32) :
    value (writeByte output x) = value output * 256 + x.toNat % 256 := by
  have hmask := toNat_and_mask x 8 (by norm_num)
  rw [writeByte, value_concat, toNat_toUChar, show (0xFF : BitVec 32) = BitVec.ofNat 32 (2 ^ 8 - 1)
    from rfl, hmask]
  omega

@[simp] theorem length_writeByte (output : List UInt8) (x : BitVec 32) :
    (writeByte output x).length = output.length + 1 := by simp [writeByte]

/-- Merging bits into the padding of the last byte adds them to the number. -/
theorem orLast_eq {output : List UInt8} (hne : output ≠ []) {pad : ℕ} (hpad : pad ≤ 8)
    (hzero : value output % 2 ^ pad = 0) {x : BitVec 32} (hx : x.toNat < 2 ^ pad) :
    ∃ output', orLast output x = some output' ∧ output'.length = output.length ∧
      value output' = value output + x.toNat := by
  obtain ⟨init, b, rfl⟩ : ∃ init b, output = init ++ [b] :=
    ⟨output.dropLast, output.getLast hne, (List.dropLast_append_getLast hne).symm⟩
  refine ⟨init ++ [b ||| toUChar x], by simp [orLast], by simp, ?_⟩
  have hpow : 2 ^ pad ∣ 256 := by
    rw [show (256 : ℕ) = 2 ^ 8 from rfl]
    exact pow_dvd_pow 2 hpad
  have hx' : x.toNat < 256 := lt_of_lt_of_le hx (Nat.le_of_dvd (by norm_num) hpow)
  -- the low bits of the last byte are free
  have hb : 2 ^ pad ∣ b.toNat := by
    rw [value_concat] at hzero
    have hsum : 2 ^ pad ∣ value init * 256 + b.toNat := Nat.dvd_of_mod_eq_zero hzero
    exact (Nat.dvd_add_right (Dvd.dvd.mul_left hpow _)).1 hsum
  have hor : (b ||| toUChar x).toNat = b.toNat + x.toNat := by
    obtain ⟨q, hq⟩ := hb
    rw [UInt8.toNat_or, toNat_toUChar, Nat.mod_eq_of_lt hx', hq, Nat.two_pow_add_eq_or_of_lt hx]
  rw [value_concat, value_concat, hor]
  omega

/-- Two bytes after the merge: the states 1, 3, 4 and 6. -/
theorem append_two {output : List UInt8} (hne : output ≠ []) (pad : ℕ) (hpad : pad ≤ 4)
    (hzero : value output % 2 ^ pad = 0) {c : BitVec 32} (hc : c.toNat < 8192) :
    ∃ output', ((orLast output ((c <<< (pad + 3)) >>> 16 &&& BitVec.ofNat 32 (2 ^ pad - 1))).map
        fun output => writeByte (writeByte output ((c <<< (pad + 3)) >>> 8)) (c <<< (pad + 3)))
          = some output' ∧ output'.length = output.length + 2 ∧
      value output' = value output * 2 ^ 16 + c.toNat * 2 ^ (pad + 3) := by
  have hcode := toNat_shiftLeft hc (pad + 3) (by omega)
  have htop : (c <<< (pad + 3)).toNat / 2 ^ 16 < 2 ^ pad := by
    have hpow : 2 ^ pad * 2 ^ 16 = 8192 * 2 ^ (pad + 3) := by ring
    rw [hcode, Nat.div_lt_iff_lt_mul (by norm_num), hpow]
    exact Nat.mul_lt_mul_of_pos_right hc (Nat.two_pow_pos _)
  have hx : ((c <<< (pad + 3)) >>> 16 &&& BitVec.ofNat 32 (2 ^ pad - 1)).toNat
      = (c <<< (pad + 3)).toNat / 2 ^ 16 := by
    rw [toNat_and_mask _ _ (by omega), toNat_shiftRight, Nat.mod_eq_of_lt htop]
  obtain ⟨output', hor, hlen, hval⟩ := orLast_eq hne (by omega) hzero (hx ▸ htop)
  refine ⟨_, by rw [hor, Option.map_some], by simp [hlen], ?_⟩
  rw [value_writeByte, value_writeByte, toNat_shiftRight, hval, hx, ← hcode]
  omega

/-- One byte after the merge: the states 2, 5 and 7. -/
theorem append_one {output : List UInt8} (hne : output ≠ []) (sh : ℕ) (hsh : sh ≤ 2)
    (hzero : value output % 2 ^ (sh + 5) = 0) {c : BitVec 32} (hc : c.toNat < 8192) :
    ∃ output', ((orLast output ((c <<< sh) >>> 8 &&& BitVec.ofNat 32 (2 ^ (sh + 5) - 1))).map
        fun output => writeByte output (c <<< sh)) = some output' ∧
      output'.length = output.length + 1 ∧
      value output' = value output * 2 ^ 8 + c.toNat * 2 ^ sh := by
  have hcode := toNat_shiftLeft hc sh (by omega)
  have htop : (c <<< sh).toNat / 2 ^ 8 < 2 ^ (sh + 5) := by
    have hpow : 2 ^ (sh + 5) * 2 ^ 8 = 8192 * 2 ^ sh := by ring
    rw [hcode, Nat.div_lt_iff_lt_mul (by norm_num), hpow]
    exact Nat.mul_lt_mul_of_pos_right hc (Nat.two_pow_pos _)
  have hx : ((c <<< sh) >>> 8 &&& BitVec.ofNat 32 (2 ^ (sh + 5) - 1)).toNat
      = (c <<< sh).toNat / 2 ^ 8 := by
    rw [toNat_and_mask _ _ (by omega), toNat_shiftRight, Nat.mod_eq_of_lt htop]
  obtain ⟨output', hor, hlen, hval⟩ := orLast_eq hne (by omega) hzero (hx ▸ htop)
  refine ⟨_, by rw [hor, Option.map_some], by simp [hlen], ?_⟩
  rw [value_writeByte, hval, hx, ← hcode]
  omega

/-- What has been written after the codes: the packed codes, padded with zeros to whole bytes. -/
structure Packs (codes : List (BitVec 32)) (state : UInt8) (output : List UInt8) : Prop where
  state_eq : state.toNat = codes.length % 8
  length_eq : output.length = (13 * codes.length + 7) / 8
  value_eq : value output
    = packed 13 (codes.map low13) * 2 ^ (8 * output.length - 13 * codes.length)

theorem packs_nil : Packs [] 0 [] := ⟨rfl, rfl, rfl⟩

/-- Appending the bits of a code keeps the stream packed. -/
theorem Packs.append {codes : List (BitVec 32)} {state state' : UInt8}
    {output output' : List UInt8} (h : Packs codes state output) {code : BitVec 32} (n sh : ℕ)
    (hstate : state'.toNat = (codes.length + 1) % 8)
    (hlen : output'.length = output.length + n)
    (hpad : 8 * output.length + 8 * n = 13 * codes.length + 13 + sh) (hsh : sh < 8)
    (hval : value output' = value output * 2 ^ (8 * n) + low13 code * 2 ^ sh) :
    Packs (codes ++ [code]) state' output' := by
  have hk := h.length_eq
  refine ⟨by simpa using hstate, ?_, ?_⟩
  · rw [hlen, List.length_append, List.length_singleton]
    omega
  · have hshift : 8 * output.length - 13 * codes.length + 8 * n = 13 + sh := by omega
    have hpad' : 8 * output'.length - 13 * (codes ++ [code]).length = sh := by
      rw [hlen, List.length_append, List.length_singleton]
      omega
    rw [hval, h.value_eq, hpad', List.map_append, List.map_singleton, packed_concat,
      Nat.mul_assoc, ← pow_add, hshift, pow_add]
    ring

/-- The state and the output of a branch of `output_code` that merges and then writes. -/
theorem outputStep_merge {merged : Option (List UInt8)} {write : List UInt8 → List UInt8}
    {output' : List UInt8} (n : BitVec 32) (h : merged.map write = some output') :
    (merged.map fun output => (n, write output)).map (fun r => (toUChar r.1, r.2))
      = some (toUChar n, output') := by
  obtain ⟨output, rfl, rfl⟩ := Option.map_eq_some_iff.1 h
  rfl

/-- After the first code there is a last byte to merge bits into, and its padding is free. -/
theorem Packs.last_byte {codes : List (BitVec 32)} {state : UInt8} {output : List UInt8}
    (h : Packs codes state output) (hk : codes.length % 8 ≠ 0) {pad : ℕ}
    (hpad : 8 * output.length = 13 * codes.length + pad) :
    output ≠ [] ∧ value output % 2 ^ pad = 0 := by
  constructor
  · rintro rfl
    have hlen := h.length_eq
    simp at hlen
    omega
  · have hpad' : pad = 8 * output.length - 13 * codes.length := by omega
    rw [h.value_eq, hpad', Nat.mul_mod_left]

/-- The states 1, 3, 4 and 6. -/
theorem Packs.merge_two {codes : List (BitVec 32)} {state : UInt8} {output : List UInt8}
    (h : Packs codes state output) (hk : codes.length % 8 ≠ 0) (code next : BitVec 32) {pad : ℕ}
    (hle : pad ≤ 4) (hpad : 8 * output.length = 13 * codes.length + pad)
    (hnext : (toUChar next).toNat = (codes.length + 1) % 8) :
    ∃ state' output',
      ((orLast output (((code &&& 0x1FFF) <<< (pad + 3)) >>> 16 &&&
          BitVec.ofNat 32 (2 ^ pad - 1))).map fun output =>
        (next, writeByte (writeByte output (((code &&& 0x1FFF) <<< (pad + 3)) >>> 8))
          ((code &&& 0x1FFF) <<< (pad + 3)))).map (fun r => (toUChar r.1, r.2))
        = some (state', output') ∧ Packs (codes ++ [code]) state' output' := by
  have hc : (code &&& 0x1FFF).toNat = low13 code := toNat_and_mask code 13 (by norm_num)
  obtain ⟨hne, hzero⟩ := h.last_byte hk hpad
  obtain ⟨output', hout, hlen, hval⟩ := append_two hne pad hle hzero (hc ▸ low13_lt code)
  rw [hc] at hval
  exact ⟨_, output', outputStep_merge next hout,
    h.append 2 (pad + 3) hnext hlen (by omega) (by omega) hval⟩

/-- The states 2, 5 and 7. -/
theorem Packs.merge_one {codes : List (BitVec 32)} {state : UInt8} {output : List UInt8}
    (h : Packs codes state output) (hk : codes.length % 8 ≠ 0) (code next : BitVec 32) {sh : ℕ}
    (hle : sh ≤ 2) (hpad : 8 * output.length = 13 * codes.length + (sh + 5))
    (hnext : (toUChar next).toNat = (codes.length + 1) % 8) :
    ∃ state' output',
      ((orLast output (((code &&& 0x1FFF) <<< sh) >>> 8 &&&
          BitVec.ofNat 32 (2 ^ (sh + 5) - 1))).map fun output =>
        (next, writeByte output ((code &&& 0x1FFF) <<< sh))).map (fun r => (toUChar r.1, r.2))
        = some (state', output') ∧ Packs (codes ++ [code]) state' output' := by
  have hc : (code &&& 0x1FFF).toNat = low13 code := toNat_and_mask code 13 (by norm_num)
  obtain ⟨hne, hzero⟩ := h.last_byte hk hpad
  obtain ⟨output', hout, hlen, hval⟩ := append_one hne sh hle hzero (hc ▸ low13_lt code)
  rw [hc] at hval
  exact ⟨_, output', outputStep_merge next hout,
    h.append 1 sh hnext hlen (by omega) (by omega) hval⟩

/-- The state 0: the output ends at a byte boundary, nothing is merged. -/
theorem Packs.start_byte {codes : List (BitVec 32)} {state : UInt8} {output : List UInt8}
    (h : Packs codes state output) (hk : codes.length % 8 = 0) (code : BitVec 32) :
    Packs (codes ++ [code]) (toUChar 1)
      (writeByte (writeByte output (((code &&& 0x1FFF) <<< 3) >>> 8))
        ((code &&& 0x1FFF) <<< 3)) := by
  have hc : (code &&& 0x1FFF).toNat = low13 code := toNat_and_mask code 13 (by norm_num)
  have hcode := toNat_shiftLeft (hc ▸ low13_lt code) 3 (by norm_num)
  have hnext : (toUChar 1).toNat = 1 := rfl
  have hlen := h.length_eq
  refine h.append 2 3 (by omega) (by simp) (by omega) (by omega) ?_
  rw [value_writeByte, value_writeByte, toNat_shiftRight, hcode, hc]
  have := low13_lt code
  omega

/-- One call of `output_code` packs one code, whatever the state the stream has come to. -/
theorem packs_step {codes : List (BitVec 32)} {state : UInt8} {output : List UInt8}
    (h : Packs codes state output) (code : BitVec 32) :
    ∃ state' output', outputStep (state, output) code = some (state', output') ∧
      Packs (codes ++ [code]) state' output' := by
  have hlen := h.length_eq
  have hnext : ∀ n, (codes.length + 1) % 8 = n →
      (toUChar (BitVec.ofNat 32 n)).toNat = (codes.length + 1) % 8 := by
    rintro n rfl
    rw [toNat_toUChar, BitVec.toNat_ofNat]
    omega
  have hk : codes.length % 8 < 8 := Nat.mod_lt _ (by norm_num)
  simp only [outputStep, output_code, h.state_eq]
  interval_cases hmod : codes.length % 8
  · exact ⟨_, _, rfl, h.start_byte hmod code⟩
  · exact h.merge_two (by omega) code 2 (by omega) (by omega) (hnext 2 (by omega))
  · exact h.merge_one (by omega) code 3 (by omega) (by omega) (hnext 3 (by omega))
  · exact h.merge_two (by omega) code 4 (by omega) (by omega) (hnext 4 (by omega))
  · exact h.merge_two (by omega) code 5 (by omega) (by omega) (hnext 5 (by omega))
  · exact h.merge_one (by omega) code 6 (by omega) (by omega) (hnext 6 (by omega))
  · exact h.merge_two (by omega) code 7 (by omega) (by omega) (hnext 7 (by omega))
  · -- the code is not shifted, and the output ends at a byte boundary again
    have hstep := h.merge_one (by omega) code 0 (Nat.zero_le 2) (by omega) (hnext 0 (by omega))
    rwa [BitVec.shiftLeft_zero] at hstep

/-- `output_code` packs a sequence of codes: it never touches `output[-1]`, never reaches the error
state, and writes the packed codes. -/
theorem packs_outputCodes (codes : List (BitVec 32)) :
    ∃ state output, outputCodes codes = some (state, output) ∧ Packs codes state output := by
  induction codes using List.reverseRecOn with
  | nil => exact ⟨0, [], rfl, packs_nil⟩
  | append_singleton codes code ih =>
      obtain ⟨state, output, hout, hpacks⟩ := ih
      obtain ⟨state', output', hstep, hpacks'⟩ := packs_step hpacks code
      exact ⟨state', output', by rw [outputCodes_concat, hout, Option.bind_some, hstep], hpacks'⟩

end Lzw

namespace Decoder

open Lzw

/-! ### Reading -/

/-- The reader is at bit `p` of the bytes `xs`, which are followed by `rest`. -/
structure At (xs rest : List UInt8) (p : ℕ) (r : Reader) : Prop where
  position : r.Input_position = sizeT p
  bytes : r.Input.bytes = xs.drop ((p + 7) / 8) ++ rest
  eof : r.Input.eof = false
  byte : p % 8 ≠ 0 → xs[p / 8]? = some r.Byte

/-- Wrapping around does not disturb the position inside a byte. -/
theorem sizeT_mod_eight (p : ℕ) : sizeT p % 8 = p % 8 := by
  rw [sizeT]
  omega

theorem sizeT_succ (p : ℕ) : sizeT (sizeT p + 1) = sizeT (p + 1) := by
  rw [sizeT, sizeT, sizeT]
  omega

/-- Shifting a bit into a code. -/
theorem shift_in (Code x : ℕ) : (Code <<< 1) ||| (x &&& 1) = 2 * Code + x % 2 := by
  have hlt : x % 2 < 2 ^ 1 := Nat.mod_lt _ (by norm_num)
  rw [Nat.shiftLeft_eq, Nat.and_one_is_mod, Nat.mul_comm, ← Nat.two_pow_add_eq_or_of_lt hlt,
    pow_one]

/-- The bit `p` of a string of bytes. -/
theorem bit_value {xs : List UInt8} {p : ℕ} {b : UInt8} (hb : xs[p / 8]? = some b) :
    field (value xs) (8 * xs.length) p 1 = b.toNat / 2 ^ (7 - p % 8) % 2 := by
  obtain ⟨hlt, rfl⟩ := List.getElem?_eq_some_iff.1 hb
  have hbit := bit_packed (w := 8) (by norm_num) (xs.map UInt8.toNat) (p := p)
    (by simpa using fun x _ => x.toNat_lt) (by simpa using hlt)
  simp only [List.length_map, List.getElem_map] at hbit
  rw [value, hbit]

/-- One round of the loop of `Read_code` shifts in the next bit. -/
theorem readBit_at {xs rest : List UInt8} {p : ℕ} {r : Reader} (h : At xs rest p r)
    (hp : p < 8 * xs.length) (Code : ℕ) :
    (readBit (Code, r)).1 = 2 * Code + field (value xs) (8 * xs.length) p 1 ∧
      At xs rest (p + 1) (readBit (Code, r)).2 := by
  have hlt : p / 8 < xs.length := by omega
  have hpos := h.position
  have hmod := sizeT_mod_eight p
  have hget : xs[p / 8]? = some xs[p / 8] := List.getElem?_eq_getElem hlt
  by_cases hfirst : p % 8 = 0
  · -- a byte is fetched
    have hdrop : r.Input.bytes = xs[p / 8] :: (xs.drop (p / 8 + 1) ++ rest) := by
      rw [h.bytes, show (p + 7) / 8 = p / 8 by omega, List.drop_eq_getElem_cons hlt,
        List.cons_append]
    have hfetch : r.Input.get = (xs[p / 8], ⟨xs.drop (p / 8 + 1) ++ rest, false⟩) := by
      simp [Stream.get, hdrop, h.eof]
    rw [bit_value hget]
    simp only [readBit, hpos, hmod, hfirst, if_true, hfetch, shift_in, sizeT_succ,
      Nat.shiftRight_eq_div_pow]
    refine ⟨trivial, rfl, ?_, rfl, fun _ => ?_⟩
    · rw [show (p + 1 + 7) / 8 = p / 8 + 1 by omega]
    · rw [show (p + 1) / 8 = p / 8 by omega, hget]
  · have hbyte := h.byte hfirst
    rw [bit_value hbyte]
    simp only [readBit, hpos, hmod, hfirst, if_false, shift_in, sizeT_succ,
      Nat.shiftRight_eq_div_pow]
    refine ⟨trivial, rfl, ?_, h.eof, fun hnext => ?_⟩
    · rw [h.bytes, show (p + 1 + 7) / 8 = (p + 7) / 8 by omega]
    · rw [show (p + 1) / 8 = p / 8 by omega, hbyte]

/-- The loop of `Read_code`: `P m` holds of the reader before the bit `m`, and `number m` is made up
by the bits before it. -/
theorem foldl_readBit {P : ℕ → Reader → Prop} {number : ℕ → ℕ} {r : Reader} {n : ℕ}
    (hr : P 0 r) (hzero : number 0 = 0)
    (hbit : ∀ m < n, ∀ r, P m r → (readBit (number m, r)).1 = number (m + 1) ∧
      P (m + 1) (readBit (number m, r)).2) :
    ((List.range n).foldl (fun q _ => readBit q) (0, r)).1 = number n ∧
      P n ((List.range n).foldl (fun q _ => readBit q) (0, r)).2 := by
  induction n with
  | zero => exact ⟨hzero.symm, hr⟩
  | succ n ih =>
      obtain ⟨hcode, hP⟩ := ih fun m hm => hbit m (by omega)
      have hstep := hbit n (Nat.lt_succ_self n) _ hP
      rw [← hcode] at hstep
      rw [List.range_succ, List.foldl_append, ← hstep.1]
      exact ⟨rfl, hstep.2⟩

/-- `Read_code` reads the next 13 bits. -/
theorem Read_code_at {xs rest : List UInt8} {p : ℕ} {r : Reader} (h : At xs rest p r)
    (hp : p + 13 ≤ 8 * xs.length) :
    (Read_code r).1 = field (value xs) (8 * xs.length) p 13 ∧
      At xs rest (p + 13) (Read_code r).2 := by
  have hbit : ∀ m < 13, ∀ r, At xs rest (p + m) r →
      (readBit (field (value xs) (8 * xs.length) p m, r)).1
          = field (value xs) (8 * xs.length) p (m + 1) ∧
        At xs rest (p + (m + 1)) (readBit (field (value xs) (8 * xs.length) p m, r)).2 := by
    intro m hm r hat
    rw [field_succ (by omega)]
    exact readBit_at hat (by omega) _
  exact foldl_readBit h (field_zero _ _ _) hbit

/-- `Read_code` called `n` times in turn: the codes, and the reader it leaves. -/
def Read_codes (r : Reader) : ℕ → List ℕ × Reader
  | 0 => ([], r)
  | n + 1 => ((Read_codes r n).1 ++ [(Read_code (Read_codes r n).2).1],
      (Read_code (Read_codes r n).2).2)

/-- A reader at the start of the bytes `xs`, with `rest` after them. -/
def readerOf (xs rest : List UInt8) (Byte : UInt8) : Reader := ⟨⟨xs ++ rest, false⟩, 0, Byte⟩

theorem at_readerOf (xs rest : List UInt8) (Byte : UInt8) : At xs rest 0 (readerOf xs rest Byte) :=
  ⟨rfl, by simp [readerOf], rfl, fun h => absurd rfl h⟩

/-- Reading packed codes back gives the transmitted bits of each code. -/
theorem read_code_packed {codes : List (BitVec 32)} {state : UInt8} {xs rest : List UInt8}
    (h : Packs codes state xs) {m : ℕ} (hm : m < codes.length) {r : Reader}
    (hr : At xs rest (13 * m) r) :
    (Read_code r).1 = low13 codes[m] ∧ At xs rest (13 * (m + 1)) (Read_code r).2 := by
  have hlen := h.length_eq
  obtain ⟨hcode, hat⟩ := Read_code_at hr (by omega)
  refine ⟨?_, by rw [Nat.mul_succ]; exact hat⟩
  have hfield := field_packed (w := 13) (by norm_num) (codes.map low13)
    (by simpa using fun c _ => low13_lt c) (8 * xs.length - 13 * codes.length) (k := m) (by simpa)
  simp only [List.getElem_map, List.length_map] at hfield
  rw [show 13 * codes.length + (8 * xs.length - 13 * codes.length) = 8 * xs.length by omega]
    at hfield
  rw [hcode, h.value_eq, hfield]

theorem read_codes_packed {codes : List (BitVec 32)} {state : UInt8} {xs : List UInt8}
    (h : Packs codes state xs) (rest : List UInt8) (Byte : UInt8) :
    ∀ n, n ≤ codes.length →
      (Read_codes (readerOf xs rest Byte) n).1 = (codes.take n).map low13 ∧
        At xs rest (13 * n) (Read_codes (readerOf xs rest Byte) n).2 := by
  intro n
  induction n with
  | zero => exact fun _ => ⟨rfl, at_readerOf xs rest Byte⟩
  | succ n ih =>
      intro hn
      obtain ⟨hcodes, hat⟩ := ih (by omega)
      obtain ⟨hcode, hat'⟩ := read_code_packed h hn hat
      refine ⟨?_, hat'⟩
      rw [List.take_succ_eq_append_getElem hn, List.map_append, ← hcodes, List.map_singleton,
        ← hcode]
      rfl

/-! ### Counting the codes -/

/-- The loop test where nothing wraps around: the reader is before the last byte. -/
theorem loopTest_sizeT {Size p : ℕ} (hpos : 1 ≤ Size) (hSize : Size < 2 ^ 64) (hp : p < 2 ^ 64) :
    loopTest Size (sizeT p) = decide (p / 8 < Size - 1) := by
  have hposition : sizeT p = p := Nat.mod_eq_of_lt hp
  have hbound : sizeT (Size + (2 ^ 64 - 1)) = Size - 1 := by
    rw [sizeT]
    omega
  rw [loopTest, hposition, hbound]

/-- After `m` of the `k` codes packed in `Size` bytes, the loop test of `Decompress` asks for
another one exactly when there is one. -/
theorem loopTest_iff {k m Size : ℕ} (hSize : Size = (13 * k + 7) / 8) (hm : 1 ≤ m) (hmk : m ≤ k)
    (hk : 13 * k < 2 ^ 64) : loopTest Size (sizeT (13 * m)) = decide (m < k) := by
  rw [loopTest_sizeT (by omega) (by omega) (by omega), decide_eq_decide]
  omega

/-- Packed codes are read back: `Read_code` returns the 13 low bits of each code in order, and the
loop test of `Decompress`, whose bit counter is a `size_t`, makes it read exactly these codes and
consume exactly these bytes. -/
theorem packed_read_back {codes : List (BitVec 32)} {state : UInt8} {output : List UInt8}
    (h : Packs codes state output) (hne : codes ≠ []) (hk : 13 * codes.length < 2 ^ 64)
    (rest : List UInt8) (Byte : UInt8) :
    let r := readerOf output rest Byte
    (Read_codes r codes.length).1 = codes.map low13 ∧
      (Read_codes r codes.length).2.Input = ⟨rest, false⟩ ∧
      ∀ m, 1 ≤ m → m ≤ codes.length →
        loopTest output.length (Read_codes r m).2.Input_position = decide (m < codes.length) := by
  intro r
  have hpos : 0 < codes.length := List.length_pos_of_ne_nil hne
  have hlen := h.length_eq
  obtain ⟨hcodes, hat⟩ := read_codes_packed h rest Byte codes.length le_rfl
  refine ⟨by rw [hcodes, List.take_length], ?_, fun m hm hmk => ?_⟩
  · have hbytes := hat.bytes
    rw [List.drop_of_length_le (by omega), List.nil_append] at hbytes
    cases hin : (Read_codes (readerOf output rest Byte) codes.length).2.Input with
    | mk bytes eof =>
        have heof := hat.eof
        rw [hin] at hbytes heof
        simp only at hbytes heof
        rw [hbytes, heof]
  · obtain ⟨_, hat'⟩ := read_codes_packed h rest Byte m hmk
    rw [hat'.position, loopTest_iff hlen hm hmk hk]

end Decoder

end DedupLzw
