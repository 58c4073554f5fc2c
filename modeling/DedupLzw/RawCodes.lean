/-
**`Decompress` on arbitrary bytes.**

Whatever bytes follow a header, `Decompress` reads them as 13-bit codes, and past the end of the
file it reads one bits.  Before the code `n` it has `256 + n` entries in its table less the first
one, so the only thing that can go wrong is a code that is not an entry by the time the next code is
there and it is looked up as the old one.

Main definitions:

* `DedupLzw.Decoder.bitAt`, `codeAt` — the bits and codes of a string of bytes and of what is read
  behind it;
* `DedupLzw.Decoder.AtBit` — the reader, also past the end of the file;
* `DedupLzw.Decoder.GoesOn` — there is another code to be read;
* `DedupLzw.Decoder.CodesInTable` — the codes are entries of the table when they are needed.

Main results:

* `DedupLzw.Decoder.Read_code_atBit` — `Read_code` reads the next code;
* `DedupLzw.Decoder.loopTest_goesOn` — the loop test;
* `DedupLzw.Decoder.RoundsTo.afterCodes`, `roundsTo_of_inTable` — the states of the loop;
* `DedupLzw.Decoder.comesTo_done`, `comesTo_running`, `comesTo_stuck` — **the three outcomes of a
  call**.
-/

import DedupLzw.DecompressRun

set_option relaxedAutoImplicit false
set_option autoImplicit false

namespace DedupLzw

namespace Decoder

open FuelLoop

/-! ### Bits and codes -/

/-- The bit `p` of a file; behind its end the bits are those of the byte 0xFF. -/
def bitAt (bytes : List UInt8) (p : ℕ) : ℕ := (bytes.getD (p / 8) 255).toNat / 2 ^ (7 - p % 8) % 2

/-- The number made up by `n` bits from the bit `p` on. -/
def bitsAt (bytes : List UInt8) (p : ℕ) : ℕ → ℕ
  | 0 => 0
  | n + 1 => 2 * bitsAt bytes p n + bitAt bytes (p + n)

/-- The code `m` of a string of bytes. -/
def codeAt (bytes : List UInt8) (m : ℕ) : ℕ := bitsAt bytes (13 * m) 13

theorem bitsAt_lt (bytes : List UInt8) (p n : ℕ) : bitsAt bytes p n < 2 ^ n := by
  induction n with
  | zero => simp [bitsAt]
  | succ n ih =>
      have hbit : bitAt bytes (p + n) < 2 := Nat.mod_lt _ (by norm_num)
      rw [bitsAt, pow_succ]
      omega

theorem codeAt_lt (bytes : List UInt8) (m : ℕ) : codeAt bytes m < 8192 := bitsAt_lt bytes _ 13

/-! ### Reading -/

/-- The reader is at the bit `p` of the bytes `bytes`, with nothing behind them. -/
structure AtBit (bytes : List UInt8) (p : ℕ) (r : Reader) : Prop where
  position : r.Input_position = sizeT p
  rest : r.Input.bytes = bytes.drop ((p + 7) / 8)
  eof : r.Input.eof = decide (bytes.length < (p + 7) / 8)
  byte : p % 8 ≠ 0 → r.Byte = bytes.getD (p / 8) 255

theorem atBit_start {bytes : List UInt8} {r : Reader} (h : r.Input = ⟨bytes, false⟩) :
    AtBit bytes 0 { r with Input_position := 0 } :=
  ⟨rfl, by simp [h], by simp [h], fun h0 => absurd rfl h0⟩

theorem readBit_atBit {bytes : List UInt8} {p : ℕ} {r : Reader} (h : AtBit bytes p r) (Code : ℕ) :
    (readBit (Code, r)).1 = 2 * Code + bitAt bytes p ∧
      AtBit bytes (p + 1) (readBit (Code, r)).2 := by
  have hpos := h.position
  have hmod := sizeT_mod_eight p
  by_cases hfirst : p % 8 = 0
  · have hrest := h.rest
    have heof := h.eof
    rw [show (p + 7) / 8 = p / 8 by omega] at hrest heof
    rcases Nat.lt_or_ge (p / 8) bytes.length with hlt | hge
    · -- a byte is fetched
      rw [List.drop_eq_getElem_cons hlt] at hrest
      rw [decide_eq_false (by omega)] at heof
      have hfetch : r.Input.get = (bytes.getD (p / 8) 255, ⟨bytes.drop (p / 8 + 1), false⟩) := by
        rw [List.getD_eq_getElem _ _ hlt]
        simp only [Stream.get, hrest, heof]
      simp only [readBit, hpos, hmod, hfirst, if_true, hfetch, shift_in, sizeT_succ,
        Nat.shiftRight_eq_div_pow, bitAt]
      refine ⟨trivial, rfl, ?_, ?_, fun _ => ?_⟩
      · rw [show (p + 1 + 7) / 8 = p / 8 + 1 by omega]
      · rw [decide_eq_false (by omega)]
      · rw [show (p + 1) / 8 = p / 8 by omega]
    · -- past the end
      rw [List.drop_of_length_le hge] at hrest
      have hfetch : r.Input.get = (bytes.getD (p / 8) 255, ⟨[], true⟩) := by
        rw [List.getD_eq_default _ _ hge]
        simp [Stream.get, hrest]
      simp only [readBit, hpos, hmod, hfirst, if_true, hfetch, shift_in, sizeT_succ,
        Nat.shiftRight_eq_div_pow, bitAt]
      refine ⟨trivial, rfl, ?_, ?_, fun _ => ?_⟩
      · rw [List.drop_of_length_le (by omega)]
      · rw [decide_eq_true (by omega)]
      · rw [show (p + 1) / 8 = p / 8 by omega]
  · have hbyte := h.byte hfirst
    simp only [readBit, hpos, hmod, hfirst, if_false, shift_in, sizeT_succ,
      Nat.shiftRight_eq_div_pow, bitAt, hbyte]
    refine ⟨trivial, rfl, ?_, ?_, fun _ => ?_⟩
    · rw [h.rest, show (p + 1 + 7) / 8 = (p + 7) / 8 by omega]
    · rw [h.eof, show (p + 1 + 7) / 8 = (p + 7) / 8 by omega]
    · rw [show (p + 1) / 8 = p / 8 by omega]

/-- `Read_code` reads the next code. -/
theorem Read_code_atBit {bytes : List UInt8} {m : ℕ} {r : Reader} (h : AtBit bytes (13 * m) r) :
    (Read_code r).1 = codeAt bytes m ∧ AtBit bytes (13 * (m + 1)) (Read_code r).2 := by
  have hbit : ∀ n < 13, ∀ r, AtBit bytes (13 * m + n) r →
      (readBit (bitsAt bytes (13 * m) n, r)).1 = bitsAt bytes (13 * m) (n + 1) ∧
        AtBit bytes (13 * m + (n + 1)) (readBit (bitsAt bytes (13 * m) n, r)).2 :=
    fun n _ r hat => readBit_atBit hat _
  exact foldl_readBit h rfl hbit

/-! ### Counting the codes -/

/-- The number of codes that `Decompress (Size)` reads, for a `Size` of at least 1: the first one,
and more until they reach the last byte. -/
def codeCount (Size : ℕ) : ℕ := max 1 ((8 * (Size - 1) + 12) / 13)

/-- Another code is read after the code `m`; with `Size` 0 there always is one. -/
def GoesOn (Size m : ℕ) : Prop := Size = 0 ∨ m + 1 < codeCount Size

/-- The loop test asks for another code exactly when there is one. -/
theorem loopTest_goesOn {Size m : ℕ} (hSize : Size < 2 ^ 31)
    (hm : Size ≠ 0 → m + 1 ≤ codeCount Size) :
    loopTest Size (sizeT (13 * (m + 1))) = true ↔ GoesOn Size m := by
  by_cases hzero : Size = 0
  · subst hzero
    exact iff_of_true (loopTest_zero _ (Nat.mod_lt _ (by norm_num))) (Or.inl rfl)
  · have hle := hm hzero
    unfold codeCount at hle
    rw [loopTest_sizeT (by omega) (by omega) (by omega), decide_eq_true_eq]
    unfold GoesOn codeCount
    omega

/-! ### One round -/

/-- The conversion to `int` never makes a size larger. -/
theorem toInt_le (size : ℕ) : toInt size ≤ size := by
  rw [toInt, BitVec.toInt_eq_toNat_cond, BitVec.toNat_ofNat]
  split <;> omega

/-- Where the old code is an entry of the table, the round reads a code, which becomes the old one,
and adds an entry. -/
theorem decompressRound_done {t : DecompressState} (h : t.Old < t.Code_table.length) :
    ∃ u, decompressRound t = .done u ∧ u.reader = (Read_code t.reader).2 ∧
      u.Old = (Read_code t.reader).1 ∧ u.Code_table.length = t.Code_table.length + 1 := by
  have hnew : ∃ Symbols, (if ((Read_code t.reader).1 : ℤ) ≥ toInt t.Code_table.length
      then some (t.Code_table[t.Old] ++ t.Symbol) else t.Code_table[(Read_code t.reader).1]?)
        = some Symbols := by
    split
    · exact ⟨_, rfl⟩
    · next hlt =>
        have hle := toInt_le t.Code_table.length
        exact ⟨_, List.getElem?_eq_getElem (by omega)⟩
  obtain ⟨Symbols, hSymbols⟩ := hnew
  refine ⟨⟨(Read_code t.reader).2, t.Code_table ++ [t.Code_table[t.Old] ++ [Symbols.headD 0]],
    (Read_code t.reader).1, [Symbols.headD 0], t.Output ++ Symbols⟩, ?_, rfl, rfl, by simp⟩
  simp only [decompressRound, List.getElem?_eq_getElem h, hSymbols]

/-- Where it is not, the program leaves its table. -/
theorem decompressRound_stuck {t : DecompressState} (h : t.Code_table.length ≤ t.Old) :
    decompressRound t = .stuck := by
  simp only [decompressRound, List.getElem?_eq_none h]

theorem lt_of_decompressRound {t u : DecompressState} (h : decompressRound t = .done u) :
    t.Old < t.Code_table.length := by
  by_contra hge
  rw [decompressRound_stuck (by omega)] at h
  exact absurd h (by simp)

/-! ### The states of the loop -/

/-- The state after the codes 0 to `n`. -/
structure AfterCodes (bytes : List UInt8) (n : ℕ) (t : DecompressState) : Prop where
  reader : AtBit bytes (13 * (n + 1)) t.reader
  old : t.Old = codeAt bytes n
  size : t.Code_table.length = 256 + n

theorem afterCodes_start {bytes : List UInt8} {r : Reader} (h : r.Input = ⟨bytes, false⟩) :
    AfterCodes bytes 0 (decompressStart r) := by
  obtain ⟨hcode, hat⟩ := Read_code_atBit (m := 0) (atBit_start h)
  exact ⟨hat, hcode, by simp [decompressStart]⟩

theorem AfterCodes.next {bytes : List UInt8} {n : ℕ} {t : DecompressState}
    (h : AfterCodes bytes n t) (hcode : codeAt bytes n < 256 + n) :
    ∃ u, decompressRound t = .done u ∧ AfterCodes bytes (n + 1) u := by
  obtain ⟨u, hu, hreader, hold, hsize⟩ := decompressRound_done (t := t) (by
    rw [h.old, h.size]
    exact hcode)
  obtain ⟨hnew, hat⟩ := Read_code_atBit h.reader
  refine ⟨u, hu, ?_, by rw [hold, hnew], by rw [hsize, h.size]; omega⟩
  rw [hreader]
  exact hat

section Call

variable {bytes : List UInt8} {r : Reader} {Size : ℕ}

/-- The states that the loop reaches. -/
theorem RoundsTo.afterCodes (hr : r.Input = ⟨bytes, false⟩) {n : ℕ} {t : DecompressState}
    (h : RoundsTo Size (decompressStart r) n t) : AfterCodes bytes n t := by
  induction h with
  | zero => exact afterCodes_start hr
  | @succ n t u _ _ hround ih =>
      have hlt := lt_of_decompressRound hround
      rw [ih.old, ih.size] at hlt
      obtain ⟨u', hu', hnext⟩ := ih.next hlt
      obtain rfl : u = u' := by
        rw [hround] at hu'
        exact Outcome.done.inj hu'
      exact hnext

/-- The loop does not read more codes than there are. -/
theorem RoundsTo.le_codeCount (hr : r.Input = ⟨bytes, false⟩) (hSize : Size < 2 ^ 31) {n : ℕ}
    {t : DecompressState} (h : RoundsTo Size (decompressStart r) n t) :
    Size ≠ 0 → n + 1 ≤ codeCount Size := by
  intro hpos
  induction h with
  | zero => exact le_max_left _ _
  | @succ n t u ht htest _ ih =>
      rw [(ht.afterCodes hr).reader.position, loopTest_goesOn hSize fun _ => ih] at htest
      exact htest.resolve_left hpos

/-- The loop reaches the code `n` when the codes before it are entries of the table. -/
theorem roundsTo_of_inTable (hr : r.Input = ⟨bytes, false⟩) (hSize : Size < 2 ^ 31) {n : ℕ}
    (hn : Size ≠ 0 → n < codeCount Size) (hcodes : ∀ m < n, codeAt bytes m < 256 + m) :
    ∃ t, RoundsTo Size (decompressStart r) n t := by
  induction n with
  | zero => exact ⟨_, RoundsTo.zero⟩
  | succ n ih =>
      obtain ⟨t, ht⟩ := ih (fun h => by have := hn h; omega) fun m hm => hcodes m (by omega)
      have hafter := ht.afterCodes hr
      obtain ⟨u, hu, _⟩ := hafter.next (hcodes n (by omega))
      refine ⟨u, ht.succ ?_ hu⟩
      rw [hafter.reader.position, loopTest_goesOn hSize (fun h => (hn h).le)]
      by_cases hzero : Size = 0
      · exact Or.inl hzero
      · exact Or.inr (hn hzero)

/-! ### The outcome of a call -/

/-- Every code with another one behind it is an entry of the table by the time that one is read. -/
def CodesInTable (Size : ℕ) (bytes : List UInt8) : Prop :=
  ∀ m, GoesOn Size m → codeAt bytes m < 256 + m

/-- The first code that is not an entry when it is needed. -/
theorem exists_first_outside (h : ¬ CodesInTable Size bytes) :
    ∃ n, GoesOn Size n ∧ 256 + n ≤ codeAt bytes n ∧ ∀ m < n, codeAt bytes m < 256 + m := by
  unfold CodesInTable at h
  push Not at h
  obtain ⟨k, hk, hout⟩ := h
  have hex : ∃ n, 256 + n ≤ codeAt bytes n := ⟨k, hout⟩
  have hle : Nat.find hex ≤ k := Nat.find_min' hex hout
  refine ⟨Nat.find hex, ?_, Nat.find_spec hex, fun m hm => ?_⟩
  · rcases hk with hzero | hlt
    · exact Or.inl hzero
    · exact Or.inr (by omega)
  · exact Nat.lt_of_not_le (Nat.find_min hex hm)

theorem RoundsTo.comesTo {s t : DecompressState} {n : ℕ} (h : RoundsTo Size s n t)
    {o : Outcome DecompressState}
    (ho : ComesTo (fun fuel => iterate (fun _ => decompressBody Size) fuel t) o) :
    ComesTo (fun fuel => iterate (fun _ => decompressBody Size) fuel s) o := by
  induction h with
  | zero => exact ho
  | succ _ htest hround ih =>
      refine ih (comesTo_again ?_ ho)
      simpa [decompressBody, htest, hround] using comesTo_const _

/-- A call with a `Size` of at least 1 whose codes are entries of the table returns, with the reader
behind its codes. -/
theorem comesTo_done (hr : r.Input = ⟨bytes, false⟩) (hSize : Size < 2 ^ 31) (hpos : Size ≠ 0)
    (h : CodesInTable Size bytes) :
    ∃ out r', ComesTo (Decompress Size r) (.done (out, r')) ∧
      AtBit bytes (13 * codeCount Size) r' := by
  obtain ⟨n, hn⟩ : ∃ n, codeCount Size = n + 1 := ⟨codeCount Size - 1, by unfold codeCount; omega⟩
  obtain ⟨t, ht⟩ := roundsTo_of_inTable hr hSize (n := n) (fun _ => by omega)
    fun m hm => h m (Or.inr (by omega))
  have hafter := ht.afterCodes hr
  have htest : loopTest Size t.reader.Input_position = false := by
    rw [hafter.reader.position, ← Bool.not_eq_true, loopTest_goesOn hSize (fun _ => by omega)]
    rintro (hzero | hlt)
    · exact hpos hzero
    · omega
  refine ⟨t.Output, t.reader, ?_, by rw [hn]; exact hafter.reader⟩
  refine ComesTo.andThen (ht.comesTo (comesTo_stop ?_)) (comesTo_const _)
  simpa [decompressBody, htest] using comesTo_const _

/-- A call with `Size` 0 whose codes are entries of the table goes on for ever. -/
theorem comesTo_running (hr : r.Input = ⟨bytes, false⟩) (h : CodesInTable 0 bytes) :
    ComesTo (Decompress 0 r) .running := by
  refine ComesTo.andThen_running _ (comesTo_running_of_inv (fun t => ∃ n, AfterCodes bytes n t) ?_
    ⟨0, afterCodes_start hr⟩)
  rintro t ⟨n, hafter⟩
  obtain ⟨u, hu, hnext⟩ := hafter.next (h n (Or.inl rfl))
  have htest : loopTest 0 t.reader.Input_position = true := by
    rw [hafter.reader.position]
    exact (loopTest_goesOn (by norm_num) fun h0 => absurd rfl h0).2 (Or.inl rfl)
  exact ⟨u, fun _ => by simp [decompressBody, htest, hu], n + 1, hnext⟩

/-- Any other call leaves its table. -/
theorem comesTo_stuck (hr : r.Input = ⟨bytes, false⟩) (hSize : Size < 2 ^ 31)
    (h : ¬ CodesInTable Size bytes) : ComesTo (Decompress Size r) .stuck := by
  obtain ⟨n, hgoes, hout, hbefore⟩ := exists_first_outside h
  have hn : Size ≠ 0 → n + 1 ≤ codeCount Size := fun hpos => (hgoes.resolve_left hpos).le
  obtain ⟨t, ht⟩ := roundsTo_of_inTable hr hSize (fun h0 => by have := hn h0; omega) hbefore
  have hafter := ht.afterCodes hr
  have htest : loopTest Size t.reader.Input_position = true := by
    rw [hafter.reader.position]
    exact (loopTest_goesOn hSize hn).2 hgoes
  have hstuck : decompressRound t = .stuck :=
    decompressRound_stuck (by rw [hafter.old, hafter.size]; exact hout)
  refine ComesTo.andThen_stuck _ (ht.comesTo (comesTo_body_stuck ?_))
  simpa [decompressBody, htest, hstuck] using comesTo_const _

/-- The indices into the table in a round: the old code, and the new one unless it is taken for the
entry still to come. -/
def IndicesInTable (t : DecompressState) : Prop :=
  t.Old < t.Code_table.length ∧
    (((Read_code t.reader).1 : ℤ) < toInt t.Code_table.length →
      (Read_code t.reader).1 < t.Code_table.length)

/-- In all rounds of a call the indices are inside the table exactly when the codes are entries when
they are needed. -/
theorem indicesInTable_iff (hr : r.Input = ⟨bytes, false⟩) (hSize : Size < 2 ^ 31)
    (hpos : Size ≠ 0) :
    (∀ n t, RoundsTo Size (decompressStart r) n t →
      loopTest Size t.reader.Input_position = true → IndicesInTable t) ↔
      CodesInTable Size bytes := by
  constructor
  · intro h
    by_contra hnot
    obtain ⟨n, hgoes, hout, hbefore⟩ := exists_first_outside hnot
    have hn : n + 1 ≤ codeCount Size := (hgoes.resolve_left hpos).le
    obtain ⟨t, ht⟩ := roundsTo_of_inTable hr hSize (fun _ => by omega) hbefore
    have hafter := ht.afterCodes hr
    have hlt := (h n t ht (by
      rw [hafter.reader.position]
      exact (loopTest_goesOn hSize fun _ => hn).2 hgoes)).1
    rw [hafter.old, hafter.size] at hlt
    omega
  · intro h n t ht htest
    have hafter := ht.afterCodes hr
    have hle := toInt_le t.Code_table.length
    refine ⟨?_, fun hnew => by omega⟩
    rw [hafter.reader.position, loopTest_goesOn hSize (ht.le_codeCount hr hSize)] at htest
    rw [hafter.old, hafter.size]
    exact h n htest

end Call

end Decoder

end DedupLzw
