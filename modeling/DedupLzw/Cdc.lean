/-
**Content-defined chunking (`CDC/cdc.cpp`).**

`runCDC` cuts one chunk off a packet: it copies a first window of 12 bytes unconditionally, then
copies byte by byte until the rolling hash hits its target, the chunk has reached its maximal size,
or only a window is left of the packet.  The hash is kept in an unsigned 64-bit variable and wraps
around at almost every step; since the target is tested modulo 4096, which divides 2⁶⁴, the test
sees the residue of an exact integer.  That integer has a closed form (`rollingHash`), so where a
chunk ends is a condition on the bytes of the packet (`IsChunkEnd`), and this is the specification
of `runCDC` proved here.

A buffer is the memory from its first byte on.  Positions are natural numbers: a packet has fewer
than 2¹⁵ bytes, and for a nonnegative `i` the test `i < length - WIN_SIZE` of the source reads the
same with the truncated subtraction of `ℕ`.

Main definitions:

* `DedupLzw.Cdc.hash_func`, `DedupLzw.Cdc.runCDC` — the functions of the source;
* `DedupLzw.Cdc.rollingHash` — the exact integer behind `currHash`;
* `DedupLzw.Cdc.Hit`, `DedupLzw.Cdc.IsChunkEnd` — where a chunk is cut.

Main results:

* `DedupLzw.Cdc.rollingHash_succ` — the update of the hash;
* `DedupLzw.Cdc.CdcInv.cutTest_iff` — the test of the source is a test of the exact integer;
* `DedupLzw.Cdc.runCDC_spec` — **what one call returns**;
* `DedupLzw.Cdc.IsChunkEnd.unique` — the end of a chunk is determined by the bytes.
-/

import Mathlib

set_option relaxedAutoImplicit false
set_option autoImplicit false

namespace DedupLzw

namespace Cdc

/-! ### The functions of the source -/

/-- The memory from an address on. -/
abbrev Buffer : Type := ℕ → UInt8

/-- The size of the window. -/
def WIN_SIZE : ℕ := 12

/-- The base of the hash. -/
def PRIME : UInt64 := 3

/-- The modulus under which the hash is tested. -/
def MODULUS : UInt64 := 4096

/-- The residue that ends a chunk. -/
def TARGET : UInt64 := 1

/-- The size from which on a chunk is not extended. -/
def MAX_CHUNK_SIZE : ℕ := 8192

/-- The powers of `PRIME`. -/
def powPrime : List UInt64 :=
  [1, 3, 9, 27, 81, 243, 729, 2187, 6561, 19683, 59049, 177147, 531441, 1594323]

/-- `hash_func`: the hash of the window at `pos`. -/
def hash_func (input : Buffer) (pos : ℕ) : UInt64 :=
  (List.range WIN_SIZE).foldl (fun hashOut i =>
    let ord := (input (pos + WIN_SIZE - 1 - i)).toUInt64
    let multiplier := powPrime.getD (i + 1) 0
    hashOut + ord * multiplier) 0

/-- The variables of `runCDC`; `chunkSize` is the number of bytes written to `outputBuf`. -/
structure CdcState where
  i : ℕ
  outputBuf : List UInt8
  lastChunkIdx : ℕ
  currHash : UInt64
deriving DecidableEq, Repr

/-- Up to the second loop: the hash of the first window, which is copied as it is. -/
def cdcStart (inputBuf : Buffer) (lastChunkIdx : ℕ) : CdcState where
  i := lastChunkIdx + WIN_SIZE
  outputBuf := (List.range' lastChunkIdx WIN_SIZE).map inputBuf
  lastChunkIdx := lastChunkIdx + WIN_SIZE
  currHash := hash_func inputBuf lastChunkIdx

/-- The test that leaves the second loop. -/
def cutTest (st : CdcState) : Bool :=
  st.currHash % MODULUS = TARGET || st.outputBuf.length ≥ MAX_CHUNK_SIZE

/-- One round of the second loop: copy a byte, update the hash. -/
def cdcRound (inputBuf : Buffer) (st : CdcState) : CdcState where
  i := st.i + 1
  outputBuf := st.outputBuf ++ [inputBuf st.i]
  lastChunkIdx := st.lastChunkIdx + 1
  currHash := st.currHash * PRIME - (inputBuf st.i).toUInt64 * powPrime.getD (WIN_SIZE + 1) 0
    + (inputBuf (st.i + WIN_SIZE)).toUInt64 * PRIME

/-- The second loop. -/
def cdcLoop (inputBuf : Buffer) (length : ℕ) (st : CdcState) : CdcState :=
  if st.i < length - WIN_SIZE then
    if cutTest st then st else cdcLoop inputBuf length (cdcRound inputBuf st)
  else st
termination_by length - WIN_SIZE - st.i
decreasing_by
  simp only [cdcRound]
  omega

/-- `runCDC`: the bytes of `outputBuf`, whose number it returns, and the new `*lastChunkIdx`. -/
def runCDC (inputBuf : Buffer) (length : ℕ) (lastChunkIdx : ℕ) : List UInt8 × ℕ :=
  let st := cdcLoop inputBuf length (cdcStart inputBuf lastChunkIdx)
  (st.outputBuf ++ [0], st.lastChunkIdx)

/-! ### Slices -/

/-- The bytes of a buffer from position `s` up to, but not including, position `e`. -/
def slice (b : Buffer) (s e : ℕ) : List UInt8 := (List.range' s (e - s)).map b

@[simp] theorem length_slice (b : Buffer) (s e : ℕ) : (slice b s e).length = e - s := by
  simp [slice]

@[simp] theorem slice_self (b : Buffer) (s : ℕ) : slice b s s = [] := by simp [slice]

theorem slice_succ (b : Buffer) {s e : ℕ} (h : s ≤ e) :
    slice b s (e + 1) = slice b s e ++ [b e] := by
  have hlen : e + 1 - s = (e - s) + 1 := by omega
  have hpos : s + (e - s) = e := by omega
  rw [slice, slice, hlen, List.range'_concat, List.map_append]
  simp [hpos]

theorem slice_append (b : Buffer) {s m e : ℕ} (hs : s ≤ m) (he : m ≤ e) :
    slice b s m ++ slice b m e = slice b s e := by
  induction e, he using Nat.le_induction with
  | base => simp
  | succ e hme ih => rw [slice_succ b hme, slice_succ b (hs.trans hme), ← List.append_assoc, ih]

theorem mem_slice {b : Buffer} {s e : ℕ} {c : UInt8} :
    c ∈ slice b s e ↔ ∃ j, s ≤ j ∧ j < e ∧ b j = c := by
  simp only [slice, List.mem_map, List.mem_range'_1]
  constructor
  · rintro ⟨j, ⟨hs, he⟩, rfl⟩
    exact ⟨j, hs, by omega, rfl⟩
  · rintro ⟨j, hs, he, rfl⟩
    exact ⟨j, ⟨hs, by omega⟩, rfl⟩

theorem slice_congr {b b' : Buffer} {s e : ℕ} (h : ∀ j, s ≤ j → j < e → b j = b' j) :
    slice b s e = slice b' s e := by
  refine List.map_congr_left fun j hj => ?_
  obtain ⟨hs, he⟩ := List.mem_range'_1.1 hj
  exact h j hs (by omega)

theorem getElem?_slice {b : Buffer} {s e j : ℕ} (h : s + j < e) :
    (slice b s e)[j]? = some (b (s + j)) := by
  have hj : j < e - s := by omega
  simp [slice, hj]

/-! ### The rolling hash -/

/-- The exact integer whose residue `currHash` is when the second loop of a call that started at
`s` is at position `i`. -/
def rollingHash (b : Buffer) (s i : ℕ) : ℤ :=
  3 ^ (i - s - 12) * ∑ j ∈ Finset.range 12, ((b (s + 11 - j)).toNat : ℤ) * 3 ^ (j + 1) +
    ∑ j ∈ Finset.range (i - s - 12), 3 ^ (i - s - 12 - 1 - j) *
      (3 * ((b (s + 24 + j)).toNat : ℤ) - 3 ^ 13 * ((b (s + 12 + j)).toNat : ℤ))

/-- The update drops the byte that is copied, thirteen powers up, and takes in the byte a window
further on. -/
theorem rollingHash_succ (b : Buffer) {s i : ℕ} (h : s + 12 ≤ i) :
    rollingHash b s (i + 1)
      = 3 * rollingHash b s i - 3 ^ 13 * ((b i).toNat : ℤ) + 3 * ((b (i + 12)).toNat : ℤ) := by
  obtain ⟨k, rfl⟩ : ∃ k, i = s + 12 + k := ⟨i - (s + 12), by omega⟩
  have hk : s + 12 + k - s - 12 = k := by omega
  have hk' : s + 12 + k + 1 - s - 12 = k + 1 := by omega
  have hterm : ∀ j ∈ Finset.range k, (3 : ℤ) ^ (k + 1 - 1 - j) *
      (3 * ((b (s + 24 + j)).toNat : ℤ) - 3 ^ 13 * ((b (s + 12 + j)).toNat : ℤ))
      = 3 * (3 ^ (k - 1 - j) *
        (3 * ((b (s + 24 + j)).toNat : ℤ) - 3 ^ 13 * ((b (s + 12 + j)).toNat : ℤ))) := by
    intro j hj
    have hlt := Finset.mem_range.1 hj
    rw [show k + 1 - 1 - j = (k - 1 - j) + 1 by omega, pow_succ]
    ring
  rw [rollingHash, rollingHash, hk, hk', Finset.sum_range_succ _ k, Finset.sum_congr rfl hterm,
    ← Finset.mul_sum, show s + 24 + k = s + 12 + k + 12 by omega]
  simp only [Nat.add_sub_cancel, Nat.sub_self, pow_zero, one_mul]
  ring

/-- The machine word `x` holds the residue of the integer `h`. -/
def Holds (x : UInt64) (h : ℤ) : Prop := (x.toNat : ℤ) % 2 ^ 64 = h % 2 ^ 64

/-- One update of the hash, with the wrap-around of the subtraction. -/
theorem Holds.update {x : UInt64} {h : ℤ} (hx : Holds x h) (y z : UInt8) :
    Holds (x * 3 - y.toUInt64 * 1594323 + z.toUInt64 * 3)
      (3 * h - 3 ^ 13 * (y.toNat : ℤ) + 3 * (z.toNat : ℤ)) := by
  unfold Holds at hx ⊢
  have hy := y.toNat_lt
  have hz := z.toNat_lt
  simp only [UInt64.toNat_add, UInt64.toNat_sub, UInt64.toNat_mul, UInt8.toNat_toUInt64,
    UInt64.reduceToNat]
  omega

theorem toNat_powPrime {j : ℕ} (h : j < 12) : (powPrime.getD (j + 1) 0).toNat = 3 ^ (j + 1) := by
  interval_cases j <;> rfl

/-- The hash of the first window. -/
theorem holds_hash_func (b : Buffer) (s : ℕ) :
    Holds (hash_func b s) (rollingHash b s (s + 12)) := by
  have hsum : ∀ n ≤ 12, ((List.range n).foldl (fun hashOut i =>
      hashOut + (b (s + WIN_SIZE - 1 - i)).toUInt64 * powPrime.getD (i + 1) 0) 0).toNat
      ≡ ∑ j ∈ Finset.range n, (b (s + 11 - j)).toNat * 3 ^ (j + 1) [MOD 2 ^ 64] := by
    intro n
    induction n with
    | zero => exact fun _ => rfl
    | succ n ih =>
        intro hn
        rw [List.range_succ, List.foldl_append, Finset.sum_range_succ, List.foldl_cons,
          List.foldl_nil, UInt64.toNat_add, UInt64.toNat_mul, UInt8.toNat_toUInt64,
          toNat_powPrime (by omega)]
        refine (Nat.mod_modEq _ _).trans (Nat.ModEq.add (ih (by omega)) ?_)
        exact Nat.mod_modEq _ _
  have hroll : rollingHash b s (s + 12)
      = ((∑ j ∈ Finset.range 12, (b (s + 11 - j)).toNat * 3 ^ (j + 1) : ℕ) : ℤ) := by
    simp [rollingHash]
  have h := hsum 12 le_rfl
  unfold Holds
  rw [hroll]
  exact_mod_cast h

/-- The residue under which the hash is tested is that of the exact integer. -/
theorem Holds.mod_eq_iff {x : UInt64} {h : ℤ} (hx : Holds x h) :
    x % MODULUS = TARGET ↔ h % 4096 = 1 := by
  have hmod : (x % MODULUS).toNat = x.toNat % 4096 := by
    rw [UInt64.toNat_mod]
    rfl
  unfold Holds at hx
  rw [← UInt64.toNat_inj, hmod, show TARGET.toNat = 1 from rfl]
  omega

/-! ### Where a chunk ends -/

/-- A chunk that starts at `s` is cut before position `i`: the hash hits its target, or the chunk
has reached its maximal size. -/
def Hit (b : Buffer) (s i : ℕ) : Prop := rollingHash b s i % 4096 = 1 ∨ s + 8192 ≤ i

instance (b : Buffer) (s i : ℕ) : Decidable (Hit b s i) :=
  inferInstanceAs (Decidable (rollingHash b s i % 4096 = 1 ∨ s + 8192 ≤ i))

/-- The chunk that starts at `s` in a packet of this length ends at `e`: the least position after
the first window that is a hit or leaves no more than a window. -/
structure IsChunkEnd (b : Buffer) (length s e : ℕ) : Prop where
  window : s + 12 ≤ e
  stop : length ≤ e + 12 ∨ Hit b s e
  least : ∀ i, s + 12 ≤ i → i < e → i + 12 < length ∧ ¬ Hit b s i

theorem IsChunkEnd.unique {b : Buffer} {length s e e' : ℕ} (h : IsChunkEnd b length s e)
    (h' : IsChunkEnd b length s e') : e = e' := by
  rcases lt_trichotomy e e' with hlt | heq | hlt
  · obtain ⟨hroom, hno⟩ := h'.least e h.window hlt
    rcases h.stop with hend | hhit
    · omega
    · exact absurd hhit hno
  · exact heq
  · obtain ⟨hroom, hno⟩ := h.least e' h'.window hlt
    rcases h'.stop with hend | hhit
    · omega
    · exact absurd hhit hno

theorem IsChunkEnd.le_max {b : Buffer} {length s e : ℕ} (h : IsChunkEnd b length s e) :
    e ≤ s + 8192 := by
  by_contra hlt
  obtain ⟨_, hno⟩ := h.least (s + 8192) (by omega) (by omega)
  exact hno (Or.inr le_rfl)

/-! ### The second loop -/

/-- What the second loop keeps: the chunk is a slice, and the hash is the one of its end. -/
structure CdcInv (b : Buffer) (s : ℕ) (st : CdcState) : Prop where
  window : s + 12 ≤ st.i
  chunk : st.outputBuf = slice b s st.i
  index : st.lastChunkIdx = st.i
  hash : Holds st.currHash (rollingHash b s st.i)

theorem cdcInv_start (b : Buffer) (s : ℕ) : CdcInv b s (cdcStart b s) where
  window := le_rfl
  chunk := by simp [cdcStart, slice]
  index := rfl
  hash := holds_hash_func b s

theorem CdcInv.round {b : Buffer} {s : ℕ} {st : CdcState} (h : CdcInv b s st) :
    CdcInv b s (cdcRound b st) where
  window := h.window.trans (Nat.le_succ _)
  chunk := by
    have hle : s ≤ st.i := by
      have := h.window
      omega
    simp only [cdcRound, h.chunk, slice_succ b hle]
  index := by simp [cdcRound, h.index]
  hash := by
    simp only [cdcRound]
    rw [rollingHash_succ b h.window]
    exact h.hash.update _ _

/-- The test of the source. -/
theorem CdcInv.cutTest_iff {b : Buffer} {s : ℕ} {st : CdcState} (h : CdcInv b s st) :
    cutTest st = true ↔ Hit b s st.i := by
  have hlen : st.outputBuf.length = st.i - s := by rw [h.chunk, length_slice]
  have hwin := h.window
  simp only [cutTest, Bool.or_eq_true, decide_eq_true_eq, h.hash.mod_eq_iff, hlen, MAX_CHUNK_SIZE,
    Hit]
  omega

/-- The loop stops at the end of the chunk. -/
theorem cdcLoop_spec (b : Buffer) (length s : ℕ) (st : CdcState) (h : CdcInv b s st)
    (hleast : ∀ i, s + 12 ≤ i → i < st.i → i + 12 < length ∧ ¬ Hit b s i) :
    CdcInv b s (cdcLoop b length st) ∧ IsChunkEnd b length s (cdcLoop b length st).i := by
  fun_induction cdcLoop b length st with
  | case1 st hroom htest =>
      exact ⟨h, h.window, Or.inr (h.cutTest_iff.1 htest), hleast⟩
  | case2 st hroom htest ih =>
      refine ih h.round fun i hi hlt => ?_
      have hlt' : i < st.i + 1 := hlt
      rcases Nat.lt_succ_iff_lt_or_eq.1 hlt' with hprev | rfl
      · exact hleast i hi hprev
      · refine ⟨?_, fun hhit => htest (h.cutTest_iff.2 hhit)⟩
        simp only [WIN_SIZE] at hroom
        omega
  | case3 st hroom =>
      refine ⟨h, h.window, Or.inl ?_, hleast⟩
      simp only [WIN_SIZE] at hroom
      omega

/-- What one call of `runCDC` returns: the bytes up to the end of the chunk, terminated by a zero
byte, and that end. -/
theorem runCDC_spec (b : Buffer) (length s : ℕ) :
    ∃ e, IsChunkEnd b length s e ∧ runCDC b length s = (slice b s e ++ [0], e) := by
  have hnone : ∀ i, s + 12 ≤ i → i < (cdcStart b s).i → i + 12 < length ∧ ¬ Hit b s i := by
    intro i hi hlt
    simp only [cdcStart, WIN_SIZE] at hlt
    omega
  obtain ⟨hinv, hend⟩ := cdcLoop_spec b length s (cdcStart b s) (cdcInv_start b s) hnone
  refine ⟨_, hend, ?_⟩
  rw [runCDC, hinv.chunk, hinv.index]

end Cdc

end DedupLzw
