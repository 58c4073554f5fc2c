/-
**The rolling hash and the hash of a window.**

A rolling hash is the hash of the last window, brought up to date byte by byte.  `runCDC` starts
with the hash of the first window of the chunk and updates it the way such a hash is rolled: times
the base, less the byte that leaves, thirteen powers up, plus the byte that enters.  But it takes
both bytes a window too far on, counting from the byte it copies instead of from the window.  So the
hash of the first window is never taken out again: whatever the offset, `currHash` is the hash of
the window there only where the bytes agree that leave and enter, here and there, and where a chunk
is cut depends on where it started.

What `currHash` is instead has a closed form (`DedupLzw.Cdc.rollingHash`), and with it the result of
a call is specified exactly.

Main definitions:

* `DedupLzw.Cdc.Tested` — the states in which the second loop evaluates its test;
* `DedupLzw.Cdc.windowHash` — the exact integer behind `hash_func`;
* `DedupLzw.Cdc.RollsWindow` — in every test, `currHash` is the hash of the window at an offset;
* `DedupLzw.Cdc.WindowsAgree` — the bytes at that offset agree wherever a call updates its hash.

Main results:

* `DedupLzw.Cdc.runCDC_exact` — **the specification of one call**;
* `DedupLzw.Cdc.rolls_step_iff` — when one update rolls the hash of a window on;
* `DedupLzw.Cdc.rollsWindow_iff` — **when the hash is the one of a window**.
-/

import DedupLzw.Cdc

set_option relaxedAutoImplicit false
set_option autoImplicit false

namespace DedupLzw

namespace Cdc

/-! ### The tests of a call -/

/-- The states in which the second loop of a call of `runCDC` evaluates its cut test. -/
inductive Tested (b : Buffer) (length s : ℕ) : CdcState → Prop
  /-- The first test. -/
  | start : (cdcStart b s).i < length - WIN_SIZE → Tested b length s (cdcStart b s)
  /-- The test after a round. -/
  | round {st : CdcState} : Tested b length s st → cutTest st = false →
      (cdcRound b st).i < length - WIN_SIZE → Tested b length s (cdcRound b st)

section Tests

variable {b : Buffer} {length s : ℕ} {st : CdcState}

theorem Tested.inv (h : Tested b length s st) : CdcInv b s st := by
  induction h with
  | start _ => exact cdcInv_start b s
  | round _ _ _ ih => exact ih.round

/-- The next test, unless this one ends the chunk. -/
theorem Tested.next (h : Tested b length s st) (htest : cutTest st = false)
    (hroom : st.i + 13 < length) : Tested b length s (cdcRound b st) := by
  refine h.round htest ?_
  simp only [cdcRound, WIN_SIZE]
  omega

/-- The residue that is tested is that of the exact integer. -/
theorem Tested.mod_eq (h : Tested b length s st) :
    (st.currHash.toNat : ℤ) % 4096 = rollingHash b s st.i % 4096 := by
  have hhash := h.inv.hash
  unfold Holds at hhash
  omega

end Tests

/-- The specification of one call of `runCDC`: the new `*lastChunkIdx` is the least position after
the first window at which only a window is left, the chunk has its maximal size, or the exact hash
is 1 modulo 4096; the chunk is the buffer up to there, terminated by a zero byte. -/
theorem runCDC_exact (b : Buffer) (length s : ℕ) :
    let n := (runCDC b length s).1.length - 1
    let e := (runCDC b length s).2
    e = s + n ∧ (runCDC b length s).1 = slice b s e ++ [0] ∧ 12 ≤ n ∧ n ≤ 8192 ∧
      IsLeast {i : ℕ | s + 12 ≤ i ∧ ((length : ℤ) - 12 ≤ i ∨ (i : ℤ) - s = 8192 ∨
        rollingHash b s i % 4096 = 1)} e ∧
      ∀ st, Tested b length s st →
        (st.currHash.toNat : ℤ) % 4096 = rollingHash b s st.i % 4096 := by
  obtain ⟨e, hend, hrun⟩ := runCDC_spec b length s
  have hwindow := hend.window
  have hmax := hend.le_max
  have hn : (slice b s e ++ [0]).length - 1 = e - s := by simp
  simp only [hrun, hn]
  refine ⟨by omega, trivial, by omega, by omega, ⟨⟨hwindow, ?_⟩, ?_⟩, fun st hst => hst.mod_eq⟩
  · rcases hend.stop with hroom | hhit | hfull
    · exact Or.inl (by omega)
    · exact Or.inr (Or.inr hhit)
    · exact Or.inr (Or.inl (by omega))
  · rintro i ⟨hi, hstop⟩
    by_contra hlt
    obtain ⟨hroom, hno⟩ := hend.least i hi (by omega)
    rcases hstop with hend' | hfull | hhit
    · omega
    · exact hno (Or.inr (by omega))
    · exact hno (Or.inl hhit)

/-! ### The hash of a window -/

/-- The exact integer behind `hash_func`. -/
def windowHash (b : Buffer) (p : ℕ) : ℤ :=
  ∑ j ∈ Finset.range 12, ((b (p + 11 - j)).toNat : ℤ) * 3 ^ (j + 1)

theorem rollingHash_start (b : Buffer) (s : ℕ) : rollingHash b s (s + 12) = windowHash b s := by
  simp [rollingHash, windowHash]

/-- The window moves on by a byte: its first byte leaves, thirteen powers up, and the byte behind it
enters. -/
theorem windowHash_succ (b : Buffer) (p : ℕ) :
    windowHash b (p + 1)
      = 3 * windowHash b p - 3 ^ 13 * ((b p).toNat : ℤ) + 3 * ((b (p + 12)).toNat : ℤ) := by
  have hterm : ∀ j ∈ Finset.range 11,
      ((b (p + 1 + 11 - (j + 1))).toNat : ℤ) * 3 ^ (j + 1 + 1)
        = 3 * (((b (p + 11 - j)).toNat : ℤ) * 3 ^ (j + 1)) := by
    intro j _
    rw [show p + 1 + 11 - (j + 1) = p + 11 - j by omega]
    ring
  rw [windowHash, windowHash, Finset.sum_range_succ', Finset.sum_congr rfl hterm,
    ← Finset.mul_sum, Finset.sum_range_succ _ 11]
  simp only [Nat.add_sub_cancel, Nat.sub_zero]
  ring

/-- The hash of a window does not wrap around. -/
theorem windowHash_bounds (b : Buffer) (p : ℕ) : 0 ≤ windowHash b p ∧ windowHash b p < 2 ^ 31 := by
  constructor
  · exact Finset.sum_nonneg fun j _ => by positivity
  · have hle : windowHash b p ≤ ∑ j ∈ Finset.range 12, (255 : ℤ) * 3 ^ (j + 1) := by
      refine Finset.sum_le_sum fun j _ => ?_
      have hbyte := (b (p + 11 - j)).toNat_lt
      gcongr
      omega
    refine lt_of_le_of_lt hle ?_
    decide

theorem toNat_hash_func (b : Buffer) (p : ℕ) : ((hash_func b p).toNat : ℤ) = windowHash b p := by
  have hholds := holds_hash_func b p
  have hbounds := windowHash_bounds b p
  have hlt := (hash_func b p).toNat_lt
  unfold Holds at hholds
  rw [rollingHash_start] at hholds
  omega

/-! ### When the hash is the one of a window -/

/-- The window at the offset `d` from the position `i`. -/
def window (d : ℤ) (i : ℕ) : ℕ := ((i : ℤ) - d).toNat

theorem window_succ {d : ℤ} {i : ℕ} (h : d ≤ i) : window d (i + 1) = window d i + 1 := by
  simp only [window]
  omega

/-- In every test, `currHash` is the hash of the window at the offset `d` from the position, which
does not begin before the buffer. -/
def RollsWindow (b : Buffer) (length s : ℕ) (d : ℤ) : Prop :=
  ∀ st, Tested b length s st → d ≤ st.i ∧ st.currHash = hash_func b (window d st.i)

/-- `currHash` is the hash of a window when the exact integers agree modulo 2⁶⁴. -/
theorem CdcInv.currHash_eq_iff {b : Buffer} {s : ℕ} {st : CdcState} (h : CdcInv b s st) (p : ℕ) :
    st.currHash = hash_func b p ↔ (rollingHash b s st.i - windowHash b p) % 2 ^ 64 = 0 := by
  have hhash := h.hash
  have hwindow := toNat_hash_func b p
  have hlt := st.currHash.toNat_lt
  have hlt' := (hash_func b p).toNat_lt
  unfold Holds at hhash
  rw [← UInt64.toNat_inj]
  omega

/-- One update rolls the hash of the window at `p` on exactly when the byte that leaves this window
is the one taken out, and the byte that enters it is the one taken in. -/
theorem rolls_step_iff {b : Buffer} {s i p : ℕ} (hi : s + 12 ≤ i)
    (h : (rollingHash b s i - windowHash b p) % 2 ^ 64 = 0) :
    (rollingHash b s (i + 1) - windowHash b (p + 1)) % 2 ^ 64 = 0 ↔
      b p = b i ∧ b (p + 12) = b (i + 12) := by
  rw [rollingHash_succ b hi, windowHash_succ b p, ← UInt8.toNat_inj, ← UInt8.toNat_inj]
  have hleaves := (b p).toNat_lt
  have hout := (b i).toNat_lt
  have henters := (b (p + 12)).toNat_lt
  have hin := (b (i + 12)).toNat_lt
  generalize (b p).toNat = x at *
  generalize (b i).toNat = y at *
  generalize (b (p + 12)).toNat = z at *
  generalize (b (i + 12)).toNat = w at *
  generalize rollingHash b s i = h₁ at *
  generalize windowHash b p = h₂ at *
  -- the difference of the bytes is too small to be a multiple of 2⁶⁴
  have hsplit : 3 * h₁ - 3 ^ 13 * (y : ℤ) + 3 * w - (3 * h₂ - 3 ^ 13 * (x : ℤ) + 3 * z)
      = 3 * (h₁ - h₂) + (3 * ((w : ℤ) - z) - 3 ^ 13 * ((y : ℤ) - x)) := by ring
  have hzero : 3 * ((w : ℤ) - z) - 3 ^ 13 * ((y : ℤ) - x) = 0 ↔ x = y ∧ z = w := by omega
  have hsmall : |3 * ((w : ℤ) - z) - 3 ^ 13 * ((y : ℤ) - x)| < 2 ^ 64 := by
    rw [abs_lt]
    omega
  have hdvd : (2 : ℤ) ^ 64 ∣ 3 * (h₁ - h₂) := Dvd.dvd.mul_left (Int.dvd_of_emod_eq_zero h) 3
  rw [hsplit, ← hzero, ← Int.dvd_iff_emod_eq_zero, Int.dvd_add_right hdvd]
  exact ⟨fun hg => Int.eq_zero_of_abs_lt_dvd hg hsmall, fun hg => hg ▸ dvd_zero _⟩

/-- The call updates its hash at the position `i` and tests it again, if its hash is that of the
window at the offset `d`: no window up to there hits the target, the chunk has not its maximal size,
and the next position is tested. -/
structure Updates (b : Buffer) (length s : ℕ) (d : ℤ) (i : ℕ) : Prop where
  after : s + 12 ≤ i
  size : i < s + 8192
  room : i + 13 < length
  miss : ∀ j, s + 12 ≤ j → j ≤ i → hash_func b (window d j) % MODULUS ≠ TARGET

/-- The bytes agree at the offset `d`. -/
structure WindowsAgree (b : Buffer) (length s : ℕ) (d : ℤ) : Prop where
  /-- If there is a test, the first window of the chunk has the hash of the one asked for. -/
  first : s + 24 < length → d ≤ s + 12 ∧ hash_func b s = hash_func b (window d (s + 12))
  /-- Wherever the call updates its hash, the bytes taken out and taken in are the right ones. -/
  update : ∀ i, Updates b length s d i →
    b (window d i) = b i ∧ b (window d i + 12) = b (i + 12)

section Offset

variable {b : Buffer} {length s : ℕ} {d : ℤ}

theorem tested_start (hroom : s + 24 < length) : Tested b length s (cdcStart b s) := by
  refine Tested.start ?_
  simp only [cdcStart, WIN_SIZE]
  omega

/-- A test that does not end the chunk. -/
theorem Tested.cutTest_eq_false_iff {st : CdcState} (h : Tested b length s st) :
    cutTest st = false ↔ st.currHash % MODULUS ≠ TARGET ∧ st.i < s + 8192 := by
  have hlen : st.outputBuf.length = st.i - s := by rw [h.inv.chunk, length_slice]
  have hwindow := h.inv.window
  simp only [cutTest, Bool.or_eq_false_iff, decide_eq_false_iff_not, hlen, MAX_CHUNK_SIZE]
  refine and_congr Iff.rfl ?_
  omega

/-- A call that rolls the hash of a window tests every position at which it updates. -/
theorem RollsWindow.tested (h : RollsWindow b length s d) {i : ℕ} (hi : Updates b length s d i) :
    ∃ st, Tested b length s st ∧ st.i = i ∧ cutTest st = false := by
  obtain ⟨hafter, hsize, hroom, hmiss⟩ := hi
  have huncut : ∀ st, Tested b length s st → st.i ≤ i → cutTest st = false := by
    intro st hst hle
    refine hst.cutTest_eq_false_iff.2 ⟨?_, by omega⟩
    rw [(h st hst).2]
    exact hmiss st.i hst.inv.window hle
  induction i, hafter using Nat.le_induction with
  | base =>
      have hstart : Tested b length s (cdcStart b s) := tested_start (by omega)
      exact ⟨_, hstart, rfl, huncut _ hstart le_rfl⟩
  | succ i hi ih =>
      obtain ⟨st, hst, rfl, htest⟩ := ih (by omega) (by omega)
        (fun j hj hle => hmiss j hj (by omega)) fun st hst hle => huncut st hst (by omega)
      have hnext := hst.next htest (by omega)
      exact ⟨_, hnext, rfl, huncut _ hnext le_rfl⟩

/-- Along the tests of a call, no window before the position has hit the target. -/
theorem WindowsAgree.rolls (h : WindowsAgree b length s d) {st : CdcState}
    (hst : Tested b length s st) :
    (d ≤ st.i ∧ st.currHash = hash_func b (window d st.i)) ∧
      ∀ j, s + 12 ≤ j → j < st.i → hash_func b (window d j) % MODULUS ≠ TARGET := by
  induction hst with
  | start hroom =>
      simp only [cdcStart, WIN_SIZE] at hroom ⊢
      obtain ⟨hd, hfirst⟩ := h.first (by omega)
      exact ⟨⟨by exact_mod_cast hd, hfirst⟩, fun j hj hlt => absurd hlt (by omega)⟩
  | @round st hst htest hroom ih =>
      obtain ⟨⟨hd, hroll⟩, hmiss⟩ := ih
      obtain ⟨htarget, hmax⟩ := hst.cutTest_eq_false_iff.1 htest
      rw [hroll] at htarget
      have hwindow := hst.inv.window
      have hmiss' : ∀ j, s + 12 ≤ j → j ≤ st.i →
          hash_func b (window d j) % MODULUS ≠ TARGET := by
        intro j hj hle
        rcases Nat.lt_or_ge j st.i with hlt | hge
        · exact hmiss j hj hlt
        · rwa [show j = st.i by omega]
      simp only [cdcRound, WIN_SIZE] at hroom
      have hbytes := h.update st.i ⟨hwindow, by omega, by omega, hmiss'⟩
      have hbefore := (hst.inv.currHash_eq_iff _).1 hroll
      refine ⟨⟨?_, ?_⟩, fun j hj hlt => hmiss' j hj (Nat.le_of_lt_succ hlt)⟩
      · show d ≤ ((st.i + 1 : ℕ) : ℤ)
        omega
      · refine (hst.inv.round.currHash_eq_iff _).2 ?_
        show (rollingHash b s (st.i + 1) - windowHash b (window d (st.i + 1))) % 2 ^ 64 = 0
        rw [window_succ hd]
        exact (rolls_step_iff hwindow hbefore).2 hbytes

end Offset

/-- For every offset: the hash is the one of the window there in every test of a call exactly when
the first window of the chunk has the hash of the one there, and at every update the bytes at the
offset agree. -/
theorem rollsWindow_iff (b : Buffer) (length s : ℕ) (d : ℤ) :
    RollsWindow b length s d ↔ WindowsAgree b length s d := by
  constructor
  · intro h
    refine ⟨fun hroom => ?_, fun i hi => ?_⟩
    · obtain ⟨hd, hfirst⟩ := h _ (tested_start hroom)
      exact ⟨by exact_mod_cast hd, hfirst⟩
    · obtain ⟨st, hst, rfl, htest⟩ := h.tested hi
      obtain ⟨hd, hroll⟩ := h st hst
      have hnext := hst.next htest hi.room
      have hafter := (hnext.inv.currHash_eq_iff _).1 (h _ hnext).2
      have hafter : (rollingHash b s (st.i + 1) - windowHash b (window d (st.i + 1))) % 2 ^ 64
          = 0 := hafter
      rw [window_succ hd] at hafter
      exact (rolls_step_iff hi.after ((hst.inv.currHash_eq_iff _).1 hroll)).1 hafter
  · exact fun h st hst => (h.rolls hst).1

/-- There is no offset at which `currHash` is always the hash of a window: after one update on a
buffer whose only nonzero byte is the one behind the first window, it is the hash of none. -/
theorem no_window_offset :
    ¬ ∃ d : ℤ, ∀ (b : Buffer) (length s : ℕ) (st : CdcState), Tested b length s st →
      st.currHash = hash_func b ((st.i : ℤ) - d).toNat := by
  rintro ⟨d, hd⟩
  let b : Buffer := fun j => if j = 12 then 1 else 0
  have hstart : Tested b 26 0 (cdcStart b 0) := Tested.start (by decide)
  have hnext : Tested b 26 0 (cdcRound b (cdcStart b 0)) := hstart.round (by decide) (by decide)
  have hhash : (cdcRound b (cdcStart b 0)).currHash.toNat = 2 ^ 64 - 3 ^ 13 := by decide
  have hwindow := toNat_hash_func b (((cdcRound b (cdcStart b 0)).i : ℤ) - d).toNat
  have hbounds := windowHash_bounds b (((cdcRound b (cdcStart b 0)).i : ℤ) - d).toNat
  rw [← hd b 26 0 _ hnext, hhash] at hwindow
  omega

end Cdc

end DedupLzw
