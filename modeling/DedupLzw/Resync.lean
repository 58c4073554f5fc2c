/-
**Chunks depend on content.**

The exact hash at a position is a sum over the bytes from the start of the chunk to a window behind
the position, so it is the same wherever these bytes stand.  As long as a cut comes from the content
and not from the end of the packet, equal bytes are therefore cut equally, at any position of any
packet.  From a common cut on this goes on from chunk to chunk, as far as the data is equal; and the
chunks are found in `shaMap` once one of the two packets has been processed.

Main definitions:

* `DedupLzw.App.cutAfter`, `DedupLzw.App.chunkAfter` — the cuts from a position on, and the chunks
  between them.

Main results:

* `DedupLzw.Cdc.rollingHash_shift` — the hash does not depend on the position;
* `DedupLzw.App.runCDC_shift` — one call on equal data;
* `DedupLzw.App.cutAfter_shift` — the calls after it;
* `DedupLzw.App.Reachable.lookup_chunk` — processed chunks are found;
* `DedupLzw.App.equal_data_resyncs` — **equal data is cut into the same chunks, which are found**.
-/

import DedupLzw.Numbering

set_option relaxedAutoImplicit false
set_option autoImplicit false

namespace DedupLzw

namespace Cdc

/-! ### The test at another position -/

section Shift

variable {a b : Buffer} {s t k : ℕ}

/-- The hash `k` bytes behind the start of a chunk reads `k + 12` bytes from there on. -/
theorem rollingHash_shift (hwin : 12 ≤ k) (h : ∀ j < k + 12, a (s + j) = b (t + j)) :
    rollingHash a s (s + k) = rollingHash b t (t + k) := by
  have hs : s + k - s - 12 = k - 12 := by omega
  have ht : t + k - t - 12 = k - 12 := by omega
  have hfirst : ∀ j ∈ Finset.range 12, ((a (s + 11 - j)).toNat : ℤ) * 3 ^ (j + 1)
      = ((b (t + 11 - j)).toNat : ℤ) * 3 ^ (j + 1) := by
    intro j hj
    have hj' := Finset.mem_range.1 hj
    rw [show s + 11 - j = s + (11 - j) by omega, show t + 11 - j = t + (11 - j) by omega,
      h _ (by omega)]
  rw [rollingHash, rollingHash, hs, ht, Finset.sum_congr rfl hfirst]
  congr 1
  refine Finset.sum_congr rfl fun j hj => ?_
  have hj' := Finset.mem_range.1 hj
  rw [Nat.add_assoc s, Nat.add_assoc s, Nat.add_assoc t, Nat.add_assoc t, h _ (by omega),
    h _ (by omega)]

theorem hit_shift (hwin : 12 ≤ k) (h : ∀ j < k + 12, a (s + j) = b (t + j)) :
    Hit a s (s + k) ↔ Hit b t (t + k) := by
  rw [Hit, Hit, rollingHash_shift hwin h, Nat.add_le_add_iff_left, Nat.add_le_add_iff_left]

/-- A cut that does not come from the end of the packet is made wherever the same data stands. -/
theorem IsChunkEnd.shift {LA LB : ℕ} (hend : IsChunkEnd a LA s (s + k)) (hA : s + k + 12 < LA)
    (h : ∀ j < k + 12, a (s + j) = b (t + j)) (hB : t + k + 12 < LB) :
    IsChunkEnd b LB t (t + k) where
  window := Nat.add_le_add_left (Nat.le_of_add_le_add_left hend.window) t
  stop := by
    have hwin := Nat.le_of_add_le_add_left hend.window
    exact Or.inr ((hit_shift hwin h).1 (hend.stop.resolve_left (by omega)))
  least i hi hlt := by
    obtain ⟨m, rfl⟩ : ∃ m, i = t + m := ⟨i - t, by omega⟩
    have hno := (hend.least (s + m) (by omega) (by omega)).2
    refine ⟨by omega, fun hhit => hno ?_⟩
    exact (hit_shift (by omega) fun j hj => h j (by omega)).2 hhit

theorem slice_shift (h : ∀ j < k, a (s + j) = b (t + j)) :
    slice a s (s + k) = slice b t (t + k) := by
  refine List.ext_getElem (by simp) fun i hi hi' => ?_
  have hlt : i < k := by simpa using hi
  simp [slice, h i hlt]

theorem slice_shift_iff : slice a s (s + k) = slice b t (t + k) ↔
    ∀ j < k, a (s + j) = b (t + j) := by
  refine ⟨fun heq j hj => ?_, slice_shift⟩
  have hget := congrArg (fun l => l[j]?) heq
  simp only [getElem?_slice (show s + j < s + k by omega),
    getElem?_slice (show t + j < t + k by omega)] at hget
  exact Option.some_inj.1 hget

end Shift

end Cdc

namespace App

open Cdc Sha

/-! ### One call, and those after it -/

/-- One call of `runCDC` on equal data: the same chunk, and as many bytes further. -/
theorem runCDC_shift {a b : Buffer} {LA LB s t n : ℕ} (hcut : cutEnd a LA s = s + n)
    (hA : s + n + 12 < LA) (h : ∀ j < n + 12, a (s + j) = b (t + j)) (hB : t + n + 12 < LB) :
    runCDC b LB t = ((runCDC a LA s).1, t + n) := by
  have hend := isChunkEnd_cutEnd a LA s
  rw [hcut] at hend
  have hcut' := (isChunkEnd_cutEnd b LB t).unique (hend.shift hA h hB)
  have hslice := slice_shift (k := n) fun j hj => h j (by omega)
  rw [runCDC_eq, runCDC_eq, hcut, hcut', hslice]

/-- The position after `k` calls of `runCDC` from `s` on. -/
def cutAfter (b : Buffer) (length s : ℕ) : ℕ → ℕ
  | 0 => s
  | k + 1 => (runCDC b length (cutAfter b length s k)).2

/-- The chunk that the call after these returns. -/
def chunkAfter (b : Buffer) (length s k : ℕ) : List UInt8 :=
  (runCDC b length (cutAfter b length s k)).1

theorem cutAfter_le_succ (b : Buffer) (length s k : ℕ) :
    cutAfter b length s k + 12 ≤ cutAfter b length s (k + 1) :=
  window_le_cutEnd b length (cutAfter b length s k)

theorem le_cutAfter (b : Buffer) (length s k : ℕ) : s ≤ cutAfter b length s k := by
  induction k with
  | zero => exact le_rfl
  | succ k ih =>
      have := cutAfter_le_succ b length s k
      omega

/-- From a common cut on, equal data is cut at the same places. -/
theorem cutAfter_shift {a b : Buffer} {LA LB s t : ℕ} (k : ℕ) (hA : cutAfter a LA s k + 12 < LA)
    (hB : t + (cutAfter a LA s k - s) + 12 < LB)
    (h : ∀ j < cutAfter a LA s k - s + 12, a (s + j) = b (t + j)) :
    cutAfter b LB t k = t + (cutAfter a LA s k - s) ∧
      ∀ m < k, chunkAfter b LB t m = chunkAfter a LA s m := by
  induction k with
  | zero =>
      refine ⟨by simp [cutAfter], fun m hm => absurd hm (Nat.not_lt_zero m)⟩
  | succ k ih =>
      have hnext := cutAfter_le_succ a LA s k
      have hstart := le_cutAfter a LA s k
      obtain ⟨hcut, hchunks⟩ := ih (by omega) (by omega) fun j hj => h j (by omega)
      -- the next call, a common distance behind the common start
      have hcall : runCDC b LB (cutAfter b LB t k) = ((runCDC a LA (cutAfter a LA s k)).1,
          cutAfter b LB t k + (cutAfter a LA s (k + 1) - cutAfter a LA s k)) := by
        refine runCDC_shift ?_ (by omega) (fun j hj => ?_) (by omega)
        · show cutAfter a LA s (k + 1) = _
          omega
        · have hj' := h (cutAfter a LA s k - s + j) (by omega)
          rwa [show s + (cutAfter a LA s k - s + j) = cutAfter a LA s k + j by omega,
            show t + (cutAfter a LA s k - s + j) = cutAfter b LB t k + j by omega] at hj'
      refine ⟨?_, fun m hm => ?_⟩
      · rw [cutAfter, hcall]
        dsimp only
        omega
      · rcases Nat.lt_succ_iff_lt_or_eq.1 hm with hlt | rfl
        · exact hchunks m hlt
        · rw [chunkAfter, hcall, chunkAfter]

/-! ### Processed chunks are found -/

/-- The digest of every chunk of a run has a number. -/
theorem Reachable.lookup_chunk {lzw_hw_streams : List UInt8 → ℕ → List UInt8} {st : AppState}
    (h : Reachable lzw_hw_streams st) :
    ∀ chunk ∈ st.chunks, ∃ index, st.shaMap.lookup (SHA_new chunk) = some index := by
  induction h with
  | init =>
      intro chunk hchunk
      simp [AppState.init] at hchunk
  | enter _ _ _ _ ih => exact ih
  | @round st _ _ ih =>
      intro chunk hchunk
      obtain ⟨e, _, hround⟩ := appRound_eq lzw_hw_streams st
      rw [hround, frame_chunks, processChunk_chunks] at hchunk
      rw [hround, frame_shaMap]
      rcases List.mem_append.1 hchunk with hold | hnew
      · obtain ⟨index, hindex⟩ := ih chunk hold
        exact ⟨index, processChunk_lookup _ _ _ hindex⟩
      · rw [List.mem_singleton.1 hnew]
        exact processChunk_lookup_self _ _ _

/-- `dedup_hash` finds every chunk of a run, and the number it returns is not its -1. -/
theorem Reachable.dedup_hash_chunk {lzw_hw_streams : List UInt8 → ℕ → List UInt8} {st : AppState}
    (h : Reachable lzw_hw_streams st) {chunk : List UInt8} (hmem : chunk ∈ st.chunks) :
    ∃ index, st.shaMap.lookup (SHA_new chunk) = some index ∧
      dedup_hash (SHA_new chunk) st.shaMap st.curr = (index, st.shaMap) ∧
      (digests st.chunks < 2 ^ 31 → index ≠ -1) := by
  obtain ⟨index, hindex⟩ := h.lookup_chunk chunk hmem
  refine ⟨index, hindex, dedup_hash_of_some _ hindex, fun hlen => ?_⟩
  rw [(h.deduplicates hlen).lookup] at hindex
  split at hindex
  · next hfirst =>
      rw [← Option.some_inj.1 hindex]
      exact ofNat_ne_neg_one (lt_trans (List.idxOf_lt_length_of_mem hfirst) hlen)
  · exact absurd hindex (by simp)

/-! ### Resynchronisation -/

/-- Equal data is cut into the same chunks, at whatever positions it stands, as long as the cuts do
not come from the end of a packet: one call of `runCDC`, and all calls from a common cut on.  Once
the chunks of one of the two have been processed, `dedup_hash` finds those of the other. -/
theorem equal_data_resyncs (a b : Buffer) (LA LB s t : ℕ) :
    (∀ n, n = (runCDC a LA s).1.length - 1 → s + n + 12 < LA →
      slice a s (s + (n + 12)) = slice b t (t + (n + 12)) → t + n + 12 < LB →
      runCDC b LB t = ((runCDC a LA s).1, t + n)) ∧
    ∀ k, cutAfter a LA s k + 12 < LA → t + (cutAfter a LA s k - s) + 12 < LB →
      slice a s (s + (cutAfter a LA s k - s + 12)) = slice b t (t + (cutAfter a LA s k - s + 12)) →
      cutAfter b LB t k = t + (cutAfter a LA s k - s) ∧
      ∀ m < k, chunkAfter b LB t m = chunkAfter a LA s m ∧
        ∀ (lzw_hw_streams : List UInt8 → ℕ → List UInt8) (st : AppState),
          Reachable lzw_hw_streams st → chunkAfter a LA s m ∈ st.chunks →
          ∃ index, st.shaMap.lookup (SHA_new (chunkAfter b LB t m)) = some index ∧
            dedup_hash (SHA_new (chunkAfter b LB t m)) st.shaMap st.curr = (index, st.shaMap) ∧
            (digests st.chunks < 2 ^ 31 → index ≠ -1) := by
  constructor
  · intro n hn hA hslice hB
    refine runCDC_shift ?_ hA (slice_shift_iff.1 hslice) hB
    have hwindow := window_le_cutEnd a LA s
    rw [runCDC_eq] at hn
    simp only [List.length_append, length_slice, List.length_singleton] at hn
    omega
  · intro k hA hB hslice
    obtain ⟨hcut, hchunks⟩ := cutAfter_shift k hA hB (slice_shift_iff.1 hslice)
    refine ⟨hcut, fun m hm => ⟨hchunks m hm, fun lzw_hw_streams st hst hmem => ?_⟩⟩
    rw [hchunks m hm]
    exact hst.dedup_hash_chunk hmem

/-- The hash of the first window of the data below is 8193, so the first cut comes from the hash;
the same data five bytes later is cut at the same place. -/
theorem equal_data_resyncs_five :
    let data : Buffer := fun j => ([0, 0, 0, 0, 0, 0, 0, 33, 2, 0, 1, 1] : List UInt8).getD j 0
    let later : Buffer := fun j => if j < 5 then 7 else data (j - 5)
    runCDC later 40 5 = ((runCDC data 25 0).1, 17) := by
  intro data later
  have hcut : cutEnd data 25 0 = 12 :=
    cutEnd_of_hit (le_refl 12) (by decide) (fun i hi hlt => absurd hlt (by omega)) (by decide)
  refine (equal_data_resyncs data later 25 40 0 5).1 12 ?_ (by decide) (by decide) (by decide)
  rw [runCDC_eq, hcut]
  simp

end App

end DedupLzw
