/-
**The bytes behind a packet.**

A slot of the ring buffer is reused without being cleared, so behind a packet there are bytes of
older packets.  Every test of the cut loop reads bytes of the packet only: two buffers that agree
on the packet are cut at the same positions.  Only the unconditional copy of the first window of a
chunk reads further, and it does so exactly when the last chunk does not end where the packet ends
(`DedupLzw.App.ExactFit`).  Then the bytes behind the packet go into its last chunk, and with it
into the output.

Main definitions:

* `DedupLzw.App.NoLeak` — what `runApp` does depends on the bytes of the packet only.

Main results:

* `DedupLzw.Cdc.IsChunkEnd.congr` — equal packets are cut at equal positions;
* `DedupLzw.App.chunksFrom_fit`, `DedupLzw.App.chunksFrom_unfit` — the chunks of equal packets;
* `DedupLzw.App.noLeak_iff_fit` — **when nothing leaks**.
-/

import DedupLzw.ChunkCodec
import DedupLzw.Resync

set_option relaxedAutoImplicit false
set_option autoImplicit false

namespace DedupLzw

namespace Cdc

/-! ### The cut positions -/

/-- The test at position `i` reads a window further. -/
theorem Hit.congr {b b' : Buffer} {s i : ℕ} (hhit : Hit b s i) (hwin : s + 12 ≤ i)
    (h : ∀ j < i + 12, b' j = b j) : Hit b' s i := by
  obtain ⟨k, rfl⟩ : ∃ k, i = s + k := ⟨i - s, by omega⟩
  exact (hit_shift (by omega) fun j hj => h (s + j) (by omega)).2 hhit

/-- Equal packets are cut at equal positions. -/
theorem IsChunkEnd.congr {b b' : Buffer} {length s e : ℕ} (hend : IsChunkEnd b length s e)
    (h : ∀ j < length, b' j = b j) : IsChunkEnd b' length s e where
  window := hend.window
  stop := by
    rcases Nat.lt_or_ge (e + 12) length with hlt | hge
    · have hhit := hend.stop.resolve_left (by omega)
      exact Or.inr (hhit.congr hend.window fun j hj => h j (by omega))
    · exact Or.inl hge
  least i hi hlt := by
    obtain ⟨hroom, hno⟩ := hend.least i hi hlt
    exact ⟨hroom, fun hhit => hno (hhit.congr hi fun j hj => (h j (by omega)).symm)⟩

end Cdc

namespace App

open Cdc Sha Lzw Decoder

section Packet

variable {b : Buffer} {length : ℕ}

theorem cutEnd_congr {b' : Buffer} (h : ∀ j < length, b' j = b j) (s : ℕ) :
    cutEnd b' length s = cutEnd b length s :=
  (isChunkEnd_cutEnd b' length s).unique ((isChunkEnd_cutEnd b length s).congr h)

/-- The chunks of a packet that fits depend on its bytes only. -/
theorem chunksFrom_fit {s : ℕ} (hfit : endFrom b length s ≤ length) {b' : Buffer}
    (h : ∀ j < length, b' j = b j) : chunksFrom b' length s = chunksFrom b length s := by
  fun_induction endFrom b length s with
  | case1 s hlt ih =>
      have hle := (le_endFrom b length (cutEnd b length s)).1
      have hslice : slice b' s (cutEnd b length s) = slice b s (cutEnd b length s) :=
        slice_congr fun j _ hj => h j (by omega)
      rw [chunksFrom_of_lt hlt, chunksFrom_of_lt hlt, cutEnd_congr h, hslice, ih hfit]
  | case2 s hge =>
      have hge' := Nat.le_of_not_lt hge
      rw [chunksFrom_of_le hge', chunksFrom_of_le hge']

/-- The last chunk of a packet that does not fit is one window, and the packet ends inside it. -/
theorem chunksFrom_unfit {s : ℕ} (hs : s < length) (hfit : length < endFrom b length s) :
    ∃ cs t, t < length ∧ length < t + 12 ∧ ∀ b' : Buffer, (∀ j < length, b' j = b j) →
      chunksFrom b' length s = cs ++ [slice b' t (t + 12) ++ [0]] := by
  fun_induction endFrom b length s with
  | case1 s hlt ih =>
      rcases Nat.lt_or_ge (cutEnd b length s) length with hin | hout
      · obtain ⟨cs, t, ht, hlast, hchunks⟩ := ih hin hfit
        refine ⟨(slice b s (cutEnd b length s) ++ [0]) :: cs, t, ht, hlast, fun b' h => ?_⟩
        have hslice : slice b' s (cutEnd b length s) = slice b s (cutEnd b length s) :=
          slice_congr fun j _ hj => h j (by omega)
        rw [chunksFrom_of_lt hlt, cutEnd_congr h, hslice, hchunks b' h, List.cons_append]
      · -- the chunk runs past the end of the packet
        rw [endFrom_of_le hout] at hfit
        have hcut : cutEnd b length s = s + 12 := by
          by_contra hne
          have hwindow := window_le_cutEnd b length s
          have hbefore := (isChunkEnd_cutEnd b length s).least
            (cutEnd b length s - 1) (by omega) (by omega)
          omega
        refine ⟨[], s, hlt, by omega, fun b' h => ?_⟩
        rw [chunksFrom_of_lt hlt, cutEnd_congr h, hcut, chunksFrom_of_le (by omega)]
        rfl
  | case2 s hge => exact absurd hs hge

end Packet

/-! ### Compressed chunks that differ -/

/-- Short chunks that compress to the same bytes differ in zero bytes only. -/
theorem nonzero_eq_of_run_LZW {signed : Bool} {chunk chunk' xs : List UInt8}
    (hlen : chunk.length ≤ 7936) (hlen' : chunk'.length ≤ 7936) (hpos : 0 < chunk.length)
    (hpos' : 0 < chunk'.length) (hxs : run_LZW signed chunk chunk.length = some xs)
    (hxs' : run_LZW signed chunk' chunk'.length = some xs) : nonzero chunk = nonzero chunk' := by
  have hback : ∀ c : List UInt8, c.length ≤ 7936 → nonzero c ≠ [] →
      ComesBackAs signed c (nonzero c) := by
    intro c hc hne
    have hle := length_nonzero_le c
    obtain ⟨out, hout, _, hfits, _⟩ := chunk_codec signed (by omega) hne (by omega)
    rwa [hfits (fits13_of_length_le hne (by omega))] at hout
  have hsame : ∀ out, ComesBackAs signed chunk out → ComesBackAs signed chunk' out := by
    rintro out ⟨ys, hys, hdec⟩
    obtain rfl : ys = xs := Option.some_inj.1 (hys.symm.trans hxs)
    exact ⟨ys, hxs', hdec⟩
  have hsame' : ∀ out, ComesBackAs signed chunk' out → ComesBackAs signed chunk out := by
    rintro out ⟨ys, hys, hdec⟩
    obtain rfl : ys = xs := Option.some_inj.1 (hys.symm.trans hxs')
    exact ⟨ys, hxs, hdec⟩
  by_cases hne : nonzero chunk = []
  · by_contra hdiff
    rw [hne] at hdiff
    exact not_comesBackAs_zeros signed (by omega) hpos hne _
      (hsame' _ (hback chunk' hlen' (Ne.symm hdiff)))
  · by_cases hne' : nonzero chunk' = []
    · exact absurd (hsame _ (hback chunk hlen hne))
        (not_comesBackAs_zeros signed (by omega) hpos' hne' _)
    · exact (hsame _ (hback chunk hlen hne)).unique (hback chunk' hlen' hne')

/-! ### The last record -/

section Kernel

variable {lzw_hw_streams : List UInt8 → ℕ → List UInt8} {signed : Bool}

/-- The records of new short chunks that differ in a nonzero byte are different. -/
theorem nonzero_eq_of_record (hkernel : RunsLzw lzw_hw_streams signed) {chunk chunk' : List UInt8}
    (hlen : chunk.length ≤ 7936) (hlen' : chunk'.length ≤ 7936) (hpos : 0 < chunk.length)
    (hpos' : 0 < chunk'.length)
    (h : (recordOf lzw_hw_streams (.fresh chunk)).bytes
      = (recordOf lzw_hw_streams (.fresh chunk')).bytes) : nonzero chunk = nonzero chunk' := by
  have hrec : ∀ c : List UInt8, c.length ≤ 7936 → 0 < c.length →
      ∃ xs header, run_LZW signed c c.length = some xs ∧
        (recordOf lzw_hw_streams (.fresh c)).bytes = headerBytes header ++ xs := by
    intro c hc hc'
    obtain ⟨xs, hxs, hbound⟩ := run_LZW_length signed (by omega) hc'
    have hle := length_nonzero_le c
    obtain ⟨hcount, hbody⟩ := hkernel.tempbuf hxs (by omega)
    refine ⟨xs, BitVec.ofNat 32 xs.length <<< 1, hxs, ?_⟩
    simp only [recordOf, hcount, hbody, Record.bytes]
  obtain ⟨xs, header, hxs, hbytes⟩ := hrec chunk hlen hpos
  obtain ⟨xs', header', hxs', hbytes'⟩ := hrec chunk' hlen' hpos'
  rw [hbytes, hbytes'] at h
  obtain ⟨_, rfl⟩ := List.append_inj h rfl
  exact nonzero_eq_of_run_LZW hlen hlen' hpos hpos' hxs hxs'

theorem foldl_processChunk_lookup {cs : List (List UInt8)} {st : AppState} {digest : List UInt8}
    {x : BitVec 32} (h : st.shaMap.lookup digest = some x) :
    (cs.foldl (processChunk lzw_hw_streams) st).shaMap.lookup digest = some x := by
  induction cs generalizing st with
  | nil => exact h
  | cons c cs ih =>
      exact ih (processChunk_lookup _ _ _ h)

/-! ### When nothing leaks -/

variable (lzw_hw_streams)

/-- What `runApp` writes, and the state in which it leaves the deduplication, depend on the bytes of
the packet only. -/
def NoLeak (b : Buffer) (length : ℕ) : Prop :=
  ∀ (b' : Buffer) (st : AppState), (∀ j < length, b' j = b j) →
    (runApp lzw_hw_streams b' length st).file = (runApp lzw_hw_streams b length st).file ∧
    (runApp lzw_hw_streams b' length st).shaMap = (runApp lzw_hw_streams b length st).shaMap ∧
    (runApp lzw_hw_streams b' length st).curr = (runApp lzw_hw_streams b length st).curr

/-- Nothing leaks from a packet that fits. -/
theorem noLeak_of_fit {b : Buffer} {length : ℕ} (hfit : endFrom b length 0 ≤ length) :
    NoLeak lzw_hw_streams b length := by
  intro b' st h
  simp only [runApp_eq, frame_file, frame_shaMap, frame_curr, chunksFrom_fit hfit h, and_self]

variable {lzw_hw_streams}

/-- If nothing leaks, a state that knows the digests of two last windows writes the same record for
both. -/
theorem NoLeak.recordFor_eq {b : Buffer} {length : ℕ} (h : NoLeak lzw_hw_streams b length)
    {cs : List (List UInt8)} {last : Buffer → List UInt8}
    (hchunks : ∀ b' : Buffer, (∀ j < length, b' j = b j) →
      chunksFrom b' length 0 = cs ++ [last b'])
    {b' : Buffer} (hb' : ∀ j < length, b' j = b j) {st : AppState} {x x' : BitVec 32}
    (hx : st.shaMap.lookup (SHA_new (last b)) = some x)
    (hx' : st.shaMap.lookup (SHA_new (last b')) = some x') :
    (recordFor lzw_hw_streams (last b') x').bytes
      = (recordFor lzw_hw_streams (last b) x).bytes := by
  have hfile := (h b' st hb').1
  rw [runApp_eq, runApp_eq, hchunks b fun _ _ => rfl, hchunks b' hb', frame_file, frame_file,
    List.foldl_append, List.foldl_append] at hfile
  simp only [List.foldl_cons, List.foldl_nil] at hfile
  rw [processChunk_file, processChunk_file, dedup_hash_of_some _ (foldl_processChunk_lookup hx),
    dedup_hash_of_some _ (foldl_processChunk_lookup hx')] at hfile
  exact List.append_cancel_left hfile

/-- The last window can be changed behind the packet, so that its nonzero bytes are others. -/
theorem exists_other_window (b : Buffer) {length t : ℕ} (ht : t < length)
    (hlast : length < t + 12) :
    ∃ b' : Buffer, (∀ j < length, b' j = b j) ∧
      nonzero (slice b t (t + 12) ++ [0]) ≠ nonzero (slice b' t (t + 12) ++ [0]) := by
  -- a byte that is zero where the other one is not
  refine ⟨Function.update b length (if b length = 0 then 1 else 0), fun j hj => ?_, ?_⟩
  · rw [Function.update_of_ne (by omega)]
  · intro heq
    have hsplit : ∀ b' : Buffer, slice b' t (t + 12)
        = slice b' t length ++ (b' length :: slice b' (length + 1) (t + 12)) := by
      intro b'
      have hone := slice_succ b' (le_refl length)
      rw [slice_self, List.nil_append] at hone
      rw [← slice_append b' ht.le hlast.le, ← slice_append b' (Nat.le_succ length) (by omega), hone]
      rfl
    have hleft : slice (Function.update b length (if b length = 0 then 1 else 0)) t length
        = slice b t length :=
      slice_congr fun j _ hj => Function.update_of_ne (by omega) _ _
    have hright : slice (Function.update b length (if b length = 0 then 1 else 0)) (length + 1)
        (t + 12) = slice b (length + 1) (t + 12) :=
      slice_congr fun j hj _ => Function.update_of_ne (by omega) _ _
    have hcount := congrArg List.length heq
    rw [hsplit b, hsplit, hleft, hright, Function.update_self] at hcount
    by_cases hzero : b length = 0
    · simp [nonzero, hzero] at hcount
    · simp [nonzero, hzero] at hcount

/-- Something leaks from a packet that does not fit. -/
theorem not_noLeak_of_unfit (hkernel : RunsLzw lzw_hw_streams signed) {b : Buffer} {length : ℕ}
    (hpos : 1 ≤ length) (hfit : length < endFrom b length 0) :
    ¬ NoLeak lzw_hw_streams b length := by
  intro hleak
  obtain ⟨cs, t, ht, hlast, hchunks⟩ := chunksFrom_unfit hpos hfit
  obtain ⟨b', hb', hdiff⟩ := exists_other_window b ht hlast
  let last (b : Buffer) : List UInt8 := slice b t (t + 12) ++ [0]
  have hrecord : ∀ (st : AppState) (x x' : BitVec 32),
      st.shaMap.lookup (SHA_new (last b)) = some x →
      st.shaMap.lookup (SHA_new (last b')) = some x' →
      (recordFor lzw_hw_streams (last b') x').bytes
        = (recordFor lzw_hw_streams (last b) x).bytes := by
    intro st x x' hx hx'
    have hlasts : ∀ b' : Buffer, (∀ j < length, b' j = b j) →
        chunksFrom b' length 0 = cs ++ [last b'] := hchunks
    exact hleak.recordFor_eq hlasts hb' hx hx'
  by_cases hdigest : SHA_new (last b') = SHA_new (last b)
  · -- a state in which both windows are compressed
    have hsame := hrecord { AppState.init with shaMap := [(SHA_new (last b), -1)] } (-1) (-1)
      (by simp) (by simp [hdigest])
    rw [recordFor, if_pos rfl, recordFor, if_pos rfl] at hsame
    refine hdiff (nonzero_eq_of_record hkernel ?_ ?_ ?_ ?_ hsame).symm <;> simp [last]
  · -- a state in which the windows have different numbers
    have hne : (SHA_new (last b') == SHA_new (last b)) = false := by simpa using hdigest
    have hsame := hrecord
      { AppState.init with shaMap := [(SHA_new (last b), 0), (SHA_new (last b'), 1)] } 0 1
      (by simp) (by simp [List.lookup, hne])
    rw [recordFor, if_neg (by decide), recordFor, if_neg (by decide)] at hsame
    exact absurd hsame (by decide)

/-- What `runApp` does depends on the bytes of the packet only exactly when the chunks end where the
packet ends. -/
theorem noLeak_iff_fit (hkernel : RunsLzw lzw_hw_streams signed) (b : Buffer) {length : ℕ}
    (hpos : 1 ≤ length) : NoLeak lzw_hw_streams b length ↔ ExactFit b length := by
  rw [← endFrom_eq_iff hpos]
  constructor
  · intro hleak
    by_contra hne
    have hle := (le_endFrom b length 0).2
    exact not_noLeak_of_unfit hkernel hpos (by omega) hleak
  · intro hend
    exact noLeak_of_fit _ hend.le

end Kernel

/-- Nothing leaks from a packet of two windows. -/
theorem noLeak_windows : NoLeak (runLzwKernel false) (fun _ => 7) 24 :=
  (noLeak_iff_fit (runsLzw_runLzwKernel false) (fun _ => 7) (by decide)).2 (exactFit_windows _)

/-- From the empty state, a packet of one byte leaks the eleven bytes behind it. -/
theorem short_packet_leaks :
    ∃ b' : Buffer, (∀ j < 1, b' j = (fun _ => 7) j) ∧
      (runApp (runLzwKernel false) b' 1 AppState.init).file
        ≠ (runApp (runLzwKernel false) (fun _ => 7) 1 AppState.init).file := by
  have hchunks : ∀ b : Buffer, chunksFrom b 1 0 = [slice b 0 12 ++ [0]] := by
    intro b
    rw [chunksFrom_of_lt (by decide), cutEnd_of_short (by decide), chunksFrom_of_le (by decide)]
  have hfile : ∀ b : Buffer, (runApp (runLzwKernel false) b 1 AppState.init).file
      = (recordOf (runLzwKernel false) (.fresh (slice b 0 12 ++ [0]))).bytes := by
    intro b
    rw [runApp_eq, frame_file, hchunks, List.foldl_cons, List.foldl_nil, processChunk_file,
      dedup_hash_of_none _ rfl]
    rfl
  refine ⟨fun j => if j = 0 then 7 else 0, by decide, fun heq => ?_⟩
  rw [hfile, hfile] at heq
  have hsame := nonzero_eq_of_record (runsLzw_runLzwKernel false) (by simp) (by simp) (by simp)
    (by simp) heq
  exact absurd hsame (by decide)

end App

end DedupLzw
