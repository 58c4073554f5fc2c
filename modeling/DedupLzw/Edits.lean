/-
**A packet that comes back with an edit.**

When some bytes of a packet are replaced, inserted or removed, the chunks before the edit stay as
they are, and behind it the two packets are cut independently, until both are cut in front of the
same bytes.  From there on they have the same chunks again, up to the last one: the distance from
the end of the packet, which stops the cut loop, is the same as well.

So for an edited packet only the chunks between can be stored again.  For each of the others the
output has four bytes, and for those between at most twice as many bytes as stand between the two
cuts.  That both packets are cut in front of the same bytes behind the edit is an assumption here,
except at their ends: the hash of a position depends on where its chunk begins.

Main definitions:

* `DedupLzw.App.Edited` — a packet with an edit between two of its cuts.

Main results:

* `DedupLzw.App.chunksFrom_cutAfter` — the chunks of a packet, and the calls of `runCDC`;
* `DedupLzw.App.chunksFrom_shift` — the chunks behind a common cut;
* `DedupLzw.App.Edited.chunksFrom_eq` — the chunks of an edited packet;
* `DedupLzw.App.edited_packet` — **what an edit costs**.
-/

import DedupLzw.Accounting

set_option relaxedAutoImplicit false
set_option autoImplicit false

namespace DedupLzw

namespace Cdc

/-- A cut is made wherever the same data stands up to the end of the packet. -/
theorem IsChunkEnd.shift_end {a b : Buffer} {LA LB s t k : ℕ} (hend : IsChunkEnd a LA s (s + k))
    (hlen : LA + t = LB + s) (h : ∀ j, s + j < LA → a (s + j) = b (t + j)) :
    IsChunkEnd b LB t (t + k) where
  window := Nat.add_le_add_left (Nat.le_of_add_le_add_left hend.window) t
  stop := by
    have hwin := Nat.le_of_add_le_add_left hend.window
    rcases Nat.lt_or_ge (s + k + 12) LA with hlt | hge
    · have hhit := hend.stop.resolve_left (by omega)
      exact Or.inr ((hit_shift hwin fun j hj => h j (by omega)).1 hhit)
    · exact Or.inl (by omega)
  least i hi hlt := by
    obtain ⟨m, rfl⟩ : ∃ m, i = t + m := ⟨i - t, by omega⟩
    obtain ⟨hroom, hno⟩ := hend.least (s + m) (by omega) (by omega)
    refine ⟨by omega, fun hhit => hno ?_⟩
    exact (hit_shift (by omega) fun j hj => h j (by omega)).2 hhit

end Cdc

namespace App

open Cdc Sha FirstSeen

/-! ### The calls of `runCDC` -/

section Calls

variable (b : Buffer) (length s k : ℕ)

/-- The chunks of a packet are those of the calls up to a cut, and those from the cut on. -/
theorem chunksFrom_cutAfter (h : cutAfter b length s k ≤ length) :
    chunksFrom b length s = (List.range k).map (chunkAfter b length s)
        ++ chunksFrom b length (cutAfter b length s k) ∧
      endFrom b length s = endFrom b length (cutAfter b length s k) := by
  induction k with
  | zero => exact ⟨rfl, rfl⟩
  | succ k ih =>
      have hnext := cutAfter_le_succ b length s k
      have hlt : cutAfter b length s k < length := by omega
      obtain ⟨hchunks, hend⟩ := ih hlt.le
      have hchunk : slice b (cutAfter b length s k) (cutEnd b length (cutAfter b length s k)) ++ [0]
          = chunkAfter b length s k := by rw [chunkAfter, runCDC_eq]
      rw [chunksFrom_of_lt hlt, hchunk] at hchunks
      rw [endFrom_of_lt hlt] at hend
      refine ⟨?_, hend⟩
      rw [hchunks, List.range_succ, List.map_append, List.map_singleton, List.append_assoc]
      rfl

/-- Their payloads make up the bytes up to the cut. -/
theorem sum_chunkAfter :
    s + (((List.range k).map (chunkAfter b length s)).map fun c => c.length - 1).sum
      = cutAfter b length s k := by
  induction k with
  | zero => rfl
  | succ k ih =>
      have hwindow := window_le_cutEnd b length (cutAfter b length s k)
      have hchunk : (chunkAfter b length s k).length - 1
          = cutEnd b length (cutAfter b length s k) - cutAfter b length s k := by
        rw [chunkAfter, runCDC_eq, List.length_append, length_slice, List.length_singleton,
          Nat.add_sub_cancel]
      have hnext : cutAfter b length s (k + 1) = cutEnd b length (cutAfter b length s k) := rfl
      rw [List.range_succ, List.map_append, List.map_append, List.sum_append, List.map_singleton,
        List.map_singleton, List.sum_singleton, hchunk, hnext]
      omega

end Calls

/-- Behind a common cut, equal data up to the ends of two packets has the same chunks. -/
theorem chunksFrom_shift {a b : Buffer} {LA LB s t : ℕ} (hlen : LA + t = LB + s)
    (h : ∀ j, s + j < LA → a (s + j) = b (t + j)) (hfit : endFrom a LA s ≤ LA) :
    chunksFrom b LB t = chunksFrom a LA s ∧ endFrom b LB t + s = endFrom a LA s + t := by
  fun_induction endFrom a LA s generalizing t with
  | case1 s hlt ih =>
      have hwindow := window_le_cutEnd a LA s
      have hle := (le_endFrom a LA (cutEnd a LA s)).1
      obtain ⟨k, hk⟩ : ∃ k, cutEnd a LA s = s + k := ⟨cutEnd a LA s - s, by omega⟩
      have hend := isChunkEnd_cutEnd a LA s
      rw [hk] at hend ih hle hfit
      have hcut := (isChunkEnd_cutEnd b LB t).unique (hend.shift_end hlen h)
      have hslice := slice_shift (k := k) fun j hj => h j (by omega)
      -- the next chunk begins as far behind the common cut in either packet
      obtain ⟨hchunks, hends⟩ := ih (t := t + k) (by omega)
        (fun j hj => by rw [Nat.add_assoc, Nat.add_assoc, h _ (by omega)]) hfit
      refine ⟨?_, ?_⟩
      · rw [chunksFrom_of_lt (by omega : t < LB), chunksFrom_of_lt hlt, hcut, hk, hslice, hchunks]
      · rw [endFrom_of_lt (by omega : t < LB), hcut, hk]
        omega
  | case2 s hge =>
      rw [chunksFrom_of_le (by omega : LB ≤ t), chunksFrom_of_le (by omega : LA ≤ s),
        endFrom_of_le (by omega : LB ≤ t)]
      exact ⟨rfl, Nat.add_comm t s⟩

/-! ### An edit -/

/-- The second packet is the first one with an edit: the first `k` cuts come from common bytes; of
the first packet, `m` calls of `runCDC` later the rest is the same as that of the second one `n`
calls later. -/
structure Edited (a : Buffer) (LA : ℕ) (b : Buffer) (LB k m n : ℕ) : Prop where
  before : ∀ j < cutAfter a LA 0 k + 12, a j = b j
  room : cutAfter a LA 0 k + 12 < LA ∧ cutAfter a LA 0 k + 12 < LB
  inside : cutAfter a LA (cutAfter a LA 0 k) m ≤ LA
  rest : LA + cutAfter b LB (cutAfter a LA 0 k) n = LB + cutAfter a LA (cutAfter a LA 0 k) m
  behind : ∀ j, cutAfter a LA (cutAfter a LA 0 k) m + j < LA →
    a (cutAfter a LA (cutAfter a LA 0 k) m + j) = b (cutAfter b LB (cutAfter a LA 0 k) n + j)

section Edit

variable {a b : Buffer} {LA LB k m n : ℕ}

/-- An edited packet has the chunks of the first one before the edit and behind it. -/
theorem Edited.chunksFrom_eq (h : Edited a LA b LB k m n) (hfit : ExactFit a LA) :
    chunksFrom a LA 0 = (List.range k).map (chunkAfter a LA 0) ++
        ((List.range m).map (chunkAfter a LA (cutAfter a LA 0 k)) ++
          chunksFrom a LA (cutAfter a LA (cutAfter a LA 0 k) m)) ∧
      chunksFrom b LB 0 = (List.range k).map (chunkAfter a LA 0) ++
        ((List.range n).map (chunkAfter b LB (cutAfter a LA 0 k)) ++
          chunksFrom a LA (cutAfter a LA (cutAfter a LA 0 k) m)) ∧
      ExactFit b LB := by
  obtain ⟨hroom, hroom'⟩ := h.room
  have hrest := h.rest
  have hinside := h.inside
  -- before the edit
  obtain ⟨hcut, hsame⟩ : cutAfter b LB 0 k = 0 + (cutAfter a LA 0 k - 0) ∧
      ∀ i < k, chunkAfter b LB 0 i = chunkAfter a LA 0 i :=
    cutAfter_shift k (by omega) (by omega) fun j hj => by
      rw [Nat.zero_add]
      exact h.before j (by omega)
  have hcut' : cutAfter b LB 0 k = cutAfter a LA 0 k := by omega
  obtain ⟨hpre, hpreEnd⟩ := chunksFrom_cutAfter a LA 0 k (by omega)
  obtain ⟨hpre', hpreEnd'⟩ := chunksFrom_cutAfter b LB 0 k (by omega)
  have hmap : (List.range k).map (chunkAfter b LB 0) = (List.range k).map (chunkAfter a LA 0) :=
    List.map_congr_left fun i hi => hsame i (List.mem_range.1 hi)
  rw [hcut', hmap] at hpre'
  rw [hcut'] at hpreEnd'
  -- the calls between the two cuts, and the chunks behind them
  obtain ⟨hmid, hmidEnd⟩ := chunksFrom_cutAfter a LA (cutAfter a LA 0 k) m hinside
  obtain ⟨hmid', hmidEnd'⟩ := chunksFrom_cutAfter b LB (cutAfter a LA 0 k) n (by omega)
  have hend : endFrom a LA 0 = LA := (endFrom_eq_iff (by omega)).2 hfit
  obtain ⟨hchunks, hends⟩ := chunksFrom_shift hrest h.behind (by omega)
  refine ⟨?_, ?_, (endFrom_eq_iff (by omega)).1 (by omega)⟩
  · rw [hpre, hmid]
  · rw [hpre', hmid', hchunks]

end Edit

/-! ### What it costs -/

section Kernel

variable {lzw_hw_streams : List UInt8 → ℕ → List UInt8} {signed : Bool}

/-- The record of a chunk, after whatever digests. -/
theorem recordOf_size (hkernel : RunsLzw lzw_hw_streams signed) {chunk : List UInt8}
    (h : ChunkShape chunk) (seen : List (List UInt8)) :
    RecordSize signed chunk (recordOf lzw_hw_streams (entry SHA_new seen chunk)) := by
  rw [entry]
  split
  · obtain ⟨st, hfin, hsent, _⟩ := recordFor_size hkernel h 0
    exact ⟨st, hfin, hsent, rfl⟩
  · have hsize := recordFor_size hkernel h (-1)
    rwa [recordFor, if_pos rfl] at hsize

/-- The records of a sequence of chunks, after whatever digests. -/
theorem length_entriesAfter_le (hkernel : RunsLzw lzw_hw_streams signed) {cs : List (List UInt8)}
    (hcs : ∀ c ∈ cs, ChunkShape c) (seen : List (List UInt8)) :
    (((entriesAfter SHA_new seen cs).map (recordOf lzw_hw_streams)).flatMap Record.bytes).length
      ≤ 2 * (cs.map fun c => c.length - 1).sum := by
  have hsizes : List.Forall₂ (RecordSize signed) cs
      ((entriesAfter SHA_new seen cs).map (recordOf lzw_hw_streams)) := by
    induction cs generalizing seen with
    | nil => exact List.Forall₂.nil
    | cons c cs ih =>
        rw [entriesAfter, List.map_cons]
        exact List.Forall₂.cons (recordOf_size hkernel (hcs c List.mem_cons_self) seen)
          (ih (fun c' hc' => hcs c' (List.mem_cons_of_mem _ hc')) _)
  exact length_records_le hsizes fun c hc => (hcs c hc).1

section Between

variable {st st' : AppState} {cs ds es : List (List UInt8)}

/-- Only the chunks between known ones can have new digests. -/
theorem digests_append_between {chunks : List (List UInt8)}
    (hbefore : ∀ c ∈ cs, SHA_new c ∈ chunks.map SHA_new)
    (hbehind : ∀ c ∈ es, SHA_new c ∈ chunks.map SHA_new) :
    digests (chunks ++ (cs ++ (ds ++ es))) ≤ digests chunks + ds.length := by
  have hle := length_firsts_append_between (ds.map SHA_new)
    (List.forall_mem_map.2 hbefore) (List.forall_mem_map.2 hbehind)
  rwa [← List.map_append, ← List.map_append, ← List.map_append, List.length_map] at hle

/-- The records of some chunks between known ones, and their lengths. -/
theorem Deduplicates.append_between (h : Deduplicates lzw_hw_streams st)
    (h' : Deduplicates lzw_hw_streams st') (hkernel : RunsLzw lzw_hw_streams signed)
    (hchunks : st'.chunks = st.chunks ++ (cs ++ (ds ++ es)))
    (hbefore : ∀ c ∈ cs, SHA_new c ∈ st.chunks.map SHA_new)
    (hbehind : ∀ c ∈ es, SHA_new c ∈ st.chunks.map SHA_new) (hds : ∀ c ∈ ds, ChunkShape c)
    (hlen : digests st.chunks < 2 ^ 31) :
    ∃ (before behind : List (BitVec 32)) (between : List Record),
      st'.records = st.records ++ (before.map .duplicate ++ (between ++ behind.map .duplicate)) ∧
      before.length = cs.length ∧ between.length = ds.length ∧ behind.length = es.length ∧
      (∀ index ∈ before ++ behind, index.toNat < st.curr.toNat) ∧
      st'.file.length ≤ st.file.length + 4 * (before.length + behind.length)
        + 2 * (ds.map fun c => c.length - 1).sum := by
  obtain ⟨num, hnum⟩ : ∃ num : List UInt8 → BitVec 32, num = fun c =>
      BitVec.ofNat 32 ((firsts (st.chunks.map SHA_new)).idxOf (SHA_new c)) := ⟨_, rfl⟩
  obtain ⟨between, hbetween⟩ : ∃ rs, rs = (entriesAfter SHA_new (firsts (st.chunks.map SHA_new))
      ds).map (recordOf lzw_hw_streams) := ⟨_, rfl⟩
  have hrecords : st'.records = st.records ++
      ((cs.map num).map .duplicate ++ (between ++ (es.map num).map .duplicate)) := by
    rw [h'.records, h.records, hchunks, entries_append_between SHA_new hbefore hbehind, hnum,
      hbetween]
    simp only [List.map_append, List.map_map]
    rfl
  refine ⟨cs.map num, es.map num, between, hrecords, List.length_map _, ?_, List.length_map _,
    ?_, ?_⟩
  · rw [hbetween, List.length_map, length_entriesAfter]
  · intro index hindex
    rw [← List.map_append] at hindex
    obtain ⟨c, hc, rfl⟩ := List.mem_map.1 hindex
    have hmem : SHA_new c ∈ st.chunks.map SHA_new :=
      (List.mem_append.1 hc).elim (hbefore c) (hbehind c)
    rw [hnum, h.toNat_curr hlen, toNat_idxOf hlen hmem]
    exact List.idxOf_lt_length_of_mem (mem_firsts.2 hmem)
  · have hle := length_entriesAfter_le hkernel hds (firsts (st.chunks.map SHA_new))
    rw [← hbetween] at hle
    rw [h'.file, h.file, hrecords, List.flatMap_append, List.flatMap_append, List.flatMap_append,
      List.length_append, List.length_append, List.length_append, length_duplicates,
      length_duplicates]
    omega

end Between

variable {packets : List (Buffer × ℕ)} {a b : Buffer} {LA LB k m n : ℕ}

/-- After a packet whose chunks end where it ends, an edit of it adds to the output: the numbers of
the chunks before the edit and behind it, and in between one record for each call of `runCDC`.  Only
these can be new, and they take at most twice as many bytes as stand between the two cuts. -/
theorem edited_packet (hkernel : RunsLzw lzw_hw_streams signed) (hmem : (a, LA) ∈ packets)
    (hfit : ExactFit a LA) (hedit : Edited a LA b LB k m n)
    (hlen : digests (runPackets lzw_hw_streams packets).chunks + n < 2 ^ 31) :
    let st := runPackets lzw_hw_streams packets
    let st' := runPackets lzw_hw_streams (packets ++ [(b, LB)])
    let p := cutAfter a LA 0 k
    ExactFit b LB ∧ st'.curr.toNat ≤ st.curr.toNat + n ∧
      ∃ (before behind : List (BitVec 32)) (between : List Record),
        st'.records = st.records ++
          (before.map .duplicate ++ (between ++ behind.map .duplicate)) ∧
        before.length = k ∧ between.length = n ∧
        behind.length = (chunksFrom a LA (cutAfter a LA p m)).length ∧
        (∀ index ∈ before ++ behind, index.toNat < st.curr.toNat) ∧
        st'.file.length ≤ st.file.length + 4 * (before.length + behind.length)
          + 2 * (cutAfter b LB p n - p) := by
  intro st st' p
  have hp : p = cutAfter a LA 0 k := rfl
  have hlen : digests st.chunks + n < 2 ^ 31 := hlen
  obtain ⟨hold, hnew, hfit'⟩ := hedit.chunksFrom_eq hfit
  rw [← hp] at hold hnew
  have hchunks : st'.chunks = st.chunks ++ chunksFrom b LB 0 := by
    show (runPackets lzw_hw_streams (packets ++ [(b, LB)])).chunks = _
    rw [runPackets_concat, runApp_chunks]
  have hshape : ∀ c ∈ (List.range n).map (chunkAfter b LB p), ChunkShape c := fun c hc =>
    chunkShape_of_mem c (hnew ▸ List.mem_append_right _ (List.mem_append_left _ hc))
  -- the chunks before the edit and behind it have been processed
  have hseen : ∀ c ∈ chunksFrom a LA 0, SHA_new c ∈ st.chunks.map SHA_new := by
    intro c hc
    refine List.mem_map_of_mem ?_
    rw [runPackets_chunks]
    exact List.mem_flatMap.2 ⟨(a, LA), hmem, hc⟩
  have hbefore : ∀ c ∈ (List.range k).map (chunkAfter a LA 0), SHA_new c ∈ st.chunks.map SHA_new :=
    fun c hc => hseen c (hold ▸ List.mem_append_left _ hc)
  have hbehind : ∀ c ∈ chunksFrom a LA (cutAfter a LA p m), SHA_new c ∈ st.chunks.map SHA_new :=
    fun c hc => hseen c (hold ▸ List.mem_append_right _ (List.mem_append_right _ hc))
  rw [hnew] at hchunks
  have hdigests : digests st'.chunks ≤ digests st.chunks + n := by
    rw [hchunks]
    refine (digests_append_between hbefore hbehind).trans ?_
    rw [List.length_map, List.length_range]
  have hlen₀ : digests st.chunks < 2 ^ 31 := by omega
  have hded : Deduplicates lzw_hw_streams st :=
    (reachable_runPackets packets).1.deduplicates hlen₀
  have hlen' : digests st'.chunks < 2 ^ 31 := by omega
  have hded' : Deduplicates lzw_hw_streams st' :=
    (reachable_runPackets (packets ++ [(b, LB)])).1.deduplicates hlen'
  obtain ⟨before, behind, between, hrecords, hk, hn, hm, hindices, hfile⟩ :=
    hded.append_between hded' hkernel hchunks hbefore hbehind hshape hlen₀
  have hsum := sum_chunkAfter b LB p n
  rw [List.length_map, List.length_range] at hk hn
  refine ⟨hfit', ?_, before, behind, between, hrecords, hk, hn, hm, hindices, by omega⟩
  rw [hded.toNat_curr hlen₀, hded'.toNat_curr hlen']
  exact hdigests

end Kernel

/-- Twice the window whose hash is 8193, and two other windows. -/
def fourWindows : Buffer := fun j =>
  ([0, 0, 0, 0, 0, 0, 0, 33, 2, 0, 1, 1, 0, 0, 0, 0, 0, 0, 0, 33, 2, 0, 1, 1] ++
    (List.replicate 12 8 ++ List.replicate 12 7) : List UInt8).getD j 0

/-- The same without the third window. -/
def threeWindows : Buffer := fun j =>
  ([0, 0, 0, 0, 0, 0, 0, 33, 2, 0, 1, 1, 0, 0, 0, 0, 0, 0, 0, 33, 2, 0, 1, 1] ++
    List.replicate 12 7 : List UInt8).getD j 0

theorem cuts_fourWindows : cutEnd fourWindows 48 0 = 12 ∧ cutEnd fourWindows 48 12 = 24 ∧
    cutEnd fourWindows 48 24 = 36 ∧ cutEnd fourWindows 48 36 = 48 := by
  refine ⟨?_, ?_, cutEnd_of_short (by decide), cutEnd_of_short (by decide)⟩
  · exact cutEnd_of_hit (by decide) (by decide) (fun i hi hlt => absurd hlt (by omega)) (by decide)
  · exact cutEnd_of_hit (by decide) (by decide) (fun i hi hlt => absurd hlt (by omega)) (by decide)

theorem exactFit_fourWindows : ExactFit fourWindows 48 := by
  obtain ⟨h₁, h₂, h₃, h₄⟩ := cuts_fourWindows
  refine (endFrom_eq_iff (by decide)).1 ?_
  rw [endFrom_of_lt (by decide), h₁, endFrom_of_lt (by decide), h₂, endFrom_of_lt (by decide), h₃,
    endFrom_of_lt (by decide), h₄, endFrom_of_le (by decide)]

theorem edited_fourWindows : Edited fourWindows 48 threeWindows 36 1 2 1 := by
  obtain ⟨h₁, h₂, h₃, _⟩ := cuts_fourWindows
  have hp : cutAfter fourWindows 48 0 1 = 12 := h₁
  have hs : cutAfter fourWindows 48 12 2 = 36 := by
    show cutEnd fourWindows 48 (cutEnd fourWindows 48 12) = 36
    rw [h₂, h₃]
  have ht : cutAfter threeWindows 36 12 1 = 24 := cutEnd_of_short (by decide)
  have hsame : ∀ j < 12, fourWindows (36 + j) = threeWindows (24 + j) := by decide
  refine ⟨?_, ?_, ?_, ?_, fun j hj => ?_⟩
  · rw [hp]
    decide
  · rw [hp]
    decide
  · rw [hp, hs]
    decide
  · rw [hp, hs, ht]
  · rw [hp, hs] at hj
    rw [hp, hs, ht]
    exact hsame j (by omega)

/-- A packet of four windows, and the same packet without the third one. -/
theorem edited_packet_windows :
    let st := runPackets (runLzwKernel false) [(fourWindows, 48)]
    let st' := runPackets (runLzwKernel false) ([(fourWindows, 48)] ++ [(threeWindows, 36)])
    let p := cutAfter fourWindows 48 0 1
    ExactFit threeWindows 36 ∧ st'.curr.toNat ≤ st.curr.toNat + 1 ∧
      ∃ (before behind : List (BitVec 32)) (between : List Record),
        st'.records = st.records ++
          (before.map .duplicate ++ (between ++ behind.map .duplicate)) ∧
        before.length = 1 ∧ between.length = 1 ∧
        behind.length = (chunksFrom fourWindows 48 (cutAfter fourWindows 48 p 2)).length ∧
        (∀ index ∈ before ++ behind, index.toNat < st.curr.toNat) ∧
        st'.file.length ≤ st.file.length + 4 * (before.length + behind.length)
          + 2 * (cutAfter threeWindows 36 p 1 - p) :=
  edited_packet (runsLzw_runLzwKernel false) List.mem_cons_self exactFit_fourWindows
    edited_fourWindows (by
      have hle := digests_le_payloadBytes (runLzwKernel false) [(fourWindows, 48)]
      rw [payloadBytes, List.flatMap_singleton, length_slice] at hle
      omega)

end App

end DedupLzw
