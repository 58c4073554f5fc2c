/-
**Record framing.**

The decoder finds the end of a compressed chunk by decompressing it: it has no other use for the
count in the header than the bound of that loop.  The two sides stay synchronised over a whole file
as long as every chunk that was compressed decompresses at all.  What it decompresses to does not
matter here, so codes that do not fit into 13 bits do no harm; but a chunk of zero bytes compresses
to nothing, and on the count 0 the decoder never comes back.

Main definitions:

* `DedupLzw.App.Readable` — an entry of the deduplicated stream whose record can be read;
* `DedupLzw.App.expectedEvents` — the iterations of the decoder that belong to a list of records;
* `DedupLzw.App.Synced` — the decoder works through the file record by record.

Main results:

* `DedupLzw.App.exits_records` — the decoder's main loop over the records of a stream;
* `DedupLzw.App.Reachable.exits_file` — the main loop over the file of a run;
* `DedupLzw.App.Reachable.not_exits_of_zeros` — it does not get past a chunk of zero bytes;
* `DedupLzw.App.reachable_synced` — **when the two sides stay synchronised**.
-/

import DedupLzw.ChunkCodec
import DedupLzw.Numbering

set_option relaxedAutoImplicit false
set_option autoImplicit false

namespace DedupLzw

namespace App

open FuelLoop Cdc Sha Lzw Decoder FirstSeen

/-! ### One record -/

/-- The iteration of the decoder that reads a record, with the number of bytes after it. -/
def Record.event (left : ℕ) : Record → Event
  | .compressed count _ => .chunk count.toNat left
  | .duplicate index => .reference index.toNat left

/-- The main loop reads a compressed chunk. -/
theorem exits_compressed {xs out rest : List UInt8} (hlen : xs.length < 2 ^ 31)
    (hdec : Decompresses xs out) {st : MainState}
    (hin : st.Input = ⟨(Record.compressed (BitVec.ofNat 32 xs.length) xs).bytes ++ rest, false⟩) :
    ∃ st', Exits (fun fuel => mainBody fuel st) (.again st') ∧ st'.Input = ⟨rest, false⟩ ∧
      st'.Chunks = st.Chunks ++ [out] ∧ st'.Output = st.Output ++ out ∧
      st'.events = st.events ++ [.chunk (BitVec.ofNat 32 xs.length).toNat rest.length] := by
  have hval := toNat_ofNat_of_lt hlen
  have hsmall := hlen
  rw [← hval] at hsmall
  obtain ⟨hbit, hsize⟩ := compressed_header hsmall
  obtain ⟨r', hr', hexit⟩ := hdec rest ⟨⟨xs ++ rest, false⟩, 0, st.Byte⟩ rfl
  have hhead : st.Input.readHeader
      = ((BitVec.ofNat 32 xs.length) <<< 1, ⟨xs ++ rest, false⟩) := by
    rw [hin, Record.bytes, List.append_assoc, readHeader_headerBytes]
  refine ⟨⟨⟨rest, false⟩, r'.Byte, _, _, _⟩, ?_, rfl, rfl, rfl, rfl⟩
  simp only [mainBody, hhead, hbit, hsize, hval, if_true, Bool.false_eq_true, if_false]
  refine hexit.andThen ?_
  rw [hr']
  exact exits_const _

/-- The main loop reads the number of an earlier chunk. -/
theorem exits_duplicate {index : BitVec 32} {rest : List UInt8} (hlt : index.toNat < 2 ^ 31)
    {st : MainState} (hin : st.Input = ⟨(Record.duplicate index).bytes ++ rest, false⟩) :
    ∃ st', Exits (fun fuel => mainBody fuel st) (.again st') ∧ st'.Input = ⟨rest, false⟩ ∧
      st'.Chunks = st.Chunks ∧ st'.Output = st.Output ++ st.Chunks.getD index.toNat [] ∧
      st'.events = st.events ++ [.reference index.toNat rest.length] := by
  obtain ⟨hbit, hindex⟩ := duplicate_header hlt
  have hhead : st.Input.readHeader = ((index <<< 1) ||| 1, ⟨rest, false⟩) := by
    rw [hin, Record.bytes, readHeader_headerBytes]
  refine ⟨⟨⟨rest, false⟩, st.Byte, _, _, _⟩, ?_, rfl, rfl, rfl, rfl⟩
  simp only [mainBody, hhead, hbit, hindex, Bool.false_eq_true, if_false]
  exact exits_const _

/-- The main loop ends with the file. -/
theorem exits_nil {st : MainState} (hin : st.Input = ⟨[], false⟩) :
    Exits (fun fuel => iterate mainBody fuel st) { st with Input := ⟨[], true⟩ } := by
  refine exits_stop ?_
  simp only [mainBody, hin, readHeader_nil, if_true]
  exact exits_const _

/-- The main loop does not get past a record with the count 0. -/
theorem ne_done_of_count_zero {st : MainState} {rest : List UInt8}
    (hin : st.Input = ⟨(Record.compressed 0 []).bytes ++ rest, false⟩) (fuel : ℕ) (ms : MainState) :
    iterate mainBody fuel st ≠ .done ms := by
  refine iterate_ne_done_of_body (fun n next hbody => ?_) fuel ms
  obtain ⟨hbit, hsize⟩ := compressed_header (show (0 : BitVec 32).toNat < 2 ^ 31 by decide)
  have hhead : st.Input.readHeader = ((0 : BitVec 32) <<< 1, ⟨rest, false⟩) := by
    rw [hin, Record.bytes, List.append_nil, readHeader_headerBytes]
  simp only [mainBody, hhead, hbit, hsize, if_true, Bool.false_eq_true, if_false] at hbody
  obtain ⟨res, hres, _⟩ := Outcome.andThen_eq_done.1 hbody
  exact Decompress_zero _ _ _ hres

/-! ### A stream of records -/

/-- The iterations of the decoder that belong to these records, with `after` bytes following. -/
def expectedEvents : List Record → ℕ → List Event
  | [], _ => []
  | r :: rs, after => r.event ((rs.flatMap Record.bytes).length + after) :: expectedEvents rs after

section Kernel

variable (lzw_hw_streams : List UInt8 → ℕ → List UInt8)

/-- The record of an entry can be read: a compressed chunk decompresses to what `f` says, a number
fits into a header. -/
def Readable (f : List UInt8 → List UInt8) : Entry (List UInt8) → Prop
  | .fresh chunk => ∃ xs, recordOf lzw_hw_streams (.fresh chunk)
        = .compressed (BitVec.ofNat 32 xs.length) xs ∧
      xs.length < 2 ^ 31 ∧ Decompresses xs (f chunk)
  | .again n => n < 2 ^ 31

/-- The main loop over a stream of records: it exits as it exits from a state after them. -/
theorem exits_records {f : List UInt8 → List UInt8} {es : List (Entry (List UInt8))}
    (hes : ∀ e ∈ es, Readable lzw_hw_streams f e) (rest : List UInt8) {st : MainState}
    (hin : st.Input = ⟨(es.map (recordOf lzw_hw_streams)).flatMap Record.bytes ++ rest, false⟩) :
    ∃ st', (∀ ms, Exits (fun fuel => iterate mainBody fuel st) ms ↔
        Exits (fun fuel => iterate mainBody fuel st') ms) ∧ st'.Input = ⟨rest, false⟩ ∧
      st'.Output = st.Output ++
        ((expand st.Chunks (es.map (Entry.map f))).map fun out => out.getD []).flatten ∧
      st'.events = st.events ++
        expectedEvents (es.map (recordOf lzw_hw_streams)) rest.length := by
  induction es generalizing st with
  | nil => exact ⟨st, fun _ => Iff.rfl, hin, by simp [expand], by simp [expectedEvents]⟩
  | cons e es ih =>
      have htail : ∀ e' ∈ es, Readable lzw_hw_streams f e' :=
        fun e' he' => hes e' (List.mem_cons_of_mem _ he')
      have hhead := hes e List.mem_cons_self
      rw [List.map_cons, List.flatMap_cons, List.append_assoc] at hin
      cases e with
      | fresh chunk =>
          obtain ⟨xs, hrec, hlen, hdec⟩ := hhead
          rw [hrec] at hin
          obtain ⟨st₁, hstep, hin₁, hchunks₁, hout₁, hevents₁⟩ := exits_compressed hlen hdec hin
          obtain ⟨st₂, hrun, hin₂, hout₂, hevents₂⟩ := ih htail hin₁
          refine ⟨st₂, fun ms => (exits_again_iff hstep).trans (hrun ms), hin₂, ?_, ?_⟩
          · rw [hout₂, hout₁, hchunks₁]
            simp [expand, Entry.map]
          · rw [hevents₂, hevents₁, List.map_cons, hrec]
            simp [expectedEvents, Record.event]
      | again n =>
          have hval : (BitVec.ofNat 32 n).toNat = n := toNat_ofNat_of_lt hhead
          have hlt : (BitVec.ofNat 32 n).toNat < 2 ^ 31 := lt_of_eq_of_lt hval hhead
          obtain ⟨st₁, hstep, hin₁, hchunks₁, hout₁, hevents₁⟩ := exits_duplicate hlt hin
          obtain ⟨st₂, hrun, hin₂, hout₂, hevents₂⟩ := ih htail hin₁
          refine ⟨st₂, fun ms => (exits_again_iff hstep).trans (hrun ms), hin₂, ?_, ?_⟩
          · rw [hout₂, hout₁, hchunks₁, hval]
            simp [expand, Entry.map, List.getD_eq_getElem?_getD]
          · rw [hevents₂, hevents₁, List.map_cons]
            simp [recordOf, expectedEvents, Record.event]

/-! ### The file of a run -/

variable {lzw_hw_streams} {st : AppState}

/-- The chunks of a run are those `runCDC` hands over. -/
theorem Reachable.chunk_shape (h : Reachable lzw_hw_streams st) :
    ∀ chunk ∈ st.chunks, ∃ payload, chunk = payload ++ [0] ∧ 12 ≤ payload.length ∧
      payload.length ≤ 8192 := by
  induction h with
  | init =>
      intro chunk hchunk
      simp [AppState.init] at hchunk
  | enter inputBuf length _ _ ih => exact ih
  | @round st _ _ ih =>
      intro chunk hchunk
      obtain ⟨e, hend, hround⟩ := appRound_eq lzw_hw_streams st
      rw [hround, frame_chunks, processChunk_chunks] at hchunk
      rcases List.mem_append.1 hchunk with hold | hnew
      · exact ih chunk hold
      · have hwindow := hend.window
        have hmax := hend.le_max
        refine ⟨_, List.mem_singleton.1 hnew, ?_, ?_⟩ <;> rw [length_slice] <;> omega

/-- The lengths that the compression of a chunk depends on. -/
theorem Reachable.chunk_length (h : Reachable lzw_hw_streams st) :
    ∀ chunk ∈ st.chunks, 0 < chunk.length ∧ chunk.length ≤ 65278 ∧
      (nonzero chunk).length ≤ 8192 := by
  intro chunk hmem
  obtain ⟨payload, rfl, _, hhi⟩ := h.chunk_shape chunk hmem
  have hlen : (payload ++ [0]).length = payload.length + 1 := by simp
  have hle := length_nonzero_le payload
  rw [nonzero_concat_zero, hlen]
  omega

/-- The record of a new chunk of a run: the bytes `run_LZW` writes for it. -/
theorem Reachable.recordOf_fresh (h : Reachable lzw_hw_streams st) {signed : Bool}
    (hkernel : RunsLzw lzw_hw_streams signed) {chunk : List UInt8} (hmem : chunk ∈ st.chunks) :
    ∃ xs, run_LZW signed chunk chunk.length = some xs ∧ xs.length < 2 ^ 31 ∧
      recordOf lzw_hw_streams (.fresh chunk) = .compressed (BitVec.ofNat 32 xs.length) xs := by
  obtain ⟨hpos, hsize, hw⟩ := h.chunk_length chunk hmem
  obtain ⟨xs, hxs, hbound⟩ := run_LZW_length signed hsize hpos
  have hlen : xs.length < 2 ^ 31 := by omega
  obtain ⟨hcount, hbody⟩ := hkernel.tempbuf hxs hlen
  refine ⟨xs, hxs, hlen, ?_⟩
  simp only [recordOf, hcount, hbody]

/-- The entries of a run can be read, as far as the chunks passed on decompress. -/
theorem Reachable.readable (h : Reachable lzw_hw_streams st) {signed : Bool}
    (hkernel : RunsLzw lzw_hw_streams signed) (hlen : digests st.chunks < 2 ^ 31)
    {f : List UInt8 → List UInt8} {e : Entry (List UInt8)} (he : e ∈ entries SHA_new st.chunks)
    (hf : ∀ chunk, e = .fresh chunk → ComesBackAs signed chunk (f chunk)) :
    Readable lzw_hw_streams f e := by
  cases e with
  | fresh chunk =>
      obtain ⟨xs, hxs, hdec⟩ := hf chunk rfl
      have hmem := mem_of_mem_fresh SHA_new (mem_fresh.2 he)
      obtain ⟨xs', hxs', hsmall, hrec⟩ := h.recordOf_fresh hkernel hmem
      obtain rfl : xs = xs' := Option.some_inj.1 (hxs.symm.trans hxs')
      exact ⟨xs, hrec, hsmall, hdec⟩
  | again n =>
      obtain ⟨i, hi⟩ := List.mem_iff_getElem?.1 he
      exact ((h.deduplicates hlen).again_lt hlen hi).2.2

/-- The decoder's state before its main loop. -/
def mainStart (file : List UInt8) : MainState :=
  { Input := ⟨file, false⟩, Byte := 0, Chunks := [], Output := [], events := [] }

/-- The main loop over the file of a run in which the chunks passed on decompress to what `f`
says. -/
theorem Reachable.exits_file (h : Reachable lzw_hw_streams st) {signed : Bool}
    (hkernel : RunsLzw lzw_hw_streams signed) (hlen : digests st.chunks < 2 ^ 31)
    {f : List UInt8 → List UInt8}
    (hf : ∀ chunk, .fresh chunk ∈ entries SHA_new st.chunks → ComesBackAs signed chunk (f chunk)) :
    ∃ ms, Exits (Decoder.main st.file) ms ∧ ms.events = expectedEvents st.records 0 ∧
      ms.Output = ((expand [] ((entries SHA_new st.chunks).map (Entry.map f))).map
        fun out => out.getD []).flatten := by
  have hded := h.deduplicates hlen
  have hread : ∀ e ∈ entries SHA_new st.chunks, Readable lzw_hw_streams f e := by
    intro e he
    refine h.readable hkernel hlen he fun chunk hchunk => ?_
    subst hchunk
    exact hf chunk he
  have hin : (mainStart st.file).Input
      = ⟨((entries SHA_new st.chunks).map (recordOf lzw_hw_streams)).flatMap Record.bytes ++ [],
          false⟩ := by
    rw [← hded.records, ← hded.file, List.append_nil]
    rfl
  obtain ⟨st', hrun, hin', hout, hevents⟩ := exits_records lzw_hw_streams hread [] hin
  refine ⟨_, (hrun _).2 (exits_nil hin'), ?_, ?_⟩
  · rw [hded.records]
    exact hevents
  · exact hout

/-- Chunks that are not all zero come back as some strings. -/
theorem Reachable.exists_strings (h : Reachable lzw_hw_streams st) (signed : Bool)
    {es : List (Entry (List UInt8))}
    (hes : ∀ chunk, .fresh chunk ∈ es → chunk ∈ st.chunks ∧ nonzero chunk ≠ []) :
    ∃ f : List UInt8 → List UInt8, ∀ chunk, .fresh chunk ∈ es →
      ComesBackAs signed chunk (f chunk) := by
  have hback : ∀ chunk, ∃ out, .fresh chunk ∈ es → ComesBackAs signed chunk out := by
    intro chunk
    by_cases hc : .fresh chunk ∈ es
    · obtain ⟨hmem, hne⟩ := hes chunk hc
      obtain ⟨_, hsize, hw⟩ := h.chunk_length chunk hmem
      obtain ⟨out, hout, _⟩ := chunk_codec signed hsize hne hw
      exact ⟨out, fun _ => hout⟩
    · exact ⟨[], fun hc' => absurd hc' hc⟩
  choose f hf using hback
  exact ⟨f, hf⟩

/-- The decoder does not get past a chunk of zero bytes that is passed on. -/
theorem Reachable.not_exits_of_zeros (h : Reachable lzw_hw_streams st) {signed : Bool}
    (hkernel : RunsLzw lzw_hw_streams signed) (hlen : digests st.chunks < 2 ^ 31)
    {zeros : List UInt8} (hmem : .fresh zeros ∈ entries SHA_new st.chunks)
    (hzero : nonzero zeros = []) (ms : MainState) : ¬ Exits (Decoder.main st.file) ms := by
  have hded := h.deduplicates hlen
  -- the first of them
  let bad : Entry (List UInt8) → Bool
    | .fresh chunk => nonzero chunk = []
    | .again _ => false
  obtain ⟨first, hfirst⟩ : ∃ e, (entries SHA_new st.chunks).find? bad = some e :=
    Option.isSome_iff_exists.1 (List.find?_isSome.2 ⟨_, hmem, by simpa [bad] using hzero⟩)
  obtain ⟨hbad, before, after, hsplit, hgood⟩ := List.find?_eq_some_iff_append.1 hfirst
  have hpast : ∀ e ∈ before ++ first :: after, e ∈ entries SHA_new st.chunks := by
    intro e he
    rwa [hsplit]
  -- the records before it are read
  have hstrings : ∀ chunk, .fresh chunk ∈ before → chunk ∈ st.chunks ∧ nonzero chunk ≠ [] := by
    intro chunk hc
    have hpassed := mem_fresh.2 (hpast _ (List.mem_append_left _ hc))
    exact ⟨mem_of_mem_fresh SHA_new hpassed, by simpa [bad] using hgood _ hc⟩
  obtain ⟨f, hf⟩ := h.exists_strings signed hstrings
  have hread : ∀ e ∈ before, Readable lzw_hw_streams f e := by
    intro e he
    refine h.readable hkernel hlen (hpast e (List.mem_append_left _ he)) fun chunk hchunk => ?_
    subst hchunk
    exact hf chunk he
  -- and then the decoder stands before a record with the count 0
  have hfirstmem : first ∈ entries SHA_new st.chunks := hpast first (by simp)
  cases first with
  | again n => simp [bad] at hbad
  | fresh chunk =>
      have hnone : nonzero chunk = [] := by simpa [bad] using hbad
      have hchunk := mem_of_mem_fresh SHA_new (mem_fresh.2 hfirstmem)
      obtain ⟨hpos, hsize, _⟩ := h.chunk_length chunk hchunk
      obtain ⟨xs, hxs, _, hrec⟩ := h.recordOf_fresh hkernel hchunk
      rw [run_LZW_zeros signed hsize hpos hnone, Option.some_inj] at hxs
      subst hxs
      have hin : (mainStart st.file).Input
          = ⟨(before.map (recordOf lzw_hw_streams)).flatMap Record.bytes ++
              ((Record.compressed 0 []).bytes ++
                (after.map (recordOf lzw_hw_streams)).flatMap Record.bytes), false⟩ := by
        show (⟨st.file, false⟩ : Stream) = _
        rw [hded.file, hded.records, hsplit, List.map_append, List.flatMap_append, List.map_cons,
          List.flatMap_cons, hrec]
        rfl
      obtain ⟨st', hrun, hin', _⟩ := exits_records lzw_hw_streams hread _ hin
      intro hexit
      exact not_exits_of_ne_done (ne_done_of_count_zero hin') _ ((hrun ms).1 hexit)

/-! ### When the two sides stay synchronised -/

/-- The decoder works through the file of the run record by record, and ends with it: the kinds of
the records, their counts and indices, and the positions after them are those of the encoder. -/
def Synced (st : AppState) : Prop :=
  ∃ ms, Exits (Decoder.main st.file) ms ∧ ms.events = expectedEvents st.records 0

/-- A nonzero byte in a chunk. -/
theorem nonzero_ne_nil_iff {chunk : List UInt8} :
    nonzero chunk ≠ [] ↔ ∃ byte ∈ chunk, byte ≠ 0 := by
  simp [nonzero]

/-- The two sides stay synchronised over a run exactly when every chunk that is compressed, that is,
every chunk with a new digest, contains a nonzero byte. -/
theorem reachable_synced {signed : Bool} (hkernel : RunsLzw lzw_hw_streams signed)
    (h : Reachable lzw_hw_streams st) (hlen : digests st.chunks < 2 ^ 31) :
    Synced st ↔ ∀ (n : ℕ) (chunk : List UInt8), st.chunks[n]? = some chunk →
      SHA_new chunk ∉ (st.chunks.take n).map SHA_new → ∃ byte ∈ chunk, byte ≠ 0 := by
  constructor
  · rintro ⟨ms, hexit, _⟩ n chunk hchunk hnew
    rw [← nonzero_ne_nil_iff]
    intro hzero
    have hmem := (fresh_mem_entries SHA_new).2 ⟨n, hchunk, hnew⟩
    exact h.not_exits_of_zeros hkernel hlen hmem hzero ms hexit
  · intro hbytes
    have hstrings : ∀ chunk, .fresh chunk ∈ entries SHA_new st.chunks →
        chunk ∈ st.chunks ∧ nonzero chunk ≠ [] := by
      intro chunk hc
      obtain ⟨n, hchunk, hnew⟩ := (fresh_mem_entries SHA_new).1 hc
      exact ⟨List.mem_of_getElem? hchunk, nonzero_ne_nil_iff.2 (hbytes n chunk hchunk hnew)⟩
    obtain ⟨f, hf⟩ := h.exists_strings signed hstrings
    obtain ⟨ms, hexit, hevents, _⟩ := h.exits_file hkernel hlen hf
    exact ⟨ms, hexit, hevents⟩

end Kernel

/-- The chunk of a run over one window. -/
theorem runPackets_window_chunks (lzw_hw_streams : List UInt8 → ℕ → List UInt8) (b : Buffer) :
    (runPackets lzw_hw_streams [(b, 12)]).chunks = [slice b 0 12 ++ [0]] := by
  rw [runPackets_chunks, List.flatMap_singleton, chunksFrom_window]

theorem digests_window (lzw_hw_streams : List UInt8 → ℕ → List UInt8) (b : Buffer) :
    digests (runPackets lzw_hw_streams [(b, 12)]).chunks < 2 ^ 31 := by
  refine lt_of_le_of_lt (digests_le _) ?_
  rw [runPackets_window_chunks, List.length_singleton]
  norm_num

/-- The file of a packet of twelve letters is worked through. -/
theorem reachable_synced_letters :
    Synced (runPackets (runLzwKernel false) [(fun _ => 7, 12)]) := by
  refine (reachable_synced (runsLzw_runLzwKernel false) (reachable_runPackets _).1
    (digests_window _ _)).2 fun n chunk hchunk _ => ?_
  rw [runPackets_window_chunks] at hchunk
  have hmem := List.mem_of_getElem? hchunk
  exact ⟨7, by rw [List.mem_singleton.1 hmem]; decide, by decide⟩

/-- The file of a packet of twelve zero bytes is not. -/
theorem zeros_not_synced :
    ¬ Synced (runPackets (runLzwKernel false) [(fun _ => 0, 12)]) := by
  rintro ⟨ms, hexit, _⟩
  have hzero : nonzero (slice (fun _ => 0) 0 12 ++ [0]) = [] := by decide
  refine (reachable_runPackets _).1.not_exits_of_zeros (runsLzw_runLzwKernel false)
    (digests_window _ _) ?_ hzero ms hexit
  rw [runPackets_window_chunks]
  exact (fresh_mem_entries SHA_new).2 ⟨0, rfl, by simp⟩

end App

end DedupLzw
