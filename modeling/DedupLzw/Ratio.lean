/-
**How much a file can stand for.**

The entries of a code table get longer by one byte with every code at most, so `k` codes stand for
at most `k (k + 1) / 2` bytes.  Phrases that are one letter longer each time reach this, a run of
equal bytes for example.

For the decoder this bounds what an arbitrary file can make it write, by the sizes of the chunks
that the file announces and by the number of its records.  For the encoder it says how much can be
saved: a chunk takes at least as many codes as it has to, and together with the four bytes of a
header that is at least a 39th of its nonzero bytes, whatever they are.

Main definitions:

* `DedupLzw.Decoder.Grown` — the lengths of the strings after a number of codes;
* `DedupLzw.Decoder.Measured` — the lengths in a state of the main loop.

Main results:

* `DedupLzw.Decoder.decompressRound_cases` — what one round of `Decompress` can do;
* `DedupLzw.Decoder.Decompress_length` — what a call writes and reads;
* `DedupLzw.Decoder.decoded_length` — **what the decoder writes for an arbitrary file**;
* `DedupLzw.App.least_output` — **what the encoder writes at the least**.
-/

import DedupLzw.Meaning

set_option relaxedAutoImplicit false
set_option autoImplicit false

namespace DedupLzw

namespace Decoder

open FuelLoop

/-! ### Rounds -/

/-- What a round of `Decompress` does to the strings. -/
theorem decompressRound_cases {t u : DecompressState} (h : decompressRound t = .done u) :
    ∃ old ∈ t.Code_table, ∃ Symbols, (Symbols = old ++ t.Symbol ∨ Symbols ∈ t.Code_table) ∧
      u.Code_table = t.Code_table ++ [old ++ [Symbols.headD 0]] ∧ u.Symbol = [Symbols.headD 0] ∧
      u.Output = t.Output ++ Symbols := by
  unfold decompressRound at h
  cases hold : t.Code_table[t.Old]? with
  | none => simp [hold] at h
  | some old =>
      by_cases hge : ((Read_code t.reader).1 : ℤ) ≥ toInt t.Code_table.length
      · simp only [hold, hge, if_true, Outcome.done.injEq] at h
        subst h
        exact ⟨old, List.mem_of_getElem? hold, _, Or.inl rfl, rfl, rfl, rfl⟩
      · cases hnew : t.Code_table[(Read_code t.reader).1]? with
        | none => simp [hold, hge, hnew] at h
        | some Symbols =>
            simp only [hold, hge, if_false, hnew, Outcome.done.injEq] at h
            subst h
            exact ⟨old, List.mem_of_getElem? hold, Symbols, Or.inr (List.mem_of_getElem? hnew), rfl,
              rfl, rfl⟩

/-- The strings after the codes 0 to `n`. -/
structure Grown (n : ℕ) (t : DecompressState) : Prop where
  entry : ∀ s ∈ t.Code_table, s.length ≤ n + 1
  symbol : t.Symbol.length = 1
  output : 2 * t.Output.length ≤ (n + 1) * (n + 2)

theorem grown_start (r : Reader) : Grown 0 (decompressStart r) where
  entry := by simp [decompressStart, charString]
  symbol := rfl
  output := le_rfl

theorem Grown.round {n : ℕ} {t u : DecompressState} (h : Grown n t)
    (hround : decompressRound t = .done u) : Grown (n + 1) u := by
  obtain ⟨old, hold, Symbols, hSymbols, htable, hsymbol, hout⟩ := decompressRound_cases hround
  have holdlen := h.entry old hold
  have hlen : Symbols.length ≤ n + 2 := by
    rcases hSymbols with rfl | hmem
    · rw [List.length_append, h.symbol]
      omega
    · have := h.entry Symbols hmem
      omega
  refine ⟨fun s hs => ?_, by rw [hsymbol]; rfl, ?_⟩
  · rw [htable, List.mem_append, List.mem_singleton] at hs
    rcases hs with hs | rfl
    · have := h.entry s hs
      omega
    · rw [List.length_append, List.length_singleton]
      omega
  · have hout' := h.output
    rw [hout, List.length_append]
    linarith

theorem RoundsTo.grown {Size n : ℕ} {r : Reader} {t : DecompressState}
    (h : RoundsTo Size (decompressStart r) n t) : Grown n t := by
  induction h with
  | zero => exact grown_start r
  | succ _ _ hround ih => exact ih.round hround

/-! ### Calls -/

/-- A call that returns has written at most what its codes can stand for, and it has not put
anything back into the stream. -/
theorem Decompress_length {Size fuel : ℕ} (hSize : Size < 2 ^ 31) {bytes : List UInt8}
    {r r' : Reader} {out : List UInt8} (hr : r.Input = ⟨bytes, false⟩)
    (h : Decompress Size r fuel = .done (out, r')) :
    2 * out.length ≤ codeCount Size * (codeCount Size + 1) ∧
      r'.Input.bytes.length ≤ bytes.length := by
  have hpos : Size ≠ 0 := by
    rintro rfl
    exact Decompress_zero _ _ _ h
  obtain ⟨t, hloop, hret⟩ := Outcome.andThen_eq_done.1 h
  obtain ⟨rfl, rfl⟩ := Prod.mk.inj (Outcome.done.inj hret)
  obtain ⟨n, hrounds, _⟩ := rounds_of_done fuel _ t hloop
  refine ⟨hrounds.grown.output.trans ?_, ?_⟩
  · have hcount := hrounds.le_codeCount hr hSize hpos
    exact Nat.mul_le_mul hcount (by omega)
  · rw [(hrounds.afterCodes hr).reader.rest, List.length_drop]
    omega

/-! ### Files -/

/-- No chunk is announced with a size of more than `S`. -/
def Announced (S : ℕ) (events : List Event) : Prop :=
  ∀ Chunk_size left, .chunk Chunk_size left ∈ events → Chunk_size ≤ S

theorem Announced.of_append {S : ℕ} {events events' : List Event}
    (h : Announced S (events ++ events')) : Announced S events :=
  fun Chunk_size left hmem => h Chunk_size left (List.mem_append_left _ hmem)

theorem codeCount_mono {Size S : ℕ} (h : Size ≤ S) : codeCount Size ≤ codeCount S :=
  max_le_max_left 1 (by omega)

/-- The lengths in a state of the main loop on a file of `total` bytes, if no chunk so far had a
size of more than `S`. -/
structure Measured (S total : ℕ) (st : MainState) : Prop where
  chunk : ∀ c ∈ st.Chunks, 2 * c.length ≤ codeCount S * (codeCount S + 1)
  output : 2 * st.Output.length ≤ st.events.length * (codeCount S * (codeCount S + 1))
  bytes : 4 * st.events.length + st.Input.bytes.length ≤ total

/-- One more record. -/
theorem Measured.step {S total fuel : ℕ} {st st' : MainState} (h : Measured S total st)
    (hbody : mainBody fuel st = .done (.again st')) (hS : Announced S st'.events) :
    Measured S total st' := by
  have hbytes := h.bytes
  have hout := h.output
  obtain hstop | ⟨b₀, b₁, b₂, b₃, bytes, hin, ⟨_, Chunk, r, hcall, hagain⟩ | ⟨_, hagain⟩⟩ :=
    mainBody_cases hbody
  · simp at hstop
  · obtain rfl := Next.again.inj hagain
    obtain ⟨hlen, hrest⟩ := Decompress_length (size_lt _) rfl hcall
    have hcodes := codeCount_mono (hS (headerOf b₀ b₁ b₂ b₃ >>> 1).toNat r.Input.bytes.length
      (List.mem_append_right _ (List.mem_singleton_self _)))
    have hchunk := hlen.trans (Nat.mul_le_mul hcodes (Nat.succ_le_succ hcodes))
    rw [hin] at hbytes
    simp only [List.length_cons] at hbytes
    refine ⟨fun c hc => ?_, ?_, ?_⟩
    · rcases List.mem_append.1 hc with hold | hnew
      · exact h.chunk c hold
      · rwa [List.mem_singleton.1 hnew]
    · simp only [List.length_append, List.length_singleton]
      linarith
    · simp only [List.length_append, List.length_singleton]
      omega
  · obtain rfl := Next.again.inj hagain
    have hchunk : 2 * (st.Chunks.getD (headerOf b₀ b₁ b₂ b₃ >>> 1).toNat []).length
        ≤ codeCount S * (codeCount S + 1) := by
      rw [List.getD_eq_getElem?_getD]
      cases hc : st.Chunks[(headerOf b₀ b₁ b₂ b₃ >>> 1).toNat]? with
      | none => simp
      | some c => exact h.chunk c (List.mem_of_getElem? hc)
    rw [hin] at hbytes
    simp only [List.length_cons] at hbytes
    refine ⟨h.chunk, ?_, ?_⟩
    · simp only [List.length_append, List.length_singleton]
      linarith
    · simp only [List.length_append, List.length_singleton]
      omega

/-- The events of an iteration come behind those before it. -/
theorem events_of_mainBody {fuel : ℕ} {st st' : MainState}
    (h : mainBody fuel st = .done (.again st')) : ∃ e, st'.events = st.events ++ [e] := by
  obtain hstop | ⟨b₀, b₁, b₂, b₃, bytes, _, ⟨_, Chunk, r, _, hagain⟩ | ⟨_, hagain⟩⟩ :=
    mainBody_cases h
  · simp at hstop
  · exact ⟨_, congrArg MainState.events (Next.again.inj hagain)⟩
  · exact ⟨_, congrArg MainState.events (Next.again.inj hagain)⟩

/-- The lengths when the main loop has ended. -/
theorem measured_of_done {S total : ℕ} : ∀ n st ms, iterate mainBody n st = .done ms →
    (Announced S st.events → Measured S total st) → Announced S ms.events →
      Measured S total ms := by
  refine iterate_done_induction ?_ ?_
  · intro n st ms hbody hst hS
    obtain hstop | ⟨b₀, b₁, b₂, b₃, bytes, _, ⟨_, Chunk, r, _, hagain⟩ | ⟨_, hagain⟩⟩ :=
      mainBody_cases hbody
    · obtain rfl := Next.stop.inj hstop
      have hlast := hst hS
      exact ⟨hlast.chunk, hlast.output, le_of_add_le_left hlast.bytes⟩
    · simp at hagain
    · simp at hagain
  · intro n st st' ms hbody hrest hst
    refine hrest fun hS => ?_
    obtain ⟨e, he⟩ := events_of_mainBody hbody
    exact (hst (he ▸ hS).of_append).step hbody hS

/-- What the decoder writes for an arbitrary file, if it ends: there are no more records than groups
of four bytes, and for each of them at most as many bytes are written as the codes of the longest
chunk can stand for. -/
theorem decoded_length {file : List UInt8} {ms : MainState} (h : Exits (main file) ms) {S : ℕ}
    (hS : ∀ Chunk_size left, .chunk Chunk_size left ∈ ms.events → Chunk_size ≤ S) :
    4 * ms.events.length ≤ file.length ∧
      2 * ms.Output.length ≤ ms.events.length * (codeCount S * (codeCount S + 1)) := by
  obtain ⟨n, hn⟩ := h
  have hmeasured : Measured S file.length ms :=
    measured_of_done n _ ms (hn n le_rfl) (fun _ => ⟨by simp, by simp, by simp⟩) hS
  exact ⟨le_of_add_le_left hmeasured.bytes, hmeasured.output⟩

set_option maxRecDepth 4000 in
/-- A chunk with the codes 97 and 256: it is decoded to three bytes, as many as two codes can stand
for. -/
theorem decoded_length_aaa : ∃ ms, Exits (main [8, 0, 0, 0, 3, 8, 64, 0]) ms ∧
    ms.Output = [97, 97, 97] ∧ 4 * ms.events.length ≤ 8 ∧
      2 * ms.Output.length ≤ ms.events.length * (codeCount 4 * (codeCount 4 + 1)) := by
  have hexit : Exits (main [8, 0, 0, 0, 3, 8, 64, 0])
      { Input := ⟨[], true⟩, Byte := 0, Chunks := [[97, 97, 97]], Output := [97, 97, 97],
        events := [.chunk 4 0] } := by
    refine ⟨4, fun m hm => ?_⟩
    obtain ⟨k, rfl⟩ : ∃ k, m = k + 4 := ⟨m - 4, by omega⟩
    rfl
  exact ⟨_, hexit, rfl, decoded_length hexit (by simp)⟩

end Decoder

namespace App

open Cdc Sha Lzw FirstSeen

section Kernel

variable {lzw_hw_streams : List UInt8 → ℕ → List UInt8} {st : AppState} {signed : Bool}

/-! ### What is saved at the most -/

/-- The record of a chunk has at least a 39th of the chunk's nonzero bytes: with 128 codes or more
it has at least 212 bytes, and up to there a code stands for at most 64 of them. -/
theorem Reachable.least_record (h : Reachable lzw_hw_streams st)
    (hkernel : RunsLzw lzw_hw_streams signed) {c : List UInt8} (hmem : c ∈ st.chunks) :
    (nonzero c).length ≤ 39 * (recordOf lzw_hw_streams (.fresh c)).bytes.length := by
  by_cases hne : nonzero c = []
  · simp [hne]
  · obtain ⟨k, xs, hk, hsize, _, hrec⟩ := h.codes_of_fresh hkernel hmem hne
    obtain ⟨_, _, hlen⟩ := h.chunk_length c hmem
    rw [hrec, Record.bytes, List.length_append, length_headerBytes, hsize]
    rcases Nat.lt_or_ge k 128 with hlt | hge
    · have hcode : k * (k + 1) ≤ k * 128 := Nat.mul_le_mul_left k hlt
      omega
    · omega

/-- The records of a stream of entries. -/
theorem least_records {es : List (Entry (List UInt8))}
    (hes : ∀ c, .fresh c ∈ es →
      (nonzero c).length ≤ 39 * (recordOf lzw_hw_streams (.fresh c)).bytes.length) :
    ((fresh es).map fun c => (nonzero c).length).sum + 156 * es.length
      ≤ 39 * ((es.map (recordOf lzw_hw_streams)).flatMap Record.bytes).length
        + 156 * (fresh es).length := by
  induction es with
  | nil => simp [fresh]
  | cons e es ih =>
      have htail := ih fun c hc => hes c (List.mem_cons_of_mem _ hc)
      rw [List.map_cons, List.flatMap_cons, List.length_append, List.length_cons]
      cases e with
      | fresh c =>
          have hhead := hes c List.mem_cons_self
          have hfresh : fresh (.fresh c :: es) = c :: fresh es := rfl
          rw [hfresh, List.map_cons, List.sum_cons, List.length_cons]
          omega
      | again n =>
          have hfresh : fresh (.again n :: es) = fresh es := rfl
          have hsize : (recordOf lzw_hw_streams (.again n)).bytes.length = 4 := rfl
          rw [hfresh, hsize]
          omega

/-- What the encoder writes at the least: a 39th of the nonzero bytes of the chunks that it stores,
and four bytes for every other chunk. -/
theorem least_output (h : Reachable lzw_hw_streams st) (hkernel : RunsLzw lzw_hw_streams signed)
    (hlen : digests st.chunks < 2 ^ 31) :
    ((fresh (entries SHA_new st.chunks)).map fun c => (nonzero c).length).sum
        + 39 * (4 * st.chunks.length)
      ≤ 39 * (st.file.length + 4 * digests st.chunks) := by
  have hded := h.deduplicates hlen
  have hall := @least_records lzw_hw_streams (entries SHA_new st.chunks) fun c hc =>
    h.least_record hkernel (mem_of_mem_fresh SHA_new (mem_fresh.2 hc))
  have hfresh := congrArg List.length (map_key_fresh SHA_new st.chunks)
  rw [List.length_map] at hfresh
  rw [← hded.records, ← hded.file, length_entries, hfresh] at hall
  unfold digests
  omega

end Kernel

/-- Two packets of twelve letters: a file of at least five bytes. -/
theorem least_output_twice :
    let st := runPackets (runLzwKernel false) [(fun _ => 7, 12), (fun _ => 7, 12)]
    ((fresh (entries SHA_new st.chunks)).map fun c => (nonzero c).length).sum
        + 39 * (4 * st.chunks.length)
      ≤ 39 * (st.file.length + 4 * digests st.chunks) := by
  refine least_output (reachable_runPackets _).1 (runsLzw_runLzwKernel false) ?_
  exact lt_of_le_of_lt (digests_le_payloadBytes _ _) (by simp [payloadBytes])

end App

end DedupLzw
