/-
**Files that are cut off or overwritten.**

Nothing in the format tells the decoder how long a file is or whether its bytes are the right ones.
So a file that begins with the first records of a run, whatever comes behind them, is decoded as far
as these records go: everything that is written for them has been written before the decoder comes
to the first byte behind them, and nothing that is written is ever taken back.

What happens then depends on where the file has been cut.  Between two records, or inside a header,
the decoder takes the cut for the end of the file.  Inside a compressed chunk it reads one bits
behind the end of the file, and 8191 is not an entry of its table yet, unless the chunk is very
long; so it leaves its table, as long as more than four bytes are missing.

Main definitions:

* `DedupLzw.App.recordBytes` — the bytes of the first records of a run.

Main results:

* `DedupLzw.Decoder.mainBody_cases` — what one iteration of the main loop can do;
* `DedupLzw.Decoder.output_prefix` — what has been written stays;
* `DedupLzw.App.damaged_file` — **a file that begins with the first records of a run**;
* `DedupLzw.Decoder.not_codesInTable_of_short` — chunks that are longer than their file;
* `DedupLzw.App.cut_inside_chunk` — **a file that is cut inside a compressed chunk**.
-/

import DedupLzw.AnyFile
import DedupLzw.System

set_option relaxedAutoImplicit false
set_option autoImplicit false

namespace DedupLzw

namespace Decoder

open FuelLoop

/-! ### One iteration -/

/-- A finished iteration of the main loop has found less than a header and leaves the loop, or it
has decompressed a chunk, or it has looked up an earlier one. -/
theorem mainBody_cases {fuel : ℕ} {st : MainState} {next : Next MainState MainState}
    (h : mainBody fuel st = .done next) :
    next = .stop { st with Input := ⟨[], true⟩ } ∨
    ∃ b₀ b₁ b₂ b₃ bytes, st.Input = ⟨b₀ :: b₁ :: b₂ :: b₃ :: bytes, false⟩ ∧
      ((headerOf b₀ b₁ b₂ b₃ &&& 1 = 0 ∧ ∃ Chunk r,
          Decompress (headerOf b₀ b₁ b₂ b₃ >>> 1).toNat ⟨⟨bytes, false⟩, 0, st.Byte⟩ fuel
            = .done (Chunk, r) ∧
          next = .again
            { Input := r.Input, Byte := r.Byte, Chunks := st.Chunks ++ [Chunk],
              Output := st.Output ++ Chunk
              events := st.events ++
                [.chunk (headerOf b₀ b₁ b₂ b₃ >>> 1).toNat r.Input.bytes.length] }) ∨
        (headerOf b₀ b₁ b₂ b₃ &&& 1 ≠ 0 ∧
          next = .again
            { st with
              Input := ⟨bytes, false⟩
              Output := st.Output ++ st.Chunks.getD (headerOf b₀ b₁ b₂ b₃ >>> 1).toNat []
              events := st.events ++
                [.reference (headerOf b₀ b₁ b₂ b₃ >>> 1).toNat bytes.length] })) := by
  by_cases hend : st.Input.eof = true ∨ st.Input.bytes.length < 4
  · left
    simp only [mainBody, readHeader_short hend, if_true, Outcome.done.injEq] at h
    exact h.symm
  · right
    push Not at hend
    obtain ⟨heof, hlen⟩ := hend
    obtain ⟨b₀, b₁, b₂, b₃, bytes, hbytes⟩ :
        ∃ b₀ b₁ b₂ b₃ bytes, st.Input.bytes = b₀ :: b₁ :: b₂ :: b₃ :: bytes := by
      rcases hbytes : st.Input.bytes with _ | ⟨b₀, _ | ⟨b₁, _ | ⟨b₂, _ | ⟨b₃, bytes⟩⟩⟩⟩
      case cons.cons.cons.cons => exact ⟨b₀, b₁, b₂, b₃, bytes, rfl⟩
      all_goals simp [hbytes] at hlen
    have hin : st.Input = ⟨b₀ :: b₁ :: b₂ :: b₃ :: bytes, false⟩ := by
      rw [← hbytes, ← Bool.eq_false_of_not_eq_true heof]
    refine ⟨b₀, b₁, b₂, b₃, bytes, hin, ?_⟩
    by_cases heven : headerOf b₀ b₁ b₂ b₃ &&& 1 = 0
    · rw [mainBody_chunk hin heven, Outcome.andThen_eq_done] at h
      obtain ⟨⟨Chunk, r⟩, hcall, hnext⟩ := h
      exact Or.inl ⟨heven, Chunk, r, hcall, (Outcome.done.inj hnext).symm⟩
    · simp only [mainBody, readHeader_cons hin, heven, Bool.false_eq_true, if_false] at h
      exact Or.inr ⟨heven, (Outcome.done.inj h).symm⟩

theorem output_prefix_of_done : ∀ n st ms, iterate mainBody n st = .done ms →
    st.Output <+: ms.Output := by
  refine iterate_done_induction ?_ ?_
  · intro n st ms hbody
    obtain hstop | ⟨b₀, b₁, b₂, b₃, bytes, _, ⟨_, Chunk, r, _, hagain⟩ | ⟨_, hagain⟩⟩ :=
      mainBody_cases hbody
    · rw [Next.stop.inj hstop]
    · simp at hagain
    · simp at hagain
  · intro n st st' ms hbody hrest
    refine List.IsPrefix.trans ?_ hrest
    obtain hstop | ⟨b₀, b₁, b₂, b₃, bytes, _, ⟨_, Chunk, r, _, hagain⟩ | ⟨_, hagain⟩⟩ :=
      mainBody_cases hbody
    · simp at hstop
    · rw [Next.again.inj hagain]
      exact List.prefix_append _ _
    · rw [Next.again.inj hagain]
      exact List.prefix_append _ _

/-- The main loop never takes back what it has written. -/
theorem output_prefix {st ms : MainState}
    (h : Exits (fun fuel => iterate mainBody fuel st) ms) : st.Output <+: ms.Output := by
  obtain ⟨n, hn⟩ := h
  exact output_prefix_of_done n st ms (hn n le_rfl)

/-! ### The size of a chunk -/

/-- From as many bytes as the codes take up, packed, just these codes are read. -/
theorem codeCount_packed {Size n : ℕ} (hn : 1 ≤ n) (h : Size = (13 * n + 7) / 8) :
    codeCount Size = n := by
  unfold codeCount
  omega

/-! ### Behind the end of the file -/

theorem bitAt_of_end {bytes : List UInt8} {p : ℕ} (h : 8 * bytes.length ≤ p) :
    bitAt bytes p = 1 := by
  have hbyte : bytes.getD (p / 8) 255 = 255 := List.getD_eq_default _ _ (by omega)
  have hbit : p % 8 < 8 := Nat.mod_lt _ (by norm_num)
  rw [bitAt, hbyte]
  generalize p % 8 = k at hbit
  interval_cases k <;> rfl

theorem bitsAt_of_end {bytes : List UInt8} {p : ℕ} (h : 8 * bytes.length ≤ p) (n : ℕ) :
    bitsAt bytes p n + 1 = 2 ^ n := by
  induction n with
  | zero => rfl
  | succ n ih =>
      rw [bitsAt, bitAt_of_end (by omega), pow_succ]
      omega

/-- A code that starts behind the end of the file. -/
theorem codeAt_of_end {bytes : List UInt8} {m : ℕ} (h : 8 * bytes.length ≤ 13 * m) :
    codeAt bytes m = 8191 := by
  have hbits := bitsAt_of_end h 13
  rw [codeAt]
  omega

/-- A chunk that has more than four bytes less than it announces. -/
theorem not_codesInTable_of_short {bytes : List UInt8} {Size : ℕ}
    (hshort : bytes.length + 4 < Size) (hlen : bytes.length ≤ 12894) :
    ¬ CodesInTable Size bytes := by
  intro h
  -- the first code that starts behind the end of the file
  have hcode : codeAt bytes ((8 * bytes.length + 12) / 13) = 8191 := codeAt_of_end (by omega)
  have hin := h ((8 * bytes.length + 12) / 13) (Or.inr (by unfold codeCount; omega))
  omega

/-- A file with a code outside the table takes the decoder there. -/
theorem comesTo_stuck_of_not_allInTable {file : List UInt8}
    (h : ¬ AllInTable (chunkRecords file)) : ComesTo (main file) .stuck := by
  obtain ⟨o, ho, hends⟩ := comesTo_records file (left_start file)
  cases o with
  | stuck => exact ho
  | running => exact absurd (hends.running.1 rfl).1 h
  | done ms => exact absurd (hends.done.1 ⟨ms, rfl⟩).1 h

end Decoder

namespace App

open FuelLoop Cdc Sha Lzw Decoder FirstSeen

/-! ### The first records of a run -/

/-- The bytes of the first `k` records of a run. -/
def recordBytes (st : AppState) (k : ℕ) : List UInt8 := (st.records.take k).flatMap Record.bytes

section Kernel

variable {lzw_hw_streams : List UInt8 → ℕ → List UInt8} {st : AppState} {signed : Bool}

/-- The first records are those of the first chunks. -/
theorem Reachable.take_records (h : Reachable lzw_hw_streams st)
    (hlen : digests st.chunks < 2 ^ 31) (k : ℕ) :
    st.records.take k
      = (entries SHA_new (st.chunks.take k)).map (recordOf lzw_hw_streams) := by
  rw [(h.deduplicates hlen).records, ← List.map_take, entries_take]

theorem mem_entries_of_take {as : List (List UInt8)} {k : ℕ} {e : Entry (List UInt8)}
    (he : e ∈ entries SHA_new (as.take k)) : e ∈ entries SHA_new as := by
  rw [← entries_take] at he
  exact List.mem_of_mem_take he

/-- The first chunk with the digest of one of the first `k` chunks is one of them. -/
theorem origin_take {as : List (List UInt8)} {k : ℕ} {c : List UInt8} (hc : c ∈ as.take k) :
    origin SHA_new (as.take k) c = origin SHA_new as c := by
  conv_rhs => rw [← List.take_append_drop k as]
  exact (origin_append SHA_new (List.mem_map_of_mem hc) _).symm

/-- What the decoder has written for the first `k` chunks of a run, none of which is compressed to
nothing: it comes to this whatever file begins with their records. -/
theorem Reachable.exits_prefix (h : Reachable lzw_hw_streams st)
    (hkernel : RunsLzw lzw_hw_streams signed) (hlen : digests st.chunks < 2 ^ 31) {k : ℕ}
    {f : List UInt8 → List UInt8}
    (hf : ∀ c, .fresh c ∈ entries SHA_new (st.chunks.take k) → ComesBackAs signed c (f c))
    (rest : List UInt8) :
    ∃ st', (∀ ms, Exits (Decoder.main (recordBytes st k ++ rest)) ms ↔
        Exits (fun fuel => iterate mainBody fuel st') ms) ∧ st'.Input = ⟨rest, false⟩ ∧
      st'.Output = (st.chunks.take k).flatMap fun c => f (origin SHA_new st.chunks c) := by
  have hread : ∀ e ∈ entries SHA_new (st.chunks.take k), Readable lzw_hw_streams f e := by
    intro e he
    refine h.readable hkernel hlen (mem_entries_of_take he) fun c hc => ?_
    subst hc
    exact hf c he
  have hin : (mainStart (recordBytes st k ++ rest)).Input
      = ⟨((entries SHA_new (st.chunks.take k)).map (recordOf lzw_hw_streams)).flatMap Record.bytes
          ++ rest, false⟩ := by
    rw [← h.take_records hlen k]
    rfl
  obtain ⟨st', hrun, hin', hout, _⟩ := exits_records lzw_hw_streams hread rest hin
  refine ⟨st', hrun, hin', ?_⟩
  rw [hout]
  change [] ++ (List.map _ (expand [] _)).flatten = _
  rw [List.nil_append, expand_entries_origin, List.map_map, List.flatMap_def]
  refine congrArg List.flatten (List.map_congr_left fun c hc => ?_)
  rw [Function.comp_apply, origin_take hc, Option.getD_some]

/-- Whatever happens to a file behind its first `k` records, if it is cut off there, or overwritten,
or longer than it was: a decoder that ends on it writes what it would have written for the first `k`
chunks, and something else behind that.  If fewer than four bytes are left behind the records, the
decoder does end, and writes nothing else. -/
theorem damaged_file (h : Reachable lzw_hw_streams st) (hkernel : RunsLzw lzw_hw_streams signed)
    (hlen : digests st.chunks < 2 ^ 31) {k : ℕ}
    (hbytes : ∀ c, .fresh c ∈ entries SHA_new (st.chunks.take k) → ∃ byte ∈ c, byte ≠ 0) :
    ∃ f : List UInt8 → List UInt8,
      (∀ c ∈ st.chunks.take k, ComesBackBy signed f (origin SHA_new st.chunks c)) ∧
      ∀ file', recordBytes st k <+: file' →
        (∀ ms, Exits (Decoder.main file') ms →
          ((st.chunks.take k).flatMap fun c => f (origin SHA_new st.chunks c)) <+: ms.Output) ∧
        (file'.length < (recordBytes st k).length + 4 → ∃ ms, Exits (Decoder.main file') ms ∧
          ms.Output = (st.chunks.take k).flatMap fun c => f (origin SHA_new st.chunks c)) := by
  have hstored : ∀ c, .fresh c ∈ entries SHA_new (st.chunks.take k) →
      c ∈ st.chunks ∧ nonzero c ≠ [] := fun c hc =>
    ⟨List.mem_of_mem_take (mem_of_mem_fresh SHA_new (mem_fresh.2 hc)),
      nonzero_ne_nil_iff.2 (hbytes c hc)⟩
  obtain ⟨f, hf⟩ := h.exists_back signed hstored
  refine ⟨f, fun c hc => ?_, ?_⟩
  · rw [← origin_take hc]
    exact hf _ (fresh_origin_mem SHA_new hc)
  rintro _ ⟨rest, rfl⟩
  obtain ⟨st', hrun, hin, hout⟩ := h.exits_prefix hkernel hlen (fun c hc => (hf c hc).back) rest
  rw [← hout]
  refine ⟨fun ms hms => output_prefix ((hrun ms).1 hms), fun hshort => ?_⟩
  rw [List.length_append] at hshort
  have hend : st'.Input.bytes.length < 4 := by
    rw [hin]
    change rest.length < 4
    omega
  exact ⟨_, (hrun _).2 (comesTo_stop (comesTo_end (Or.inr hend))).exits, rfl⟩

/-! ### The format of the records -/

/-- The bytes of a header, and the header that they make up. -/
theorem headerBytes_headerOf (header : BitVec 32) :
    ∃ b₀ b₁ b₂ b₃, headerBytes header = [b₀, b₁, b₂, b₃] ∧ headerOf b₀ b₁ b₂ b₃ = header :=
  ⟨_, _, _, _, headerBytes_eq header, append_bytes header⟩

/-- A header, as the decoder finds it. -/
theorem chunkRecords_headerBytes (header : BitVec 32) (rest : List UInt8) :
    chunkRecords (headerBytes header ++ rest) =
      if header &&& 1 = 0 then
        if (header >>> 1).toNat = 0 then [(0, rest)]
        else ((header >>> 1).toNat, rest) ::
          chunkRecords (rest.drop ((13 * codeCount (header >>> 1).toNat + 7) / 8))
      else chunkRecords rest := by
  obtain ⟨b₀, b₁, b₂, b₃, hbytes, hheader⟩ := headerBytes_headerOf header
  rw [hbytes]
  simp only [List.cons_append, List.nil_append]
  rw [chunkRecords, hheader]

/-- A record that the decoder reads as it was written: a compressed chunk has the bytes of at least
one code, and as many as it announces. -/
def Record.WellFormed : Record → Prop
  | .compressed count body => count.toNat < 2 ^ 31 ∧ body.length = count.toNat ∧
      ∃ n, 1 ≤ n ∧ count.toNat = (13 * n + 7) / 8
  | .duplicate index => index.toNat < 2 ^ 31

/-- The decoder comes to what is behind a record. -/
theorem mem_chunkRecords_record {r : Record} (hr : r.WellFormed) {rest : List UInt8}
    {c : ℕ × List UInt8} (hc : c ∈ chunkRecords rest) : c ∈ chunkRecords (r.bytes ++ rest) := by
  cases r with
  | compressed count body =>
      obtain ⟨hlt, hbody, n, hn, hcount⟩ := hr
      obtain ⟨hbit, hsize⟩ := compressed_header hlt
      have hcodes := codeCount_packed hn hcount
      rw [Record.bytes, List.append_assoc, chunkRecords_headerBytes, if_pos hbit, hsize,
        if_neg (by omega), hcodes, ← hcount, ← hbody, List.drop_left]
      exact List.mem_cons_of_mem _ hc
  | duplicate index =>
      rw [Record.bytes, chunkRecords_headerBytes, if_neg (duplicate_header hr).1]
      exact hc

theorem mem_chunkRecords_records {rs : List Record} (hrs : ∀ r ∈ rs, r.WellFormed)
    {rest : List UInt8} {c : ℕ × List UInt8} (hc : c ∈ chunkRecords rest) :
    c ∈ chunkRecords (rs.flatMap Record.bytes ++ rest) := by
  induction rs with
  | nil => exact hc
  | cons r rs ih =>
      rw [List.flatMap_cons, List.append_assoc]
      exact mem_chunkRecords_record (hrs r List.mem_cons_self)
        (ih fun r' hr' => hrs r' (List.mem_cons_of_mem _ hr'))

/-- The compressed chunks of a run are as long as they announce. -/
theorem Reachable.compressed_length (h : Reachable lzw_hw_streams st)
    (hkernel : RunsLzw lzw_hw_streams signed) (hlen : digests st.chunks < 2 ^ 31)
    {count : BitVec 32} {body : List UInt8} (hmem : .compressed count body ∈ st.records) :
    count.toNat < 2 ^ 31 ∧ body.length = count.toNat := by
  rw [(h.deduplicates hlen).records] at hmem
  obtain ⟨e, he, hrec⟩ := List.mem_map.1 hmem
  cases e with
  | fresh c =>
      obtain ⟨xs, _, hlt, hxs⟩ := h.recordOf_fresh hkernel
        (mem_of_mem_fresh SHA_new (mem_fresh.2 he))
      rw [hxs, Record.compressed.injEq] at hrec
      obtain ⟨rfl, rfl⟩ := hrec
      rw [toNat_ofNat_of_lt hlt]
      exact ⟨hlt, rfl⟩
  | again n => simp [recordOf] at hrec

/-- The record of a chunk of a run that is not all zero: its codes, packed. -/
theorem Reachable.packs_of_fresh (h : Reachable lzw_hw_streams st)
    (hkernel : RunsLzw lzw_hw_streams signed) {c : List UInt8} (hmem : c ∈ st.chunks)
    (hne : nonzero c ≠ []) :
    ∃ codes state xs, Packs codes state xs ∧
      codes.map low13 = (codesOf (nonzero c)).map (· % 8192) ∧ xs.length < 2 ^ 31 ∧
      recordOf lzw_hw_streams (.fresh c) = .compressed (BitVec.ofNat 32 xs.length) xs := by
  obtain ⟨_, hsize, _⟩ := h.chunk_length c hmem
  obtain ⟨xs, hxs, hlt, hrec⟩ := h.recordOf_fresh hkernel hmem
  obtain ⟨st', hfin⟩ := lzwFinish_spec signed hsize hne
  obtain ⟨hrun, hpacks, hlow⟩ := hfin.packed
  obtain rfl : xs = st'.output := Option.some_inj.1 (hxs.symm.trans hrun)
  exact ⟨_, _, _, hpacks, hlow, hlt, hrec⟩

/-- They are as many as can stand for the nonzero bytes. -/
theorem Reachable.codes_of_fresh (h : Reachable lzw_hw_streams st)
    (hkernel : RunsLzw lzw_hw_streams signed) {c : List UInt8} (hmem : c ∈ st.chunks)
    (hne : nonzero c ≠ []) :
    ∃ k xs, 2 * (nonzero c).length ≤ k * (k + 1) ∧ xs.length = (13 * k + 7) / 8 ∧
      xs.length < 2 ^ 31 ∧
      recordOf lzw_hw_streams (.fresh c) = .compressed (BitVec.ofNat 32 xs.length) xs := by
  obtain ⟨codes, state, xs, hpacks, hlow, hlt, hrec⟩ := h.packs_of_fresh hkernel hmem hne
  have hcodes := congrArg List.length hlow
  simp only [List.length_map, length_codesOf] at hcodes
  refine ⟨(phrases (nonzero c)).length, xs, (factors_phrases hne).two_mul_length_le, ?_, hlt, hrec⟩
  rw [hpacks.length_eq, hcodes]

/-- The records of a run, except those of chunks that are all zero. -/
theorem Reachable.wellFormed (h : Reachable lzw_hw_streams st)
    (hkernel : RunsLzw lzw_hw_streams signed) (hlen : digests st.chunks < 2 ^ 31)
    {e : Entry (List UInt8)} (he : e ∈ entries SHA_new st.chunks)
    (hne : ∀ c, e = .fresh c → nonzero c ≠ []) : (recordOf lzw_hw_streams e).WellFormed := by
  cases e with
  | fresh c =>
      have hmem := mem_of_mem_fresh SHA_new (mem_fresh.2 he)
      have hpos := List.length_pos_of_ne_nil (hne c rfl)
      obtain ⟨k, xs, hk, hsize, hlt, hrec⟩ := h.codes_of_fresh hkernel hmem (hne c rfl)
      have hval := toNat_ofNat_of_lt hlt
      refine hrec ▸ ⟨lt_of_eq_of_lt hval hlt, hval.symm, k, ?_, hval.trans hsize⟩
      by_contra hzero
      obtain rfl : k = 0 := by omega
      omega
  | again n =>
      obtain ⟨i, hi⟩ := List.mem_iff_getElem?.1 he
      have hn := ((h.deduplicates hlen).again_lt hlen hi).2.2
      change (BitVec.ofNat 32 n).toNat < 2 ^ 31
      rwa [toNat_ofNat_of_lt hn]

theorem Reachable.wellFormed_take (h : Reachable lzw_hw_streams st)
    (hkernel : RunsLzw lzw_hw_streams signed) (hlen : digests st.chunks < 2 ^ 31) {k : ℕ}
    (hbytes : ∀ c, .fresh c ∈ entries SHA_new (st.chunks.take k) → ∃ byte ∈ c, byte ≠ 0) :
    ∀ r ∈ st.records.take k, r.WellFormed := by
  intro r hr
  rw [h.take_records hlen] at hr
  obtain ⟨e, he, rfl⟩ := List.mem_map.1 hr
  refine h.wellFormed hkernel hlen (mem_entries_of_take he) fun c hc => ?_
  subst hc
  exact nonzero_ne_nil_iff.2 (hbytes c he)

/-! ### Cuts inside a chunk -/

theorem exists_record {k : ℕ} (h : (recordBytes st k).length < (recordBytes st (k + 1)).length) :
    ∃ r, st.records[k]? = some r := by
  rcases Nat.lt_or_ge k st.records.length with hlt | hge
  · exact ⟨_, List.getElem?_eq_getElem hlt⟩
  · rw [recordBytes, recordBytes, List.take_of_length_le hge,
      List.take_of_length_le (by omega)] at h
    exact absurd h (lt_irrefl _)

theorem recordBytes_succ {k : ℕ} {r : Record} (hr : st.records[k]? = some r) :
    recordBytes st (k + 1) = recordBytes st k ++ r.bytes := by
  rw [recordBytes, List.take_add_one, hr]
  simp [recordBytes]

/-- The file up to somewhere inside the record `k`. -/
theorem Deduplicates.take_file (h : Deduplicates lzw_hw_streams st) {k n : ℕ} {r : Record}
    (hr : st.records[k]? = some r) (hlo : (recordBytes st k).length ≤ n)
    (hhi : n ≤ (recordBytes st (k + 1)).length) :
    st.file.take n = recordBytes st k ++ r.bytes.take (n - (recordBytes st k).length) := by
  have hfile : st.file
      = recordBytes st (k + 1) ++ (st.records.drop (k + 1)).flatMap Record.bytes := by
    rw [h.file, recordBytes, ← List.flatMap_append, List.take_append_drop]
  rw [hfile, List.take_append_of_le_length hhi, recordBytes_succ hr, List.take_append,
    List.take_of_length_le hlo]

/-- A file that is cut inside a compressed chunk, at least a header behind the records before it and
more than four bytes before its end, takes the decoder out of its table.  (If more than 12894 bytes
of the chunk are left, 8191 may be an entry.) -/
theorem cut_inside_chunk (h : Reachable lzw_hw_streams st)
    (hkernel : RunsLzw lzw_hw_streams signed) (hlen : digests st.chunks < 2 ^ 31) {k n : ℕ}
    (hbytes : ∀ c, .fresh c ∈ entries SHA_new (st.chunks.take k) → ∃ byte ∈ c, byte ≠ 0)
    (hlo : (recordBytes st k).length + 4 ≤ n) (hhi : n + 4 < (recordBytes st (k + 1)).length)
    (hleft : n ≤ (recordBytes st k).length + 4 + 12894) :
    ComesTo (Decoder.main (st.file.take n)) .stuck := by
  obtain ⟨r, hr⟩ := exists_record (lt_of_le_of_lt (Nat.le_of_add_right_le hlo) (by omega : n < _))
  have hsucc := congrArg List.length (recordBytes_succ hr)
  rw [List.length_append] at hsucc
  rw [(h.deduplicates hlen).take_file hr (by omega) (by omega)]
  have hwell := h.wellFormed_take hkernel hlen hbytes
  cases r with
  | duplicate index =>
      -- a number is a header and nothing else
      rw [Record.bytes, length_headerBytes] at hsucc
      omega
  | compressed count body =>
      obtain ⟨hlt, hbody⟩ := h.compressed_length hkernel hlen (List.mem_of_getElem? hr)
      obtain ⟨hbit, hsize⟩ := compressed_header hlt
      rw [Record.bytes, List.length_append, length_headerBytes] at hsucc
      have hshort : ¬ CodesInTable count.toNat (body.take (n - (recordBytes st k).length - 4)) := by
        refine not_codesInTable_of_short ?_ ?_ <;> rw [List.length_take] <;> omega
      refine comesTo_stuck_of_not_allInTable fun hall =>
        hshort (hall (_, _) (mem_chunkRecords_records hwell ?_))
      rw [Record.bytes, List.take_append, length_headerBytes, List.take_of_length_le
        (by rw [length_headerBytes]; omega), chunkRecords_headerBytes, if_pos hbit, hsize,
        if_neg (by omega)]
      exact List.mem_cons_self

end Kernel

/-- Two packets of twelve letters, and any file that begins with the record of the first. -/
theorem damaged_file_twice :
    let st := runPackets (runLzwKernel false) [(fun _ => 7, 12), (fun _ => 7, 12)]
    ∃ f : List UInt8 → List UInt8,
      (∀ c ∈ st.chunks.take 1, ComesBackBy false f (origin SHA_new st.chunks c)) ∧
      ∀ file', recordBytes st 1 <+: file' →
        (∀ ms, Exits (Decoder.main file') ms →
          ((st.chunks.take 1).flatMap fun c => f (origin SHA_new st.chunks c)) <+: ms.Output) ∧
        (file'.length < (recordBytes st 1).length + 4 → ∃ ms, Exits (Decoder.main file') ms ∧
          ms.Output = (st.chunks.take 1).flatMap fun c => f (origin SHA_new st.chunks c)) := by
  refine damaged_file (reachable_runPackets _).1 (runsLzw_runLzwKernel false) ?_ fun c hc => ?_
  · exact lt_of_le_of_lt (digests_le_payloadBytes _ _) (by simp [payloadBytes])
  · exact exists_letter_twice _ (List.mem_of_mem_take (mem_of_mem_fresh SHA_new (mem_fresh.2 hc)))

/-- A packet of twelve letters: its record has 13 bytes, and is cut in the middle of its codes. -/
theorem cut_inside_chunk_letters :
    ComesTo (Decoder.main
      ((runPackets (runLzwKernel false) [(fun _ => 7, 12)]).file.take 8)) .stuck := by
  have h : Reachable (runLzwKernel false) (runPackets _ [(fun _ => 7, 12)]) :=
    (reachable_runPackets _).1
  have hkernel := runsLzw_runLzwKernel false
  have hlen := digests_window (runLzwKernel false) fun _ => 7
  have hchunks := runPackets_window_chunks (runLzwKernel false) fun _ => 7
  have hmem : slice (fun _ => 7) 0 12 ++ [0]
      ∈ (runPackets (runLzwKernel false) [(fun _ => 7, 12)]).chunks := by
    rw [hchunks]
    exact List.mem_singleton_self _
  obtain ⟨k, xs, hk, hsize, _, hrec⟩ := h.codes_of_fresh hkernel hmem (by decide)
  have hnonzero : (nonzero (slice (fun _ => 7) 0 12 ++ [0])).length = 12 := by decide
  -- four codes stand for ten letters at the most
  have hfive : 5 ≤ k := by
    by_contra hlt
    have hmono : k * (k + 1) ≤ 4 * 5 := Nat.mul_le_mul (by omega) (by omega)
    omega
  have hrecord : (runPackets (runLzwKernel false) [(fun _ => 7, 12)]).records[0]?
      = some (.compressed (BitVec.ofNat 32 xs.length) xs) := by
    rw [(h.deduplicates hlen).records, hchunks, ← hrec]
    rfl
  refine cut_inside_chunk h hkernel hlen (k := 0) (n := 8) (fun c hc => ?_) (by decide) ?_
    (by decide)
  · simp at hc
  · rw [recordBytes_succ hrecord, List.length_append, Record.bytes, List.length_append,
      length_headerBytes]
    omega

end App

end DedupLzw
