/-
**What a file stands for.**

The decoder reads bits, counts them in a `size_t`, stops when a quotient of the counter is large
enough and finds the end of its file by running into it.  What comes out can be said without all
this: the bytes of a file are a sequence of records, a record is the number of an earlier chunk or
a sequence of 13-bit codes, and the codes stand for a string by the rules of the dictionary code
alone.

A file whose records can all be read stands for the concatenation of their strings, and any other
file for nothing.  The decoder computes just this, on every file, those included that no encoder
has written.  Only the first code of a chunk is read in another way than the others: it is taken for
its low byte, which is noticed where the chunk has no second code.

Main definitions:

* `DedupLzw.Decoder.Item`, `items` — the records of a file;
* `DedupLzw.Decoder.chunkString` — the string that the codes of a chunk stand for;
* `DedupLzw.Decoder.text` — what a sequence of records stands for.

Main results:

* `DedupLzw.Decoder.exists_chunkString_iff` — the chunks that can be read;
* `DedupLzw.Decoder.Decompress_string` — `Decompress` returns the string of its codes;
* `DedupLzw.Decoder.main_writes_iff` — **the decoder writes what its file stands for**;
* `DedupLzw.App.items_file` — **the file of a run stands for its records**.
-/

import DedupLzw.Damage

set_option relaxedAutoImplicit false
set_option autoImplicit false

namespace DedupLzw

namespace Decoder

open FuelLoop Welch

/-! ### Records and their strings -/

/-- What a record tells the decoder. -/
inductive Item where
  /-- A chunk with these codes. -/
  | chunk (codes : List ℕ)
  /-- The number of an earlier chunk. -/
  | reference (Location : ℕ)
deriving DecidableEq, Repr

/-- The first `n` codes of a string of bytes. -/
def codesAt (bytes : List UInt8) (n : ℕ) : List ℕ := (List.range n).map (codeAt bytes)

/-- The records of a file.  A chunk of size 0 has no codes and nothing behind it, and less than a
header at the end of the file is ignored. -/
def items : List UInt8 → List Item
  | b₀ :: b₁ :: b₂ :: b₃ :: bytes =>
      if headerOf b₀ b₁ b₂ b₃ &&& 1 = 0 then
        if (headerOf b₀ b₁ b₂ b₃ >>> 1).toNat = 0 then [.chunk []]
        else .chunk (codesAt bytes (codeCount (headerOf b₀ b₁ b₂ b₃ >>> 1).toNat)) :: items
          (bytes.drop ((13 * codeCount (headerOf b₀ b₁ b₂ b₃ >>> 1).toNat + 7) / 8))
      else .reference (headerOf b₀ b₁ b₂ b₃ >>> 1).toNat :: items bytes
  | _ => []
termination_by file => file.length
decreasing_by
  · simp only [List.length_drop, List.length_cons]
    omega
  · simp only [List.length_cons]
    omega

/-- The string of a chunk with these codes.  If there is only one, it is taken for its low byte. -/
def chunkString : List ℕ → Option (List UInt8)
  | [c] => some (charString c)
  | cs => (decode alphabet cs).map Dec.out

/-- What a sequence of records stands for when it comes behind the chunks `Chunks`. -/
def text : List (List UInt8) → List Item → Option (List UInt8)
  | _, [] => some []
  | Chunks, .chunk codes :: rest =>
      (chunkString codes).bind fun Chunk => (text (Chunks ++ [Chunk]) rest).map (Chunk ++ ·)
  | Chunks, .reference Location :: rest =>
      (text Chunks rest).map (Chunks.getD Location [] ++ ·)

/-- Three equal letters, and a record that repeats them. -/
example : text [] [.chunk [97, 256], .reference 0] = some [97, 97, 97, 97, 97, 97] := by
  decide +kernel

/-! ### The codes of a chunk -/

theorem codesAt_succ (bytes : List UInt8) (n : ℕ) :
    codesAt bytes (n + 1) = codesAt bytes n ++ [codeAt bytes n] := by
  rw [codesAt, List.range_succ, List.map_append]
  rfl

theorem codesAt_cons (bytes : List UInt8) (n : ℕ) :
    codesAt bytes (n + 1)
      = codeAt bytes 0 :: (List.range n).map fun m => codeAt bytes (m + 1) := by
  rw [codesAt, List.range_succ_eq_map, List.map_cons, List.map_map]
  rfl

theorem codesAt_ne_nil (bytes : List UInt8) (n : ℕ) : codesAt bytes (n + 1) ≠ [] := by
  rw [codesAt_cons]
  exact List.cons_ne_nil _ _

theorem getElem?_codesAt {bytes : List UInt8} {m n : ℕ} (h : m < n) :
    (codesAt bytes n)[m]? = some (codeAt bytes m) := by
  rw [codesAt, List.getElem?_map, List.getElem?_range h]
  rfl

theorem chunkString_of_two (bytes : List UInt8) (n : ℕ) :
    chunkString (codesAt bytes (n + 2))
      = (decode alphabet (codesAt bytes (n + 2))).map Dec.out := by
  rw [codesAt_cons, List.range_succ_eq_map]
  rfl

/-- A chunk of a size of at least 1 can be read when its codes are entries of the table when they
are needed. -/
theorem exists_chunkString_iff {Size : ℕ} (hpos : Size ≠ 0) (bytes : List UInt8) :
    (∃ out, chunkString (codesAt bytes (codeCount Size)) = some out) ↔ CodesInTable Size bytes := by
  have hgoes : CodesInTable Size bytes ↔
      ∀ m, m + 1 < codeCount Size → codeAt bytes m < 256 + m := by
    simp only [CodesInTable, GoesOn, hpos, false_or]
  obtain ⟨n, hn⟩ : ∃ n, codeCount Size = n + 1 := ⟨codeCount Size - 1, by unfold codeCount; omega⟩
  rw [hgoes, hn]
  cases n with
  | zero => exact iff_of_true ⟨_, rfl⟩ fun m hm => by omega
  | succ n =>
      have hdecode := @exists_decode_iff _ alphabet (codeAt bytes 0)
        ((List.range (n + 1)).map fun m => codeAt bytes (m + 1))
      rw [← codesAt_cons, List.length_map, List.length_range, length_alphabet] at hdecode
      have hmap : (∃ out, chunkString (codesAt bytes (n + 2)) = some out) ↔
          ∃ d, decode alphabet (codesAt bytes (n + 2)) = some d := by
        rw [chunkString_of_two]
        cases decode alphabet (codesAt bytes (n + 2)) <;> simp
      rw [hmap, hdecode]
      refine forall_congr' fun m => ⟨fun h hm => ?_, fun h hm e he => ?_⟩
      · exact h (by omega) _ (getElem?_codesAt (by omega))
      · rw [getElem?_codesAt (by omega)] at he
        rw [← Option.some_inj.1 he]
        exact h (by omega)

/-! ### The rounds of a call -/

/-- A first round and those that follow it. -/
theorem RoundsTo.head {Size n : ℕ} {s t u : DecompressState}
    (htest : loopTest Size s.reader.Input_position = true) (hround : decompressRound s = .done t)
    (h : RoundsTo Size t n u) : RoundsTo Size s (n + 1) u := by
  induction h with
  | zero => exact RoundsTo.zero.succ htest hround
  | succ _ htest' hround' ih => exact ih.succ htest' hround'

/-- The loop of a call ends in a state that it reaches and in which the test fails. -/
theorem rounds_of_done {Size : ℕ} : ∀ n s t, iterate (fun _ => decompressBody Size) n s = .done t →
    ∃ k, RoundsTo Size s k t ∧ loopTest Size t.reader.Input_position = false := by
  refine iterate_done_induction ?_ ?_
  · intro _ s t hbody
    unfold decompressBody at hbody
    split at hbody
    · obtain ⟨u, _, hu⟩ := Outcome.andThen_eq_done.1 hbody
      simp at hu
    · next htest =>
        obtain rfl : s = t := Next.stop.inj (Outcome.done.inj hbody)
        exact ⟨0, RoundsTo.zero, Bool.eq_false_of_not_eq_true htest⟩
  · intro _ s s' t hbody hrest
    unfold decompressBody at hbody
    split at hbody
    · next htest =>
        obtain ⟨u, hround, hu⟩ := Outcome.andThen_eq_done.1 hbody
        obtain rfl : u = s' := Next.again.inj (Outcome.done.inj hu)
        obtain ⟨k, hrounds, hend⟩ := hrest
        exact ⟨k + 1, hrounds.head htest hround, hend⟩
    · simp at hbody

section Call

variable {bytes : List UInt8} {r r' : Reader} {Size n : ℕ} {t : DecompressState}

/-- The codes with another one behind them were entries of the table. -/
theorem RoundsTo.codes_lt (hr : r.Input = ⟨bytes, false⟩)
    (h : RoundsTo Size (decompressStart r) n t) : ∀ m < n, codeAt bytes m < 256 + m := by
  induction h with
  | zero => exact fun m hm => absurd hm (Nat.not_lt_zero m)
  | @succ n t u ht _ hround ih =>
      intro m hm
      rcases Nat.lt_succ_iff_lt_or_eq.1 hm with hlt | rfl
      · exact ih m hlt
      · have hlt := lt_of_decompressRound hround
        rwa [(ht.afterCodes hr).old, (ht.afterCodes hr).size] at hlt

/-- After the codes 0 to `n` the loop is where the abstract decoder is after them. -/
theorem RoundsTo.decode (hr : r.Input = ⟨bytes, false⟩)
    (h : RoundsTo Size (decompressStart r) n t) (hletter : codeAt bytes 0 < 256)
    (hn : 256 + n < 2 ^ 31) :
    ∃ d, Welch.decode alphabet (codesAt bytes (n + 1)) = some d ∧ t = stateOf t.reader d := by
  induction h with
  | zero =>
      obtain ⟨hcode, _⟩ := Read_code_atBit (m := 0) (atBit_start hr)
      exact ⟨Dec.start alphabet (codeAt bytes 0), rfl,
        decompressStart_eq (Prod.ext hcode rfl) hletter⟩
  | @succ n t u ht _ hround ih =>
      obtain ⟨d, hd, ht'⟩ := ih (by omega)
      obtain ⟨hcode, _⟩ := Read_code_atBit (ht.afterCodes hr).reader
      have hold : d.old < d.table.length := by
        have hlt := lt_of_decompressRound hround
        rwa [ht'] at hlt
      obtain ⟨d', hstep⟩ : ∃ d', d.step (codeAt bytes (n + 1)) = some d' := by
        rw [Dec.step, List.getElem?_eq_getElem hold]
        exact ⟨_, rfl⟩
      have hfull : d.Full ∧ d.table.length = 256 + n := by
        rw [codesAt_cons] at hd
        simpa using full_decode (by simpa using hletter) hd
      have hnext := decompressRound_eq hfull.1 (by omega) (Prod.ext hcode rfl) hstep
      rw [← ht', hround, Outcome.done.injEq] at hnext
      refine ⟨d', ?_, by rw [hnext]; rfl⟩
      rw [codesAt_succ, decode_concat (codesAt_ne_nil bytes n), hd, Option.bind_some, hstep]

/-- A call that returns, returns the string of its codes. -/
theorem Decompress_string {fuel : ℕ} {out : List UInt8} (hr : r.Input = ⟨bytes, false⟩)
    (hSize : Size < 2 ^ 31) (h : Decompress Size r fuel = .done (out, r')) :
    chunkString (codesAt bytes (codeCount Size)) = some out := by
  have hpos : Size ≠ 0 := by
    rintro rfl
    exact Decompress_zero _ _ _ h
  obtain ⟨t, hloop, hret⟩ := Outcome.andThen_eq_done.1 h
  obtain ⟨rfl, _⟩ := Prod.mk.inj (Outcome.done.inj hret)
  obtain ⟨n, hrounds, hend⟩ := rounds_of_done fuel _ t hloop
  have hle := hrounds.le_codeCount hr hSize hpos
  have hcount : codeCount Size = n + 1 := by
    rw [(hrounds.afterCodes hr).reader.position, ← Bool.not_eq_true,
      loopTest_goesOn hSize fun _ => hle] at hend
    unfold GoesOn at hend
    omega
  rw [hcount]
  cases n with
  | zero =>
      -- one code, and no round
      cases hrounds
      rw [codesAt_cons]
      obtain ⟨hcode, _⟩ := Read_code_atBit (m := 0) (atBit_start hr)
      exact congrArg (fun c => some (charString c)) hcode.symm
  | succ n =>
      have hsmall : 256 + (n + 1) < 2 ^ 31 := by
        unfold codeCount at hcount
        omega
      obtain ⟨d, hd, ht⟩ := hrounds.decode hr (hrounds.codes_lt hr 0 (by omega)) hsmall
      rw [chunkString_of_two, hd, ht]
      rfl

end Call

/-! ### The main loop -/

/-- The main loop ends from `st`, and has written `out` by then. -/
def Writes (st : MainState) (out : List UInt8) : Prop :=
  ∃ ms, Exits (fun fuel => iterate mainBody fuel st) ms ∧ ms.Output = st.Output ++ out

/-- One iteration. -/
theorem writes_step {st st' : MainState} {written : List UInt8} (hstep : Iterates st st')
    (hout : st'.Output = st.Output ++ written) (out : List UInt8) :
    Writes st out ↔ ∃ out', Writes st' out' ∧ written ++ out' = out := by
  constructor
  · rintro ⟨ms, hexit, hms⟩
    have hexit' := (exits_again_iff hstep).1 hexit
    obtain ⟨out', hout'⟩ := output_prefix hexit'
    refine ⟨out', ⟨ms, hexit', hout'.symm⟩, ?_⟩
    rw [hms, hout, List.append_assoc] at hout'
    exact List.append_cancel_left hout'
  · rintro ⟨out', ⟨ms, hexit, hms⟩, rfl⟩
    exact ⟨ms, (exits_again_iff hstep).2 hexit, by rw [hms, hout, List.append_assoc]⟩

/-- The iteration that reads a chunk whose codes are entries of the table. -/
theorem iterates_chunk {st : MainState} {b₀ b₁ b₂ b₃ : UInt8} {bytes : List UInt8}
    (hin : st.Input = ⟨b₀ :: b₁ :: b₂ :: b₃ :: bytes, false⟩)
    (heven : headerOf b₀ b₁ b₂ b₃ &&& 1 = 0) (hpos : (headerOf b₀ b₁ b₂ b₃ >>> 1).toNat ≠ 0)
    (hcodes : CodesInTable (headerOf b₀ b₁ b₂ b₃ >>> 1).toNat bytes) :
    ∃ st' Chunk, Iterates st st' ∧ st'.Chunks = st.Chunks ++ [Chunk] ∧
      st'.Output = st.Output ++ Chunk ∧
      chunkString (codesAt bytes (codeCount (headerOf b₀ b₁ b₂ b₃ >>> 1).toNat)) = some Chunk ∧
      Left (bytes.drop ((13 * codeCount (headerOf b₀ b₁ b₂ b₃ >>> 1).toNat + 7) / 8)) st' := by
  obtain ⟨st', hst', hrest, hend⟩ := comesTo_chunk hin heven hpos hcodes
  have hiterates : Iterates st st' := hst'.exits
  obtain ⟨n, hn⟩ := hiterates
  have hbody : mainBody n st = .done (.again st') := hn n le_rfl
  rw [mainBody_chunk hin heven, Outcome.andThen_eq_done] at hbody
  obtain ⟨⟨Chunk, r⟩, hcall, hagain⟩ := hbody
  obtain rfl := Next.again.inj (Outcome.done.inj hagain)
  exact ⟨_, Chunk, hst'.exits, rfl, rfl, Decompress_string rfl (size_lt _) hcall, hrest,
    fun heof => hrest ▸ hend heof⟩

/-- The iteration that looks up an earlier chunk. -/
theorem iterates_reference {st : MainState} {b₀ b₁ b₂ b₃ : UInt8} {bytes : List UInt8}
    (hin : st.Input = ⟨b₀ :: b₁ :: b₂ :: b₃ :: bytes, false⟩)
    (hodd : headerOf b₀ b₁ b₂ b₃ &&& 1 ≠ 0) :
    ∃ st', Iterates st st' ∧ st'.Chunks = st.Chunks ∧
      st'.Output = st.Output ++ st.Chunks.getD (headerOf b₀ b₁ b₂ b₃ >>> 1).toNat [] ∧
      Left bytes st' := by
  refine ⟨{ st with
    Input := ⟨bytes, false⟩
    Output := st.Output ++ st.Chunks.getD (headerOf b₀ b₁ b₂ b₃ >>> 1).toNat []
    events := st.events ++ [.reference (headerOf b₀ b₁ b₂ b₃ >>> 1).toNat bytes.length] },
    ⟨0, fun n _ => ?_⟩, rfl, rfl, left_of_input rfl⟩
  simp only [mainBody, readHeader_cons hin, hodd, Bool.false_eq_true, if_false]

/-- The main loop writes what the records that are left stand for. -/
theorem text_items_iff (file : List UInt8) {st : MainState} (h : Left file st)
    (out : List UInt8) : text st.Chunks (items file) = some out ↔ Writes st out := by
  fun_induction items file generalizing st out with
  | case1 b₀ b₁ b₂ b₃ bytes heven hzero =>
      -- a chunk of size 0 has no string, and the loop does not get past it
      refine iff_of_false (by simp [text, chunkString, decode]) ?_
      rintro ⟨ms, ⟨n, hn⟩, _⟩
      refine iterate_ne_done_of_body (fun k next hbody => ?_) n ms (hn n le_rfl)
      rw [mainBody_chunk (h.input (by simp)) heven, hzero, Outcome.andThen_eq_done] at hbody
      obtain ⟨res, hres, _⟩ := hbody
      exact Decompress_zero _ _ _ hres
  | case2 b₀ b₁ b₂ b₃ bytes heven hpos ih =>
      have hin := h.input (by simp)
      by_cases hcodes : CodesInTable (headerOf b₀ b₁ b₂ b₃ >>> 1).toNat bytes
      · obtain ⟨st', Chunk, hstep, hchunks, hout, hstring, hleft⟩ :=
          iterates_chunk hin heven hpos hcodes
        rw [text, hstring, Option.bind_some, ← hchunks, Option.map_eq_some_iff,
          writes_step hstep hout]
        exact exists_congr fun out' => and_congr_left fun _ => ih hleft out'
      · have hnone : chunkString
            (codesAt bytes (codeCount (headerOf b₀ b₁ b₂ b₃ >>> 1).toNat)) = none := by
          rw [Option.eq_none_iff_forall_ne_some]
          exact fun out hstring => hcodes ((exists_chunkString_iff hpos bytes).1 ⟨out, hstring⟩)
        refine iff_of_false (by rw [text, hnone]; exact Option.some_ne_none out ∘ Eq.symm) ?_
        rintro ⟨ms, hexit, _⟩
        have hstuck := (comesTo_body_stuck (comesTo_outside hin heven hcodes)).eq_done hexit
        exact absurd hstuck (by simp)
  | case3 b₀ b₁ b₂ b₃ bytes hodd ih =>
      obtain ⟨st', hstep, hchunks, hout, hleft⟩ := iterates_reference (h.input (by simp)) hodd
      rw [text, ← hchunks, Option.map_eq_some_iff, writes_step hstep (hchunks ▸ hout)]
      exact exists_congr fun out' => and_congr_left fun _ => ih hleft out'
  | case4 file hshort =>
      have hend := (comesTo_stop (comesTo_end (h.short hshort))).exits
      rw [text, Option.some_inj]
      constructor
      · rintro rfl
        exact ⟨_, hend, (List.append_nil _).symm⟩
      · rintro ⟨ms, hexit, hms⟩
        rw [hexit.unique hend] at hms
        exact (List.self_eq_append_right.1 hms).symm

/-- On every file the decoder ends with `out` written exactly when `out` is what the records of the
file stand for. -/
theorem main_writes_iff (file out : List UInt8) :
    (∃ ms, Exits (main file) ms ∧ ms.Output = out) ↔ text [] (items file) = some out :=
  (text_items_iff file (left_start file) out).symm

end Decoder

namespace App

open Cdc Sha Lzw Decoder FirstSeen

/-! ### The records of a run -/

theorem at_atBit {xs rest : List UInt8} {p : ℕ} {r : Reader} (h : At xs rest p r)
    (hp : p ≤ 8 * xs.length) : AtBit (xs ++ rest) p r where
  position := h.position
  rest := by rw [h.bytes, List.drop_append_of_le_length (by omega)]
  eof := by
    rw [h.eof, eq_comm, decide_eq_false_iff_not, List.length_append]
    omega
  byte hmod := by
    have hbyte := h.byte hmod
    have hlt := (List.getElem?_eq_some_iff.1 hbyte).1
    rw [List.getD_eq_getElem?_getD, List.getElem?_append_left hlt, hbyte, Option.getD_some]

/-- The codes that have been packed into a string of bytes. -/
theorem codesAt_packed {codes : List (BitVec 32)} {state : UInt8} {xs : List UInt8}
    (h : Packs codes state xs) (rest : List UInt8) :
    codesAt (xs ++ rest) codes.length = codes.map low13 := by
  have hlen := h.length_eq
  refine List.ext_getElem (by simp [codesAt]) fun m hm _ => ?_
  have hlt : m < codes.length := by simpa [codesAt] using hm
  have hget : (codesAt (xs ++ rest) codes.length)[m] = codeAt (xs ++ rest) m :=
    Option.some_inj.1 ((List.getElem?_eq_getElem hm).symm.trans (getElem?_codesAt hlt))
  -- a reader that stands before the code reads it both ways
  obtain ⟨_, hat⟩ := read_codes_packed h rest 0 m hlt.le
  rw [hget, List.getElem_map, ← (read_code_packed h hlt hat).1,
    (Read_code_atBit (at_atBit hat (by omega))).1]

theorem phrases_ne_nil {w : List UInt8} (hw : w ≠ []) : phrases w ≠ [] := by
  intro hnil
  have hflat := (factors_phrases hw).flatten
  rw [hnil] at hflat
  exact hw hflat.symm

/-- A header, as the decoder finds it. -/
theorem items_headerBytes (header : BitVec 32) (rest : List UInt8) :
    items (headerBytes header ++ rest) =
      if header &&& 1 = 0 then
        if (header >>> 1).toNat = 0 then [.chunk []]
        else .chunk (codesAt rest (codeCount (header >>> 1).toNat)) ::
          items (rest.drop ((13 * codeCount (header >>> 1).toNat + 7) / 8))
      else .reference (header >>> 1).toNat :: items rest := by
  obtain ⟨b₀, b₁, b₂, b₃, hbytes, hheader⟩ := headerBytes_headerOf header
  rw [hbytes]
  simp only [List.cons_append, List.nil_append]
  rw [items, hheader]

/-- What the record of an entry tells the decoder: the codes of the chunk's nonzero bytes, without
the bits that do not fit, or the number. -/
def itemOf : Entry (List UInt8) → Item
  | .fresh c => .chunk ((codesOf (nonzero c)).map (· % 8192))
  | .again n => .reference n

section Kernel

variable {lzw_hw_streams : List UInt8 → ℕ → List UInt8} {st : AppState} {signed : Bool}

/-- The record of one entry. -/
theorem Reachable.items_record (h : Reachable lzw_hw_streams st)
    (hkernel : RunsLzw lzw_hw_streams signed) (hlen : digests st.chunks < 2 ^ 31)
    {e : Entry (List UInt8)} (he : e ∈ entries SHA_new st.chunks)
    (hne : ∀ c, e = .fresh c → nonzero c ≠ []) (rest : List UInt8) :
    items ((recordOf lzw_hw_streams e).bytes ++ rest) = itemOf e :: items rest := by
  cases e with
  | fresh c =>
      have hmem := mem_of_mem_fresh SHA_new (mem_fresh.2 he)
      obtain ⟨codes, state, xs, hpacks, hlow, hlt, hrec⟩ :=
        h.packs_of_fresh hkernel hmem (hne c rfl)
      have hval := toNat_ofNat_of_lt hlt
      obtain ⟨hbit, hsize⟩ := compressed_header (lt_of_eq_of_lt hval hlt)
      rw [hval] at hsize
      have hcodes := congrArg List.length hlow
      have hlength := hpacks.length_eq
      have hpos := List.length_pos_of_ne_nil (phrases_ne_nil (hne c rfl))
      simp only [List.length_map, length_codesOf] at hcodes
      have hcount := codeCount_packed (n := codes.length) (by omega) hlength
      rw [hrec, Record.bytes, List.append_assoc, items_headerBytes, if_pos hbit, hsize,
        if_neg (by omega), hcount, codesAt_packed hpacks, hlow, ← hlength, List.drop_left]
      rfl
  | again n =>
      obtain ⟨i, hi⟩ := List.mem_iff_getElem?.1 he
      have hn := ((h.deduplicates hlen).again_lt hlen hi).2.2
      have hval := toNat_ofNat_of_lt hn
      obtain ⟨hbit, hindex⟩ := duplicate_header (lt_of_eq_of_lt hval hn)
      rw [recordOf, Record.bytes, items_headerBytes, if_neg hbit, hindex, hval]
      rfl

theorem Reachable.items_records (h : Reachable lzw_hw_streams st)
    (hkernel : RunsLzw lzw_hw_streams signed) (hlen : digests st.chunks < 2 ^ 31)
    {es : List (Entry (List UInt8))} (hes : ∀ e ∈ es, e ∈ entries SHA_new st.chunks)
    (hne : ∀ c, .fresh c ∈ es → nonzero c ≠ []) (rest : List UInt8) :
    items ((es.map (recordOf lzw_hw_streams)).flatMap Record.bytes ++ rest)
      = es.map itemOf ++ items rest := by
  induction es with
  | nil => rfl
  | cons e es ih =>
      rw [List.map_cons, List.flatMap_cons, List.append_assoc,
        h.items_record hkernel hlen (hes e List.mem_cons_self)
          (fun c hc => hne c (hc ▸ List.mem_cons_self)),
        ih (fun e' he' => hes e' (List.mem_cons_of_mem _ he'))
          (fun c hc => hne c (List.mem_cons_of_mem _ hc))]
      rfl

/-- The file of a run is read back as the records that were written: if no chunk that is compressed
is all zero, these are the codes of the new chunks and the numbers of the others. -/
theorem items_file (h : Reachable lzw_hw_streams st) (hkernel : RunsLzw lzw_hw_streams signed)
    (hlen : digests st.chunks < 2 ^ 31)
    (hbytes : ∀ c, .fresh c ∈ entries SHA_new st.chunks → ∃ byte ∈ c, byte ≠ 0) :
    items st.file = (entries SHA_new st.chunks).map itemOf := by
  have hded := h.deduplicates hlen
  have hitems := h.items_records hkernel hlen (fun e he => he)
    (fun c hc => nonzero_ne_nil_iff.2 (hbytes c hc)) []
  rw [List.append_nil, ← hded.records, ← hded.file] at hitems
  rw [hitems, items, List.append_nil]
  rintro b₀ b₁ b₂ b₃ bytes ⟨⟩

end Kernel

/-- Two packets of twelve letters. -/
theorem items_file_twice :
    let st := runPackets (runLzwKernel false) [(fun _ => 7, 12), (fun _ => 7, 12)]
    items st.file = (entries SHA_new st.chunks).map itemOf := by
  refine items_file (reachable_runPackets _).1 (runsLzw_runLzwKernel false) ?_ fun c hc => ?_
  · exact lt_of_le_of_lt (digests_le_payloadBytes _ _) (by simp [payloadBytes])
  · exact exists_letter_twice _ (mem_of_mem_fresh SHA_new (mem_fresh.2 hc))

end App

end DedupLzw
