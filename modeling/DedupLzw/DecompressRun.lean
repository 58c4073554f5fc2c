/-
**Runs of `Decompress`.**

`Decompress` is Welch's decoder (`DedupLzw/Welch.lean`) over the alphabet of bytes, fed by
`Read_code`.  On the bytes of a packed code stream it therefore reads exactly the transmitted
codes and returns what the abstract decoder returns for them.  Called with `Size` 0 its loop test
compares with `SIZE_MAX`, and it never returns.

Main definitions:

* `DedupLzw.alphabet` — the bytes in order, the letters of the code;
* `DedupLzw.Decoder.stateOf` — the state of `Decompress` that stands for an abstract decoder.

Main results:

* `DedupLzw.Decoder.decompressRound_eq` — one round is one step of the abstract decoder;
* `DedupLzw.Decoder.rounds_packed` — the states the loop passes through on a packed stream;
* `DedupLzw.Decoder.exits_Decompress` — **the result on a packed stream**;
* `DedupLzw.Decoder.Decompress_zero` — `Decompress(0)` never returns.
-/

import DedupLzw.Welch
import DedupLzw.CodeStream

set_option relaxedAutoImplicit false
set_option autoImplicit false

namespace DedupLzw

open FuelLoop Welch Lzw

/-! ### The alphabet -/

/-- The bytes, in order. -/
def alphabet : List UInt8 := (List.range 256).map UInt8.ofNat

@[simp] theorem length_alphabet : alphabet.length = 256 := by simp [alphabet]

theorem mem_alphabet (c : UInt8) : c ∈ alphabet := by
  refine List.mem_map.2 ⟨c.toNat, List.mem_range.2 c.toNat_lt, ?_⟩
  simp

theorem nodup_alphabet : alphabet.Nodup := by
  refine List.Nodup.map_on ?_ List.nodup_range
  intro m hm n hn h
  have hm' : m < 256 := List.mem_range.1 hm
  have hn' : n < 256 := List.mem_range.1 hn
  have hval := congrArg UInt8.toNat h
  rwa [UInt8.toNat_ofNat_of_lt' hm', UInt8.toNat_ofNat_of_lt' hn'] at hval

namespace Decoder

theorem charStrings_eq : (List.range 256).map charString = singles alphabet := by
  simp [alphabet, singles, charString]

theorem getD_singles {c : ℕ} (hc : c < 256) : (singles alphabet).getD c [] = charString c := by
  rw [List.getD_eq_getElem _ _ (by simpa using hc)]
  simp [singles, alphabet, charString]

/-! ### One round -/

/-- The state of `Decompress` with the reader `r` that stands for the abstract decoder `d`. -/
def stateOf (r : Reader) (d : Dec UInt8) : DecompressState where
  reader := r
  Code_table := d.table
  Old := d.old
  Symbol := d.sym
  Output := d.out

/-- The first code: a letter. -/
theorem decompressStart_eq {r : Reader} {c : ℕ} {r' : Reader}
    (h : Read_code { r with Input_position := 0 } = (c, r')) (hc : c < 256) :
    decompressStart r = stateOf r' (Dec.start alphabet c) := by
  simp only [decompressStart, h, stateOf, Dec.start, charStrings_eq, getD_singles hc]

/-- One round of the loop is one step of the abstract decoder. -/
theorem decompressRound_eq {d d' : Dec UInt8} (hfull : d.Full) (hlen : d.table.length < 2 ^ 31)
    {r r' : Reader} {c : ℕ} (hread : Read_code r = (c, r')) (hstep : d.step c = some d') :
    decompressRound (stateOf r d) = .done (stateOf r' d') := by
  obtain ⟨hfull', _⟩ := hfull.step hstep
  rw [Dec.step] at hstep
  obtain ⟨prev, hprev, rfl⟩ := Option.map_eq_some_iff.1 hstep
  have hint : toInt d.table.length = d.table.length := by
    rw [toInt, BitVec.toInt_ofNat', Int.bmod_eq_of_le] <;> omega
  generalize hphrase :
    (if c < d.table.length then d.table.getD c [] else prev ++ d.sym) = phrase at hfull' ⊢
  -- the source tests for the codes past the table first
  have hselect : (if (c : ℤ) ≥ toInt d.table.length then some (prev ++ d.sym) else d.table[c]?)
      = some phrase := by
    rw [hint, ← hphrase]
    by_cases hc : c < d.table.length
    · rw [if_neg (by omega), if_pos hc, List.getD_eq_getElem _ _ hc, List.getElem?_eq_getElem hc]
    · rw [if_pos (by omega), if_neg hc]
  have hhead : [phrase.headD 0] = phrase.take 1 := by
    cases phrase with
    | nil => exact absurd rfl hfull'.sym_ne
    | cons a t => rfl
  simp only [decompressRound, stateOf, hread, hprev, hselect, hhead]

/-! ### The rounds on a packed stream -/

/-- The loop exits from a state exactly as it exits from the states its rounds lead to. -/
theorem RoundsTo.exits_iff {Size n : ℕ} {s t : DecompressState} (h : RoundsTo Size s n t)
    (u : DecompressState) :
    Exits (fun fuel => iterate (fun _ => decompressBody Size) fuel s) u ↔
      Exits (fun fuel => iterate (fun _ => decompressBody Size) fuel t) u := by
  induction h with
  | zero => exact Iff.rfl
  | succ _ htest hround ih =>
      refine ih.trans (exits_again_iff ?_)
      simpa [decompressBody, htest, hround] using exits_const _

theorem exits_of_loopTest {Size : ℕ} {t : DecompressState}
    (htest : loopTest Size t.reader.Input_position = false) :
    Exits (fun fuel => iterate (fun _ => decompressBody Size) fuel t) t := by
  refine exits_stop ?_
  simpa [decompressBody, htest] using exits_const _

/-- On a packed stream the loop of `Decompress` passes through the states of the abstract decoder:
after `n` rounds it has read `n + 1` codes. -/
theorem rounds_packed {codes : List (BitVec 32)} {state : UInt8} {xs : List UInt8}
    (h : Packs codes state xs) (hlen : codes.length < 2 ^ 30) {first : BitVec 32}
    (hfirst : codes.head? = some first) (hletter : low13 first < 256) {d : Dec UInt8}
    (hd : decode alphabet (codes.map low13) = some d) (rest : List UInt8) {r : Reader}
    (hr : r.Input = ⟨xs ++ rest, false⟩) :
    ∀ n, n < codes.length → ∃ r' d', decode alphabet ((codes.map low13).take (n + 1)) = some d' ∧
      At xs rest (13 * (n + 1)) r' ∧
      RoundsTo xs.length (decompressStart r) n (stateOf r' d') := by
  intro n
  have hne : codes ≠ [] := by
    rintro rfl
    simp at hfirst
  have hpos := List.length_pos_of_ne_nil hne
  have hhead : low13 codes[0] < 256 := by
    rw [List.head?_eq_getElem?, List.getElem?_eq_getElem hpos] at hfirst
    rwa [Option.some_inj.1 hfirst]
  induction n with
  | zero =>
      intro _
      have hat : At xs rest (13 * 0) { r with Input_position := 0 } :=
        ⟨rfl, by simp [hr], by simp [hr], fun h0 => absurd rfl h0⟩
      obtain ⟨hcode, hat'⟩ := read_code_packed h hpos hat
      refine ⟨_, _, decode_take_one (by simpa using hpos), hat', ?_⟩
      rw [decompressStart_eq (Prod.ext hcode rfl) hhead]
      rw [List.getElem_map]
      exact RoundsTo.zero
  | succ n ih =>
      intro hn
      obtain ⟨r', d', hd', hat, hrounds⟩ := ih (by omega)
      obtain ⟨hcode, hat'⟩ := read_code_packed h hn hat
      -- the prefix of a readable sequence is readable
      obtain ⟨d'', hd''⟩ : ∃ d'', decode alphabet ((codes.map low13).take (n + 2)) = some d'' := by
        rw [← List.take_append_drop (n + 2) (codes.map low13)] at hd
        exact decode_prefix (by simpa using hne) hd
      have hstep : d'.step (low13 codes[n + 1]) = some d'' := by
        rw [decode_take_succ (by simpa using hn), hd', Option.bind_some] at hd''
        simpa using hd''
      have hfull : d'.Full ∧ d'.table.length = 256 + n := by
        have hcons : (codes.map low13).take (n + 1)
            = low13 codes[0] :: ((codes.map low13).tail.take n) := by
          cases codes with
          | nil => exact absurd rfl hne
          | cons c cs => simp
        rw [hcons] at hd'
        obtain ⟨hfull, htab⟩ := full_decode (by simpa using hhead) hd'
        refine ⟨hfull, ?_⟩
        rw [htab, List.length_take, List.length_tail, List.length_map, length_alphabet]
        omega
      refine ⟨_, d'', hd'', hat', hrounds.succ ?_ ?_⟩
      · show loopTest xs.length r'.Input_position = true
        rw [hat.position, loopTest_iff h.length_eq (by omega) (by omega) (by omega)]
        exact decide_eq_true hn
      · exact decompressRound_eq hfull.1 (by omega) (Prod.ext hcode rfl) hstep

/-- The result on a packed stream: `Decompress` returns what the abstract decoder returns for the
transmitted codes, and has consumed exactly the bytes of the stream. -/
theorem exits_Decompress {codes : List (BitVec 32)} {state : UInt8} {xs : List UInt8}
    (h : Packs codes state xs) (hlen : codes.length < 2 ^ 30) {first : BitVec 32}
    (hfirst : codes.head? = some first) (hletter : low13 first < 256) {d : Dec UInt8}
    (hd : decode alphabet (codes.map low13) = some d) (rest : List UInt8) {r : Reader}
    (hr : r.Input = ⟨xs ++ rest, false⟩) :
    ∃ r', r'.Input = ⟨rest, false⟩ ∧ Exits (Decompress xs.length r) (d.out, r') := by
  have hpos : 0 < codes.length := by
    cases codes with
    | nil => simp at hfirst
    | cons c cs => simp
  obtain ⟨r', d', hd', hat, hrounds⟩ :=
    rounds_packed h hlen hfirst hletter hd rest hr (codes.length - 1) (by omega)
  rw [show codes.length - 1 + 1 = codes.length by omega] at hd' hat
  rw [List.take_of_length_le (by simp), hd] at hd'
  obtain rfl : d = d' := Option.some_inj.1 hd'
  have htest : loopTest xs.length (stateOf r' d).reader.Input_position = false := by
    show loopTest xs.length r'.Input_position = false
    rw [hat.position, loopTest_iff h.length_eq hpos le_rfl (by omega)]
    simp
  refine ⟨r', ?_, ?_⟩
  · have hbytes := hat.bytes
    have := h.length_eq
    rw [List.drop_of_length_le (by omega), List.nil_append] at hbytes
    rw [← hbytes, ← hat.eof]
  · exact Exits.andThen ((hrounds.exits_iff _).2 (exits_of_loopTest htest)) (exits_const _)

/-! ### `Decompress(0)` -/

/-- With `Size` 0 the bound of the loop test is the largest `size_t`, which a bit counter divided by
8 never reaches. -/
theorem loopTest_zero (p : ℕ) (hp : p < 2 ^ 64) : loopTest 0 p = true := by
  have hbound : sizeT (0 + (2 ^ 64 - 1)) = 2 ^ 64 - 1 := by norm_num [sizeT]
  rw [loopTest, hbound, decide_eq_true_eq]
  omega

theorem readBit_position_lt (q : ℕ × Reader) : (readBit q).2.Input_position < 2 ^ 64 := by
  simp only [readBit, sizeT]
  exact Nat.mod_lt _ (by norm_num)

theorem Read_code_position_lt (r : Reader) : (Read_code r).2.Input_position < 2 ^ 64 := by
  rw [Read_code, CODE_LENGTH, List.range_succ, List.foldl_append, List.foldl_cons, List.foldl_nil]
  exact readBit_position_lt _

/-- `Decompress(0)` never returns: it runs for ever, or out of the bounds of its table. -/
theorem Decompress_zero (r : Reader) (fuel : ℕ) (res : List UInt8 × Reader) :
    Decompress 0 r fuel ≠ .done res := by
  rw [Decompress, Ne, Outcome.andThen_eq_done]
  rintro ⟨st, hst, _⟩
  refine iterate_ne_done (fun t => t.reader.Input_position < 2 ^ 64) ?_ fuel _ ?_ st hst
  · intro _ t next ht hbody
    rw [decompressBody, if_pos (loopTest_zero _ ht), Outcome.andThen_eq_done] at hbody
    obtain ⟨u, hround, hnext⟩ := hbody
    refine ⟨u, (Outcome.done.inj hnext).symm, ?_⟩
    -- the round leaves the bit counter where `Read_code` left it
    simp only [decompressRound] at hround
    split at hround
    · exact absurd hround (by simp)
    · split at hround
      · exact absurd hround (by simp)
      · rw [← Outcome.done.inj hround]
        exact Read_code_position_lt t.reader
  · exact Read_code_position_lt _

end Decoder

end DedupLzw
