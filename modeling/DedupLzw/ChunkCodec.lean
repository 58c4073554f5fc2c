/-
**One chunk through the encoder and the decoder.**

`run_LZW` is Welch's encoder over the nonzero bytes of the chunk, `output_code` transmits the codes
modulo 8192, and `Decompress` is Welch's decoder on what is transmitted.  For chunks of up to 8192
nonzero bytes the codes stay below 8448, so a code that does not fit becomes a letter, and the
chunk comes back shortened (`DedupLzw/WelchLoss.lean`).  Hence, exactly:

* a chunk without nonzero bytes compresses to nothing, and `Decompress(0)` never returns;
* any other chunk comes back without its zero bytes if its factorisation stays inside the first 8192
  entries of the dictionary (`DedupLzw.Lzw.Fits13`), and strictly shorter than that if not.

Main definitions:

* `DedupLzw.Lzw.Fits13` — the factorisation of a word needs no entry from 8192 on;
* `DedupLzw.Decoder.Decompresses`, `ComesBackAs` — what the decoder makes of the bytes written for
  a chunk.

Main results:

* `DedupLzw.Lzw.fits13_iff` — the condition in terms of the codes;
* `DedupLzw.Decoder.chunk_codec` — the chunk through both programs;
* `DedupLzw.Decoder.table_lockstep` — **encoder dictionary and decoder table run in lockstep**;
* `DedupLzw.Decoder.returns_payload_iff` — **exactly which payloads come back**.
-/

import DedupLzw.LzwRun
import DedupLzw.WelchLoss

set_option relaxedAutoImplicit false
set_option autoImplicit false

namespace DedupLzw

open FuelLoop Welch

namespace Lzw

/-! ### Factorisations that fit into 13 bits -/

/-- No phrase of the factorisation of `w` is an entry from number 8192 on. -/
def Fits13 (w : List UInt8) : Prop :=
  ∀ ps, Factors alphabet w ps → ∀ p ∈ ps, p ∈ (dictOf alphabet ps).take 8192

theorem length_codesOf (w : List UInt8) : (codesOf w).length = (phrases w).length := by
  simp [codesOf]

theorem length_codesOf_le {w : List UInt8} (hw : w ≠ []) : (codesOf w).length ≤ w.length := by
  rw [length_codesOf]
  exact (factors_phrases hw).length_le

/-- A word fits into 13 bits when all its codes do. -/
theorem fits13_iff {w : List UInt8} (hw : w ≠ []) : Fits13 w ↔ ∀ c ∈ codesOf w, c < 8192 := by
  have hfac := factors_phrases hw
  constructor
  · intro hfits c hc
    obtain ⟨p, hp, rfl⟩ := List.mem_map.1 hc
    have hmem := hfits _ hfac p hp
    rw [← List.take_append_drop 8192 (dictOf alphabet (phrases w)), List.idxOf_append_of_mem hmem]
    exact lt_of_lt_of_le (List.idxOf_lt_length_of_mem hmem) (by simp)
  · intro hcodes ps hps p hp
    obtain rfl := hps.unique hfac
    have hlt := hcodes _ (List.mem_map_of_mem hp)
    refine List.mem_take_iff_getElem.2 ⟨_, ?_, List.getElem_idxOf ?_⟩
    · exact lt_min hlt (List.idxOf_lt_length_of_mem (hfac.mem_dict hp))
    · exact List.idxOf_lt_length_of_mem (hfac.mem_dict hp)

/-- What the mask makes of the codes of a word of at most 8192 bytes. -/
theorem garbled_codes {w : List UInt8} (hw : w ≠ []) (hlen : w.length ≤ 8192) :
    Garbled alphabet (codesOf w) ((codesOf w).map (· % 8192)) := by
  refine ⟨by simp, fun m hm hm' => ?_⟩
  have hlt := (numbers_codesOf hw).lt m hm'
  have := length_codesOf_le hw
  rw [List.getElem_map]
  rw [length_alphabet] at hlt ⊢
  omega

/-- The codes pass the mask unchanged exactly when the word fits. -/
theorem map_mask_eq_iff {w : List UInt8} (hw : w ≠ []) :
    (codesOf w).map (· % 8192) = codesOf w ↔ Fits13 w := by
  rw [fits13_iff hw]
  constructor
  · intro h c hc
    obtain ⟨m, hm, rfl⟩ := List.getElem_of_mem hc
    have hget : ((codesOf w).map (· % 8192))[m]? = (codesOf w)[m]? := by rw [h]
    rw [List.getElem?_map, List.getElem?_eq_getElem hm] at hget
    have hmod : (codesOf w)[m] % 8192 = (codesOf w)[m] := Option.some_inj.1 hget
    omega
  · intro h
    conv_rhs => rw [← List.map_id (codesOf w)]
    exact List.map_congr_left fun c hc => Nat.mod_eq_of_lt (h c hc)

/-- The first code is a letter. -/
theorem codesOf_head {w : List UInt8} (hw : w ≠ []) :
    ∃ c, (codesOf w).head? = some c ∧ c < 256 := by
  have hne : codesOf w ≠ [] := by simp [codesOf, phrases, Enc.phrases]
  have hpos := List.length_pos_of_ne_nil hne
  refine ⟨(codesOf w)[0], by rw [List.head?_eq_getElem?, List.getElem?_eq_getElem hpos], ?_⟩
  simpa using (numbers_codesOf hw).lt 0 hpos

/-- What `run_LZW` writes for a chunk with a nonzero byte: its codes, packed. -/
theorem Finished.packed {signed : Bool} {chunk : List UInt8} {st : LzwState}
    (h : Finished signed chunk st) :
    run_LZW signed chunk chunk.length = some st.output ∧
      Packs (st.sent.map Prod.fst) st.state st.output ∧
      (st.sent.map Prod.fst).map low13 = (codesOf (nonzero chunk)).map (· % 8192) := by
  refine ⟨by rw [run_LZW, h.finish, Option.map_some], ?_, ?_⟩
  · obtain ⟨state, output, hout, hpacks⟩ := packs_outputCodes (st.sent.map Prod.fst)
    rw [h.packs] at hout
    obtain ⟨rfl, rfl⟩ : st.state = state ∧ st.output = output := by simpa using hout
    exact hpacks
  · rw [← h.codes, List.map_map, List.map_map]
    rfl

/-- The nonzero bytes of a chunk fit exactly when all codes sent are below 8192. -/
theorem Finished.fits_iff_sent_lt {signed : Bool} {chunk : List UInt8} {st : LzwState}
    (h : Finished signed chunk st) (hne : nonzero chunk ≠ []) :
    Fits13 (nonzero chunk) ↔ ∀ p ∈ st.sent, p.1.toNat < 8192 := by
  rw [fits13_iff hne, ← h.codes]
  exact List.forall_mem_map

/-- A chunk compresses to at most 13 bits for each of its nonzero bytes. -/
theorem run_LZW_length (signed : Bool) {chunk : List UInt8} (hlen : chunk.length ≤ 65278)
    (hpos : 0 < chunk.length) :
    ∃ xs, run_LZW signed chunk chunk.length = some xs ∧
      xs.length ≤ (13 * (nonzero chunk).length + 7) / 8 := by
  by_cases hne : nonzero chunk = []
  · exact ⟨[], run_LZW_zeros signed hlen hpos hne, Nat.zero_le _⟩
  · obtain ⟨st, hfin⟩ := lzwFinish_spec signed hlen hne
    obtain ⟨hrun, hpacks, hlow⟩ := hfin.packed
    have hcodes := congrArg List.length hlow
    have hle := length_codesOf_le hne
    simp only [List.length_map] at hcodes
    refine ⟨st.output, hrun, ?_⟩
    rw [hpacks.length_eq, List.length_map, hcodes]
    omega

/-- The first code is transmitted as a letter. -/
theorem Finished.first_letter {signed : Bool} {chunk : List UInt8} {st : LzwState}
    (h : Finished signed chunk st) (hne : nonzero chunk ≠ []) :
    ∃ first, (st.sent.map Prod.fst).head? = some first ∧ low13 first < 256 := by
  obtain ⟨c, hc, hletter⟩ := codesOf_head hne
  have hhead := congrArg List.head? h.packed.2.2
  rw [List.head?_map, List.head?_map (l := codesOf (nonzero chunk)), hc] at hhead
  obtain ⟨first, hfirst, hval⟩ := Option.map_eq_some_iff.1 hhead
  refine ⟨first, hfirst, ?_⟩
  rw [hval]
  exact lt_of_le_of_lt (Nat.mod_le _ _) hletter

end Lzw

namespace Decoder

open Lzw

/-! ### A chunk through both programs -/

/-- `Decompress`, called with the number of the bytes `xs` as the size, reads exactly these bytes
whatever comes after them, and returns the string `out`. -/
def Decompresses (xs out : List UInt8) : Prop :=
  ∀ rest r, r.Input = ⟨xs ++ rest, false⟩ →
    ∃ r', r'.Input = ⟨rest, false⟩ ∧ Exits (Decompress xs.length r) (out, r')

/-- The bytes `run_LZW` writes for the chunk decompress to the string `out`. -/
def ComesBackAs (signed : Bool) (chunk out : List UInt8) : Prop :=
  ∃ xs, run_LZW signed chunk chunk.length = some xs ∧ Decompresses xs out

/-- A chunk with a nonzero byte through both programs. -/
theorem chunk_codec (signed : Bool) {chunk : List UInt8} (hlen : chunk.length ≤ 65278)
    (hne : nonzero chunk ≠ []) (hw : (nonzero chunk).length ≤ 8192) :
    ∃ out, ComesBackAs signed chunk out ∧ out.length ≤ (nonzero chunk).length ∧
      (Fits13 (nonzero chunk) → out = nonzero chunk) ∧
      (¬ Fits13 (nonzero chunk) → out.length < (nonzero chunk).length) := by
  obtain ⟨st, hfin⟩ := lzwFinish_spec signed hlen hne
  obtain ⟨hrun, hpacks, hlow⟩ := hfin.packed
  have hfac := factors_phrases hne
  have hnum := numbers_codesOf hne
  obtain ⟨d, hd, hle, hlt⟩ := hfac.decode_garbled hnum (garbled_codes hne hw) hne
  have hcodeslen : (st.sent.map Prod.fst).length = (codesOf (nonzero chunk)).length := by
    simpa using congrArg List.length hlow
  obtain ⟨first, hfirst, hfl⟩ := hfin.first_letter hne
  refine ⟨d.out, ⟨st.output, hrun, fun rest r hr => ?_⟩, hle, fun hfits => ?_, fun hfits => ?_⟩
  · refine exits_Decompress hpacks ?_ hfirst hfl (hlow ▸ hd) rest hr
    have := length_codesOf_le hne
    omega
  · rw [(map_mask_eq_iff hne).2 hfits] at hd
    obtain ⟨d', hd', hout⟩ := hfac.decode_out hnum hne
    rw [hd] at hd'
    rw [Option.some_inj.1 hd', hout]
  · exact hlt fun heq => hfits ((map_mask_eq_iff hne).1 heq)

/-- A chunk of zero bytes does not come back at all. -/
theorem not_comesBackAs_zeros (signed : Bool) {chunk : List UInt8} (hlen : chunk.length ≤ 65278)
    (hpos : 0 < chunk.length) (hzero : nonzero chunk = []) (out : List UInt8) :
    ¬ ComesBackAs signed chunk out := by
  rintro ⟨xs, hxs, hback⟩
  rw [run_LZW_zeros signed hlen hpos hzero] at hxs
  obtain rfl := Option.some_inj.1 hxs
  obtain ⟨r', _, hexit⟩ := hback [] ⟨⟨[], false⟩, 0, 0⟩ rfl
  exact not_exits_of_ne_done (fun n c => Decompress_zero _ n c) _ hexit

/-- The string a chunk comes back as is unique. -/
theorem ComesBackAs.unique {signed : Bool} {chunk out out' : List UInt8}
    (h : ComesBackAs signed chunk out) (h' : ComesBackAs signed chunk out') : out = out' := by
  obtain ⟨xs, hxs, hback⟩ := h
  obtain ⟨ys, hys, hback'⟩ := h'
  obtain rfl : xs = ys := Option.some_inj.1 (hxs.symm.trans hys)
  obtain ⟨_, _, hexit⟩ := hback [] ⟨⟨xs ++ [], false⟩, 0, 0⟩ rfl
  obtain ⟨_, _, hexit'⟩ := hback' [] ⟨⟨xs ++ [], false⟩, 0, 0⟩ rfl
  exact congrArg Prod.fst (hexit.unique hexit')

/-! ### Which payloads come back -/

theorem nonzero_eq_self_iff (payload : List UInt8) :
    nonzero payload = payload ↔ ∀ c ∈ payload, c ≠ 0 := by
  simp [nonzero, List.filter_eq_self]

/-- A short word fits into 13 bits. -/
theorem fits13_of_length_le {w : List UInt8} (hw : w ≠ []) (hlen : w.length ≤ 7936) : Fits13 w := by
  rw [fits13_iff hw]
  intro c hc
  obtain ⟨m, hm, rfl⟩ := List.getElem_of_mem hc
  have hlt := (numbers_codesOf hw).lt m hm
  have := length_codesOf_le hw
  rw [length_alphabet] at hlt
  omega

/-- A payload of 12 to 8180 bytes, terminated by a zero byte, comes back exactly when it contains
no zero byte itself and its factorisation fits into 13 bits. -/
theorem returns_payload_iff (signed : Bool) {payload : List UInt8} (hlo : 12 ≤ payload.length)
    (hhi : payload.length ≤ 8180) :
    ComesBackAs signed (payload ++ [0]) payload ↔ (∀ c ∈ payload, c ≠ 0) ∧ Fits13 payload := by
  have hlen : (payload ++ [0]).length = payload.length + 1 := by simp
  have hnonzero := nonzero_concat_zero payload
  have hle := length_nonzero_le payload
  rw [← nonzero_eq_self_iff]
  by_cases hne : nonzero payload = []
  · -- nothing but zero bytes
    have hself : nonzero payload ≠ payload := by
      intro h
      rw [← h, hne] at hlo
      simp at hlo
    refine iff_of_false ?_ fun h => hself h.1
    exact not_comesBackAs_zeros signed (by omega) (by omega) (by rw [hnonzero, hne]) payload
  · have hne' : nonzero (payload ++ [0]) ≠ [] := by rwa [hnonzero]
    obtain ⟨out, hout, hshort, hfits, hnot⟩ :=
      chunk_codec signed (by omega) hne' (by rw [hnonzero]; omega)
    rw [hnonzero] at hshort hfits hnot
    constructor
    · intro hback
      obtain rfl := hout.unique hback
      have hself : nonzero out = out := List.filter_sublist.eq_of_length_le hshort
      rw [hself] at hnot
      refine ⟨hself, ?_⟩
      by_contra hfit
      exact absurd (hnot hfit) (lt_irrefl _)
    · rintro ⟨hself, hfit⟩
      rw [hself] at hfits
      rwa [hfits hfit] at hout

/-- Twelve different letters come back. -/
theorem returns_payload_iff_letters :
    ComesBackAs false ((List.range 12).map (fun n => UInt8.ofNat (n + 97)) ++ [0])
      ((List.range 12).map fun n => UInt8.ofNat (n + 97)) := by
  have hne : ((List.range 12).map fun n => UInt8.ofNat (n + 97)) ≠ [] := by decide
  exact (returns_payload_iff false (by decide) (by decide)).2
    ⟨by decide +kernel, fits13_of_length_le hne (by decide)⟩

/-- Twelve zero bytes do not come back. -/
theorem zeros_do_not_return :
    12 ≤ (List.replicate 12 (0 : UInt8)).length ∧ (List.replicate 12 (0 : UInt8)).length ≤ 8180 ∧
      ¬ ComesBackAs false (List.replicate 12 0 ++ [0]) (List.replicate 12 0) :=
  ⟨by decide, by decide, not_comesBackAs_zeros false (by decide) (by decide) (by decide) _⟩

/-! ### Encoder dictionary and decoder table -/

/-- The `Decompress` state `t` in which the code after the first `n + 1` is about to be read runs in
step with the encoder that ended in `st`. -/
structure InLockstep (st : LzwState) (n : ℕ) (t : DecompressState) : Prop where
  /-- The size of the code table. -/
  size : t.Code_table.length = 256 + n
  /-- From entry 256 on the table holds the strings the encoder put into its dictionary. -/
  entries : ∀ j s, 256 ≤ j → t.Code_table[j]? = some s →
    ∃ key, st.puts[j]? = some (key, toUInt16 j) ∧ key.bytes = s
  /-- The code about to be read is the one the encoder sent. -/
  code : (st.sent.map fun p => p.1.toNat)[n + 1]? = some (Read_code t.reader).1
  /-- It names an entry of the table, or the one entry that is missing from it. -/
  known : (Read_code t.reader).1 < t.Code_table.length ∨
    (Read_code t.reader).1 = t.Code_table.length ∧
      ∃ old key, t.Code_table[t.Old]? = some old ∧
        st.puts[t.Code_table.length]? = some (key, toUInt16 t.Code_table.length) ∧
        key.bytes = old ++ t.Symbol

/-- An entry of the abstract dictionary, found in the encoder's. -/
theorem entry_of_keys {dict : List (List UInt8)} {keys : List CString} (h : Keys dict keys)
    {j : ℕ} (hj : 1 ≤ j) {s : List UInt8} (hs : dict[j]? = some s) :
    ∃ key, (numbered keys)[j]? = some (key, toUInt16 j) ∧ key.bytes = s := by
  obtain ⟨i, rfl⟩ : ∃ i, j = i + 1 := ⟨j - 1, by omega⟩
  have hbytes : (keys.map CString.bytes)[i + 1]? = some s := by
    rw [h.bytes_eq, List.getElem?_cons_succ, List.getElem?_tail, hs]
  rw [List.getElem?_map] at hbytes
  obtain ⟨key, hkey, rfl⟩ := Option.map_eq_some_iff.1 hbytes
  exact ⟨key, by simp [numbered, FirstSeen.numbered, hkey], rfl⟩

/-- The abstract decoder runs in step with the encoder. -/
theorem inLockstep_of_decode {signed : Bool} {chunk : List UInt8} {st : LzwState}
    (hfin : Finished signed chunk st) (hne : nonzero chunk ≠ []) {n : ℕ}
    (hn : n + 1 < (codesOf (nonzero chunk)).length) {d : Dec UInt8}
    (hd : decode alphabet ((codesOf (nonzero chunk)).take (n + 1)) = some d) {r : Reader}
    (hcode : (Read_code r).1 = (codesOf (nonzero chunk))[n + 1]) :
    InLockstep st n (stateOf r d) := by
  have hfac := factors_phrases hne
  have hnum := numbers_codesOf hne
  obtain ⟨keys, hputs, hkeys⟩ := hfin.keys
  have hn' : n + 1 < (phrases (nonzero chunk)).length := by rwa [← hnum.length_eq]
  obtain rfl := Option.some_inj.1 (hd.symm.trans (hfac.decode_take hnum n (by omega) (by omega)))
  have hsize : (dictOf alphabet ((phrases (nonzero chunk)).take (n + 1))).length = 256 + n := by
    rw [length_dictOf, List.length_take, length_alphabet]
    omega
  refine ⟨hsize, fun j s hj hs => ?_, by rw [hfin.codes, List.getElem?_eq_getElem hn, ← hcode]; rfl,
    ?_⟩
  · -- the table is a prefix of the encoder's dictionary
    rw [hputs]
    refine entry_of_keys hkeys (by omega) ?_
    have hlt : j < 256 + n := hsize ▸ (List.getElem?_eq_some_iff.1 hs).1
    have hs' : (dictOf alphabet ((phrases (nonzero chunk)).take (n + 1)))[j]? = some s := hs
    rwa [dictOf_take, length_alphabet, List.getElem?_take_of_lt hlt] at hs'
  · show (Read_code r).1 < _ ∨ (Read_code r).1 = _ ∧ _
    rw [hcode]
    have hlt := hnum.lt (n + 1) hn
    rw [length_alphabet] at hlt
    rcases Nat.lt_or_ge (codesOf (nonzero chunk))[n + 1] (256 + n) with hc | hc
    · exact Or.inl (by rw [← hsize] at hc; exact hc)
    · -- the self-referential code
      have hself : (codesOf (nonzero chunk))[n + 1] = alphabet.length + n := by
        rw [length_alphabet]
        omega
      have hgrow := hfac.growth_self hnum hn' hn hself
      have hget := hnum.get (n + 1) hn hn'
      rw [hself, ← hgrow, length_alphabet] at hget
      obtain ⟨key, hkey, hbytes⟩ := entry_of_keys hkeys (by omega) hget
      rw [← hputs, ← hsize] at hkey
      refine Or.inr ⟨by rw [hself, length_alphabet]; exact hsize.symm, _, key, ?_, hkey, hbytes⟩
      have hold := hnum.lt n (by omega)
      show (dictOf alphabet ((phrases (nonzero chunk)).take (n + 1)))[(codesOf
        (nonzero chunk))[n]]? = _
      rw [dictOf_take, List.getElem?_take_of_lt hold, hnum.get n (by omega) (by omega)]

/-- Encoder dictionary and decoder table run in lockstep: on a chunk all of whose codes fit into 13
bits, `Decompress` is in step with `run_LZW` before each code from the second on, and returns the
concatenation of the strings whose codes were sent. -/
theorem table_lockstep (signed : Bool) {chunk : List UInt8} (hlen : chunk.length ≤ 8193)
    (hne : ∃ c ∈ chunk, c ≠ 0) :
    ∃ st, lzwFinish signed chunk chunk.length = some st ∧
      ((∀ p ∈ st.sent, p.1.toNat < 8192) → ∀ rest r, r.Input = ⟨st.output ++ rest, false⟩ →
        (∀ n, n + 1 < st.sent.length → ∃ t, RoundsTo st.output.length (decompressStart r) n t ∧
          loopTest st.output.length t.reader.Input_position = true ∧ InLockstep st n t) ∧
        ∃ r', r'.Input = ⟨rest, false⟩ ∧
          Exits (Decompress st.output.length r) ((st.sent.map (·.2.bytes)).flatten, r')) := by
  have hne' : nonzero chunk ≠ [] := by
    obtain ⟨c, hc, h0⟩ := hne
    exact List.ne_nil_of_mem (List.mem_filter.2 ⟨hc, by simpa using h0⟩)
  obtain ⟨st, hfin⟩ := lzwFinish_spec signed (by omega) hne'
  refine ⟨st, hfin.finish, fun hsmall rest r hr => ?_⟩
  obtain ⟨_, hpacks, hlow⟩ := hfin.packed
  have hcodes : (codesOf (nonzero chunk)).map (· % 8192) = codesOf (nonzero chunk) :=
    (map_mask_eq_iff hne').2 ((hfin.fits_iff_sent_lt hne').2 hsmall)
  rw [hcodes] at hlow
  have hfac := factors_phrases hne'
  have hnum := numbers_codesOf hne'
  have hsent : st.sent.length = (codesOf (nonzero chunk)).length := by
    simpa using congrArg List.length hlow
  have hshort : (st.sent.map Prod.fst).length < 2 ^ 30 := by
    have hle := length_codesOf_le hne'
    have := length_nonzero_le chunk
    rw [List.length_map]
    omega
  obtain ⟨first, hfirst, hletter⟩ := hfin.first_letter hne'
  obtain ⟨d, hd, hout⟩ := hfac.decode_out hnum hne'
  have hd' : decode alphabet ((st.sent.map Prod.fst).map low13) = some d := by rw [hlow, hd]
  constructor
  · intro n hn
    obtain ⟨r', d', hdec, hat, hrounds⟩ :=
      rounds_packed hpacks hshort hfirst hletter hd' rest hr n (by simp; omega)
    refine ⟨_, hrounds, ?_, ?_⟩
    · show loopTest st.output.length r'.Input_position = true
      rw [hat.position, loopTest_iff hpacks.length_eq (by omega) (by simp; omega) (by omega)]
      simpa using hn
    · obtain ⟨hcode, _⟩ := read_code_packed hpacks (m := n + 1) (by simpa using hn) hat
      refine inLockstep_of_decode hfin hne' (by omega) (by rw [← hlow, hdec]) ?_
      rw [hcode]
      simp only [← hlow, List.getElem_map]
  · obtain ⟨r', hr', hexit⟩ := exits_Decompress hpacks hshort hfirst hletter hd' rest hr
    refine ⟨r', hr', ?_⟩
    rwa [hfin.strings, hfac.flatten, ← hout]

/-- The lockstep on the chunk `aaaa`, whose second code names the entry still being built. -/
theorem table_lockstep_aaaa :
    ∃ st, lzwFinish false [97, 97, 97, 97, 0] 5 = some st ∧
      ∀ rest r, r.Input = ⟨st.output ++ rest, false⟩ →
        (∀ n, n + 1 < st.sent.length → ∃ t, RoundsTo st.output.length (decompressStart r) n t ∧
          loopTest st.output.length t.reader.Input_position = true ∧ InLockstep st n t) ∧
        ∃ r', r'.Input = ⟨rest, false⟩ ∧
          Exits (Decompress st.output.length r) ((st.sent.map (·.2.bytes)).flatten, r') := by
  have hlen : ([97, 97, 97, 97, 0] : List UInt8).length ≤ 8193 := by decide
  obtain ⟨st, hfin, hlock⟩ := table_lockstep false hlen ⟨97, by decide, by decide⟩
  refine ⟨st, hfin, hlock ?_⟩
  -- the codes of so short a chunk are small
  have hne : nonzero [97, 97, 97, 97, 0] ≠ [] := by decide
  obtain ⟨st', hfin'⟩ := lzwFinish_spec false (by decide) hne
  obtain rfl : st' = st := Option.some_inj.1 (hfin'.finish.symm.trans hfin)
  exact (hfin'.fits_iff_sent_lt hne).1 (fits13_of_length_le hne (by decide))

end Decoder

end DedupLzw
