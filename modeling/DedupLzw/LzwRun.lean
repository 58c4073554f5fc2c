/-
**Runs of `run_LZW`.**

`run_LZW` is Welch's encoder (`DedupLzw/Welch.lean`) over the alphabet of bytes, with one
difference: appending a zero byte to a C string changes nothing, so **zero bytes of the chunk are
skipped**, wherever they stand.  The dictionary differs in entry 0 as well, which is the empty
string; its code is never sent.

The refinement relates the loop's variables to the abstract encoder after the nonzero bytes read so
far.  It holds as long as the 16-bit values of the dictionary stay away from the in-band
"not found", that is for chunks of fewer than 65279 nonzero bytes.

Main definitions:

* `DedupLzw.Lzw.nonzero` — the bytes of a chunk that take part;
* `DedupLzw.Lzw.numbered` — the entries of a dictionary whose values count up from 0;
* `DedupLzw.Lzw.Refines` — the loop's variables stand for the abstract encoder.

Main results:

* `DedupLzw.Lzw.Refines.get_eq` — looking a string up;
* `DedupLzw.Lzw.Refines.round` — **one round of the loop is one step of the encoder, or none**;
* `DedupLzw.Lzw.lzwBefore_refines` — the loop refines the encoder in every round;
* `DedupLzw.Lzw.lzwFinish_spec` — the codes and the bytes `run_LZW` ends with.
-/

import DedupLzw.DecompressRun
import DedupLzw.FirstSeen

set_option relaxedAutoImplicit false
set_option autoImplicit false

namespace DedupLzw

namespace Lzw

open Hashtable Welch

/-! ### Dictionaries whose values count up -/

/-- The entries of a dictionary that was given the keys in order, with the values 0, 1, …. -/
def numbered (keys : List CString) : List (CString × UInt16) := FirstSeen.numbered toUInt16 keys

theorem numbered_concat (keys : List CString) (key : CString) :
    numbered (keys ++ [key]) = numbered keys ++ [(key, toUInt16 keys.length)] :=
  FirstSeen.numbered_concat toUInt16 keys key

theorem firstPut_eq_lookup (puts : List (CString × UInt16)) (key : CString) :
    firstPut puts key = puts.lookup key := by
  induction puts with
  | nil => rfl
  | cons e puts ih =>
      rw [firstPut, List.find?_cons, List.lookup_cons, ← ih, firstPut]
      by_cases h : e.1 = key
      · simp [h]
      · have hbeq : (key == e.1) = false := by simpa using Ne.symm h
        simp [h, hbeq]

theorem firstPut_numbered (keys : List CString) (key : CString) :
    firstPut (numbered keys) key
      = if key ∈ keys then some (toUInt16 (keys.idxOf key)) else none := by
  rw [firstPut_eq_lookup]
  exact FirstSeen.lookup_numbered toUInt16 keys key

/-- Strings are looked up by their bytes. -/
theorem idxOf_map_bytes (keys : List CString) (key : CString) :
    keys.idxOf key = (keys.map CString.bytes).idxOf key.bytes := by
  induction keys with
  | nil => rfl
  | cons k keys ih =>
      by_cases hk : k = key
      · simp [hk]
      · have hb : k.bytes ≠ key.bytes := fun h => hk (CString.ext h)
        rw [List.map_cons, List.idxOf_cons_ne _ hk, List.idxOf_cons_ne _ hb, ih]

theorem mem_map_bytes (keys : List CString) (key : CString) :
    key ∈ keys ↔ key.bytes ∈ keys.map CString.bytes := by
  constructor
  · exact fun h => List.mem_map_of_mem h
  · intro h
    obtain ⟨k, hk, hbytes⟩ := List.mem_map.1 h
    rwa [← CString.ext hbytes]

theorem firstPut_numbered_bytes (keys : List CString) (key : CString) :
    firstPut (numbered keys) key
      = if key.bytes ∈ keys.map CString.bytes
        then some (toUInt16 ((keys.map CString.bytes).idxOf key.bytes)) else none := by
  simp only [firstPut_numbered, mem_map_bytes keys key, idxOf_map_bytes]

/-! ### The relation -/

/-- The bytes of a chunk that C strings can hold. -/
def nonzero (chunk : List UInt8) : List UInt8 := chunk.filter (· ≠ 0)

@[simp] theorem nonzero_nil : nonzero [] = [] := rfl

theorem nonzero_concat_zero (chunk : List UInt8) : nonzero (chunk ++ [0]) = nonzero chunk := by
  simp [nonzero]

theorem nonzero_concat_of_ne (chunk : List UInt8) {c : UInt8} (hc : c ≠ 0) :
    nonzero (chunk ++ [c]) = nonzero chunk ++ [c] := by simp [nonzero, hc]

/-- The abstract encoder over the bytes. -/
def enc (w : List UInt8) : Enc UInt8 := encode alphabet w

theorem enc_inv (w : List UInt8) : Enc.Inv alphabet w (enc w) :=
  encode_inv nodup_alphabet w fun c _ => mem_alphabet c

/-- The keys of the dictionary: as in the abstract dictionary, but with the empty string for the
letter 0. -/
structure Keys (dict : List (List UInt8)) (keys : List CString) : Prop where
  bytes_eq : keys.map CString.bytes = [] :: dict.tail
  head_eq : dict.head? = some [0]

/-- The variables of `run_LZW`'s loop stand for the abstract encoder after the word `w`. -/
structure Refines (signed : Bool) (w : List UInt8) (st : LzwState) : Prop where
  keys : ∃ keys, st.puts = numbered keys ∧ Keys (enc w).dict keys
  dict : Represents signed st.dict st.puts
  num_eq : st.num = (enc w).dict.length
  curr_eq : st.curr_str.bytes = (enc w).cur
  strings : st.sent.map (fun p => p.2.bytes) = (enc w).sent
  codes : st.sent.map (fun p => p.1.toNat) = (enc w).sent.map fun p => (enc w).dict.idxOf p
  packs : outputCodes (st.sent.map Prod.fst) = some (st.state, st.output)

theorem Keys.length_eq {dict : List (List UInt8)} {keys : List CString} (h : Keys dict keys) :
    keys.length = dict.length := by
  have hlen := congrArg List.length h.bytes_eq
  cases dict with
  | nil => simpa using h.head_eq
  | cons a t => simpa using hlen

/-- Looking up a nonempty string gives its number in the abstract dictionary. -/
theorem Keys.lookup {dict : List (List UInt8)} {keys : List CString} (h : Keys dict keys)
    {key : CString} (hne : key.bytes ≠ []) :
    firstPut (numbered keys) key
      = if key.bytes ∈ dict then some (toUInt16 (dict.idxOf key.bytes)) else none := by
  obtain ⟨t, rfl⟩ : ∃ t, dict = [0] :: t := by
    cases dict with
    | nil => simpa using h.head_eq
    | cons a t => exact ⟨t, by simpa using h.head_eq⟩
  have hzero : [0] ≠ key.bytes := fun h0 => key.noNul (by simp [← h0])
  rw [firstPut_numbered_bytes, h.bytes_eq, List.tail_cons, List.idxOf_cons_ne _ hne.symm,
    List.idxOf_cons_ne _ hzero]
  simp [hne, Ne.symm hzero]

/-- The empty string is entry 0. -/
theorem Keys.lookup_empty {dict : List (List UInt8)} {keys : List CString} (h : Keys dict keys)
    {key : CString} (hnil : key.bytes = []) : firstPut (numbered keys) key = some 0 := by
  rw [firstPut_numbered_bytes, h.bytes_eq, hnil]
  simp [toUInt16]

theorem toUInt16_ne_notFound {n : ℕ} (h : n < 65535) : toUInt16 n ≠ notFound := by
  intro heq
  have hval := congrArg UInt16.toNat heq
  rw [toUInt16, UInt16.toNat_ofNat_of_lt' (by norm_num; omega)] at hval
  simp [notFound] at hval
  omega

/-- `output_code` accepts any code in any state it can be in. -/
theorem send_packs (signed : Bool) {st : LzwState}
    (h : outputCodes (st.sent.map Prod.fst) = some (st.state, st.output)) :
    ∃ state output, st.send signed = some { st with
        state := state, output := output
        sent := st.sent ++
          [((get signed st.dict st.curr_str).toBitVec.setWidth 32, st.curr_str)] } ∧
      outputCodes ((st.sent ++
        [((get signed st.dict st.curr_str).toBitVec.setWidth 32, st.curr_str)]).map Prod.fst)
          = some (state, output) := by
  obtain ⟨state, output, hout, _⟩ :=
    packs_outputCodes (st.sent.map Prod.fst ++
      [(get signed st.dict st.curr_str).toBitVec.setWidth 32])
  have hstep := hout
  rw [outputCodes_concat, h, Option.bind_some] at hstep
  exact ⟨state, output, by rw [send_eq, hstep]; rfl, by simpa using hout⟩

section Round

variable {signed : Bool} {w : List UInt8} {st : LzwState}

/-- What `get` answers during a run. -/
theorem Refines.get_eq (h : Refines signed w st) {key : CString} (hne : key.bytes ≠ []) :
    get signed st.dict key
      = if key.bytes ∈ (enc w).dict then toUInt16 ((enc w).dict.idxOf key.bytes) else notFound := by
  obtain ⟨keys, hputs, hkeys⟩ := h.keys
  rw [h.dict.get_eq, hputs, hkeys.lookup hne]
  split <;> rfl

/-- The current match is always found. -/
theorem Refines.get_curr (h : Refines signed w st) (hsmall : (enc w).dict.length < 65535) :
    get signed st.dict st.curr_str ≠ notFound := by
  by_cases hnil : st.curr_str.bytes = []
  · obtain ⟨keys, hputs, hkeys⟩ := h.keys
    rw [h.dict.get_eq, hputs, hkeys.lookup_empty hnil]
    decide
  · have hmem : st.curr_str.bytes ∈ (enc w).dict := by
      rw [h.curr_eq] at hnil ⊢
      exact (enc_inv w).cur_known.elim (fun hc => absurd hc.1 hnil) And.right
    rw [h.get_eq hnil, if_pos hmem]
    exact toUInt16_ne_notFound (lt_trans (List.idxOf_lt_length_of_mem hmem) hsmall)

/-- A zero byte is skipped. -/
theorem Refines.round_zero (h : Refines signed w st) (hsmall : (enc w).dict.length < 65535) :
    lzwRound signed st 0 = some st := by
  have hcat : strcat st.curr_str (CString.ofBytes [0]) = st.curr_str := by
    ext1
    simp [CString.ofBytes_zero]
  rw [lzwRound_found (by rw [hcat]; exact h.get_curr hsmall), hcat]

/-- The code sent is the number of the current match. -/
theorem Refines.code_curr (h : Refines signed w st) (hsmall : (enc w).dict.length < 65535)
    (hne : (enc w).cur ≠ []) :
    ((get signed st.dict st.curr_str).toBitVec.setWidth 32 : BitVec 32).toNat
      = (enc w).dict.idxOf (enc w).cur := by
  have hmem : (enc w).cur ∈ (enc w).dict :=
    (enc_inv w).cur_known.elim (fun hc => absurd hc.1 hne) And.right
  have hidx := List.idxOf_lt_length_of_mem hmem
  rw [h.get_eq (by rwa [h.curr_eq]), h.curr_eq, if_pos hmem, toUInt16]
  simp
  omega

/-- Sending the current match. -/
theorem Refines.send (h : Refines signed w st) (hsmall : (enc w).dict.length < 65535)
    (hne : (enc w).cur ≠ []) :
    ∃ code state output, st.send signed = some { st with
        state := state, output := output, sent := st.sent ++ [(code, st.curr_str)] } ∧
      code.toNat = (enc w).dict.idxOf (enc w).cur ∧
      outputCodes ((st.sent ++ [(code, st.curr_str)]).map Prod.fst) = some (state, output) := by
  obtain ⟨state, output, hsend, hpacks⟩ := send_packs signed h.packs
  exact ⟨_, state, output, hsend, h.code_curr hsmall hne, hpacks⟩

/-- The match is extended. -/
theorem Refines.extend (h : Refines signed w st) {c : UInt8} (hc : c ≠ 0)
    (hmem : (enc w).cur ++ [c] ∈ (enc w).dict) :
    Refines signed (w ++ [c]) { st with curr_str := strcat st.curr_str (CString.ofBytes [c]) } := by
  have hstep : enc (w ++ [c]) = { enc w with cur := (enc w).cur ++ [c] } := by
    rw [enc, encode_append, Enc.step, ← enc, if_pos hmem]
  obtain ⟨keys, hputs, hkeys⟩ := h.keys
  refine ⟨⟨keys, hputs, ?_⟩, h.dict, ?_, ?_, ?_, ?_, h.packs⟩
  · rwa [hstep]
  · rw [hstep]
    exact h.num_eq
  · rw [hstep, strcat_bytes, h.curr_eq, CString.ofBytes_ne_zero hc]
  · rw [hstep]
    exact h.strings
  · rw [hstep]
    exact h.codes

/-- The match is sent, and its extension goes into the dictionary. -/
theorem Refines.absent (h : Refines signed w st) (hsmall : (enc w).dict.length < 65535) {c : UInt8}
    (hc : c ≠ 0) (hne : (enc w).cur ≠ []) (hmem : (enc w).cur ++ [c] ∉ (enc w).dict) :
    ∃ st', (st.send signed).map (fun st =>
        { st.put signed (strcat st.curr_str (CString.ofBytes [c])) st.num with
          num := st.num + 1, curr_str := CString.ofBytes [c] }) = some st' ∧
      Refines signed (w ++ [c]) st' := by
  have hstep : enc (w ++ [c])
      = ⟨(enc w).dict ++ [(enc w).cur ++ [c]], [c], (enc w).sent ++ [(enc w).cur]⟩ := by
    rw [enc, encode_append, Enc.step, ← enc, if_neg hmem]
  have hknown : (enc w).cur ∈ (enc w).dict :=
    (enc_inv w).cur_known.elim (fun hc => absurd hc.1 hne) And.right
  obtain ⟨code, state, output, hsend, hcode, hpacks⟩ := h.send hsmall hne
  obtain ⟨keys, hputs, hkeys⟩ := h.keys
  refine ⟨_, by rw [hsend]; rfl,
    ⟨keys ++ [strcat st.curr_str (CString.ofBytes [c])], ?_, ?_⟩, ?_, ?_,
    ?_, ?_, ?_, hpacks⟩
  · rw [numbered_concat, hkeys.length_eq, ← h.num_eq]
    simp [LzwState.put, hputs]
  · rw [hstep]
    refine ⟨?_, ?_⟩
    · have hdict : (enc w).dict ≠ [] := List.ne_nil_of_mem hknown
      rw [List.map_append, hkeys.bytes_eq, List.tail_append_of_ne_nil hdict]
      simp [h.curr_eq, CString.ofBytes_ne_zero hc]
    · rw [List.head?_append, hkeys.head_eq]
      rfl
  · exact represents_put h.dict _ _
  · simp [hstep, h.num_eq]
  · rw [hstep]
    exact CString.ofBytes_ne_zero hc
  · rw [hstep, ← h.strings]
    simp [LzwState.put, h.curr_eq]
  · rw [hstep]
    -- what was sent keeps its number in the larger dictionary
    have hold : (enc w).sent.map (fun p => ((enc w).dict ++ [(enc w).cur ++ [c]]).idxOf p)
        = (enc w).sent.map fun p => (enc w).dict.idxOf p :=
      List.map_congr_left fun p hp => List.idxOf_append_of_mem ((enc_inv w).mem_dict hp)
    rw [List.map_append, hold, ← h.codes]
    simp [LzwState.put, hcode, List.idxOf_append_of_mem hknown]

/-- One round of the loop on a nonzero byte is one step of the encoder. -/
theorem Refines.round (h : Refines signed w st) (hsmall : (enc w).dict.length < 65535) {c : UInt8}
    (hc : c ≠ 0) : ∃ st', lzwRound signed st c = some st' ∧ Refines signed (w ++ [c]) st' := by
  have hbytes : (strcat st.curr_str (CString.ofBytes [c])).bytes = (enc w).cur ++ [c] := by
    rw [strcat_bytes, h.curr_eq, CString.ofBytes_ne_zero hc]
  have hne : (strcat st.curr_str (CString.ofBytes [c])).bytes ≠ [] := by
    rw [hbytes]
    exact List.concat_ne_nil _ _
  have hget := h.get_eq hne
  rw [hbytes] at hget
  by_cases hmem : (enc w).cur ++ [c] ∈ (enc w).dict
  · refine ⟨_, lzwRound_found ?_, h.extend hc hmem⟩
    rw [hget, if_pos hmem]
    exact toUInt16_ne_notFound (lt_trans (List.idxOf_lt_length_of_mem hmem) hsmall)
  · rw [if_neg hmem] at hget
    rw [lzwRound_absent hget]
    refine h.absent hsmall hc ?_ hmem
    -- a single letter is always in the dictionary
    rintro hnil
    rw [hnil, (enc_inv w).dict_eq] at hmem
    exact hmem (List.mem_append_left _ (mem_singles.2 ⟨c, mem_alphabet c, rfl⟩))

end Round

/-! ### The whole loop -/

/-- The strings at `(char*) &num` for the first 256 numbers: the empty string, then the letters. -/
theorem intStrings :
    (List.range 256).map (fun num => (intString num).bytes) = [] :: (singles alphabet).tail := by
  decide +kernel

/-- The first entries of the dictionary. -/
theorem lzwStart_fold (signed : Bool) (st : LzwState) (hst : Represents signed st.dict st.puts)
    (hputs : st.puts = []) (n : ℕ) :
    let st' := (List.range n).foldl
      (fun st num => { st.put signed (intString num) num with num := num + 1 })
      { st with num := 0 }
    st'.puts = numbered ((List.range n).map intString) ∧ Represents signed st'.dict st'.puts ∧
      st'.num = n ∧ st'.curr_str = st.curr_str ∧ st'.sent = st.sent ∧ st'.state = st.state ∧
      st'.output = st.output := by
  induction n with
  | zero => exact ⟨hputs, hst, rfl, rfl, rfl, rfl, rfl⟩
  | succ n ih =>
      obtain ⟨hputs', hdict, _, hcurr, hsent, hstate, hout⟩ := ih
      rw [List.range_succ, List.foldl_append]
      refine ⟨?_, ?_, rfl, hcurr, hsent, hstate, hout⟩
      · rw [List.map_append, List.map_singleton, numbered_concat, List.length_map,
          List.length_range,
          ← hputs']
        rfl
      · exact represents_put hdict _ _

/-- The abstract encoder after the first byte of a chunk. -/
theorem enc_first (first : UInt8) :
    enc (nonzero [first]) = ⟨singles alphabet, (CString.ofBytes [first]).bytes, []⟩ := by
  by_cases hfirst : first = 0
  · subst hfirst
    rfl
  · have hw : nonzero [first] = [] ++ [first] := by simp [nonzero, hfirst]
    have hmem : [first] ∈ singles alphabet := mem_singles.2 ⟨first, mem_alphabet first, rfl⟩
    rw [hw, enc, encode_append, encode_nil, Enc.step]
    simp [Enc.start, hmem, CString.ofBytes_ne_zero hfirst]

/-- The variables before the first round. -/
theorem lzwStart_spec (signed : Bool) (first : UInt8) :
    (lzwStart signed first).puts = numbered ((List.range 256).map intString) ∧
      Represents signed (lzwStart signed first).dict (lzwStart signed first).puts ∧
      (lzwStart signed first).num = 256 ∧
      (lzwStart signed first).curr_str = CString.ofBytes [first] ∧
      (lzwStart signed first).sent = [] ∧ (lzwStart signed first).state = 0 ∧
      (lzwStart signed first).output = [] :=
  lzwStart_fold signed
    { dict := create_table NUM_BUCKETS, num := 0, curr_str := CString.ofBytes [first], state := 0,
      output := [], sent := [], puts := [] } (represents_create signed (by decide)) rfl 256

theorem lzwStart_refines (signed : Bool) (first : UInt8) :
    Refines signed (nonzero [first]) (lzwStart signed first) := by
  obtain ⟨hputs, hdict, hnum, hcurr, hsent, hstate, hout⟩ := lzwStart_spec signed first
  refine ⟨⟨_, hputs, ?_⟩, hdict, ?_, ?_, ?_, ?_, ?_⟩
  · rw [enc_first]
    refine ⟨?_, ?_⟩
    · rw [List.map_map]
      exact intStrings
    · show (singles alphabet).head? = some [0]
      decide +kernel
  · rw [enc_first, hnum, length_singles, length_alphabet]
  · rw [enc_first, hcurr]
  · rw [enc_first, hsent, List.map_nil]
  · rw [enc_first, hsent, List.map_nil, List.map_nil]
  · rw [hsent, hstate, hout]
    rfl

/-- The dictionary stays small on chunks that are not too long. -/
theorem length_dict_enc {w : List UInt8} (hw : w.length ≤ 65278) : (enc w).dict.length < 65535 := by
  have := length_dict_encode_le alphabet w
  rw [length_alphabet] at this
  exact lt_of_le_of_lt this (by omega)

theorem length_nonzero_le (chunk : List UInt8) : (nonzero chunk).length ≤ chunk.length :=
  List.length_filter_le _ _

/-- The loop refines the abstract encoder: before each round its variables stand for the encoder
after the nonzero bytes up to there. -/
theorem lzwBefore_refines (signed : Bool) {chunk : List UInt8} (hlen : chunk.length ≤ 65278) :
    ∀ index, index < chunk.length →
      ∃ st, lzwBefore signed chunk index = some st ∧
        Refines signed (nonzero (chunk.take (index + 1))) st := by
  intro index
  induction index with
  | zero =>
      intro h0
      refine ⟨_, rfl, ?_⟩
      rw [List.take_succ_eq_append_getElem h0, List.take_zero, List.nil_append,
        List.getD_eq_getElem _ _ h0]
      exact lzwStart_refines signed _
  | succ index ih =>
      intro hindex
      obtain ⟨st, hst, href⟩ := ih (by omega)
      have hsmall : (enc (nonzero (chunk.take (index + 1)))).dict.length < 65535 := by
        refine length_dict_enc (le_trans (length_nonzero_le _) ?_)
        rw [List.length_take]
        omega
      rw [lzwBefore_succ, hst, Option.bind_some, List.getD_eq_getElem _ _ hindex,
        List.take_succ_eq_append_getElem hindex]
      by_cases hzero : chunk[index + 1] = 0
      · refine ⟨st, ?_, ?_⟩
        · rw [hzero, href.round_zero hsmall]
        · rwa [hzero, nonzero_concat_zero]
      · obtain ⟨st', hround, href'⟩ := href.round hsmall hzero
        exact ⟨st', hround, by rwa [nonzero_concat_of_ne _ hzero]⟩

/-! ### What the encoder ends with -/

/-- The phrases of a chunk. -/
def phrases (w : List UInt8) : List (List UInt8) := (enc w).phrases

theorem factors_phrases {w : List UInt8} (hw : w ≠ []) : Factors alphabet w (phrases w) :=
  factors_encode nodup_alphabet (fun c _ => mem_alphabet c) hw

/-- The number under which a phrase of the chunk is sent. -/
def codesOf (w : List UInt8) : List ℕ :=
  (phrases w).map fun p => (dictOf alphabet (phrases w)).idxOf p

theorem numbers_codesOf {w : List UInt8} (hw : w ≠ []) :
    Numbers alphabet (phrases w) (codesOf w) := (factors_phrases hw).numbers

/-- The variables after the last code. -/
structure Finished (signed : Bool) (chunk : List UInt8) (st : LzwState) : Prop where
  finish : lzwFinish signed chunk chunk.length = some st
  strings : st.sent.map (fun p => p.2.bytes) = phrases (nonzero chunk)
  codes : st.sent.map (fun p => p.1.toNat) = codesOf (nonzero chunk)
  packs : outputCodes (st.sent.map Prod.fst) = some (st.state, st.output)
  keys : ∃ keys, st.puts = numbered keys ∧ Keys (dictOf alphabet (phrases (nonzero chunk))) keys

/-- The codes and the bytes `run_LZW` ends with on a chunk that has a nonzero byte. -/
theorem lzwFinish_spec (signed : Bool) {chunk : List UInt8} (hlen : chunk.length ≤ 65278)
    (hne : nonzero chunk ≠ []) : ∃ st, Finished signed chunk st := by
  have hpos : 0 < chunk.length := by
    rw [List.length_pos_iff]
    rintro rfl
    exact hne rfl
  obtain ⟨st, hst, href⟩ := lzwBefore_refines signed hlen (chunk.length - 1) (by omega)
  rw [show chunk.length - 1 + 1 = chunk.length by omega, List.take_length] at href
  have hinv := enc_inv (nonzero chunk)
  have hcur : (enc (nonzero chunk)).cur ≠ [] := by
    refine fun hnil => hne ?_
    rcases hinv.cur_known with ⟨_, hsent⟩ | ⟨hcur, _⟩
    · rw [← hinv.flatten, Enc.phrases, hsent, hnil]
      rfl
    · exact absurd hnil hcur
  have hsmall := length_dict_enc (le_trans (length_nonzero_le chunk) hlen)
  obtain ⟨code, state, output, hsend, hcode, hpacks⟩ := href.send hsmall hcur
  have hstrlen : st.curr_str.strlen > 0 := by
    rw [CString.strlen, href.curr_eq]
    exact List.length_pos_of_ne_nil hcur
  refine ⟨{ st with state := state, output := output, sent := st.sent ++ [(code, st.curr_str)] },
    ?_, ?_, ?_, hpacks, ?_⟩
  · rw [lzwFinish_send hst hstrlen, hsend]
  · rw [List.map_append, href.strings, List.map_singleton, href.curr_eq]
    rfl
  · rw [List.map_append, href.codes, List.map_singleton, hcode, codesOf, phrases, ← hinv.dict_eq,
      Enc.phrases, List.map_append, List.map_singleton]
  · rw [phrases, ← hinv.dict_eq]
    exact href.keys

/-- On a chunk of zero bytes no code is sent. -/
theorem lzwFinish_zeros (signed : Bool) {chunk : List UInt8} (hlen : chunk.length ≤ 65278)
    (hpos : 0 < chunk.length) (hzero : nonzero chunk = []) :
    ∃ st, lzwFinish signed chunk chunk.length = some st ∧ st.sent = [] ∧ st.output = [] := by
  obtain ⟨st, hst, href⟩ := lzwBefore_refines signed hlen (chunk.length - 1) (by omega)
  rw [show chunk.length - 1 + 1 = chunk.length by omega, List.take_length, hzero] at href
  have hcurr : st.curr_str.bytes = [] := href.curr_eq
  have hstrings : st.sent.map (fun p => p.2.bytes) = [] := href.strings
  have hsent : st.sent = [] := List.map_eq_nil_iff.1 hstrings
  have hpacks := href.packs
  rw [hsent] at hpacks
  have hout : st.output = [] := by
    have := congrArg Prod.snd (Option.some_inj.1 hpacks)
    exact this.symm
  exact ⟨st, lzwFinish_done hst (by simp [CString.strlen, hcurr]), hsent, hout⟩

/-- A chunk of zero bytes compresses to nothing. -/
theorem run_LZW_zeros (signed : Bool) {chunk : List UInt8} (hlen : chunk.length ≤ 65278)
    (hpos : 0 < chunk.length) (hzero : nonzero chunk = []) :
    run_LZW signed chunk chunk.length = some [] := by
  obtain ⟨st, hfin, _, hout⟩ := lzwFinish_zeros signed hlen hpos hzero
  rw [run_LZW, hfin, Option.map_some, hout]

end Lzw

end DedupLzw
