/-
**The dictionary of `run_LZW`.**

`put` does not look whether a key is there, and `get` says that it found nothing by a value that
could be one.  That no key is put twice and every code is a real one comes from the loop: the new
string has just been looked up in vain, it extends a key by one character, and the next match is a
single character, which has been a key from the start.  A zero byte extends nothing, so the string
looked up is the current match itself, a key; and a match that starts with a zero byte is the empty
string, the key with the value 0.

Main definitions:

* `DedupLzw.Lzw.DictInv` — the invariant of the loop, in terms of the keys in the order of the calls
  of `put`;
* `DedupLzw.Lzw.Dictionary` — what it says about the table.

Main results:

* `DedupLzw.Lzw.DictInv.round` — one round keeps the invariant;
* `DedupLzw.Lzw.lzwBefore_dictInv` — the rounds;
* `DedupLzw.Lzw.run_LZW_dictionary` — **the dictionary in every round, and the codes sent**.
-/

import DedupLzw.StringBuffers

set_option relaxedAutoImplicit false
set_option autoImplicit false

namespace DedupLzw

namespace Lzw

open Hashtable

/-! ### The invariant -/

/-- The codes sent are the numbers of their strings. -/
def Coded (keys : List CString) (sent : List (BitVec 32 × CString)) : Prop :=
  ∀ p ∈ sent, p.2 ∈ keys ∧ p.1 = (toUInt16 (keys.idxOf p.2)).toBitVec.setWidth 32

/-- What holds before every round, with the keys in the order in which they were put. -/
structure DictInv (signed : Bool) (keys : List CString) (st : LzwState) : Prop where
  dict : Represents signed st.dict st.puts
  puts_eq : st.puts = numbered keys
  num_eq : st.num = keys.length
  nodup : keys.Nodup
  /-- The strings of one byte; the one of the byte 0 is empty. -/
  letters : ∀ c, CString.ofBytes [c] ∈ keys
  prefixes : ∀ k ∈ keys, 2 ≤ k.strlen → ∃ k' ∈ keys, k'.bytes = k.bytes.dropLast
  curr : st.curr_str ∈ keys
  count : st.num = 256 + st.sent.length
  coded : Coded keys st.sent

/-- Numbers do not change when keys are added. -/
theorem Coded.append {keys : List CString} {sent : List (BitVec 32 × CString)}
    (h : Coded keys sent) (key : CString) : Coded (keys ++ [key]) sent := by
  intro p hp
  obtain ⟨hmem, hcode⟩ := h p hp
  exact ⟨List.mem_append_left _ hmem, by rw [List.idxOf_append_of_mem hmem, hcode]⟩

theorem Coded.concat {keys : List CString} {sent : List (BitVec 32 × CString)}
    (h : Coded keys sent) {key : CString} (hkey : key ∈ keys) :
    Coded keys (sent ++ [((toUInt16 (keys.idxOf key)).toBitVec.setWidth 32, key)]) := by
  intro p hp
  rcases List.mem_append.1 hp with hp | hp
  · exact h p hp
  · rw [List.mem_singleton.1 hp]
    exact ⟨hkey, rfl⟩

section Round

variable {signed : Bool} {keys : List CString} {st : LzwState}

/-- What `get` answers. -/
theorem DictInv.get_eq (h : DictInv signed keys st) (key : CString) :
    get signed st.dict key = if key ∈ keys then toUInt16 (keys.idxOf key) else notFound := by
  rw [h.dict.get_eq, h.puts_eq, firstPut_numbered]
  split <;> rfl

/-- As long as the numbers stay below the in-band "not found", it tells the keys. -/
theorem DictInv.get_eq_notFound_iff (h : DictInv signed keys st) (hsmall : st.num ≤ 65535)
    (key : CString) : get signed st.dict key = notFound ↔ key ∉ keys := by
  rw [h.get_eq]
  by_cases hmem : key ∈ keys
  · have hidx := List.idxOf_lt_length_of_mem hmem
    rw [← h.num_eq] at hidx
    rw [if_pos hmem]
    exact iff_of_false (toUInt16_ne_notFound (by omega)) (not_not.2 hmem)
  · rw [if_neg hmem]
    exact iff_of_true rfl hmem

/-- Sending the current match. -/
theorem DictInv.send (h : DictInv signed keys st) {st' : LzwState}
    (hsend : st.send signed = some st') :
    st'.dict = st.dict ∧ st'.puts = st.puts ∧ st'.num = st.num ∧ st'.curr_str = st.curr_str ∧
      st'.sent.length = st.sent.length + 1 ∧ Coded keys st'.sent := by
  have hcode : get signed st.dict st.curr_str = toUInt16 (keys.idxOf st.curr_str) := by
    rw [h.get_eq, if_pos h.curr]
  rw [send_eq, hcode, Option.map_eq_some_iff] at hsend
  obtain ⟨r, _, rfl⟩ := hsend
  exact ⟨rfl, rfl, rfl, rfl, List.length_append, h.coded.concat h.curr⟩

/-- The match becomes another key. -/
theorem DictInv.found (h : DictInv signed keys st) {key : CString} (hkey : key ∈ keys) :
    DictInv signed keys { st with curr_str := key } :=
  ⟨h.dict, h.puts_eq, h.num_eq, h.nodup, h.letters, h.prefixes, hkey, h.count, h.coded⟩

/-- A new string extends a key by one character. -/
theorem DictInv.extends (h : DictInv signed keys st) {c : UInt8}
    (hnew : strcat st.curr_str (CString.ofBytes [c]) ∉ keys) :
    (strcat st.curr_str (CString.ofBytes [c])).bytes.dropLast = st.curr_str.bytes := by
  by_cases hc : c = 0
  · -- a zero byte extends nothing
    have hsame : strcat st.curr_str (CString.ofBytes [c]) = st.curr_str := by
      ext1
      rw [strcat_bytes, hc, CString.ofBytes_zero, List.append_nil]
    rw [hsame] at hnew
    exact absurd h.curr hnew
  · rw [strcat_bytes, CString.ofBytes_ne_zero hc, List.dropLast_concat]

/-- The new string is put into the dictionary, and the match starts again. -/
theorem DictInv.absent (h : DictInv signed keys st) {c : UInt8} {st' : LzwState}
    (hnew : strcat st.curr_str (CString.ofBytes [c]) ∉ keys)
    (hsend : st.send signed = some st') :
    DictInv signed (keys ++ [strcat st.curr_str (CString.ofBytes [c])])
      { st'.put signed (strcat st.curr_str (CString.ofBytes [c])) st'.num with
        num := st'.num + 1, curr_str := CString.ofBytes [c] } := by
  obtain ⟨hdict, hputs, hnum, _, hsent, hcoded⟩ := h.send hsend
  have hcount := h.count
  refine ⟨?_, ?_, ?_, ?_, ?_, ?_, ?_, ?_, ?_⟩
  · simp only [LzwState.put, hdict, hputs]
    exact represents_put h.dict _ _
  · simp only [LzwState.put, hputs, hnum]
    rw [numbered_concat, h.puts_eq, h.num_eq]
  · simp only [hnum, h.num_eq, List.length_append, List.length_singleton]
  · rw [← List.concat_eq_append]
    exact h.nodup.concat hnew
  · exact fun c => List.mem_append_left _ (h.letters c)
  · intro k hk hlen
    rcases List.mem_append.1 hk with hk | hk
    · obtain ⟨k', hk', hprefix⟩ := h.prefixes k hk hlen
      exact ⟨k', List.mem_append_left _ hk', hprefix⟩
    · rw [List.mem_singleton.1 hk]
      exact ⟨st.curr_str, List.mem_append_left _ h.curr, (h.extends hnew).symm⟩
  · exact List.mem_append_left _ (h.letters c)
  · simp only [LzwState.put, hnum, hsent]
    omega
  · exact hcoded.append _

/-- One round. -/
theorem DictInv.round (h : DictInv signed keys st) (hsmall : st.num ≤ 65535) {c : UInt8}
    {st' : LzwState} (hround : lzwRound signed st c = some st') :
    ∃ keys', DictInv signed keys' st' := by
  by_cases hnew : strcat st.curr_str (CString.ofBytes [c]) ∈ keys
  · have hget : get signed st.dict (strcat st.curr_str (CString.ofBytes [c])) ≠ notFound :=
      fun hno => (h.get_eq_notFound_iff hsmall _).1 hno hnew
    rw [lzwRound_found hget, Option.some_inj] at hround
    exact ⟨keys, hround ▸ h.found hnew⟩
  · rw [lzwRound_absent ((h.get_eq_notFound_iff hsmall _).2 hnew)] at hround
    cases hsend : st.send signed with
    | none =>
        rw [hsend] at hround
        cases hround
    | some st₁ =>
        obtain ⟨_, _, _, hcurr, _⟩ := h.send hsend
        rw [hsend, Option.map_some, Option.some_inj, hcurr] at hround
        exact ⟨_, hround ▸ h.absent hnew hsend⟩

end Round

/-! ### The rounds -/

theorem ofBytes_injective {a b : UInt8} (h : CString.ofBytes [a] = CString.ofBytes [b]) :
    a = b := by
  have hbytes := congrArg CString.bytes h
  by_cases ha : a = 0 <;> by_cases hb : b = 0
  · rw [ha, hb]
  · rw [ha, CString.ofBytes_zero, CString.ofBytes_ne_zero hb] at hbytes
    cases hbytes
  · rw [hb, CString.ofBytes_zero, CString.ofBytes_ne_zero ha] at hbytes
    cases hbytes
  · rw [CString.ofBytes_ne_zero ha, CString.ofBytes_ne_zero hb] at hbytes
    exact List.singleton_inj.1 hbytes

/-- The first 256 strings are those of one byte. -/
theorem intString_eq : ∀ num < 256, intString num = CString.ofBytes [UInt8.ofNat num] := by
  decide +kernel

/-- The dictionary before the loop. -/
theorem lzwStart_dictInv (signed : Bool) (first : UInt8) :
    DictInv signed ((List.range 256).map intString) (lzwStart signed first) := by
  obtain ⟨hputs, hdict, hnum, hcurr, hsent, _, _⟩ := lzwStart_spec signed first
  have hletters : ∀ c, CString.ofBytes [c] ∈ (List.range 256).map intString := by
    intro c
    refine List.mem_map.2 ⟨c.toNat, List.mem_range.2 c.toNat_lt, ?_⟩
    rw [intString_eq _ c.toNat_lt, UInt8.ofNat_toNat]
  refine ⟨hdict, hputs, by rw [hnum, List.length_map, List.length_range], ?_, hletters, ?_,
    hcurr ▸ hletters first, by rw [hnum, hsent]; rfl, ?_⟩
  · refine List.Nodup.map_on ?_ List.nodup_range
    intro m hm n hn heq
    rw [List.mem_range] at hm hn
    rw [intString_eq m hm, intString_eq n hn] at heq
    have hnat := congrArg UInt8.toNat (ofBytes_injective heq)
    rwa [UInt8.toNat_ofNat_of_lt' hm, UInt8.toNat_ofNat_of_lt' hn] at hnat
  · -- none of these has two characters
    intro k hk hlen
    obtain ⟨num, hnum, rfl⟩ := List.mem_map.1 hk
    rw [intString_eq num (List.mem_range.1 hnum), strlen_ofBytes] at hlen
    split at hlen <;> omega
  · rw [hsent]
    exact fun p hp => absurd hp List.not_mem_nil

theorem lzwBefore_dictInv (signed : Bool) (chunk : List UInt8) {index : ℕ}
    (hindex : index ≤ 65280) {st : LzwState} (hst : lzwBefore signed chunk index = some st) :
    ∃ keys, DictInv signed keys st := by
  induction index generalizing st with
  | zero =>
      obtain rfl : lzwStart signed (chunk.getD 0 0) = st := Option.some_inj.1 hst
      exact ⟨_, lzwStart_dictInv signed _⟩
  | succ index ih =>
      obtain ⟨st₀, hst₀, hbounded⟩ := lzwBefore_bounded signed chunk index
      obtain ⟨keys, hinv⟩ := ih (by omega) hst₀
      rw [lzwBefore_succ, hst₀, Option.bind_some] at hst
      have hcount := hinv.count
      have hsent := hbounded.sent
      exact hinv.round (by omega) hst

/-! ### The table -/

/-- The keys of the dictionary, chain after chain. -/
def dictKeys (st : LzwState) : List CString := (entries st.dict).map Prod.fst

/-- The dictionary before a round of the loop, or before the last code is sent. -/
structure Dictionary (signed : Bool) (st : LzwState) : Prop where
  distinct : (dictKeys st).Nodup
  values : ((entries st.dict).map fun e => e.2.toNat).Perm (List.range st.num)
  prefixes : ∀ k ∈ dictKeys st, 2 ≤ k.strlen → ∃ k' ∈ dictKeys st, k'.bytes = k.bytes.dropLast
  curr : st.curr_str ∈ dictKeys st
  /-- A string that is put into the dictionary is not there. -/
  absent : ∀ next : UInt8,
    get signed st.dict (strcat st.curr_str (CString.ofBytes [next])) = notFound →
      strcat st.curr_str (CString.ofBytes [next]) ∉ dictKeys st
  /-- A code sent is the value under which the match was put. -/
  code : (st.curr_str, get signed st.dict st.curr_str) ∈ entries st.dict
  found : get signed st.dict st.curr_str ≠ notFound
  count : st.num = 256 + st.sent.length

section Table

variable {signed : Bool} {keys : List CString} {st : LzwState}

theorem DictInv.mem_dictKeys (h : DictInv signed keys st) {key : CString} :
    key ∈ dictKeys st ↔ key ∈ keys := by
  have hperm := h.dict.entries_perm.map Prod.fst
  rw [h.puts_eq, numbered, FirstSeen.map_fst_numbered] at hperm
  exact hperm.mem_iff

/-- Every key is in the table with its number. -/
theorem DictInv.mem_entries (h : DictInv signed keys st) {key : CString} (hkey : key ∈ keys) :
    (key, toUInt16 (keys.idxOf key)) ∈ entries st.dict := by
  have hfirst := firstPut_numbered keys key
  rw [if_pos hkey, firstPut_eq_ofList, ← h.puts_eq] at hfirst
  exact h.dict.entries_perm.mem_iff.2 (FirstWins.mem_of_ofList_eq_some hfirst)

theorem toNat_toUInt16 {n : ℕ} (h : n < 65536) : (toUInt16 n).toNat = n := by
  rw [toUInt16, UInt16.toNat_ofNat_of_lt' (by norm_num; omega)]

theorem DictInv.dictionary (h : DictInv signed keys st) (hsmall : st.num ≤ 65535) :
    Dictionary signed st := by
  have hperm := h.dict.entries_perm
  rw [h.puts_eq, numbered] at hperm
  have hcode : get signed st.dict st.curr_str = toUInt16 (keys.idxOf st.curr_str) := by
    rw [h.get_eq, if_pos h.curr]
  refine ⟨?_, ?_, ?_, h.mem_dictKeys.2 h.curr, ?_, ?_, ?_, h.count⟩
  · have hkeys := hperm.map Prod.fst
    rw [FirstSeen.map_fst_numbered] at hkeys
    exact hkeys.nodup_iff.2 h.nodup
  · have hvalues := (hperm.map Prod.snd).map UInt16.toNat
    rw [FirstSeen.map_snd_numbered, List.map_map, List.map_map, ← h.num_eq] at hvalues
    have hnumbers : (List.range st.num).map (UInt16.toNat ∘ toUInt16) = List.range st.num := by
      refine (List.map_congr_left fun n hn => ?_).trans (List.map_id' _)
      have hlt := List.mem_range.1 hn
      exact toNat_toUInt16 (by omega)
    rwa [hnumbers] at hvalues
  · intro k hk hlen
    obtain ⟨k', hk', hprefix⟩ := h.prefixes k (h.mem_dictKeys.1 hk) hlen
    exact ⟨k', h.mem_dictKeys.2 hk', hprefix⟩
  · intro next hno hmem
    exact (h.get_eq_notFound_iff hsmall _).1 hno (h.mem_dictKeys.1 hmem)
  · rw [hcode]
    exact h.mem_entries h.curr
  · exact fun hno => (h.get_eq_notFound_iff hsmall _).1 hno h.curr

/-- Codes sent are values in the table. -/
theorem DictInv.values_of_coded (h : DictInv signed keys st) (hsmall : st.num ≤ 65535)
    {sent : List (BitVec 32 × CString)} (hcoded : Coded keys sent) :
    ∀ p ∈ sent, ∃ value, (p.2, value) ∈ entries st.dict ∧ value ≠ notFound ∧
      p.1 = value.toBitVec.setWidth 32 := by
  intro p hp
  obtain ⟨hkey, hcode⟩ := hcoded p hp
  have hidx := List.idxOf_lt_length_of_mem hkey
  rw [← h.num_eq] at hidx
  exact ⟨_, h.mem_entries hkey, toUInt16_ne_notFound (by omega), hcode⟩

end Table

/-- The dictionary of `run_LZW` on a chunk of at most 8193 bytes.  In every round, and before the
last code is sent: its keys are pairwise different, the values are the numbers below `num`, each
used once, a key of two characters or more extends a key, the current match is a key, `get` finds
the value under which it was put, a new string is not in the dictionary before it is put there, and
there are `num - 256` codes sent.  All codes sent, the last one included, are values of their
strings. -/
theorem run_LZW_dictionary (signed : Bool) {chunk : List UInt8} (hlen : chunk.length ≤ 8193) :
    (∀ index ≤ chunk.length - 1,
      ∃ st, lzwBefore signed chunk index = some st ∧ Dictionary signed st) ∧
    ∃ st, lzwFinish signed chunk chunk.length = some st ∧
      ∀ p ∈ st.sent, ∃ value, (p.2, value) ∈ entries st.dict ∧ value ≠ notFound ∧
        p.1 = value.toBitVec.setWidth 32 := by
  have hround : ∀ index ≤ chunk.length - 1, ∃ st keys,
      lzwBefore signed chunk index = some st ∧ DictInv signed keys st ∧ st.num ≤ 65535 ∧
        Bounded index st := by
    intro index hindex
    obtain ⟨st, hst, hbounded⟩ := lzwBefore_bounded signed chunk index
    obtain ⟨keys, hinv⟩ := lzwBefore_dictInv signed chunk (by omega) hst
    have hcount := hinv.count
    have hsent := hbounded.sent
    exact ⟨st, keys, hst, hinv, by omega, hbounded⟩
  constructor
  · intro index hindex
    obtain ⟨st, keys, hst, hinv, hsmall, _⟩ := hround index hindex
    exact ⟨st, hst, hinv.dictionary hsmall⟩
  · obtain ⟨st, keys, hst, hinv, hsmall, hbounded⟩ := hround (chunk.length - 1) le_rfl
    by_cases hcurr : st.curr_str.strlen > 0
    · obtain ⟨state, output, hsend, _⟩ := send_packs signed hbounded.packs
      obtain ⟨_, _, _, _, _, hcoded⟩ := hinv.send hsend
      refine ⟨_, by rw [lzwFinish_send hst hcurr, hsend], ?_⟩
      exact hinv.values_of_coded hsmall hcoded
    · exact ⟨st, lzwFinish_done hst hcurr, hinv.values_of_coded hsmall hinv.coded⟩

/-- A string that is looked up right after it was put. -/
theorem run_LZW_dictionary_aaa :
    (∃ st, lzwBefore false [97, 97, 97, 0] 2 = some st ∧ Dictionary false st) ∧
      ∃ st, lzwFinish false [97, 97, 97, 0] 4 = some st ∧
        ∀ p ∈ st.sent, ∃ value, (p.2, value) ∈ entries st.dict ∧ value ≠ notFound ∧
          p.1 = value.toBitVec.setWidth 32 := by
  have hlen : ([97, 97, 97, 0] : List UInt8).length ≤ 4 := le_rfl
  obtain ⟨hrounds, hfinish⟩ := run_LZW_dictionary false (hlen.trans (by norm_num))
  exact ⟨hrounds 2 (by norm_num), hfinish⟩

end Lzw

end DedupLzw
