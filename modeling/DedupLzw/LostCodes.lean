/-
**Codes that do not fit into 13 bits.**

`run_LZW` enters a string for every code it sends and never stops, so a chunk can fill its
dictionary beyond the 8192 entries that `output_code` can transmit.  An entry behind these is sent
exactly when its string comes again where a match starts, and this is the same as a string being
looked up in vain a second time with a dictionary that stops growing at 8192 entries.

A payload of 7939 bytes that loses a code is given here: a word in which no two neighbouring bytes
stand side by side again, until its last byte comes three times.

Main definitions:

* `DedupLzw.Lzw.CodesSurvive` — no code of a chunk is changed by the mask;
* `DedupLzw.Lzw.MissesOnce` — no string is looked up in vain twice;
* `DedupLzw.Lzw.pairwiseWord` — a payload with a code that does not fit.

Main results:

* `DedupLzw.Lzw.codesSurvive_iff` — **exactly when no code is lost**;
* `DedupLzw.Lzw.pairwiseWord_loses` — the payload that loses a code.
-/

import DedupLzw.ChunkCodec
import DedupLzw.WelchBounded

set_option relaxedAutoImplicit false
set_option autoImplicit false

namespace DedupLzw

namespace Lzw

open Hashtable Welch

/-! ### The condition -/

/-- Every code that `run_LZW` passes to `output_code` fits into 13 bits, and the mask leaves it the
value of its string in the dictionary. -/
def CodesSurvive (signed : Bool) (chunk : List UInt8) : Prop :=
  ∃ st, lzwFinish signed chunk chunk.length = some st ∧ ∀ p ∈ st.sent,
    p.1.toNat < 2 ^ 13 ∧ firstPut st.puts p.2 = some (toUInt16 (p.1 &&& 0x1FFF).toNat)

/-- With a dictionary that stops growing at 8192 entries, no string of the payload is looked up in
vain twice. -/
def MissesOnce (payload : List UInt8) : Prop :=
  (capped alphabet 8192 (nonzero payload)).missed.Nodup

instance (payload : List UInt8) : Decidable (MissesOnce payload) :=
  inferInstanceAs (Decidable (List.Nodup _))

/-- A word fits into 13 bits when the encoder whose dictionary stops misses no string twice. -/
theorem fits13_iff_nodup {w : List UInt8} (hw : w ≠ []) :
    Fits13 w ↔ (capped alphabet 8192 w).missed.Nodup := by
  have hdict : (enc w).dict = dictOf alphabet (phrases w) := (enc_inv w).dict_eq
  rw [nodup_missed_iff nodup_alphabet (by rw [length_alphabet]; norm_num)
    (fun c _ => mem_alphabet c) hw]
  change _ ↔ ∀ p ∈ phrases w, p ∈ (enc w).dict.take 8192
  rw [hdict]
  constructor
  · exact fun hfits => hfits _ (factors_phrases hw)
  · intro h ps hps
    rwa [hps.unique (factors_phrases hw)]

/-- The codes sent are the values of their strings. -/
theorem Finished.sent_eq {signed : Bool} {chunk : List UInt8} {st : LzwState}
    (h : Finished signed chunk st) (hne : nonzero chunk ≠ []) :
    ∀ p ∈ st.sent, firstPut st.puts p.2 = some (toUInt16 p.1.toNat) := by
  have hfac := factors_phrases hne
  have hcodes : st.sent.map (fun p => p.1.toNat)
      = st.sent.map fun p => (dictOf alphabet (phrases (nonzero chunk))).idxOf p.2.bytes := by
    rw [h.codes, codesOf, ← h.strings, List.map_map]
    rfl
  obtain ⟨keys, hputs, hkeys⟩ := h.keys
  intro p hp
  have hphrase : p.2.bytes ∈ phrases (nonzero chunk) := by
    rw [← h.strings]
    exact List.mem_map_of_mem hp
  rw [List.map_inj_left.1 hcodes p hp, hputs, hkeys.lookup (hfac.ne_nil _ hphrase),
    if_pos (hfac.mem_dict hphrase)]

/-- The codes of a chunk survive when its nonzero bytes fit into 13 bits. -/
theorem Finished.survive_iff {signed : Bool} {chunk : List UInt8} {st : LzwState}
    (h : Finished signed chunk st) (hne : nonzero chunk ≠ []) :
    CodesSurvive signed chunk ↔ Fits13 (nonzero chunk) := by
  rw [h.fits_iff_sent_lt hne]
  constructor
  · rintro ⟨st', hst', hsent⟩
    obtain rfl : st' = st := Option.some_inj.1 (hst'.symm.trans h.finish)
    exact fun p hp => (hsent p hp).1
  · intro hsmall
    refine ⟨st, h.finish, fun p hp => ⟨hsmall p hp, ?_⟩⟩
    have hmask : (p.1 &&& 0x1FFF).toNat = p.1.toNat :=
      (toNat_and_mask p.1 13 (by norm_num)).trans (Nat.mod_eq_of_lt (hsmall p hp))
    rw [h.sent_eq hne p hp, hmask]

/-- No code of a chunk with a payload of at most 8180 bytes is lost to the mask exactly when, with a
dictionary that stops growing at 8192 entries, no string of the payload is looked up in vain
twice. -/
theorem codesSurvive_iff (signed : Bool) {payload : List UInt8} (hlen : payload.length ≤ 8180) :
    CodesSurvive signed (payload ++ [0]) ↔ MissesOnce payload := by
  have hchunk : (payload ++ [0]).length = payload.length + 1 := by simp
  rw [MissesOnce, ← nonzero_concat_zero payload]
  by_cases hne : nonzero (payload ++ [0]) = []
  · -- without nonzero bytes nothing is sent
    obtain ⟨st, hfin, hsent, _⟩ := lzwFinish_zeros signed (by omega) (by omega) hne
    rw [hne]
    refine iff_of_true ⟨st, hfin, fun p hp => ?_⟩ List.nodup_nil
    rw [hsent] at hp
    exact absurd hp List.not_mem_nil
  · obtain ⟨st, hfin⟩ := lzwFinish_spec signed (by omega) hne
    rw [hfin.survive_iff hne, fits13_iff_nodup hne]

/-- The codes of three equal letters survive; the second phrase names an entry just made. -/
theorem codesSurvive_iff_aaa : CodesSurvive false [97, 97, 97, 0] :=
  (@codesSurvive_iff false [97, 97, 97] (by decide)).2 (by decide +kernel)

/-! ### A payload that loses a code -/

/-- The letters of the word, less one: in the block `q` of 251 letters they go up in steps of
`q + 1`, modulo 251. -/
def letterValue (j : ℕ) : ℕ := j % 251 * (j / 251 + 1) % 251

/-- The letters of the word; none of them is zero. -/
def letter (j : ℕ) : UInt8 := UInt8.ofNat (1 + letterValue j)

theorem letterValue_lt (j : ℕ) : letterValue j < 251 := Nat.mod_lt _ (by norm_num)

theorem toNat_letter (j : ℕ) : (letter j).toNat = 1 + letterValue j := by
  have hlt := letterValue_lt j
  rw [letter, UInt8.toNat_ofNat_of_lt' (by norm_num; omega)]

/-- The step from a letter to the next one tells the block, across the end of a block as well. -/
theorem letterValue_succ (j : ℕ) :
    letterValue (j + 1) = (letterValue j + (j / 251 + 1)) % 251 := by
  unfold letterValue
  rw [Nat.mod_add_mod]
  rcases Nat.lt_or_ge (j % 251) 250 with hlt | hge
  · rw [show (j + 1) % 251 = j % 251 + 1 by omega, show (j + 1) / 251 = j / 251 by omega,
      Nat.succ_mul]
  · rw [show (j + 1) % 251 = 0 by omega, show j % 251 = 250 by omega, Nat.zero_mul,
      show 250 * (j / 251 + 1) + (j / 251 + 1) = 251 * (j / 251 + 1) by ring, Nat.mul_mod_right]

/-- Two neighbours differ. -/
theorem letter_ne_succ {j : ℕ} (hj : j < 62750) : letter j ≠ letter (j + 1) := by
  rw [Ne, ← UInt8.toNat_inj, toNat_letter, toNat_letter, letterValue_succ]
  have := letterValue_lt j
  omega

/-- Two neighbours do not stand side by side again. -/
theorem letter_pair_inj {i j : ℕ} (hi : i < 62750) (hj : j < 62750) (h : letter i = letter j)
    (h' : letter (i + 1) = letter (j + 1)) : i = j := by
  rw [← UInt8.toNat_inj, toNat_letter, toNat_letter] at h h'
  rw [letterValue_succ, letterValue_succ] at h'
  have hblock : i / 251 = j / 251 := by omega
  -- within a block the letters are multiples of a number prime to 251
  have hmul : i % 251 * (j / 251 + 1) ≡ j % 251 * (j / 251 + 1) [MOD 251] := by
    have hval : letterValue i = letterValue j := by omega
    unfold letterValue at hval
    rwa [hblock] at hval
  have hprime : Nat.Prime 251 := by norm_num
  have hcoprime : Nat.Coprime 251 (j / 251 + 1) :=
    hprime.coprime_iff_not_dvd.2 (Nat.not_dvd_of_pos_of_lt (by omega) (by omega))
  have hmod : i % 251 ≡ j % 251 [MOD 251] := Nat.ModEq.cancel_right_of_coprime hcoprime hmul
  have hrest : i % 251 = j % 251 := by
    rwa [Nat.ModEq, Nat.mod_mod, Nat.mod_mod] at hmod
  omega

/-- The letters up to number `n` as phrases, and the last of them twice as one more phrase. -/
def pairwisePhrases (n : ℕ) : List (List UInt8) :=
  ((List.range (n + 1)).map fun j => [letter j]) ++ [[letter n, letter n]]

/-- The entries that the letters add. -/
theorem growths_letters (n : ℕ) :
    growths ((List.range (n + 1)).map fun j => [letter j])
      = (List.range n).map fun j => [letter j, letter (j + 1)] := by
  induction n with
  | zero => rfl
  | succ n ih =>
      rw [List.range_succ, List.range_succ, List.map_append, List.map_append, List.append_assoc]
      rw [List.range_succ, List.map_append] at ih
      rw [List.map_append (f := fun j => [letter j, letter (j + 1)]), ← ih]
      exact growths_append_pair _ _ _

theorem growths_pairwisePhrases (n : ℕ) :
    growths (pairwisePhrases n)
      = ((List.range n).map fun j => [letter j, letter (j + 1)]) ++ [[letter n, letter n]] := by
  have hletters := growths_letters n
  rw [List.range_succ, List.map_append] at hletters
  rw [pairwisePhrases, List.range_succ, List.map_append, List.append_assoc, ← hletters]
  exact growths_append_pair _ _ _

/-- No entry is added twice. -/
theorem nodup_pairwisePhrases {n : ℕ} (hn : n < 62750) :
    (dictOf alphabet (pairwisePhrases n)).Nodup := by
  have hsingles : (singles alphabet).Nodup :=
    nodup_alphabet.map fun a b hab => by simpa using hab
  have hpairs : ((List.range n).map fun j => [letter j, letter (j + 1)]).Nodup := by
    refine List.nodup_range.map_on fun i hi j hj heq => ?_
    have hi' := List.mem_range.1 hi
    have hj' := List.mem_range.1 hj
    simp only [List.cons.injEq, and_true] at heq
    exact letter_pair_inj (by omega) (by omega) heq.1 heq.2
  rw [dictOf, growths_pairwisePhrases]
  refine hsingles.append (hpairs.append (List.nodup_singleton _) ?_) ?_
  · -- two neighbours differ
    intro s hs hlast
    obtain ⟨j, hj, rfl⟩ := List.mem_map.1 hs
    have hj' := List.mem_range.1 hj
    have heq := List.mem_singleton.1 hlast
    simp only [List.cons.injEq, and_true] at heq
    exact letter_ne_succ (by omega) (heq.1.trans heq.2.symm)
  · -- an entry has two letters
    intro s hs hgrown
    obtain ⟨c, _, rfl⟩ := mem_singles.1 hs
    rcases List.mem_append.1 hgrown with hpair | hlast
    · obtain ⟨j, _, heq⟩ := List.mem_map.1 hpair
      simp at heq
    · simp at hlast

/-- The word: the letters up to number 7936, and this one twice more. -/
def pairwiseWord : List UInt8 := (pairwisePhrases 7936).flatten

/-- The entry of the last phrase. -/
theorem getElem?_pairwisePhrases (n : ℕ) :
    (dictOf alphabet (pairwisePhrases n))[256 + n]? = some [letter n, letter n] := by
  rw [dictOf, growths_pairwisePhrases, List.getElem?_append_right (by simp), length_singles,
    length_alphabet, Nat.add_sub_cancel_left, List.getElem?_append_right (by simp)]
  simp

/-- The word is cut into its letters, and its last phrase names the entry still being built. -/
theorem factors_pairwisePhrases {n : ℕ} (hn : n < 62750) :
    Factors alphabet (pairwisePhrases n).flatten (pairwisePhrases n) := by
  have hlen : (pairwisePhrases n).length = n + 2 := by simp [pairwisePhrases]
  refine ⟨rfl, nodup_pairwisePhrases hn, fun m hm => ?_⟩
  rw [length_alphabet]
  rcases Nat.lt_or_ge m (n + 1) with hlt | hge
  · obtain ⟨k, hk, hget⟩ := List.getElem_of_mem (mem_alphabet (letter m))
    refine ⟨k, by rw [length_alphabet] at hk; omega, ?_⟩
    rw [getElem?_singles hk, hget]
    simp [pairwisePhrases, List.getElem_append_left, hlt]
  · obtain rfl : m = n + 1 := by omega
    refine ⟨256 + n, by omega, ?_⟩
    rw [getElem?_pairwisePhrases]
    simp [pairwisePhrases]

theorem not_fits13_pairwiseWord : ¬ Fits13 pairwiseWord := by
  intro hfits
  have hmem : [letter 7936, letter 7936] ∈ pairwisePhrases 7936 :=
    List.mem_append_right _ (List.mem_singleton_self _)
  obtain ⟨k, hk, hget⟩ :=
    List.mem_take_iff_getElem.1 (hfits _ (factors_pairwisePhrases (by norm_num)) _ hmem)
  obtain ⟨h8192, hget'⟩ := List.getElem?_eq_some_iff.1 (getElem?_pairwisePhrases 7936)
  have heq := (nodup_pairwisePhrases (by norm_num)).getElem_inj_iff.1 (hget.trans hget'.symm)
  omega

theorem nonzero_pairwiseWord : nonzero pairwiseWord = pairwiseWord := by
  rw [nonzero, List.filter_eq_self]
  intro c hc
  have hletter : ∀ j, letter j ≠ 0 := by
    intro j h0
    have := toNat_letter j
    rw [h0, UInt8.toNat_zero] at this
    omega
  obtain ⟨p, hp, hcp⟩ := List.mem_flatten.1 hc
  rcases List.mem_append.1 hp with hfirst | hlast
  · obtain ⟨j, _, rfl⟩ := List.mem_map.1 hfirst
    rw [List.mem_singleton.1 hcp]
    simpa using hletter j
  · rw [List.mem_singleton.1 hlast] at hcp
    simp only [List.mem_cons, List.not_mem_nil, or_false, or_self] at hcp
    rw [hcp]
    simpa using hletter 7936

theorem length_flatten_pairwisePhrases (n : ℕ) : (pairwisePhrases n).flatten.length = n + 3 := by
  simp [pairwisePhrases, List.length_flatten, Function.comp_def]

/-- A payload of 7939 nonzero bytes whose last code is 8192. -/
theorem pairwiseWord_loses :
    pairwiseWord.length ≤ 8180 ∧ ¬ CodesSurvive false (pairwiseWord ++ [0]) := by
  have hlen : pairwiseWord.length = 7936 + 3 := length_flatten_pairwisePhrases 7936
  have hword : nonzero (pairwiseWord ++ [0]) = pairwiseWord := by
    rw [nonzero_concat_zero, nonzero_pairwiseWord]
  have hne : nonzero (pairwiseWord ++ [0]) ≠ [] := by
    rw [hword]
    exact List.ne_nil_of_length_pos (by omega)
  obtain ⟨st, hfin⟩ := lzwFinish_spec false (by rw [List.length_append, hlen]; norm_num) hne
  refine ⟨by omega, ?_⟩
  rw [hfin.survive_iff hne, hword]
  exact not_fits13_pairwiseWord

end Lzw

end DedupLzw
