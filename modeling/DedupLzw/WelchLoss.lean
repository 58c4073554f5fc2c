/-
**Welch's code with some codes replaced by letters.**

A channel that cannot carry large code numbers may deliver a letter in the place of a longer
phrase.  The decoder cannot notice: it goes on with a table whose entries are shorter than the
encoder's.  This module bounds what comes out: the decoder still finishes, its output is never
longer than the word, and it is strictly shorter as soon as one code was replaced.  In particular
such a run never returns the word.

Main definitions:

* `Welch.Garbled` — codes some of which were replaced by letters;
* `Welch.Dec.phrase` — what a code stands for;
* `Welch.Dec.Short` — the decoder's state is dominated, entry by entry, by the encoder's.

Main results:

* `Welch.Dec.Short.phrase_le` — a code stands for nothing longer than what was sent;
* `Welch.Dec.Short.step` — one code keeps the decoder dominated;
* `Welch.Factors.decode_garbled` — **a replaced code always costs length**.
-/

import DedupLzw.Welch

set_option relaxedAutoImplicit false
set_option autoImplicit false

namespace Welch

variable {α : Type}

/-- The codes `ds` are the codes `cs`, except that some codes of longer phrases were replaced by
letters. -/
structure Garbled (base : List α) (cs ds : List ℕ) : Prop where
  length_eq : ds.length = cs.length
  kept_or_letter : ∀ m (h : m < ds.length) (h' : m < cs.length),
    ds[m] = cs[m] ∨ ds[m] < base.length ∧ base.length ≤ cs[m]

/-- What a code stands for, if the code before it stood for `prev`. -/
def Dec.phrase (d : Dec α) (prev : List α) (c : ℕ) : List α :=
  if c < d.table.length then d.table.getD c [] else prev ++ d.sym

theorem Dec.getElem?_of_lt (d : Dec α) (prev : List α) {c : ℕ} (hc : c < d.table.length) :
    d.table[c]? = some (d.phrase prev c) := by
  rw [Dec.phrase, if_pos hc, List.getD_eq_getElem _ _ hc, List.getElem?_eq_getElem hc]

theorem Dec.phrase_of_ge (d : Dec α) (prev : List α) {c : ℕ} (hc : d.table.length ≤ c) :
    d.phrase prev c = prev ++ d.sym := if_neg (Nat.not_lt_of_le hc)

theorem Dec.step_of_old {d : Dec α} {prev : List α} (hold : d.table[d.old]? = some prev) (c : ℕ) :
    d.step c = some ⟨d.table ++ [prev ++ (d.phrase prev c).take 1], c, (d.phrase prev c).take 1,
      d.out ++ d.phrase prev c⟩ := by
  rw [Dec.step, hold, Option.map_some]
  rfl

/-- The decoder after `m + 1` codes holds nothing longer than the encoder did. -/
structure Dec.Short (base : List α) (ps : List (List α)) (m : ℕ) (hm : m < ps.length)
    (d : Dec α) : Prop where
  length_table : d.table.length = base.length + m
  letters : ∀ k (h : k < base.length), d.table[k]? = some [base[k]]
  entries : ∀ (k : ℕ) (s t : List α), d.table[k]? = some s → (dictOf base ps)[k]? = some t →
    s.length ≤ t.length
  old_known : ∃ s, d.table[d.old]? = some s ∧ s.length ≤ ps[m].length
  sym_le : d.sym.length ≤ 1
  out_le : d.out.length ≤ (ps.take (m + 1)).flatten.length

section Facts

variable {base w : List α} {ps : List (List α)} {cs ds : List ℕ}

theorem Numbers.getElem_of_letter (hcs : Numbers base ps cs) {m : ℕ} (hm : m < cs.length)
    (hm' : m < ps.length) (h : cs[m] < base.length) : ps[m].length = 1 := by
  have hget := hcs.get m hm hm'
  rw [getElem?_singles h] at hget
  rw [← Option.some_inj.1 hget]
  rfl

/-- A code past the letters stands for a phrase of at least two letters. -/
theorem Factors.two_le_length (h : Factors base w ps) (hcs : Numbers base ps cs) {m : ℕ}
    (hm : m < cs.length) (hm' : m < ps.length) (hbig : base.length ≤ cs[m]) :
    2 ≤ ps[m].length := by
  have hget := hcs.get m hm hm'
  have hlt := hcs.lt m hm
  obtain ⟨j, hj⟩ : ∃ j, cs[m] = base.length + j := ⟨cs[m] - base.length, by omega⟩
  have hj1 : j + 1 < ps.length := by omega
  rw [hj, dictOf_growth hj1] at hget
  have hj' : j < ps.length := by omega
  have hne := List.length_pos_of_ne_nil (h.ne_nil _ (List.getElem_mem hj'))
  have hne' := List.length_pos_of_ne_nil (h.ne_nil _ (List.getElem_mem hj1))
  rw [← Option.some_inj.1 hget, List.length_append, List.length_take]
  omega

theorem Dec.short_start {c : ℕ} (hm : 0 < ps.length)
    (hpos : 1 ≤ ps[0].length) (hc : c < base.length) :
    Dec.Short base ps 0 hm (Dec.start base c) := by
  have hget : (singles base).getD c [] = [base[c]] := by
    rw [List.getD_eq_getElem _ _ (by simpa using hc)]
    simp [singles]
  refine ⟨by simp [Dec.start], ?_, ?_, ?_, ?_, ?_⟩
  · intro k hk
    simp [Dec.start, singles, hk]
  · intro k s t hs ht
    have hk : k < base.length := by
      simpa [Dec.start] using (List.getElem?_eq_some_iff.1 hs).1
    rw [getElem?_singles hk] at ht
    have hs' : [base[k]] = s := by simpa [Dec.start, singles, hk] using hs
    rw [← hs', ← Option.some_inj.1 ht]
  · exact ⟨[base[c]], by simp [Dec.start, singles, hc], hpos⟩
  · rw [Dec.start, hget]
    exact le_rfl
  · rw [List.take_succ_eq_append_getElem hm, Dec.start, hget]
    simpa using hpos

/-- The entry that the encoder makes is one letter longer than the phrase it has just sent. -/
theorem Factors.length_growth (h : Factors base w ps) {m : ℕ} (hold : m < ps.length)
    (hm : m + 1 < ps.length) : (ps[m] ++ ps[m + 1].take 1).length = ps[m].length + 1 := by
  have hpos := List.length_pos_of_ne_nil (h.ne_nil _ (List.getElem_mem hm))
  rw [List.length_append, List.length_take]
  omega

/-- What a code stands for is no longer than the phrase that was sent, and shorter if the code was
replaced. -/
theorem Dec.Short.phrase_le (h : Factors base w ps) (hcs : Numbers base ps cs) {m : ℕ} {d : Dec α}
    {hold : m < ps.length} (hd : Dec.Short base ps m hold d) (hm : m + 1 < ps.length)
    (hm' : m + 1 < cs.length) {c : ℕ}
    (hc : c = cs[m + 1] ∨ c < base.length ∧ base.length ≤ cs[m + 1]) {prev : List α}
    (hprev : prev.length ≤ ps[m].length) :
    (d.phrase prev c).length ≤ ps[m + 1].length ∧
      (c ≠ cs[m + 1] → (d.phrase prev c).length < ps[m + 1].length) := by
  have hget := hcs.get (m + 1) hm' hm
  have hlt := hcs.lt (m + 1) hm'
  rcases hc with rfl | ⟨hletter, hbig⟩
  · refine ⟨?_, fun hne => absurd rfl hne⟩
    rcases Nat.lt_or_ge cs[m + 1] d.table.length with hin | hout
    · exact hd.entries _ _ _ (d.getElem?_of_lt prev hin) hget
    · -- the entry still being built
      have hself : cs[m + 1] = base.length + m := by
        rw [hd.length_table] at hout
        omega
      have hsym := hd.sym_le
      rw [hself, dictOf_growth hm] at hget
      rw [d.phrase_of_ge prev hout, ← Option.some_inj.1 hget, h.length_growth hold hm,
        List.length_append]
      omega
  · have hin : c < d.table.length := by
      rw [hd.length_table]
      omega
    have hone : (d.phrase prev c).length = 1 := by
      have hentry := d.getElem?_of_lt prev hin
      rw [hd.letters c hletter] at hentry
      rw [← Option.some_inj.1 hentry]
      rfl
    have htwo := h.two_le_length hcs hm' hm hbig
    omega

/-- A new entry no longer than the encoder's keeps the table dominated. -/
theorem Dec.Short.entries_concat {m : ℕ} {d : Dec α} {hold : m < ps.length}
    (hd : Dec.Short base ps m hold d) (hm : m + 1 < ps.length) {new : List α}
    (hnew : new.length ≤ (ps[m] ++ ps[m + 1].take 1).length) (k : ℕ) (s t : List α)
    (hs : (d.table ++ [new])[k]? = some s) (ht : (dictOf base ps)[k]? = some t) :
    s.length ≤ t.length := by
  rcases Nat.lt_or_ge k d.table.length with hk | hk
  · rw [List.getElem?_append_left hk] at hs
    exact hd.entries k s t hs ht
  · have hlt := (List.getElem?_eq_some_iff.1 hs).1
    rw [List.length_append, List.length_singleton] at hlt
    obtain rfl : k = d.table.length := by omega
    rw [hd.length_table, dictOf_growth hm] at ht
    rw [List.getElem?_concat_length] at hs
    rwa [← Option.some_inj.1 hs, ← Option.some_inj.1 ht]

/-- The code just read is an entry of the new table, no longer than the phrase that was sent. -/
theorem Dec.Short.entry_of_code (h : Factors base w ps) (hcs : Numbers base ps cs) {m : ℕ}
    {d : Dec α} {hold : m < ps.length} (hd : Dec.Short base ps m hold d) (hm : m + 1 < ps.length)
    (hm' : m + 1 < cs.length) {c : ℕ}
    (hc : c = cs[m + 1] ∨ c < base.length ∧ base.length ≤ cs[m + 1]) {prev : List α}
    (hprev : prev.length ≤ ps[m].length) {new : List α}
    (hnew : new.length ≤ (ps[m] ++ ps[m + 1].take 1).length) :
    ∃ s, (d.table ++ [new])[c]? = some s ∧ s.length ≤ ps[m + 1].length := by
  have hlt := hcs.lt (m + 1) hm'
  rcases Nat.lt_or_ge c d.table.length with hin | hout
  · refine ⟨d.phrase prev c, ?_, (hd.phrase_le h hcs hm hm' hc hprev).1⟩
    rw [List.getElem?_append_left hin, d.getElem?_of_lt prev hin]
  · -- a letter is in the old table
    rw [hd.length_table] at hout
    obtain rfl : c = cs[m + 1] := hc.resolve_right fun hletter => by omega
    have hself : cs[m + 1] = d.table.length := by
      rw [hd.length_table]
      omega
    have hget := hcs.get (m + 1) hm' hm
    rw [hself, hd.length_table, dictOf_growth hm] at hget
    refine ⟨new, by rw [hself, List.getElem?_concat_length], ?_⟩
    rwa [← Option.some_inj.1 hget]

/-- One code keeps the decoder dominated, and a replaced code costs a letter of output. -/
theorem Dec.Short.step (h : Factors base w ps) (hcs : Numbers base ps cs) {m : ℕ} {d : Dec α}
    (hm : m + 1 < ps.length) (hm' : m + 1 < cs.length)
    (hd : Dec.Short base ps m (Nat.lt_of_succ_lt hm) d)
    {c : ℕ} (hc : c = cs[m + 1] ∨ c < base.length ∧ base.length ≤ cs[m + 1]) :
    ∃ d', d.step c = some d' ∧ Dec.Short base ps (m + 1) hm d' ∧
      ∃ phrase, d'.out = d.out ++ phrase ∧ phrase.length ≤ ps[m + 1].length ∧
        (c ≠ cs[m + 1] → phrase.length < ps[m + 1].length) := by
  obtain ⟨prev, hentry, hprev⟩ := hd.old_known
  have hphrase := hd.phrase_le h hcs hm hm' hc hprev
  have hnew : (prev ++ (d.phrase prev c).take 1).length
      ≤ (ps[m] ++ ps[m + 1].take 1).length := by
    rw [h.length_growth (Nat.lt_of_succ_lt hm) hm, List.length_append, List.length_take]
    omega
  refine ⟨_, Dec.step_of_old hentry c, ⟨?_, ?_, ?_, ?_, ?_, ?_⟩, _, rfl, hphrase⟩
  · rw [List.length_append, List.length_singleton, hd.length_table, Nat.add_assoc]
  · intro k hk
    have hletter := hd.letters k hk
    rw [List.getElem?_append_left (List.getElem?_eq_some_iff.1 hletter).1, hletter]
  · exact hd.entries_concat hm hnew
  · exact hd.entry_of_code h hcs hm hm' hc hprev hnew
  · exact List.length_take_le 1 _
  · have hout := hd.out_le
    rw [List.take_succ_eq_append_getElem hm, List.flatten_append, List.length_append,
      List.length_append, List.flatten_singleton]
    omega

/-- After `m + 1` codes the decoder is dominated, and it is behind by at least a letter if one of
these codes was replaced. -/
theorem Factors.decode_garbled_take (h : Factors base w ps) (hcs : Numbers base ps cs)
    (hg : Garbled base cs ds) :
    ∀ m (hm : m < ps.length), ∃ d, decode base (ds.take (m + 1)) = some d ∧
      Dec.Short base ps m hm d ∧
      (∀ i (hi : i < ds.length) (hi' : i < cs.length), i ≤ m → ds[i] ≠ cs[i] →
        d.out.length < (ps.take (m + 1)).flatten.length) := by
  intro m
  have hlen := hcs.length_eq
  have hlen' := hg.length_eq
  induction m with
  | zero =>
      intro hm
      have hletter : cs[0] < base.length := by simpa using hcs.lt 0 (by omega)
      have hkept : ds[0] = cs[0] :=
        (hg.kept_or_letter 0 (by omega) (by omega)).resolve_right fun hc => by omega
      refine ⟨_, decode_take_one (by omega),
        Dec.short_start hm ?_ (by rw [hkept]; exact hletter), ?_⟩
      · exact (hcs.getElem_of_letter (by omega) hm hletter).ge
      · intro i hi hi' him hne
        obtain rfl : i = 0 := by omega
        exact absurd hkept hne
  | succ m ih =>
      intro hm
      obtain ⟨d, hd, hshort, hloss⟩ := ih (by omega)
      obtain ⟨d', hstep, hshort', phrase, hout, hple, hplt⟩ :=
        hshort.step h hcs hm (by omega) (hg.kept_or_letter (m + 1) (by omega) (by omega))
      refine ⟨d', ?_, hshort', ?_⟩
      · rw [decode_take_succ (by omega), hd, Option.bind_some, hstep]
      · intro i hi hi' him hne
        rw [List.take_succ_eq_append_getElem hm, List.flatten_append, List.length_append,
          List.flatten_singleton, hout, List.length_append]
        rcases Nat.lt_or_ge m i with hlast | hearlier
        · obtain rfl : i = m + 1 := by omega
          have := hshort.out_le
          have := hplt hne
          omega
        · have := hloss i hi hi' hearlier hne
          omega

/-- A replaced code always costs length: the decoder finishes, never returns more than the word,
and returns strictly less if some code was replaced. -/
theorem Factors.decode_garbled (h : Factors base w ps) (hcs : Numbers base ps cs)
    (hg : Garbled base cs ds) (hw : w ≠ []) :
    ∃ d, decode base ds = some d ∧ d.out.length ≤ w.length ∧
      (ds ≠ cs → d.out.length < w.length) := by
  have hpos : 0 < ps.length := by
    rw [List.length_pos_iff]
    rintro rfl
    exact hw h.flatten.symm
  have hlen := hcs.length_eq
  have hlen' := hg.length_eq
  obtain ⟨d, hd, hshort, hloss⟩ := h.decode_garbled_take hcs hg (ps.length - 1) (by omega)
  have hout := hshort.out_le
  rw [show ps.length - 1 + 1 = ps.length by omega] at hd hout hloss
  rw [List.take_of_length_le (by omega)] at hd
  rw [List.take_length, h.flatten] at hout hloss
  refine ⟨d, hd, hout, ?_⟩
  intro hne
  -- the two sequences differ somewhere
  have hdiff : ∃ i, ∃ (hi : i < ds.length) (hi' : i < cs.length), ds[i] ≠ cs[i] := by
    by_contra hcon
    push Not at hcon
    exact hne (List.ext_getElem hlen' fun i hi hi' => hcon i hi hi')
  obtain ⟨i, hi, hi', hii⟩ := hdiff
  exact hloss i hi hi' (by omega) hii

end Facts

end Welch
