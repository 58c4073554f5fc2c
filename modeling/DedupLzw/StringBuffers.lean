/-
**The string buffers of `run_LZW`.**

`curr_str` and `temp_str` are allocated with exactly `chunkSize` bytes.  Before the round `index`
the current match has at most `index + 1` characters, so `temp_str` gets at most one more, and its
terminator goes to position `index + 2` at most.  In the last round that would be `chunkSize`; what
saves it is that the last byte of a chunk is zero, and appending a zero byte appends nothing.  For
the same reason the last round does not both send a code and leave one to be sent after the loop.

Nothing here depends on what the dictionary answers, so there is no bound on the size of the chunk.

Main definitions:

* `DedupLzw.Lzw.strcpyWrites`, `strcatWrites` — the positions the library functions write to;
* `DedupLzw.Lzw.startWrites`, `tempWrites`, `currWrites` — those `run_LZW` writes to;
* `DedupLzw.Lzw.Bounded` — what is bounded before a round.

Main results:

* `DedupLzw.Lzw.Bounded.round` — one round, whatever the dictionary answers;
* `DedupLzw.Lzw.lzwFinish_bounded` — the codes `run_LZW` ends with;
* `DedupLzw.Lzw.run_LZW_stays_inside` — **all writes are inside the buffers**.
-/

import DedupLzw.LzwRun

set_option relaxedAutoImplicit false
set_option autoImplicit false

namespace DedupLzw

namespace Lzw

open Hashtable

/-! ### The writes -/

/-- `strcpy` writes the characters of `src` and the terminator. -/
def strcpyWrites (src : CString) : List ℕ := List.range (src.strlen + 1)

/-- `strcat` writes the characters of `src` and the terminator behind those of `dst`. -/
def strcatWrites (dst src : CString) : List ℕ := List.range' dst.strlen (src.strlen + 1)

/-- The writes to `curr_str` before the loop. -/
def startWrites : List ℕ := [0, 1]

/-- The writes of a round to `temp_str`. -/
def tempWrites (st : LzwState) (next : UInt8) : List ℕ :=
  strcpyWrites st.curr_str ++ strcatWrites st.curr_str (CString.ofBytes [next])

/-- The writes of a round to `curr_str`. -/
def currWrites (signed : Bool) (st : LzwState) (next : UInt8) : List ℕ :=
  let next_char := CString.ofBytes [next]
  let temp_str := strcat st.curr_str next_char
  if get signed st.dict temp_str ≠ notFound then strcpyWrites temp_str else strcpyWrites next_char

/-- The number of characters a byte appends. -/
theorem strlen_ofBytes (c : UInt8) :
    (CString.ofBytes [c]).strlen = if c = 0 then 0 else 1 := by
  by_cases h : c = 0
  · rw [if_pos h, h, CString.strlen, CString.ofBytes_zero, List.length_nil]
  · rw [if_neg h, CString.strlen, CString.ofBytes_ne_zero h, List.length_singleton]

theorem strlen_strcat (s t : CString) : (strcat s t).strlen = s.strlen + t.strlen := by
  simp [CString.strlen]

/-- A round writes up to the terminator of `temp_str`. -/
theorem writes_le (signed : Bool) (st : LzwState) (next : UInt8) :
    (∀ j ∈ tempWrites st next, j ≤ st.curr_str.strlen + (CString.ofBytes [next]).strlen) ∧
      ∀ j ∈ currWrites signed st next,
        j ≤ st.curr_str.strlen + (CString.ofBytes [next]).strlen := by
  constructor
  · intro j hj
    rcases List.mem_append.1 hj with hj | hj
    · have hlt : j < st.curr_str.strlen + 1 := List.mem_range.1 hj
      omega
    · obtain ⟨_, hlt⟩ := List.mem_range'_1.1 hj
      omega
  · intro j hj
    rw [currWrites] at hj
    split at hj
    · have hlt := List.mem_range.1 hj
      rw [strlen_strcat] at hlt
      omega
    · have hlt := List.mem_range.1 hj
      omega

/-! ### The rounds -/

/-- The last round reads the zero byte. -/
theorem getD_last {chunk : List UInt8} (hlast : chunk.getLast? = some 0) {index : ℕ}
    (hindex : index + 2 = chunk.length) : chunk.getD (index + 1) 0 = 0 := by
  rw [List.getLast?_eq_getElem?, ← hindex] at hlast
  rw [List.getD_eq_getElem?_getD, show index + 1 = index + 2 - 1 by omega, hlast]
  rfl

/-- What is bounded before the round with this `index`. -/
structure Bounded (index : ℕ) (st : LzwState) : Prop where
  /-- The current match. -/
  curr : st.curr_str.strlen ≤ index + 1
  /-- The number of codes. -/
  sent : st.sent.length ≤ index
  /-- The codes have been packed. -/
  packs : outputCodes (st.sent.map Prod.fst) = some (st.state, st.output)

theorem bounded_lzwStart (signed : Bool) (first : UInt8) : Bounded 0 (lzwStart signed first) := by
  obtain ⟨_, _, _, hcurr, hsent, hstate, hout⟩ := lzwStart_spec signed first
  refine ⟨?_, by rw [hsent]; rfl, by rw [hsent, hstate, hout]; rfl⟩
  rw [hcurr, strlen_ofBytes]
  split <;> omega

/-- One round, whatever the dictionary answers.  On a zero byte it does not both send a code and
leave a match. -/
theorem Bounded.round {index : ℕ} {st : LzwState} (h : Bounded index st) (signed : Bool)
    (next : UInt8) :
    ∃ st', lzwRound signed st next = some st' ∧ Bounded (index + 1) st' ∧
      (next = 0 → st'.sent.length ≤ index ∨ st'.curr_str.strlen = 0) := by
  have hcurr := h.curr
  have hsent := h.sent
  have hnext := strlen_ofBytes next
  by_cases hfound : get signed st.dict (strcat st.curr_str (CString.ofBytes [next])) ≠ notFound
  · refine ⟨_, lzwRound_found hfound, ⟨?_, by dsimp only; omega, h.packs⟩, fun _ => Or.inl hsent⟩
    rw [strlen_strcat, hnext]
    split <;> omega
  · obtain ⟨state, output, hsend, hpacks⟩ := send_packs signed h.packs
    refine ⟨_, by rw [lzwRound_absent (not_not.1 hfound), hsend]; rfl, ⟨?_, ?_, hpacks⟩, ?_⟩
    · show (CString.ofBytes [next]).strlen ≤ _
      rw [hnext]
      split <;> omega
    · simp only [LzwState.put, List.length_append, List.length_singleton]
      omega
    · rintro rfl
      exact Or.inr (by rw [hnext, if_pos rfl])

theorem lzwBefore_bounded (signed : Bool) (chunk : List UInt8) (index : ℕ) :
    ∃ st, lzwBefore signed chunk index = some st ∧ Bounded index st := by
  induction index with
  | zero => exact ⟨_, rfl, bounded_lzwStart signed _⟩
  | succ index ih =>
      obtain ⟨st, hst, hbounded⟩ := ih
      obtain ⟨st', hround, hbounded', _⟩ := hbounded.round signed (chunk.getD (index + 1) 0)
      exact ⟨st', by rw [lzwBefore_succ, hst, Option.bind_some, hround], hbounded'⟩

/-- The codes `run_LZW` ends with: at most one for every byte of the payload. -/
theorem lzwFinish_bounded (signed : Bool) {chunk : List UInt8} (hlen : 2 ≤ chunk.length)
    (hlast : chunk.getLast? = some 0) :
    ∃ st, lzwFinish signed chunk chunk.length = some st ∧ st.sent.length ≤ chunk.length - 1 ∧
      outputCodes (st.sent.map Prod.fst) = some (st.state, st.output) := by
  obtain ⟨index, hindex⟩ : ∃ index, chunk.length = index + 2 := ⟨chunk.length - 2, by omega⟩
  have hzero := getD_last hlast hindex.symm
  obtain ⟨st, hst, hbounded⟩ := lzwBefore_bounded signed chunk index
  obtain ⟨st', hround, hbounded', hlastRound⟩ := hbounded.round signed 0
  have hbefore : lzwBefore signed chunk (chunk.length - 1) = some st' := by
    rw [hindex, show index + 2 - 1 = index + 1 by omega, lzwBefore_succ, hst, Option.bind_some,
      hzero, hround]
  have hsent := hbounded'.sent
  by_cases hcurr : st'.curr_str.strlen > 0
  · obtain ⟨state, output, hsend, hpacks⟩ := send_packs signed hbounded'.packs
    refine ⟨_, by rw [lzwFinish_send hbefore hcurr, hsend], ?_, hpacks⟩
    have hle := (hlastRound rfl).resolve_right (by omega)
    simp only [List.length_append, List.length_singleton]
    omega
  · exact ⟨st', lzwFinish_done hbefore hcurr, by omega, hbounded'.packs⟩

/-- All writes of `run_LZW` to `curr_str` and `temp_str` are inside these buffers, on every chunk
that ends with a zero byte; the current match has at most `index + 1` characters in the round
`index`; and the codes sent are at most as many as the bytes before the last one, so that the output
stays between its first byte and 13 bits for each of these. -/
theorem run_LZW_stays_inside (signed : Bool) {chunk : List UInt8} (hlen : 2 ≤ chunk.length)
    (hlast : chunk.getLast? = some 0) :
    (∀ j ∈ startWrites, j < chunk.length) ∧
      (∀ index, index < chunk.length - 1 → ∃ st, lzwBefore signed chunk index = some st ∧
        st.curr_str.strlen ≤ index + 1 ∧
        (∀ j ∈ tempWrites st (chunk.getD (index + 1) 0), j < chunk.length) ∧
        ∀ j ∈ currWrites signed st (chunk.getD (index + 1) 0), j < chunk.length) ∧
      ∃ st, lzwFinish signed chunk chunk.length = some st ∧ st.sent.length ≤ chunk.length - 1 ∧
        run_LZW signed chunk chunk.length = some st.output ∧
        st.output.length ≤ (13 * (chunk.length - 1) + 7) / 8 := by
  refine ⟨?_, fun index hindex => ?_, ?_⟩
  · intro j hj
    simp only [startWrites, List.mem_cons, List.not_mem_nil, or_false] at hj
    omega
  · obtain ⟨st, hst, hbounded⟩ := lzwBefore_bounded signed chunk index
    have hcurr := hbounded.curr
    -- the byte appended in the last round is the zero byte at the end
    have htemp : st.curr_str.strlen + (CString.ofBytes [chunk.getD (index + 1) 0]).strlen
        < chunk.length := by
      rw [strlen_ofBytes]
      split
      · omega
      · next hne =>
          have hmore : index + 2 ≠ chunk.length := fun heq => hne (getD_last hlast heq)
          omega
    obtain ⟨htempWrites, hcurrWrites⟩ := writes_le signed st (chunk.getD (index + 1) 0)
    exact ⟨st, hst, hcurr, fun j hj => lt_of_le_of_lt (htempWrites j hj) htemp,
      fun j hj => lt_of_le_of_lt (hcurrWrites j hj) htemp⟩
  · obtain ⟨st, hfin, hsent, hpacks⟩ := lzwFinish_bounded signed hlen hlast
    obtain ⟨state, output, hout, hshape⟩ := packs_outputCodes (st.sent.map Prod.fst)
    obtain ⟨rfl, rfl⟩ : st.state = state ∧ st.output = output := by
      rw [hpacks] at hout
      simpa using hout
    refine ⟨st, hfin, hsent, by rw [run_LZW, hfin, Option.map_some], ?_⟩
    rw [hshape.length_eq, List.length_map]
    omega

/-- A chunk whose rounds put a string into the dictionary, find it, find it again with a zero byte
appended, and put the next one. -/
def severalRounds : List UInt8 := [97, 97, 97, 0, 98, 0]

/-- The writes of its five rounds are inside six bytes. -/
theorem run_LZW_stays_inside_severalRounds :
    (∀ j ∈ startWrites, j < 6) ∧
      (∀ index, index < 5 → ∃ st, lzwBefore false severalRounds index = some st ∧
        st.curr_str.strlen ≤ index + 1 ∧
        (∀ j ∈ tempWrites st (severalRounds.getD (index + 1) 0), j < 6) ∧
        ∀ j ∈ currWrites false st (severalRounds.getD (index + 1) 0), j < 6) ∧
      ∃ st, lzwFinish false severalRounds 6 = some st ∧ st.sent.length ≤ 5 ∧
        run_LZW false severalRounds 6 = some st.output ∧ st.output.length ≤ 9 := by
  have hlen : 2 ≤ severalRounds.length := by decide
  exact run_LZW_stays_inside false hlen (by decide)

end Lzw

end DedupLzw
