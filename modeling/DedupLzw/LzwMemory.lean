/-
**The LZW encoder in memory (`LZW/lzw.cpp`).**

`DedupLzw.Lzw` gives `run_LZW` its strings as values and its dictionary as a table of lists.  Here
it works on memory: the dictionary is the table of `DedupLzw.HeapTable`, and `curr_str` and
`temp_str` are arrays of `chunkSize` bytes that the string functions of the C library read and
write.  The array `next_char` is on the stack, and its address is not passed on; so it is a string.

The two do the same.  The argument is that the dictionary owns its blocks, and the two arrays are
not among them: a call of `put` leaves the strings alone, and writing a string leaves the dictionary
alone.  In the end everything that was allocated has been freed.

Main definitions:

* `DedupLzw.LzwMemory.strcat`, `storeChar` — writing to arrays of `char`;
* `DedupLzw.LzwMemory.lzwRound`, `run_LZW` — the source;
* `DedupLzw.LzwMemory.Layout` — the dictionary, the two strings, and the rest of memory.

Main results:

* `DedupLzw.LzwMemory.Layout.lzwRound` — one round;
* `DedupLzw.LzwMemory.run_LZW_in_memory` — **the encoder in memory, from beginning to end**.
-/

import DedupLzw.TableLifetime
import DedupLzw.StringBuffers

set_option relaxedAutoImplicit false
set_option autoImplicit false

namespace DedupLzw

namespace LzwMemory

open BlockHeap Hashtable HeapTable Lzw

/-! ### The functions of the source -/

/-- `strcat` onto the string in an array, for which there has to be room. -/
def strcat (dest : ℕ) (s : CString) (h : Heap Block) : Option (Heap Block) := do
  let d ← readString dest h
  let bytes ← loadChars dest h
  if d.strlen + s.strlen < bytes.length then
    store dest (.chars (d.bytes ++ s.bytes ++ 0 :: bytes.drop (d.strlen + s.strlen + 1))) h
  else none

/-- `dest[i] = c` -/
def storeChar (dest i : ℕ) (c : UInt8) (h : Heap Block) : Option (Heap Block) := do
  let bytes ← loadChars dest h
  if i < bytes.length then store dest (.chars (bytes.set i c)) h else none

/-- The variables of the loop. -/
structure LzwMem where
  heap : Heap Block
  num : ℕ
  state : UInt8
  output : List UInt8

/-- `get(dict, curr_str)`, passed to `output_code`. -/
def send (pf : Platform) (fuel dict curr_str : ℕ) (mem : LzwMem) : Option LzwMem := do
  let curr ← readString curr_str mem.heap
  let code ← HeapTable.get pf fuel dict curr mem.heap
  let (state, output) ← outputStep (mem.state, mem.output) (code.toBitVec.setWidth 32)
  return { mem with state := state, output := output }

/-- One round of the loop, with `next_char` holding the byte `next`. -/
def lzwRound (pf : Platform) (fuel dict curr_str temp_str : ℕ) (mem : LzwMem) (next : UInt8) :
    Option LzwMem := do
  let next_char := CString.ofBytes [next]
  let curr ← readString curr_str mem.heap
  let h ← strcpy temp_str curr mem.heap
  let h ← strcat temp_str next_char h
  let temp ← readString temp_str h
  let found ← HeapTable.get pf fuel dict temp h
  if found ≠ notFound then
    let h ← strcpy curr_str temp h
    return { mem with heap := h }
  else
    let mem ← send pf fuel dict curr_str { mem with heap := h }
    let h ← HeapTable.put pf fuel dict temp (toUInt16 mem.num) mem.heap
    let h ← strcpy curr_str next_char h
    return { mem with heap := h, num := mem.num + 1 }

/-- The code of the last match, if that is not empty. -/
def sendLast (pf : Platform) (fuel dict curr_str : ℕ) (mem : LzwMem) : Option LzwMem := do
  let curr ← readString curr_str mem.heap
  if curr.strlen > 0 then send pf fuel dict curr_str mem else return mem

/-- The dictionary with its first 256 entries. -/
def newDict (pf : Platform) (fuel : ℕ) (h : Heap Block) : Option (ℕ × Heap Block) := do
  let (dict, h) ← HeapTable.create_table pf NUM_BUCKETS h
  let h ← (List.range 256).foldlM
    (fun h num => HeapTable.put pf fuel dict (intString num) (toUInt16 num) h) h
  return (dict, h)

/-- The arrays `curr_str`, with the first byte of the chunk, and `temp_str`. -/
def newStrings (pf : Platform) (input_chunk : List UInt8) (chunkSize : ℕ) (h : Heap Block) :
    Option (ℕ × ℕ × Heap Block) := do
  let (curr_str, h) := malloc pf.allocator (.chars (pf.junkChars chunkSize)) h
  let h ← storeChar curr_str 0 (← input_chunk[0]?) h
  let h ← storeChar curr_str 1 0 h
  let (temp_str, h) := malloc pf.allocator (.chars (pf.junkChars chunkSize)) h
  return (curr_str, temp_str, h)

/-- `run_LZW`, called with `output_ptr` 0: the bytes written, and what becomes of memory. -/
def run_LZW (pf : Platform) (fuel : ℕ) (input_chunk : List UInt8) (chunkSize : ℕ)
    (h : Heap Block) : Option (List UInt8 × Heap Block) := do
  let (dict, h) ← newDict pf fuel h
  let (curr_str, temp_str, h) ← newStrings pf input_chunk chunkSize h
  let mem ← (List.range (chunkSize - 1)).foldlM
    (fun mem index => do lzwRound pf fuel dict curr_str temp_str mem (← input_chunk[index + 1]?))
    ⟨h, 256, 0, []⟩
  let mem ← sendLast pf fuel dict curr_str mem
  let h ← free curr_str mem.heap
  let h ← free temp_str h
  let h ← delete_table fuel dict h
  return (mem.output, h)

/-! ### The layout of memory -/

/-- The bytes of an array after `s` has been written to its start. -/
def overwrite (s : CString) (bytes : List UInt8) : List UInt8 :=
  s.bytes ++ 0 :: bytes.drop (s.strlen + 1)

theorem length_overwrite {s : CString} {bytes : List UInt8} (hs : s.strlen < bytes.length) :
    (overwrite s bytes).length = bytes.length := by
  simp only [overwrite, CString.strlen, List.length_append, List.length_cons,
    List.length_drop] at hs ⊢
  omega

theorem strcpy_overwrite {h : Heap Block} {p : ℕ} {bytes : List UInt8}
    (hp : h.lookup p = some (.chars bytes)) {s : CString} (hs : s.strlen < bytes.length) :
    strcpy p s h = some (h.insert p (.chars (overwrite s bytes))) := strcpy_of_lookup hp hs

/-- `strcat` in terms of what it writes altogether. -/
theorem strcat_of_lookup {h : Heap Block} {p : ℕ} {d s : CString} {rest : List UInt8}
    (hp : h.lookup p = some (.chars (d.bytes ++ 0 :: rest)))
    (hs : d.strlen + s.strlen < (d.bytes ++ 0 :: rest).length) :
    strcat p s h = some (h.insert p (.chars
      (overwrite (DedupLzw.strcat d s) (d.bytes ++ 0 :: rest)))) := by
  have hlen : (DedupLzw.strcat d s).strlen = d.strlen + s.strlen := by simp [CString.strlen]
  simp only [strcat, readString_of_lookup hp, loadChars_of_lookup hp, Option.bind_eq_bind,
    Option.bind_some, if_pos hs, store_of_lookup hp, overwrite, hlen, strcat_bytes]

/-- Memory while `run_LZW` works: the dictionary, the two strings, and what was there before. -/
structure Layout (h₀ : Heap Block) (dict array curr_str temp_str : ℕ) (chains : List (List Node))
    (curr temp : List UInt8) (t : HashTable) (h : Heap Block) : Prop where
  table : TableAt h dict array chains t
  rest : Extends ((h₀.insert curr_str (.chars curr)).insert temp_str (.chars temp)) h
    (owned dict array chains)
  curr_new : curr_str ∉ h₀
  temp_new : temp_str ∉ h₀
  ne : curr_str ≠ temp_str

section Layout

variable {h₀ h : Heap Block} {dict array curr_str temp_str : ℕ} {chains : List (List Node)}
  {curr temp : List UInt8} {t : HashTable}

/-- The dictionary does not own the two strings. -/
theorem Layout.notMem (hl : Layout h₀ dict array curr_str temp_str chains curr temp t h) :
    curr_str ∉ owned dict array chains ∧ temp_str ∉ owned dict array chains :=
  ⟨fun hmem => hl.rest.new _ hmem
      (Finmap.mem_insert.2 (Or.inr (Finmap.mem_insert.2 (Or.inl rfl)))),
    fun hmem => hl.rest.new _ hmem (Finmap.mem_insert.2 (Or.inl rfl))⟩

theorem Layout.lookup_curr (hl : Layout h₀ dict array curr_str temp_str chains curr temp t h) :
    h.lookup curr_str = some (.chars curr) := by
  rw [hl.rest.rest _ hl.notMem.1, Finmap.lookup_insert_of_ne _ hl.ne, Finmap.lookup_insert]

theorem Layout.lookup_temp (hl : Layout h₀ dict array curr_str temp_str chains curr temp t h) :
    h.lookup temp_str = some (.chars temp) := by
  rw [hl.rest.rest _ hl.notMem.2, Finmap.lookup_insert]

/-- Writing to `curr_str`. -/
theorem Layout.insert_curr (hl : Layout h₀ dict array curr_str temp_str chains curr temp t h)
    (bytes : List UInt8) :
    Layout h₀ dict array curr_str temp_str chains bytes temp t
      (h.insert curr_str (.chars bytes)) where
  table := hl.table.congr fun p hp =>
    Finmap.lookup_insert_of_ne _ fun heq => hl.notMem.1 (heq ▸ hp)
  rest := by
    have hrest := hl.rest.insert (v := Block.chars bytes) hl.notMem.1
    rwa [Finmap.insert_insert_of_ne _ hl.ne.symm, Finmap.insert_insert] at hrest
  curr_new := hl.curr_new
  temp_new := hl.temp_new
  ne := hl.ne

/-- Writing to `temp_str`. -/
theorem Layout.insert_temp (hl : Layout h₀ dict array curr_str temp_str chains curr temp t h)
    (bytes : List UInt8) :
    Layout h₀ dict array curr_str temp_str chains curr bytes t
      (h.insert temp_str (.chars bytes)) where
  table := hl.table.congr fun p hp =>
    Finmap.lookup_insert_of_ne _ fun heq => hl.notMem.2 (heq ▸ hp)
  rest := by
    have hrest := hl.rest.insert (v := Block.chars bytes) hl.notMem.2
    rwa [Finmap.insert_insert] at hrest
  curr_new := hl.curr_new
  temp_new := hl.temp_new
  ne := hl.ne

/-- In the end the two strings and the dictionary are freed. -/
theorem Layout.free_all (hl : Layout h₀ dict array curr_str temp_str chains curr temp t h)
    {fuel : ℕ} (hfuel : chains.flatten.length < fuel) :
    ((free curr_str h).bind fun h => (free temp_str h).bind (delete_table fuel dict))
      = some h₀ := by
  have htemp : (h.erase curr_str).lookup temp_str = some (.chars temp) := by
    rw [Finmap.lookup_erase_ne hl.ne.symm, hl.lookup_temp]
  have htable : TableAt ((h.erase curr_str).erase temp_str) dict array chains t := by
    refine hl.table.congr fun p hp => ?_
    have hcurr : p ≠ curr_str := fun heq => hl.notMem.1 (heq ▸ hp)
    have htemp : p ≠ temp_str := fun heq => hl.notMem.2 (heq ▸ hp)
    rw [Finmap.lookup_erase_ne htemp, Finmap.lookup_erase_ne hcurr]
  have hrest := (hl.rest.erase curr_str).erase temp_str
  have hbase : ((((h₀.insert curr_str (Block.chars curr)).insert temp_str (.chars temp)).erase
      curr_str).erase temp_str) = h₀ := by
    have htempNew : temp_str ∉ h₀.insert curr_str (Block.chars curr) := by
      rw [Finmap.mem_insert, not_or]
      exact ⟨hl.ne.symm, hl.temp_new⟩
    rw [Finmap.erase_erase, erase_insert htempNew, erase_insert hl.curr_new]
  rw [hbase] at hrest
  rw [free_of_lookup hl.lookup_curr, Option.bind_some, free_of_lookup htemp, Option.bind_some]
  exact htable.delete_spec hrest hfuel

/-! ### The loop -/

/-- Memory and variables hold what the encoder over values holds: `n` is the size of the arrays, and
the dictionary has at most `k` entries. -/
structure Mirrors (h₀ : Heap Block) (dict array curr_str temp_str n k : ℕ) (st : LzwState)
    (mem : LzwMem) : Prop where
  layout : ∃ chains curr temp,
    Layout h₀ dict array curr_str temp_str chains curr temp st.dict mem.heap ∧
      chains.flatten.length ≤ k ∧ curr.length = n ∧ temp.length = n ∧
      ∃ rest, curr = st.curr_str.bytes ++ 0 :: rest
  size_pos : 0 < st.dict.size
  num : mem.num = st.num
  state : mem.state = st.state
  output : mem.output = st.output

variable {n k : ℕ} {st : LzwState} {mem : LzwMem} {pf : Platform} {fuel : ℕ}

theorem send_curr_str {signed : Bool} {st' : LzwState} (h : st.send signed = some st') :
    st'.curr_str = st.curr_str := by
  rw [send_eq] at h
  obtain ⟨r, _, rfl⟩ := Option.map_eq_some_iff.1 h
  rfl

theorem Mirrors.mono (hm : Mirrors h₀ dict array curr_str temp_str n k st mem) :
    Mirrors h₀ dict array curr_str temp_str n (k + 1) st mem := by
  obtain ⟨chains, curr, temp, hl, hk, hrest⟩ := hm.layout
  exact ⟨⟨chains, curr, temp, hl, by omega, hrest⟩, hm.size_pos, hm.num, hm.state, hm.output⟩

theorem Mirrors.read_curr (hm : Mirrors h₀ dict array curr_str temp_str n k st mem) :
    readString curr_str mem.heap = some st.curr_str := by
  obtain ⟨chains, curr, temp, hl, _, _, _, rest, rfl⟩ := hm.layout
  exact readString_of_lookup hl.lookup_curr

theorem Mirrors.get_eq (hm : Mirrors h₀ dict array curr_str temp_str n k st mem) (pf : Platform)
    (hfuel : k < fuel) (key : CString) :
    HeapTable.get pf fuel dict key mem.heap = some (Hashtable.get pf.signed st.dict key) := by
  obtain ⟨chains, curr, temp, hl, hk, _⟩ := hm.layout
  exact hl.table.get_eq pf hm.size_pos (lt_of_le_of_lt hk hfuel) key

/-- Sending the code of the current match. -/
theorem Mirrors.send (hm : Mirrors h₀ dict array curr_str temp_str n k st mem) (hfuel : k < fuel)
    {st' : LzwState} (hsend : st.send pf.signed = some st') :
    ∃ mem', LzwMemory.send pf fuel dict curr_str mem = some mem' ∧
      Mirrors h₀ dict array curr_str temp_str n k st' mem' := by
  rw [send_eq] at hsend
  obtain ⟨r, hstep, rfl⟩ := Option.map_eq_some_iff.1 hsend
  rw [← hm.state, ← hm.output] at hstep
  refine ⟨{ mem with state := r.1, output := r.2 }, ?_, hm.layout, hm.size_pos, hm.num, rfl, rfl⟩
  simp only [LzwMemory.send, hm.read_curr, hm.get_eq pf hfuel, hstep, Option.bind_eq_bind,
    Option.bind_some]
  rfl

/-- Copying a string that fits to `curr_str`. -/
theorem Mirrors.write_curr (hm : Mirrors h₀ dict array curr_str temp_str n k st mem) {s : CString}
    (hs : s.strlen < n) :
    ∃ h, strcpy curr_str s mem.heap = some h ∧
      Mirrors h₀ dict array curr_str temp_str n k { st with curr_str := s }
        { mem with heap := h } := by
  obtain ⟨chains, curr, temp, hl, hk, hcurr, htemp, _⟩ := hm.layout
  have hroom : s.strlen < curr.length := by omega
  refine ⟨_, strcpy_overwrite hl.lookup_curr hroom, ⟨chains, _, temp, hl.insert_curr _, hk, ?_,
    htemp, curr.drop (s.strlen + 1), rfl⟩, hm.size_pos, hm.num, hm.state, hm.output⟩
  rw [length_overwrite hroom, hcurr]

/-- Copying the current match to `temp_str`, and appending to it what fits. -/
theorem Mirrors.extend_temp (hm : Mirrors h₀ dict array curr_str temp_str n k st mem)
    {next : CString} (hroom : st.curr_str.strlen + next.strlen < n) :
    ∃ h₁ h₂, strcpy temp_str st.curr_str mem.heap = some h₁ ∧
      strcat temp_str next h₁ = some h₂ ∧
      readString temp_str h₂ = some (DedupLzw.strcat st.curr_str next) ∧
      Mirrors h₀ dict array curr_str temp_str n k st { mem with heap := h₂ } := by
  obtain ⟨chains, curr, temp, hl, hk, hcurr, htemp, hrest⟩ := hm.layout
  have hcopy := strcpy_overwrite hl.lookup_temp (s := st.curr_str) (by omega)
  have hl₁ := hl.insert_temp (overwrite st.curr_str temp)
  have hlen₁ : (overwrite st.curr_str temp).length = n := by
    rw [length_overwrite (by omega), htemp]
  have hcat := strcat_of_lookup (s := next) hl₁.lookup_temp (lt_of_lt_of_eq hroom hlen₁.symm)
  have hl₂ := hl₁.insert_temp (overwrite (DedupLzw.strcat st.curr_str next)
    (overwrite st.curr_str temp))
  refine ⟨_, _, hcopy, hcat, readString_of_lookup hl₂.lookup_temp,
    ⟨chains, curr, _, hl₂, hk, hcurr, ?_, hrest⟩, hm.size_pos, hm.num, hm.state, hm.output⟩
  rw [length_overwrite (by rw [strlen_strcat]; omega), hlen₁]

/-- Entering a string under the next number. -/
theorem Mirrors.put (hm : Mirrors h₀ dict array curr_str temp_str n k st mem) (pf : Platform)
    (hfuel : k < fuel) (key : CString) :
    ∃ h, HeapTable.put pf fuel dict key (toUInt16 mem.num) mem.heap = some h ∧
      Mirrors h₀ dict array curr_str temp_str n (k + 1)
        { st.put pf.signed key st.num with num := st.num + 1 }
        { mem with heap := h, num := mem.num + 1 } := by
  obtain ⟨chains, curr, temp, hl, hk, hstrings⟩ := hm.layout
  obtain ⟨h, chains', hput, htable, hrest, hlen⟩ := hl.table.put_spec pf hm.size_pos hl.rest
    (lt_of_le_of_lt hk hfuel) key (toUInt16 mem.num)
  rw [hm.num] at htable
  exact ⟨h, hput, ⟨chains', curr, temp, ⟨htable, hrest, hl.curr_new, hl.temp_new, hl.ne⟩, by omega,
    hstrings⟩, hm.size_pos, congrArg (· + 1) hm.num, hm.state, hm.output⟩

/-- One round. -/
theorem Mirrors.lzwRound (hm : Mirrors h₀ dict array curr_str temp_str n k st mem)
    (hfuel : k < fuel) {next : UInt8}
    (hroom : st.curr_str.strlen + (CString.ofBytes [next]).strlen < n) {st' : LzwState}
    (hround : Lzw.lzwRound pf.signed st next = some st') :
    ∃ mem', LzwMemory.lzwRound pf fuel dict curr_str temp_str mem next = some mem' ∧
      Mirrors h₀ dict array curr_str temp_str n (k + 1) st' mem' := by
  obtain ⟨h₁, h₂, hcopy, hcat, hread, hm₂⟩ := hm.extend_temp hroom
  have hget := hm₂.get_eq pf hfuel (DedupLzw.strcat st.curr_str (CString.ofBytes [next]))
  by_cases hfound : Hashtable.get pf.signed st.dict
      (DedupLzw.strcat st.curr_str (CString.ofBytes [next])) ≠ notFound
  · -- the match is extended
    rw [lzwRound_found hfound, Option.some_inj] at hround
    subst hround
    obtain ⟨h₃, hwrite, hm₃⟩ := hm₂.write_curr
      (s := DedupLzw.strcat st.curr_str (CString.ofBytes [next])) (by rwa [strlen_strcat])
    refine ⟨_, ?_, hm₃.mono⟩
    simp only [LzwMemory.lzwRound, hm.read_curr, hcopy, hcat, hread, hget, if_pos hfound, hwrite,
      Option.bind_eq_bind, Option.bind_some]
    rfl
  · -- its code is sent, and the extended match is entered
    rw [lzwRound_absent (not_not.1 hfound)] at hround
    obtain ⟨st₁, hsend, rfl⟩ := Option.map_eq_some_iff.1 hround
    rw [send_curr_str hsend]
    obtain ⟨mem₃, hsent, hm₃⟩ := hm₂.send hfuel hsend
    obtain ⟨h₄, hput, hm₄⟩ := hm₃.put pf hfuel
      (DedupLzw.strcat st.curr_str (CString.ofBytes [next]))
    obtain ⟨h₅, hwrite, hm₅⟩ := hm₄.write_curr (s := CString.ofBytes [next]) (by omega)
    refine ⟨_, ?_, hm₅⟩
    simp only [LzwMemory.lzwRound, hm.read_curr, hcopy, hcat, hread, hget, if_neg hfound, hsent,
      hput, Option.bind_eq_bind, Option.bind_some]
    rw [hwrite]
    rfl

/-- The rounds up to the one with this `index`. -/
theorem Mirrors.rounds {chunk : List UInt8} (hlast : chunk.getLast? = some 0)
    (hm : Mirrors h₀ dict array curr_str temp_str chunk.length k
      (lzwStart pf.signed (chunk.getD 0 0)) mem) {index : ℕ} (hindex : index + 1 ≤ chunk.length)
    (hfuel : k + index ≤ fuel) :
    ∃ st mem', lzwBefore pf.signed chunk index = some st ∧
      (List.range index).foldlM (fun mem index => do
        LzwMemory.lzwRound pf fuel dict curr_str temp_str mem (← chunk[index + 1]?)) mem
        = some mem' ∧
      Mirrors h₀ dict array curr_str temp_str chunk.length (k + index) st mem' := by
  induction index with
  | zero => exact ⟨_, mem, rfl, rfl, hm⟩
  | succ index ih =>
      obtain ⟨st, mem', hst, hloop, hm'⟩ := ih (by omega) (by omega)
      obtain ⟨st₀, hst₀, hbounded⟩ := lzwBefore_bounded pf.signed chunk index
      obtain rfl : st₀ = st := Option.some_inj.1 (hst₀.symm.trans hst)
      obtain ⟨st', hround, _, _⟩ := hbounded.round pf.signed (chunk.getD (index + 1) 0)
      -- there is room, because the byte appended in the last round is the zero byte at the end
      have hcurr := hbounded.curr
      have hroom : st₀.curr_str.strlen + (CString.ofBytes [chunk.getD (index + 1) 0]).strlen
          < chunk.length := by
        rw [strlen_ofBytes]
        split
        · omega
        · next hne =>
            have hmore : index + 2 ≠ chunk.length := fun heq => hne (getD_last hlast heq)
            omega
      obtain ⟨mem'', hmem, hm''⟩ := hm'.lzwRound (by omega : k + index < fuel) hroom hround
      refine ⟨st', mem'', ?_, ?_, hm''⟩
      · rw [lzwBefore_succ, hst, Option.bind_some, hround]
      · have hget : chunk[index + 1]? = some (chunk.getD (index + 1) 0) := by
          rw [List.getD_eq_getElem?_getD, List.getElem?_eq_getElem (by omega), Option.getD_some]
        rw [List.range_succ, List.foldlM_append, hloop]
        simp only [Option.bind_eq_bind, Option.bind_some, List.foldlM_cons, List.foldlM_nil, hget,
          hmem]
        rfl

end Layout

/-! ### The beginning -/

/-- The dictionary after the first `m` entries. -/
def dictAfter (signed : Bool) (m : ℕ) : HashTable :=
  (List.range m).foldl (fun t num => Hashtable.put signed t (intString num) (toUInt16 num))
    (Hashtable.create_table NUM_BUCKETS)

theorem dictAfter_succ (signed : Bool) (m : ℕ) :
    dictAfter signed (m + 1)
      = Hashtable.put signed (dictAfter signed m) (intString m) (toUInt16 m) := by
  rw [dictAfter, List.range_succ, List.foldl_append]
  rfl

theorem size_dictAfter (signed : Bool) (m : ℕ) : (dictAfter signed m).size = NUM_BUCKETS := by
  induction m with
  | zero => rfl
  | succ m ih => rw [dictAfter_succ, size_put, ih]

theorem lzwStart_dict (signed : Bool) (first : UInt8) :
    (lzwStart signed first).dict = dictAfter signed 256 :=
  (List.foldl_hom LzwState.dict fun _ _ => rfl).symm

/-- The dictionary in memory after its first 256 entries. -/
theorem newDict_spec (pf : Platform) {fuel : ℕ} (hfuel : 256 ≤ fuel) (h₀ : Heap Block) :
    ∃ dict array h chains, newDict pf fuel h₀ = some (dict, h) ∧
      TableAt h dict array chains (dictAfter pf.signed 256) ∧
      Extends h₀ h (owned dict array chains) ∧ chains.flatten.length ≤ 256 := by
  obtain ⟨dict, array, h, hcreate, htable, hext⟩ := create_table_spec pf NUM_BUCKETS h₀
  have hputs : ∀ m ≤ 256, ∃ h' chains, (List.range m).foldlM (fun h num =>
        HeapTable.put pf fuel dict (intString num) (toUInt16 num) h) h = some h' ∧
      TableAt h' dict array chains (dictAfter pf.signed m) ∧
      Extends h₀ h' (owned dict array chains) ∧ chains.flatten.length ≤ m := by
    intro m
    induction m with
    | zero => exact fun _ => ⟨h, _, rfl, htable, hext, by simp⟩
    | succ m ih =>
        intro hm
        obtain ⟨h', chains, hloop, htable', hext', hlen⟩ := ih (by omega)
        obtain ⟨h'', chains', hput, htable'', hext'', hlen'⟩ := htable'.put_spec pf
          (by rw [size_dictAfter]; decide) hext' (by omega : chains.flatten.length < fuel)
          (intString m) (toUInt16 m)
        refine ⟨h'', chains', ?_, by rwa [dictAfter_succ], hext'', by omega⟩
        rw [List.range_succ, List.foldlM_append, hloop]
        simp only [Option.bind_eq_bind, Option.bind_some, List.foldlM_cons, List.foldlM_nil, hput]
        rfl
  obtain ⟨h', chains, hloop, htable', hext', hlen⟩ := hputs 256 le_rfl
  refine ⟨dict, array, h', chains, ?_, htable', hext', hlen⟩
  simp only [newDict, hcreate, hloop, Option.bind_eq_bind, Option.bind_some]
  rfl

theorem storeChar_of_lookup {h : Heap Block} {p i : ℕ} {bytes : List UInt8}
    (hp : h.lookup p = some (.chars bytes)) (hi : i < bytes.length) (c : UInt8) :
    storeChar p i c h = some (h.insert p (.chars (bytes.set i c))) := by
  rw [storeChar, loadChars_of_lookup hp]
  simp only [Option.bind_eq_bind, Option.bind_some, if_pos hi, store_of_lookup hp]

/-- The first byte of the chunk, written to `curr_str` with a terminator. -/
theorem set_first (c : UInt8) {bytes : List UInt8} (hlen : 2 ≤ bytes.length) :
    ∃ rest, (bytes.set 0 c).set 1 0 = (CString.ofBytes [c]).bytes ++ 0 :: rest := by
  obtain ⟨x, y, bytes, rfl⟩ : ∃ x y bytes', bytes = x :: y :: bytes' := by
    match bytes, hlen with
    | x :: y :: bytes, _ => exact ⟨x, y, bytes, rfl⟩
  by_cases hc : c = 0
  · refine ⟨0 :: bytes, ?_⟩
    rw [hc, CString.ofBytes_zero]
    rfl
  · refine ⟨bytes, ?_⟩
    rw [CString.ofBytes_ne_zero hc]
    rfl

/-- Two more blocks beside the dictionary. -/
theorem layout_of_new {h₀ h : Heap Block} {dict array curr_str temp_str : ℕ}
    {chains : List (List Node)} {t : HashTable} (htable : TableAt h dict array chains t)
    (hext : Extends h₀ h (owned dict array chains)) {curr temp : List UInt8}
    (hcurr : curr_str ∉ h) (htemp : temp_str ∉ h.insert curr_str (.chars curr)) :
    Layout h₀ dict array curr_str temp_str chains curr temp t
      ((h.insert curr_str (.chars curr)).insert temp_str (.chars temp)) := by
  rw [Finmap.mem_insert, not_or] at htemp
  obtain ⟨hcurrOwned, hcurrNew⟩ := hext.notMem hcurr htable.live
  obtain ⟨htempOwned, htempNew⟩ := hext.notMem htemp.2 htable.live
  refine ⟨htable.congr fun p hp => ?_, (hext.insert hcurrOwned).insert htempOwned, hcurrNew,
    htempNew, Ne.symm htemp.1⟩
  have hpc : p ≠ curr_str := fun heq => hcurrOwned (heq ▸ hp)
  have hpt : p ≠ temp_str := fun heq => htempOwned (heq ▸ hp)
  rw [Finmap.lookup_insert_of_ne _ hpt, Finmap.lookup_insert_of_ne _ hpc]

/-- The two strings are made. -/
theorem newStrings_spec (pf : Platform) {chunk : List UInt8} (hlen : 2 ≤ chunk.length)
    {h₀ h : Heap Block} {dict array : ℕ} {chains : List (List Node)} {t : HashTable}
    (htable : TableAt h dict array chains t) (hext : Extends h₀ h (owned dict array chains)) :
    ∃ curr_str temp_str h' rest temp,
      newStrings pf chunk chunk.length h = some (curr_str, temp_str, h') ∧
        Layout h₀ dict array curr_str temp_str chains
          ((CString.ofBytes [chunk.getD 0 0]).bytes ++ 0 :: rest) temp t h' ∧
        ((CString.ofBytes [chunk.getD 0 0]).bytes ++ 0 :: rest).length = chunk.length ∧
        temp.length = chunk.length := by
  have hjunk := pf.length_junkChars chunk.length
  obtain ⟨junk, hjunkEq⟩ : ∃ junk, junk = pf.junkChars chunk.length := ⟨_, rfl⟩
  rw [← hjunkEq] at hjunk
  have hfirst : chunk[0]? = some (chunk.getD 0 0) := by
    rw [List.getD_eq_getElem?_getD, List.getElem?_eq_getElem (by omega), Option.getD_some]
  obtain ⟨rest, hrest⟩ := set_first (chunk.getD 0 0) (hjunk ▸ hlen)
  -- curr_str
  obtain ⟨curr_str, hcurr⟩ : ∃ p, p = (malloc pf.allocator (Block.chars junk) h).1 := ⟨_, rfl⟩
  have hcurrNew : curr_str ∉ h := hcurr ▸ malloc_notMem _ _ _
  have hstore₀ : storeChar curr_str 0 (chunk.getD 0 0) (h.insert curr_str (.chars junk))
      = some (h.insert curr_str (.chars (junk.set 0 (chunk.getD 0 0)))) := by
    rw [storeChar_of_lookup (Finmap.lookup_insert _) (by omega), Finmap.insert_insert]
  have hstore₁ : storeChar curr_str 1 0
      (h.insert curr_str (.chars (junk.set 0 (chunk.getD 0 0))))
      = some (h.insert curr_str
          (.chars ((CString.ofBytes [chunk.getD 0 0]).bytes ++ 0 :: rest))) := by
    rw [storeChar_of_lookup (Finmap.lookup_insert _) (by rw [List.length_set]; omega),
      Finmap.insert_insert, hrest]
  -- temp_str
  obtain ⟨h₁, hh₁⟩ : ∃ h₁, h₁ = h.insert curr_str
    (Block.chars ((CString.ofBytes [chunk.getD 0 0]).bytes ++ 0 :: rest)) := ⟨_, rfl⟩
  obtain ⟨temp_str, htemp⟩ : ∃ p, p = (malloc pf.allocator (Block.chars junk) h₁).1 := ⟨_, rfl⟩
  have htempNew : temp_str ∉ h₁ := htemp ▸ malloc_notMem _ _ _
  refine ⟨curr_str, temp_str, h₁.insert temp_str (.chars junk), rest, junk, ?_, ?_, ?_, hjunk⟩
  · rw [newStrings, ← hjunkEq]
    simp only [malloc_snd, ← hcurr, hfirst, hstore₀, hstore₁, ← hh₁, ← htemp, Option.bind_eq_bind,
      Option.bind_some]
    rfl
  · rw [hh₁]
    exact layout_of_new htable hext hcurrNew (hh₁ ▸ htempNew)
  · rw [← hrest, List.length_set, List.length_set, hjunk]

/-! ### The end -/

/-- The last code is sent. -/
theorem Mirrors.sendLast {h₀ : Heap Block} {dict array curr_str temp_str n k : ℕ} {st : LzwState}
    {mem : LzwMem} {pf : Platform} {fuel : ℕ}
    (hm : Mirrors h₀ dict array curr_str temp_str n k st mem) (hfuel : k < fuel) {st' : LzwState}
    (hlast : (if st.curr_str.strlen > 0 then st.send pf.signed else some st) = some st') :
    ∃ mem', LzwMemory.sendLast pf fuel dict curr_str mem = some mem' ∧
      Mirrors h₀ dict array curr_str temp_str n k st' mem' := by
  by_cases hcurr : st.curr_str.strlen > 0
  · rw [if_pos hcurr] at hlast
    obtain ⟨mem', hsent, hm'⟩ := hm.send hfuel hlast
    refine ⟨mem', ?_, hm'⟩
    simp only [LzwMemory.sendLast, hm.read_curr, if_pos hcurr, hsent, Option.bind_eq_bind,
      Option.bind_some]
  · rw [if_neg hcurr, Option.some_inj] at hlast
    refine ⟨mem, ?_, hlast ▸ hm⟩
    simp only [LzwMemory.sendLast, hm.read_curr, if_neg hcurr, Option.bind_eq_bind,
      Option.bind_some]
    rfl

/-- In memory the encoder does what it does on values: no call goes outside a block or uses one that
is not there, and in the end memory is as it was. -/
theorem run_LZW_in_memory (pf : Platform) {chunk : List UInt8} (hlen : 2 ≤ chunk.length)
    (hlast : chunk.getLast? = some 0) {fuel : ℕ} (hfuel : 256 + chunk.length ≤ fuel)
    (h₀ : Heap Block) :
    ∃ xs, Lzw.run_LZW pf.signed chunk chunk.length = some xs ∧
      run_LZW pf fuel chunk chunk.length h₀ = some (xs, h₀) := by
  obtain ⟨dict, array, h, chains, hdict, htable, hext, hentries⟩ :=
    newDict_spec pf (by omega : 256 ≤ fuel) h₀
  obtain ⟨curr_str, temp_str, h', rest, temp, hstrings, hlayout, hcurrLen, htempLen⟩ :=
    newStrings_spec pf hlen htable hext
  obtain ⟨_, _, hnum, hcurrStr, _, hstate, hout⟩ := lzwStart_spec pf.signed (chunk.getD 0 0)
  have hstart : Mirrors h₀ dict array curr_str temp_str chunk.length 256
      (lzwStart pf.signed (chunk.getD 0 0)) ⟨h', 256, 0, []⟩ := by
    refine ⟨⟨chains, _, temp, ?_, hentries, hcurrLen, htempLen, rest, by rw [hcurrStr]⟩, ?_,
      hnum.symm, hstate.symm, hout.symm⟩
    · rwa [lzwStart_dict]
    · rw [lzwStart_dict, size_dictAfter]
      decide
  obtain ⟨st, mem, hst, hloop, hm⟩ := hstart.rounds hlast
    (by omega : chunk.length - 1 + 1 ≤ chunk.length) (by omega : 256 + (chunk.length - 1) ≤ fuel)
  obtain ⟨st', hfinish, _, _⟩ := lzwFinish_bounded pf.signed hlen hlast
  have hsend := hfinish
  rw [lzwFinish, hst, Option.bind_some] at hsend
  obtain ⟨mem', hmem', hm'⟩ := hm.sendLast (by omega : 256 + (chunk.length - 1) < fuel) hsend
  obtain ⟨chains', curr, temp', hl', hk, _⟩ := hm'.layout
  have hfree := hl'.free_all (by omega : chains'.flatten.length < fuel)
  refine ⟨st'.output, by rw [Lzw.run_LZW, hfinish, Option.map_some], ?_⟩
  obtain ⟨h₁, hfree₁, hfree⟩ := Option.bind_eq_some_iff.1 hfree
  obtain ⟨h₂, hfree₂, hfree₃⟩ := Option.bind_eq_some_iff.1 hfree
  simp only [Option.bind_eq_bind] at hloop
  simp only [run_LZW, hdict, hstrings, hloop, hmem', hfree₁, hfree₂, hfree₃, hm'.output,
    Option.bind_eq_bind, Option.bind_some]
  rfl

/-- A chunk with new strings, a string found again and a zero byte. -/
theorem run_LZW_in_memory_severalRounds :
    ∃ xs, Lzw.run_LZW true severalRounds 6 = some xs ∧
      run_LZW (zeroed true) 262 severalRounds 6 ∅ = some (xs, ∅) := by
  have hlen : 2 ≤ severalRounds.length := by decide
  exact run_LZW_in_memory (zeroed true) hlen (by decide) (by decide) ∅

end LzwMemory

end DedupLzw
