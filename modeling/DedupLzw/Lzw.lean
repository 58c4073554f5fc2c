/-
**The LZW encoder (`LZW/lzw.cpp`).**

`output_code` packs 13-bit codes into bytes with an eight-state machine; `run_LZW` walks over a
chunk with its current match in `curr_str`, looks every extension up in the hash table, and sends
the code of the match when the extension is not there.

The output buffer is modelled by the bytes written so far, so its length is `output_ptr`, without
the bound that this has as an `int` (`OutputArray.lean` has the `int`; no chunk comes near its
bound).  Merging bits into the byte before `output_ptr` fails when there is none, which is how an
access to `output[-1]` shows.  The state of `run_LZW` also remembers what it sent and what it put
into the dictionary (`sent`, `puts`); nothing in the program reads these two.

Main definitions:

* `DedupLzw.Lzw.output_code` — packing one code;
* `DedupLzw.Lzw.outputCodes` — packing a sequence of codes, the returned state threaded through;
* `DedupLzw.Lzw.run_LZW` — the encoder, with `lzwRound` for one round of its loop and `lzwBefore`
  for its state before each round.

Main results:

* `DedupLzw.Lzw.lzwRound_found`, `lzwRound_absent` — what one round does;
* `DedupLzw.Lzw.lzwBefore_succ` — the loop, round by round;
* `DedupLzw.Lzw.lzwFinish_send`, `lzwFinish_done` — what is done after the loop.
-/

import DedupLzw.Hashtable

set_option relaxedAutoImplicit false
set_option autoImplicit false

namespace DedupLzw

namespace Lzw

open Hashtable

/-! ### Packing codes -/

/-- The conversion of an `int` to `unsigned char`. -/
def toUChar (x : BitVec 32) : UInt8 := UInt8.ofBitVec (x.setWidth 8)

/-- `output[(*output_ptr)++] = (unsigned char) (x & 0xFF)` -/
def writeByte (output : List UInt8) (x : BitVec 32) : List UInt8 :=
  output ++ [toUChar (x &&& 0xFF)]

/-- `output[(*output_ptr) - 1] = (unsigned char) (output[(*output_ptr) - 1] | x)`; there is no such
byte when `output_ptr` is 0. -/
def orLast (output : List UInt8) (x : BitVec 32) : Option (List UInt8) :=
  output.getLast?.map fun b => output.dropLast ++ [b ||| toUChar x]

/-- `output_code`: the returned `int` and the output; `none` when `output[-1]` is touched.  Codes
are masked first, so the shifts never reach the sign bit. -/
def output_code (code : BitVec 32) (state : UInt8) (output : List UInt8) :
    Option (BitVec 32 × List UInt8) :=
  let code := code &&& 0x1FFF
  match state.toNat with
  | 0 =>
      let code := code <<< 3
      some (1, writeByte (writeByte output (code >>> 8)) code)
  | 1 =>
      let code := code <<< 6
      (orLast output ((code >>> 16) &&& 0x07)).map fun output =>
        (2, writeByte (writeByte output (code >>> 8)) code)
  | 2 =>
      let code := code <<< 1
      (orLast output ((code >>> 8) &&& 0x3F)).map fun output => (3, writeByte output code)
  | 3 =>
      let code := code <<< 4
      (orLast output ((code >>> 16) &&& 0x01)).map fun output =>
        (4, writeByte (writeByte output (code >>> 8)) code)
  | 4 =>
      let code := code <<< 7
      (orLast output ((code >>> 16) &&& 0x0F)).map fun output =>
        (5, writeByte (writeByte output (code >>> 8)) code)
  | 5 =>
      let code := code <<< 2
      (orLast output ((code >>> 8) &&& 0x7F)).map fun output => (6, writeByte output code)
  | 6 =>
      let code := code <<< 5
      (orLast output ((code >>> 16) &&& 0x03)).map fun output =>
        (7, writeByte (writeByte output (code >>> 8)) code)
  | 7 =>
      (orLast output ((code >>> 8) &&& 0x1F)).map fun output => (0, writeByte output code)
  | _ => some (-1, output)

/-- One call of `output_code`, its result stored in the `unsigned char state`. -/
def outputStep (p : UInt8 × List UInt8) (code : BitVec 32) : Option (UInt8 × List UInt8) :=
  (output_code code p.1 p.2).map fun r => (toUChar r.1, r.2)

/-- `output_code` on a sequence of codes in turn, from state 0 and `output_ptr` 0. -/
def outputCodes (codes : List (BitVec 32)) : Option (UInt8 × List UInt8) :=
  codes.foldlM outputStep (0, [])

@[simp] theorem outputCodes_nil : outputCodes [] = some (0, []) := rfl

theorem outputCodes_concat (codes : List (BitVec 32)) (code : BitVec 32) :
    outputCodes (codes ++ [code]) = (outputCodes codes).bind (outputStep · code) := by
  simp [outputCodes, List.foldlM_append]

/-! ### The encoder -/

/-- The variables of `run_LZW`'s loop.  `sent` and `puts` record the codes passed to
`output_code`, each with the string it stands for, and the calls of `put`. -/
structure LzwState where
  dict : HashTable
  num : ℕ
  curr_str : CString
  state : UInt8
  output : List UInt8
  sent : List (BitVec 32 × CString)
  puts : List (CString × UInt16)
deriving DecidableEq, Repr

/-- The C string at `(char*) &num`: the bytes of the `int`, least significant first. -/
def intString (num : ℕ) : CString :=
  CString.ofBytes ((List.range 4).map fun i => UInt8.ofNat (num >>> (8 * i)))

/-- The number of buckets of the dictionary. -/
def NUM_BUCKETS : ℕ := 1000

/-- The value `put` stores for the `int` it is given. -/
def toUInt16 (num : ℕ) : UInt16 := UInt16.ofNat num

/-- `put(dict, key, num)`, recorded. -/
def LzwState.put (signed : Bool) (st : LzwState) (key : CString) (num : ℕ) : LzwState :=
  { st with
    dict := Hashtable.put signed st.dict key (toUInt16 num)
    puts := st.puts ++ [(key, toUInt16 num)] }

/-- The dictionary with its first 256 entries, and `curr_str` holding the chunk's first byte. -/
def lzwStart (signed : Bool) (first : UInt8) : LzwState :=
  let st : LzwState :=
    { dict := create_table NUM_BUCKETS, num := 0, curr_str := CString.ofBytes [first], state := 0,
      output := [], sent := [], puts := [] }
  (List.range 256).foldl
    (fun st num => { st.put signed (intString num) num with num := num + 1 }) st

/-- `get(dict, curr_str)`, passed to `output_code`. -/
def LzwState.send (signed : Bool) (st : LzwState) : Option LzwState :=
  let code : BitVec 32 := (get signed st.dict st.curr_str).toBitVec.setWidth 32
  (output_code code st.state st.output).map fun r =>
    { st with state := toUChar r.1, output := r.2, sent := st.sent ++ [(code, st.curr_str)] }

/-- One round of the loop, with `next_char` holding the byte `next`. -/
def lzwRound (signed : Bool) (st : LzwState) (next : UInt8) : Option LzwState :=
  let next_char := CString.ofBytes [next]
  let temp_str := strcat st.curr_str next_char
  if get signed st.dict temp_str ≠ notFound then some { st with curr_str := temp_str }
  else
    (st.send signed).map fun st =>
      { st.put signed temp_str st.num with num := st.num + 1, curr_str := next_char }

/-- The state before the round with this `index`. -/
def lzwBefore (signed : Bool) (input_chunk : List UInt8) (index : ℕ) : Option LzwState :=
  (List.range index).foldlM (fun st i => lzwRound signed st (input_chunk.getD (i + 1) 0))
    (lzwStart signed (input_chunk.getD 0 0))

/-- The state after the last code: the one of `curr_str`, if that is not empty. -/
def lzwFinish (signed : Bool) (input_chunk : List UInt8) (chunkSize : ℕ) : Option LzwState :=
  (lzwBefore signed input_chunk (chunkSize - 1)).bind fun st =>
    if st.curr_str.strlen > 0 then st.send signed else some st

/-- `run_LZW`, called with `output_ptr` 0: the bytes written, whose number it returns. -/
def run_LZW (signed : Bool) (input_chunk : List UInt8) (chunkSize : ℕ) : Option (List UInt8) :=
  (lzwFinish signed input_chunk chunkSize).map LzwState.output

/-! ### What one round does -/

section Rounds

variable {signed : Bool} {st : LzwState} {next : UInt8}

theorem lzwRound_found
    (h : get signed st.dict (strcat st.curr_str (CString.ofBytes [next])) ≠ notFound) :
    lzwRound signed st next
      = some { st with curr_str := strcat st.curr_str (CString.ofBytes [next]) } := by
  simp [lzwRound, h]

theorem lzwRound_absent
    (h : get signed st.dict (strcat st.curr_str (CString.ofBytes [next])) = notFound) :
    lzwRound signed st next = (st.send signed).map fun st =>
      { st.put signed (strcat st.curr_str (CString.ofBytes [next])) st.num with
        num := st.num + 1, curr_str := CString.ofBytes [next] } := by
  simp only [lzwRound, h, ne_eq, not_true_eq_false, if_false, LzwState.send, Option.map_map]
  rfl

theorem send_eq (signed : Bool) (st : LzwState) :
    st.send signed =
      (outputStep (st.state, st.output) ((get signed st.dict st.curr_str).toBitVec.setWidth 32)).map
        fun r => { st with
          state := r.1, output := r.2
          sent := st.sent ++
            [((get signed st.dict st.curr_str).toBitVec.setWidth 32, st.curr_str)] } := by
  simp [LzwState.send, outputStep, Function.comp_def]

theorem lzwBefore_succ (signed : Bool) (input_chunk : List UInt8) (index : ℕ) :
    lzwBefore signed input_chunk (index + 1)
      = (lzwBefore signed input_chunk index).bind
          (lzwRound signed · (input_chunk.getD (index + 1) 0)) := by
  simp [lzwBefore, List.range_succ, List.foldlM_append]

/-- After the loop the code of the current match is sent. -/
theorem lzwFinish_send {input_chunk : List UInt8} {chunkSize : ℕ}
    (hst : lzwBefore signed input_chunk (chunkSize - 1) = some st)
    (hcurr : st.curr_str.strlen > 0) :
    lzwFinish signed input_chunk chunkSize = st.send signed := by
  rw [lzwFinish, hst, Option.bind_some, if_pos hcurr]

/-- If that is empty, nothing is sent. -/
theorem lzwFinish_done {input_chunk : List UInt8} {chunkSize : ℕ}
    (hst : lzwBefore signed input_chunk (chunkSize - 1) = some st)
    (hcurr : ¬ st.curr_str.strlen > 0) : lzwFinish signed input_chunk chunkSize = some st := by
  rw [lzwFinish, hst, Option.bind_some, if_neg hcurr]

end Rounds

end Lzw

end DedupLzw
