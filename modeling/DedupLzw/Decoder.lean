/-
**The decoder (`Decoder/decoder.cpp`).**

`main` reads the compressed file record by record: a header that announces a compressed chunk is
followed by a call of `Decompress`, a header that names an earlier chunk is answered from the list
of chunks.  `Decompress` reads 13-bit codes bit by bit and rebuilds the code table.

The input stream is the bytes not yet read together with the `eof` flag.  Neither loop is bounded
by the program, so both are `FuelLoop.iterate`; indexing `Code_table` outside its size makes the
run `stuck`.  `size_t` has 64 bits and wraps around, `int` has 32.

Main definitions:

* `DedupLzw.Decoder.Stream`, `Stream.get`, `Stream.readHeader` — the input stream;
* `DedupLzw.Decoder.Read_code`, `Decompress`, `main` — the functions of the source;
* `DedupLzw.Decoder.RoundsTo` — the states the loop of `Decompress` reaches;
* `DedupLzw.Decoder.Event` — what an iteration of the main loop did, recorded in the state.
-/

import DedupLzw.FuelLoop

set_option relaxedAutoImplicit false
set_option autoImplicit false

namespace DedupLzw

namespace Decoder

open FuelLoop

/-! ### The input stream -/

/-- `std::ifstream`: the bytes not yet read, and whether a read ran past the end. -/
structure Stream where
  bytes : List UInt8
  eof : Bool
deriving DecidableEq, Repr

/-- `Input.get()` stored in an `unsigned char`: past the end it is the low byte of `EOF`. -/
def Stream.get (s : Stream) : UInt8 × Stream :=
  match s.bytes with
  | [] => (255, { s with eof := true })
  | b :: bytes => (b, { s with bytes := bytes })

/-- `Input.read((char *) &Header, sizeof(int32_t))` on a little-endian machine.  A read that finds
fewer than four bytes consumes them and sets the flag; once the flag is set nothing is read. -/
def Stream.readHeader (s : Stream) : BitVec 32 × Stream :=
  match s.eof, s.bytes with
  | false, b₀ :: b₁ :: b₂ :: b₃ :: bytes =>
      (b₃.toBitVec ++ b₂.toBitVec ++ b₁.toBitVec ++ b₀.toBitVec, { s with bytes := bytes })
  | _, _ => (0, { bytes := [], eof := true })

/-! ### Reading codes -/

/-- The variables `Read_code` works on: the stream, the bit counter and the byte being read. -/
structure Reader where
  Input : Stream
  Input_position : ℕ
  Byte : UInt8
deriving DecidableEq, Repr

/-- The wrap-around of `size_t`. -/
def sizeT (n : ℕ) : ℕ := n % 2 ^ 64

/-- One round of the loop of `Read_code`. -/
def readBit (p : ℕ × Reader) : ℕ × Reader :=
  let (Code, r) := p
  let r := if r.Input_position % 8 = 0 then
      { r with Byte := r.Input.get.1, Input := r.Input.get.2 } else r
  ((Code <<< 1) ||| ((r.Byte.toNat >>> (7 - r.Input_position % 8)) &&& 1),
    { r with Input_position := sizeT (r.Input_position + 1) })

/-- The number of bits of a code. -/
def CODE_LENGTH : ℕ := 13

/-- `Read_code` -/
def Read_code (r : Reader) : ℕ × Reader :=
  (List.range CODE_LENGTH).foldl (fun p _ => readBit p) (0, r)

/-! ### Decompressing a chunk -/

/-- The variables of `Decompress`. -/
structure DecompressState where
  reader : Reader
  Code_table : List (List UInt8)
  Old : ℕ
  Symbol : List UInt8
  Output : List UInt8
deriving DecidableEq, Repr

/-- `std::string(1, (char) n)` -/
def charString (n : ℕ) : List UInt8 := [UInt8.ofNat n]

/-- Up to the loop: the first 256 entries, and the first code. -/
def decompressStart (r : Reader) : DecompressState :=
  let (Old, r) := Read_code { r with Input_position := 0 }
  { reader := r, Code_table := (List.range 256).map charString, Old := Old,
    Symbol := charString Old, Output := charString Old }

/-- The test of the loop, `Input_position / 8 < Size - 1` in `size_t`. -/
def loopTest (Size : ℕ) (Input_position : ℕ) : Bool :=
  decide (Input_position / 8 < sizeT (Size + (2 ^ 64 - 1)))

/-- `(int) Code_table.size()` -/
def toInt (size : ℕ) : ℤ := (BitVec.ofNat 32 size).toInt

/-- One round of the loop.  An index outside `Code_table` is undefined behaviour; `Symbols[0]` of
an empty string is `'\0'`. -/
def decompressRound (st : DecompressState) : Outcome DecompressState :=
  let (New, r) := Read_code st.reader
  match st.Code_table[st.Old]? with
  | none => .stuck
  | some old =>
      match (if (New : ℤ) ≥ toInt st.Code_table.length then some (old ++ st.Symbol)
        else st.Code_table[New]?) with
      | none => .stuck
      | some Symbols =>
          let Symbol := [Symbols.headD 0]
          .done { reader := r, Code_table := st.Code_table ++ [old ++ Symbol], Old := New,
                  Symbol := Symbol, Output := st.Output ++ Symbols }

/-- The loop's body as `iterate` wants it: leave when the test fails. -/
def decompressBody (Size : ℕ) (st : DecompressState) :
    Outcome (Next DecompressState DecompressState) :=
  if loopTest Size st.reader.Input_position then
    (decompressRound st).andThen fun st => .done (.again st)
  else .done (.stop st)

/-- `Decompress`: the string it returns and what it leaves of the reader. -/
def Decompress (Size : ℕ) (r : Reader) (fuel : ℕ) : Outcome (List UInt8 × Reader) :=
  (iterate (fun _ => decompressBody Size) fuel (decompressStart r)).andThen fun st =>
    .done (st.Output, st.reader)

/-- The loop of `Decompress (Size)` reaches the state `t` from `s` in `n` rounds. -/
inductive RoundsTo (Size : ℕ) (s : DecompressState) : ℕ → DecompressState → Prop
  /-- Before the first round. -/
  | zero : RoundsTo Size s 0 s
  /-- The test holds and the body runs. -/
  | succ {n : ℕ} {t u : DecompressState} : RoundsTo Size s n t →
      loopTest Size t.reader.Input_position = true → decompressRound t = .done u →
      RoundsTo Size s (n + 1) u

/-! ### The main loop -/

/-- What one iteration of the main loop found, with the number of bytes left in the stream after
it. -/
inductive Event where
  /-- A compressed chunk, with its announced size. -/
  | chunk (Chunk_size : ℕ) (left : ℕ)
  /-- A reference to an earlier chunk. -/
  | reference (Location : ℕ) (left : ℕ)
deriving DecidableEq, Repr

/-- The variables of `main`'s loop; `Output` is the file written so far, and `events` records the
iterations. -/
structure MainState where
  Input : Stream
  Byte : UInt8
  Chunks : List (List UInt8)
  Output : List UInt8
  events : List Event
deriving DecidableEq, Repr

/-- One iteration of the main loop. -/
def mainBody (fuel : ℕ) (st : MainState) : Outcome (Next MainState MainState) :=
  let (Header, Input) := st.Input.readHeader
  if Input.eof then .done (.stop { st with Input := Input })
  else if Header &&& 1 = 0 then
    let Chunk_size := (Header >>> 1).toNat
    (Decompress Chunk_size { Input := Input, Input_position := 0, Byte := st.Byte } fuel).andThen
      fun (Chunk, r) => .done (.again
        { Input := r.Input, Byte := r.Byte, Chunks := st.Chunks ++ [Chunk],
          Output := st.Output ++ Chunk
          events := st.events ++ [.chunk Chunk_size r.Input.bytes.length] })
  else
    let Location := (Header >>> 1).toNat
    -- a location that is not in the database is reported and ignored
    .done (.again
      { st with
        Input := Input
        Output := st.Output ++ st.Chunks.getD Location []
        events := st.events ++ [.reference Location Input.bytes.length] })

/-- `main` on a file: the state in which it leaves its loop. -/
def main (file : List UInt8) (fuel : ℕ) : Outcome MainState :=
  iterate mainBody fuel
    { Input := ⟨file, false⟩, Byte := 0, Chunks := [], Output := [], events := [] }

end Decoder

end DedupLzw
