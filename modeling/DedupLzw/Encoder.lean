/-
**The encoder (`Server/encoder.cpp`, `Server/server.cpp`).**

The encoder receives datagrams into the slots of a ring buffer, in turn, and calls `runApp` on the
payload of each until one carries the flag of the last datagram.  A slot keeps what an earlier
datagram left in it where the present one is shorter, and everything when `recvfrom` fails: the
encoder takes no notice of the failure.

A run is given by what `recvfrom` returns in turn, a datagram or a failure; it waits for ever once
there is nothing more to receive.  The state also records the packets, that is, the calls of
`runApp`.

The output is the list `file` of the application's state, and `offset` is its length.  Neither has a
bound here, where the source has 70000000 bytes and an `int`; the arrays of `runApp` are bounded in
the record of its accesses only, so a run goes on behind an access outside them.

Main definitions:

* `DedupLzw.Encoder.get_packet`, `receive`, `receiveLoop`, `main` — the source;
* `DedupLzw.Encoder.payloads` — the bytes `runApp` is called on.

Main results:

* `DedupLzw.Encoder.packetLength_datagram` — the header that the client writes is understood;
* `DedupLzw.Encoder.receive_datagram` — what the encoder makes of a datagram;
* `DedupLzw.Encoder.main_datagrams` — **it makes their payloads of a sequence of datagrams**;
* `DedupLzw.Encoder.main_app` — it runs `runApp` over its packets.
-/

import DedupLzw.App
import DedupLzw.Client

set_option relaxedAutoImplicit false
set_option autoImplicit false

namespace DedupLzw

namespace Encoder

open App Cdc Client

/-! ### The functions of the source -/

/-- The number of slots. -/
def NUM_PACKETS : ℕ := 8

/-- The slot of the first datagram. -/
def pipe_depth : ℕ := 4

/-- The size of the header. -/
def HEADER : ℕ := 2

/-- `recvfrom` with room for `size` bytes: a datagram, of which as much as there is room for, or a
failure. -/
def recvfrom (size : ℕ) (buffer : Buffer) : Option (List UInt8) → Buffer
  | none => buffer
  | some datagram => fun j => if j < min datagram.length size then datagram.getD j 0 else buffer j

/-- `get_packet` -/
def get_packet (blocksize : ℕ) (buffer : Buffer) (received : Option (List UInt8)) : Buffer :=
  recvfrom (blocksize + HEADER) buffer received

/-- The flag in the header. -/
def doneBit (buffer : Buffer) : Bool := buffer 1 &&& DONE_BIT ≠ 0

/-- The length in the header. -/
def packetLength (buffer : Buffer) : ℕ :=
  let length : BitVec 32 :=
    (buffer 0).toBitVec.setWidth 32 ||| ((buffer 1).toBitVec.setWidth 32 <<< 8)
  (length &&& ~~~((1 : BitVec 32) <<< 15)).toNat

/-- The variables of `main`; `packets` records the calls of `runApp`. -/
structure EncoderState where
  input : ℕ → Buffer
  writer : ℕ
  done : Bool
  app : AppState
  packets : List (Buffer × ℕ)

/-- Before the first datagram, whatever the slots hold. -/
def start (input : ℕ → Buffer) : EncoderState where
  input := input
  writer := pipe_depth
  done := false
  app := AppState.init
  packets := []

section Kernel

variable (lzw_hw_streams : List UInt8 → ℕ → List UInt8) (blocksize : ℕ)

/-- A datagram, or a failure: the slot is decoded and processed. -/
def receive (st : EncoderState) (received : Option (List UInt8)) : EncoderState :=
  let buffer := get_packet blocksize (st.input st.writer) received
  let length := packetLength buffer
  let payload : Buffer := fun j => buffer (HEADER + j)
  { input := Function.update st.input st.writer buffer
    writer := st.writer + 1
    done := doneBit buffer
    app := runApp lzw_hw_streams payload length st.app
    packets := st.packets ++ [(payload, length)] }

/-- The start of the ring buffer follows its end. -/
def resetRing (st : EncoderState) : EncoderState :=
  if st.writer = NUM_PACKETS then { st with writer := 0 } else st

/-- The loop of `main`: its last state, and what it did not receive. -/
def receiveLoop (st : EncoderState) :
    List (Option (List UInt8)) → EncoderState × List (Option (List UInt8))
  | [] => (st, [])
  | received :: rest =>
      if st.done then (st, received :: rest)
      else receiveLoop (receive lzw_hw_streams blocksize (resetRing st) received) rest

/-- `main`, up to the end of its loop. -/
def main (input : ℕ → Buffer) :
    List (Option (List UInt8)) → EncoderState × List (Option (List UInt8))
  | [] => (start input, [])
  | received :: rest =>
      receiveLoop lzw_hw_streams blocksize (receive lzw_hw_streams blocksize (start input) received)
        rest

end Kernel

/-- The bytes of the packets. -/
def payloads (st : EncoderState) : List (List UInt8) :=
  st.packets.map fun packet => slice packet.1 0 packet.2

/-! ### The header -/

/-- The length without the flag, put together from its two bytes. -/
theorem packetLength_eq (buffer : Buffer) :
    packetLength buffer = (buffer 1).toNat % 128 * 256 + (buffer 0).toNat := by
  have hbits : ∀ b₀ b₁ : BitVec 8,
      (b₀.setWidth 32 ||| (b₁.setWidth 32 <<< 8)) &&& ~~~((1 : BitVec 32) <<< 15)
        = (b₁.setWidth 7 ++ b₀).setWidth 32 := by
    intro b₀ b₁
    apply BitVec.eq_of_getLsbD_eq
    intro i hi
    simp only [BitVec.getLsbD_and, BitVec.getLsbD_or, BitVec.getLsbD_shiftLeft,
      BitVec.getLsbD_setWidth, BitVec.getLsbD_append, BitVec.getLsbD_not]
    interval_cases i <;> simp
  have hlow := (buffer 0).toBitVec.isLt
  rw [packetLength, hbits, BitVec.toNat_setWidth, BitVec.toNat_append,
    ← Nat.shiftLeft_add_eq_or_of_lt hlow, BitVec.toNat_setWidth, Nat.shiftLeft_eq]
  simp only [UInt8.toNat_toBitVec] at hlow ⊢
  omega

/-- Setting the flag. -/
theorem or_doneBit (x : UInt8) :
    (x ||| DONE_BIT).toNat % 128 = x.toNat % 128 ∧ (x ||| DONE_BIT) &&& DONE_BIT ≠ 0 := by
  constructor
  · have hmod := Nat.or_mod_two_pow (a := x.toNat) (b := 128) (n := 7)
    rw [UInt8.toNat_or]
    simpa [DONE_BIT] using hmod
  · intro hzero
    have hbit := congrArg (fun y : UInt8 => y.toNat.testBit 7) hzero
    have hflag : Nat.testBit 128 7 = true := by decide
    simp [DONE_BIT, hflag] at hbit

/-- A byte without the flag. -/
theorem and_doneBit {x : UInt8} (h : x.toNat < 128) : x &&& DONE_BIT = 0 := by
  apply UInt8.toNat_inj.1
  have hbit : x.toNat.testBit 7 = false := Nat.testBit_lt_two_pow h
  have hand := Nat.and_two_pow x.toNat 7
  rw [hbit] at hand
  rw [UInt8.toNat_and]
  simpa [DONE_BIT] using hand

/-- The header that the client writes is understood. -/
theorem packetLength_datagram {size : ℕ} (hsize : size < 2 ^ 15) (done : Bool)
    (payload : List UInt8) {buffer : Buffer}
    (h : ∀ j < 2, buffer j = (datagram size done payload).getD j 0) :
    packetLength buffer = size ∧ doneBit buffer = done := by
  have hlow : (buffer 0).toNat = size % 256 := by
    rw [h 0 (by decide), datagram]
    have hmask := Nat.and_two_pow_sub_one_eq_mod size 8
    norm_num at hmask
    simp [hmask]
  have hhigh : (UInt8.ofNat (size >>> 8)).toNat = size / 256 := by
    rw [UInt8.toNat_ofNat', Nat.shiftRight_eq_div_pow]
    omega
  have hbyte : buffer 1 = if done then UInt8.ofNat (size >>> 8) ||| DONE_BIT
      else UInt8.ofNat (size >>> 8) := h 1 (by decide)
  rw [packetLength_eq, doneBit, hlow, hbyte]
  cases done with
  | false =>
      simp only [Bool.false_eq_true, if_false, hhigh]
      exact ⟨by omega, by simp [and_doneBit (hhigh ▸ show size / 256 < 128 by omega)]⟩
  | true =>
      simp only [if_true]
      rw [(or_doneBit _).1, hhigh]
      exact ⟨by omega, by simpa using (or_doneBit _).2⟩

/-! ### One datagram -/

section Kernel

variable (lzw_hw_streams : List UInt8 → ℕ → List UInt8) {blocksize : ℕ}

/-- What the encoder makes of a datagram. -/
theorem receive_datagram (hblock : blocksize ≤ 16384) (st : EncoderState) (done : Bool)
    {payload : List UInt8} (hsize : payload.length ≤ blocksize) :
    (receive lzw_hw_streams blocksize st (some (datagram payload.length done payload))).done
        = done ∧
      payloads (receive lzw_hw_streams blocksize st
          (some (datagram payload.length done payload))) = payloads st ++ [payload] := by
  have hlen : (datagram payload.length done payload).length = payload.length + 2 := by
    simp [datagram]
  have hbuffer : ∀ j < payload.length + 2,
      get_packet blocksize (st.input st.writer) (some (datagram payload.length done payload)) j
        = (datagram payload.length done payload).getD j 0 := by
    intro j hj
    refine if_pos ?_
    rw [hlen, HEADER]
    omega
  obtain ⟨hlength, hdone⟩ := packetLength_datagram (by omega) done payload
    fun j hj => hbuffer j (by omega)
  refine ⟨hdone, ?_⟩
  simp only [payloads, receive, List.map_append, List.map_singleton, hlength]
  congr 2
  refine List.ext_getElem (by simp) fun i h₁ h₂ => ?_
  have hbyte := hbuffer (HEADER + i) (by simp only [HEADER]; omega)
  simp only [slice, List.getElem_map, List.getElem_range', Nat.sub_zero, Nat.zero_add, Nat.one_mul,
    hbyte]
  have hget : (datagram payload.length done payload)[HEADER + i]? = some payload[i] := by
    rw [datagram, List.getElem?_append_right (by simp [HEADER]), HEADER]
    simp
  rw [List.getD_eq_getElem?_getD, hget, Option.getD_some]

/-! ### The loop -/

/-- The next slot. -/
theorem resetRing_writer {st : EncoderState} (h : st.writer ≤ NUM_PACKETS) :
    (resetRing st).writer = st.writer % NUM_PACKETS := by
  unfold resetRing
  split
  case isTrue hend => rw [hend, Nat.mod_self]
  case isFalse hne => rw [Nat.mod_eq_of_lt (lt_of_le_of_ne h hne)]

@[simp] theorem resetRing_input (st : EncoderState) : (resetRing st).input = st.input := by
  unfold resetRing
  split <;> rfl

@[simp] theorem resetRing_app (st : EncoderState) : (resetRing st).app = st.app := by
  unfold resetRing
  split <;> rfl

@[simp] theorem resetRing_packets (st : EncoderState) : (resetRing st).packets = st.packets := by
  unfold resetRing
  split <;> rfl

theorem receiveLoop_of_done {st : EncoderState} (h : st.done = true)
    (received : List (Option (List UInt8))) :
    receiveLoop lzw_hw_streams blocksize st received = (st, received) := by
  cases received with
  | nil => rfl
  | cons d received => rw [receiveLoop, if_pos h]

theorem receiveLoop_of_more {st : EncoderState} (h : st.done = false) (d : Option (List UInt8))
    (received : List (Option (List UInt8))) :
    receiveLoop lzw_hw_streams blocksize st (d :: received)
      = receiveLoop lzw_hw_streams blocksize (receive lzw_hw_streams blocksize (resetRing st) d)
          received := by
  rw [receiveLoop, h, if_neg (by simp)]

/-! ### A sequence of datagrams -/

/-- What the loop makes of a sequence of datagrams of which the last one has the flag. -/
theorem receiveLoop_datagrams (hblock : blocksize ≤ 16384) {front : List (List UInt8)}
    {last : List UInt8} (hfront : ∀ payload ∈ front, payload.length ≤ blocksize)
    (hlast : last.length ≤ blocksize) (st : EncoderState) (hdone : st.done = false) :
    ∃ st', receiveLoop lzw_hw_streams blocksize st
        ((front.map fun payload => some (datagram payload.length false payload)) ++
          [some (datagram last.length true last)]) = (st', []) ∧
      st'.done = true ∧ payloads st' = payloads st ++ front ++ [last] := by
  have hreset : ∀ st : EncoderState, payloads (resetRing st) = payloads st := by
    intro st
    rw [payloads, resetRing_packets, payloads]
  induction front generalizing st with
  | nil =>
      obtain ⟨hflag, hpayloads⟩ :=
        receive_datagram lzw_hw_streams hblock (resetRing st) true hlast
      refine ⟨_, ?_, hflag, ?_⟩
      · rw [List.map_nil, List.nil_append, receiveLoop_of_more _ hdone, receiveLoop]
      · rw [hpayloads, hreset, List.append_nil]
  | cons payload front ih =>
      obtain ⟨hflag, hpayloads⟩ := receive_datagram lzw_hw_streams hblock (resetRing st) false
        (hfront payload List.mem_cons_self)
      obtain ⟨st', hloop, hdone', hpayloads'⟩ :=
        ih (fun p hp => hfront p (List.mem_cons_of_mem _ hp)) _ hflag
      refine ⟨st', ?_, hdone', ?_⟩
      · rw [List.map_cons, List.cons_append, receiveLoop_of_more _ hdone, hloop]
      · rw [hpayloads', hpayloads, hreset]
        simp

/-- What the encoder makes of a sequence of datagrams of which the last one has the flag: it
receives them all, stops, and has processed their payloads. -/
theorem main_datagrams (hblock : blocksize ≤ 16384) {front : List (List UInt8)}
    {last : List UInt8} (hfront : ∀ payload ∈ front, payload.length ≤ blocksize)
    (hlast : last.length ≤ blocksize) (input : ℕ → Buffer) :
    ∃ st, main lzw_hw_streams blocksize input
        ((front.map fun payload => some (datagram payload.length false payload)) ++
          [some (datagram last.length true last)]) = (st, []) ∧
      st.done = true ∧ payloads st = front ++ [last] := by
  cases front with
  | nil =>
      obtain ⟨hflag, hpayloads⟩ := receive_datagram lzw_hw_streams hblock (start input) true hlast
      exact ⟨_, rfl, hflag, hpayloads⟩
  | cons payload front =>
      obtain ⟨hflag, hpayloads⟩ := receive_datagram lzw_hw_streams hblock (start input) false
        (hfront payload List.mem_cons_self)
      obtain ⟨st, hloop, hdone, hall⟩ := receiveLoop_datagrams lzw_hw_streams hblock
        (fun p hp => hfront p (List.mem_cons_of_mem _ hp)) hlast _ hflag
      refine ⟨st, hloop, hdone, ?_⟩
      rw [hall, hpayloads]
      rfl

/-! ### The application over the packets -/

/-- The encoder runs its application over the packets it records. -/
theorem receiveLoop_app (st : EncoderState) (received : List (Option (List UInt8)))
    (h : st.app = runPackets lzw_hw_streams st.packets) :
    (receiveLoop lzw_hw_streams blocksize st received).1.app
      = runPackets lzw_hw_streams (receiveLoop lzw_hw_streams blocksize st received).1.packets := by
  induction received generalizing st with
  | nil => exact h
  | cons d received ih =>
      cases hdone : st.done with
      | true => rwa [receiveLoop_of_done _ hdone]
      | false =>
          rw [receiveLoop_of_more _ hdone]
          refine ih _ ?_
          simp only [receive, runPackets_concat, resetRing_app, resetRing_packets, h]

theorem main_app (input : ℕ → Buffer) (received : List (Option (List UInt8))) :
    (main lzw_hw_streams blocksize input received).1.app
      = runPackets lzw_hw_streams (main lzw_hw_streams blocksize input received).1.packets := by
  cases received with
  | nil => rfl
  | cons d received => exact receiveLoop_app _ _ _ rfl

end Kernel

end Encoder

end DedupLzw
