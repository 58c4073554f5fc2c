/-
**Failed receives.**

`get_packet` reports a failure and returns a negative number, which `main` does not look at: the
slot is decoded and processed again as an earlier datagram left it.  So a failure adds nothing
exactly when the header in the slot has the length 0, and that is so in a slot that was never filled
with anything else, or was last filled with an empty packet.

A failure also moves the ring on.  The datagrams behind it go to other slots than they would have
gone to, which makes no difference to datagrams that are complete and whose packets end where their
last chunk ends; and a flag in the slot ends the loop.

Main definitions:

* `DedupLzw.Encoder.Runs`, `CalledIn` — the states in which `get_packet` is called in a run;
* `DedupLzw.Encoder.slot` — the slot it is called on;
* `DedupLzw.Encoder.slotHistory` — what was received into a slot;
* `DedupLzw.Encoder.leftInSlot` — what this has left in the slot of the next datagram;
* `DedupLzw.App.SameOutput` — the same output and the same state of the deduplication;
* `DedupLzw.Encoder.Intact` — a datagram that uses nothing of what is left in its slot.

Main results:

* `DedupLzw.Encoder.Runs.slot_eq` — what the slot holds;
* `DedupLzw.Encoder.failure_adds_nothing_iff` — one failure;
* `DedupLzw.Encoder.receiveLoop_intact` — runs that differ in failures, after the first of them;
* `DedupLzw.Encoder.failures_add_nothing_iff` — **whole runs**.
-/

import DedupLzw.Encoder
import DedupLzw.StaleBytes

set_option relaxedAutoImplicit false
set_option autoImplicit false

namespace DedupLzw

namespace App

open Cdc Sha

/-! ### What a packet does to the output -/

/-- The same output bytes, and the same state of the deduplication. -/
structure SameOutput (st st' : AppState) : Prop where
  file : st.file = st'.file
  shaMap : st.shaMap = st'.shaMap
  curr : st.curr = st'.curr

theorem SameOutput.refl (st : AppState) : SameOutput st st := ⟨rfl, rfl, rfl⟩

theorem SameOutput.symm {st st' : AppState} (h : SameOutput st st') : SameOutput st' st :=
  ⟨h.file.symm, h.shaMap.symm, h.curr.symm⟩

theorem SameOutput.trans {st st' st'' : AppState} (h : SameOutput st st')
    (h' : SameOutput st' st'') : SameOutput st st'' :=
  ⟨h.file.trans h'.file, h.shaMap.trans h'.shaMap, h.curr.trans h'.curr⟩

section Kernel

variable (lzw_hw_streams : List UInt8 → ℕ → List UInt8)

/-- Processing a chunk uses nothing else of the state. -/
theorem SameOutput.processChunk {st st' : AppState} (h : SameOutput st st') (chunk : List UInt8) :
    SameOutput (processChunk lzw_hw_streams st chunk) (processChunk lzw_hw_streams st' chunk) where
  file := by rw [processChunk_file, processChunk_file, h.file, h.shaMap, h.curr]
  shaMap := by rw [processChunk_shaMap, processChunk_shaMap, h.shaMap, h.curr]
  curr := by rw [processChunk_curr, processChunk_curr, h.shaMap, h.curr]

theorem SameOutput.runApp {st st' : AppState} (h : SameOutput st st') (b : Buffer) (length : ℕ) :
    SameOutput (runApp lzw_hw_streams b length st) (runApp lzw_hw_streams b length st') := by
  have hfold : ∀ cs : List (List UInt8),
      SameOutput (cs.foldl (App.processChunk lzw_hw_streams) st)
        (cs.foldl (App.processChunk lzw_hw_streams) st') := by
    intro cs
    induction cs generalizing st st' with
    | nil => exact h
    | cons c cs ih => exact ih (h.processChunk lzw_hw_streams c)
  have hchunks := hfold (chunksFrom b length 0)
  rw [runApp_eq, runApp_eq]
  exact ⟨hchunks.file, hchunks.shaMap, hchunks.curr⟩

/-- A packet of length 0 does nothing. -/
theorem runApp_zero (b : Buffer) (st : AppState) :
    SameOutput (App.runApp lzw_hw_streams b 0 st) st := by
  rw [runApp_eq, chunksFrom_of_le le_rfl]
  exact ⟨rfl, rfl, rfl⟩

theorem four_le_length_bytes (record : Record) : 4 ≤ record.bytes.length := by
  cases record with
  | compressed count body => simp [Record.bytes]
  | duplicate index => simp [Record.bytes]

theorem length_file_processChunk_le (st : AppState) (chunk : List UInt8) :
    st.file.length + 4 ≤ (App.processChunk lzw_hw_streams st chunk).file.length := by
  have hrecord := four_le_length_bytes
    (recordFor lzw_hw_streams chunk (dedup_hash (SHA_new chunk) st.shaMap st.curr).1)
  rw [processChunk_file, List.length_append]
  omega

/-- Any other packet adds at least a record. -/
theorem length_file_runApp_le (b : Buffer) {length : ℕ} (hpos : 1 ≤ length) (st : AppState) :
    st.file.length + 4 ≤ (App.runApp lzw_hw_streams b length st).file.length := by
  have hfold : ∀ (cs : List (List UInt8)) (st : AppState),
      st.file.length ≤ (cs.foldl (App.processChunk lzw_hw_streams) st).file.length := by
    intro cs
    induction cs with
    | nil => exact fun _ => le_rfl
    | cons c cs ih =>
        intro st
        have hone := length_file_processChunk_le lzw_hw_streams st c
        have hrest := ih (App.processChunk lzw_hw_streams st c)
        rw [List.foldl_cons]
        omega
  rw [runApp_eq, frame_file, chunksFrom_of_lt (by omega), List.foldl_cons]
  exact le_trans (length_file_processChunk_le lzw_hw_streams st _) (hfold _ _)

theorem runApp_sameOutput_iff (b : Buffer) (length : ℕ) (st : AppState) :
    SameOutput (App.runApp lzw_hw_streams b length st) st ↔ length = 0 := by
  constructor
  · intro h
    by_contra hne
    have hgrows := length_file_runApp_le lzw_hw_streams b (Nat.one_le_iff_ne_zero.2 hne) st
    rw [h.file] at hgrows
    omega
  · rintro rfl
    exact runApp_zero lzw_hw_streams b st

/-- A packet whose chunks end where it ends does the same from whatever buffer. -/
theorem runApp_sameOutput_of_fit {b b' : Buffer} {length : ℕ}
    (hfit : length = 0 ∨ ExactFit b length) (h : ∀ j < length, b' j = b j) (st : AppState) :
    SameOutput (App.runApp lzw_hw_streams b' length st)
      (App.runApp lzw_hw_streams b length st) := by
  have hend : endFrom b length 0 ≤ length := by
    rcases hfit with rfl | hfit
    · exact (endFrom_of_le le_rfl).le
    · exact ((endFrom_eq_iff (by have := hfit.1; omega)).2 hfit).le
  obtain ⟨hfile, hmap, hcurr⟩ := noLeak_of_fit lzw_hw_streams hend b' st h
  exact ⟨hfile, hmap, hcurr⟩

end Kernel

end App

namespace Encoder

open App Cdc Client

section Kernel

variable (lzw_hw_streams : List UInt8 → ℕ → List UInt8) (blocksize : ℕ) (input : ℕ → Buffer)

/-! ### Runs -/

/-- The encoder has received this and is in the state `st`, which may be the end of its loop. -/
inductive Runs : List (Option (List UInt8)) → EncoderState → Prop
  /-- Before the first call of `get_packet`. -/
  | start : Runs [] (start input)
  /-- A datagram, or a failure. -/
  | receive {before : List (Option (List UInt8))} {st : EncoderState}
      (received : Option (List UInt8)) : Runs before st → st.done = false →
      Runs (before ++ [received]) (receive lzw_hw_streams blocksize (resetRing st) received)

/-- In the run that receives all this, `get_packet` returns `r` after `before` in the state `st`. -/
structure CalledIn (received before : List (Option (List UInt8))) (r : Option (List UInt8))
    (st : EncoderState) : Prop where
  prefix_eq : before ++ [r] <+: received
  runs : Runs lzw_hw_streams blocksize input before st
  more : st.done = false

/-- The slot the next datagram goes to, as it is before. -/
def slot (st : EncoderState) : Buffer := (resetRing st).input (resetRing st).writer

/-- `main` runs through these states. -/
theorem Runs.main_eq {before : List (Option (List UInt8))} {st : EncoderState}
    (h : Runs lzw_hw_streams blocksize input before st) (rest : List (Option (List UInt8))) :
    main lzw_hw_streams blocksize input (before ++ rest)
      = receiveLoop lzw_hw_streams blocksize st rest := by
  induction h generalizing rest with
  | start =>
      cases rest with
      | nil => rfl
      | cons received rest => rfl
  | @receive before st received _ hmore ih =>
      rw [List.append_assoc, ih, List.singleton_append, receiveLoop_of_more _ hmore]

/-! ### What a slot holds -/

/-- Of what was received, the part that went to the slot `k`. -/
def slotHistory (k : ℕ) (received : List (Option (List UInt8))) : List (Option (List UInt8)) :=
  (received.zipIdx.filter fun call => (call.2 + pipe_depth) % NUM_PACKETS = k).map Prod.fst

theorem slotHistory_concat (k : ℕ) (before : List (Option (List UInt8)))
    (received : Option (List UInt8)) :
    slotHistory k (before ++ [received])
      = slotHistory k before
        ++ if (before.length + pipe_depth) % NUM_PACKETS = k then [received] else [] := by
  rw [slotHistory, slotHistory, List.zipIdx_append, List.filter_append, List.map_append]
  congr 1
  by_cases hturn : (before.length + pipe_depth) % NUM_PACKETS = k <;> simp [hturn]

/-- The slots are filled in turn, and each holds what the datagrams left there one upon another. -/
theorem Runs.ring {before : List (Option (List UInt8))} {st : EncoderState}
    (h : Runs lzw_hw_streams blocksize input before st) :
    (st.writer ≤ NUM_PACKETS ∧ st.writer % NUM_PACKETS = (before.length + pipe_depth) % NUM_PACKETS)
      ∧ ∀ k, st.input k = (slotHistory k before).foldl (get_packet blocksize) (input k) := by
  induction h with
  | start => exact ⟨⟨by simp [Encoder.start, pipe_depth, NUM_PACKETS], rfl⟩, fun k => rfl⟩
  | @receive before st received _ _ ih =>
      obtain ⟨⟨hle, hmod⟩, hslots⟩ := ih
      have hwriter : (resetRing st).writer = (before.length + pipe_depth) % NUM_PACKETS :=
        (resetRing_writer hle).trans hmod
      have hlt := Nat.mod_lt (before.length + pipe_depth) (by decide : 0 < NUM_PACKETS)
      refine ⟨⟨?_, ?_⟩, fun k => ?_⟩
      · change (resetRing st).writer + 1 ≤ NUM_PACKETS
        omega
      · change ((resetRing st).writer + 1) % NUM_PACKETS = _
        rw [hwriter, Nat.mod_add_mod, List.length_append, List.length_singleton,
          Nat.add_right_comm]
      · change Function.update (resetRing st).input (resetRing st).writer
          (get_packet blocksize ((resetRing st).input (resetRing st).writer) received) k = _
        rw [slotHistory_concat, List.foldl_append, ← hslots, ← hwriter, resetRing_input]
        by_cases hturn : (resetRing st).writer = k
        · rw [if_pos hturn, hturn, Function.update_self]
          rfl
        · rw [if_neg hturn, Function.update_of_ne (Ne.symm hturn)]
          rfl

/-- After `before`, what the datagrams that went to the slot of the next one have left there, one
upon another. -/
def leftInSlot (before : List (Option (List UInt8))) : Buffer :=
  (slotHistory ((before.length + pipe_depth) % NUM_PACKETS) before).foldl
    (get_packet blocksize) (input ((before.length + pipe_depth) % NUM_PACKETS))

/-- `get_packet` finds this in its slot. -/
theorem Runs.slot_eq {before : List (Option (List UInt8))} {st : EncoderState}
    (h : Runs lzw_hw_streams blocksize input before st) :
    slot st = leftInSlot blocksize input before := by
  obtain ⟨⟨hle, hmod⟩, hslots⟩ := h.ring
  rw [slot, leftInSlot, resetRing_writer hle, hmod, resetRing_input, hslots]

/-! ### One call -/

/-- After a failure the slot is processed as it is. -/
theorem receive_none_app (st : EncoderState) :
    (receive lzw_hw_streams blocksize (resetRing st) none).app
      = runApp lzw_hw_streams (fun j => slot st (HEADER + j)) (packetLength (slot st)) st.app := by
  rw [← resetRing_app st]
  rfl

/-- A failure adds nothing exactly when the header in the slot has the length 0. -/
theorem failure_adds_nothing_iff (st : EncoderState) :
    SameOutput (receive lzw_hw_streams blocksize (resetRing st) none).app st.app ↔
      packetLength (slot st) = 0 := by
  rw [receive_none_app, runApp_sameOutput_iff]

/-- The bytes of a datagram. -/
def datagramBytes (datagram : List UInt8) : Buffer := fun j => datagram.getD j 0

/-- A datagram that brings its header and its whole packet, for which there is room, and whose
packet is empty or ends where its last chunk ends: what the slot held before makes no difference. -/
structure Intact (datagram : List UInt8) : Prop where
  header : HEADER ≤ datagram.length
  complete : HEADER + packetLength (datagramBytes datagram) ≤ datagram.length
  room : packetLength (datagramBytes datagram) ≤ blocksize
  fit : packetLength (datagramBytes datagram) = 0 ∨
    ExactFit (fun j => datagramBytes datagram (HEADER + j)) (packetLength (datagramBytes datagram))

/-- What the encoder makes of such a datagram does not depend on the slot. -/
theorem receive_intact {datagram : List UInt8} (h : Intact blocksize datagram)
    (st : EncoderState) :
    (receive lzw_hw_streams blocksize (resetRing st) (some datagram)).done
        = doneBit (datagramBytes datagram) ∧
      SameOutput (receive lzw_hw_streams blocksize (resetRing st) (some datagram)).app
        (runApp lzw_hw_streams (fun j => datagramBytes datagram (HEADER + j))
          (packetLength (datagramBytes datagram)) st.app) := by
  have hbytes : ∀ j, j < HEADER + packetLength (datagramBytes datagram) →
      get_packet blocksize (slot st) (some datagram) j = datagramBytes datagram j := by
    intro j hj
    have hcomplete := h.complete
    have hroom := h.room
    exact if_pos (by omega)
  have hheader := hbytes 0 (by rw [HEADER]; omega)
  have hflag := hbytes 1 (by rw [HEADER]; omega)
  have hlength : packetLength (get_packet blocksize (slot st) (some datagram))
      = packetLength (datagramBytes datagram) := by
    rw [packetLength_eq, packetLength_eq, hheader, hflag]
  have hreceive : (receive lzw_hw_streams blocksize (resetRing st) (some datagram)).app
      = runApp lzw_hw_streams
          (fun j => get_packet blocksize (slot st) (some datagram) (HEADER + j))
          (packetLength (get_packet blocksize (slot st) (some datagram))) st.app := by
    rw [← resetRing_app st]
    rfl
  constructor
  · change doneBit (get_packet blocksize (slot st) (some datagram)) = _
    rw [doneBit, doneBit, hflag]
  · rw [hreceive, hlength]
    exact runApp_sameOutput_of_fit lzw_hw_streams h.fit (fun j hj => hbytes _ (by omega)) st.app

/-! ### Whole runs -/

/-- No failure adds anything or ends the loop, and every datagram behind a failure is intact. -/
structure Quiet (received : List (Option (List UInt8))) : Prop where
  failure : ∀ before st, CalledIn lzw_hw_streams blocksize input received before none st →
    packetLength (leftInSlot blocksize input before) = 0 ∧
      doneBit (leftInSlot blocksize input before) = false
  intact : ∀ before datagram st,
    CalledIn lzw_hw_streams blocksize input received before (some datagram) st → none ∈ before →
      Intact blocksize datagram

variable {lzw_hw_streams blocksize input}

/-- Behind the first failure: two states that agree in their output and their flags go on to agree,
the one with the failures and the other without. -/
theorem receiveLoop_intact {received : List (Option (List UInt8))}
    (h : Quiet lzw_hw_streams blocksize input received) {rest before : List (Option (List UInt8))}
    {st st' : EncoderState} (hreceived : received = before ++ rest) (hfailed : none ∈ before)
    (hruns : Runs lzw_hw_streams blocksize input before st) (hdone : st.done = st'.done)
    (hsame : SameOutput st.app st'.app) :
    SameOutput (receiveLoop lzw_hw_streams blocksize st rest).1.app
      (receiveLoop lzw_hw_streams blocksize st' (rest.filter Option.isSome)).1.app := by
  induction rest generalizing before st st' with
  | nil => exact hsame
  | cons r rest ih =>
      cases hmore : st.done with
      | true =>
          rw [receiveLoop_of_done _ hmore, receiveLoop_of_done _ (hdone ▸ hmore)]
          exact hsame
      | false =>
          have hreceived' : received = (before ++ [r]) ++ rest := by
            rw [hreceived, List.append_assoc, List.singleton_append]
          have hcall : CalledIn lzw_hw_streams blocksize input received before r st :=
            ⟨⟨rest, hreceived'.symm⟩, hruns, hmore⟩
          have hruns' := hruns.receive r hmore
          have hfailed' : none ∈ before ++ [r] := List.mem_append_left _ hfailed
          rw [receiveLoop_of_more _ hmore]
          cases r with
          | none =>
              obtain ⟨hzero, hflag⟩ := h.failure _ _ hcall
              rw [← hruns.slot_eq] at hzero hflag
              have hnothing := (failure_adds_nothing_iff lzw_hw_streams blocksize st).2 hzero
              refine ih hreceived' hfailed' hruns' ?_ (hnothing.trans hsame)
              rw [← hdone, hmore]
              exact hflag
          | some datagram =>
              have hintact := h.intact _ _ _ hcall hfailed
              obtain ⟨hflag, happ⟩ := receive_intact lzw_hw_streams blocksize hintact st
              obtain ⟨hflag', happ'⟩ := receive_intact lzw_hw_streams blocksize hintact st'
              rw [List.filter_cons_of_pos rfl, receiveLoop_of_more _ (hdone ▸ hmore)]
              exact ih hreceived' hfailed' hruns' (hflag.trans hflag'.symm)
                (happ.trans ((hsame.runApp _ _ _).trans happ'.symm))

/-- From the start: up to the first failure the two runs are the same. -/
theorem receiveLoop_quiet {received : List (Option (List UInt8))}
    (h : Quiet lzw_hw_streams blocksize input received) {rest before : List (Option (List UInt8))}
    {st : EncoderState} (hreceived : received = before ++ rest)
    (hruns : Runs lzw_hw_streams blocksize input before st) :
    SameOutput (receiveLoop lzw_hw_streams blocksize st rest).1.app
      (receiveLoop lzw_hw_streams blocksize st (rest.filter Option.isSome)).1.app := by
  induction rest generalizing before st with
  | nil => exact SameOutput.refl _
  | cons r rest ih =>
      cases hmore : st.done with
      | true =>
          rw [receiveLoop_of_done _ hmore, receiveLoop_of_done _ hmore]
          exact SameOutput.refl _
      | false =>
          have hreceived' : received = (before ++ [r]) ++ rest := by
            rw [hreceived, List.append_assoc, List.singleton_append]
          have hruns' := hruns.receive r hmore
          rw [receiveLoop_of_more _ hmore]
          cases r with
          | none =>
              obtain ⟨hzero, hflag⟩ := h.failure _ _ ⟨⟨rest, hreceived'.symm⟩, hruns, hmore⟩
              rw [← hruns.slot_eq] at hzero hflag
              refine receiveLoop_intact h hreceived' (by simp) hruns' ?_
                ((failure_adds_nothing_iff lzw_hw_streams blocksize st).2 hzero)
              rw [hmore]
              exact hflag
          | some datagram =>
              rw [List.filter_cons_of_pos rfl, receiveLoop_of_more _ hmore]
              exact ih hreceived' hruns'

/-- A failure on any other slot makes the output longer. -/
theorem Runs.main_ne_of_failure {before : List (Option (List UInt8))} {st : EncoderState}
    (h : Runs lzw_hw_streams blocksize input before st) (hmore : st.done = false)
    (hpos : 1 ≤ packetLength (slot st)) :
    (main lzw_hw_streams blocksize input (before ++ [none])).1.app.file
      ≠ (main lzw_hw_streams blocksize input before).1.app.file := by
  have hgrows := length_file_runApp_le lzw_hw_streams (fun j => slot st (HEADER + j)) hpos st.app
  rw [← receive_none_app lzw_hw_streams blocksize] at hgrows
  have hwith := h.main_eq _ _ _ [none]
  have hwithout := h.main_eq _ _ _ []
  rw [receiveLoop_of_more _ hmore] at hwith
  rw [List.append_nil] at hwithout
  rw [hwith, hwithout]
  intro heq
  have hlength : (Encoder.receive lzw_hw_streams blocksize (resetRing st) none).app.file.length
      = st.app.file.length := congrArg List.length heq
  omega

variable (lzw_hw_streams blocksize input)

/-- In a run, every failed receive leaves the output and the state of the deduplication as they were
exactly when at every failure the header that was left in the slot has the length 0.  If its flag is
clear as well, and the datagrams behind a failure are intact, the output is the one of the run made
of the successful receives alone. -/
theorem failures_add_nothing_iff (received : List (Option (List UInt8))) :
    ((∀ before st, CalledIn lzw_hw_streams blocksize input received before none st →
        SameOutput (receive lzw_hw_streams blocksize (resetRing st) none).app st.app) ↔
      ∀ before st, CalledIn lzw_hw_streams blocksize input received before none st →
        packetLength (leftInSlot blocksize input before) = 0) ∧
    (Quiet lzw_hw_streams blocksize input received →
      SameOutput (main lzw_hw_streams blocksize input received).1.app
        (main lzw_hw_streams blocksize input (received.filter Option.isSome)).1.app) := by
  constructor
  · refine forall₃_congr fun before st hcall => ?_
    rw [← hcall.runs.slot_eq]
    exact failure_adds_nothing_iff lzw_hw_streams blocksize st
  · intro h
    have hstart : Runs lzw_hw_streams blocksize input [] (start input) := Runs.start
    have hloop := receiveLoop_quiet h (List.nil_append received).symm hstart
    rwa [← hstart.main_eq, ← hstart.main_eq, List.nil_append, List.nil_append] at hloop

end Kernel

/-- A datagram of twelve letters. -/
def letters (done : Bool) : List UInt8 := datagram 12 done (List.replicate 12 7)

theorem letters_done (st : EncoderState) (done : Bool) :
    (receive (runLzwKernel false) 8192 st (some (letters done))).done = done := by
  have hsize : (List.replicate 12 (7 : UInt8)).length ≤ 8192 := by
    rw [List.length_replicate]
    norm_num
  have hreceive := receive_datagram (runLzwKernel false) (by norm_num : 8192 ≤ 16384) st done hsize
  rw [List.length_replicate] at hreceive
  exact hreceive.1

/-- The state after `n` of them. -/
def afterLetters (n : ℕ) : EncoderState :=
  (fun st => receive (runLzwKernel false) 8192 (resetRing st) (some (letters false)))^[n]
    (start fun _ _ => 0)

theorem afterLetters_done (n : ℕ) : (afterLetters n).done = false := by
  cases n with
  | zero => rfl
  | succ n =>
      rw [afterLetters, Function.iterate_succ_apply']
      exact letters_done _ false

theorem runs_afterLetters (n : ℕ) :
    Runs (runLzwKernel false) 8192 (fun _ _ => 0) (List.replicate n (some (letters false)))
      (afterLetters n) := by
  induction n with
  | zero => exact Runs.start
  | succ n ih =>
      rw [List.replicate_succ', afterLetters, Function.iterate_succ_apply']
      exact ih.receive _ (afterLetters_done n)

/-- Eight datagrams fill the ring; a failure behind them processes the first one again. -/
theorem failure_repeats_packet :
    (main (runLzwKernel false) 8192 (fun _ _ => 0)
        (List.replicate 8 (some (letters false)) ++ [none])).1.app.file
      ≠ (main (runLzwKernel false) 8192 (fun _ _ => 0)
        (List.replicate 8 (some (letters false)))).1.app.file := by
  have hpos : 1 ≤ packetLength (slot (afterLetters 8)) := by decide +kernel
  exact (runs_afterLetters 8).main_ne_of_failure (afterLetters_done 8) hpos

theorem quiet_letters :
    Quiet (runLzwKernel false) 8192 (fun _ _ => 0) [none, some (letters true)] := by
  constructor
  · intro before st hcall
    have hnil : before = [] := by
      cases before with
      | nil => rfl
      | cons r before =>
          have hprefix := (List.cons_prefix_cons.1 hcall.prefix_eq).2
          have hmem := hprefix.subset (List.mem_append_right before (List.mem_singleton_self none))
          simp at hmem
    subst hnil
    decide
  · intro before d st hcall _
    have hmem := hcall.prefix_eq.subset
      (List.mem_append_right before (List.mem_singleton_self (some d)))
    obtain rfl : d = letters true := by simpa using hmem
    have hlength : packetLength (datagramBytes (letters true)) = 12 := by decide
    refine ⟨by decide, by rw [hlength]; decide, by rw [hlength]; norm_num, Or.inr ?_⟩
    rw [hlength]
    exact ⟨le_rfl, fun e _ hroom => by omega⟩

/-- A failed first receive adds nothing, and the letters behind it are encoded as without it. -/
theorem failures_add_nothing_letters :
    SameOutput
        (receive (runLzwKernel false) 8192 (resetRing (start fun _ _ => 0)) none).app
        (start fun _ _ => 0).app ∧
      SameOutput
        (main (runLzwKernel false) 8192 (fun _ _ => 0) [none, some (letters true)]).1.app
        (main (runLzwKernel false) 8192 (fun _ _ => 0) [some (letters true)]).1.app := by
  have hfailures := failures_add_nothing_iff (runLzwKernel false) 8192 (fun _ _ => 0)
    [none, some (letters true)]
  constructor
  · exact hfailures.1.2 (fun before st hcall => (quiet_letters.failure before st hcall).1) [] _
      ⟨⟨[some (letters true)], rfl⟩, Runs.start, rfl⟩
  · exact hfailures.2 quiet_letters

end Encoder

end DedupLzw
