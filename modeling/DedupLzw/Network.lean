/-
**Client and encoder over a network.**

The client sends datagrams with no numbers in them, and nothing comes back.  On the way a datagram
may be lost, may arrive twice, and may overtake another one.  The encoder processes what arrives, in
the order of arrival, and stops with the datagram that has the flag.

Two networks are compared.  The one of UDP may do all this: then whatever the encoder has processed
are blocks of the file, complete and unchanged, and the encoder does not stop before the client has
sent everything; but which blocks they are, and in which order, is left to the network.  On a
network that keeps the datagrams and their order, whenever sender and receiver take their turns, the
encoder is through when and only when it has the file.

The block sizes of the two programs are independent of each other.  The encoder's must not be
smaller.

Main definitions:

* `DedupLzw.Network.NetState` — the client, the datagrams on the way, and the encoder;
* `DedupLzw.Network.Step`, `FifoStep` — a step of either network;
* `DedupLzw.Network.Safe`, `InOrder` — what holds in all states.

Main results:

* `DedupLzw.Network.Safe.step`, `InOrder.step` — one step;
* `DedupLzw.Network.reachable_safe` — **what the encoder has processed, on any network**;
* `DedupLzw.Network.fifo_delivers` — **the file arrives on a network that keeps the order**.
-/

import DedupLzw.Delivery
import DedupLzw.Failures

set_option relaxedAutoImplicit false
set_option autoImplicit false

namespace DedupLzw

namespace Network

open App Cdc Client Encoder Delivery

/-! ### The states -/

/-- The datagrams that the client has yet to send, those on the way, those that have arrived, and
the encoder. -/
structure NetState where
  toSend : List (List UInt8)
  inFlight : List (List UInt8)
  arrived : List (List UInt8)
  encoder : EncoderState

/-- Before the first datagram. -/
def NetState.start (sent : List (List UInt8)) (input : ℕ → Buffer) : NetState where
  toSend := sent
  inFlight := []
  arrived := []
  encoder := Encoder.start input

section Kernel

variable (lzw_hw_streams : List UInt8 → ℕ → List UInt8) (blocksize : ℕ)

/-- A step of a network that loses, repeats and reorders datagrams; the encoder has this
`blocksize`. -/
inductive Step : NetState → NetState → Prop
  /-- The client sends its next datagram. -/
  | send (d : List UInt8) (toSend inFlight arrived : List (List UInt8)) (encoder : EncoderState) :
      Step ⟨d :: toSend, inFlight, arrived, encoder⟩ ⟨toSend, inFlight ++ [d], arrived, encoder⟩
  /-- A datagram is lost. -/
  | lose (d : List UInt8) (toSend before after arrived : List (List UInt8))
      (encoder : EncoderState) :
      Step ⟨toSend, before ++ d :: after, arrived, encoder⟩
        ⟨toSend, before ++ after, arrived, encoder⟩
  /-- A datagram is repeated. -/
  | copy (d : List UInt8) (toSend before after arrived : List (List UInt8))
      (encoder : EncoderState) :
      Step ⟨toSend, before ++ d :: after, arrived, encoder⟩
        ⟨toSend, before ++ d :: d :: after, arrived, encoder⟩
  /-- Any datagram on the way arrives, while the encoder waits for one. -/
  | deliver (d : List UInt8) (toSend before after arrived : List (List UInt8))
      (encoder : EncoderState) : encoder.done = false →
      Step ⟨toSend, before ++ d :: after, arrived, encoder⟩
        ⟨toSend, before ++ after, arrived ++ [d],
          receive lzw_hw_streams blocksize (resetRing encoder) (some d)⟩

/-- A step of a network that keeps the datagrams and their order. -/
inductive FifoStep : NetState → NetState → Prop
  /-- The client sends its next datagram. -/
  | send (d : List UInt8) (toSend inFlight arrived : List (List UInt8)) (encoder : EncoderState) :
      FifoStep ⟨d :: toSend, inFlight, arrived, encoder⟩
        ⟨toSend, inFlight ++ [d], arrived, encoder⟩
  /-- The first datagram on the way arrives. -/
  | deliver (d : List UInt8) (toSend inFlight arrived : List (List UInt8))
      (encoder : EncoderState) : encoder.done = false →
      FifoStep ⟨toSend, d :: inFlight, arrived, encoder⟩
        ⟨toSend, inFlight, arrived ++ [d],
          receive lzw_hw_streams blocksize (resetRing encoder) (some d)⟩

variable {lzw_hw_streams blocksize}

/-- The second network does nothing that the first could not do. -/
theorem FifoStep.step {s s' : NetState} (h : FifoStep lzw_hw_streams blocksize s s') :
    Step lzw_hw_streams blocksize s s' := by
  cases h with
  | send d toSend inFlight arrived encoder => exact .send d toSend inFlight arrived encoder
  | deliver d toSend inFlight arrived encoder hmore =>
      exact .deliver d toSend [] inFlight arrived encoder hmore

/-! ### One datagram -/

/-- A datagram with a complete payload, for which there is room. -/
def Framed (blocksize : ℕ) (d : List UInt8) : Prop :=
  ∃ done payload, payload.length ≤ blocksize ∧ d = datagram payload.length done payload

/-- What the encoder makes of such a datagram. -/
theorem Framed.receive {d : List UInt8} (h : Framed blocksize d) (hblock : blocksize ≤ 16384)
    (st : EncoderState) :
    (Encoder.receive lzw_hw_streams blocksize (resetRing st) (some d)).done = flagged d ∧
      payloads (Encoder.receive lzw_hw_streams blocksize (resetRing st) (some d))
        = payloads st ++ [d.drop HEADER] := by
  obtain ⟨done, payload, hsize, rfl⟩ := h
  obtain ⟨hdone, hpayloads⟩ :=
    receive_datagram lzw_hw_streams hblock (resetRing st) done hsize
  have hreset : payloads (resetRing st) = payloads st := by
    rw [payloads, resetRing_packets, payloads]
  refine ⟨?_, ?_⟩
  · rw [hdone, flagged_datagram (by omega)]
  · rw [hpayloads, hreset]
    rfl

/-! ### Any network -/

/-- What holds in all states: the encoder is in the state of a run over what has arrived, and has
processed the payloads; nothing is on the way that was not sent; and the flag has arrived if and
only if the encoder is through. -/
structure Safe (lzw_hw_streams : List UInt8 → ℕ → List UInt8) (blocksize : ℕ)
    (input : ℕ → Buffer) (sent : List (List UInt8)) (s : NetState) : Prop where
  runs : Runs lzw_hw_streams blocksize input (s.arrived.map some) s.encoder
  payloads : payloads s.encoder = s.arrived.map (List.drop HEADER)
  sent : ∃ gone, sent = gone ++ s.toSend ∧ ∀ d ∈ s.inFlight ++ s.arrived, d ∈ gone
  done : s.encoder.done = true ↔ ∃ d ∈ s.arrived, flagged d = true
  waits : ∀ d ∈ s.arrived.dropLast, flagged d = false

variable {input : ℕ → Buffer} {sent : List (List UInt8)}

theorem safe_start : Safe lzw_hw_streams blocksize input sent (NetState.start sent input) where
  runs := .start
  payloads := rfl
  sent := ⟨[], rfl, by simp [NetState.start]⟩
  done := by simp [NetState.start, Encoder.start]
  waits := by simp [NetState.start]

/-- A datagram arrives. -/
theorem Safe.deliver {toSend before after arrived : List (List UInt8)} {encoder : EncoderState}
    {d : List UInt8}
    (h : Safe lzw_hw_streams blocksize input sent ⟨toSend, before ++ d :: after, arrived, encoder⟩)
    (hframed : ∀ d ∈ sent, Framed blocksize d) (hblock : blocksize ≤ 16384)
    (hmore : encoder.done = false) :
    Safe lzw_hw_streams blocksize input sent
      ⟨toSend, before ++ after, arrived ++ [d],
        receive lzw_hw_streams blocksize (resetRing encoder) (some d)⟩ := by
  obtain ⟨gone, hsent, hgone⟩ := h.sent
  have hd : d ∈ gone := hgone d (by simp)
  obtain ⟨hdone, hpayloads⟩ :=
    (hframed d (hsent ▸ List.mem_append_left _ hd)).receive hblock encoder
  have hquiet : ∀ d' ∈ arrived, flagged d' = false := by
    intro d' hd'
    by_contra hflag
    have hthrough := h.done.2 ⟨d', hd', by simpa using hflag⟩
    exact Bool.false_ne_true (hmore.symm.trans hthrough)
  refine ⟨?_, ?_, ⟨gone, hsent, ?_⟩, ?_, ?_⟩
  · rw [List.map_append, List.map_singleton]
    exact h.runs.receive (some d) hmore
  · rw [hpayloads, h.payloads, List.map_append, List.map_singleton]
  · intro d' hd'
    rw [← List.append_assoc, List.mem_append, List.mem_singleton] at hd'
    rcases hd' with hd' | rfl
    · refine hgone d' ?_
      simp only [List.mem_append, List.mem_cons] at hd' ⊢
      tauto
    · exact hd
  · rw [hdone]
    constructor
    · exact fun hflag => ⟨d, by simp, hflag⟩
    · rintro ⟨d', hd', hflag⟩
      rcases List.mem_append.1 hd' with hd' | hd'
      · exact absurd hflag (by simp [hquiet d' hd'])
      · rwa [← List.mem_singleton.1 hd']
  · rw [List.dropLast_concat]
    exact hquiet

/-- One step. -/
theorem Safe.step {s s' : NetState} (h : Safe lzw_hw_streams blocksize input sent s)
    (hframed : ∀ d ∈ sent, Framed blocksize d) (hblock : blocksize ≤ 16384)
    (hstep : Step lzw_hw_streams blocksize s s') : Safe lzw_hw_streams blocksize input sent s' := by
  cases hstep with
  | send d toSend inFlight arrived encoder =>
      obtain ⟨gone, hsent, hgone⟩ := h.sent
      refine ⟨h.runs, h.payloads, ⟨gone ++ [d], ?_, ?_⟩, h.done, h.waits⟩
      · rw [hsent, List.append_assoc]
        rfl
      · intro d' hd'
        simp only [List.mem_append, List.mem_singleton] at hd' hgone ⊢
        rcases hd' with (hd' | rfl) | hd'
        · exact Or.inl (hgone d' (Or.inl hd'))
        · exact Or.inr rfl
        · exact Or.inl (hgone d' (Or.inr hd'))
  | lose d toSend before after arrived encoder =>
      obtain ⟨gone, hsent, hgone⟩ := h.sent
      refine ⟨h.runs, h.payloads, ⟨gone, hsent, fun d' hd' => hgone d' ?_⟩, h.done, h.waits⟩
      simp only [List.mem_append, List.mem_cons] at hd' ⊢
      tauto
  | copy d toSend before after arrived encoder =>
      obtain ⟨gone, hsent, hgone⟩ := h.sent
      refine ⟨h.runs, h.payloads, ⟨gone, hsent, fun d' hd' => hgone d' ?_⟩, h.done, h.waits⟩
      simp only [List.mem_append, List.mem_cons] at hd' ⊢
      tauto
  | deliver d toSend before after arrived encoder hmore =>
      exact h.deliver hframed hblock hmore

/-- The states of all runs. -/
theorem safe_of_reachable {s : NetState} (hframed : ∀ d ∈ sent, Framed blocksize d)
    (hblock : blocksize ≤ 16384)
    (hreach : Relation.ReflTransGen (Step lzw_hw_streams blocksize) (NetState.start sent input) s) :
    Safe lzw_hw_streams blocksize input sent s := by
  induction hreach with
  | refl => exact safe_start
  | tail _ hstep ih => exact ih.step hframed hblock hstep

/-- The encoder is not through before the client is. -/
theorem Safe.toSend_eq_nil {s : NetState} (h : Safe lzw_hw_streams blocksize input sent s)
    (hflag : OnlyLastFlagged sent) (hdone : s.encoder.done = true) : s.toSend = [] := by
  obtain ⟨front, last, hsent, _, hfront⟩ := hflag
  obtain ⟨gone, hgone, harrived⟩ := h.sent
  obtain ⟨d, hd, hflagged⟩ := h.done.1 hdone
  by_contra hne
  -- then all that has been sent is in front of the last datagram
  obtain ⟨toSend, d', htoSend⟩ : ∃ l a, s.toSend = l ++ [a] :=
    ⟨_, _, (List.dropLast_append_getLast hne).symm⟩
  rw [hsent, htoSend, ← List.append_assoc] at hgone
  have hfrontEq := (List.append_inj' hgone rfl).1
  have hmem : d ∈ front := by
    rw [hfrontEq]
    exact List.mem_append_left _ (harrived d (List.mem_append_right _ hd))
  exact absurd hflagged (by simp [hfront d hmem])

/-! ### What the client sends -/

section Client

variable {clientsize : ℕ} {file : List UInt8}

/-- The client sends a file with a full block whose size fits into an `int`. -/
theorem client_main (hfile : file.length < 2 ^ 31) (beyond : Buffer) :
    Client.main clientsize file beyond
      = sendFile clientsize (buff file file.length beyond) file.length := by
  rcases file_size_cases file with ⟨_, hlarge⟩ | ⟨hsize, _⟩ | ⟨_, hlarge⟩
  · omega
  · have hpos : ¬ file_size file < 0 := by omega
    rw [Client.main, if_neg hpos, hsize, Int.toNat_natCast, min_self]
  · omega

/-- A block of the file. -/
theorem memcpy_buff {s n : ℕ} (h : s + n ≤ file.length) (beyond : Buffer) :
    memcpy (buff file file.length beyond) (s, n) = (file.drop s).take n := by
  refine List.ext_getElem ?_ fun i h₁ h₂ => ?_
  · rw [length_memcpy, List.length_take, List.length_drop]
    omega
  · rw [length_memcpy] at h₁
    have hlt : s + i < s + n := by omega
    have hget : (memcpy (buff file file.length beyond) (s, n))[i]? = some file[s + i] := by
      rw [memcpy, getElem?_slice hlt, buff, if_pos (by omega), List.getD_eq_getElem?_getD,
        List.getElem?_eq_getElem (by omega), Option.getD_some]
    rw [List.getElem_take, List.getElem_drop]
    exact Option.some_inj.1 ((List.getElem?_eq_getElem _).symm.trans hget)

/-- The blocks of a file are not empty. -/
theorem blocks_pos (hpos : 1 ≤ clientsize) (n : ℕ) :
    ∀ block ∈ blocks clientsize n, 1 ≤ block.2 := by
  intro block hblock
  rw [blocks, List.mem_append, List.mem_append] at hblock
  rcases hblock with (hfront | hlast) | hrest
  · obtain ⟨k, _, rfl⟩ := List.mem_map.1 hfront
    exact hpos
  · rw [List.mem_singleton.1 hlast]
    exact hpos
  · split at hrest
    · simp at hrest
    · rw [List.mem_singleton.1 hrest]
      exact Nat.one_le_iff_ne_zero.2 ‹_›

/-- The blocks start at the multiples of the block size, and only the end of the file cuts one
short. -/
theorem mem_blocks (hpos : 1 ≤ clientsize) (hfull : clientsize ≤ file.length) (beyond : Buffer) :
    ∀ block ∈ blocks clientsize file.length, ∃ k, k * clientsize < file.length ∧
      memcpy (buff file file.length beyond) block
        = (file.drop (k * clientsize)).take clientsize := by
  intro block hblock
  have hinside := blocks_inside hpos hfull block hblock
  have hblockPos := blocks_pos hpos file.length block hblock
  have hcopy : memcpy (buff file file.length beyond) block = (file.drop block.1).take block.2 :=
    memcpy_buff hinside beyond
  rw [hcopy]
  have hdiv : file.length / clientsize * clientsize + file.length % clientsize = file.length :=
    Nat.div_add_mod' file.length clientsize
  rw [blocks, List.mem_append, List.mem_append] at hblock
  rcases hblock with (hfront | hlast) | hrest
  · obtain ⟨k, _, rfl⟩ := List.mem_map.1 hfront
    exact ⟨k, by omega, rfl⟩
  · rw [List.mem_singleton.1 hlast] at hinside ⊢
    exact ⟨_, by omega, rfl⟩
  · split at hrest
    · simp at hrest
    · rw [List.mem_singleton.1 hrest] at hinside hblockPos ⊢
      have hmod := Nat.mod_lt file.length hpos
      refine ⟨file.length / clientsize, by omega, ?_⟩
      rw [List.take_of_length_le, List.take_of_length_le]
      all_goals rw [List.length_drop]; omega

/-- The datagrams of a file, and the file in them. -/
theorem client_sent (hpos : 1 ≤ clientsize) (hclient : clientsize ≤ 16384)
    (hfile : file.length < 2 ^ 31) (beyond : Buffer) :
    (∀ d ∈ (Client.main clientsize file beyond).sent, Framed clientsize d) ∧
      OnlyLastFlagged (Client.main clientsize file beyond).sent ∧
      (Client.main clientsize file beyond).sent.map (List.drop HEADER)
        = (blocks clientsize file.length).map (memcpy (buff file file.length beyond)) := by
  obtain ⟨front, last, hblocks, _, hsent⟩ :=
    sendFile_eq clientsize (buff file file.length beyond) file.length
  have hframed : ∀ block ∈ blocks clientsize file.length, ∀ done,
      Framed clientsize (datagram block.2 done (memcpy (buff file file.length beyond) block)) := by
    intro block hblock done
    refine ⟨done, memcpy (buff file file.length beyond) block, ?_, ?_⟩
    · rw [length_memcpy]
      exact blocks_le hpos block hblock
    · rw [length_memcpy]
  rw [client_main hfile]
  refine ⟨fun d hd => ?_, ?_, ?_⟩
  · rw [hsent, List.mem_append, List.mem_map, List.mem_singleton] at hd
    rcases hd with ⟨block, hblock, rfl⟩ | rfl
    · exact hframed block (hblocks ▸ List.mem_append_left _ hblock) false
    · exact hframed last (hblocks ▸ by simp) true
  · exact (sendFile_received (fun _ _ => []) hpos hclient _ _ fun _ _ => 0).2.1
  · rw [hsent, hblocks, List.map_append, List.map_append, List.map_map]
    rfl

theorem Framed.mono {d : List UInt8} (h : Framed clientsize d) (hle : clientsize ≤ blocksize) :
    Framed blocksize d := by
  obtain ⟨done, payload, hsize, rfl⟩ := h
  exact ⟨done, payload, hsize.trans hle, rfl⟩

/-- What has been processed are blocks of the file. -/
theorem Safe.mem_payloads (hpos : 1 ≤ clientsize) (hclient : clientsize ≤ 16384)
    (hfull : clientsize ≤ file.length) (hfile : file.length < 2 ^ 31) {beyond : Buffer}
    {s : NetState}
    (h : Safe lzw_hw_streams blocksize input (Client.main clientsize file beyond).sent s) :
    ∀ payload ∈ Encoder.payloads s.encoder, ∃ k, k * clientsize < file.length ∧
      payload = (file.drop (k * clientsize)).take clientsize := by
  intro payload hp
  rw [h.payloads] at hp
  obtain ⟨d, hd, rfl⟩ := List.mem_map.1 hp
  obtain ⟨gone, hgone, harrived⟩ := h.sent
  have hmem : d ∈ (Client.main clientsize file beyond).sent :=
    hgone ▸ List.mem_append_left _ (harrived d (List.mem_append_right _ hd))
  have hdrop := List.mem_map_of_mem (f := List.drop HEADER) hmem
  rw [(client_sent hpos hclient hfile beyond).2.2] at hdrop
  obtain ⟨block, hblock, hcopy⟩ := List.mem_map.1 hdrop
  obtain ⟨k, hk, hpayload⟩ := mem_blocks hpos hfull beyond block hblock
  exact ⟨k, hk, hcopy.symm.trans hpayload⟩

/-- The output is that of the application on the packets. -/
theorem Safe.app_eq {s : NetState} (h : Safe lzw_hw_streams blocksize input sent s) :
    s.encoder.app = runPackets lzw_hw_streams s.encoder.packets := by
  have hmain := h.runs.main_eq lzw_hw_streams blocksize input []
  have happ : (Encoder.main lzw_hw_streams blocksize input (s.arrived.map some)).1.app
      = runPackets lzw_hw_streams
          (Encoder.main lzw_hw_streams blocksize input (s.arrived.map some)).1.packets :=
    main_app lzw_hw_streams input _
  rw [List.append_nil] at hmain
  rwa [hmain] at happ

/-- On any network, in all states: the packets of the encoder are the payloads of what has arrived,
in this order, each of them a block of the file; the encoder stops with the first datagram that has
the flag, and not before the client has sent everything; and its output is that of the application
on these packets. -/
theorem reachable_safe (hpos : 1 ≤ clientsize) (hclient : clientsize ≤ blocksize)
    (hblock : blocksize ≤ 16384) (hfull : clientsize ≤ file.length) (hfile : file.length < 2 ^ 31)
    (beyond : Buffer) {s : NetState}
    (hreach : Relation.ReflTransGen (Step lzw_hw_streams blocksize)
      (NetState.start (Client.main clientsize file beyond).sent input) s) :
    payloads s.encoder = s.arrived.map (List.drop HEADER) ∧
      (∀ payload ∈ payloads s.encoder, ∃ k, k * clientsize < file.length ∧
        payload = (file.drop (k * clientsize)).take clientsize) ∧
      (s.encoder.done = true ↔ ∃ d ∈ s.arrived, flagged d = true) ∧
      (∀ d ∈ s.arrived.dropLast, flagged d = false) ∧
      (s.encoder.done = true → s.toSend = []) ∧
      s.encoder.app = runPackets lzw_hw_streams s.encoder.packets := by
  have hle := hclient.trans hblock
  obtain ⟨hframed, hflag, _⟩ := client_sent hpos hle hfile beyond
  have hsafe := safe_of_reachable (fun d hd => (hframed d hd).mono hclient) hblock hreach
  exact ⟨hsafe.payloads, hsafe.mem_payloads hpos hle hfull hfile, hsafe.done, hsafe.waits,
    hsafe.toSend_eq_nil hflag, hsafe.app_eq⟩

/-- The second of two datagrams overtakes the first: the encoder is through with one byte. -/
theorem reachable_safe_overtaken :
    let encoder := receive (runLzwKernel false) 2 (resetRing (start fun _ _ => 0))
      (some [1, 128, 3])
    payloads encoder = [[3]] ∧
      (∀ payload ∈ payloads encoder, ∃ k, k * 2 < [(1 : UInt8), 2, 3].length ∧
        payload = ([(1 : UInt8), 2, 3].drop (k * 2)).take 2) ∧
      (encoder.done = true ↔ ∃ d ∈ [[(1 : UInt8), 128, 3]], flagged d = true) ∧
      (∀ d ∈ [[(1 : UInt8), 128, 3]].dropLast, flagged d = false) ∧
      (encoder.done = true → ([] : List (List UInt8)) = []) ∧
      encoder.app = runPackets (runLzwKernel false) encoder.packets := by
  have hsent : (Client.main 2 [1, 2, 3] fun _ => 0).sent = [[2, 0, 1, 2], [1, 128, 3]] := by decide
  have hreach : Relation.ReflTransGen (Step (runLzwKernel false) 2)
      (NetState.start (Client.main 2 [1, 2, 3] fun _ => 0).sent fun _ _ => 0)
      ⟨[], [[2, 0, 1, 2]], [[1, 128, 3]],
        receive (runLzwKernel false) 2 (resetRing (start fun _ _ => 0)) (some [1, 128, 3])⟩ := by
    rw [hsent]
    refine .tail (.tail (.tail .refl (.send _ _ _ _ _)) (.send _ _ _ _ _)) ?_
    exact .deliver [1, 128, 3] [] [[2, 0, 1, 2]] [] [] (start fun _ _ => 0) rfl
  exact reachable_safe (by decide) (by decide) (by decide) (by decide) (by decide) (fun _ => 0)
    hreach

/-! ### Block sizes -/

/-- With a block size that is not smaller, the encoder receives the blocks. -/
theorem payloads_of_le (hpos : 1 ≤ clientsize) (hclient : clientsize ≤ blocksize)
    (hblock : blocksize ≤ 16384) (hfile : file.length < 2 ^ 31) (beyond : Buffer) :
    payloads (Encoder.main lzw_hw_streams blocksize input
        ((Client.main clientsize file beyond).sent.map some)).1
      = (blocks clientsize file.length).map (memcpy (buff file file.length beyond)) := by
  obtain ⟨front, last, hblocks, _, hsent⟩ :=
    sendFile_eq clientsize (buff file file.length beyond) file.length
  have hle : ∀ block ∈ blocks clientsize file.length,
      (memcpy (buff file file.length beyond) block).length ≤ blocksize := by
    intro block hmem
    rw [length_memcpy]
    exact (blocks_le hpos block hmem).trans hclient
  have hfront : ∀ payload ∈ front.map (memcpy (buff file file.length beyond)),
      payload.length ≤ blocksize := by
    intro payload hmem
    obtain ⟨block, hfrontMem, rfl⟩ := List.mem_map.1 hmem
    exact hle block (hblocks ▸ List.mem_append_left _ hfrontMem)
  obtain ⟨st, hrun, _, hall⟩ :=
    main_datagrams lzw_hw_streams hblock hfront (hle last (hblocks ▸ by simp)) input
  have harrived : (Client.main clientsize file beyond).sent.map some
      = ((front.map (memcpy (buff file file.length beyond))).map fun payload =>
          some (datagram payload.length false payload)) ++
        [some (datagram (memcpy (buff file file.length beyond) last).length true
          (memcpy (buff file file.length beyond) last))] := by
    rw [client_main hfile, hsent, List.map_append, List.map_map, List.map_map]
    simp only [length_memcpy, Function.comp_def, List.map_singleton]
  rw [harrived, hrun, hall, hblocks, List.map_append, List.map_singleton]

/-- The first datagram. -/
theorem sent_head (hfull : clientsize ≤ file.length) (hfile : file.length < 2 ^ 31)
    (beyond : Buffer) :
    ∃ done rest, (Client.main clientsize file beyond).sent
      = datagram clientsize done (file.take clientsize) :: rest := by
  obtain ⟨front, last, hblocks, _, hsent⟩ :=
    sendFile_eq clientsize (buff file file.length beyond) file.length
  have hhead : (blocks clientsize file.length).head? = some (0, clientsize) := by
    rw [blocks, fullBlocks]
    cases file.length / clientsize - 1 with
    | zero => simp
    | succ k => simp [List.range_succ_eq_map]
  have hcopy : memcpy (buff file file.length beyond) (0, clientsize) = file.take clientsize := by
    rw [memcpy_buff (by omega), List.drop_zero]
  rw [client_main hfile, hsent]
  cases front with
  | nil =>
      rw [hblocks, List.nil_append, List.head?_cons, Option.some_inj] at hhead
      exact ⟨true, [], by rw [hhead, hcopy]; rfl⟩
  | cons block front =>
      rw [hblocks, List.cons_append, List.head?_cons, Option.some_inj] at hhead
      exact ⟨false, _, by rw [hhead, List.map_cons, hcopy, List.cons_append]⟩

/-- The encoder keeps the packets it has. -/
theorem payloads_receiveLoop (lzw_hw_streams : List UInt8 → ℕ → List UInt8) (blocksize : ℕ)
    (st : EncoderState) (received : List (Option (List UInt8))) :
    payloads st <+: payloads (receiveLoop lzw_hw_streams blocksize st received).1 := by
  induction received generalizing st with
  | nil => exact List.prefix_refl _
  | cons d received ih =>
      cases hdone : st.done with
      | true => rw [receiveLoop_of_done _ hdone]
      | false =>
          rw [receiveLoop_of_more _ hdone]
          refine List.IsPrefix.trans ?_ (ih _)
          rw [payloads, payloads, receive, resetRing_packets, List.map_append]
          exact List.prefix_append _ _

/-- What the encoder has received begins with its first packet. -/
theorem first_packet (lzw_hw_streams : List UInt8 → ℕ → List UInt8) (blocksize : ℕ)
    (input : ℕ → Buffer) {received : Option (List UInt8)} {slot : Buffer}
    (hslot : slot = get_packet blocksize (input pipe_depth) received)
    (rest : List (Option (List UInt8))) :
    slice (fun j => slot (HEADER + j)) 0 (packetLength slot)
      <+: (payloads (Encoder.main lzw_hw_streams blocksize input
        (received :: rest)).1).flatten := by
  subst hslot
  have hfirst : (payloads (receive lzw_hw_streams blocksize (start input) received)).flatten
      = slice (fun j => get_packet blocksize (input pipe_depth) received (HEADER + j)) 0
          (packetLength (get_packet blocksize (input pipe_depth) received)) := List.append_nil _
  obtain ⟨more, hmore⟩ := payloads_receiveLoop lzw_hw_streams blocksize
    (receive lzw_hw_streams blocksize (start input) received) rest
  rw [Encoder.main, ← hmore, List.flatten_append, hfirst]
  exact List.prefix_append _ _

/-- A file with a full block reaches the encoder, whatever its slots hold at first, exactly when its
block size is at least that of the client. -/
theorem delivered_any_slots_iff (lzw_hw_streams : List UInt8 → ℕ → List UInt8)
    (hpos : 1 ≤ clientsize) (hclient : clientsize ≤ 16384) (hblock : blocksize ≤ 16384)
    (hfull : clientsize ≤ file.length) (hfile : file.length < 2 ^ 31) (beyond : Buffer) :
    (∀ input, (payloads (Encoder.main lzw_hw_streams blocksize input
        ((Client.main clientsize file beyond).sent.map some)).1).flatten = file) ↔
      clientsize ≤ blocksize := by
  constructor
  · intro hall
    by_contra hsmall
    have hlt : blocksize < file.length := by omega
    -- a slot that holds another byte where the datagram is cut off
    obtain ⟨done, rest, hsent⟩ := sent_head hfull hfile beyond
    obtain ⟨d, hd⟩ : ∃ d, d = datagram clientsize done (file.take clientsize) := ⟨_, rfl⟩
    have hdlen : d.length = clientsize + 2 := by
      rw [hd]
      simp [datagram]
      omega
    obtain ⟨slot, hslot⟩ : ∃ slot, slot = get_packet blocksize (fun _ => file[blocksize] + 1)
      (some d) := ⟨_, rfl⟩
    have hheader : ∀ j < 2, slot j = d.getD j 0 := by
      intro j hj
      rw [hslot]
      exact if_pos (by rw [HEADER]; omega)
    have hsize : packetLength slot = clientsize :=
      (packetLength_datagram (by omega) done _ (hd ▸ hheader)).1
    have hstale : slot (HEADER + blocksize) = file[blocksize] + 1 := by
      rw [hslot]
      exact if_neg (by rw [HEADER]; omega)
    -- it stands in the first packet
    have hfirst := first_packet lzw_hw_streams blocksize (fun _ _ => file[blocksize] + 1) hslot
      (rest.map some)
    have hbytes := hall fun _ _ => file[blocksize] + 1
    rw [hsent, List.map_cons, ← hd] at hbytes
    rw [hsize, hbytes] at hfirst
    have hbyte := hfirst.getElem (i := blocksize) (by rw [length_slice]; omega)
    have hget : (slice (fun j => slot (HEADER + j)) 0 clientsize)[blocksize]?
        = some (slot (HEADER + blocksize)) := by
      rw [getElem?_slice (by omega), Nat.zero_add]
    rw [List.getElem?_eq_getElem (by rw [length_slice]; omega), Option.some_inj, hbyte, hstale]
      at hget
    exact absurd hget (by simp)
  · intro hle input
    rw [payloads_of_le hpos hle hblock hfile, flatten_blocks _ hpos hfull, slice_buff rfl]

/-- Blocks of two bytes are lost on an encoder with room for one. -/
theorem delivered_any_slots_two_bytes :
    ¬ ∀ input, (payloads (Encoder.main (runLzwKernel false) 1 input
      ((Client.main 2 [1, 2, 3] fun _ => 0).sent.map some)).1).flatten = [1, 2, 3] := by
  have hfull : 2 ≤ ([1, 2, 3] : List UInt8).length := by decide
  have hiff := delivered_any_slots_iff (runLzwKernel false) (by decide) (by decide)
    (by decide : 1 ≤ 16384) hfull (by decide) fun _ => 0
  exact fun hall => absurd (hiff.1 hall) (by decide)

/-! ### A network that keeps the order -/

/-- What holds in all states: nothing is lost, and nothing is out of order. -/
structure InOrder (lzw_hw_streams : List UInt8 → ℕ → List UInt8) (blocksize : ℕ)
    (input : ℕ → Buffer) (sent : List (List UInt8)) (s : NetState) : Prop where
  safe : Safe lzw_hw_streams blocksize input sent s
  order : sent = s.arrived ++ s.inFlight ++ s.toSend

/-- One step. -/
theorem InOrder.step {s s' : NetState} (h : InOrder lzw_hw_streams blocksize input sent s)
    (hframed : ∀ d ∈ sent, Framed blocksize d) (hblock : blocksize ≤ 16384)
    (hstep : FifoStep lzw_hw_streams blocksize s s') :
    InOrder lzw_hw_streams blocksize input sent s' := by
  refine ⟨h.safe.step hframed hblock hstep.step, ?_⟩
  have horder := h.order
  cases hstep with
  | send d toSend inFlight arrived encoder => simpa using horder
  | deliver d toSend inFlight arrived encoder hmore => simpa using horder

theorem inOrder_of_reachable {s : NetState} (hframed : ∀ d ∈ sent, Framed blocksize d)
    (hblock : blocksize ≤ 16384)
    (hreach : Relation.ReflTransGen (FifoStep lzw_hw_streams blocksize)
      (NetState.start sent input) s) :
    InOrder lzw_hw_streams blocksize input sent s := by
  induction hreach with
  | refl => exact ⟨safe_start, by simp [NetState.start]⟩
  | tail _ hstep ih => exact ih.step hframed hblock hstep

/-- The steps left: every datagram has to be sent and to arrive. -/
def NetState.todo (s : NetState) : ℕ := 2 * s.toSend.length + s.inFlight.length

theorem FifoStep.todo_lt {s s' : NetState} (h : FifoStep lzw_hw_streams blocksize s s') :
    s'.todo < s.todo := by
  cases h with
  | send d toSend inFlight arrived encoder => simp [NetState.todo]; omega
  | deliver d toSend inFlight arrived encoder hmore => simp [NetState.todo]

/-- The encoder is through when everything has arrived. -/
theorem InOrder.done_iff {s : NetState} (h : InOrder lzw_hw_streams blocksize input sent s)
    (hflag : OnlyLastFlagged sent) : s.encoder.done = true ↔ s.arrived = sent := by
  obtain ⟨front, last, hsent, hlast, hfront⟩ := hflag
  rw [h.safe.done]
  constructor
  · rintro ⟨d, hd, hflagged⟩
    by_contra hne
    have hrest : s.inFlight ++ s.toSend ≠ [] := by
      intro hnil
      refine hne ?_
      rw [h.order, List.append_assoc, hnil, List.append_nil]
    obtain ⟨rest, d', hrestEq⟩ : ∃ l a, s.inFlight ++ s.toSend = l ++ [a] :=
      ⟨_, _, (List.dropLast_append_getLast hrest).symm⟩
    have horder := h.order
    rw [hsent, List.append_assoc, hrestEq, ← List.append_assoc] at horder
    have hmem : d ∈ front := by
      rw [(List.append_inj' horder rfl).1]
      exact List.mem_append_left _ hd
    exact absurd hflagged (by simp [hfront d hmem])
  · intro harrived
    exact ⟨last, by rw [harrived, hsent]; simp, hlast⟩

/-- A state that is not through goes on, one that is through does not. -/
theorem InOrder.progress {s : NetState} (h : InOrder lzw_hw_streams blocksize input sent s)
    (hflag : OnlyLastFlagged sent) :
    s.encoder.done = false ↔ ∃ s', FifoStep lzw_hw_streams blocksize s s' := by
  have horder := h.order
  have hdone := h.done_iff hflag
  obtain ⟨toSend, inFlight, arrived, encoder⟩ := s
  constructor
  · intro hmore
    cases inFlight with
    | cons d inFlight => exact ⟨_, .deliver d toSend inFlight arrived encoder hmore⟩
    | nil =>
        cases toSend with
        | cons d toSend => exact ⟨_, .send d toSend [] arrived encoder⟩
        | nil =>
            simp only [List.append_nil] at horder
            exact absurd (hmore.symm.trans (hdone.2 horder.symm)) Bool.false_ne_true
  · rintro ⟨s', hstep⟩
    by_contra hthrough
    have harrived := hdone.1 (by simpa using hthrough)
    simp only at harrived horder
    have hlen := congrArg List.length horder
    rw [harrived, List.length_append, List.length_append] at hlen
    cases hstep with
    | send d toSend inFlight arrived encoder => simp at hlen; omega
    | deliver d toSend inFlight arrived encoder hmore => simp at hlen; omega

/-- The file, as far as it has arrived. -/
theorem InOrder.file_eq (hpos : 1 ≤ clientsize) (hclient : clientsize ≤ 16384)
    (hfull : clientsize ≤ file.length) (hfile : file.length < 2 ^ 31) {beyond : Buffer}
    {s : NetState}
    (h : InOrder lzw_hw_streams blocksize input (Client.main clientsize file beyond).sent s) :
    file = (payloads s.encoder).flatten
      ++ ((s.inFlight ++ s.toSend).map (List.drop HEADER)).flatten := by
  rw [h.safe.payloads, ← List.flatten_append, ← List.map_append, ← List.append_assoc, ← h.order,
    (client_sent hpos hclient hfile beyond).2.2, flatten_blocks _ hpos hfull, slice_buff rfl]

/-- The encoder is through when it has the file. -/
theorem InOrder.done_iff_file (hpos : 1 ≤ clientsize) (hclient : clientsize ≤ 16384)
    (hfull : clientsize ≤ file.length) (hfile : file.length < 2 ^ 31) {beyond : Buffer}
    {s : NetState}
    (h : InOrder lzw_hw_streams blocksize input (Client.main clientsize file beyond).sent s) :
    s.encoder.done = true ↔ (payloads s.encoder).flatten = file := by
  obtain ⟨_, hflag, hsent⟩ := client_sent hpos hclient hfile beyond
  have hsplit := h.file_eq hpos hclient hfull hfile
  rw [h.done_iff hflag]
  constructor
  · intro harrived
    rw [h.safe.payloads, harrived, hsent, flatten_blocks _ hpos hfull, slice_buff rfl]
  · intro hall
    -- what has not arrived has no bytes, and so there is nothing that has not arrived
    rw [hall] at hsplit
    have hrest := List.flatten_eq_nil_iff.1 (List.append_right_eq_self.1 hsplit.symm)
    have hnone : s.inFlight ++ s.toSend = [] := by
      refine List.eq_nil_iff_forall_not_mem.2 fun d hd => ?_
      have hmem : d ∈ (Client.main clientsize file beyond).sent := by
        rw [h.order, List.append_assoc]
        exact List.mem_append_right _ hd
      have hdrop := List.mem_map_of_mem (f := List.drop HEADER) hmem
      rw [hsent] at hdrop
      obtain ⟨block, hblock, hcopy⟩ := List.mem_map.1 hdrop
      have hlen := congrArg List.length (hcopy.trans (hrest _ (List.mem_map_of_mem hd)))
      have hblockPos := blocks_pos hpos file.length block hblock
      rw [length_memcpy, List.length_nil] at hlen
      omega
    rw [h.order, List.append_assoc, hnone, List.append_nil]

/-- On a network that keeps the datagrams and their order, in all states: the encoder has processed
a beginning of the file; it is through if and only if that is the whole file; it goes on as long as
it is not through; and there is no run that does not end. -/
theorem fifo_delivers (hpos : 1 ≤ clientsize) (hclient : clientsize ≤ blocksize)
    (hblock : blocksize ≤ 16384) (hfull : clientsize ≤ file.length) (hfile : file.length < 2 ^ 31)
    (beyond : Buffer) {s : NetState}
    (hreach : Relation.ReflTransGen (FifoStep lzw_hw_streams blocksize)
      (NetState.start (Client.main clientsize file beyond).sent input) s) :
    (payloads s.encoder).flatten <+: file ∧
      (s.encoder.done = true ↔ (payloads s.encoder).flatten = file) ∧
      (s.encoder.done = false ↔ ∃ s', FifoStep lzw_hw_streams blocksize s s') ∧
      Acc (fun s' s => FifoStep lzw_hw_streams blocksize s s') s := by
  have hle := hclient.trans hblock
  obtain ⟨hframed, hflag, _⟩ := client_sent hpos hle hfile beyond
  have hin := inOrder_of_reachable (fun d hd => (hframed d hd).mono hclient) hblock hreach
  have hsplit := hin.file_eq hpos hle hfull hfile
  refine ⟨?_, hin.done_iff_file hpos hle hfull hfile, hin.progress hflag, ?_⟩
  · exact ⟨_, hsplit.symm⟩
  · exact Subrelation.accessible (fun h => FifoStep.todo_lt h)
      (InvImage.accessible NetState.todo (Nat.lt_wfRel.wf.apply _))

/-- Both datagrams of a file have arrived: the encoder has the file and takes nothing more. -/
theorem fifo_delivers_three_bytes :
    let encoder := receive (runLzwKernel false) 2 (resetRing
      (receive (runLzwKernel false) 2 (resetRing (start fun _ _ => 0)) (some [2, 0, 1, 2])))
      (some [1, 128, 3])
    (payloads encoder).flatten = [1, 2, 3] ∧
      ¬ ∃ s', FifoStep (runLzwKernel false) 2 ⟨[], [], [[2, 0, 1, 2], [1, 128, 3]], encoder⟩ s' := by
  intro encoder
  have hsent : (Client.main 2 [1, 2, 3] fun _ => 0).sent = [[2, 0, 1, 2], [1, 128, 3]] := by decide
  have hsends : Relation.ReflTransGen (FifoStep (runLzwKernel false) 2)
      (NetState.start (Client.main 2 [1, 2, 3] fun _ => 0).sent fun _ _ => 0)
      ⟨[], [[2, 0, 1, 2], [1, 128, 3]], [], start fun _ _ => 0⟩ := by
    rw [hsent]
    exact .tail (.tail .refl (.send _ _ _ _ _)) (.send _ _ _ _ _)
  have hreach := (hsends.tail (.deliver [2, 0, 1, 2] [] [[1, 128, 3]] [] _ rfl)).tail
    (.deliver [1, 128, 3] [] [] [[2, 0, 1, 2]] _ (by decide))
  obtain ⟨_, hfile, hmore, _⟩ := fifo_delivers (by decide) (by decide) (by decide) (by decide)
    (by decide) (fun _ => 0) hreach
  have hdone : encoder.done = true := by decide
  refine ⟨hfile.1 hdone, fun hstep => ?_⟩
  have hwaiting := hmore.2 hstep
  exact absurd (hdone.symm.trans hwaiting) (by decide)

end Client

end Kernel

end Network

end DedupLzw
