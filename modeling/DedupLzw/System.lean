/-
**From the client to the decoder.**

The decoder is run on the output of an encoder that has processed what arrived over a network.

What it writes is made of what comes back of the chunks, one after another; for a chunk whose digest
belongs to an earlier chunk that is what comes back of the earlier one.  As long as no two different
chunks have the same digest, and the client's blocks have at most 7936 bytes, so that all codes fit
into 13 bits, the decoder writes what has arrived if and only if this contains no zero byte and
nothing but zero bytes is copied from behind the packets.

If the blocks divide the file evenly, only full blocks are sent, and what is behind them in the
slots is never written.  If that is zero, then over a network that keeps the order the file comes
back if and only if it contains no zero byte.

Main definitions:

* `DedupLzw.Encoder.Untouched` — the ends of the slots are as they were.

Main results:

* `DedupLzw.App.decoded_by_digest` — **what the decoder writes, with or without collisions**;
* `DedupLzw.App.roundTrips_iff_of_small` — small packets;
* `DedupLzw.Network.decoder_writes_arrived_iff` — **the decoder behind any network**;
* `DedupLzw.Network.file_comes_back_iff` — **the decoder behind a network that keeps the order**.
-/

import DedupLzw.EndToEnd
import DedupLzw.Network

set_option relaxedAutoImplicit false
set_option autoImplicit false

namespace DedupLzw

namespace App

open FuelLoop Cdc Sha Lzw Decoder FirstSeen

section Kernel

variable {lzw_hw_streams : List UInt8 → ℕ → List UInt8} {st : AppState} {signed : Bool}

/-! ### Digests of several chunks -/

/-- Chunks that are not all zero come back as some strings. -/
theorem Reachable.exists_back (h : Reachable lzw_hw_streams st) (signed : Bool)
    {es : List (Entry (List UInt8))}
    (hes : ∀ c, .fresh c ∈ es → c ∈ st.chunks ∧ nonzero c ≠ []) :
    ∃ f : List UInt8 → List UInt8, ∀ c, .fresh c ∈ es → ComesBackBy signed f c := by
  have hback : ∀ c, ∃ out, .fresh c ∈ es → ComesBackBy signed (fun _ => out) c := by
    intro c
    by_cases hc : .fresh c ∈ es
    · obtain ⟨hmem, hne⟩ := hes c hc
      obtain ⟨_, hsize, hw⟩ := h.chunk_length c hmem
      obtain ⟨out, hout, hle, hfits, hshort⟩ := chunk_codec signed hsize hne hw
      exact ⟨out, fun _ => ⟨hout, hle, hfits, hshort⟩⟩
    · exact ⟨[], fun hc' => absurd hc' hc⟩
  choose f hf using hback
  exact ⟨f, fun c hc => ⟨(hf c hc).back, (hf c hc).le, (hf c hc).fits, (hf c hc).short⟩⟩

/-- What the decoder writes for a run, if no chunk that is compressed is all zero. -/
theorem Reachable.decoded_origin (h : Reachable lzw_hw_streams st)
    (hkernel : RunsLzw lzw_hw_streams signed) (hlen : digests st.chunks < 2 ^ 31)
    (hne : ∀ c, .fresh c ∈ entries SHA_new st.chunks → nonzero c ≠ []) :
    ∃ f : List UInt8 → List UInt8,
      (∀ c, .fresh c ∈ entries SHA_new st.chunks → ComesBackBy signed f c) ∧
        ∃ ms, Exits (Decoder.main st.file) ms ∧
          ms.Output = st.chunks.flatMap fun c => f (origin SHA_new st.chunks c) := by
  obtain ⟨f, hall⟩ := h.exists_back signed fun c hc =>
    ⟨mem_of_mem_fresh SHA_new (mem_fresh.2 hc), hne c hc⟩
  obtain ⟨ms, hexit, _, hout⟩ := h.exits_file hkernel hlen fun c hc => (hall c hc).back
  refine ⟨f, hall, ms, hexit, ?_⟩
  rw [hout, expand_entries_origin, List.map_map, List.flatMap_def]
  rfl

/-- The decoder ends on the file of a run if and only if every chunk that is compressed contains a
nonzero byte.  Then it writes for every chunk what comes back of the first chunk with its digest:
that chunk's nonzero bytes, if its codes fit into 13 bits, and fewer bytes if they do not. -/
theorem decoded_by_digest (h : Reachable lzw_hw_streams st)
    (hkernel : RunsLzw lzw_hw_streams signed) (hlen : digests st.chunks < 2 ^ 31) :
    ((∃ ms, Exits (Decoder.main st.file) ms) ↔
        ∀ c, .fresh c ∈ entries SHA_new st.chunks → ∃ byte ∈ c, byte ≠ 0) ∧
      ∀ ms, Exits (Decoder.main st.file) ms → ∃ f : List UInt8 → List UInt8,
        (∀ c ∈ st.chunks, ComesBackBy signed f (origin SHA_new st.chunks c)) ∧
          ms.Output = st.chunks.flatMap fun c => f (origin SHA_new st.chunks c) := by
  have hne : ∀ ms, Exits (Decoder.main st.file) ms →
      ∀ c, .fresh c ∈ entries SHA_new st.chunks → nonzero c ≠ [] :=
    fun ms hexit c hc hzero => h.not_exits_of_zeros hkernel hlen hc hzero ms hexit
  refine ⟨⟨?_, ?_⟩, fun ms hexit => ?_⟩
  · rintro ⟨ms, hexit⟩ c hc
    exact nonzero_ne_nil_iff.1 (hne ms hexit c hc)
  · intro hbytes
    obtain ⟨_, _, ms, hexit, _⟩ := h.decoded_origin hkernel hlen fun c hc =>
      nonzero_ne_nil_iff.2 (hbytes c hc)
    exact ⟨ms, hexit⟩
  · obtain ⟨f, hf, ms', hexit', hout⟩ := h.decoded_origin hkernel hlen (hne ms hexit)
    rw [hexit.unique hexit']
    exact ⟨f, fun c hc => hf _ (fresh_origin_mem SHA_new hc), hout⟩

/-! ### Small packets -/

/-- A chunk is not longer than its packet, or is one window. -/
theorem cutEnd_sub_le (b : Buffer) (length s : ℕ) : cutEnd b length s - s ≤ max 12 length := by
  rcases Nat.lt_or_ge length (s + 24) with hshort | hroom
  · rw [cutEnd_of_short hshort.le]
    omega
  · by_contra hlong
    -- the position a window before the end of the packet would have stopped it
    have hbefore := (isChunkEnd_cutEnd b length s).least (length - 12) (by omega) (by omega)
    omega

theorem chunksFit13_of_small (b : Buffer) {length : ℕ} (h : length ≤ 7936) :
    ChunksFit13 b length := by
  intro s e _ _ hend
  rw [hend.unique (isChunkEnd_cutEnd b length s)]
  have hchunk := cutEnd_sub_le b length s
  have hle := length_nonzero_le (slice b s (cutEnd b length s))
  rw [length_slice] at hle
  by_cases hne : nonzero (slice b s (cutEnd b length s)) = []
  · rw [hne]
    exact fits13_nil
  · exact fits13_of_length_le hne (by omega)

/-- Encoder and decoder are lossless on small packets if and only if these have no zero bytes and
nothing but zero bytes is copied from behind them. -/
theorem roundTrips_iff_of_small {packets : List (Buffer × ℕ)}
    (hkernel : RunsLzw lzw_hw_streams signed)
    (hpackets : ∀ packet ∈ packets, 1 ≤ packet.2 ∧ packet.2 ≤ 7936)
    (hlen : digests (runPackets lzw_hw_streams packets).chunks < 2 ^ 31)
    (hsha : CollisionFree (runPackets lzw_hw_streams packets).chunks) :
    RoundTrips lzw_hw_streams packets ↔
      (∀ packet ∈ packets, NoZero packet.1 packet.2) ∧
        ∀ packet ∈ packets, ZeroOverrun packet.1 packet.2 := by
  have hpos : ∀ packet ∈ packets, 1 ≤ packet.2 := fun packet hp => (hpackets packet hp).1
  have hfit : ∀ packet ∈ packets, ChunksFit13 packet.1 packet.2 := fun packet hp =>
    chunksFit13_of_small packet.1 (hpackets packet hp).2
  constructor
  · intro h
    have hall := conditions_of_roundTrips hkernel hpos hlen hsha (Or.inr hfit) h
    exact ⟨fun packet hp => (hall packet hp).1, fun packet hp => (hall packet hp).2.1⟩
  · rintro ⟨hnz, hzo⟩
    exact roundTrips_of hkernel hpos hlen hsha hnz hzo hfit

/-! ### The number of chunks -/

/-- A chunk for every window, and one for what is left. -/
theorem length_chunksFrom_le (b : Buffer) (length s : ℕ) :
    12 * (chunksFrom b length s).length ≤ length - s + 11 := by
  fun_induction chunksFrom b length s with
  | case1 s hlt ih =>
      have hcut := window_le_cutEnd b length s
      rw [List.length_cons]
      omega
  | case2 s _ => simp

/-- There are at most as many digests as bytes. -/
theorem digests_le_payloadBytes (lzw_hw_streams : List UInt8 → ℕ → List UInt8)
    (packets : List (Buffer × ℕ)) :
    digests (runPackets lzw_hw_streams packets).chunks ≤ (payloadBytes packets).length := by
  refine (digests_le _).trans ?_
  rw [runPackets_chunks, payloadBytes, List.length_flatMap, List.length_flatMap]
  refine List.sum_le_sum fun packet _ => ?_
  have hchunks := length_chunksFrom_le packet.1 packet.2 0
  rw [length_slice]
  omega

end Kernel

/-- Two packets of twelve letters: all their chunks have a nonzero byte. -/
theorem exists_letter_twice (lzw_hw_streams : List UInt8 → ℕ → List UInt8) {c : List UInt8}
    (hc : c ∈ (runPackets lzw_hw_streams [(fun _ => 7, 12), (fun _ => 7, 12)]).chunks) :
    ∃ byte ∈ c, byte ≠ 0 := by
  rw [runPackets_chunks] at hc
  simp only [List.flatMap_cons, List.flatMap_nil, chunksFrom_window, List.append_nil,
    List.cons_append, List.nil_append, List.mem_cons, List.not_mem_nil, or_false, or_self] at hc
  exact ⟨7, by rw [hc]; decide, by decide⟩

/-- The same packet twice: the decoder ends, and writes the first chunk for both. -/
theorem decoded_by_digest_twice :
    let st := runPackets (runLzwKernel false) [(fun _ => 7, 12), (fun _ => 7, 12)]
    ∃ ms, Exits (Decoder.main st.file) ms ∧ ∃ f : List UInt8 → List UInt8,
      (∀ c ∈ st.chunks, ComesBackBy false f (origin SHA_new st.chunks c)) ∧
        ms.Output = st.chunks.flatMap fun c => f (origin SHA_new st.chunks c) := by
  intro st
  have hlen : digests st.chunks < 2 ^ 31 :=
    lt_of_le_of_lt (digests_le_payloadBytes _ _) (by simp [payloadBytes])
  obtain ⟨hends, hwrites⟩ :=
    decoded_by_digest (reachable_runPackets _).1 (runsLzw_runLzwKernel false) hlen
  obtain ⟨ms, hexit⟩ := hends.2 fun c hc =>
    exists_letter_twice _ (mem_of_mem_fresh SHA_new (mem_fresh.2 hc))
  exact ⟨ms, hexit, hwrites ms hexit⟩

end App

namespace Encoder

open App Cdc Client

/-! ### The ends of the slots -/

/-- From the position `size` on, the slots are as they were at first, and so are the packets. -/
structure Untouched (size : ℕ) (input : ℕ → Buffer) (st : EncoderState) : Prop where
  slots : ∀ k j, size ≤ j → st.input k j = input k j
  packets : ∀ packet ∈ st.packets, ∀ j, size ≤ HEADER + j → ∃ k, packet.1 j = input k (HEADER + j)

section Kernel

variable {lzw_hw_streams : List UInt8 → ℕ → List UInt8} {blocksize size : ℕ} {input : ℕ → Buffer}

/-- One datagram. -/
theorem Untouched.receive {st : EncoderState} (h : Untouched size input st) {d : List UInt8}
    (hd : d.length ≤ size) :
    Untouched size input (receive lzw_hw_streams blocksize (resetRing st) (some d)) := by
  have hslot : ∀ j, size ≤ j →
      get_packet blocksize (slot st) (some d) j = input (resetRing st).writer j := by
    intro j hj
    have hstale : get_packet blocksize (slot st) (some d) j = slot st j := if_neg (by omega)
    rw [hstale, slot, resetRing_input, h.slots _ j hj]
  refine ⟨fun k j hj => ?_, fun packet hp j hj => ?_⟩
  · change Function.update (resetRing st).input (resetRing st).writer
      (get_packet blocksize (slot st) (some d)) k j = _
    by_cases hturn : k = (resetRing st).writer
    · rw [hturn, Function.update_self, hslot j hj]
    · rw [Function.update_of_ne hturn, resetRing_input, h.slots k j hj]
  · have hpackets : packet ∈ st.packets ++ [(fun j => get_packet blocksize (slot st) (some d)
        (HEADER + j), packetLength (get_packet blocksize (slot st) (some d)))] := by
      rw [← resetRing_packets st]
      exact hp
    rcases List.mem_append.1 hpackets with hold | hnew
    · exact h.packets packet hold j hj
    · rw [List.mem_singleton.1 hnew]
      exact ⟨_, hslot _ hj⟩

/-- A run over datagrams of at most this size. -/
theorem Runs.untouched {before : List (Option (List UInt8))} {st : EncoderState}
    (h : Runs lzw_hw_streams blocksize input before st)
    (hbefore : ∀ r ∈ before, ∃ d, r = some d ∧ d.length ≤ size) : Untouched size input st := by
  induction h with
  | start => exact ⟨fun k j _ => rfl, fun packet hp => by simp [Encoder.start] at hp⟩
  | receive received _ _ ih =>
      obtain ⟨d, rfl, hd⟩ := hbefore received (by simp)
      exact (ih fun r hr => hbefore r (List.mem_append_left _ hr)).receive hd

theorem payloadBytes_packets (st : EncoderState) :
    payloadBytes st.packets = (payloads st).flatten := by
  rw [payloadBytes, payloads, List.flatMap_def]

theorem noZero_packets_iff (st : EncoderState) :
    (∀ packet ∈ st.packets, NoZero packet.1 packet.2) ↔
      ∀ payload ∈ payloads st, ∀ byte ∈ payload, byte ≠ 0 := by
  simp only [noZero_iff, Decoder.nonzero_eq_self_iff, payloads, List.forall_mem_map]

end Kernel

end Encoder

namespace Network

open FuelLoop App Cdc Client Encoder Delivery

section Kernel

variable {lzw_hw_streams : List UInt8 → ℕ → List UInt8} {signed : Bool} {blocksize clientsize : ℕ}
  {file : List UInt8} {input : ℕ → Buffer} {beyond : Buffer} {s : NetState}

/-- The packets are not empty, and not larger than the blocks of the client. -/
theorem Safe.packets_size (hpos : 1 ≤ clientsize) (hclient : clientsize ≤ 16384)
    (hfull : clientsize ≤ file.length) (hfile : file.length < 2 ^ 31)
    (h : Safe lzw_hw_streams blocksize input (Client.main clientsize file beyond).sent s) :
    ∀ packet ∈ s.encoder.packets, 1 ≤ packet.2 ∧ packet.2 ≤ clientsize ∧
      (clientsize ∣ file.length → packet.2 = clientsize) := by
  intro packet hp
  obtain ⟨k, hk, hpayload⟩ := h.mem_payloads hpos hclient hfull hfile
    (slice packet.1 0 packet.2) (List.mem_map_of_mem hp)
  have hlen := congrArg List.length hpayload
  rw [length_slice, List.length_take, List.length_drop, Nat.sub_zero] at hlen
  refine ⟨by omega, by omega, ?_⟩
  rintro ⟨m, hm⟩
  -- a block that starts inside the file ends inside it
  have hkm : k < m := by
    rw [hm, Nat.mul_comm] at hk
    exact Nat.lt_of_mul_lt_mul_left hk
  have hend : (k + 1) * clientsize ≤ m * clientsize := Nat.mul_le_mul_right _ hkm
  rw [Nat.succ_mul, Nat.mul_comm m, ← hm] at hend
  omega

/-- Behind any network, in all states: the decoder, run on the output of the encoder, writes what
the encoder has received if and only if this contains no zero byte and the bytes copied from behind
the packets are all zero. -/
theorem decoder_writes_arrived_iff (hkernel : RunsLzw lzw_hw_streams signed)
    (hpos : 1 ≤ clientsize) (hsmall : clientsize ≤ 7936) (hclient : clientsize ≤ blocksize)
    (hblock : blocksize ≤ 16384) (hfull : clientsize ≤ file.length) (hfile : file.length < 2 ^ 31)
    (hreach : Relation.ReflTransGen (Step lzw_hw_streams blocksize)
      (NetState.start (Client.main clientsize file beyond).sent input) s)
    (hlen : digests s.encoder.app.chunks < 2 ^ 31) (hsha : CollisionFree s.encoder.app.chunks) :
    (∃ ms, Exits (Decoder.main s.encoder.app.file) ms ∧
        ms.Output = (payloads s.encoder).flatten) ↔
      (∀ payload ∈ payloads s.encoder, ∀ byte ∈ payload, byte ≠ 0) ∧
        ∀ packet ∈ s.encoder.packets, ZeroOverrun packet.1 packet.2 := by
  have hle := hclient.trans hblock
  obtain ⟨hframed, _, _⟩ := client_sent hpos hle hfile beyond
  have hsafe := safe_of_reachable (fun d hd => (hframed d hd).mono hclient) hblock hreach
  have hsize := hsafe.packets_size hpos hle hfull hfile
  rw [hsafe.app_eq] at hlen hsha ⊢
  rw [← payloadBytes_packets, ← noZero_packets_iff]
  exact roundTrips_iff_of_small hkernel
    (fun packet hp => ⟨(hsize packet hp).1, (hsize packet hp).2.1.trans hsmall⟩) hlen hsha

/-- Behind a network that keeps the order: if the blocks divide the file evenly, and what is behind
them in the slots is zero at first, then the decoder, run on the output of an encoder that is
through, writes the file if and only if this contains no zero byte. -/
theorem file_comes_back_iff (hkernel : RunsLzw lzw_hw_streams signed)
    (hpos : 1 ≤ clientsize) (hsmall : clientsize ≤ 7936) (hclient : clientsize ≤ blocksize)
    (hblock : blocksize ≤ 16384) (hne : file ≠ []) (hdvd : clientsize ∣ file.length)
    (hfile : file.length < 2 ^ 31) (hinput : ∀ k j, HEADER + clientsize ≤ j → input k j = 0)
    (hreach : Relation.ReflTransGen (FifoStep lzw_hw_streams blocksize)
      (NetState.start (Client.main clientsize file beyond).sent input) s)
    (hdone : s.encoder.done = true) (hsha : CollisionFree s.encoder.app.chunks) :
    (∃ ms, Exits (Decoder.main s.encoder.app.file) ms ∧ ms.Output = file) ↔
      ∀ byte ∈ file, byte ≠ 0 := by
  have hle := hclient.trans hblock
  have hfull := Nat.le_of_dvd (List.length_pos_of_ne_nil hne) hdvd
  obtain ⟨hframed, _, _⟩ := client_sent hpos hle hfile beyond
  have hin := inOrder_of_reachable (fun d hd => (hframed d hd).mono hclient) hblock hreach
  have hflat := (hin.done_iff_file hpos hle hfull hfile).1 hdone
  have hsize := hin.safe.packets_size hpos hle hfull hfile
  -- nothing is copied from behind the packets but what the slots held at first
  have hout : Untouched (HEADER + clientsize) input s.encoder := by
    refine hin.safe.runs.untouched fun r hr => ?_
    obtain ⟨d, hd, rfl⟩ := List.mem_map.1 hr
    have hmem : d ∈ (Client.main clientsize file beyond).sent := by
      rw [hin.order, List.append_assoc]
      exact List.mem_append_left _ hd
    obtain ⟨done, payload, hpayload, rfl⟩ := hframed d hmem
    refine ⟨_, rfl, ?_⟩
    simp only [datagram, HEADER, List.length_append, List.length_cons, List.length_nil]
    omega
  have hzo : ∀ packet ∈ s.encoder.packets, ZeroOverrun packet.1 packet.2 := by
    intro packet hp j hj _
    rw [(hsize packet hp).2.2 hdvd] at hj
    obtain ⟨k, hk⟩ := hout.packets packet hp j (by omega)
    rw [hk, hinput k _ (by omega)]
  have hlen : digests (runPackets lzw_hw_streams s.encoder.packets).chunks < 2 ^ 31 := by
    refine lt_of_le_of_lt (digests_le_payloadBytes _ _) ?_
    rwa [payloadBytes_packets, hflat]
  have hbytes : (∀ byte ∈ file, byte ≠ 0) ↔
      ∀ payload ∈ payloads s.encoder, ∀ byte ∈ payload, byte ≠ 0 := by
    rw [← hflat]
    constructor
    · exact fun h payload hp byte hb => h byte (List.mem_flatten.2 ⟨payload, hp, hb⟩)
    · intro h byte hb
      obtain ⟨payload, hp, hb⟩ := List.mem_flatten.1 hb
      exact h payload hp byte hb
  rw [hin.safe.app_eq] at hsha ⊢
  rw [hbytes, ← noZero_packets_iff, ← hflat, ← payloadBytes_packets]
  have hround := roundTrips_iff_of_small hkernel
    (fun packet hp => ⟨(hsize packet hp).1, (hsize packet hp).2.1.trans hsmall⟩) hlen hsha
  exact hround.trans (and_iff_left hzo)

end Kernel

/-! ### A file of one block -/

/-- The client sends it in one datagram. -/
theorem client_sent_block {clientsize : ℕ} {file : List UInt8} (hpos : 1 ≤ clientsize)
    (hlen : file.length = clientsize) (hfile : clientsize < 2 ^ 31) (beyond : Buffer) :
    (Client.main clientsize file beyond).sent = [datagram clientsize true file] := by
  have hcopy : memcpy (buff file file.length beyond) (0, file.length) = file := by
    rw [memcpy, Nat.zero_add, slice_buff rfl]
  subst hlen
  rw [client_main hfile, sendFile]
  simp [send, Nat.div_self hpos, hcopy]

/-- It arrives, and the encoder is through. -/
theorem block_reachable (lzw_hw_streams : List UInt8 → ℕ → List UInt8) (blocksize : ℕ)
    (input : ℕ → Buffer) {clientsize : ℕ} {file : List UInt8} (hpos : 1 ≤ clientsize)
    (hlen : file.length = clientsize) (hfile : clientsize < 2 ^ 31) (beyond : Buffer) :
    Relation.ReflTransGen (FifoStep lzw_hw_streams blocksize)
      (NetState.start (Client.main clientsize file beyond).sent input)
      ⟨[], [], [datagram clientsize true file],
        receive lzw_hw_streams blocksize (resetRing (start input))
          (some (datagram clientsize true file))⟩ := by
  rw [client_sent_block hpos hlen hfile]
  refine .tail (.tail .refl (.send _ _ _ _ _)) ?_
  exact .deliver _ [] [] [] (start input) rfl

/-- The encoder after the datagram of a file of twelve letters. -/
def oneBlock : EncoderState :=
  receive (runLzwKernel false) 12 (resetRing (start fun _ _ => 0))
    (some (datagram 12 true (List.replicate 12 7)))

theorem oneBlock_reachable :
    Relation.ReflTransGen (FifoStep (runLzwKernel false) 12)
      (NetState.start (Client.main 12 (List.replicate 12 7) fun _ => 0).sent fun _ _ => 0)
      ⟨[], [], [datagram 12 true (List.replicate 12 7)], oneBlock⟩ :=
  block_reachable _ 12 _ (by decide) List.length_replicate (by decide) _

theorem oneBlock_packets : oneBlock.packets = [(fun j => get_packet 12 (fun _ => 0)
    (some (datagram 12 true (List.replicate 12 7))) (HEADER + j), 12)] := rfl

theorem oneBlock_chunks : ∃ c, oneBlock.app.chunks = [c] := by
  have happ : oneBlock.app = runPackets (runLzwKernel false) oneBlock.packets :=
    main_app (runLzwKernel false) (fun _ _ => 0) [some (datagram 12 true (List.replicate 12 7))]
  rw [happ, runPackets_chunks, oneBlock_packets, List.flatMap_singleton, chunksFrom_window]
  exact ⟨_, rfl⟩

theorem oneBlock_payloads : payloads oneBlock = [List.replicate 12 7] := by decide

theorem oneBlock_nonzero : ∀ byte ∈ List.replicate 12 (7 : UInt8), byte ≠ 0 := by
  intro byte hbyte
  rw [List.eq_of_mem_replicate hbyte]
  decide

theorem oneBlock_collisionFree : CollisionFree oneBlock.app.chunks := by
  obtain ⟨c, hc⟩ := oneBlock_chunks
  rw [hc]
  intro c₁ h₁ c₂ h₂ _
  rw [List.mem_singleton.1 h₁, List.mem_singleton.1 h₂]

/-- The decoder writes the twelve letters that have arrived. -/
theorem decoder_writes_arrived_iff_oneBlock :
    ∃ ms, Exits (Decoder.main oneBlock.app.file) ms ∧
      ms.Output = (payloads oneBlock).flatten := by
  have hreach := Relation.ReflTransGen.mono (fun _ _ h => FifoStep.step h) _ _ oneBlock_reachable
  have hlen : digests oneBlock.app.chunks < 2 ^ 31 := by
    obtain ⟨c, hc⟩ := oneBlock_chunks
    refine lt_of_le_of_lt (digests_le _) ?_
    rw [hc, List.length_singleton]
    norm_num
  have hiff := decoder_writes_arrived_iff (runsLzw_runLzwKernel false) (by decide) (by decide)
    (by decide) (by decide) (by decide) (by decide) hreach hlen oneBlock_collisionFree
  refine hiff.2 ⟨fun payload hp => ?_, fun packet hp j hj hover => ?_⟩
  · rw [oneBlock_payloads, List.mem_singleton] at hp
    rw [hp]
    exact oneBlock_nonzero
  · -- nothing is copied from behind a packet of one window
    rw [oneBlock_packets, List.mem_singleton] at hp
    subst hp
    rcases hover with hlt | ⟨e, _, hroom, _⟩
    · exact absurd hj (Nat.not_le_of_lt hlt)
    · exact absurd hroom (Nat.not_lt_of_le (Nat.le_add_left 12 e))

/-- The twelve letters come back behind a network that keeps the order. -/
theorem file_comes_back_iff_oneBlock :
    ∃ ms, Exits (Decoder.main oneBlock.app.file) ms ∧ ms.Output = List.replicate 12 7 :=
  (file_comes_back_iff (runsLzw_runLzwKernel false) (by decide) (by decide) (by decide) (by decide)
    (by decide) (by decide) (by decide) (fun _ _ _ => rfl) oneBlock_reachable rfl
    oneBlock_collisionFree).2 oneBlock_nonzero

end Network

end DedupLzw
