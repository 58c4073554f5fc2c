/-
**The encoder and the decoder, end to end.**

Over a sequence of packets the encoder writes one file, and the decoder is run on it.  Every chunk
comes back as some string, without its zero bytes, and shorter still if its codes do not fit into 13
bits; a chunk of zero bytes stops the decoder.  The chunks are made of the packets and of what stood
behind those that do not fit.  So the decoder writes the bytes of the packets if

* no byte of a packet is zero (`DedupLzw.App.NoZero`),
* the bytes behind a packet that are copied into its last chunk are all zero
  (`DedupLzw.App.ZeroOverrun`), and
* every chunk fits into 13 bits (`DedupLzw.App.ChunksFit13`).

Where the second or the third condition holds all three are necessary: nothing can make up for what
is lost, or what is added.

Main definitions:

* `DedupLzw.App.RoundTrips` — the decoder writes the bytes of the packets.

Main results:

* `DedupLzw.App.Reachable.decoded` — what the decoder writes for a run;
* `DedupLzw.App.flatMap_nonzero_chunks` — the nonzero bytes of the chunks;
* `DedupLzw.App.end_to_end` — **when encoder and decoder are lossless**.
-/

import DedupLzw.Framing
import DedupLzw.StaleBytes

set_option relaxedAutoImplicit false
set_option autoImplicit false

namespace DedupLzw

namespace App

open FuelLoop Cdc Sha Lzw Decoder FirstSeen

/-! ### What the decoder writes -/

section Kernel

variable {lzw_hw_streams : List UInt8 → ℕ → List UInt8} {st : AppState}

/-- What `f` makes of the chunks is what comes back, as far as it is known. -/
structure ComesBackBy (signed : Bool) (f : List UInt8 → List UInt8) (chunk : List UInt8) :
    Prop where
  back : ComesBackAs signed chunk (f chunk)
  le : (f chunk).length ≤ (nonzero chunk).length
  fits : Fits13 (nonzero chunk) → f chunk = nonzero chunk
  short : ¬ Fits13 (nonzero chunk) → (f chunk).length < (nonzero chunk).length

/-- What the decoder writes for a run in which no chunk is all zero. -/
theorem Reachable.decoded (h : Reachable lzw_hw_streams st) {signed : Bool}
    (hkernel : RunsLzw lzw_hw_streams signed) (hlen : digests st.chunks < 2 ^ 31)
    (hsha : ∀ c ∈ st.chunks, ∀ c' ∈ st.chunks, SHA_new c = SHA_new c' → c = c')
    (hne : ∀ c ∈ st.chunks, nonzero c ≠ []) :
    ∃ f : List UInt8 → List UInt8, (∀ c ∈ st.chunks, ComesBackBy signed f c) ∧
      ∃ ms, Exits (Decoder.main st.file) ms ∧ ms.Output = st.chunks.flatMap f := by
  have hback : ∀ c, ∃ out, c ∈ st.chunks → ComesBackBy signed (fun _ => out) c := by
    intro c
    by_cases hc : c ∈ st.chunks
    · obtain ⟨_, hsize, hw⟩ := h.chunk_length c hc
      obtain ⟨out, hout, hle, hfits, hshort⟩ := chunk_codec signed hsize (hne c hc) hw
      exact ⟨out, fun _ => ⟨hout, hle, hfits, hshort⟩⟩
    · exact ⟨[], fun hc' => absurd hc' hc⟩
  choose f hf using hback
  have hall : ∀ c ∈ st.chunks, ComesBackBy signed f c := fun c hc =>
    ⟨(hf c hc).back, (hf c hc).le, (hf c hc).fits, (hf c hc).short⟩
  obtain ⟨ms, hexit, _, hout⟩ := h.exits_file hkernel hlen fun c hc =>
    (hall c (mem_of_mem_fresh SHA_new (mem_fresh.2 hc))).back
  refine ⟨f, hall, ms, hexit, ?_⟩
  rw [hout, expand_entries SHA_new f st.chunks hsha, List.map_map, List.flatMap_def]
  rfl

end Kernel

/-! ### The nonzero bytes of the chunks -/

@[simp] theorem nonzero_append (xs ys : List UInt8) :
    nonzero (xs ++ ys) = nonzero xs ++ nonzero ys := by
  simp [nonzero]

/-- The nonzero bytes of the chunks of a packet. -/
theorem flatMap_nonzero_chunks (b : Buffer) (length s : ℕ) :
    (chunksFrom b length s).flatMap nonzero = nonzero (slice b s (endFrom b length s)) := by
  fun_induction endFrom b length s with
  | case1 s hlt ih =>
      have hcut := window_le_cutEnd b length s
      have hend := (le_endFrom b length (cutEnd b length s)).1
      rw [chunksFrom_of_lt hlt, List.flatMap_cons, nonzero_concat_zero, ih,
        ← nonzero_append, slice_append b (by omega) hend]
  | case2 s hge => rw [chunksFrom_of_le (Nat.le_of_not_lt hge), slice_self]; rfl

/-- The bytes of the packets. -/
def payloadBytes (packets : List (Buffer × ℕ)) : List UInt8 :=
  packets.flatMap fun packet => slice packet.1 0 packet.2

/-- The nonzero bytes of the chunks of a run. -/
theorem flatMap_nonzero_runPackets (lzw_hw_streams : List UInt8 → ℕ → List UInt8)
    (packets : List (Buffer × ℕ)) :
    (runPackets lzw_hw_streams packets).chunks.flatMap nonzero
      = packets.flatMap fun packet => nonzero (slice packet.1 0 packet.2) ++
          nonzero (slice packet.1 packet.2 (endFrom packet.1 packet.2 0)) := by
  rw [runPackets_chunks, List.flatMap_assoc]
  refine List.flatMap_congr fun packet _ => ?_
  rw [flatMap_nonzero_chunks, ← nonzero_append,
    slice_append _ (Nat.zero_le _) (le_endFrom packet.1 packet.2 0).2]

/-! ### The conditions -/

/-- No byte of the packet is zero. -/
def NoZero (b : Buffer) (length : ℕ) : Prop := ∀ j < length, b j ≠ 0

/-- The bytes behind the packet that are copied into its last chunk are zero. -/
def ZeroOverrun (b : Buffer) (length : ℕ) : Prop :=
  ∀ j, length ≤ j → (j < 12 ∨ ∃ e, Boundary b e ∧ e + 12 < length ∧ j < e + 24) → b j = 0

/-- The chunks that start at the content cuts of the packet fit into 13 bits. -/
def ChunksFit13 (b : Buffer) (length : ℕ) : Prop :=
  ∀ s e, Boundary b s → s + 12 < length → IsChunkEnd b length s e → Fits13 (nonzero (slice b s e))

theorem noZero_iff (b : Buffer) (length : ℕ) :
    NoZero b length ↔ nonzero (slice b 0 length) = slice b 0 length := by
  rw [nonzero_eq_self_iff]
  constructor
  · intro h c hc
    obtain ⟨j, _, hj, rfl⟩ := mem_slice.1 hc
    exact h j hj
  · exact fun h j hj => h _ (mem_slice.2 ⟨j, Nat.zero_le j, hj, rfl⟩)

theorem zeroOverrun_iff {b : Buffer} {length : ℕ} (hpos : 1 ≤ length) :
    ZeroOverrun b length ↔ nonzero (slice b length (endFrom b length 0)) = [] := by
  rw [nonzero, List.filter_eq_nil_iff]
  constructor
  · intro h c hc
    obtain ⟨j, hj, hlt, rfl⟩ := mem_slice.1 hc
    simp [h j hj ((lt_endFrom_iff hpos hj).1 hlt)]
  · intro h j hj hlt
    have hc := h _ (mem_slice.2 ⟨j, hj, (lt_endFrom_iff hpos hj).2 hlt, rfl⟩)
    simpa using hc

theorem fits13_nil : Fits13 [] := by
  intro ps hps p hp
  have hlen := hps.length_le
  rw [List.length_nil, Nat.le_zero, List.length_eq_zero_iff] at hlen
  rw [hlen] at hp
  simp at hp

/-- All chunks of the packet fit then. -/
theorem chunksFit13_iff (b : Buffer) (length : ℕ) :
    ChunksFit13 b length ↔ ∀ c ∈ chunksFrom b length 0, Fits13 (nonzero c) := by
  have hwindow : ∀ s, Fits13 (nonzero (slice b s (s + 12) ++ [0])) := by
    intro s
    have hle := length_nonzero_le (slice b s (s + 12))
    rw [length_slice] at hle
    rw [nonzero_concat_zero]
    by_cases hne : nonzero (slice b s (s + 12)) = []
    · rw [hne]
      exact fits13_nil
    · exact fits13_of_length_le hne (by omega)
  rw [forall_chunksFrom_iff (fun c => Fits13 (nonzero c)) hwindow]
  constructor
  · intro h s hs hroom
    rw [nonzero_concat_zero]
    exact h s _ hs hroom (isChunkEnd_cutEnd b length s)
  · intro h s e hs hroom hend
    have hfit := h s hs hroom
    rw [nonzero_concat_zero] at hfit
    rwa [hend.unique (isChunkEnd_cutEnd b length s)]

/-! ### Lengths -/

section Length

variable {α β : Type} {f g : α → List β} {l : List α}

theorem length_flatMap_le (hle : ∀ a ∈ l, (f a).length ≤ (g a).length) :
    (l.flatMap f).length ≤ (l.flatMap g).length := by
  rw [List.length_flatMap, List.length_flatMap]
  exact List.sum_le_sum hle

theorem length_flatMap_lt (hle : ∀ a ∈ l, (f a).length ≤ (g a).length)
    (hlt : ∃ a ∈ l, (f a).length < (g a).length) :
    (l.flatMap f).length < (l.flatMap g).length := by
  rw [List.length_flatMap, List.length_flatMap]
  exact List.sum_lt_sum _ _ hle hlt

/-- Parts that are not longer are as long, if the whole is. -/
theorem length_eq_of_flatMap (hle : ∀ a ∈ l, (f a).length ≤ (g a).length)
    (hlen : (l.flatMap g).length ≤ (l.flatMap f).length) :
    ∀ a ∈ l, (f a).length = (g a).length := by
  intro a ha
  by_contra hne
  have hlt := length_flatMap_lt hle ⟨a, ha, lt_of_le_of_ne (hle a ha) hne⟩
  omega

end Length

/-! ### The round trip -/

/-- The decoder, run on the file of a sequence of packets, ends and has written their bytes. -/
def RoundTrips (lzw_hw_streams : List UInt8 → ℕ → List UInt8) (packets : List (Buffer × ℕ)) :
    Prop :=
  ∃ ms, Exits (Decoder.main (runPackets lzw_hw_streams packets).file) ms ∧
    ms.Output = payloadBytes packets

/-- Equal digests belong to equal chunks. -/
def CollisionFree (chunks : List (List UInt8)) : Prop :=
  ∀ c ∈ chunks, ∀ c' ∈ chunks, SHA_new c = SHA_new c' → c = c'

section Kernel

variable {lzw_hw_streams : List UInt8 → ℕ → List UInt8} {signed : Bool}
  {packets : List (Buffer × ℕ)}

variable (lzw_hw_streams)

/-- The chunks of a run fit when those of its packets do. -/
theorem forall_fits13_iff :
    (∀ c ∈ (runPackets lzw_hw_streams packets).chunks, Fits13 (nonzero c)) ↔
      ∀ packet ∈ packets, ChunksFit13 packet.1 packet.2 := by
  rw [runPackets_chunks]
  simp only [chunksFit13_iff, List.mem_flatMap]
  constructor
  · exact fun h packet hp c hc => h c ⟨packet, hp, hc⟩
  · rintro h c ⟨packet, hp, hc⟩
    exact h packet hp c hc

variable {lzw_hw_streams}

/-- Without zero bytes in the packets, no chunk is all zero. -/
theorem nonzero_ne_nil_of_noZero (hnz : ∀ packet ∈ packets, NoZero packet.1 packet.2) :
    ∀ c ∈ (runPackets lzw_hw_streams packets).chunks, nonzero c ≠ [] := by
  intro c hc
  rw [runPackets_chunks] at hc
  obtain ⟨packet, hp, hc⟩ := List.mem_flatMap.1 hc
  obtain ⟨t, ht, rfl⟩ := mem_chunksFrom c hc
  have hwindow := window_le_cutEnd packet.1 packet.2 t
  rw [nonzero_ne_nil_iff]
  refine ⟨packet.1 t, List.mem_append_left _ (mem_slice.2 ⟨t, le_rfl, by omega, rfl⟩), ?_⟩
  exact hnz packet hp t ht

/-- The conditions are sufficient. -/
theorem roundTrips_of (hkernel : RunsLzw lzw_hw_streams signed)
    (hpackets : ∀ packet ∈ packets, 1 ≤ packet.2)
    (hlen : digests (runPackets lzw_hw_streams packets).chunks < 2 ^ 31)
    (hsha : CollisionFree (runPackets lzw_hw_streams packets).chunks)
    (hnz : ∀ packet ∈ packets, NoZero packet.1 packet.2)
    (hzo : ∀ packet ∈ packets, ZeroOverrun packet.1 packet.2)
    (hfit : ∀ packet ∈ packets, ChunksFit13 packet.1 packet.2) :
    RoundTrips lzw_hw_streams packets := by
  obtain ⟨f, hf, ms, hexit, hout⟩ := (reachable_runPackets packets).1.decoded hkernel hlen hsha
    (nonzero_ne_nil_of_noZero hnz)
  have hfits := (forall_fits13_iff lzw_hw_streams).2 hfit
  refine ⟨ms, hexit, ?_⟩
  calc ms.Output
      = (runPackets lzw_hw_streams packets).chunks.flatMap f := hout
    _ = (runPackets lzw_hw_streams packets).chunks.flatMap nonzero :=
        List.flatMap_congr fun c hc => (hf c hc).fits (hfits c hc)
    _ = packets.flatMap fun packet => nonzero (slice packet.1 0 packet.2) ++
          nonzero (slice packet.1 packet.2 (endFrom packet.1 packet.2 0)) :=
        flatMap_nonzero_runPackets _ packets
    _ = payloadBytes packets := by
        refine List.flatMap_congr fun packet hp => ?_
        rw [(noZero_iff _ _).1 (hnz packet hp),
          (zeroOverrun_iff (hpackets packet hp)).1 (hzo packet hp), List.append_nil]

/-- If the decoder ends, no chunk is all zero. -/
theorem nonzero_ne_nil_of_exits (hkernel : RunsLzw lzw_hw_streams signed)
    (hlen : digests (runPackets lzw_hw_streams packets).chunks < 2 ^ 31)
    (hsha : CollisionFree (runPackets lzw_hw_streams packets).chunks) {ms : MainState}
    (hexit : Exits (Decoder.main (runPackets lzw_hw_streams packets).file) ms) :
    ∀ c ∈ (runPackets lzw_hw_streams packets).chunks, nonzero c ≠ [] := by
  intro c hc hzero
  exact (reachable_runPackets packets).1.not_exits_of_zeros hkernel hlen
    (fresh_of_mem SHA_new hsha hc) hzero ms hexit

/-- If everything fits into 13 bits, nothing that is written is zero, and there is no room for
bytes from behind the packets. -/
theorem conditions_of_fit (hpackets : ∀ packet ∈ packets, 1 ≤ packet.2)
    (hout : payloadBytes packets = (runPackets lzw_hw_streams packets).chunks.flatMap nonzero) :
    ∀ packet ∈ packets, NoZero packet.1 packet.2 ∧ ZeroOverrun packet.1 packet.2 := by
  have hnz : ∀ packet ∈ packets, NoZero packet.1 packet.2 := by
    intro packet hp j hj
    have hmem : packet.1 j ∈ payloadBytes packets :=
      List.mem_flatMap.2 ⟨packet, hp, mem_slice.2 ⟨j, Nat.zero_le j, hj, rfl⟩⟩
    rw [hout] at hmem
    obtain ⟨c, _, hc⟩ := List.mem_flatMap.1 hmem
    simpa using (List.mem_filter.1 hc).2
  have hsame : payloadBytes packets = packets.flatMap fun packet => slice packet.1 0 packet.2 ++
      nonzero (slice packet.1 packet.2 (endFrom packet.1 packet.2 0)) := by
    rw [hout, flatMap_nonzero_runPackets]
    refine List.flatMap_congr fun packet hp => ?_
    rw [(noZero_iff _ _).1 (hnz packet hp)]
  have hparts := length_eq_of_flatMap (fun packet (_ : packet ∈ packets) => by simp)
    (congrArg List.length hsame).ge
  intro packet hp
  refine ⟨hnz packet hp, (zeroOverrun_iff (hpackets packet hp)).2 ?_⟩
  have hlen := hparts packet hp
  rw [List.length_append] at hlen
  exact List.length_eq_zero_iff.1 (by omega)

/-- If nothing is added from behind the packets, nothing can be lost. -/
theorem conditions_of_zeroOverrun (hpackets : ∀ packet ∈ packets, 1 ≤ packet.2)
    (hzo : ∀ packet ∈ packets, ZeroOverrun packet.1 packet.2) {f : List UInt8 → List UInt8}
    (hf : ∀ c ∈ (runPackets lzw_hw_streams packets).chunks, ComesBackBy signed f c)
    (hout : payloadBytes packets = (runPackets lzw_hw_streams packets).chunks.flatMap f) :
    ∀ packet ∈ packets, NoZero packet.1 packet.2 ∧ ChunksFit13 packet.1 packet.2 := by
  have hnonzero : (runPackets lzw_hw_streams packets).chunks.flatMap nonzero
      = packets.flatMap fun packet => nonzero (slice packet.1 0 packet.2) := by
    rw [flatMap_nonzero_runPackets]
    refine List.flatMap_congr fun packet hp => ?_
    rw [(zeroOverrun_iff (hpackets packet hp)).1 (hzo packet hp), List.append_nil]
  have hle : ∀ packet ∈ packets, (nonzero (slice packet.1 0 packet.2)).length
      ≤ (slice packet.1 0 packet.2).length := fun packet _ => length_nonzero_le _
  have hshort : ∀ c ∈ (runPackets lzw_hw_streams packets).chunks,
      (f c).length ≤ (nonzero c).length := fun c hc => (hf c hc).le
  -- the bytes written are at most the nonzero bytes, and these at most the bytes of the packets
  have hwritten := length_flatMap_le hshort
  have hpayload := length_flatMap_le hle
  rw [← hnonzero] at hpayload
  have hlen : (packets.flatMap fun packet => slice packet.1 0 packet.2).length
      = ((runPackets lzw_hw_streams packets).chunks.flatMap f).length := congrArg List.length hout
  have hchunks := length_eq_of_flatMap hshort (hpayload.trans hlen.le)
  have hpackets' := length_eq_of_flatMap hle (hlen.le.trans (hnonzero ▸ hwritten))
  have hfit := (forall_fits13_iff lzw_hw_streams).1 fun c hc => by
    by_contra hnot
    have hlt := (hf c hc).short hnot
    rw [hchunks c hc] at hlt
    exact lt_irrefl _ hlt
  intro packet hp
  exact ⟨(noZero_iff _ _).2 (List.filter_sublist.eq_of_length (hpackets' packet hp)),
    hfit packet hp⟩

/-- Where the second or the third condition holds, the conditions are necessary. -/
theorem conditions_of_roundTrips (hkernel : RunsLzw lzw_hw_streams signed)
    (hpackets : ∀ packet ∈ packets, 1 ≤ packet.2)
    (hlen : digests (runPackets lzw_hw_streams packets).chunks < 2 ^ 31)
    (hsha : CollisionFree (runPackets lzw_hw_streams packets).chunks)
    (hside : (∀ packet ∈ packets, ZeroOverrun packet.1 packet.2) ∨
      ∀ packet ∈ packets, ChunksFit13 packet.1 packet.2)
    (h : RoundTrips lzw_hw_streams packets) :
    ∀ packet ∈ packets, NoZero packet.1 packet.2 ∧ ZeroOverrun packet.1 packet.2 ∧
      ChunksFit13 packet.1 packet.2 := by
  obtain ⟨ms, hexit, hms⟩ := h
  obtain ⟨f, hf, ms', hexit', hout⟩ := (reachable_runPackets packets).1.decoded hkernel hlen hsha
    (nonzero_ne_nil_of_exits hkernel hlen hsha hexit)
  rw [← hexit.unique hexit', hms] at hout
  intro packet hp
  rcases hside with hzo | hfit
  · obtain ⟨hnz, hfit⟩ := conditions_of_zeroOverrun hpackets hzo hf hout packet hp
    exact ⟨hnz, hzo packet hp, hfit⟩
  · have hfits := (forall_fits13_iff lzw_hw_streams).2 hfit
    have hout' : payloadBytes packets
        = (runPackets lzw_hw_streams packets).chunks.flatMap nonzero :=
      hout.trans (List.flatMap_congr fun c hc => (hf c hc).fits (hfits c hc))
    obtain ⟨hnz, hzo⟩ := conditions_of_fit hpackets hout' packet hp
    exact ⟨hnz, hzo, hfit packet hp⟩

/-- Encoder and decoder are lossless on packets without zero bytes, with nothing but zero bytes
copied from behind them, all of whose chunks fit into 13 bits.  Where nothing but zero bytes is
copied, or all chunks fit, they are lossless on no other packets. -/
theorem end_to_end (hkernel : RunsLzw lzw_hw_streams signed)
    (hpackets : ∀ packet ∈ packets, 1 ≤ packet.2)
    (hlen : digests (runPackets lzw_hw_streams packets).chunks < 2 ^ 31)
    (hsha : CollisionFree (runPackets lzw_hw_streams packets).chunks) :
    ((∀ packet ∈ packets, NoZero packet.1 packet.2 ∧ ZeroOverrun packet.1 packet.2 ∧
        ChunksFit13 packet.1 packet.2) → RoundTrips lzw_hw_streams packets) ∧
      (((∀ packet ∈ packets, ZeroOverrun packet.1 packet.2) ∨
          ∀ packet ∈ packets, ChunksFit13 packet.1 packet.2) →
        RoundTrips lzw_hw_streams packets →
        ∀ packet ∈ packets, NoZero packet.1 packet.2 ∧ ZeroOverrun packet.1 packet.2 ∧
          ChunksFit13 packet.1 packet.2) := by
  constructor
  · intro h
    exact roundTrips_of hkernel hpackets hlen hsha (fun packet hp => (h packet hp).1)
      (fun packet hp => (h packet hp).2.1) fun packet hp => (h packet hp).2.2
  · exact conditions_of_roundTrips hkernel hpackets hlen hsha

end Kernel

theorem collisionFree_window (lzw_hw_streams : List UInt8 → ℕ → List UInt8) (b : Buffer) :
    CollisionFree (runPackets lzw_hw_streams [(b, 12)]).chunks := by
  rw [runPackets_window_chunks]
  intro c hc c' hc' _
  rw [List.mem_singleton.1 hc, List.mem_singleton.1 hc']

/-- A packet of twelve letters comes back. -/
theorem end_to_end_letters : RoundTrips (runLzwKernel false) [(fun _ => 7, 12)] := by
  have hpackets : ∀ packet ∈ [((fun _ => 7 : Buffer), 12)], 1 ≤ packet.2 := by simp
  refine (end_to_end (runsLzw_runLzwKernel false) hpackets (digests_window _ _)
    (collisionFree_window _ _)).1 fun packet hp => ?_
  obtain rfl := List.mem_singleton.1 hp
  refine ⟨fun j _ => (by decide : (7 : UInt8) ≠ 0), ?_, ?_⟩
  · rintro j hj (hshort | ⟨e, _, hroom, _⟩) <;> dsimp only at * <;> omega
  · intro s e _ hroom _
    dsimp only at hroom
    omega

/-- A packet of twelve zero bytes does not. -/
theorem zeros_do_not_round_trip : ¬ RoundTrips (runLzwKernel false) [(fun _ => 0, 12)] := by
  rintro ⟨ms, hexit, _⟩
  have hne := nonzero_ne_nil_of_exits (runsLzw_runLzwKernel false) (digests_window _ _)
    (collisionFree_window _ _) hexit
  rw [runPackets_window_chunks] at hne
  exact hne _ (List.mem_singleton.2 rfl) (by decide)

end App

end DedupLzw
