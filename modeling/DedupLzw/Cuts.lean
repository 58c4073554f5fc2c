/-
**The chunks of a packet.**

`runApp` cuts chunk after chunk until the packet is used up, so what it does to a packet is fixed
by the positions at which it cuts.  Up to the last two windows of the packet these are *content
cuts*: each is the first hit after the one before it, whatever the length of the packet is.  In the
last two windows the cut positions depend on the length, and the unconditional copy of the first
window of a chunk may run past the end of the packet.

It stays inside the packet exactly when the packet has at least one window and no content cut falls
strictly between the last window and the one before it.  Only then the chunks are a partition of
the packet.

Main definitions:

* `DedupLzw.App.chunksFrom`, `DedupLzw.App.endFrom` — the chunks cut from a position on, and where
  the last one ends;
* `DedupLzw.App.Boundary` — the content cuts of a buffer;
* `DedupLzw.App.ExactFit` — the chunks end where the packet ends.

Main results:

* `DedupLzw.App.runApp_eq` — `runApp` processes these chunks in order;
* `DedupLzw.App.flatten_payloads` — their payloads make up the buffer up to the last end;
* `DedupLzw.App.endFrom_eq_iff` — when that is the end of the packet;
* `DedupLzw.App.partition_iff` — **when the chunks are a partition of the packet**.
-/

import DedupLzw.App

set_option relaxedAutoImplicit false
set_option autoImplicit false

namespace DedupLzw

namespace App

open Cdc

/-! ### The chunks cut from a position on -/

/-- Where the chunk that starts at `s` ends. -/
def cutEnd (b : Buffer) (length s : ℕ) : ℕ := (runCDC b length s).2

theorem isChunkEnd_cutEnd (b : Buffer) (length s : ℕ) :
    IsChunkEnd b length s (cutEnd b length s) := by
  obtain ⟨e, hend, hrun⟩ := runCDC_spec b length s
  rwa [cutEnd, hrun]

theorem runCDC_eq (b : Buffer) (length s : ℕ) :
    runCDC b length s = (slice b s (cutEnd b length s) ++ [0], cutEnd b length s) := by
  obtain ⟨e, hend, hrun⟩ := runCDC_spec b length s
  rw [cutEnd, hrun]

theorem window_le_cutEnd (b : Buffer) (length s : ℕ) : s + 12 ≤ cutEnd b length s :=
  (isChunkEnd_cutEnd b length s).window

/-- The chunks cut while the position is inside the packet, as `runCDC` returns them. -/
def chunksFrom (b : Buffer) (length s : ℕ) : List (List UInt8) :=
  if s < length then (runCDC b length s).1 :: chunksFrom b length (cutEnd b length s) else []
termination_by length - s
decreasing_by
  have := window_le_cutEnd b length s
  omega

/-- The position at which the packet is used up. -/
def endFrom (b : Buffer) (length s : ℕ) : ℕ :=
  if s < length then endFrom b length (cutEnd b length s) else s
termination_by length - s
decreasing_by
  have := window_le_cutEnd b length s
  omega

theorem chunksFrom_of_lt {b : Buffer} {length s : ℕ} (h : s < length) :
    chunksFrom b length s
      = (slice b s (cutEnd b length s) ++ [0]) :: chunksFrom b length (cutEnd b length s) := by
  conv_lhs => unfold chunksFrom
  rw [if_pos h, runCDC_eq]

theorem chunksFrom_of_le {b : Buffer} {length s : ℕ} (h : length ≤ s) :
    chunksFrom b length s = [] := by
  unfold chunksFrom
  rw [if_neg (Nat.not_lt.2 h)]

theorem endFrom_of_lt {b : Buffer} {length s : ℕ} (h : s < length) :
    endFrom b length s = endFrom b length (cutEnd b length s) := by
  conv_lhs => unfold endFrom
  rw [if_pos h]

theorem endFrom_of_le {b : Buffer} {length s : ℕ} (h : length ≤ s) : endFrom b length s = s := by
  unfold endFrom
  rw [if_neg (Nat.not_lt.2 h)]

theorem le_endFrom (b : Buffer) (length s : ℕ) :
    s ≤ endFrom b length s ∧ length ≤ endFrom b length s := by
  fun_induction endFrom b length s with
  | case1 s hlt ih =>
      have := window_le_cutEnd b length s
      exact ⟨by omega, ih.2⟩
  | case2 s hge => exact ⟨le_rfl, Nat.le_of_not_lt hge⟩

/-- The payloads make up the buffer up to the end of the last chunk. -/
theorem flatten_payloads (b : Buffer) (length s : ℕ) :
    ((chunksFrom b length s).map List.dropLast).flatten = slice b s (endFrom b length s) := by
  fun_induction endFrom b length s with
  | case1 s hlt ih =>
      have hcut := window_le_cutEnd b length s
      have hend := (le_endFrom b length (cutEnd b length s)).1
      rw [chunksFrom_of_lt hlt, List.map_cons, List.flatten_cons, ih, List.dropLast_concat,
        slice_append b (by omega) hend]
  | case2 s hge => rw [chunksFrom_of_le (Nat.le_of_not_lt hge), slice_self]; rfl

/-- The chunks start inside the packet. -/
theorem mem_chunksFrom {b : Buffer} {length s : ℕ} :
    ∀ c ∈ chunksFrom b length s, ∃ t < length, c = slice b t (cutEnd b length t) ++ [0] := by
  fun_induction chunksFrom b length s with
  | case1 s hlt ih =>
      intro c hc
      rcases List.mem_cons.1 hc with rfl | hc
      · exact ⟨s, hlt, by rw [runCDC_eq]⟩
      · exact ih c hc
  | case2 s hge => simp

/-! ### What `runApp` does to a packet -/

section Kernel

variable (lzw_hw_streams : List UInt8 → ℕ → List UInt8)

theorem foldl_processChunk_frame (cs : List (List UInt8)) (st : AppState) (b : Buffer)
    (n p i : ℕ) :
    cs.foldl (processChunk lzw_hw_streams) (st.frame b n p i)
      = (cs.foldl (processChunk lzw_hw_streams) st).frame b n p i := by
  induction cs generalizing st with
  | nil => rfl
  | cons c cs ih => rw [List.foldl_cons, List.foldl_cons, processChunk_frame, ih]

/-- The loop of `runApp` processes the chunks cut from the current position on. -/
theorem appLoop_eq (st : AppState) (h : st.lastChunkIdx = st.packetTracker) :
    appLoop lzw_hw_streams st
      = ((chunksFrom st.inputBuf st.length st.packetTracker).foldl
          (processChunk lzw_hw_streams) st).frame st.inputBuf st.length
            (endFrom st.inputBuf st.length st.packetTracker)
            (endFrom st.inputBuf st.length st.packetTracker) := by
  fun_induction appLoop lzw_hw_streams st with
  | case1 st hlt ih =>
      obtain ⟨e, hend, hround⟩ := appRound_eq lzw_hw_streams st
      rw [h] at hend hround
      obtain rfl := hend.unique (isChunkEnd_cutEnd _ _ _)
      have hcut := window_le_cutEnd st.inputBuf st.length st.packetTracker
      have hpos : st.packetTracker + (cutEnd st.inputBuf st.length st.packetTracker
          - st.packetTracker) = cutEnd st.inputBuf st.length st.packetTracker := by omega
      rw [hpos] at hround
      rw [hround] at ih ⊢
      rw [ih rfl, chunksFrom_of_lt hlt, endFrom_of_lt hlt, List.foldl_cons,
        foldl_processChunk_frame]
      simp only [frame_frame, frame_inputBuf, frame_length, frame_packetTracker]
  | case2 st hge =>
      have hle := Nat.le_of_not_lt hge
      rw [chunksFrom_of_le hle, endFrom_of_le hle]
      have hself := frame_self st
      rw [h] at hself
      rw [List.foldl_nil, hself]

/-- What `runApp` does to a packet. -/
theorem runApp_eq (b : Buffer) (length : ℕ) (st : AppState) :
    runApp lzw_hw_streams b length st
      = ((chunksFrom b length 0).foldl (processChunk lzw_hw_streams) st).frame b length
          (endFrom b length 0) (endFrom b length 0) := by
  rw [runApp, appLoop_eq _ _ rfl, enter, foldl_processChunk_frame]
  simp only [frame_frame, frame_inputBuf, frame_length, frame_packetTracker]

theorem processChunk_chunks (st : AppState) (chunk : List UInt8) :
    (processChunk lzw_hw_streams st chunk).chunks = st.chunks ++ [chunk] := by
  unfold processChunk
  dsimp only
  split <;> rfl

theorem foldl_processChunk_chunks (cs : List (List UInt8)) (st : AppState) :
    (cs.foldl (processChunk lzw_hw_streams) st).chunks = st.chunks ++ cs := by
  induction cs generalizing st with
  | nil => simp
  | cons c cs ih => rw [List.foldl_cons, ih, processChunk_chunks, List.append_assoc]; rfl

/-- The chunks of a packet. -/
theorem runApp_chunks (b : Buffer) (length : ℕ) (st : AppState) :
    (runApp lzw_hw_streams b length st).chunks = st.chunks ++ chunksFrom b length 0 := by
  rw [runApp_eq, frame_chunks, foldl_processChunk_chunks]

/-- The chunks of a sequence of packets. -/
theorem runPackets_chunks (packets : List (Buffer × ℕ)) :
    (runPackets lzw_hw_streams packets).chunks
      = packets.flatMap fun packet => chunksFrom packet.1 packet.2 0 := by
  induction packets using List.reverseRecOn with
  | nil => rfl
  | append_singleton packets packet ih =>
      rw [runPackets_concat, runApp_chunks, ih, List.flatMap_append, List.flatMap_singleton]

theorem runApp_packetTracker (b : Buffer) (length : ℕ) (st : AppState) :
    (runApp lzw_hw_streams b length st).packetTracker = endFrom b length 0 := by
  rw [runApp_eq, frame_packetTracker]

end Kernel

/-! ### Where the last chunk ends -/

/-- The content cuts of a buffer: the start, and after each of them the first hit. -/
inductive Boundary (b : Buffer) : ℕ → Prop
  /-- The start of the buffer. -/
  | start : Boundary b 0
  /-- The first hit after the first window of a chunk. -/
  | cut {s e : ℕ} : Boundary b s → s + 12 ≤ e → Hit b s e →
      (∀ i, s + 12 ≤ i → i < e → ¬ Hit b s i) → Boundary b e

/-- The chunks cut from a packet of this length end where the packet ends: it has at least a window,
and no content cut lies strictly between the last window and the one before it. -/
def ExactFit (b : Buffer) (length : ℕ) : Prop :=
  12 ≤ length ∧ ∀ e, Boundary b e → e + 12 < length → e + 24 ≤ length

/-- Before the last two windows, `runCDC` cuts at content cuts. -/
theorem cutEnd_of_hit {b : Buffer} {length s e : ℕ} (hwin : s + 12 ≤ e) (hhit : Hit b s e)
    (hleast : ∀ i, s + 12 ≤ i → i < e → ¬ Hit b s i) (hroom : e + 12 < length) :
    cutEnd b length s = e := by
  refine (isChunkEnd_cutEnd b length s).unique ⟨hwin, Or.inr hhit, fun i hi hlt => ?_⟩
  exact ⟨by omega, hleast i hi hlt⟩

/-- Once at most two windows are left, only the first window of the chunk is copied. -/
theorem cutEnd_of_short {b : Buffer} {length s : ℕ} (h : length ≤ s + 24) :
    cutEnd b length s = s + 12 := by
  refine (isChunkEnd_cutEnd b length s).unique ⟨le_rfl, Or.inl (by omega), fun i hi hlt => ?_⟩
  omega

/-- A packet of one window is one chunk. -/
theorem chunksFrom_window (b : Buffer) : chunksFrom b 12 0 = [slice b 0 12 ++ [0]] := by
  rw [chunksFrom_of_lt (by decide), cutEnd_of_short (by decide), chunksFrom_of_le (by decide)]

/-- Otherwise the chunk ends at a content cut, or one window before the end of the packet. -/
theorem cutEnd_cases {b : Buffer} {length s : ℕ} (hs : Boundary b s) (h : s + 24 ≤ length) :
    Boundary b (cutEnd b length s) ∧ cutEnd b length s + 12 < length ∨
      cutEnd b length s + 12 = length := by
  have hend := isChunkEnd_cutEnd b length s
  rcases Nat.lt_or_ge (cutEnd b length s + 12) length with hlt | hge
  · refine Or.inl ⟨hs.cut hend.window ?_ fun i hi hi' => (hend.least i hi hi').2, hlt⟩
    exact hend.stop.resolve_left (by omega)
  · refine Or.inr ?_
    by_contra hne
    -- the position a window before the end already stops the loop
    have hbefore := hend.least (length - 12) (by omega) (by omega)
    omega

/-- The run reaches every content cut before the last window. -/
theorem endFrom_boundary {b : Buffer} {length e : ℕ} (he : Boundary b e) (h : e + 12 < length) :
    endFrom b length 0 = endFrom b length e := by
  induction he with
  | start => rfl
  | cut hs hwin hhit hleast ih =>
      rw [ih (by omega), endFrom_of_lt (by omega), cutEnd_of_hit hwin hhit hleast h]

/-- The chunks cut from a content cut on are the last chunks of the packet. -/
theorem chunksFrom_boundary {b : Buffer} {length e : ℕ} (he : Boundary b e) (h : e + 12 < length) :
    chunksFrom b length e <:+ chunksFrom b length 0 := by
  induction he with
  | start => exact List.suffix_refl _
  | @cut s e hs hwin hhit hleast ih =>
      have hlt : s < length := by omega
      refine List.IsSuffix.trans ?_ (ih (by omega))
      rw [chunksFrom_of_lt hlt, cutEnd_of_hit hwin hhit hleast h]
      exact List.suffix_cons _ _

/-- A property of all chunks of a packet is one of the chunks that start at content cuts, if single
windows have it: the other chunks are single windows. -/
theorem forall_chunksFrom_iff (P : List UInt8 → Prop) {b : Buffer}
    (hwindow : ∀ s, P (slice b s (s + 12) ++ [0])) (length : ℕ) :
    (∀ c ∈ chunksFrom b length 0, P c) ↔
      ∀ s, Boundary b s → s + 12 < length → P (slice b s (cutEnd b length s) ++ [0]) := by
  constructor
  · intro hall s hs hroom
    refine hall _ ((chunksFrom_boundary hs hroom).subset ?_)
    rw [chunksFrom_of_lt (by omega)]
    exact List.mem_cons_self
  · intro hcuts
    have hfrom : ∀ s, Boundary b s ∨ length ≤ s + 24 → ∀ c ∈ chunksFrom b length s, P c := by
      intro s
      fun_induction chunksFrom b length s with
      | case1 s hlt ih =>
          intro hs c hc
          have hstep : P (slice b s (cutEnd b length s) ++ [0]) ∧
              (Boundary b (cutEnd b length s) ∨ length ≤ cutEnd b length s + 24) := by
            rcases Nat.lt_or_ge length (s + 24) with hshort | hroom
            · rw [cutEnd_of_short (by omega)]
              exact ⟨hwindow s, Or.inr (by omega)⟩
            · rcases hs with hs | hs
              · refine ⟨hcuts s hs (by omega), ?_⟩
                rcases cutEnd_cases hs hroom with hnext | hlast
                · exact Or.inl hnext.1
                · exact Or.inr (by omega)
              · rw [cutEnd_of_short hs]
                exact ⟨hwindow s, Or.inr (by omega)⟩
          rcases List.mem_cons.1 hc with rfl | hc
          · rw [runCDC_eq]
            exact hstep.1
          · exact ih hstep.2 c hc
      | case2 s hge => simp
    exact hfrom 0 (Or.inl Boundary.start)

/-- A packet of less than a window is extended to one. -/
theorem endFrom_of_short {b : Buffer} {length : ℕ} (hpos : 1 ≤ length) (h : length ≤ 12) :
    endFrom b length 0 = 12 := by
  rw [endFrom_of_lt hpos, cutEnd_of_short (by omega), endFrom_of_le (by omega)]

/-- From a content cut between the last two windows of a packet, two more windows are copied. -/
theorem endFrom_of_cut {b : Buffer} {length e : ℕ} (he : Boundary b e) (hroom : e + 12 < length)
    (h : length ≤ e + 24) : endFrom b length 0 = e + 24 := by
  rw [endFrom_boundary he hroom, endFrom_of_lt (by omega), cutEnd_of_short (by omega),
    endFrom_of_lt (by omega), cutEnd_of_short (by omega), endFrom_of_le (by omega)]

/-- From a content cut before the last window, the chunks of a packet that fits end exactly. -/
theorem endFrom_of_fit {b : Buffer} {length : ℕ}
    (hfit : ∀ e, Boundary b e → e + 12 < length → e + 24 ≤ length) (s : ℕ)
    (hs : Boundary b s ∧ s + 12 < length ∨ s + 12 = length) : endFrom b length s = length := by
  fun_induction endFrom b length s with
  | case1 s hlt ih =>
      rcases hs with ⟨hbound, hroom⟩ | hlast
      · exact ih (cutEnd_cases hbound (hfit s hbound hroom))
      · rw [cutEnd_of_short (by omega), hlast, endFrom_of_le le_rfl]
  | case2 s hge => omega

/-- When the last chunk ends where the packet ends. -/
theorem endFrom_eq_iff {b : Buffer} {length : ℕ} (hpos : 1 ≤ length) :
    endFrom b length 0 = length ↔ ExactFit b length := by
  constructor
  · intro hend
    refine ⟨?_, fun e he hroom => ?_⟩
    · by_contra hlt
      rw [endFrom_of_short hpos (by omega)] at hend
      omega
    · by_contra hlt
      rw [endFrom_of_cut he hroom (by omega)] at hend
      omega
  · rintro ⟨hwindow, hfit⟩
    refine endFrom_of_fit hfit 0 ?_
    rcases Nat.lt_or_ge 12 length with hlt | hge
    · exact Or.inl ⟨Boundary.start, by omega⟩
    · exact Or.inr (by omega)

/-- The bytes behind the packet that are copied into its chunks. -/
theorem lt_endFrom_iff {b : Buffer} {length j : ℕ} (hpos : 1 ≤ length) (hj : length ≤ j) :
    j < endFrom b length 0 ↔ j < 12 ∨ ∃ e, Boundary b e ∧ e + 12 < length ∧ j < e + 24 := by
  constructor
  · intro hlt
    have hnot : ¬ ExactFit b length := by
      rw [← endFrom_eq_iff hpos]
      omega
    rcases Nat.lt_or_ge length 12 with hshort | hlong
    · rw [endFrom_of_short hpos hshort.le] at hlt
      exact Or.inl hlt
    · have hcut : ∃ e, Boundary b e ∧ e + 12 < length ∧ length < e + 24 := by
        by_contra hnone
        push Not at hnone
        exact hnot ⟨hlong, fun e he hroom => hnone e he hroom⟩
      obtain ⟨e, he, hroom, hend⟩ := hcut
      rw [endFrom_of_cut he hroom hend.le] at hlt
      exact Or.inr ⟨e, he, hroom, hlt⟩
  · rintro (hshort | ⟨e, he, hroom, hlt⟩)
    · rw [endFrom_of_short hpos (by omega)]
      exact hshort
    · rw [endFrom_of_cut he hroom (by omega)]
      exact hlt

/-! ### Partitions -/

/-- The chunks of a packet are a partition of its bytes exactly when it fits: then and only then the
payloads concatenate to the packet and `packetTracker` ends at its length. -/
theorem partition_iff (lzw_hw_streams : List UInt8 → ℕ → List UInt8) (b : Buffer) {length : ℕ}
    (hpos : 1 ≤ length) (st : AppState) :
    (∃ cs, (runApp lzw_hw_streams b length st).chunks = st.chunks ++ cs ∧
        (cs.map List.dropLast).flatten = slice b 0 length ∧
        (runApp lzw_hw_streams b length st).packetTracker = length) ↔ ExactFit b length := by
  rw [← endFrom_eq_iff hpos, runApp_packetTracker, runApp_chunks]
  constructor
  · rintro ⟨_, _, _, htracker⟩
    exact htracker
  · intro hend
    exact ⟨_, rfl, by rw [flatten_payloads, hend], hend⟩

/-- A packet of two windows fits: the only content cut before the last one is the start. -/
theorem exactFit_windows (b : Buffer) : ExactFit b 24 := by
  refine ⟨by decide, fun e he hroom => ?_⟩
  cases he with
  | start => exact le_rfl
  | cut _ hwin _ _ => omega

/-- A packet of two windows is partitioned. -/
theorem partition_iff_windows :
    ∃ cs, (runApp (runLzwKernel false) (fun _ => 7) 24 AppState.init).chunks
          = AppState.init.chunks ++ cs ∧
        (cs.map List.dropLast).flatten = slice (fun _ => 7) 0 24 ∧
        (runApp (runLzwKernel false) (fun _ => 7) 24 AppState.init).packetTracker = 24 :=
  (partition_iff (runLzwKernel false) (fun _ => 7) (by decide) AppState.init).2
    (exactFit_windows _)

/-- A packet of one byte is cut into a chunk of twelve. -/
theorem short_packet_not_partition :
    ¬ ∃ cs, (runApp (runLzwKernel false) (fun _ => 7) 1 AppState.init).chunks
          = AppState.init.chunks ++ cs ∧
        (cs.map List.dropLast).flatten = slice (fun _ => 7) 0 1 ∧
        (runApp (runLzwKernel false) (fun _ => 7) 1 AppState.init).packetTracker = 1 := by
  rintro ⟨_, _, _, htracker⟩
  rw [runApp_packetTracker, endFrom_of_short (by decide) (by decide)] at htracker
  exact absurd htracker (by decide)

end App

end DedupLzw
