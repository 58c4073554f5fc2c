/-
**The decoder on arbitrary files.**

Nothing checks a file before it is decoded.  The headers alone say which records the main loop comes
to, as long as it comes past those before; what happens to it is decided by the sizes and the codes
of these records:

* if some record has a code that is not an entry of the table when it is needed, the first such
  record makes the program leave its table;
* if not, but some record announces the size 0, `Decompress (0)` reads one bits past the end of the
  file for ever;
* if there is no such record either, the loop ends.

Main definitions:

* `DedupLzw.Decoder.chunkRecords` — the compressed chunks of a file;
* `DedupLzw.Decoder.StaysInTable` — the indices are inside the table in all rounds of all calls.

Main results:

* `DedupLzw.Decoder.comesTo_records` — what the main loop comes to;
* `DedupLzw.Decoder.staysInTable_iff` — **exactly when the table is not left**;
* `DedupLzw.Decoder.main_ends_iff` — **exactly when the decoder ends, and when it does not**.
-/

import DedupLzw.RawCodes

set_option relaxedAutoImplicit false
set_option autoImplicit false

namespace DedupLzw

namespace Decoder

open FuelLoop Relation

/-! ### The records of a file -/

/-- The header in four bytes. -/
def headerOf (b₀ b₁ b₂ b₃ : UInt8) : BitVec 32 :=
  b₃.toBitVec ++ b₂.toBitVec ++ b₁.toBitVec ++ b₀.toBitVec

/-- The compressed chunks that the main loop comes to, each with its size and the bytes behind its
header: no record is come to behind one of size 0. -/
def chunkRecords : List UInt8 → List (ℕ × List UInt8)
  | b₀ :: b₁ :: b₂ :: b₃ :: bytes =>
      if headerOf b₀ b₁ b₂ b₃ &&& 1 = 0 then
        if (headerOf b₀ b₁ b₂ b₃ >>> 1).toNat = 0 then [(0, bytes)]
        else ((headerOf b₀ b₁ b₂ b₃ >>> 1).toNat, bytes) :: chunkRecords
          (bytes.drop ((13 * codeCount (headerOf b₀ b₁ b₂ b₃ >>> 1).toNat + 7) / 8))
      else chunkRecords bytes
  | _ => []
termination_by file => file.length
decreasing_by
  · simp only [List.length_drop, List.length_cons]
    omega
  · simp only [List.length_cons]
    omega

theorem size_lt (Header : BitVec 32) : (Header >>> 1).toNat < 2 ^ 31 := by
  rw [BitVec.toNat_ushiftRight, Nat.shiftRight_eq_div_pow]
  omega

/-! ### One iteration -/

/-- A stream at its end, or with fewer bytes than a header. -/
theorem readHeader_short {s : Stream} (h : s.eof = true ∨ s.bytes.length < 4) :
    s.readHeader = (0, ⟨[], true⟩) := by
  rcases s with ⟨bytes, eof⟩
  rcases eof with _ | _
  · match bytes with
    | [] => rfl
    | [_] => rfl
    | [_, _] => rfl
    | [_, _, _] => rfl
    | _ :: _ :: _ :: _ :: _ =>
        simp only [List.length_cons, Bool.false_eq_true, false_or] at h
        omega
  · rfl

/-- The main loop ends. -/
theorem comesTo_end {st : MainState} (h : st.Input.eof = true ∨ st.Input.bytes.length < 4) :
    ComesTo (fun fuel => mainBody fuel st) (.done (.stop { st with Input := ⟨[], true⟩ })) := by
  simp only [mainBody, readHeader_short h, if_true]
  exact comesTo_const _

section Iteration

variable {st : MainState} {b₀ b₁ b₂ b₃ : UInt8} {bytes : List UInt8}

theorem readHeader_cons (h : st.Input = ⟨b₀ :: b₁ :: b₂ :: b₃ :: bytes, false⟩) :
    st.Input.readHeader = (headerOf b₀ b₁ b₂ b₃, ⟨bytes, false⟩) := by
  rw [h]
  rfl

/-- A reference to an earlier chunk. -/
theorem comesTo_reference (h : st.Input = ⟨b₀ :: b₁ :: b₂ :: b₃ :: bytes, false⟩)
    (hodd : headerOf b₀ b₁ b₂ b₃ &&& 1 ≠ 0) :
    ∃ st', ComesTo (fun fuel => mainBody fuel st) (.done (.again st')) ∧
      st'.Input = ⟨bytes, false⟩ := by
  refine ⟨{ st with
    Input := ⟨bytes, false⟩
    Output := st.Output ++ st.Chunks.getD (headerOf b₀ b₁ b₂ b₃ >>> 1).toNat []
    events := st.events ++ [.reference (headerOf b₀ b₁ b₂ b₃ >>> 1).toNat bytes.length] }, ?_, rfl⟩
  simp only [mainBody, readHeader_cons h, hodd, Bool.false_eq_true, if_false]
  exact comesTo_const _

/-- What the call of `Decompress` comes to, the iteration comes to. -/
theorem mainBody_chunk (h : st.Input = ⟨b₀ :: b₁ :: b₂ :: b₃ :: bytes, false⟩)
    (heven : headerOf b₀ b₁ b₂ b₃ &&& 1 = 0) (fuel : ℕ) :
    mainBody fuel st =
      (Decompress (headerOf b₀ b₁ b₂ b₃ >>> 1).toNat ⟨⟨bytes, false⟩, 0, st.Byte⟩ fuel).andThen
        fun (Chunk, r) => .done (.again
          { Input := r.Input, Byte := r.Byte, Chunks := st.Chunks ++ [Chunk],
            Output := st.Output ++ Chunk
            events := st.events ++
              [.chunk (headerOf b₀ b₁ b₂ b₃ >>> 1).toNat r.Input.bytes.length] }) := by
  simp only [mainBody, readHeader_cons h, heven, Bool.false_eq_true, if_false, if_true]

/-- A chunk whose codes are entries of the table. -/
theorem comesTo_chunk (h : st.Input = ⟨b₀ :: b₁ :: b₂ :: b₃ :: bytes, false⟩)
    (heven : headerOf b₀ b₁ b₂ b₃ &&& 1 = 0) (hpos : (headerOf b₀ b₁ b₂ b₃ >>> 1).toNat ≠ 0)
    (hcodes : CodesInTable (headerOf b₀ b₁ b₂ b₃ >>> 1).toNat bytes) :
    ∃ st', ComesTo (fun fuel => mainBody fuel st) (.done (.again st')) ∧
      st'.Input.bytes
        = bytes.drop ((13 * codeCount (headerOf b₀ b₁ b₂ b₃ >>> 1).toNat + 7) / 8) ∧
      (st'.Input.eof = true → st'.Input.bytes = []) := by
  obtain ⟨out, r', hcall, hat⟩ :=
    comesTo_done (r := ⟨⟨bytes, false⟩, 0, st.Byte⟩) rfl (size_lt _) hpos hcodes
  refine ⟨{
      Input := r'.Input, Byte := r'.Byte, Chunks := st.Chunks ++ [out], Output := st.Output ++ out
      events := st.events ++
        [.chunk (headerOf b₀ b₁ b₂ b₃ >>> 1).toNat r'.Input.bytes.length] },
    ?_, hat.rest, fun heof => ?_⟩
  · simp only [mainBody_chunk h heven]
    exact hcall.andThen (comesTo_const _)
  · have hend := hat.eof
    have heof' : r'.Input.eof = true := heof
    rw [heof', eq_comm, decide_eq_true_eq] at hend
    exact hat.rest.trans (List.drop_of_length_le hend.le)

/-- A chunk of size 0 whose codes are entries of the table. -/
theorem comesTo_empty (h : st.Input = ⟨b₀ :: b₁ :: b₂ :: b₃ :: bytes, false⟩)
    (heven : headerOf b₀ b₁ b₂ b₃ &&& 1 = 0) (hzero : (headerOf b₀ b₁ b₂ b₃ >>> 1).toNat = 0)
    (hcodes : CodesInTable 0 bytes) : ComesTo (fun fuel => mainBody fuel st) .running := by
  simp only [mainBody_chunk h heven, hzero]
  exact (comesTo_running rfl hcodes).andThen_running _

/-- A chunk with a code outside the table. -/
theorem comesTo_outside (h : st.Input = ⟨b₀ :: b₁ :: b₂ :: b₃ :: bytes, false⟩)
    (heven : headerOf b₀ b₁ b₂ b₃ &&& 1 = 0)
    (hcodes : ¬ CodesInTable (headerOf b₀ b₁ b₂ b₃ >>> 1).toNat bytes) :
    ComesTo (fun fuel => mainBody fuel st) .stuck := by
  simp only [mainBody_chunk h heven]
  exact (comesTo_stuck rfl (size_lt _) hcodes).andThen_stuck _

end Iteration

/-! ### The main loop -/

/-- All codes of the chunks are entries of the table when they are needed. -/
def AllInTable (records : List (ℕ × List UInt8)) : Prop := ∀ c ∈ records, CodesInTable c.1 c.2

/-- No chunk has the size 0. -/
def NoneEmpty (records : List (ℕ × List UInt8)) : Prop := ∀ c ∈ records, c.1 ≠ 0

/-- The outcome of the main loop over the given chunks. -/
structure EndsAs (records : List (ℕ × List UInt8)) (o : Outcome MainState) : Prop where
  done : (∃ ms, o = .done ms) ↔ AllInTable records ∧ NoneEmpty records
  running : o = .running ↔ AllInTable records ∧ ¬ NoneEmpty records

theorem endsAs_stuck {records : List (ℕ × List UInt8)} (h : ¬ AllInTable records) :
    EndsAs records .stuck where
  done := iff_of_false (by simp) fun hall => h hall.1
  running := iff_of_false (by simp) fun hall => h hall.1

/-- A chunk whose codes are entries of the table does not change the outcome. -/
theorem EndsAs.cons {records : List (ℕ × List UInt8)} {o : Outcome MainState}
    (h : EndsAs records o) {c : ℕ × List UInt8} (hpos : c.1 ≠ 0) (hc : CodesInTable c.1 c.2) :
    EndsAs (c :: records) o := by
  have hall : AllInTable (c :: records) ↔ AllInTable records := by
    simp [AllInTable, hc]
  have hnone : NoneEmpty (c :: records) ↔ NoneEmpty records := by
    simp [NoneEmpty, hpos]
  exact ⟨by rw [hall, hnone]; exact h.done, by rw [hall, hnone]; exact h.running⟩

/-- The bytes of the file that are left before an iteration; the stream may have been read past its
end. -/
structure Left (file : List UInt8) (st : MainState) : Prop where
  bytes : st.Input.bytes = file
  eof : st.Input.eof = true → file = []

theorem Left.input {file : List UInt8} {st : MainState} (h : Left file st) (hne : file ≠ []) :
    st.Input = ⟨file, false⟩ := by
  have hfalse : st.Input.eof = false := by
    rw [← Bool.not_eq_true]
    exact fun heof => hne (h.eof heof)
  rw [← h.bytes, ← hfalse]

theorem left_of_input {file : List UInt8} {st : MainState} (h : st.Input = ⟨file, false⟩) :
    Left file st := ⟨by rw [h], by simp [h]⟩

/-- A file without a header ends the loop. -/
theorem Left.short {file : List UInt8} {st : MainState} (h : Left file st)
    (hshort : ∀ b₀ b₁ b₂ b₃ bytes, file ≠ b₀ :: b₁ :: b₂ :: b₃ :: bytes) :
    st.Input.eof = true ∨ st.Input.bytes.length < 4 := by
  right
  rw [h.bytes]
  match file, hshort with
  | [], _ => decide
  | [_], _ => simp
  | [_, _], _ => simp
  | [_, _, _], _ => simp
  | b₀ :: b₁ :: b₂ :: b₃ :: bytes, hshort => exact absurd rfl (hshort b₀ b₁ b₂ b₃ bytes)

/-- What the main loop comes to. -/
theorem comesTo_records (file : List UInt8) {st : MainState} (h : Left file st) :
    ∃ o, ComesTo (fun fuel => iterate mainBody fuel st) o ∧ EndsAs (chunkRecords file) o := by
  fun_induction chunkRecords file generalizing st with
  | case1 b₀ b₁ b₂ b₃ bytes heven hzero =>
      -- a chunk of size 0
      have hin := h.input (by simp)
      by_cases hcodes : CodesInTable 0 bytes
      · refine ⟨.running, comesTo_body_running (comesTo_empty hin heven hzero hcodes), ?_, ?_⟩
        · exact iff_of_false (by simp) fun hall => hall.2 _ (List.mem_singleton_self _) rfl
        · refine iff_of_true rfl ⟨fun c hc => ?_, fun hnone => ?_⟩
          · rwa [List.mem_singleton.1 hc]
          · exact hnone _ (List.mem_singleton_self _) rfl
      · refine ⟨.stuck, comesTo_body_stuck (comesTo_outside hin heven ?_), endsAs_stuck ?_⟩
        · rwa [hzero]
        · exact fun hall => hcodes (hall _ (List.mem_singleton_self _))
  | case2 b₀ b₁ b₂ b₃ bytes heven hpos ih =>
      have hin := h.input (by simp)
      by_cases hcodes : CodesInTable (headerOf b₀ b₁ b₂ b₃ >>> 1).toNat bytes
      · obtain ⟨st', hst', hrest, hend⟩ := comesTo_chunk hin heven hpos hcodes
        obtain ⟨o, ho, hends⟩ := ih ⟨hrest, fun heof => hrest ▸ hend heof⟩
        exact ⟨o, comesTo_again hst' ho, hends.cons hpos hcodes⟩
      · exact ⟨.stuck, comesTo_body_stuck (comesTo_outside hin heven hcodes),
          endsAs_stuck fun hall => hcodes (hall _ List.mem_cons_self)⟩
  | case3 b₀ b₁ b₂ b₃ bytes hodd ih =>
      obtain ⟨st', hst', hin'⟩ := comesTo_reference (h.input (by simp)) hodd
      obtain ⟨o, ho, hends⟩ := ih (left_of_input hin')
      exact ⟨o, comesTo_again hst' ho, hends⟩
  | case4 file hshort =>
      refine ⟨_, comesTo_stop (comesTo_end (h.short hshort)), ?_, ?_⟩
      · exact iff_of_true ⟨_, rfl⟩ ⟨by simp [AllInTable], by simp [NoneEmpty]⟩
      · exact iff_of_false (by simp) fun hall => hall.2 (by simp [NoneEmpty])

/-! ### Indices -/

/-- One iteration of the main loop is finished and another one follows. -/
def Iterates (st st' : MainState) : Prop := Exits (fun fuel => mainBody fuel st) (.again st')

/-- If the iteration from `st` calls `Decompress` with a size of at least 1, the indices are inside
the table in all rounds of its loop. -/
def CallInTable (st : MainState) : Prop :=
  ∀ Header Input, st.Input.readHeader = (Header, Input) → Input.eof = false → Header &&& 1 = 0 →
    1 ≤ (Header >>> 1).toNat → ∀ n t,
    RoundsTo (Header >>> 1).toNat (decompressStart ⟨Input, 0, st.Byte⟩) n t →
    loopTest (Header >>> 1).toNat t.reader.Input_position = true → IndicesInTable t

/-- The indices are inside the table in all calls that the main loop makes on a file. -/
def StaysInTable (file : List UInt8) : Prop :=
  ∀ st, ReflTransGen Iterates ⟨⟨file, false⟩, 0, [], [], []⟩ st → CallInTable st

theorem Iterates.unique {st st₁ st₂ : MainState} (h₁ : Iterates st st₁) (h₂ : Iterates st st₂) :
    st₁ = st₂ := Next.again.inj (Exits.unique h₁ h₂)

/-- The iterations of a run are the first one and those of the rest of the run. -/
theorem forall_iterates_iff {st : MainState} {P : MainState → Prop} :
    (∀ st', ReflTransGen Iterates st st' → P st') ↔
      P st ∧ ∀ st₁, Iterates st st₁ → ∀ st', ReflTransGen Iterates st₁ st' → P st' := by
  constructor
  · exact fun h => ⟨h st ReflTransGen.refl, fun st₁ h₁ st' h' => h st' (h'.head h₁)⟩
  · rintro ⟨hst, hrest⟩ st' h'
    rcases h'.cases_head with rfl | ⟨st₁, h₁, htail⟩
    · exact hst
    · exact hrest st₁ h₁ st' htail

theorem forall_iterates_of {st st₁ : MainState} (h : Iterates st st₁) {P : MainState → Prop} :
    (∀ st', ReflTransGen Iterates st st' → P st') ↔
      P st ∧ ∀ st', ReflTransGen Iterates st₁ st' → P st' := by
  rw [forall_iterates_iff]
  refine and_congr_right fun _ => ⟨fun hall => hall st₁ h, fun hst₁ st₂ h₂ => ?_⟩
  rwa [← h.unique h₂]

theorem forall_iterates_of_none {st : MainState} (h : ∀ st₁, ¬ Iterates st st₁)
    {P : MainState → Prop} : (∀ st', ReflTransGen Iterates st st' → P st') ↔ P st := by
  rw [forall_iterates_iff]
  exact and_iff_left fun st₁ h₁ => absurd h₁ (h st₁)

/-- An iteration that does not call `Decompress` with a size of at least 1. -/
theorem callInTable_of_even {st : MainState} {b₀ b₁ b₂ b₃ : UInt8} {bytes : List UInt8}
    (hin : st.Input = ⟨b₀ :: b₁ :: b₂ :: b₃ :: bytes, false⟩)
    (h : headerOf b₀ b₁ b₂ b₃ &&& 1 = 0 → (headerOf b₀ b₁ b₂ b₃ >>> 1).toNat = 0) :
    CallInTable st := by
  intro Header Input hread _ heven hpos
  rw [readHeader_cons hin, Prod.mk.injEq] at hread
  obtain ⟨rfl, rfl⟩ := hread
  have := h heven
  omega

theorem callInTable_iff {st : MainState} {b₀ b₁ b₂ b₃ : UInt8} {bytes : List UInt8}
    (hin : st.Input = ⟨b₀ :: b₁ :: b₂ :: b₃ :: bytes, false⟩)
    (heven : headerOf b₀ b₁ b₂ b₃ &&& 1 = 0) (hpos : (headerOf b₀ b₁ b₂ b₃ >>> 1).toNat ≠ 0) :
    CallInTable st ↔ CodesInTable (headerOf b₀ b₁ b₂ b₃ >>> 1).toNat bytes := by
  rw [← indicesInTable_iff (r := ⟨⟨bytes, false⟩, 0, st.Byte⟩) rfl (size_lt _) hpos]
  constructor
  · exact fun h => h _ _ (readHeader_cons hin) rfl heven (by omega)
  · intro h Header Input hread _ _ _
    rw [readHeader_cons hin, Prod.mk.injEq] at hread
    obtain ⟨rfl, rfl⟩ := hread
    exact h

/-- An iteration that comes to something else than another one has no successor. -/
theorem not_iterates_of_comesTo {st : MainState} {o : Outcome (Next MainState MainState)}
    (h : ComesTo (fun fuel => mainBody fuel st) o) (ho : ∀ st₁, o ≠ .done (.again st₁)) :
    ∀ st₁, ¬ Iterates st st₁ := fun st₁ h₁ => ho st₁ (h.eq_done h₁)

/-- The indices along the main loop. -/
theorem callsInTable_iff (file : List UInt8) {st : MainState} (h : Left file st) :
    (∀ st', ReflTransGen Iterates st st' → CallInTable st') ↔
      ∀ c ∈ chunkRecords file, c.1 ≠ 0 → CodesInTable c.1 c.2 := by
  fun_induction chunkRecords file generalizing st with
  | case1 b₀ b₁ b₂ b₃ bytes heven hzero =>
      have hin := h.input (by simp)
      have hnone : ∀ st₁, ¬ Iterates st st₁ := by
        -- `Decompress (0)` does not return
        rintro st₁ ⟨n, hn⟩
        have hdone : mainBody n st = .done (.again st₁) := hn n le_rfl
        rw [mainBody_chunk hin heven, hzero, Outcome.andThen_eq_done] at hdone
        obtain ⟨res, hres, _⟩ := hdone
        exact Decompress_zero _ _ _ hres
      rw [forall_iterates_of_none hnone]
      exact iff_of_true (callInTable_of_even hin fun _ => hzero) (by simp)
  | case2 b₀ b₁ b₂ b₃ bytes heven hpos ih =>
      have hin := h.input (by simp)
      by_cases hcodes : CodesInTable (headerOf b₀ b₁ b₂ b₃ >>> 1).toNat bytes
      · obtain ⟨st', hst', hrest, hend⟩ := comesTo_chunk hin heven hpos hcodes
        rw [forall_iterates_of hst'.exits, callInTable_iff hin heven hpos, List.forall_mem_cons,
          ih ⟨hrest, fun heof => hrest ▸ hend heof⟩]
        exact and_congr_left fun _ => iff_of_true hcodes fun _ => hcodes
      · refine iff_of_false (fun hall => ?_) fun hall => ?_
        · exact hcodes ((callInTable_iff hin heven hpos).1 (hall st ReflTransGen.refl))
        · exact hcodes (hall _ List.mem_cons_self hpos)
  | case3 b₀ b₁ b₂ b₃ bytes hodd ih =>
      have hin := h.input (by simp)
      obtain ⟨st', hst', hin'⟩ := comesTo_reference hin hodd
      rw [forall_iterates_of hst'.exits, ih (left_of_input hin')]
      exact and_iff_right (callInTable_of_even hin fun heven => absurd heven hodd)
  | case4 file hshort =>
      have hend := h.short hshort
      rw [forall_iterates_of_none (not_iterates_of_comesTo (comesTo_end hend) (by simp))]
      refine iff_of_true (fun Header Input hread heof => ?_) (by simp)
      rw [readHeader_short hend, Prod.mk.injEq] at hread
      rw [← hread.2] at heof
      exact absurd heof (by simp)

/-! ### Arbitrary files -/

theorem left_start (file : List UInt8) : Left file ⟨⟨file, false⟩, 0, [], [], []⟩ :=
  left_of_input rfl

/-- The decoder never indexes outside its table on a file exactly when, in every compressed chunk of
a size of at least 1 that it comes to, every code with another one behind it is an entry of the
table by then: the code `m` is below `256 + m`. -/
theorem staysInTable_iff (file : List UInt8) :
    StaysInTable file ↔ ∀ c ∈ chunkRecords file, c.1 ≠ 0 →
      ∀ m, m + 1 < codeCount c.1 → codeAt c.2 m < 256 + m := by
  have hcodes : ∀ c : ℕ × List UInt8, c.1 ≠ 0 → (CodesInTable c.1 c.2 ↔
      ∀ m, m + 1 < codeCount c.1 → codeAt c.2 m < 256 + m) := by
    intro c hpos
    simp only [CodesInTable, GoesOn, hpos, false_or]
  rw [StaysInTable, callsInTable_iff file (left_start file)]
  exact forall₂_congr fun c _ => forall_congr' fun hpos => hcodes c hpos

/-- A chunk of three bytes 0xFF: its first code is 8191. -/
theorem ones_leave_table : ¬ StaysInTable [6, 0, 0, 0, 255, 255, 255] := by
  intro h
  have hmem : (3, [255, 255, 255]) ∈ chunkRecords [6, 0, 0, 0, 255, 255, 255] := by
    rw [chunkRecords, if_pos (by decide), if_neg (by decide)]
    exact List.mem_cons_self
  have hcodes := (callsInTable_iff _ (left_start _)).1 h _ hmem (by decide)
  exact absurd (hcodes 0 (Or.inr (by decide))) (by decide)

/-- The decoder comes to the end of a file, without leaving its table, exactly when all codes are
entries of the table when they are needed and no chunk that it comes to has the size 0; it goes on
for ever exactly when all codes are, and some chunk has. -/
theorem main_ends_iff (file : List UInt8) :
    ((∃ ms, Exits (main file) ms) ↔
      AllInTable (chunkRecords file) ∧ NoneEmpty (chunkRecords file)) ∧
    ((∀ fuel, main file fuel = .running) ↔
      AllInTable (chunkRecords file) ∧ ¬ NoneEmpty (chunkRecords file)) := by
  obtain ⟨o, ho, hends⟩ := comesTo_records file (left_start file)
  rw [← hends.done, ← hends.running, ← comesTo_running_iff]
  refine ⟨⟨fun ⟨ms, hms⟩ => ⟨ms, ho.eq_done hms⟩, fun ⟨ms, hms⟩ => ⟨ms, ?_⟩⟩,
    fun hrun => ho.unique hrun, fun hrun => ?_⟩
  · rw [hms] at ho
    exact ho.exits
  · rw [hrun] at ho
    exact ho

/-- The codes of zero bytes. -/
theorem codeAt_zeros {n m : ℕ} (h : 13 * m + 13 ≤ 8 * n) : codeAt (List.replicate n 0) m = 0 := by
  have key : ∀ k, k ≤ 13 → bitsAt (List.replicate n 0) (13 * m) k = 0 := by
    intro k
    induction k with
    | zero => exact fun _ => rfl
    | succ k ih =>
        intro hk
        have hbyte : (List.replicate n (0 : UInt8)).getD ((13 * m + k) / 8) 255 = 0 := by
          rw [List.getD_eq_getElem _ _ (by rw [List.length_replicate]; omega),
            List.getElem_replicate]
        rw [bitsAt, ih (by omega), bitAt, hbyte]
        simp
  exact key 13 le_rfl

/-- A file of 12900 zero bytes: a chunk of size 0, and zero bytes for its first 7936 codes; from
there on all codes are entries of the table. -/
theorem zeros_go_on :
    (∀ fuel, main ([0, 0, 0, 0] ++ List.replicate 12896 0) fuel = .running) ∧
      ¬ ∃ ms, Exits (main ([0, 0, 0, 0] ++ List.replicate 12896 0)) ms := by
  have hrecords : chunkRecords ([0, 0, 0, 0] ++ List.replicate 12896 0)
      = [(0, List.replicate 12896 0)] := by
    rw [List.cons_append, List.cons_append, List.cons_append, List.cons_append, List.nil_append,
      chunkRecords, if_pos (by decide), if_pos (by decide)]
  have hcodes : CodesInTable 0 (List.replicate 12896 0) := by
    intro m _
    rcases Nat.lt_or_ge m 7936 with hlt | hge
    · rw [codeAt_zeros (by omega)]
      omega
    · have := codeAt_lt (List.replicate 12896 0) m
      omega
  obtain ⟨o, ho, hends⟩ :=
    comesTo_records _ (left_start ([0, 0, 0, 0] ++ List.replicate 12896 0))
  rw [hrecords] at hends
  have hrun : o = .running := by
    refine hends.running.2 ⟨fun c hc => ?_, fun hnone => ?_⟩
    · rwa [List.mem_singleton.1 hc]
    · exact hnone _ (List.mem_singleton_self _) rfl
  rw [hrun] at ho
  refine ⟨comesTo_running_iff.1 ho, fun ⟨ms, hms⟩ => ?_⟩
  exact absurd (ho.eq_done hms) (by simp)

end Decoder

end DedupLzw
