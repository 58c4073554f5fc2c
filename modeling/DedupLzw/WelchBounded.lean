/-
**Welch's code with a dictionary that stops growing.**

With codes of a fixed width only the first entries of the dictionary can be sent.  An encoder that
knows this stops entering strings once its dictionary is full; one that does not goes on, and may
send an entry that has no code.  The two do the same as long as no such entry is looked up: that is
when the encoder that stopped looks a string up in vain that it has already looked up in vain
before.

Main definitions:

* `Welch.Capped`, `Welch.capped` — the encoder whose dictionary stops growing, with the strings it
  has looked up in vain.

Main results:

* `Welch.capped_lockstep` — the two encoders, letter by letter;
* `Welch.nodup_missed_iff` — **exactly when all phrases are among the first entries**.
-/

import DedupLzw.Welch

set_option relaxedAutoImplicit false
set_option autoImplicit false

namespace Welch

variable {α : Type}

/-- The encoder with a bounded dictionary: the phrase it is extending, and the strings it has looked
up in vain, in order.  They enter the dictionary until it is full. -/
structure Capped (α : Type) where
  cur : List α
  missed : List (List α)
deriving DecidableEq, Repr

/-- The dictionary of at most `cap` entries. -/
def Capped.dict (base : List α) (cap : ℕ) (b : Capped α) : List (List α) :=
  (singles base ++ b.missed).take cap

/-! ### First entries -/

section Dictionary

variable {base : List α} {cap : ℕ}

/-- Letters are always among the first entries. -/
theorem single_mem_take {missed : List (List α)} (hcap : base.length ≤ cap) {a : α}
    (ha : a ∈ base) : [a] ∈ (singles base ++ missed).take cap := by
  rw [List.take_append, List.take_of_length_le (by simpa using hcap)]
  exact List.mem_append_left _ (mem_singles.2 ⟨a, ha, rfl⟩)

/-- A full dictionary keeps its first entries. -/
theorem not_mem_take_append {dict : List (List α)} {p q : List α} (hp : p ∈ dict)
    (h : p ∉ dict.take cap) : p ∉ (dict ++ [q]).take cap := by
  have hlong : cap ≤ dict.length := by
    by_contra hlt
    exact h (by rwa [List.take_of_length_le (by omega)])
  rwa [List.take_append_of_le_length hlong]

/-- An entry comes after its prefixes. -/
theorem Enc.Inv.cur_mem_take {w : List α} {e : Enc α} (h : Enc.Inv base w e) {a : α}
    (hne : e.cur ≠ []) (hmem : e.cur ++ [a] ∈ e.dict.take cap) : e.cur ∈ e.dict.take cap := by
  have hw : w ≠ [] := by
    rintro rfl
    have hflat := h.flatten
    rw [Enc.phrases, List.flatten_append, List.append_eq_nil_iff] at hflat
    exact hne (by simpa using hflat.2)
  obtain ⟨k, hk, hget⟩ := List.getElem_of_mem hmem
  rw [List.length_take] at hk
  rw [List.getElem_take] at hget
  have hentry : (dictOf base e.phrases)[k]? = some (e.cur ++ [a]) := by
    rw [← h.dict_eq, List.getElem?_eq_getElem (by omega), hget]
  obtain ⟨k', hk', hget'⟩ :=
    (h.factors hw).prefix_known k _ hentry e.cur hne (List.prefix_append _ _)
  rw [← h.dict_eq, ← List.getElem?_take_of_lt (show k' < cap by omega)] at hget'
  exact List.mem_of_getElem? hget'

end Dictionary

/-! ### Two encoders -/

section Encoder

variable [DecidableEq α] {base : List α} {cap : ℕ}

/-- The encoder reads a letter. -/
def Capped.step (base : List α) (cap : ℕ) (b : Capped α) (a : α) : Capped α :=
  if (b.dict base cap).contains (b.cur ++ [a]) then { b with cur := b.cur ++ [a] }
  else { cur := [a], missed := b.missed ++ [b.cur ++ [a]] }

theorem Capped.step_of_mem {b : Capped α} {a : α} (h : b.cur ++ [a] ∈ b.dict base cap) :
    b.step base cap a = { b with cur := b.cur ++ [a] } :=
  if_pos (List.contains_iff_mem.2 h)

theorem Capped.step_of_notMem {b : Capped α} {a : α} (h : b.cur ++ [a] ∉ b.dict base cap) :
    b.step base cap a = { cur := [a], missed := b.missed ++ [b.cur ++ [a]] } :=
  if_neg fun hmem => h (List.contains_iff_mem.1 hmem)

/-- The encoder after a word. -/
def capped (base : List α) (cap : ℕ) (w : List α) : Capped α :=
  w.foldl (Capped.step base cap) ⟨[], []⟩

@[simp] theorem capped_nil (base : List α) (cap : ℕ) : capped base cap [] = ⟨[], []⟩ := rfl

theorem capped_append (base : List α) (cap : ℕ) (w : List α) (a : α) :
    capped base cap (w ++ [a]) = (capped base cap w).step base cap a := by
  simp [capped]

/-- The two encoders do the same: their dictionaries have the same entries, and all phrases are
among the first `cap` of them. -/
structure InStep (base : List α) (cap : ℕ) (e : Enc α) (b : Capped α) : Prop where
  cur_eq : b.cur = e.cur
  dict_eq : e.dict = singles base ++ b.missed
  phrases : ∀ p ∈ e.phrases, p ≠ [] → p ∈ e.dict.take cap

/-- The two encoders have parted: the bounded one has missed a string twice, the other one has a
phrase behind the first `cap` entries. -/
structure Parted (cap : ℕ) (e : Enc α) (b : Capped α) : Prop where
  missed : ¬ b.missed.Nodup
  phrases : ∃ p ∈ e.phrases, p ≠ [] ∧ p ∉ e.dict.take cap

/-- The step of two encoders that do the same. -/
theorem InStep.step {e : Enc α} {b : Capped α} (h : InStep base cap e b)
    (hcap : base.length ≤ cap) {a : α} (ha : a ∈ base) :
    InStep base cap (e.step a) (b.step base cap a) ∨
      Parted cap (e.step a) (b.step base cap a) := by
  have hcur := h.cur_eq
  have hknows : b.cur ++ [a] ∈ b.dict base cap ↔ e.cur ++ [a] ∈ e.dict.take cap := by
    rw [Capped.dict, h.dict_eq, hcur]
  have hsingle : [a] ∈ e.dict.take cap := by
    rw [h.dict_eq]
    exact single_mem_take hcap ha
  by_cases hknown : e.cur ++ [a] ∈ e.dict
  · by_cases hfirst : e.cur ++ [a] ∈ e.dict.take cap
    · -- both extend their phrase
      left
      rw [Enc.step, if_pos hknown, Capped.step_of_mem (hknows.2 hfirst), hcur]
      refine ⟨rfl, h.dict_eq, fun p hp hne => ?_⟩
      rcases List.mem_append.1 hp with hsent | hlast
      · exact h.phrases p (List.mem_append_left _ hsent) hne
      · rwa [List.mem_singleton.1 hlast]
    · -- the string is an entry of the larger dictionary only: it was looked up in vain before
      right
      rw [Enc.step, if_pos hknown, Capped.step_of_notMem fun hmem => hfirst (hknows.1 hmem), hcur]
      have hbefore : e.cur ++ [a] ∈ b.missed := by
        rw [h.dict_eq] at hknown hfirst
        rcases List.mem_append.1 hknown with hletter | hmissed
        · obtain ⟨a', ha', heq⟩ := mem_singles.1 hletter
          exact absurd (heq ▸ single_mem_take hcap ha') hfirst
        · exact hmissed
      refine ⟨fun hnodup => ?_, _, List.mem_append_right _ (List.mem_singleton_self _), by simp,
        hfirst⟩
      exact List.disjoint_of_nodup_append hnodup hbefore (List.mem_singleton_self _)
  · -- both send their phrase
    left
    have hfirst : e.cur ++ [a] ∉ e.dict.take cap := fun hmem => hknown (List.mem_of_mem_take hmem)
    rw [Enc.step, if_neg hknown, Capped.step_of_notMem fun hmem => hfirst (hknows.1 hmem), hcur]
    have hmono : ∀ p, p ∈ e.dict.take cap → p ∈ (e.dict ++ [e.cur ++ [a]]).take cap := by
      intro p hp
      rw [List.take_append]
      exact List.mem_append_left _ hp
    refine ⟨rfl, by rw [h.dict_eq, List.append_assoc], fun p hp hne => ?_⟩
    rcases List.mem_append.1 hp with hsent | hlast
    · exact hmono p (h.phrases p hsent hne)
    · rw [List.mem_singleton.1 hlast]
      exact hmono _ hsingle

/-- Once parted, the encoders stay parted. -/
theorem Parted.step {w : List α} {e : Enc α} {b : Capped α} (h : Parted cap e b)
    (hinv : Enc.Inv base w e) (a : α) : Parted cap (e.step a) (b.step base cap a) := by
  obtain ⟨hmissed, p, hp, hne, hlate⟩ := h
  have hmissed' : ¬ (b.step base cap a).missed.Nodup := by
    by_cases hknown : b.cur ++ [a] ∈ b.dict base cap
    · rwa [Capped.step_of_mem hknown]
    · rw [Capped.step_of_notMem hknown]
      exact fun hnodup => hmissed (List.nodup_append.1 hnodup).1
  refine ⟨hmissed', ?_⟩
  have hmem : p ∈ e.dict := by
    rcases List.mem_append.1 hp with hsent | hlast
    · exact hinv.mem_dict hsent
    · rw [List.mem_singleton.1 hlast] at hne ⊢
      exact hinv.cur_known.elim (fun hc => absurd hc.1 hne) And.right
  rw [Enc.step]
  split
  · next hknown =>
      rcases List.mem_append.1 hp with hsent | hlast
      · exact ⟨p, List.mem_append_left _ hsent, hne, hlate⟩
      · -- the phrase grows; its prefixes came earlier
        obtain rfl := List.mem_singleton.1 hlast
        exact ⟨_, List.mem_append_right _ (List.mem_singleton_self _), by simp,
          fun hfirst => hlate (hinv.cur_mem_take hne hfirst)⟩
  · exact ⟨p, List.mem_append_left _ hp, hne, not_mem_take_append hmem hlate⟩

/-- The two encoders over a whole word. -/
theorem capped_lockstep (hbase : base.Nodup) (hcap : base.length ≤ cap) {w : List α}
    (hw : ∀ a ∈ w, a ∈ base) :
    InStep base cap (encode base w) (capped base cap w) ∨
      Parted cap (encode base w) (capped base cap w) := by
  induction w using List.reverseRecOn with
  | nil =>
      left
      refine ⟨rfl, (List.append_nil _).symm, fun p hp hne => ?_⟩
      exact absurd (List.mem_singleton.1 hp) hne
  | append_singleton w a ih =>
      have hw' : ∀ b ∈ w, b ∈ base := fun b hb => hw b (List.mem_append_left _ hb)
      rw [encode_append, capped_append]
      rcases ih hw' with hsame | hparted
      · exact hsame.step hcap (hw a (by simp))
      · exact Or.inr (hparted.step (encode_inv hbase w hw') a)

/-- All phrases of a word are among the first `cap` entries exactly when the encoder whose
dictionary stops there looks no string up in vain twice. -/
theorem nodup_missed_iff (hbase : base.Nodup) (hcap : base.length ≤ cap) {w : List α}
    (hw : ∀ a ∈ w, a ∈ base) (hne : w ≠ []) :
    (capped base cap w).missed.Nodup ↔
      ∀ p ∈ (encode base w).phrases, p ∈ (encode base w).dict.take cap := by
  have hinv := encode_inv hbase w hw
  have hphrases := (factors_encode hbase hw hne).ne_nil
  rcases capped_lockstep hbase hcap hw with hsame | hparted
  · have hnodup := hinv.nodup
    rw [hsame.dict_eq] at hnodup
    exact iff_of_true (List.nodup_append.1 hnodup).2.1
      fun p hp => hsame.phrases p hp (hphrases p hp)
  · obtain ⟨p, hp, _, hlate⟩ := hparted.phrases
    exact iff_of_false hparted.missed fun h => hlate (h p hp)

end Encoder

end Welch
