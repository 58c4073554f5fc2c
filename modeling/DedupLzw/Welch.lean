/-
**Welch's dictionary code over an arbitrary alphabet.**

The encoder cuts a word into *phrases*: it extends the current phrase as long as the result is in
the dictionary, and otherwise sends the phrase, adds its one-letter extension to the dictionary and
starts again from that letter.  The decoder rebuilds the dictionary from the code numbers alone,
always one entry behind.

The cut is described here without the encoder: a list of phrases is *the* factorisation of a word
when its phrases concatenate to the word, each one is an entry the dictionary had by then, and no
extension was an entry already (`Welch.Factors`).  Every word has exactly one factorisation, the
one the encoder computes, so properties of the code can be stated about the word itself.

Main definitions:

* `Welch.singles`, `Welch.growths`, `Welch.dictOf` — the dictionary of a list of phrases;
* `Welch.Factors` — the factorisation of a word;
* `Welch.Enc`, `Welch.encode` — the encoder;
* `Welch.Dec`, `Welch.decode` — the decoder, one entry behind.

Main results:

* `Welch.encode_inv` — the encoder's state after any prefix of the word;
* `Welch.factors_encode`, `Welch.Factors.unique` — the encoder computes the factorisation, and
  there is no other;
* `Welch.Factors.two_mul_length_le` — how long a word a number of phrases can make up;
* `Welch.exists_decode_iff` — which codes can be read;
* `Welch.Factors.decode_take` — **the lockstep**: after `m + 1` codes the decoder's table is the
  encoder's dictionary without its last entry, and its output is the first `m + 1` phrases.

`DedupLzw/WelchLoss.lean` adds what happens when some codes are replaced by letters.
-/

import Mathlib

set_option relaxedAutoImplicit false
set_option autoImplicit false

namespace Welch

variable {α : Type}

/-! ### The dictionary of a list of phrases -/

/-- The one-letter words of an alphabet, in the order of the alphabet. -/
def singles (base : List α) : List (List α) := base.map fun a => [a]

@[simp] theorem length_singles (base : List α) : (singles base).length = base.length := by
  simp [singles]

theorem mem_singles {base : List α} {s : List α} :
    s ∈ singles base ↔ ∃ a ∈ base, s = [a] := by
  simp [singles, eq_comm]

/-- The entries that consecutive phrases add: each phrase with the first letter of the next. -/
def growths (ps : List (List α)) : List (List α) :=
  List.zipWith (fun p q => p ++ q.take 1) ps ps.tail

@[simp] theorem length_growths (ps : List (List α)) : (growths ps).length = ps.length - 1 := by
  simp [growths]

theorem growths_getElem {ps : List (List α)} {j : ℕ} (h : j + 1 < ps.length) :
    (growths ps)[j]? = some (ps[j] ++ ps[j + 1].take 1) := by
  rw [growths, List.getElem?_zipWith]
  simp [List.getElem?_tail, List.getElem?_eq_getElem h,
    List.getElem?_eq_getElem (show j < ps.length by omega)]

@[simp] theorem growths_nil : growths ([] : List (List α)) = [] := rfl

@[simp] theorem growths_singleton (p : List α) : growths [p] = [] := rfl

theorem growths_cons_cons (p q : List α) (ps : List (List α)) :
    growths (p :: q :: ps) = (p ++ q.take 1) :: growths (q :: ps) := rfl

/-- Sending a phrase and starting the next one adds one entry. -/
theorem growths_append_pair (ps : List (List α)) (p q : List α) :
    growths (ps ++ [p, q]) = growths (ps ++ [p]) ++ [p ++ q.take 1] := by
  induction ps with
  | nil => rfl
  | cons r ps ih =>
      cases ps with
      | nil => rfl
      | cons s ps =>
          simp only [List.cons_append, growths_cons_cons] at ih ⊢
          rw [ih]

/-- Only the first letter of the last phrase matters. -/
theorem growths_congr_last (ps : List (List α)) {p q : List α} (h : p.take 1 = q.take 1) :
    growths (ps ++ [p]) = growths (ps ++ [q]) := by
  induction ps with
  | nil => rfl
  | cons r ps ih =>
      cases ps with
      | nil => simp [growths_cons_cons, h]
      | cons s ps =>
          simp only [List.cons_append, growths_cons_cons] at ih ⊢
          rw [ih]

theorem growths_take (ps : List (List α)) (m : ℕ) :
    growths (ps.take (m + 1)) = (growths ps).take m := by
  induction m generalizing ps with
  | zero => cases ps <;> simp
  | succ m ih =>
      match ps with
      | [] => simp
      | [p] => simp
      | p :: q :: ps =>
          have h := ih (q :: ps)
          simp only [List.take_succ_cons, growths_cons_cons] at h ⊢
          rw [h]

/-- The dictionary once the phrases `ps` have been read: the letters, then the growths. -/
def dictOf (base : List α) (ps : List (List α)) : List (List α) := singles base ++ growths ps

theorem length_dictOf (base : List α) (ps : List (List α)) :
    (dictOf base ps).length = base.length + (ps.length - 1) := by
  simp [dictOf]

theorem dictOf_take (base : List α) (ps : List (List α)) (m : ℕ) :
    dictOf base (ps.take (m + 1)) = (dictOf base ps).take (base.length + m) := by
  rw [dictOf, dictOf, growths_take, List.take_append]
  simp

theorem dictOf_growth {base : List α} {ps : List (List α)} {j : ℕ} (h : j + 1 < ps.length) :
    (dictOf base ps)[base.length + j]? = some (ps[j] ++ ps[j + 1].take 1) := by
  rw [dictOf, List.getElem?_append_right (by simp)]
  simpa using growths_getElem h

/-! ### The factorisation of a word -/

/-- `ps` is the factorisation of the word `w`: it concatenates to `w`, the `m`-th phrase is one of
the `base.length + m` entries the dictionary has before that phrase is sent, and no entry is added
twice.  The last clause is what makes every phrase as long as possible. -/
structure Factors (base : List α) (w : List α) (ps : List (List α)) : Prop where
  /-- The phrases make up the word. -/
  flatten : ps.flatten = w
  /-- No entry is added twice. -/
  nodup : (dictOf base ps).Nodup
  /-- Every phrase is known when it is sent. -/
  known : ∀ m (h : m < ps.length), ∃ k < base.length + m, (dictOf base ps)[k]? = some ps[m]

theorem getElem?_singles {base : List α} {ps : List (List α)} {k : ℕ} (hk : k < base.length) :
    (dictOf base ps)[k]? = some [base[k]] := by
  rw [dictOf, List.getElem?_append_left (by simpa using hk)]
  simp [singles, hk]

section Facts

variable {base : List α} {w : List α} {ps : List (List α)}

theorem Factors.ne_nil (h : Factors base w ps) : ∀ p ∈ ps, p ≠ [] := by
  -- induction on the position: an entry known by then is a letter or grows an earlier phrase
  have key : ∀ m (hm : m < ps.length), ps[m] ≠ [] := by
    intro m
    induction m using Nat.strong_induction_on with
    | _ m ih =>
        intro hm
        obtain ⟨k, hk, hget⟩ := h.known m hm
        rcases Nat.lt_or_ge k base.length with hb | hb
        · rw [getElem?_singles hb] at hget
          rw [← Option.some_inj.1 hget]
          simp
        · obtain ⟨j, rfl⟩ : ∃ j, k = base.length + j := ⟨k - base.length, by omega⟩
          have hj : j + 1 < ps.length := by omega
          rw [dictOf_growth hj] at hget
          have hne := ih j (by omega) (by omega)
          rw [← Option.some_inj.1 hget]
          simp [hne]
  intro p hp
  obtain ⟨m, hm, rfl⟩ := List.getElem_of_mem hp
  exact key m hm

/-- There are no more phrases than letters. -/
theorem Factors.length_le (h : Factors base w ps) : ps.length ≤ w.length := by
  have key : ∀ qs : List (List α), (∀ p ∈ qs, p ≠ []) → qs.length ≤ qs.flatten.length := by
    intro qs
    induction qs with
    | nil => simp
    | cons q qs ih =>
        intro hne
        have hq := List.length_pos_of_ne_nil (hne q (by simp))
        have := ih fun p hp => hne p (by simp [hp])
        simp only [List.length_cons, List.flatten_cons, List.length_append]
        omega
  have := key ps h.ne_nil
  rwa [h.flatten] at this

/-- A phrase is at most one letter longer than the phrases before it are many. -/
theorem Factors.length_getElem_le (h : Factors base w ps) {m : ℕ} (hm : m < ps.length) :
    ps[m].length ≤ m + 1 := by
  induction m using Nat.strong_induction_on with
  | _ m ih =>
      obtain ⟨k, hk, hget⟩ := h.known m hm
      rcases Nat.lt_or_ge k base.length with hb | hb
      · rw [getElem?_singles hb] at hget
        rw [← Option.some_inj.1 hget]
        simp
      · obtain ⟨j, rfl⟩ : ∃ j, k = base.length + j := ⟨k - base.length, by omega⟩
        have hj : j + 1 < ps.length := by omega
        rw [dictOf_growth hj] at hget
        have hlen := ih j (by omega) (by omega)
        rw [← Option.some_inj.1 hget, List.length_append, List.length_take]
        omega

/-- So the letters are at most as many as the pairs of phrases, a phrase with itself included. -/
theorem Factors.two_mul_length_le (h : Factors base w ps) :
    2 * w.length ≤ ps.length * (ps.length + 1) := by
  have key : ∀ m ≤ ps.length, 2 * (ps.take m).flatten.length ≤ m * (m + 1) := by
    intro m
    induction m with
    | zero => simp
    | succ m ih =>
        intro hm
        have hlast := h.length_getElem_le (m := m) (by omega)
        have hprev := ih (by omega)
        rw [List.take_succ_eq_append_getElem (by omega), List.flatten_append, List.length_append,
          List.flatten_singleton]
        linarith
  have := key ps.length le_rfl
  rwa [List.take_length, h.flatten] at this

theorem Factors.mem_dict (h : Factors base w ps) {p : List α} (hp : p ∈ ps) :
    p ∈ dictOf base ps := by
  obtain ⟨m, hm, rfl⟩ := List.getElem_of_mem hp
  obtain ⟨k, _, hk⟩ := h.known m hm
  exact List.mem_of_getElem? hk

/-- The dictionary is closed under prefixes: a nonempty prefix of an entry is an entry, and it
came no later. -/
theorem Factors.prefix_known (h : Factors base w ps) :
    ∀ (k : ℕ) (s : List α), (dictOf base ps)[k]? = some s → ∀ t, t ≠ [] → t <+: s →
      ∃ k' ≤ k, (dictOf base ps)[k']? = some t := by
  intro k
  induction k using Nat.strong_induction_on with
  | _ k ih =>
      intro s hs t ht hts
      rcases Nat.lt_or_ge k base.length with hb | hb
      · -- a letter has no prefix but itself
        have hs' := hs
        rw [getElem?_singles hb] at hs'
        rw [← Option.some_inj.1 hs'] at hts
        rcases List.prefix_cons_iff.1 hts with rfl | ⟨u, rfl, hu⟩
        · exact absurd rfl ht
        · refine ⟨k, le_rfl, ?_⟩
          rw [List.prefix_nil.1 hu, getElem?_singles hb]
      · obtain ⟨j, rfl⟩ : ∃ j, k = base.length + j := ⟨k - base.length, by omega⟩
        have hj : j + 1 < ps.length := by
          have := (List.getElem?_eq_some_iff.1 hs).1
          rw [length_dictOf] at this
          omega
        have hs' := hs
        rw [dictOf_growth hj] at hs'
        rw [← Option.some_inj.1 hs'] at hts
        have hlen : (ps[j + 1].take 1).length ≤ 1 := by simp
        -- the prefix is the whole growth, or a prefix of the phrase that grew
        rcases Nat.lt_or_ge ps[j].length t.length with hlt | hle
        · have heq : t = ps[j] ++ ps[j + 1].take 1 :=
            hts.eq_of_length_le (by rw [List.length_append]; omega)
          exact ⟨base.length + j, le_rfl, by rw [heq, dictOf_growth hj]⟩
        · have hpre : t <+: ps[j] :=
            List.prefix_of_prefix_length_le hts (List.prefix_append _ _) hle
          obtain ⟨k₀, hk₀, hget⟩ := h.known j (by omega)
          obtain ⟨k', hk', hget'⟩ := ih k₀ (by omega) _ hget t ht hpre
          exact ⟨k', by omega, hget'⟩

/-- What is left of the word after `m` phrases starts with phrase `m`. -/
theorem Factors.flatten_drop (h : Factors base w ps) {m : ℕ} (hm : m < ps.length) :
    w.drop (ps.take m).flatten.length = ps[m] ++ (ps.drop (m + 1)).flatten := by
  have hw : w = (ps.take m).flatten ++ (ps.drop m).flatten := by
    rw [← List.flatten_append, List.take_append_drop, h.flatten]
  rw [hw, List.drop_left, List.drop_eq_getElem_cons hm, List.flatten_cons]

/-- An extension is added after everything known when its phrase was sent. -/
theorem Factors.growth_late (h : Factors base w ps) {j k : ℕ} (hj : j + 1 < ps.length)
    (hk : (dictOf base ps)[k]? = some (ps[j] ++ ps[j + 1].take 1)) : k = base.length + j := by
  have hg : (dictOf base ps)[base.length + j]? = _ := dictOf_growth hj
  obtain ⟨hklt, hk'⟩ := List.getElem?_eq_some_iff.1 hk
  obtain ⟨hglt, hg'⟩ := List.getElem?_eq_some_iff.1 hg
  exact h.nodup.getElem_inj_iff.1 (hk'.trans hg'.symm)

/-- Of two factorisations that agree so far, neither has the shorter next phrase. -/
theorem Factors.not_shorter {qs : List (List α)} (h : Factors base w ps) (h' : Factors base w qs)
    {m : ℕ} (hm : m < ps.length) (hm' : m < qs.length) (htake : ps.take m = qs.take m) :
    ¬ ps[m].length < qs[m].length := by
  intro hlt
  have hp := h.flatten_drop hm
  have hq := h'.flatten_drop hm'
  rw [← htake, hp] at hq
  have hlen : ps[m].length + (ps.drop (m + 1)).flatten.length
      = qs[m].length + (qs.drop (m + 1)).flatten.length := by
    simpa using congrArg List.length hq
  -- the shorter phrase is followed by another one
  have hm1 : m + 1 < ps.length := by
    by_contra hcon
    rw [List.drop_eq_nil_of_le (by omega)] at hlen
    simp at hlen
    omega
  rw [List.drop_eq_getElem_cons hm1, List.flatten_cons] at hq
  have hne : ps[m + 1] ≠ [] := h.ne_nil _ (List.getElem_mem _)
  have hone : (ps[m + 1].take 1).length = 1 := by
    have := List.length_pos_of_ne_nil hne
    simp
    omega
  -- so its extension is a prefix of the longer phrase
  have hext : ps[m] ++ ps[m + 1].take 1 <+: qs[m] := by
    have hlong : ps[m] ++ ps[m + 1].take 1 <+: qs[m] ++ (qs.drop (m + 1)).flatten := by
      rw [← hq]
      refine (List.prefix_append_right_inj _).2 ?_
      exact (List.take_prefix _ _).trans (List.prefix_append _ _)
    refine List.prefix_of_prefix_length_le hlong (List.prefix_append _ _) ?_
    rw [List.length_append]
    omega
  -- the two dictionaries agree on everything known before phrase `m`
  have hhead : ps[m].take 1 = qs[m].take 1 := by
    have hpne : ps[m] ≠ [] := h.ne_nil _ (List.getElem_mem _)
    have hpre : ps[m] <+: qs[m] := (List.prefix_append _ _).trans hext
    obtain ⟨t, ht⟩ := hpre
    rw [← ht, List.take_append_of_le_length (List.length_pos_of_ne_nil hpne)]
  have hdict : (dictOf base ps).take (base.length + m)
      = (dictOf base qs).take (base.length + m) := by
    rw [← dictOf_take, ← dictOf_take, dictOf, dictOf, List.take_succ_eq_append_getElem hm,
      List.take_succ_eq_append_getElem hm', htake, growths_congr_last _ hhead]
  obtain ⟨k, hk, hget⟩ := h'.known m hm'
  have hget' : (dictOf base ps)[k]? = some qs[m] := by
    rw [← List.getElem?_take_of_lt hk, hdict, List.getElem?_take_of_lt hk, hget]
  have hextne : ps[m] ++ ps[m + 1].take 1 ≠ [] := by
    intro hnil
    have := congrArg List.length hnil
    rw [List.length_append, hone] at this
    simp at this
  obtain ⟨k', hk', hget''⟩ := h.prefix_known k _ hget' _ hextne hext
  have := h.growth_late hm1 hget''
  omega

/-- Of two factorisations that agree so far, neither ends first. -/
theorem Factors.lt_length {qs : List (List α)} (h : Factors base w ps) (h' : Factors base w qs)
    {m : ℕ} (htake : ps.take m = qs.take m) (hm : m < ps.length) : m < qs.length := by
  by_contra hcon
  have hp := h.flatten_drop hm
  have hq : (qs.take m).flatten = w := by rw [List.take_of_length_le (by omega), h'.flatten]
  rw [htake, hq, List.drop_length] at hp
  exact h.ne_nil _ (List.getElem_mem hm) (List.append_eq_nil_iff.1 hp.symm).1

/-- A word has only one factorisation. -/
theorem Factors.unique {qs : List (List α)} (h : Factors base w ps) (h' : Factors base w qs) :
    ps = qs := by
  have key : ∀ m, ps.take m = qs.take m := by
    intro m
    induction m with
    | zero => simp
    | succ m ih =>
        have hleft : m < ps.length ↔ m < qs.length :=
          ⟨h.lt_length h' ih, h'.lt_length h ih.symm⟩
        by_cases hm : m < ps.length
        · have hm' := hleft.1 hm
          have hlen : ps[m].length = qs[m].length :=
            le_antisymm (not_lt.1 (h'.not_shorter h hm' hm ih.symm))
              (not_lt.1 (h.not_shorter h' hm hm' ih))
          have hpq : ps[m] = qs[m] := by
            have hp := h.flatten_drop hm
            have hq := h'.flatten_drop hm'
            rw [← ih, hp] at hq
            exact (List.append_inj hq hlen).1
          rw [List.take_succ_eq_append_getElem hm, List.take_succ_eq_append_getElem hm', ih, hpq]
        · have hm' : ¬ m < qs.length := fun hq => hm (hleft.2 hq)
          rw [List.take_of_length_le (by omega), List.take_of_length_le (by omega)]
          rw [List.take_of_length_le (by omega), List.take_of_length_le (by omega)] at ih
          exact ih
  have h₁ := key (max ps.length qs.length)
  rwa [List.take_of_length_le (le_max_left _ _), List.take_of_length_le (le_max_right _ _)] at h₁

end Facts

/-! ### The encoder -/

/-- The encoder: its dictionary, the phrase it is extending, and the phrases it has sent. -/
structure Enc (α : Type) where
  dict : List (List α)
  cur : List α
  sent : List (List α)
deriving DecidableEq, Repr

/-- The encoder before the first letter. -/
def Enc.start (base : List α) : Enc α := ⟨singles base, [], []⟩

/-- The phrases of an encoder, the one being extended included. -/
def Enc.phrases (e : Enc α) : List (List α) := e.sent ++ [e.cur]

/-- What holds of the encoder after the word `w`. -/
structure Enc.Inv (base : List α) (w : List α) (e : Enc α) : Prop where
  /-- The dictionary is the one of the phrases so far. -/
  dict_eq : e.dict = dictOf base e.phrases
  /-- The phrases so far make up the word. -/
  flatten : e.phrases.flatten = w
  /-- No entry was added twice. -/
  nodup : e.dict.Nodup
  /-- Every phrase was known when it was sent. -/
  known : ∀ m (h : m < e.sent.length), ∃ k < base.length + m, e.dict[k]? = some e.sent[m]
  /-- The phrase being extended is known; it is empty only before the first letter. -/
  cur_known : e.cur = [] ∧ e.sent = [] ∨ e.cur ≠ [] ∧ e.cur ∈ e.dict

theorem Enc.inv_start {base : List α} (hbase : base.Nodup) : Enc.Inv base [] (Enc.start base) where
  dict_eq := by simp [Enc.start, dictOf, Enc.phrases]
  flatten := by simp [Enc.start, Enc.phrases]
  nodup := by
    refine List.Nodup.map (fun a b hab => ?_) hbase
    simpa using hab
  known := by simp [Enc.start]
  cur_known := by simp [Enc.start]

theorem Enc.Inv.length_dict {base w : List α} {e : Enc α} (h : Enc.Inv base w e) :
    e.dict.length = base.length + e.sent.length := by
  rw [h.dict_eq, length_dictOf]
  simp [Enc.phrases]

/-- Every phrase sent is an entry. -/
theorem Enc.Inv.mem_dict {base w : List α} {e : Enc α} (h : Enc.Inv base w e) {p : List α}
    (hp : p ∈ e.sent) : p ∈ e.dict := by
  obtain ⟨m, hm, rfl⟩ := List.getElem_of_mem hp
  obtain ⟨k, _, hk⟩ := h.known m hm
  exact List.mem_of_getElem? hk

/-- The phrase grows by a letter. -/
theorem Enc.Inv.extend {base w : List α} {e : Enc α} (h : Enc.Inv base w e) {a : α}
    (hmem : e.cur ++ [a] ∈ e.dict) :
    Enc.Inv base (w ++ [a]) { e with cur := e.cur ++ [a] } := by
  refine ⟨?_, ?_, h.nodup, h.known, Or.inr ⟨by simp, hmem⟩⟩
  · rw [h.dict_eq]
    simp only [dictOf, Enc.phrases]
    rcases h.cur_known with ⟨hcur, hsent⟩ | ⟨hcur, _⟩
    · simp [hsent]
    · rw [growths_congr_last e.sent (p := e.cur) (q := e.cur ++ [a])]
      rw [List.take_append_of_le_length (List.length_pos_of_ne_nil hcur)]
  · rw [← h.flatten]
    simp [Enc.phrases]

/-- The phrase is sent, and its extension by the next letter is added. -/
theorem Enc.Inv.send {base w : List α} {e : Enc α} (h : Enc.Inv base w e) {a : α}
    (hcur : e.cur ≠ []) (ha : [a] ∈ e.dict) (hmem : e.cur ++ [a] ∉ e.dict) :
    Enc.Inv base (w ++ [a])
      { dict := e.dict ++ [e.cur ++ [a]], cur := [a], sent := e.sent ++ [e.cur] } := by
  have hknown : e.cur ∈ e.dict := h.cur_known.elim (fun hc => absurd hc.1 hcur) And.right
  refine ⟨?_, ?_, ?_, ?_, Or.inr ⟨by simp, List.mem_append_left _ ha⟩⟩
  · have hps : e.sent ++ [e.cur] ++ [[a]] = e.sent ++ [e.cur, [a]] := by simp
    simp only [h.dict_eq, dictOf, Enc.phrases]
    rw [hps, growths_append_pair, List.append_assoc]
    rfl
  · rw [← h.flatten]
    simp [Enc.phrases]
  · refine List.Nodup.append h.nodup (by simp) ?_
    simpa using hmem
  · intro m hm
    have hlen : m < e.sent.length ∨ m = e.sent.length := by
      simp at hm
      omega
    have hold : ∀ (k : ℕ) (s : List α), e.dict[k]? = some s →
        (e.dict ++ [e.cur ++ [a]])[k]? = some s := by
      intro k s hk
      rw [List.getElem?_append_left (List.getElem?_eq_some_iff.1 hk).1, hk]
    rcases hlen with hlt | rfl
    · obtain ⟨k, hk, hget⟩ := h.known m hlt
      exact ⟨k, hk, by rw [List.getElem_append_left hlt]; exact hold k _ hget⟩
    · obtain ⟨k, hk⟩ := List.getElem?_of_mem hknown
      refine ⟨k, ?_, by simpa using hold k _ hk⟩
      rw [← h.length_dict]
      exact (List.getElem?_eq_some_iff.1 hk).1

/-- An encoder that has read something has factorised it. -/
theorem Enc.Inv.factors {base w : List α} {e : Enc α} (h : Enc.Inv base w e) (hw : w ≠ []) :
    Factors base w e.phrases := by
  have hcur : e.cur ≠ [] ∧ e.cur ∈ e.dict := by
    refine h.cur_known.resolve_left ?_
    rintro ⟨hc, hs⟩
    refine hw ?_
    rw [← h.flatten]
    simp [Enc.phrases, hc, hs]
  refine ⟨h.flatten, h.dict_eq ▸ h.nodup, ?_⟩
  intro m hm
  have hlen : m < e.sent.length ∨ m = e.sent.length := by
    simp [Enc.phrases] at hm
    omega
  rw [← h.dict_eq]
  rcases hlen with hlt | rfl
  · obtain ⟨k, hk, hget⟩ := h.known m hlt
    exact ⟨k, hk, by simpa [Enc.phrases, List.getElem_append_left hlt] using hget⟩
  · obtain ⟨k, hk⟩ := List.getElem?_of_mem hcur.2
    refine ⟨k, ?_, by simpa [Enc.phrases] using hk⟩
    rw [← h.length_dict]
    exact (List.getElem?_eq_some_iff.1 hk).1

section Encoder

variable [DecidableEq α]

/-- The encoder reads a letter. -/
def Enc.step (e : Enc α) (a : α) : Enc α :=
  if e.cur ++ [a] ∈ e.dict then { e with cur := e.cur ++ [a] }
  else { dict := e.dict ++ [e.cur ++ [a]], cur := [a], sent := e.sent ++ [e.cur] }

/-- The encoder after a word. -/
def encode (base : List α) (w : List α) : Enc α := w.foldl Enc.step (Enc.start base)

@[simp] theorem encode_nil (base : List α) : encode base [] = Enc.start base := rfl

theorem encode_append (base : List α) (w : List α) (a : α) :
    encode base (w ++ [a]) = (encode base w).step a := by
  simp [encode]

/-- The dictionary grows by at most one entry for every letter. -/
theorem length_dict_encode_le (base w : List α) :
    (encode base w).dict.length ≤ base.length + w.length := by
  induction w using List.reverseRecOn with
  | nil => simp [Enc.start]
  | append_singleton w a ih =>
      rw [encode_append, Enc.step]
      split
      · simp only [List.length_append, List.length_singleton]
        omega
      · simp only [List.length_append, List.length_singleton]
        omega

theorem Enc.Inv.step {base w : List α} {e : Enc α} (h : Enc.Inv base w e) {a : α}
    (ha : a ∈ base) : Enc.Inv base (w ++ [a]) (e.step a) := by
  have hsingle : [a] ∈ e.dict := by
    rw [h.dict_eq, dictOf]
    exact List.mem_append_left _ (mem_singles.2 ⟨a, ha, rfl⟩)
  rw [Enc.step]
  split
  · next hmem => exact h.extend hmem
  · next hmem =>
      refine h.send ?_ hsingle hmem
      rintro hnil
      rw [hnil] at hmem
      exact hmem hsingle

/-- The encoder keeps its invariant over a whole word. -/
theorem encode_inv {base : List α} (hbase : base.Nodup) (w : List α) (hw : ∀ a ∈ w, a ∈ base) :
    Enc.Inv base w (encode base w) := by
  induction w using List.reverseRecOn with
  | nil => exact Enc.inv_start hbase
  | append_singleton w a ih =>
      rw [encode_append]
      exact (ih fun b hb => hw b (by simp [hb])).step (hw a (by simp))

/-- The encoder computes the factorisation. -/
theorem factors_encode {base : List α} (hbase : base.Nodup) {w : List α}
    (hw : ∀ a ∈ w, a ∈ base) (hne : w ≠ []) : Factors base w (encode base w).phrases :=
  (encode_inv hbase w hw).factors hne

end Encoder

/-! ### The decoder -/

/-- `cs` numbers the phrases `ps`: each code is the position of its phrase in the dictionary, and
the phrase had that position when it was sent. -/
structure Numbers (base : List α) (ps : List (List α)) (cs : List ℕ) : Prop where
  length_eq : cs.length = ps.length
  lt : ∀ m (h : m < cs.length), cs[m] < base.length + m
  get : ∀ m (h : m < cs.length) (h' : m < ps.length), (dictOf base ps)[cs[m]]? = some ps[m]

/-- Looking every phrase up in the dictionary numbers a factorisation. -/
theorem Factors.numbers [DecidableEq α] {base w : List α} {ps : List (List α)}
    (h : Factors base w ps) : Numbers base ps (ps.map fun p => (dictOf base ps).idxOf p) := by
  have key : ∀ m (hm : m < ps.length), ∃ k < base.length + m,
      (dictOf base ps).idxOf ps[m] = k ∧ (dictOf base ps)[k]? = some ps[m] := by
    intro m hm
    obtain ⟨k, hk, hget⟩ := h.known m hm
    refine ⟨k, hk, ?_, hget⟩
    obtain ⟨hlt, hval⟩ := List.getElem?_eq_some_iff.1 hget
    rw [← hval, h.nodup.idxOf_getElem k hlt]
  refine ⟨by simp, fun m hm => ?_, fun m hm hm' => ?_⟩
  · obtain ⟨k, hk, hidx, _⟩ := key m (by simpa using hm)
    rw [List.getElem_map, hidx]
    exact hk
  · obtain ⟨k, _, hidx, hget⟩ := key m hm'
    rw [List.getElem_map, hidx, hget]

/-- The decoder: its table, the code it read last, the first letter of the phrase that code stood
for, and the word so far. -/
structure Dec (α : Type) where
  table : List (List α)
  old : ℕ
  sym : List α
  out : List α
deriving DecidableEq, Repr

/-- The decoder after the first code. -/
def Dec.start (base : List α) (c : ℕ) : Dec α :=
  { table := singles base, old := c, sym := (singles base).getD c [],
    out := (singles base).getD c [] }

/-- The decoder reads a further code.  A code past the end of the table stands for the entry that
is just being added; with the code before it unknown there is no answer. -/
def Dec.step (d : Dec α) (c : ℕ) : Option (Dec α) :=
  d.table[d.old]?.map fun prev =>
    let phrase := if c < d.table.length then d.table.getD c [] else prev ++ d.sym
    { table := d.table ++ [prev ++ phrase.take 1], old := c, sym := phrase.take 1,
      out := d.out ++ phrase }

/-- The decoder after a sequence of codes. -/
def decode (base : List α) : List ℕ → Option (Dec α)
  | [] => none
  | c :: cs => cs.foldlM Dec.step (Dec.start base c)

theorem decode_take_one {base : List α} {cs : List ℕ} (h : 0 < cs.length) :
    decode base (cs.take 1) = some (Dec.start base cs[0]) := by
  cases cs with
  | nil => simp at h
  | cons c cs => simp [decode]

theorem decode_take_succ {base : List α} {cs : List ℕ} {m : ℕ} (h : m + 1 < cs.length) :
    decode base (cs.take (m + 2)) = (decode base (cs.take (m + 1))).bind (·.step cs[m + 1]) := by
  cases cs with
  | nil => simp at h
  | cons c cs =>
      have hm : m < cs.length := by simpa using h
      simp only [List.take_succ_cons, decode, List.getElem_cons_succ]
      rw [List.take_succ_eq_append_getElem hm, List.foldlM_append]
      cases (cs.take m).foldlM Dec.step (Dec.start base c) <;> simp

/-- Every sequence of codes the decoder can read, it can read up to any point. -/
theorem decode_prefix {base : List α} {cs ds : List ℕ} (hcs : cs ≠ []) {d : Dec α}
    (h : decode base (cs ++ ds) = some d) : ∃ d', decode base cs = some d' := by
  cases cs with
  | nil => exact absurd rfl hcs
  | cons c cs =>
      simp only [List.cons_append, decode, List.foldlM_append] at h
      obtain ⟨d', hd', _⟩ := Option.bind_eq_some_iff.1 h
      exact ⟨d', hd'⟩

/-- A decoder that has no empty string in its table or as its last first letter. -/
structure Dec.Full (d : Dec α) : Prop where
  table_ne : ∀ s ∈ d.table, s ≠ []
  sym_ne : d.sym ≠ []

theorem Dec.full_start {base : List α} {c : ℕ} (hc : c < base.length) :
    (Dec.start base c).Full := by
  refine ⟨fun s hs => ?_, ?_⟩
  · obtain ⟨a, _, rfl⟩ := mem_singles.1 hs
    simp
  · rw [Dec.start, List.getD_eq_getElem _ _ (by simpa using hc)]
    simp [singles]

/-- What a code stands for is not empty, and the decoder stays full. -/
theorem Dec.Full.step {d d' : Dec α} (h : d.Full) {c : ℕ} (hstep : d.step c = some d') :
    d'.Full ∧ d'.table.length = d.table.length + 1 := by
  rw [Dec.step] at hstep
  obtain ⟨prev, hprev, rfl⟩ := Option.map_eq_some_iff.1 hstep
  have hprevne : prev ≠ [] := h.table_ne prev (List.mem_of_getElem? hprev)
  have hphrase : (if c < d.table.length then d.table.getD c [] else prev ++ d.sym) ≠ [] := by
    split
    · next hc =>
        rw [List.getD_eq_getElem _ _ hc]
        exact h.table_ne _ (List.getElem_mem hc)
    · simp [hprevne]
  refine ⟨⟨fun s hs => ?_, ?_⟩, by simp⟩
  · rcases List.mem_append.1 hs with hs | hs
    · exact h.table_ne s hs
    · rw [List.mem_singleton.1 hs]
      simp [hprevne]
  · simpa using hphrase

/-- The decoder is full after any sequence of codes that starts with a letter, and its table has
grown by one entry for every code but the first. -/
theorem full_decode {base : List α} {c : ℕ} (hc : c < base.length) {cs : List ℕ} {d : Dec α}
    (h : decode base (c :: cs) = some d) : d.Full ∧ d.table.length = base.length + cs.length := by
  induction cs using List.reverseRecOn generalizing d with
  | nil =>
      obtain rfl : Dec.start base c = d := by simpa [decode] using h
      exact ⟨Dec.full_start hc, by simp [Dec.start]⟩
  | append_singleton cs e ih =>
      simp only [decode, List.foldlM_append] at h
      obtain ⟨d', hd', hstep⟩ := Option.bind_eq_some_iff.1 h
      obtain ⟨hfull, hlen⟩ := ih hd'
      have hstep' : d'.step e = some d := by simpa using hstep
      obtain ⟨hfull', hlen'⟩ := hfull.step hstep'
      exact ⟨hfull', by rw [hlen', hlen, List.length_append, List.length_singleton]; omega⟩

theorem decode_concat {base : List α} {cs : List ℕ} (hcs : cs ≠ []) (e : ℕ) :
    decode base (cs ++ [e]) = (decode base cs).bind (·.step e) := by
  cases cs with
  | nil => exact absurd rfl hcs
  | cons c cs =>
      simp only [List.cons_append, decode, List.foldlM_append]
      cases cs.foldlM Dec.step (Dec.start base c) <;> simp

/-- Whatever codes have been read, the table has grown by one entry for each of them but the first,
and the last one is to be looked up next. -/
theorem decode_table {base : List α} {c : ℕ} {cs : List ℕ} {d : Dec α}
    (h : decode base (c :: cs) = some d) :
    d.table.length = base.length + cs.length ∧ (c :: cs)[cs.length]? = some d.old := by
  induction cs using List.reverseRecOn generalizing d with
  | nil =>
      obtain rfl : Dec.start base c = d := by simpa [decode] using h
      simp [Dec.start]
  | append_singleton cs e ih =>
      rw [← List.cons_append, decode_concat (List.cons_ne_nil c cs)] at h
      obtain ⟨d', hd', hstep⟩ := Option.bind_eq_some_iff.1 h
      rw [Dec.step] at hstep
      obtain ⟨prev, _, rfl⟩ := Option.map_eq_some_iff.1 hstep
      refine ⟨?_, by simp⟩
      simp only [List.length_append, List.length_singleton, (ih hd').1]
      omega

/-- **What can be read**: every code with another one behind it must be in the table by then. -/
theorem exists_decode_iff {base : List α} {c : ℕ} {cs : List ℕ} :
    (∃ d, decode base (c :: cs) = some d) ↔
      ∀ m < cs.length, ∀ e, (c :: cs)[m]? = some e → e < base.length + m := by
  induction cs using List.reverseRecOn with
  | nil => simp [decode]
  | append_singleton cs e ih =>
      have hbefore : ∀ m ≤ cs.length, (c :: (cs ++ [e]))[m]? = (c :: cs)[m]? := by
        intro m hm
        rw [← List.cons_append, List.getElem?_append_left (by simpa using Nat.lt_succ_of_le hm)]
      rw [← List.cons_append, decode_concat (List.cons_ne_nil c cs)]
      constructor
      · rintro ⟨d, hd⟩ m hm e' he'
        obtain ⟨d', hd', hstep⟩ := Option.bind_eq_some_iff.1 hd
        rw [List.length_append, List.length_singleton] at hm
        rw [List.cons_append, hbefore m (by omega)] at he'
        rcases Nat.lt_succ_iff_lt_or_eq.1 hm with hlt | rfl
        · exact ih.1 ⟨d', hd'⟩ m hlt e' he'
        · obtain ⟨htable, hold⟩ := decode_table hd'
          obtain ⟨prev, hprev, _⟩ := Option.map_eq_some_iff.1 hstep
          obtain rfl : d'.old = e' := Option.some_inj.1 (hold.symm.trans he')
          rw [← htable]
          exact (List.getElem?_eq_some_iff.1 hprev).1
      · intro h
        obtain ⟨d', hd'⟩ := ih.2 fun m hm e' he' =>
          h m (by simp; omega) e' ((hbefore m hm.le).trans he')
        obtain ⟨htable, hold⟩ := decode_table hd'
        have hlt := h cs.length (by simp) d'.old ((hbefore _ le_rfl).trans hold)
        rw [hd', Option.bind_some, Dec.step, List.getElem?_eq_getElem (htable ▸ hlt)]
        exact ⟨_, rfl⟩

/-- A code that names the entry still being built: that entry is the phrase before it, extended by
its own first letter. -/
theorem Factors.growth_self {base w : List α} {ps : List (List α)} {cs : List ℕ}
    (h : Factors base w ps) (hcs : Numbers base ps cs) {m : ℕ} (hm : m + 1 < ps.length)
    (hm' : m + 1 < cs.length) (hself : cs[m + 1] = base.length + m) :
    ps[m] ++ ps[m].take 1 = ps[m + 1] := by
  have hget := hcs.get (m + 1) hm' hm
  rw [hself, dictOf_growth hm] at hget
  have hgrow : ps[m] ++ ps[m + 1].take 1 = ps[m + 1] := Option.some_inj.1 hget
  have hne : ps[m] ≠ [] := h.ne_nil _ (List.getElem_mem _)
  have hhead : ps[m].take 1 = ps[m + 1].take 1 := by
    rw [← hgrow, List.take_append_of_le_length (List.length_pos_of_ne_nil hne)]
  rw [hhead, hgrow]

/-- One step of the decoder in step with the encoder: the table catches up by the entry the
encoder added before it sent the code. -/
theorem Factors.dec_step {base w : List α} {ps : List (List α)} {cs : List ℕ}
    (h : Factors base w ps) (hcs : Numbers base ps cs) {m : ℕ} (hm : m + 1 < ps.length)
    (hm' : m + 1 < cs.length) :
    Dec.step ⟨dictOf base (ps.take (m + 1)), cs[m], ps[m].take 1, (ps.take (m + 1)).flatten⟩
        cs[m + 1]
      = some ⟨dictOf base (ps.take (m + 2)), cs[m + 1], ps[m + 1].take 1,
          (ps.take (m + 2)).flatten⟩ := by
  have hlen : (dictOf base (ps.take (m + 1))).length = base.length + m := by
    rw [length_dictOf, List.length_take]
    omega
  have hold : (dictOf base (ps.take (m + 1)))[cs[m]]? = some ps[m] := by
    rw [dictOf_take, List.getElem?_take_of_lt (hcs.lt m (by omega)),
      hcs.get m (by omega) (by omega)]
  have hlt := hcs.lt (m + 1) hm'
  have hget := hcs.get (m + 1) hm' hm
  -- the code names an entry of the table, or the one entry that is missing from it
  have hphrase : (if cs[m + 1] < (dictOf base (ps.take (m + 1))).length
      then (dictOf base (ps.take (m + 1))).getD cs[m + 1] [] else ps[m] ++ ps[m].take 1)
      = ps[m + 1] := by
    rw [hlen]
    split
    · next hc =>
        rw [List.getD_eq_getElem?_getD, dictOf_take, List.getElem?_take_of_lt hc, hget]
        rfl
    · next hc => exact h.growth_self hcs hm hm' (by omega)
  rw [Dec.step, hold]
  simp only [Option.map_some, hphrase]
  have hps : ps.take (m + 2) = ps.take (m + 1) ++ [ps[m + 1]] :=
    List.take_succ_eq_append_getElem hm
  have hps' : ps.take (m + 1) = ps.take m ++ [ps[m]] :=
    List.take_succ_eq_append_getElem (by omega)
  have hgrow : dictOf base (ps.take (m + 2))
      = dictOf base (ps.take (m + 1)) ++ [ps[m] ++ ps[m + 1].take 1] := by
    rw [hps, hps', List.append_assoc, dictOf, dictOf, List.singleton_append, growths_append_pair,
      List.append_assoc]
  rw [hgrow, hps, List.flatten_append, List.flatten_singleton]

/-- The lockstep: after `m + 1` codes the table is the dictionary of the first `m + 1` phrases,
which lacks only the entry their last one is about to add, and the output is those phrases. -/
theorem Factors.decode_take {base w : List α} {ps : List (List α)} {cs : List ℕ}
    (h : Factors base w ps) (hcs : Numbers base ps cs) :
    ∀ m (hm : m < ps.length) (hm' : m < cs.length),
      decode base (cs.take (m + 1))
        = some ⟨dictOf base (ps.take (m + 1)), cs[m], ps[m].take 1, (ps.take (m + 1)).flatten⟩ := by
  intro m
  induction m with
  | zero =>
      intro hm hm'
      have hget := hcs.get 0 hm' hm
      have hlt := hcs.lt 0 hm'
      rw [getElem?_singles (by simpa using hlt)] at hget
      have hlt' : cs[0] < base.length := by simpa using hlt
      have hp : [base[cs[0]]] = ps[0] := Option.some_inj.1 hget
      have hone : ps.take 1 = [ps[0]] := by rw [List.take_succ_eq_append_getElem hm]; simp
      have hfirst : (singles base).getD cs[0] [] = ps[0] := by
        rw [List.getD_eq_getElem _ _ (by simpa using hlt), ← hp]
        simp [singles]
      rw [decode_take_one hm', Dec.start, hfirst, hone]
      have htake : ps[0].take 1 = ps[0] := by rw [← hp]; rfl
      simp [dictOf, htake]
  | succ m ih =>
      intro hm hm'
      rw [decode_take_succ hm', ih (by omega) (by omega), Option.bind_some, h.dec_step hcs hm hm']

/-- The decoder returns the word. -/
theorem Factors.decode_out {base w : List α} {ps : List (List α)} {cs : List ℕ}
    (h : Factors base w ps) (hcs : Numbers base ps cs) (hw : w ≠ []) :
    ∃ d, decode base cs = some d ∧ d.out = w := by
  have hpos : 0 < ps.length := by
    rw [List.length_pos_iff]
    rintro rfl
    exact hw h.flatten.symm
  have hlast := h.decode_take hcs (ps.length - 1) (by omega) (by rw [hcs.length_eq]; omega)
  rw [show ps.length - 1 + 1 = ps.length by omega, List.take_of_length_le (by rw [hcs.length_eq]),
    List.take_of_length_le le_rfl, h.flatten] at hlast
  exact ⟨_, hlast, rfl⟩

end Welch
