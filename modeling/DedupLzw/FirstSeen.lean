/-
**Numbering by first appearance, and back references.**

A stream of items is deduplicated by a key: an item whose key is new is passed on, and the keys are
numbered in the order in which they first appear; an item whose key has been seen before is replaced
by the number of that key.  The receiving side keeps the items passed on and looks the numbers up.

This module is about lists over arbitrary types.  The keys stand for the items as soon as no two
different items of the stream share one.

Main definitions:

* `FirstSeen.firsts` — the different keys in the order of their first appearance;
* `FirstSeen.numbered` — keys with their numbers;
* `FirstSeen.Entry`, `FirstSeen.entries` — the deduplicated stream;
* `FirstSeen.fresh` — the items passed on;
* `FirstSeen.expand` — the receiving side;
* `FirstSeen.origin` — the item whose number stands for an item.

Main results:

* `FirstSeen.nodup_firsts`, `mem_firsts`, `idxOf_firsts_lt_iff`, `lookup_numbered` — the numbering;
* `FirstSeen.map_key_fresh` — the items passed on are those the numbers count;
* `FirstSeen.again_lt` — a number refers to an item passed on before;
* `FirstSeen.again_origin` — **and that item is the one replaced**;
* `FirstSeen.expand_entries` — **the receiving side recovers the stream**;
* `FirstSeen.expand_entries_origin` — what it recovers when items share keys;
* `FirstSeen.entries_append_seen`, `entries_append_between` — repeated items are all numbers;
* `FirstSeen.fresh_perm` — the items passed on do not depend on the order.
-/

import Mathlib

set_option relaxedAutoImplicit false
set_option autoImplicit false

namespace FirstSeen

variable {α β κ : Type}

/-! ### The numbering -/

/-- The keys with their numbers, written as values of another type. -/
def numbered {ν : Type} (num : ℕ → ν) (ks : List κ) : List (κ × ν) :=
  ks.mapIdx fun i k => (k, num i)

theorem numbered_concat {ν : Type} (num : ℕ → ν) (ks : List κ) (k : κ) :
    numbered num (ks ++ [k]) = numbered num ks ++ [(k, num ks.length)] := by
  simp [numbered]

theorem map_fst_numbered {ν : Type} (num : ℕ → ν) (ks : List κ) :
    (numbered num ks).map Prod.fst = ks := by
  induction ks using List.reverseRecOn with
  | nil => rfl
  | append_singleton ks k ih => rw [numbered_concat, List.map_append, ih, List.map_singleton]

theorem map_snd_numbered {ν : Type} (num : ℕ → ν) (ks : List κ) :
    (numbered num ks).map Prod.snd = (List.range ks.length).map num := by
  induction ks using List.reverseRecOn with
  | nil => rfl
  | append_singleton ks k ih =>
      rw [numbered_concat, List.map_append, ih, List.length_append, List.length_singleton,
        List.range_succ, List.map_append, List.map_singleton, List.map_singleton]

variable [BEq κ] [LawfulBEq κ]

/-- One more key: it is added if it is new. -/
def see (seen : List κ) (k : κ) : List κ := if k ∈ seen then seen else seen ++ [k]

theorem see_of_mem {seen : List κ} {k : κ} (h : k ∈ seen) : see seen k = seen := if_pos h

theorem see_of_notMem {seen : List κ} {k : κ} (h : k ∉ seen) : see seen k = seen ++ [k] := if_neg h

/-- The different keys in the order of their first appearance. -/
def firsts (ks : List κ) : List κ := ks.foldl see []

@[simp] theorem firsts_nil : firsts ([] : List κ) = [] := rfl

theorem firsts_concat (ks : List κ) (k : κ) : firsts (ks ++ [k]) = see (firsts ks) k := by
  simp [firsts]

theorem mem_firsts {ks : List κ} {k : κ} : k ∈ firsts ks ↔ k ∈ ks := by
  induction ks using List.reverseRecOn generalizing k with
  | nil => simp
  | append_singleton ks l ih =>
      by_cases hl : l ∈ firsts ks
      · rw [firsts_concat, see_of_mem hl, ih]
        constructor
        · exact List.mem_append_left _
        · intro hk
          rcases List.mem_append.1 hk with hk | hk
          · exact hk
          · rw [List.mem_singleton.1 hk]
            exact ih.1 hl
      · rw [firsts_concat, see_of_notMem hl]
        simp [ih]

theorem nodup_firsts (ks : List κ) : (firsts ks).Nodup := by
  induction ks using List.reverseRecOn with
  | nil => exact List.nodup_nil
  | append_singleton ks k ih =>
      by_cases hk : k ∈ firsts ks
      · rwa [firsts_concat, see_of_mem hk]
      · rw [firsts_concat, see_of_notMem hk]
        rw [← List.concat_eq_append]
        exact ih.concat hk

theorem length_firsts_le (ks : List κ) : (firsts ks).length ≤ ks.length := by
  induction ks using List.reverseRecOn with
  | nil => exact le_rfl
  | append_singleton ks k ih =>
      rw [firsts_concat, see]
      split <;> simp <;> omega

theorem length_le_see (seen : List κ) (k : κ) : seen.length ≤ (see seen k).length := by
  unfold see
  split <;> simp

/-- A longer stream does not have fewer keys. -/
theorem length_firsts_le_append (ks ls : List κ) :
    (firsts ks).length ≤ (firsts (ks ++ ls)).length := by
  induction ls using List.reverseRecOn with
  | nil => simp
  | append_singleton ls l ih =>
      rw [← List.append_assoc, firsts_concat]
      exact ih.trans (length_le_see _ l)

/-- A key that appears for the first time gets the next number. -/
theorem idxOf_concat_self {ks : List κ} {k : κ} (h : k ∉ ks) : (ks ++ [k]).idxOf k = ks.length := by
  rw [List.idxOf_append_of_notMem h]
  simp

/-- The numbers are given in the order of the first appearances. -/
theorem idxOf_firsts_lt_iff {ks : List κ} {k l : κ} (hk : k ∈ ks) (hl : l ∈ ks) :
    (firsts ks).idxOf k < (firsts ks).idxOf l ↔ ks.idxOf k < ks.idxOf l := by
  induction ks using List.reverseRecOn with
  | nil => simp at hk
  | append_singleton ks m ih =>
      by_cases hm : m ∈ ks
      · -- nothing new
        have hmem : ∀ x ∈ ks ++ [m], x ∈ ks := by
          intro x hx
          rcases List.mem_append.1 hx with hx | hx
          · exact hx
          · rwa [List.mem_singleton.1 hx]
        rw [firsts_concat, see_of_mem (mem_firsts.2 hm), List.idxOf_append_of_mem (hmem k hk),
          List.idxOf_append_of_mem (hmem l hl)]
        exact ih (hmem k hk) (hmem l hl)
      · have hm' : m ∉ firsts ks := fun h => hm (mem_firsts.1 h)
        have hold : ∀ x ∈ ks, (firsts ks ++ [m]).idxOf x = (firsts ks).idxOf x ∧
            (ks ++ [m]).idxOf x = ks.idxOf x ∧ (firsts ks).idxOf x < (firsts ks).length ∧
            ks.idxOf x < ks.length := by
          intro x hx
          have hx' := mem_firsts.2 hx
          exact ⟨List.idxOf_append_of_mem hx', List.idxOf_append_of_mem hx,
            List.idxOf_lt_length_of_mem hx', List.idxOf_lt_length_of_mem hx⟩
        rw [firsts_concat, see_of_notMem hm']
        have hnew := idxOf_concat_self hm
        have hnew' := idxOf_concat_self hm'
        rcases List.mem_append.1 hk with hk | hk
        · obtain ⟨hk₁, hk₂, hk₃, hk₄⟩ := hold k hk
          rcases List.mem_append.1 hl with hl | hl
          · obtain ⟨hl₁, hl₂, _, _⟩ := hold l hl
            rw [hk₁, hk₂, hl₁, hl₂]
            exact ih hk hl
          · rw [List.mem_singleton.1 hl, hk₁, hk₂, hnew, hnew']
            exact iff_of_true hk₃ hk₄
        · rw [List.mem_singleton.1 hk, hnew, hnew']
          rcases List.mem_append.1 hl with hl | hl
          · obtain ⟨hl₁, hl₂, _, _⟩ := hold l hl
            rw [hl₁, hl₂]
            omega
          · rw [List.mem_singleton.1 hl, hnew, hnew']
            omega

/-- Looking a key up gives its number. -/
theorem lookup_numbered {ν : Type} (num : ℕ → ν) (ks : List κ) (k : κ) :
    (numbered num ks).lookup k = if k ∈ ks then some (num (ks.idxOf k)) else none := by
  induction ks using List.reverseRecOn with
  | nil => rfl
  | append_singleton ks l ih =>
      rw [numbered_concat, List.lookup_append, ih]
      by_cases hmem : k ∈ ks
      · simp [hmem, List.idxOf_append_of_mem]
      · by_cases hl : k = l
        · subst hl
          rw [if_neg hmem, if_pos (by simp), idxOf_concat_self hmem]
          simp
        · have hbeq : (k == l) = false := by simpa using hl
          simp [hmem, hl, List.lookup, hbeq]

/-! ### The deduplicated stream -/

/-- An item of the deduplicated stream. -/
inductive Entry (α : Type) where
  /-- An item passed on. -/
  | fresh (a : α)
  /-- The number of a key seen before. -/
  | again (n : ℕ)
deriving DecidableEq, Repr

/-- The item passed on, if any. -/
def Entry.fresh? : Entry α → Option α
  | .fresh a => some a
  | .again _ => none

/-- What stands for the item `a` after the keys `seen`. -/
def entry (key : α → κ) (seen : List κ) (a : α) : Entry α :=
  if key a ∈ seen then .again (seen.idxOf (key a)) else .fresh a

/-- The deduplicated stream, after the keys `seen`. -/
def entriesAfter (key : α → κ) (seen : List κ) : List α → List (Entry α)
  | [] => []
  | a :: as => entry key seen a :: entriesAfter key (see seen (key a)) as

/-- The deduplicated stream. -/
def entries (key : α → κ) (as : List α) : List (Entry α) := entriesAfter key [] as

/-- The items of a stream that are passed on. -/
def fresh (es : List (Entry α)) : List α := es.filterMap Entry.fresh?

@[simp] theorem fresh_nil : fresh ([] : List (Entry α)) = [] := rfl

@[simp] theorem fresh_append (es fs : List (Entry α)) :
    fresh (es ++ fs) = fresh es ++ fresh fs := by
  simp [fresh]

@[simp] theorem fresh_fresh (a : α) : fresh [Entry.fresh a] = [a] := rfl

@[simp] theorem fresh_again (n : ℕ) : fresh [(Entry.again n : Entry α)] = [] := rfl

section Entries

variable (key : α → κ)

@[simp] theorem entries_nil : entries key [] = [] := rfl

theorem entriesAfter_append (seen : List κ) (as bs : List α) :
    entriesAfter key seen (as ++ bs)
      = entriesAfter key seen as ++ entriesAfter key ((as.map key).foldl see seen) bs := by
  induction as generalizing seen with
  | nil => rfl
  | cons a as ih =>
      rw [List.cons_append, entriesAfter, ih, entriesAfter, List.map_cons, List.foldl_cons,
        List.cons_append]

theorem entries_append (as bs : List α) :
    entries key (as ++ bs) = entries key as ++ entriesAfter key (firsts (as.map key)) bs := by
  rw [entries, entriesAfter_append]
  rfl

/-- One more item. -/
theorem entries_concat (as : List α) (a : α) :
    entries key (as ++ [a]) = entries key as ++ [entry key (firsts (as.map key)) a] := by
  rw [entries_append]
  rfl

theorem length_entriesAfter (seen : List κ) (as : List α) :
    (entriesAfter key seen as).length = as.length := by
  induction as generalizing seen with
  | nil => rfl
  | cons a as ih => rw [entriesAfter, List.length_cons, ih, List.length_cons]

@[simp] theorem length_entries (as : List α) : (entries key as).length = as.length :=
  length_entriesAfter key [] as

theorem entries_take (as : List α) (n : ℕ) : (entries key as).take n = entries key (as.take n) := by
  rcases Nat.lt_or_ge n as.length with h | h
  · conv_lhs => rw [← List.take_append_drop n as, entries_append]
    have hlen : (entries key (as.take n)).length = n := by
      rw [length_entries, List.length_take]
      omega
    rw [List.take_append_of_le_length (le_of_eq hlen.symm), List.take_of_length_le (le_of_eq hlen)]
  · rw [List.take_of_length_le (by simpa using h), List.take_of_length_le h]

/-- The entry at a position. -/
theorem getElem?_entries {as : List α} {n : ℕ} {a : α} (h : as[n]? = some a) :
    (entries key as)[n]? = some (entry key (firsts ((as.take n).map key)) a) := by
  obtain ⟨hn, hget⟩ := List.getElem?_eq_some_iff.1 h
  have htake := entries_take key as (n + 1)
  rw [List.take_succ_eq_append_getElem hn, entries_concat, hget] at htake
  have hlen : (entries key (as.take n)).length = n := by
    rw [length_entries, List.length_take]
    omega
  have hlt : n < n + 1 := Nat.lt_succ_self n
  rw [← List.getElem?_take_of_lt hlt, htake, List.getElem?_append_right (le_of_eq hlen), hlen]
  simp

/-- The items passed on are those whose key has not been there before. -/
theorem fresh_mem_entries {as : List α} {a : α} :
    .fresh a ∈ entries key as ↔ ∃ n, as[n]? = some a ∧ key a ∉ (as.take n).map key := by
  rw [List.mem_iff_getElem?]
  constructor
  · rintro ⟨n, hn⟩
    have hlt := (List.getElem?_eq_some_iff.1 hn).1
    rw [length_entries] at hlt
    rw [getElem?_entries key (List.getElem?_eq_getElem hlt), Option.some_inj] at hn
    unfold entry at hn
    split at hn
    · simp at hn
    · next hnew =>
        obtain rfl : as[n] = a := by simpa using hn
        exact ⟨n, List.getElem?_eq_getElem hlt, fun hmem => hnew (mem_firsts.2 hmem)⟩
  · rintro ⟨n, hn, hnew⟩
    refine ⟨n, ?_⟩
    rw [getElem?_entries key hn, entry, if_neg fun hmem => hnew (mem_firsts.1 hmem)]

/-- The items passed on are those the numbers count. -/
theorem map_key_fresh (as : List α) : (fresh (entries key as)).map key = firsts (as.map key) := by
  induction as using List.reverseRecOn with
  | nil => rfl
  | append_singleton as a ih =>
      rw [entries_concat, fresh_append, List.map_append, ih, List.map_append, List.map_singleton,
        firsts_concat, entry]
      by_cases ha : key a ∈ firsts (as.map key)
      · rw [if_pos ha, see_of_mem ha]
        simp
      · rw [if_neg ha, see_of_notMem ha]
        simp

theorem mem_of_mem_fresh {as : List α} {a : α} (h : a ∈ fresh (entries key as)) : a ∈ as := by
  induction as using List.reverseRecOn with
  | nil => exact h
  | append_singleton as b ih =>
      rw [entries_concat, fresh_append, List.mem_append] at h
      rcases h with h | h
      · exact List.mem_append_left _ (ih h)
      · refine List.mem_append_right _ ?_
        unfold entry at h
        split at h
        · simp at h
        · exact h

theorem mem_fresh {es : List (Entry α)} {a : α} : a ∈ fresh es ↔ .fresh a ∈ es := by
  rw [fresh, List.mem_filterMap]
  constructor
  · rintro ⟨e, he, hfresh⟩
    cases e with
    | fresh b =>
        obtain rfl : b = a := by simpa [Entry.fresh?] using hfresh
        exact he
    | again n => simp [Entry.fresh?] at hfresh
  · exact fun h => ⟨_, h, rfl⟩

/-- When no two different items of the stream share a key, every item is passed on once. -/
theorem fresh_of_mem {as : List α} (hinj : ∀ a ∈ as, ∀ a' ∈ as, key a = key a' → a = a') {a : α}
    (h : a ∈ as) : .fresh a ∈ entries key as := by
  have hkey : key a ∈ firsts (as.map key) := mem_firsts.2 (List.mem_map_of_mem h)
  rw [← map_key_fresh] at hkey
  obtain ⟨a', ha', hsame⟩ := List.mem_map.1 hkey
  rw [hinj a h a' (mem_of_mem_fresh key ha') hsame.symm]
  exact mem_fresh.1 ha'

/-- The item a number stands for: it was passed on before, and has the key of the item replaced. -/
theorem entry_again {as : List α} {a : α} {i : ℕ}
    (h : entry key (firsts (as.map key)) a = .again i) :
    ∃ a', (fresh (entries key as))[i]? = some a' ∧ key a' = key a := by
  unfold entry at h
  split at h
  · next hkey =>
      obtain rfl : (firsts (as.map key)).idxOf (key a) = i := by simpa using h
      have hlt := List.idxOf_lt_length_of_mem hkey
      have hget : (firsts (as.map key))[(firsts (as.map key)).idxOf (key a)]? = some (key a) := by
        rw [List.getElem?_eq_getElem hlt, List.getElem_idxOf]
      rw [← map_key_fresh, List.getElem?_map] at hget
      obtain ⟨a', ha', hkey'⟩ := Option.map_eq_some_iff.1 hget
      rw [map_key_fresh] at ha'
      exact ⟨a', ha', hkey'⟩
  · simp at h

/-- A number refers to an item passed on before. -/
theorem again_lt {as : List α} {n i : ℕ} (h : (entries key as)[n]? = some (.again i)) :
    i < (fresh (entries key (as.take n))).length := by
  have hn : n < as.length := by
    have := (List.getElem?_eq_some_iff.1 h).1
    rwa [length_entries] at this
  rw [getElem?_entries key (List.getElem?_eq_getElem hn)] at h
  obtain ⟨a', ha', _⟩ := entry_again key (Option.some_inj.1 h)
  exact (List.getElem?_eq_some_iff.1 ha').1

/-- Where an item passed on stands in the stream. -/
theorem fresh_origin {as : List α} {i : ℕ} {a : α} (h : (fresh (entries key as))[i]? = some a) :
    ∃ m, as[m]? = some a ∧ (entries key as)[m]? = some (.fresh a) ∧
      (fresh (entries key (as.take m))).length = i := by
  induction as using List.reverseRecOn with
  | nil => simp at h
  | append_singleton as b ih =>
      rw [entries_concat, fresh_append] at h
      rcases Nat.lt_or_ge i (fresh (entries key as)).length with hi | hi
      · rw [List.getElem?_append_left hi] at h
        obtain ⟨m, hm, hentry, hlen⟩ := ih h
        have hlt := (List.getElem?_eq_some_iff.1 hm).1
        refine ⟨m, by rw [List.getElem?_append_left hlt, hm], ?_, ?_⟩
        · rw [entries_concat, List.getElem?_append_left (by simpa using hlt), hentry]
        · rw [List.take_append_of_le_length hlt.le, hlen]
      · rw [List.getElem?_append_right hi] at h
        have hnew : entry key (firsts (as.map key)) b = .fresh b := by
          unfold entry at h ⊢
          split
          · next hkey => simp [hkey] at h
          · rfl
        rw [hnew, fresh_fresh, List.getElem?_singleton] at h
        obtain ⟨hzero, rfl⟩ : i - (fresh (entries key as)).length = 0 ∧ b = a := by simpa using h
        refine ⟨as.length, by simp, ?_, by simp; omega⟩
        rw [entries_concat, hnew, List.getElem?_append_right (by simp)]
        simp

/-- When no two different items of the stream share a key, the item replaced is the one its number
refers to. -/
theorem again_origin {as : List α} (hinj : ∀ a ∈ as, ∀ a' ∈ as, key a = key a' → a = a') {n i : ℕ}
    (h : (entries key as)[n]? = some (.again i)) :
    ∃ m < n, as[m]? = as[n]? ∧ (∃ a, (entries key as)[m]? = some (.fresh a)) ∧
      (fresh (entries key (as.take m))).length = i := by
  have hn : n < as.length := by
    have := (List.getElem?_eq_some_iff.1 h).1
    rwa [length_entries] at this
  rw [getElem?_entries key (List.getElem?_eq_getElem hn)] at h
  obtain ⟨a', ha', hkey⟩ := entry_again key (Option.some_inj.1 h)
  obtain ⟨m, hm, hentry, hlen⟩ := fresh_origin key ha'
  have hmn : m < n := by
    have := (List.getElem?_eq_some_iff.1 hm).1
    rw [List.length_take] at this
    omega
  rw [List.getElem?_take_of_lt hmn] at hm
  have hsame : a' = as[n] :=
    hinj _ (List.mem_of_getElem? hm) _ (List.getElem_mem _) hkey
  refine ⟨m, hmn, ?_, ⟨a', ?_⟩, ?_⟩
  · rw [hm, List.getElem?_eq_getElem hn, hsame]
  · rw [← entries_take, List.getElem?_take_of_lt hmn] at hentry
    exact hentry
  · rwa [List.take_take, min_eq_left hmn.le] at hlen

/-! ### Items seen before, and items in another order -/

theorem foldl_see_of_subset {seen ks : List κ} (h : ∀ k ∈ ks, k ∈ seen) :
    ks.foldl see seen = seen := by
  induction ks with
  | nil => rfl
  | cons k ks ih =>
      rw [List.foldl_cons, see_of_mem (h k List.mem_cons_self)]
      exact ih fun l hl => h l (List.mem_cons_of_mem _ hl)

/-- Keys seen before are not counted again. -/
theorem firsts_append_seen {ks ls : List κ} (h : ∀ l ∈ ls, l ∈ ks) :
    firsts (ks ++ ls) = firsts ks := by
  rw [firsts, List.foldl_append]
  exact foldl_see_of_subset fun l hl => mem_firsts.2 (h l hl)

/-- Items whose keys have been seen before become numbers. -/
theorem entriesAfter_of_subset {seen : List κ} {bs : List α} (h : ∀ b ∈ bs, key b ∈ seen) :
    entriesAfter key seen bs = bs.map fun b => .again (seen.idxOf (key b)) := by
  induction bs with
  | nil => rfl
  | cons b bs ih =>
      have hb := h b List.mem_cons_self
      rw [entriesAfter, see_of_mem hb, ih fun c hc => h c (List.mem_cons_of_mem _ hc), entry,
        if_pos hb, List.map_cons]

theorem entries_append_seen {as bs : List α} (h : ∀ b ∈ bs, key b ∈ as.map key) :
    entries key (as ++ bs) = entries key as ++
      bs.map fun b => .again ((firsts (as.map key)).idxOf (key b)) := by
  rw [entries_append, entriesAfter_of_subset key fun b hb => mem_firsts.2 (h b hb)]

/-- Keys that have a number keep it. -/
theorem idxOf_foldl_see {seen : List κ} {k : κ} (h : k ∈ seen) (ks : List κ) :
    k ∈ ks.foldl see seen ∧ (ks.foldl see seen).idxOf k = seen.idxOf k := by
  induction ks using List.reverseRecOn with
  | nil => exact ⟨h, rfl⟩
  | append_singleton ks l ih =>
      obtain ⟨hmem, hidx⟩ := ih
      rw [List.foldl_concat, see]
      split
      · exact ⟨hmem, hidx⟩
      · rw [List.idxOf_append_of_mem hmem]
        exact ⟨List.mem_append_left _ hmem, hidx⟩

theorem length_foldl_see_le (seen ks : List κ) :
    (ks.foldl see seen).length ≤ seen.length + ks.length := by
  induction ks using List.reverseRecOn with
  | nil => simp
  | append_singleton ks k ih =>
      rw [List.foldl_concat, see, List.length_append, List.length_singleton]
      split
      · omega
      · rw [List.length_append, List.length_singleton]
        omega

/-- Items seen before become the numbers that they have, also when other items stand between
them. -/
theorem entries_append_between {as before between behind : List α}
    (hbefore : ∀ b ∈ before, key b ∈ as.map key) (hbehind : ∀ b ∈ behind, key b ∈ as.map key) :
    entries key (as ++ (before ++ (between ++ behind))) = entries key as ++
      (before.map (fun b => .again ((firsts (as.map key)).idxOf (key b))) ++
        (entriesAfter key (firsts (as.map key)) between ++
          behind.map fun b => .again ((firsts (as.map key)).idxOf (key b)))) := by
  have hseen := fun b hb => mem_firsts.2 (hbefore b hb)
  have hkeys : ∀ k ∈ before.map key, k ∈ firsts (as.map key) := by
    intro k hk
    obtain ⟨b, hb, rfl⟩ := List.mem_map.1 hk
    exact hseen b hb
  have hlater := fun b hb => idxOf_foldl_see (mem_firsts.2 (hbehind b hb)) (between.map key)
  have hnumbers : behind.map (fun b => (.again
        (((between.map key).foldl see (firsts (as.map key))).idxOf (key b)) : Entry α))
      = behind.map fun b => .again ((firsts (as.map key)).idxOf (key b)) :=
    List.map_congr_left fun b hb => congrArg Entry.again (hlater b hb).2
  rw [entries_append, entriesAfter_append, entriesAfter_append, foldl_see_of_subset hkeys,
    entriesAfter_of_subset key hseen, entriesAfter_of_subset key fun b hb => (hlater b hb).1,
    hnumbers]

/-- Then only the items between them can have new keys. -/
theorem length_firsts_append_between {ks before behind : List κ} (between : List κ)
    (hbefore : ∀ k ∈ before, k ∈ ks) (hbehind : ∀ k ∈ behind, k ∈ ks) :
    (firsts (ks ++ (before ++ (between ++ behind)))).length
      ≤ (firsts ks).length + between.length := by
  have hlater := fun k hk => (idxOf_foldl_see (mem_firsts.2 (hbehind k hk)) between).1
  have hle := length_foldl_see_le (firsts ks) between
  rw [firsts, List.foldl_append, List.foldl_append, List.foldl_append, ← firsts,
    foldl_see_of_subset fun k hk => mem_firsts.2 (hbefore k hk), foldl_see_of_subset hlater]
  exact hle

theorem nodup_fresh (as : List α) : (fresh (entries key as)).Nodup := by
  have hnodup := nodup_firsts (as.map key)
  rw [← map_key_fresh] at hnodup
  exact hnodup.of_map key

/-- When no two different items share a key, the items passed on do not depend on the order of the
stream. -/
theorem fresh_perm {as bs : List α} (h : as.Perm bs)
    (hinj : ∀ a ∈ as, ∀ a' ∈ as, key a = key a' → a = a') :
    (fresh (entries key as)).Perm (fresh (entries key bs)) := by
  have hinj' : ∀ b ∈ bs, ∀ b' ∈ bs, key b = key b' → b = b' := fun b hb b' hb' =>
    hinj b (h.mem_iff.2 hb) b' (h.mem_iff.2 hb')
  refine (List.perm_ext_iff_of_nodup (nodup_fresh key as) (nodup_fresh key bs)).2 fun a => ?_
  constructor
  · intro ha
    exact mem_fresh.2 (fresh_of_mem key hinj' (h.mem_iff.1 (mem_of_mem_fresh key ha)))
  · intro ha
    exact mem_fresh.2 (fresh_of_mem key hinj (h.mem_iff.2 (mem_of_mem_fresh key ha)))

/-- A sum over a deduplicated stream in which all numbers count the same. -/
theorem sum_map_entries {g : Entry α → ℤ} {c : ℤ} (hg : ∀ n, g (.again n) = c)
    (es : List (Entry α)) :
    (es.map g).sum
      = ((fresh es).map fun a => g (.fresh a)).sum + c * ((es.length : ℤ) - (fresh es).length) := by
  induction es with
  | nil => simp
  | cons e es ih =>
      cases e with
      | fresh a =>
          have hfresh : fresh (.fresh a :: es) = a :: fresh es := rfl
          rw [hfresh, List.map_cons, List.map_cons, List.sum_cons, List.sum_cons, ih]
          push_cast [List.length_cons]
          ring
      | again n =>
          have hfresh : fresh (.again n :: es) = fresh es := rfl
          rw [hfresh, List.map_cons, List.sum_cons, ih, hg]
          push_cast [List.length_cons]
          ring

/-- A sum over the items that become numbers: that over all, less that over those passed on. -/
theorem sum_zip_entries (h : α → ℤ) (as : List α) :
    ((as.zip (entries key as)).map fun p =>
        match p.2 with
        | .fresh _ => 0
        | .again _ => h p.1).sum
      = (as.map h).sum - ((fresh (entries key as)).map h).sum := by
  induction as using List.reverseRecOn with
  | nil => rfl
  | append_singleton as a ih =>
      rw [entries_concat, List.zip_append (by simp), List.map_append, List.sum_append, ih,
        fresh_append, List.map_append, List.map_append, List.sum_append, List.sum_append, entry]
      split
      · simp
        ring
      · simp

/-! ### The item a number stands for -/

/-- The first item that has the key of `a`. -/
def origin (as : List α) (a : α) : α := (as.find? fun b => key b == key a).getD a

theorem origin_eq {as : List α} {n : ℕ} {a b : α} (h : as[n]? = some b)
    (hnew : key b ∉ (as.take n).map key) (hkey : key b = key a) : origin key as a = b := by
  obtain ⟨hn, hget⟩ := List.getElem?_eq_some_iff.1 h
  have hbefore : (as.take n).find? (fun c => key c == key a) = none := by
    rw [List.find?_eq_none]
    intro c hc hsame
    refine hnew ?_
    rw [hkey, ← eq_of_beq hsame]
    exact List.mem_map_of_mem hc
  rw [origin, ← List.take_append_drop n as, List.find?_append, hbefore, Option.none_or,
    List.drop_eq_getElem_cons hn, hget, List.find?_cons_of_pos (by simpa using hkey),
    Option.getD_some]

theorem mem_origin {as : List α} {a : α} (h : a ∈ as) :
    origin key as a ∈ as ∧ key (origin key as a) = key a := by
  obtain ⟨b, hb⟩ : ∃ b, as.find? (fun b => key b == key a) = some b :=
    Option.isSome_iff_exists.1 (List.find?_isSome.2 ⟨a, h, beq_self_eq_true _⟩)
  rw [origin, hb, Option.getD_some]
  have hkey := List.find?_some (p := fun b => key b == key a) hb
  exact ⟨List.mem_of_find?_eq_some hb, eq_of_beq hkey⟩

/-- When no two different items share a key, it is the item itself. -/
theorem origin_eq_self {as : List α} (hinj : ∀ a ∈ as, ∀ a' ∈ as, key a = key a' → a = a') {a : α}
    (h : a ∈ as) : origin key as a = a :=
  hinj _ (mem_origin key h).1 _ h (mem_origin key h).2

/-- It is one of the items passed on. -/
theorem fresh_origin_mem {as : List α} {a : α} (h : a ∈ as) :
    .fresh (origin key as a) ∈ entries key as := by
  have hkey : key a ∈ firsts (as.map key) := mem_firsts.2 (List.mem_map_of_mem h)
  rw [← map_key_fresh] at hkey
  obtain ⟨b, hb, hsame⟩ := List.mem_map.1 hkey
  obtain ⟨n, hn, hnew⟩ := (fresh_mem_entries key).1 (mem_fresh.1 hb)
  rw [origin_eq key hn hnew hsame]
  exact mem_fresh.1 hb

/-- A longer stream does not change it. -/
theorem origin_append {as : List α} {a : α} (h : key a ∈ as.map key) (bs : List α) :
    origin key (as ++ bs) a = origin key as a := by
  obtain ⟨b, hb, hkey⟩ := List.mem_map.1 h
  have hfound : (as.find? fun c => key c == key a).isSome := by
    rw [List.find?_isSome]
    exact ⟨b, hb, by simpa using hkey⟩
  obtain ⟨c, hc⟩ := Option.isSome_iff_exists.1 hfound
  rw [origin, origin, List.find?_append, hc, Option.some_or]

/-- The number of an item refers to the first item with its key. -/
theorem origin_of_again {as : List α} {a : α} {i : ℕ}
    (h : entry key (firsts (as.map key)) a = .again i) :
    (fresh (entries key as))[i]? = some (origin key as a) := by
  obtain ⟨b, hb, hkey⟩ := entry_again key h
  obtain ⟨n, hn, hnew⟩ := (fresh_mem_entries key).1 (mem_fresh.1 (List.mem_of_getElem? hb))
  rw [hb, origin_eq key hn hnew hkey]

end Entries

/-! ### The receiving side -/

/-- An entry over other items. -/
def Entry.map (f : α → β) : Entry α → Entry β
  | .fresh a => .fresh (f a)
  | .again n => .again n

/-- The receiving side: it keeps the items passed on, and looks the numbers up among them. -/
def expand (db : List β) : List (Entry β) → List (Option β)
  | [] => []
  | .fresh b :: es => some b :: expand (db ++ [b]) es
  | .again n :: es => db[n]? :: expand db es

theorem expand_append (db : List β) (es fs : List (Entry β)) :
    expand db (es ++ fs) = expand db es ++ expand (db ++ fresh es) fs := by
  induction es generalizing db with
  | nil => simp [expand]
  | cons e es ih =>
      cases e with
      | fresh b =>
          rw [List.cons_append, expand, ih, expand, List.cons_append, List.append_assoc]
          rfl
      | again n =>
          rw [List.cons_append, expand, ih, expand, List.cons_append]
          rfl

theorem fresh_map (f : α → β) (es : List (Entry α)) :
    fresh (es.map (Entry.map f)) = (fresh es).map f := by
  induction es with
  | nil => rfl
  | cons e es ih =>
      cases e with
      | fresh a => exact congrArg (f a :: ·) ih
      | again n => exact ih

/-- The receiving side recovers for every item the first one with its key. -/
theorem expand_entries_origin (key : α → κ) (f : α → β) (as : List α) :
    expand [] ((entries key as).map (Entry.map f))
      = as.map fun a => some (f (origin key as a)) := by
  induction as using List.reverseRecOn with
  | nil => rfl
  | append_singleton as a ih =>
      have hold : (as.map fun b => some (f (origin key (as ++ [a]) b)))
          = as.map fun b => some (f (origin key as b)) := by
        refine List.map_congr_left fun b hb => ?_
        rw [origin_append key (List.mem_map_of_mem hb)]
      rw [entries_concat, List.map_append, expand_append, ih, fresh_map, List.map_append, hold,
        List.nil_append]
      congr 1
      cases hentry : entry key (firsts (as.map key)) a with
      | fresh b =>
          unfold entry at hentry
          split at hentry
          · simp at hentry
          · next hnew =>
              obtain rfl : a = b := by simpa using hentry
              have hself : (as ++ [a])[as.length]? = some a := by simp
              have hnew' : key a ∉ ((as ++ [a]).take as.length).map key := by
                rw [List.take_left]
                exact fun hmem => hnew (mem_firsts.2 hmem)
              rw [List.map_singleton, List.map_singleton, origin_eq key hself hnew' rfl]
              rfl
      | again i =>
          have horigin := origin_of_again key hentry
          obtain ⟨b, hb, hkey⟩ := entry_again key hentry
          have hmem : key a ∈ as.map key :=
            hkey ▸ List.mem_map_of_mem (mem_of_mem_fresh key (List.mem_of_getElem? hb))
          simp [Entry.map, expand, horigin, origin_append key hmem]

/-- The receiving side recovers the stream, when no two different items of it share a key. -/
theorem expand_entries (key : α → κ) (f : α → β) (as : List α)
    (hinj : ∀ a ∈ as, ∀ a' ∈ as, key a = key a' → a = a') :
    expand [] ((entries key as).map (Entry.map f)) = as.map fun a => some (f a) := by
  rw [expand_entries_origin]
  exact List.map_congr_left fun a ha => by rw [origin_eq_self key hinj ha]

end FirstSeen
