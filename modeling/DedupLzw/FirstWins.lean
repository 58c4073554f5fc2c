/-
**Finite maps in which the first entry wins.**

Values are entered under keys one after another, and a key that has a value keeps it.  The entries
may be kept in buckets, by a number computed from the key: this loses none and repeats none,
whatever the numbers are.

This module is about lists over arbitrary types.

Main definitions:

* `FirstWins.enter` — entering a value under a key;
* `FirstWins.ofList` — the map after a list of entries.

Main results:

* `FirstWins.ofList_eq_find?` — the map finds the first entry;
* `FirstWins.ofList_eq_some_iff`, `ofList_eq_none_iff` — **the value of a key is the earliest**;
* `FirstWins.flatMap_buckets_perm` — the entries in their buckets.
-/

import Mathlib

set_option relaxedAutoImplicit false
set_option autoImplicit false

namespace FirstWins

variable {α κ β : Type}

/-! ### The map -/

section Map

variable [DecidableEq κ]

/-- A value is entered under a key, unless the key has one. -/
def enter (m : κ → Option β) (k : κ) (v : β) : κ → Option β :=
  match m k with
  | some _ => m
  | none => Function.update m k (some v)

theorem enter_of_some {m : κ → Option β} {k : κ} {x : β} (h : m k = some x) (v : β) :
    enter m k v = m := by
  rw [enter, h]

theorem enter_of_none {m : κ → Option β} {k : κ} (h : m k = none) (v : β) :
    enter m k v = Function.update m k (some v) := by
  rw [enter, h]

/-- The map after a list of entries. -/
def ofList (es : List (κ × β)) : κ → Option β :=
  es.foldl (fun m e => enter m e.1 e.2) fun _ => none

theorem ofList_concat (es : List (κ × β)) (e : κ × β) :
    ofList (es ++ [e]) = enter (ofList es) e.1 e.2 := by
  simp [ofList]

/-- The value of a key is found by going through the entries from the first one on. -/
theorem ofList_eq_find? (es : List (κ × β)) (k : κ) :
    ofList es k = (es.find? fun e => e.1 = k).map Prod.snd := by
  induction es using List.reverseRecOn generalizing k with
  | nil => rfl
  | append_singleton es e ih =>
      rw [ofList_concat, List.find?_append]
      cases hold : ofList es e.1 with
      | some x =>
          rw [enter_of_some hold, ih]
          by_cases hk : e.1 = k
          · subst hk
            rw [ih, Option.map_eq_some_iff] at hold
            obtain ⟨e', he', _⟩ := hold
            rw [he', Option.some_or]
          · simp [hk]
      | none =>
          rw [enter_of_none hold]
          by_cases hk : e.1 = k
          · subst hk
            rw [ih, Option.map_eq_none_iff] at hold
            simp [hold]
          · rw [Function.update_of_ne (Ne.symm hk), ih]
            simp [hk]

/-- A key has a value exactly when it is the one of the earliest entry with this key. -/
theorem ofList_eq_some_iff {es : List (κ × β)} {k : κ} {v : β} :
    ofList es k = some v ↔
      ∃ before after, es = before ++ (k, v) :: after ∧ ∀ e ∈ before, e.1 ≠ k := by
  rw [ofList_eq_find?, Option.map_eq_some_iff]
  constructor
  · rintro ⟨⟨k', v'⟩, hfind, rfl⟩
    obtain ⟨hk, before, after, hes, hbefore⟩ := List.find?_eq_some_iff_append.1 hfind
    obtain rfl : k' = k := by simpa using hk
    exact ⟨before, after, hes, by simpa using hbefore⟩
  · rintro ⟨before, after, hes, hbefore⟩
    refine ⟨(k, v), List.find?_eq_some_iff_append.2 ⟨by simp, before, after, hes, ?_⟩, rfl⟩
    simpa using hbefore

theorem mem_of_ofList_eq_some {es : List (κ × β)} {k : κ} {v : β} (h : ofList es k = some v) :
    (k, v) ∈ es := by
  obtain ⟨before, after, rfl, _⟩ := ofList_eq_some_iff.1 h
  exact List.mem_append_right _ List.mem_cons_self

theorem ofList_eq_none_iff {es : List (κ × β)} {k : κ} :
    ofList es k = none ↔ ∀ e ∈ es, e.1 ≠ k := by
  rw [ofList_eq_find?, Option.map_eq_none_iff, List.find?_eq_none]
  simp

end Map

/-! ### Buckets -/

/-- The entries of the buckets below `n`. -/
theorem flatMap_filter_perm (bucket : α → ℕ) (es : List α) (n : ℕ) :
    ((List.range n).flatMap fun b => es.filter fun e => bucket e = b).Perm
      (es.filter fun e => bucket e < n) := by
  induction n with
  | zero => simp
  | succ n ih =>
      -- the entries below `n + 1` are those below `n` and those in the bucket `n`
      have hsplit := List.filter_append_perm (fun e => decide (bucket e < n))
        (es.filter fun e => bucket e < n + 1)
      have hbelow : (es.filter fun e => bucket e < n + 1).filter (fun e => decide (bucket e < n))
          = es.filter fun e => bucket e < n := by
        rw [List.filter_filter]
        refine List.filter_congr fun e _ => ?_
        rw [← Bool.decide_and, decide_eq_decide]
        omega
      have hlast : (es.filter fun e => bucket e < n + 1).filter (fun e => !decide (bucket e < n))
          = es.filter fun e => bucket e = n := by
        rw [List.filter_filter]
        refine List.filter_congr fun e _ => ?_
        rw [← decide_not, ← Bool.decide_and, decide_eq_decide]
        omega
      rw [hbelow, hlast] at hsplit
      rw [List.range_succ, List.flatMap_append, List.flatMap_singleton]
      exact (ih.append_right _).trans hsplit

/-- Keeping entries in `n` buckets loses none and repeats none. -/
theorem flatMap_buckets_perm {bucket : α → ℕ} {n : ℕ} (h : ∀ a, bucket a < n) (es : List α) :
    ((List.range n).flatMap fun b => es.filter fun e => bucket e = b).Perm es := by
  have hall : es.filter (fun e => bucket e < n) = es :=
    List.filter_eq_self.2 fun e _ => decide_eq_true (h e)
  have hperm := flatMap_filter_perm bucket es n
  rwa [hall] at hperm

end FirstWins
