/-
**A heap of blocks, and chains linked through it.**

The heap is a finite map from addresses to blocks.  `malloc` puts a block at an address that is not
in use, whichever one the allocator prefers; an address may be used again once its block has been
freed.  Reading, writing or freeing a block that is not there fails, so a program that does not fail
never uses a block after it was freed and never frees one twice.

A data structure in the heap is described by the addresses it owns.  `Extends h₀ h A` says that the
heap `h` is `h₀` and, apart from it, the blocks at the addresses `A`: whatever happens to these, the
rest of the heap is as it was, and if they are freed the heap is `h₀` again.

A chain of nodes is linked by an optional pointer from each node to the next.  `Segment q l` is the
part of a chain that holds the nodes `l` and goes on with the pointer `q`.

Main definitions:

* `BlockHeap.Heap`, `Allocator`, `malloc`, `store`, `free` — the heap and its operations;
* `BlockHeap.Extends` — what a data structure owns, and what it leaves alone;
* `BlockHeap.Segment` — a part of a linked chain.

Main results:

* `BlockHeap.Extends.malloc`, `store`, `free`, `insert` — how ownership changes;
* `BlockHeap.Extends.eq` — **who owns nothing has changed nothing**;
* `BlockHeap.segment_append`, `Segment.congr`, `Segment.concat` — the algebra of chains.
-/

import Mathlib

set_option relaxedAutoImplicit false
set_option autoImplicit false

namespace BlockHeap

variable {V : Type}

/-! ### The heap -/

/-- The blocks in use, by their addresses. -/
abbrev Heap (V : Type) : Type := Finmap fun _ : ℕ => V

/-- Where new blocks are put: at an address that is not in use. -/
structure Allocator where
  pick : Finset ℕ → ℕ
  pick_notMem : ∀ used, pick used ∉ used

/-- The allocator that puts every block behind all others. -/
def bump : Allocator where
  pick used := used.sup id + 1
  pick_notMem used hmem := by
    have hle : used.sup id + 1 ≤ used.sup id := Finset.le_sup (f := id) hmem
    exact Nat.not_succ_le_self _ hle

/-- A new block with these contents: its address, and the heap with it. -/
def malloc (al : Allocator) (v : V) (h : Heap V) : ℕ × Heap V :=
  (al.pick h.keys, h.insert (al.pick h.keys) v)

/-- Overwriting a block. -/
def store (p : ℕ) (v : V) (h : Heap V) : Option (Heap V) := (h.lookup p).map fun _ => h.insert p v

/-- Freeing a block. -/
def free (p : ℕ) (h : Heap V) : Option (Heap V) := (h.lookup p).map fun _ => h.erase p

theorem malloc_notMem (al : Allocator) (v : V) (h : Heap V) : (malloc al v h).1 ∉ h :=
  fun hmem => al.pick_notMem h.keys (Finmap.mem_keys.2 hmem)

theorem malloc_snd (al : Allocator) (v : V) (h : Heap V) :
    (malloc al v h).2 = h.insert (malloc al v h).1 v := rfl

theorem store_of_lookup {p : ℕ} {v w : V} {h : Heap V} (hp : h.lookup p = some w) :
    store p v h = some (h.insert p v) := by
  rw [store, hp, Option.map_some]

theorem free_of_lookup {p : ℕ} {w : V} {h : Heap V} (hp : h.lookup p = some w) :
    free p h = some (h.erase p) := by
  rw [free, hp, Option.map_some]

/-! ### Ownership -/

/-- The heap `h` consists of `h₀` and of blocks at the addresses `A`. -/
structure Extends (h₀ h : Heap V) (A : List ℕ) : Prop where
  new : ∀ p ∈ A, p ∉ h₀
  rest : ∀ p, p ∉ A → h.lookup p = h₀.lookup p

variable {h₀ h : Heap V} {A B : List ℕ} {p : ℕ} {v w : V}

theorem Extends.refl (h : Heap V) : Extends h h [] := ⟨by simp, fun _ _ => rfl⟩

/-- Who owns nothing has changed nothing. -/
theorem Extends.eq (h' : Extends h₀ h []) : h = h₀ :=
  Finmap.ext_lookup fun p => h'.rest p List.not_mem_nil

theorem Extends.congr (h' : Extends h₀ h A) (hAB : ∀ p, p ∈ B ↔ p ∈ A) : Extends h₀ h B :=
  ⟨fun p hp => h'.new p ((hAB p).1 hp), fun p hp => h'.rest p fun hA => hp ((hAB p).2 hA)⟩

/-- What is not in use is not owned and not part of the rest either, if all that is owned is in
use. -/
theorem Extends.notMem (h' : Extends h₀ h A) (hp : p ∉ h) (hlive : ∀ a ∈ A, a ∈ h) :
    p ∉ A ∧ p ∉ h₀ := by
  have hA : p ∉ A := fun hmem => hp (hlive p hmem)
  refine ⟨hA, fun hmem => hp ?_⟩
  rw [← Finmap.lookup_isSome, h'.rest p hA, Finmap.lookup_isSome]
  exact hmem

/-- A new block is owned. -/
theorem Extends.malloc (h' : Extends h₀ h A) (hp : p ∉ h₀) :
    Extends h₀ (h.insert p v) (p :: A) where
  new := by
    intro q hq
    rcases List.mem_cons.1 hq with rfl | hq
    · exact hp
    · exact h'.new q hq
  rest := by
    intro q hq
    rw [List.mem_cons, not_or] at hq
    rw [Finmap.lookup_insert_of_ne _ hq.1, h'.rest q hq.2]

/-- What is owned may be overwritten. -/
theorem Extends.store (h' : Extends h₀ h A) (hp : p ∈ A) : Extends h₀ (h.insert p v) A where
  new := h'.new
  rest := by
    intro q hq
    have hne : q ≠ p := by
      rintro rfl
      exact hq hp
    rw [Finmap.lookup_insert_of_ne _ hne, h'.rest q hq]

/-- A block that is freed is not owned any more. -/
theorem Extends.free (h' : Extends h₀ h (p :: A)) : Extends h₀ (h.erase p) A where
  new := fun q hq => h'.new q (List.mem_cons_of_mem _ hq)
  rest := by
    intro q hq
    by_cases heq : q = p
    · have hnone := Finmap.lookup_eq_none.2 (h'.new p List.mem_cons_self)
      rw [heq, Finmap.lookup_erase, hnone]
    · rw [Finmap.lookup_erase_ne heq, h'.rest q (by simp [heq, hq])]

/-- The rest may change as well, as long as it leaves alone what is owned. -/
theorem Extends.insert (h' : Extends h₀ h A) (hp : p ∉ A) :
    Extends (h₀.insert p v) (h.insert p v) A where
  new := by
    intro q hq hmem
    rcases Finmap.mem_insert.1 hmem with rfl | hmem
    · exact hp hq
    · exact h'.new q hq hmem
  rest := by
    intro q hq
    by_cases heq : q = p
    · rw [heq, Finmap.lookup_insert, Finmap.lookup_insert]
    · rw [Finmap.lookup_insert_of_ne _ heq, Finmap.lookup_insert_of_ne _ heq, h'.rest q hq]

theorem Extends.erase (h' : Extends h₀ h A) (p : ℕ) :
    Extends (h₀.erase p) (h.erase p) A where
  new := fun q hq hmem => h'.new q hq (Finmap.mem_erase.1 hmem).2
  rest := by
    intro q hq
    by_cases heq : q = p
    · rw [heq, Finmap.lookup_erase, Finmap.lookup_erase]
    · rw [Finmap.lookup_erase_ne heq, Finmap.lookup_erase_ne heq, h'.rest q hq]

theorem insert_of_lookup (hp : h.lookup p = some v) : h.insert p v = h := by
  refine Finmap.ext_lookup fun q => ?_
  by_cases heq : q = p
  · rw [heq, Finmap.lookup_insert, hp]
  · rw [Finmap.lookup_insert_of_ne _ heq]

theorem erase_insert (hp : p ∉ h) : (h.insert p v).erase p = h := by
  refine Finmap.ext_lookup fun q => ?_
  by_cases heq : q = p
  · rw [heq, Finmap.lookup_erase, Finmap.lookup_eq_none.2 hp]
  · rw [Finmap.lookup_erase_ne heq, Finmap.lookup_insert_of_ne _ heq]

/-! ### Chains -/

section Chains

variable {α : Type} (addr : α → ℕ) (cell : α → Option ℕ → V)

/-- The pointer to the first of the nodes `l`, or `q` if there is none. -/
def link (q : Option ℕ) : List α → Option ℕ
  | [] => q
  | a :: _ => some (addr a)

/-- The nodes `l` are linked, and the last one points to `q`. -/
def Segment (h : Heap V) (q : Option ℕ) : List α → Prop
  | [] => True
  | a :: l => h.lookup (addr a) = some (cell a (link addr q l)) ∧ Segment h q l

variable {addr cell} {q : Option ℕ} {l l' : List α} {a b : α}

theorem link_append : link addr q (l ++ l') = link addr (link addr q l') l := by
  cases l <;> rfl

theorem link_append_cons : link addr q (l ++ a :: l') = link addr (some (addr a)) l := by
  cases l <;> rfl

theorem exists_link_concat : ∃ p, link addr q (l ++ [a]) = some p := by
  cases l with
  | nil => exact ⟨_, rfl⟩
  | cons b l => exact ⟨_, rfl⟩

theorem segment_append :
    Segment addr cell h q (l ++ l') ↔
      Segment addr cell h (link addr q l') l ∧ Segment addr cell h q l' := by
  induction l with
  | nil => simp [Segment]
  | cons a l ih => rw [List.cons_append, Segment, Segment, ih, link_append, and_assoc]

/-- A chain depends on the blocks of its nodes only. -/
theorem Segment.congr {h' : Heap V} (hl : Segment addr cell h q l)
    (hsame : ∀ a ∈ l, h'.lookup (addr a) = h.lookup (addr a)) : Segment addr cell h' q l := by
  induction l with
  | nil => trivial
  | cons a l ih =>
      refine ⟨(hsame a List.mem_cons_self).trans hl.1, ih hl.2 fun b hb => ?_⟩
      exact hsame b (List.mem_cons_of_mem _ hb)

theorem Segment.lookup (hl : Segment addr cell h q l) (ha : a ∈ l) :
    ∃ next, h.lookup (addr a) = some (cell a next) := by
  induction l with
  | nil => simp at ha
  | cons b l ih =>
      rcases List.mem_cons.1 ha with rfl | ha
      · exact ⟨_, hl.1⟩
      · exact ih hl.2 ha

/-- Appending a node: the last node of the chain, which ended there, now points to it. -/
theorem Segment.concat {h' : Heap V} (hl : Segment addr cell h none (l ++ [a]))
    (hsame : ∀ c ∈ l, h'.lookup (addr c) = h.lookup (addr c))
    (hlast : h'.lookup (addr a) = some (cell a (some (addr b))))
    (hnew : h'.lookup (addr b) = some (cell b none)) :
    Segment addr cell h' none (l ++ [a, b]) :=
  segment_append.2 ⟨(segment_append.1 hl).1.congr hsame, hlast, hnew, trivial⟩

end Chains

end BlockHeap
