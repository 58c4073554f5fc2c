/-
**A hash table in memory and the table of lists it stands for.**

A table owns its own block, the array of its buckets, and for every entry one block for the entry
and one for its key.  `TableAt` says that these blocks are all different and that the chain of every
bucket, followed from pointer to pointer, holds the entries of the table of lists.  Then the
functions of the source do in memory what the functions of `DedupLzw.Hashtable` do to lists, and
leave alone what the table does not own.

Appending an entry to its chain changes one pointer.  All other chains, and all keys, are in other
blocks, so nothing else has to be looked at.

Main definitions:

* `DedupLzw.HeapTable.Node`, `owned` — the entries of a table in memory, and what it owns;
* `DedupLzw.HeapTable.TableAt` — a table in memory, and the table of lists it stands for.

Main results:

* `DedupLzw.HeapTable.create_table_spec` — a new table;
* `DedupLzw.HeapTable.attach_spec` — the one pointer that changes;
* `DedupLzw.HeapTable.TableAt.put_spec`, `TableAt.get_eq`, `TableAt.num_entries_eq` — **the
  functions of the source do what those on lists do**.
-/

import DedupLzw.HeapTable

set_option relaxedAutoImplicit false
set_option autoImplicit false

namespace DedupLzw

namespace HeapTable

open BlockHeap Hashtable

/-! ### A table in memory -/

/-- An entry: where it and its key are, and what they hold. -/
structure Node where
  entry : ℕ
  key : ℕ
  str : CString
  value : UInt16

/-- The block of an entry. -/
def Node.cell (n : Node) (next : Option ℕ) : Block := .entry n.key n.value next

/-- The entry in a table of lists. -/
def Node.pair (n : Node) : CString × UInt16 := (n.str, n.value)

/-- The addresses that a table owns. -/
def owned (table array : ℕ) (chains : List (List Node)) : List ℕ :=
  table :: array :: (chains.flatten.map Node.entry ++ chains.flatten.map Node.key)

/-- The table at the address `table`, with these chains, stands for the table of lists `t`. -/
structure TableAt (h : Heap Block) (table array : ℕ) (chains : List (List Node))
    (t : HashTable) : Prop where
  header : h.lookup table = some (.hashTable t.size array)
  heads : h.lookup array = some (.buckets (chains.map (link Node.entry none)))
  length : chains.length = t.size
  linked : ∀ c ∈ chains, Segment Node.entry Node.cell h none c
  keys : ∀ c ∈ chains, ∀ n ∈ c, h.lookup n.key = some (.chars (n.str.bytes ++ [0]))
  entries : t.table = chains.map (List.map Node.pair)
  nodup : (owned table array chains).Nodup

/-! ### Creating a table -/

/-- The loop of `create_table`. -/
theorem clear_heads {h : Heap Block} {array : ℕ} {heads : List (Option ℕ)}
    (hp : h.lookup array = some (.buckets heads)) {m : ℕ} (hm : m ≤ heads.length) :
    (List.range m).foldlM (fun h i => storeHead array i none h) h
      = some (h.insert array (.buckets (List.replicate m none ++ heads.drop m))) := by
  induction m with
  | zero => rw [List.range_zero, List.foldlM_nil, List.replicate_zero, List.nil_append,
      List.drop_zero, insert_of_lookup hp]; rfl
  | succ m ih =>
      have hlookup := Finmap.lookup_insert (a := array) h
        (b := Block.buckets (List.replicate m none ++ heads.drop m))
      have hlen : m < (List.replicate m none ++ heads.drop m).length := by
        simp only [List.length_append, List.length_replicate, List.length_drop]
        omega
      rw [List.range_succ, List.foldlM_append, ih (by omega)]
      simp only [Option.bind_eq_bind, Option.bind_some, List.foldlM_cons, List.foldlM_nil,
        storeHead_of_lookup hlookup hlen, Finmap.insert_insert]
      have hset : (List.replicate m none ++ heads.drop m).set m none
          = List.replicate (m + 1) none ++ heads.drop (m + 1) := by
        rw [List.set_append_right _ _ (by simp), List.length_replicate, Nat.sub_self,
          List.drop_eq_getElem_cons (by omega), List.set_cons_zero, List.replicate_succ',
          List.append_assoc, List.singleton_append]
      rw [hset]
      rfl

theorem owned_replicate (table array n : ℕ) :
    owned table array (List.replicate n []) = [table, array] := by
  simp [owned]

/-- A new table is empty, and nothing else changes. -/
theorem create_table_spec (pf : Platform) (n : ℕ) (h₀ : Heap Block) :
    ∃ table array h, create_table pf n h₀ = some (table, h) ∧
      TableAt h table array (List.replicate n []) (Hashtable.create_table n) ∧
      Extends h₀ h (owned table array (List.replicate n [])) := by
  obtain ⟨p, hp⟩ : ∃ p, p = (malloc pf.allocator (Block.hashTable n 0) h₀).1 := ⟨_, rfl⟩
  have hpnew : p ∉ h₀ := hp ▸ malloc_notMem _ _ _
  obtain ⟨h₁, hh₁⟩ : ∃ h₁, h₁ = h₀.insert p (Block.hashTable n 0) := ⟨_, rfl⟩
  obtain ⟨q, hq⟩ : ∃ q, q = (malloc pf.allocator (Block.buckets (pf.junkHeads n)) h₁).1 :=
    ⟨_, rfl⟩
  have hqnew : q ∉ h₁ := hq ▸ malloc_notMem _ _ _
  have hqp : q ≠ p := by
    rintro rfl
    exact hqnew (hh₁ ▸ Finmap.mem_insert.2 (Or.inl rfl))
  have hqnew₀ : q ∉ h₀ := fun h => hqnew (hh₁ ▸ Finmap.mem_insert.2 (Or.inr h))
  obtain ⟨h₂, hh₂⟩ : ∃ h₂, h₂ = (h₁.insert q (Block.buckets (pf.junkHeads n))).insert p
      (Block.hashTable n q) := ⟨_, rfl⟩
  have hheads : h₂.lookup q = some (.buckets (pf.junkHeads n)) := by
    rw [hh₂, Finmap.lookup_insert_of_ne _ hqp, Finmap.lookup_insert]
  refine ⟨p, q, h₂.insert q (.buckets (List.replicate n none)), ?_, ?_, ?_⟩
  · have hstore : store p (Block.hashTable n q) (h₁.insert q (Block.buckets (pf.junkHeads n)))
        = some h₂ := by
      rw [hh₂, store_of_lookup (w := Block.hashTable n 0)]
      rw [Finmap.lookup_insert_of_ne _ hqp.symm, hh₁, Finmap.lookup_insert]
    have hclear := clear_heads hheads (pf.length_junkHeads n).ge
    rw [List.drop_of_length_le (pf.length_junkHeads n).le, List.append_nil] at hclear
    simp only [create_table, malloc_snd, ← hp, ← hh₁, ← hq, hstore, hclear, Option.bind_eq_bind,
      Option.bind_some, Option.pure_def]
  · refine ⟨?_, ?_, ?_, ?_, ?_, ?_, ?_⟩
    · rw [Finmap.lookup_insert_of_ne _ hqp.symm, hh₂, Finmap.lookup_insert]
      rfl
    · rw [Finmap.lookup_insert, List.map_replicate]
      rfl
    · rw [List.length_replicate]
      rfl
    · intro c hc
      rw [List.eq_of_mem_replicate hc]
      trivial
    · intro c hc n hn
      rw [List.eq_of_mem_replicate hc] at hn
      simp at hn
    · simp [Hashtable.create_table]
    · rw [owned_replicate]
      simpa using hqp.symm
  · rw [owned_replicate]
    have hext : Extends h₀ (h₂.insert q (.buckets (List.replicate n none))) [q, p] := by
      rw [hh₂, hh₁]
      exact ((((Extends.refl h₀).malloc hpnew).malloc hqnew₀).store (by simp)).store (by simp)
    refine hext.congr fun a => ?_
    simp [or_comm]

/-! ### Entering a key -/

/-- A new entry is not linked to anything yet. -/
theorem newEntry_spec (pf : Platform) (key : CString) (value : UInt16) (m : Heap Block) :
    ∃ n : Node, ∃ m₁, newEntry pf key value m = some (n.entry, m₁) ∧ n.pair = (key, value) ∧
      n.entry ∉ m ∧ n.key ∉ m ∧ n.entry ≠ n.key ∧
      m₁.lookup n.entry = some (n.cell none) ∧
      m₁.lookup n.key = some (.chars (n.str.bytes ++ [0])) ∧
      ∀ p, p ≠ n.entry → p ≠ n.key → m₁.lookup p = m.lookup p := by
  obtain ⟨e, he⟩ : ∃ e, e = (malloc pf.allocator (Block.entry 0 0 none) m).1 := ⟨_, rfl⟩
  have hnew : e ∉ m := he ▸ malloc_notMem _ _ _
  obtain ⟨m', hm'⟩ : ∃ m', m' = m.insert e (Block.entry 0 0 none) := ⟨_, rfl⟩
  obtain ⟨k, hk⟩ : ∃ k, k = (malloc pf.allocator
    (Block.chars (pf.junkChars (key.strlen + 1))) m').1 := ⟨_, rfl⟩
  have hknew' : k ∉ m' := hk ▸ malloc_notMem _ _ _
  have hke : k ≠ e := by
    rintro rfl
    exact hknew' (hm' ▸ Finmap.mem_insert.2 (Or.inl rfl))
  have hknew : k ∉ m := fun h => hknew' (hm' ▸ Finmap.mem_insert.2 (Or.inr h))
  have hcopy : strcpy k key (m'.insert k (Block.chars (pf.junkChars (key.strlen + 1))))
      = some (m'.insert k (.chars (key.bytes ++ [0]))) := by
    have hlen := pf.length_junkChars (key.strlen + 1)
    rw [strcpy_of_lookup (Finmap.lookup_insert _) (by omega), Finmap.insert_insert,
      List.drop_of_length_le hlen.le]
  have hentry : store e (Block.entry k value none) (m'.insert k (.chars (key.bytes ++ [0])))
      = some ((m'.insert k (.chars (key.bytes ++ [0]))).insert e (.entry k value none)) := by
    rw [store_of_lookup (w := Block.entry 0 0 none)]
    rw [Finmap.lookup_insert_of_ne _ hke.symm, hm', Finmap.lookup_insert]
  refine ⟨⟨e, k, key, value⟩,
    (m'.insert k (.chars (key.bytes ++ [0]))).insert e (.entry k value none), ?_, rfl, hnew, hknew,
    hke.symm, Finmap.lookup_insert _, ?_, ?_⟩
  · simp only [newEntry, malloc_snd, ← he, ← hm', ← hk, hcopy, hentry, Option.bind_eq_bind,
      Option.bind_some, Option.pure_def]
  · rw [Finmap.lookup_insert_of_ne _ hke, Finmap.lookup_insert]
  · intro p hpe hpk
    rw [Finmap.lookup_insert_of_ne _ hpe, Finmap.lookup_insert_of_ne _ hpk, hm',
      Finmap.lookup_insert_of_ne _ hpe]

/-- The walk to the last entry of a chain. -/
theorem lastEntry_eq {m : Heap Block} {l : List Node} {a : Node} {ptr fuel : ℕ}
    (hl : Segment Node.entry Node.cell m none (l ++ [a])) (hfuel : l.length < fuel)
    (hptr : link Node.entry none (l ++ [a]) = some ptr) :
    lastEntry m fuel ptr = some a.entry := by
  induction l generalizing fuel ptr with
  | nil =>
      obtain ⟨fuel, rfl⟩ : ∃ k, fuel = k + 1 := ⟨fuel - 1, by omega⟩
      obtain rfl : a.entry = ptr := Option.some_inj.1 hptr
      rw [lastEntry, loadEntry_of_lookup hl.1]
      rfl
  | cons b l ih =>
      obtain ⟨fuel, rfl⟩ : ∃ k, fuel = k + 1 := ⟨fuel - 1, by omega⟩
      obtain rfl : b.entry = ptr := Option.some_inj.1 hptr
      rw [List.length_cons] at hfuel
      rw [List.cons_append] at hl
      obtain ⟨next, hnext⟩ : ∃ p, link Node.entry none (l ++ [a]) = some p := exists_link_concat
      have hcell := hl.1
      rw [hnext] at hcell
      rw [lastEntry, loadEntry_of_lookup hcell]
      exact ih hl.2 (by omega) hnext

/-- Appending the new entry to its chain changes one pointer: that of the bucket, or that of the
last entry. -/
theorem attach_spec {m : Heap Block} {array : ℕ} {l₁ l₂ : List (List Node)} {c : List Node}
    {n : Node} {fuel : ℕ}
    (hheads : m.lookup array = some (.buckets ((l₁ ++ c :: l₂).map (link Node.entry none))))
    (hlinked : Segment Node.entry Node.cell m none c) (hfuel : c.length < fuel)
    (hnew : m.lookup n.entry = some (n.cell none)) (harray : array ≠ n.entry)
    (hnotMem : n.entry ∉ c.map Node.entry) (hnotMem' : array ∉ c.map Node.entry)
    (hnodup : (c.map Node.entry).Nodup) :
    ∃ q v, attach fuel array l₁.length n.entry m = some (m.insert q v) ∧
      q ∈ array :: c.map Node.entry ∧
      (m.insert q v).lookup array
        = some (.buckets ((l₁ ++ (c ++ [n]) :: l₂).map (link Node.entry none))) ∧
      Segment Node.entry Node.cell (m.insert q v) none (c ++ [n]) := by
  have hget : ((l₁ ++ c :: l₂).map (link Node.entry none))[l₁.length]?
      = some (link Node.entry none c) := by
    simp
  cases hc : c using List.reverseRecOn with
  | nil =>
      subst hc
      have hlen : l₁.length < ((l₁ ++ [] :: l₂).map (link Node.entry none)).length := by simp
      refine ⟨array, .buckets ((l₁ ++ ([] ++ [n]) :: l₂).map (link Node.entry none)), ?_,
        List.mem_cons_self, Finmap.lookup_insert _, ?_, trivial⟩
      · rw [attach, loadHeads_of_lookup hheads]
        simp only [Option.bind_eq_bind, Option.bind_some, hget, link,
          storeHead_of_lookup hheads hlen]
        simp [link]
      · rw [Finmap.lookup_insert_of_ne _ harray.symm, hnew]
        rfl
  | append_singleton l a _ =>
      subst hc
      obtain ⟨ptr, hptr⟩ : ∃ p, link Node.entry none (l ++ [a]) = some p := exists_link_concat
      have hlast := (segment_append.1 hlinked).2.1
      have hne : a.entry ≠ n.entry := by
        rintro heq
        exact hnotMem (heq ▸ by simp)
      have hne' : array ≠ a.entry := by
        rintro rfl
        exact hnotMem' (by simp)
      rw [hptr] at hget
      rw [List.length_append, List.length_singleton] at hfuel
      have hwalk := lastEntry_eq hlinked (by omega : l.length < fuel) hptr
      refine ⟨a.entry, a.cell (some n.entry), ?_, by simp, ?_, ?_⟩
      · rw [attach, loadHeads_of_lookup hheads]
        simp only [Option.bind_eq_bind, Option.bind_some, hget, hwalk, loadEntry_of_lookup hlast,
          store_of_lookup hlast]
        rfl
      · have hlink : link Node.entry none (l ++ [a] ++ [n]) = link Node.entry none (l ++ [a]) := by
          rw [List.append_assoc, List.singleton_append, link_append_cons, link_append_cons]
        rw [Finmap.lookup_insert_of_ne _ hne', hheads]
        simp only [List.map_append, List.map_cons, hlink]
      · rw [List.append_assoc]
        refine hlinked.concat (fun b hb => ?_) (Finmap.lookup_insert _) ?_
        · refine Finmap.lookup_insert_of_ne _ fun heq => ?_
          rw [List.map_append, List.nodup_append] at hnodup
          exact hnodup.2.2 _ (List.mem_map_of_mem hb) _ (by simp) heq
        · rw [Finmap.lookup_insert_of_ne _ hne.symm, hnew]

section Table

variable {m : Heap Block} {table array : ℕ} {chains : List (List Node)} {t : HashTable}

/-- What a table owns is in use. -/
theorem TableAt.live (h : TableAt m table array chains t) :
    ∀ p ∈ owned table array chains, p ∈ m := by
  intro p hp
  rw [owned, List.mem_cons, List.mem_cons, List.mem_append] at hp
  rcases hp with rfl | rfl | hp | hp
  · exact Finmap.mem_of_lookup_eq_some h.header
  · exact Finmap.mem_of_lookup_eq_some h.heads
  · obtain ⟨n, hn, rfl⟩ := List.mem_map.1 hp
    obtain ⟨c, hc, hnc⟩ := List.mem_flatten.1 hn
    obtain ⟨next, hnext⟩ := (h.linked c hc).lookup hnc
    exact Finmap.mem_of_lookup_eq_some hnext
  · obtain ⟨n, hn, rfl⟩ := List.mem_map.1 hp
    obtain ⟨c, hc, hnc⟩ := List.mem_flatten.1 hn
    exact Finmap.mem_of_lookup_eq_some (h.keys c hc n hnc)

/-- A table depends on the blocks it owns only. -/
theorem TableAt.congr (h : TableAt m table array chains t) {m' : Heap Block}
    (hsame : ∀ p ∈ owned table array chains, m'.lookup p = m.lookup p) :
    TableAt m' table array chains t := by
  have hnode : ∀ c ∈ chains, ∀ n ∈ c, n.entry ∈ owned table array chains ∧
      n.key ∈ owned table array chains := by
    intro c hc n hn
    have hflat := List.mem_flatten.2 ⟨c, hc, hn⟩
    refine ⟨List.mem_cons_of_mem _ (List.mem_cons_of_mem _ (List.mem_append_left _ ?_)),
      List.mem_cons_of_mem _ (List.mem_cons_of_mem _ (List.mem_append_right _ ?_))⟩
    · exact List.mem_map_of_mem hflat
    · exact List.mem_map_of_mem hflat
  exact ⟨(hsame _ List.mem_cons_self).trans h.header,
    (hsame _ (List.mem_cons_of_mem _ List.mem_cons_self)).trans h.heads, h.length,
    fun c hc => (h.linked c hc).congr fun n hn => hsame _ (hnode c hc n hn).1,
    fun c hc n hn => (hsame _ (hnode c hc n hn).2).trans (h.keys c hc n hn), h.entries, h.nodup⟩

variable {l₁ l₂ : List (List Node)} {c : List Node} {n : Node}

theorem owned_concat_perm (table array : ℕ) (l₁ l₂ : List (List Node)) (c : List Node) (n : Node) :
    (owned table array (l₁ ++ (c ++ [n]) :: l₂)).Perm
      (n.entry :: n.key :: owned table array (l₁ ++ c :: l₂)) := by
  have hflat : (l₁ ++ (c ++ [n]) :: l₂).flatten.Perm (n :: (l₁ ++ c :: l₂).flatten) := by
    simp only [List.flatten_append, List.flatten_cons, List.append_assoc, List.singleton_append]
    rw [← List.append_assoc, ← List.append_assoc]
    exact List.perm_middle
  refine List.perm_iff_count.2 fun p => ?_
  have hentry := (hflat.map Node.entry).count_eq p
  have hkey := (hflat.map Node.key).count_eq p
  simp only [owned, List.map_cons, List.count_cons, List.count_append] at hentry hkey ⊢
  omega

/-- The chain of another bucket has other entries. -/
theorem TableAt.entry_notMem (h : TableAt m table array (l₁ ++ c :: l₂) t) {c' : List Node}
    (hc' : c' ∈ l₁ ++ l₂) (hn : n ∈ c') : n.entry ∉ c.map Node.entry := by
  have hperm : (l₁ ++ c :: l₂).flatten.Perm (c ++ (l₁ ++ l₂).flatten) :=
    (List.perm_middle (a := c)).flatten
  have hnodup := (List.nodup_append.1 (List.nodup_cons.1 (List.nodup_cons.1 h.nodup).2).2).1
  rw [(hperm.map Node.entry).nodup_iff, List.map_append, List.nodup_append] at hnodup
  intro hmem
  exact hnodup.2.2 _ hmem _ (List.mem_map_of_mem (List.mem_flatten.2 ⟨c', hc', hn⟩)) rfl

/-- No key is where an entry is. -/
theorem TableAt.key_ne_entry (h : TableAt m table array chains t) {c c' : List Node}
    (hc : c ∈ chains) (hc' : c' ∈ chains) {n n' : Node} (hn : n ∈ c) (hn' : n' ∈ c') :
    n.key ≠ n'.entry := by
  have hnodup := (List.nodup_append.1 (List.nodup_cons.1 (List.nodup_cons.1 h.nodup).2).2).2.2
  exact (hnodup _ (List.mem_map_of_mem (List.mem_flatten.2 ⟨c', hc', hn'⟩)) _
    (List.mem_map_of_mem (List.mem_flatten.2 ⟨c, hc, hn⟩))).symm

theorem modify_append_cons {α : Type} (f : α → α) (l₁ : List α) (a : α) (l₂ : List α) :
    (l₁ ++ a :: l₂).modify l₁.length f = l₁ ++ f a :: l₂ := by
  induction l₁ with
  | nil => rfl
  | cons b l₁ ih => rw [List.cons_append, List.length_cons, List.modify_succ_cons, ih]; rfl

/-- Neither the table nor a key is where the buckets or the entries are. -/
theorem TableAt.apart (h : TableAt m table array chains t) (hc : c ∈ chains) :
    (table ≠ array ∧ table ∉ c.map Node.entry) ∧
      ∀ c' ∈ chains, ∀ n' ∈ c', n'.key ≠ array ∧ n'.key ∉ c.map Node.entry := by
  have howned := List.nodup_cons.1 h.nodup
  refine ⟨⟨fun heq => howned.1 (heq ▸ List.mem_cons_self), fun hmem => howned.1 ?_⟩,
    fun c' hc' n' hn' => ⟨fun heq => ?_, fun hmem => ?_⟩⟩
  · have hsub := (List.sublist_flatten_of_mem hc).map Node.entry
    exact List.mem_cons_of_mem _ (List.mem_append_left _ (hsub.subset hmem))
  · refine (List.nodup_cons.1 howned.2).1 (heq ▸ List.mem_append_right _ ?_)
    exact List.mem_map_of_mem (List.mem_flatten.2 ⟨c', hc', hn'⟩)
  · obtain ⟨n'', hn'', heq⟩ := List.mem_map.1 hmem
    exact h.key_ne_entry hc' hc hn' hn'' heq.symm

/-- The chains of the other buckets do not notice a change to the buckets or to this chain. -/
theorem TableAt.others (h : TableAt m table array (l₁ ++ c :: l₂) t) {m' : Heap Block}
    (hsame : ∀ p ∈ m, p ≠ array → p ∉ c.map Node.entry → m'.lookup p = m.lookup p) :
    ∀ c' ∈ l₁ ++ l₂, c' ∈ l₁ ++ c :: l₂ ∧ Segment Node.entry Node.cell m' none c' := by
  intro c' hc'
  have hmem : c' ∈ l₁ ++ c :: l₂ := by
    rw [List.mem_append, List.mem_cons]
    rcases List.mem_append.1 hc' with hc' | hc'
    · exact Or.inl hc'
    · exact Or.inr (Or.inr hc')
  refine ⟨hmem, (h.linked c' hmem).congr fun n' hn' => ?_⟩
  obtain ⟨next, hnext⟩ := (h.linked c' hmem).lookup hn'
  refine hsame _ (Finmap.mem_of_lookup_eq_some hnext) ?_ (h.entry_notMem hc' hn')
  rintro heq
  have howned := List.nodup_cons.1 (List.nodup_cons.1 h.nodup).2
  refine howned.1 (heq ▸ List.mem_append_left _ ?_)
  exact List.mem_map_of_mem (List.mem_flatten.2 ⟨c', hmem, hn'⟩)

/-- A table with a new entry at the end of its chain. -/
theorem TableAt.extend (h : TableAt m table array (l₁ ++ c :: l₂) t) {m' : Heap Block}
    {signed : Bool} {key : CString} {value : UInt16} (hn : n.pair = (key, value))
    (hbucket : hash_func signed t key = l₁.length) (hentry : n.entry ∉ m) (hkey : n.key ∉ m)
    (hne : n.entry ≠ n.key)
    (hheads : m'.lookup array
      = some (.buckets ((l₁ ++ (c ++ [n]) :: l₂).map (link Node.entry none))))
    (hseg : Segment Node.entry Node.cell m' none (c ++ [n]))
    (hstr : m'.lookup n.key = some (.chars (n.str.bytes ++ [0])))
    (hsame : ∀ p ∈ m, p ≠ array → p ∉ c.map Node.entry → m'.lookup p = m.lookup p) :
    TableAt m' table array (l₁ ++ (c ++ [n]) :: l₂) (Hashtable.put signed t key value) := by
  have hlive := h.live
  have hc : c ∈ l₁ ++ c :: l₂ := by simp
  obtain ⟨htable, hkeyApart⟩ := h.apart hc
  have hkeys : ∀ c' ∈ l₁ ++ c :: l₂, ∀ n' ∈ c',
      m'.lookup n'.key = some (.chars (n'.str.bytes ++ [0])) := by
    intro c' hc' n' hn'
    have hold := h.keys c' hc' n' hn'
    obtain ⟨harray, hchain⟩ := hkeyApart c' hc' n' hn'
    rw [hsame _ (Finmap.mem_of_lookup_eq_some hold) harray hchain, hold]
  have hothers := h.others hsame
  have hsplit : ∀ c' ∈ l₁ ++ (c ++ [n]) :: l₂, c' ∈ l₁ ++ l₂ ∨ c' = c ++ [n] := by
    intro c' hc'
    rw [List.mem_append, List.mem_cons] at hc'
    rcases hc' with hc' | hc' | hc'
    · exact Or.inl (List.mem_append_left _ hc')
    · exact Or.inr hc'
    · exact Or.inl (List.mem_append_right _ hc')
  refine ⟨?_, hheads, ?_, ?_, ?_, ?_, ?_⟩
  · rw [hsame table (hlive _ List.mem_cons_self) htable.1 htable.2, h.header]
    rfl
  · have hlength := h.length
    simpa using hlength
  · intro c' hc'
    rcases hsplit c' hc' with hc' | rfl
    · exact (hothers c' hc').2
    · exact hseg
  · intro c' hc' n' hn'
    rcases hsplit c' hc' with hc' | rfl
    · exact hkeys c' (hothers c' hc').1 n' hn'
    · rcases List.mem_append.1 hn' with hn' | hn'
      · exact hkeys c hc n' hn'
      · rw [List.mem_singleton.1 hn', hstr]
  · have hlen : l₁.length = (l₁.map (List.map Node.pair)).length := by simp
    simp only [Hashtable.put, hbucket, h.entries, List.map_append, List.map_cons]
    rw [hlen, modify_append_cons, List.map_nil, hn]
  · rw [(owned_concat_perm table array l₁ l₂ c n).nodup_iff, List.nodup_cons, List.nodup_cons,
      List.mem_cons, not_or]
    exact ⟨⟨hne, fun hmem => hentry (hlive _ hmem)⟩, fun hmem => hkey (hlive _ hmem), h.nodup⟩

theorem bucketOf_eq (pf : Platform) (t : HashTable) (key : CString) :
    bucketOf pf t.size key = hash_func pf.signed t key := hash_func_congr pf.signed rfl key

/-- The chain of a bucket, and the chains around it. -/
theorem TableAt.exists_chain (h : TableAt m table array chains t) {i : ℕ} (hi : i < t.size) :
    ∃ l₁ c l₂, chains = l₁ ++ c :: l₂ ∧ l₁.length = i := by
  rw [← h.length] at hi
  refine ⟨chains.take i, chains[i], chains.drop (i + 1), ?_, ?_⟩
  · rw [← List.drop_eq_getElem_cons hi, List.take_append_drop]
  · rw [List.length_take, min_eq_left hi.le]

variable {h₀ : Heap Block} {fuel : ℕ}

/-- A chain, and the array of the buckets, are among what the table owns. -/
theorem chain_subset_owned (hc : c ∈ chains) :
    ∀ p ∈ array :: c.map Node.entry, p ∈ owned table array chains := by
  intro p hp
  rcases List.mem_cons.1 hp with rfl | hp
  · exact List.mem_cons_of_mem _ List.mem_cons_self
  · have hentry := ((List.sublist_flatten_of_mem hc).map Node.entry).subset hp
    exact List.mem_cons_of_mem _ (List.mem_cons_of_mem _ (List.mem_append_left _ hentry))

/-- Two new blocks beside those of the table. -/
theorem extends_new {m₁ : Heap Block} {A : List ℕ} (hext : Extends h₀ m A) (hlive : ∀ p ∈ A, p ∈ m)
    (hentry : n.entry ∉ m) (hkey : n.key ∉ m)
    (hsame : ∀ p, p ≠ n.entry → p ≠ n.key → m₁.lookup p = m.lookup p) :
    Extends h₀ m₁ (n.entry :: n.key :: A) := by
  refine ⟨fun p hp => ?_, fun p hp => ?_⟩
  · rcases List.mem_cons.1 hp with rfl | hp
    · exact (hext.notMem hentry hlive).2
    · rcases List.mem_cons.1 hp with rfl | hp
      · exact (hext.notMem hkey hlive).2
      · exact hext.new p hp
  · rw [List.mem_cons, not_or, List.mem_cons, not_or] at hp
    rw [hsame p hp.1 hp.2.1, hext.rest p hp.2.2]

/-- `put` enters the key, and changes nothing that the table does not own. -/
theorem TableAt.put_spec (h : TableAt m table array chains t) (pf : Platform) (hpos : 0 < t.size)
    (hext : Extends h₀ m (owned table array chains)) (hfuel : chains.flatten.length < fuel)
    (key : CString) (value : UInt16) :
    ∃ m' chains', put pf fuel table key value m = some m' ∧
      TableAt m' table array chains' (Hashtable.put pf.signed t key value) ∧
      Extends h₀ m' (owned table array chains') ∧
      chains'.flatten.length = chains.flatten.length + 1 := by
  have hlt : hash_func pf.signed t key < t.size := Nat.mod_lt _ hpos
  obtain ⟨l₁, c, l₂, rfl, hlen⟩ := h.exists_chain hlt
  have hlive := h.live
  have hc : c ∈ l₁ ++ c :: l₂ := by simp
  have hclen := (List.sublist_flatten_of_mem hc).length_le
  have hown : ∀ p ∈ array :: c.map Node.entry, p ∈ owned table array (l₁ ++ c :: l₂) :=
    chain_subset_owned hc
  have harray := hown array List.mem_cons_self
  obtain ⟨howned, hnodup⟩ := List.nodup_cons.1 (List.nodup_cons.1 h.nodup).2
  -- the new entry
  obtain ⟨n, m₁, hnew, hpair, hentry, hkey, hne, hcell, hstr, hsame⟩ :=
    newEntry_spec pf key value m
  have hold : ∀ p ∈ m, m₁.lookup p = m.lookup p := fun p hp =>
    hsame p (fun heq => hentry (heq ▸ hp)) fun heq => hkey (heq ▸ hp)
  -- its place in the chain
  have hlinked := (h.linked c hc).congr fun a ha =>
    hold _ (hlive _ (hown _ (List.mem_cons_of_mem _ (List.mem_map_of_mem ha))))
  have hsub := (List.sublist_flatten_of_mem hc).map Node.entry
  obtain ⟨q, v, hattach, hq, hheads, hseg⟩ := attach_spec (n := n)
    ((hold _ (hlive _ harray)).trans h.heads) hlinked (lt_of_le_of_lt hclen hfuel) hcell
    (fun heq => hentry (heq ▸ hlive _ harray))
    (fun hmem => hentry (hlive _ (hown _ (List.mem_cons_of_mem _ hmem))))
    (fun hmem => howned (List.mem_append_left _ (hsub.subset hmem)))
    ((List.nodup_append.1 hnodup).1.sublist hsub)
  have hqlive : q ∈ m := hlive _ (hown q hq)
  have hother : ∀ p ∈ m, p ≠ array → p ∉ c.map Node.entry →
      (m₁.insert q v).lookup p = m.lookup p := by
    intro p hp hpa hpc
    have hpq : p ≠ q := by
      rintro rfl
      exact (List.mem_cons.1 hq).elim hpa hpc
    rw [Finmap.lookup_insert_of_ne _ hpq, hold p hp]
  have hkq : n.key ≠ q := fun heq => hkey (heq ▸ hqlive)
  refine ⟨m₁.insert q v, l₁ ++ (c ++ [n]) :: l₂, ?_, ?_, ?_, ?_⟩
  · simp only [put, loadTable_of_lookup h.header, Option.bind_eq_bind, Option.bind_some,
      bucketOf_eq, ← hlen, hnew, hattach]
  · refine h.extend hpair hlen.symm hentry hkey hne hheads hseg ?_ hother
    rw [Finmap.lookup_insert_of_ne _ hkq, hstr]
  · have hstore := (extends_new hext hlive hentry hkey hsame).store (v := v)
      (List.mem_cons_of_mem _ (List.mem_cons_of_mem _ (hown q hq)))
    exact hstore.congr fun p => (owned_concat_perm table array l₁ l₂ c n).mem_iff
  · simp only [List.flatten_append, List.flatten_cons, List.length_append, List.length_singleton]
    omega

/-- The loop of `get`. -/
theorem scan_eq {c : List Node} (hlinked : Segment Node.entry Node.cell m none c)
    (hkeys : ∀ n ∈ c, m.lookup n.key = some (.chars (n.str.bytes ++ [0]))) (key : CString)
    (hfuel : c.length < fuel) :
    scan m key fuel (link Node.entry none c)
      = some (match (c.map Node.pair).find? (fun e => e.1 = key) with
          | some e => e.2
          | none => notFound) := by
  induction c generalizing fuel with
  | nil =>
      obtain ⟨fuel, rfl⟩ : ∃ k, fuel = k + 1 := ⟨fuel - 1, by omega⟩
      rfl
  | cons n c ih =>
      obtain ⟨fuel, rfl⟩ : ∃ k, fuel = k + 1 := ⟨fuel - 1, by omega⟩
      rw [List.length_cons] at hfuel
      have hlt : c.length < fuel := by omega
      have hstr := readString_of_lookup (hkeys n List.mem_cons_self)
      have hrest := ih hlinked.2 (fun n' hn' => hkeys n' (List.mem_cons_of_mem _ hn')) hlt
      simp only [link, scan, loadEntry_of_lookup hlinked.1, hstr, List.map_cons]
      by_cases heq : n.str = key
      · have hfound : decide (n.pair.1 = key) = true := decide_eq_true heq
        simp only [if_pos heq, List.find?_cons, hfound]
        rfl
      · have hother : decide (n.pair.1 = key) = false := decide_eq_false heq
        simp only [if_neg heq, List.find?_cons, hother]
        exact hrest

/-- `get` finds what is in the table of lists. -/
theorem TableAt.get_eq (h : TableAt m table array chains t) (pf : Platform) (hpos : 0 < t.size)
    (hfuel : chains.flatten.length < fuel) (key : CString) :
    get pf fuel table key m = some (Hashtable.get pf.signed t key) := by
  have hlt : hash_func pf.signed t key < t.size := Nat.mod_lt _ hpos
  obtain ⟨l₁, c, l₂, rfl, hlen⟩ := h.exists_chain hlt
  have hc : c ∈ l₁ ++ c :: l₂ := by simp
  have hclen := (List.sublist_flatten_of_mem hc).length_le
  have hhead : ((l₁ ++ c :: l₂).map (link Node.entry none))[l₁.length]?
      = some (link Node.entry none c) := by
    simp
  have hchain : t.table.getD l₁.length [] = c.map Node.pair := by
    rw [h.entries, List.getD_eq_getElem?_getD]
    simp
  have hscan := scan_eq (h.linked c hc) (h.keys c hc) key (lt_of_le_of_lt hclen hfuel)
  rw [← hchain, hlen] at hscan
  rw [hlen] at hhead
  simp only [get, loadTable_of_lookup h.header, loadHeads_of_lookup h.heads, Option.bind_eq_bind,
    Option.bind_some, bucketOf_eq, hhead]
  exact hscan

/-- The inner loop of `num_entries`. -/
theorem countChain_eq {c : List Node} (hlinked : Segment Node.entry Node.cell m none c)
    (hfuel : c.length < fuel) (k : BitVec 32) :
    countChain m fuel (link Node.entry none c) k
      = some ((c.map Node.pair).foldl (fun k _ => k + 1) k) := by
  induction c generalizing fuel k with
  | nil =>
      obtain ⟨fuel, rfl⟩ : ∃ k, fuel = k + 1 := ⟨fuel - 1, by omega⟩
      rfl
  | cons n c ih =>
      obtain ⟨fuel, rfl⟩ : ∃ k, fuel = k + 1 := ⟨fuel - 1, by omega⟩
      rw [List.length_cons] at hfuel
      simp only [link, countChain, loadEntry_of_lookup hlinked.1]
      exact ih hlinked.2 (by omega) (k + 1)

/-- A loop that does not fail is a fold. -/
theorem foldlM_eq_foldl {α β : Type} {f : β → α → Option β} {g : β → α → β} {l : List α}
    (h : ∀ a ∈ l, ∀ b, f b a = some (g b a)) (b : β) : l.foldlM f b = some (l.foldl g b) := by
  induction l generalizing b with
  | nil => rfl
  | cons a l ih =>
      rw [List.foldlM_cons, h a List.mem_cons_self, List.foldl_cons]
      exact ih (fun a' ha' => h a' (List.mem_cons_of_mem _ ha')) _

/-- `num_entries` counts what is in the table of lists. -/
theorem TableAt.num_entries_eq (h : TableAt m table array chains t)
    (hfuel : chains.flatten.length < fuel) :
    num_entries fuel table m = some (Hashtable.num_entries t) := by
  simp only [num_entries, loadTable_of_lookup h.header, Option.bind_eq_bind, Option.bind_some,
    Hashtable.num_entries]
  refine foldlM_eq_foldl (fun i hi n => ?_) 0
  obtain ⟨l₁, c, l₂, rfl, rfl⟩ := h.exists_chain (List.mem_range.1 hi)
  have hc : c ∈ l₁ ++ c :: l₂ := by simp
  have hclen := (List.sublist_flatten_of_mem hc).length_le
  have hhead : ((l₁ ++ c :: l₂).map (link Node.entry none))[l₁.length]?
      = some (link Node.entry none c) := by
    simp
  have hchain : t.table.getD l₁.length [] = c.map Node.pair := by
    rw [h.entries, List.getD_eq_getElem?_getD]
    simp
  rw [loadHeads_of_lookup h.heads, Option.bind_some, hhead, Option.bind_some, hchain]
  exact countChain_eq (h.linked c hc) (lt_of_le_of_lt hclen hfuel) n

end Table

end HeapTable

end DedupLzw
