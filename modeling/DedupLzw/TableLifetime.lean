/-
**The lifetime of a hash table.**

`delete_table` walks along the chains and frees every key, every entry, the array and the table.  As
these are all the blocks that a table owns, and each of them is freed once, memory is then what it
was before `create_table`: no block is left over, and none was freed twice or used after that.

Main definitions:

* `DedupLzw.HeapTable.Call`, `calls`, `callsLists` — any calls in turn, in memory and on lists.

Main results:

* `DedupLzw.HeapTable.freeChain_spec`, `freeChains_spec` — the two loops of `delete_table`;
* `DedupLzw.HeapTable.TableAt.delete_spec` — **memory after it**;
* `DedupLzw.HeapTable.table_lifetime` — **a table from its creation to its deletion**.
-/

import DedupLzw.TableInMemory

set_option relaxedAutoImplicit false
set_option autoImplicit false

namespace DedupLzw

namespace HeapTable

open BlockHeap Hashtable

section Table

variable {m h₀ : Heap Block} {table array fuel : ℕ} {chains : List (List Node)} {t : HashTable}

/-! ### Freeing the blocks -/

/-- The blocks of some entries, in the order in which `delete_table` frees them. -/
def nodeAddrs (c : List Node) : List ℕ := c.flatMap fun n => [n.key, n.entry]

theorem nodeAddrs_append (c c' : List Node) : nodeAddrs (c ++ c') = nodeAddrs c ++ nodeAddrs c' :=
  List.flatMap_append

theorem nodeAddrs_perm (c : List Node) :
    (nodeAddrs c).Perm (c.map Node.entry ++ c.map Node.key) := by
  induction c with
  | nil => exact List.Perm.nil
  | cons n c ih =>
      have hcount := ih.count_eq
      refine List.perm_iff_count.2 fun p => ?_
      have hp := hcount p
      simp only [nodeAddrs, List.flatMap_cons, List.map_cons, List.count_append, List.count_cons,
        List.count_nil] at hp ⊢
      omega

theorem owned_perm (table array : ℕ) (chains : List (List Node)) :
    (nodeAddrs chains.flatten ++ [array, table]).Perm (owned table array chains) := by
  have hnodes := (nodeAddrs_perm chains.flatten).count_eq
  refine List.perm_iff_count.2 fun p => ?_
  have hp := hnodes p
  simp only [owned, List.count_append, List.count_cons, List.count_nil] at hp ⊢
  omega

/-- The inner loop of `delete_table` frees one chain. -/
theorem freeChain_spec {c : List Node} {A : List ℕ}
    (hlinked : Segment Node.entry Node.cell m none c)
    (hkeys : ∀ n ∈ c, m.lookup n.key = some (.chars (n.str.bytes ++ [0])))
    (hext : Extends h₀ m (nodeAddrs c ++ A)) (hnodup : (nodeAddrs c).Nodup)
    (hfuel : c.length < fuel) :
    ∃ m', freeChain fuel (link Node.entry none c) m = some m' ∧ Extends h₀ m' A ∧
      ∀ p, p ∉ nodeAddrs c → m'.lookup p = m.lookup p := by
  induction c generalizing fuel m with
  | nil =>
      obtain ⟨fuel, rfl⟩ : ∃ k, fuel = k + 1 := ⟨fuel - 1, by omega⟩
      exact ⟨m, rfl, hext, fun _ _ => rfl⟩
  | cons n c ih =>
      obtain ⟨fuel, rfl⟩ : ∃ k, fuel = k + 1 := ⟨fuel - 1, by omega⟩
      rw [List.length_cons] at hfuel
      have haddrs : nodeAddrs (n :: c) = n.key :: n.entry :: nodeAddrs c := rfl
      rw [haddrs] at hext hnodup ⊢
      obtain ⟨hkeyNotMem, hnodup⟩ := List.nodup_cons.1 hnodup
      obtain ⟨hentryNotMem, hnodup⟩ := List.nodup_cons.1 hnodup
      rw [List.mem_cons, not_or] at hkeyNotMem
      have hentry : (m.erase n.key).lookup n.entry = some (n.cell (link Node.entry none c)) := by
        rw [Finmap.lookup_erase_ne (Ne.symm hkeyNotMem.1), hlinked.1]
      have hsame : ∀ p, p ≠ n.key → p ≠ n.entry →
          ((m.erase n.key).erase n.entry).lookup p = m.lookup p := by
        intro p hpk hpe
        rw [Finmap.lookup_erase_ne hpe, Finmap.lookup_erase_ne hpk]
      have hsub : ∀ n' ∈ c, n'.key ∈ nodeAddrs c ∧ n'.entry ∈ nodeAddrs c := fun n' hn' =>
        ⟨List.mem_flatMap.2 ⟨n', hn', by simp⟩, List.mem_flatMap.2 ⟨n', hn', by simp⟩⟩
      have hne : ∀ p ∈ nodeAddrs c, p ≠ n.key ∧ p ≠ n.entry := by
        intro p hp
        refine ⟨?_, ?_⟩ <;> rintro rfl
        · exact hkeyNotMem.2 hp
        · exact hentryNotMem hp
      have hlt : c.length < fuel := by omega
      obtain ⟨m', hfree, hext', hrest⟩ := ih
        (hlinked.2.congr fun n' hn' =>
          hsame _ (hne _ (hsub n' hn').2).1 (hne _ (hsub n' hn').2).2)
        (fun n' hn' => by
          rw [hsame _ (hne _ (hsub n' hn').1).1 (hne _ (hsub n' hn').1).2]
          exact hkeys n' (List.mem_cons_of_mem _ hn'))
        hext.free.free hnodup hlt
      refine ⟨m', ?_, hext', fun p hp => ?_⟩
      · simp only [link, freeChain, loadEntry_of_lookup hlinked.1,
          free_of_lookup (hkeys n List.mem_cons_self), free_of_lookup hentry, Option.bind_eq_bind,
          Option.bind_some]
        exact hfree
      · rw [List.mem_cons, not_or, List.mem_cons, not_or] at hp
        rw [hrest p hp.2.2, hsame p hp.1 hp.2.1]

/-- The loop of `delete_table`: the chains `l₁` have been freed, the chains `l₂` have not. -/
theorem freeChains_spec (h : TableAt m table array chains t)
    (hext : Extends h₀ m (owned table array chains)) (hfuel : chains.flatten.length < fuel)
    {l₁ l₂ : List (List Node)} (hsplit : chains = l₁ ++ l₂) :
    ∃ m', (List.range l₁.length).foldlM (freeBucket fuel array) m = some m' ∧
      Extends h₀ m' (nodeAddrs l₂.flatten ++ [array, table]) ∧
      ∀ p, p ∉ nodeAddrs l₁.flatten → m'.lookup p = m.lookup p := by
  induction l₁ using List.reverseRecOn generalizing l₂ with
  | nil =>
      refine ⟨m, rfl, hext.congr fun p => ?_, fun _ _ => rfl⟩
      rw [hsplit, List.nil_append]
      exact (owned_perm table array l₂).mem_iff
  | append_singleton l₁ c ih =>
      rw [List.append_assoc, List.singleton_append] at hsplit
      obtain ⟨m', hloop, hext', hrest⟩ := ih hsplit
      have hc : c ∈ chains := by simp [hsplit]
      have hclen : c.length ≤ chains.flatten.length := (List.sublist_flatten_of_mem hc).length_le
      -- the blocks of the chain `c` are none of those freed so far
      have hnodup := (owned_perm table array chains).nodup_iff.2 h.nodup
      rw [hsplit, List.flatten_append, List.flatten_cons, nodeAddrs_append, nodeAddrs_append,
        List.append_assoc, List.append_assoc] at hnodup
      obtain ⟨_, hnodup, hdisj⟩ := List.nodup_append.1 hnodup
      have hlater : ∀ p ∈ nodeAddrs c ++ (nodeAddrs l₂.flatten ++ [array, table]),
          m'.lookup p = m.lookup p := fun p hp =>
        hrest p fun hmem => hdisj p hmem p hp rfl
      have harray := hlater array (by simp)
      have hnode : ∀ n ∈ c, n.key ∈ nodeAddrs c ∧ n.entry ∈ nodeAddrs c := fun n hn =>
        ⟨List.mem_flatMap.2 ⟨n, hn, by simp⟩, List.mem_flatMap.2 ⟨n, hn, by simp⟩⟩
      rw [List.flatten_cons, nodeAddrs_append, List.append_assoc] at hext'
      obtain ⟨m'', hfree, hext'', hrest'⟩ := freeChain_spec
        ((h.linked c hc).congr fun n hn => hlater _ (List.mem_append_left _ (hnode n hn).2))
        (fun n hn => (hlater _ (List.mem_append_left _ (hnode n hn).1)).trans (h.keys c hc n hn))
        hext' (List.nodup_append.1 hnodup).1 (lt_of_le_of_lt hclen hfuel)
      have hhead : (chains.map (link Node.entry none))[l₁.length]?
          = some (link Node.entry none c) := by
        simp [hsplit]
      refine ⟨m'', ?_, hext'', fun p hp => ?_⟩
      · rw [List.length_append, List.length_singleton, List.range_succ, List.foldlM_append, hloop]
        simp only [Option.bind_eq_bind, Option.bind_some, List.foldlM_cons, List.foldlM_nil,
          freeBucket, loadHeads_of_lookup (harray.trans h.heads), hhead, hfree]
        rfl
      · rw [List.flatten_append, List.flatten_singleton, nodeAddrs_append, List.mem_append,
          not_or] at hp
        rw [hrest' p hp.2, hrest p hp.1]

/-- `delete_table` frees what the table owns, and nothing else. -/
theorem TableAt.delete_spec (h : TableAt m table array chains t)
    (hext : Extends h₀ m (owned table array chains)) (hfuel : chains.flatten.length < fuel) :
    delete_table fuel table m = some h₀ := by
  obtain ⟨m', hloop, hext', hrest⟩ := freeChains_spec h hext hfuel (List.append_nil chains).symm
  have hnodup := (owned_perm table array chains).nodup_iff.2 h.nodup
  have hkept : ∀ p ∈ [array, table], m'.lookup p = m.lookup p := fun p hp =>
    hrest p fun hmem => (List.nodup_append.1 hnodup).2.2 p hmem p hp rfl
  have hne : table ≠ array := by
    rintro rfl
    simpa using (List.nodup_append.1 hnodup).2.1
  have harray := (hkept array (by simp)).trans h.heads
  have htable : (m'.erase array).lookup table = some (.hashTable t.size array) := by
    rw [Finmap.lookup_erase_ne hne, hkept table (by simp), h.header]
  rw [h.length] at hloop
  have hend : (m'.erase array).erase table = h₀ := hext'.free.free.eq
  simp only [delete_table, loadTable_of_lookup h.header, Option.bind_eq_bind, Option.bind_some,
    hloop, free_of_lookup harray, free_of_lookup htable, hend]

end Table

/-! ### The lifetime of a table -/

/-- A call of one of the functions that work on a table. -/
inductive Call where
  | put (key : CString) (value : UInt16)
  | get (key : CString)
  | num_entries
deriving DecidableEq, Repr

/-- What a call returns. -/
inductive Answer where
  | void
  | value (x : UInt16)
  | count (n : BitVec 32)
deriving DecidableEq, Repr

/-- A call on the table at the address `table`. -/
def call (pf : Platform) (fuel table : ℕ) (h : Heap Block) : Call → Option (Answer × Heap Block)
  | .put key value => (put pf fuel table key value h).map fun h => (.void, h)
  | .get key => (get pf fuel table key h).map fun x => (.value x, h)
  | .num_entries => (num_entries fuel table h).map fun n => (.count n, h)

/-- A call on a table of lists. -/
def callLists (signed : Bool) (t : HashTable) : Call → Answer × HashTable
  | .put key value => (.void, Hashtable.put signed t key value)
  | .get key => (.value (Hashtable.get signed t key), t)
  | .num_entries => (.count (Hashtable.num_entries t), t)

/-- Calls in turn, and what they return. -/
def calls (pf : Platform) (fuel table : ℕ) :
    List Call → Heap Block → Option (List Answer × Heap Block)
  | [], h => some ([], h)
  | c :: cs, h => do
      let (answer, h) ← call pf fuel table h c
      let (answers, h) ← calls pf fuel table cs h
      return (answer :: answers, h)

/-- Calls in turn on a table of lists. -/
def callsLists (signed : Bool) : List Call → HashTable → List Answer
  | [], _ => []
  | c :: cs, t => (callLists signed t c).1 :: callsLists signed cs (callLists signed t c).2

/-- One call does what it does to the table of lists, and leaves everything else alone. -/
theorem TableAt.call_spec {m h₀ : Heap Block} {table array : ℕ} {chains : List (List Node)}
    {t : HashTable} (h : TableAt m table array chains t) (hpos : 0 < t.size)
    (hext : Extends h₀ m (owned table array chains)) (pf : Platform) {fuel : ℕ}
    (hfuel : chains.flatten.length < fuel) (c : Call) :
    ∃ m' chains', call pf fuel table m c = some ((callLists pf.signed t c).1, m') ∧
      TableAt m' table array chains' (callLists pf.signed t c).2 ∧
      (callLists pf.signed t c).2.size = t.size ∧ Extends h₀ m' (owned table array chains') ∧
      chains'.flatten.length ≤ chains.flatten.length + 1 := by
  cases c with
  | put key value =>
      obtain ⟨m', chains', hput, htable, hext', hlen⟩ := h.put_spec pf hpos hext hfuel key value
      exact ⟨m', chains', by rw [call, hput]; rfl, htable, rfl, hext', hlen.le⟩
  | get key =>
      exact ⟨m, chains, by rw [call, h.get_eq pf hpos hfuel]; rfl, h, rfl, hext, Nat.le_succ _⟩
  | num_entries =>
      exact ⟨m, chains, by rw [call, h.num_entries_eq hfuel]; rfl, h, rfl, hext, Nat.le_succ _⟩

/-- Calls in turn. -/
theorem TableAt.calls_spec {m h₀ : Heap Block} {table array : ℕ} {chains : List (List Node)}
    {t : HashTable} (h : TableAt m table array chains t) (hpos : 0 < t.size)
    (hext : Extends h₀ m (owned table array chains)) (pf : Platform) {fuel : ℕ} {cs : List Call}
    (hfuel : chains.flatten.length + cs.length < fuel) :
    ∃ m' chains' t', calls pf fuel table cs m = some (callsLists pf.signed cs t, m') ∧
      TableAt m' table array chains' t' ∧ Extends h₀ m' (owned table array chains') ∧
      chains'.flatten.length < fuel := by
  induction cs generalizing m chains t with
  | nil => exact ⟨m, chains, t, rfl, h, hext, by simpa using hfuel⟩
  | cons c cs ih =>
      rw [List.length_cons] at hfuel
      have hlt : chains.flatten.length < fuel := by omega
      obtain ⟨m₁, chains₁, hcall, htable, hsize, hext₁, hlen⟩ := h.call_spec hpos hext pf hlt c
      obtain ⟨m', chains', t', hcalls, htable', hext', hlen'⟩ :=
        ih htable (hsize ▸ hpos) hext₁ (by omega)
      refine ⟨m', chains', t', ?_, htable', hext', hlen'⟩
      simp only [calls, hcall, hcalls, Option.bind_eq_bind, Option.bind_some]
      rfl

/-- A table lives through any calls without a memory error, answers them like the table of lists,
changes no other block, and is gone without a trace after its deletion. -/
theorem table_lifetime (pf : Platform) {table_size : ℕ} (hsize : 1 ≤ table_size) (cs : List Call)
    (h₀ : Heap Block) {fuel : ℕ} (hfuel : cs.length < fuel) :
    ∃ table h h', create_table pf table_size h₀ = some (table, h) ∧
      calls pf fuel table cs h
        = some (callsLists pf.signed cs (Hashtable.create_table table_size), h') ∧
      (∀ p ∈ h₀, h'.lookup p = h₀.lookup p) ∧ delete_table fuel table h' = some h₀ := by
  obtain ⟨table, array, h, hcreate, htable, hext⟩ := create_table_spec pf table_size h₀
  obtain ⟨h', chains', t', hcalls, htable', hext', hlen⟩ :=
    htable.calls_spec (show 0 < (Hashtable.create_table table_size).size from hsize) hext pf
      (by simpa using hfuel)
  refine ⟨table, h, h', hcreate, hcalls, fun p hp => ?_, htable'.delete_spec hext' hlen⟩
  exact hext'.rest p fun hmem => hext'.new p hmem hp

/-- Three calls of `put`, two of them with one key, on a table with one bucket. -/
theorem table_lifetime_collision :
    ∃ table h h', create_table (zeroed true) 1 ∅ = some (table, h) ∧
      calls (zeroed true) 6 table
        [.put (CString.ofBytes [0xC3]) 7, .put (CString.ofBytes [65]) 8,
          .put (CString.ofBytes [0xC3]) 9, .get (CString.ofBytes [0xC3]), .num_entries] h
        = some ([.void, .void, .void, .value 7, .count 3], h') ∧
      delete_table 6 table h' = some ∅ := by
  obtain ⟨table, h, h', hcreate, hcalls, _, hdelete⟩ :=
    table_lifetime (zeroed true) le_rfl
      [.put (CString.ofBytes [0xC3]) 7, .put (CString.ofBytes [65]) 8,
        .put (CString.ofBytes [0xC3]) 9, .get (CString.ofBytes [0xC3]), .num_entries] ∅
      (show _ < 6 by decide)
  refine ⟨table, h, h', hcreate, hcalls.trans ?_, hdelete⟩
  have hanswers : callsLists true
      [.put (CString.ofBytes [0xC3]) 7, .put (CString.ofBytes [65]) 8,
        .put (CString.ofBytes [0xC3]) 9, .get (CString.ofBytes [0xC3]), .num_entries]
      (Hashtable.create_table 1) = [.void, .void, .void, .value 7, .count 3] := by
    decide
  rw [← hanswers]
  rfl

end HeapTable

end DedupLzw
