/-
**The hash table in memory (`LZW/hashtable.cpp`).**

`DedupLzw.Hashtable` takes the chain of a bucket for a list.  Here are the functions of the source
as they work on memory: the table, the array of its buckets, every entry and every key is a block
of its own, the entries of a bucket are linked by pointers, and `delete_table` frees them all.

A call fails if it reads, writes or frees a block that is not there, or leaves an array.  The walks
along a chain are given fuel; they fail as well when it is spent, so that a call that succeeds has
ended.  `malloc` is taken never to fail, which the source does not check either.

What the language leaves open is collected in a `Platform`: whether `char` is signed, where the
allocator puts a block, and what is in a new array.

Main definitions:

* `DedupLzw.HeapTable.Block`, `Platform` — memory;
* `DedupLzw.HeapTable.create_table`, `put`, `get`, `num_entries`, `delete_table` — the source.

Main results:

* `DedupLzw.HeapTable.loadTable_of_lookup`, .. , `strcpy_of_lookup` — reading and writing blocks.
-/

import DedupLzw.BlockHeap
import DedupLzw.Hashtable

set_option relaxedAutoImplicit false
set_option autoImplicit false

namespace DedupLzw

namespace HeapTable

open BlockHeap Hashtable

/-! ### Memory -/

/-- A block of memory. -/
inductive Block where
  /-- `hash_table`: the number of buckets, and the array of the buckets. -/
  | hashTable (size : ℕ) (table : ℕ)
  /-- The buckets: the pointers to their first entries. -/
  | buckets (heads : List (Option ℕ))
  /-- `table_entry` -/
  | entry (key : ℕ) (value : UInt16) (next : Option ℕ)
  /-- An array of `char`. -/
  | chars (bytes : List UInt8)
deriving DecidableEq, Repr

/-- What the language leaves open. -/
structure Platform where
  signed : Bool
  allocator : Allocator
  /-- The contents of a new array of `char`. -/
  junkChars : ℕ → List UInt8
  length_junkChars : ∀ n, (junkChars n).length = n
  /-- The contents of a new array of pointers. -/
  junkHeads : ℕ → List (Option ℕ)
  length_junkHeads : ∀ n, (junkHeads n).length = n

/-- A platform that fills new arrays with zeros. -/
def zeroed (signed : Bool) : Platform where
  signed := signed
  allocator := bump
  junkChars n := List.replicate n 0
  length_junkChars _ := List.length_replicate
  junkHeads n := List.replicate n none
  length_junkHeads _ := List.length_replicate

/-- The fields of a `hash_table`. -/
def loadTable (p : ℕ) (h : Heap Block) : Option (ℕ × ℕ) :=
  match h.lookup p with
  | some (.hashTable size table) => some (size, table)
  | _ => none

/-- The pointers of the buckets. -/
def loadHeads (p : ℕ) (h : Heap Block) : Option (List (Option ℕ)) :=
  match h.lookup p with
  | some (.buckets heads) => some heads
  | _ => none

/-- The fields of a `table_entry`. -/
def loadEntry (p : ℕ) (h : Heap Block) : Option (ℕ × UInt16 × Option ℕ) :=
  match h.lookup p with
  | some (.entry key value next) => some (key, value, next)
  | _ => none

/-- The contents of an array of `char`. -/
def loadChars (p : ℕ) (h : Heap Block) : Option (List UInt8) :=
  match h.lookup p with
  | some (.chars bytes) => some bytes
  | _ => none

/-- `(table->table)[i] = ptr` -/
def storeHead (array i : ℕ) (ptr : Option ℕ) (h : Heap Block) : Option (Heap Block) := do
  let heads ← loadHeads array h
  if i < heads.length then store array (.buckets (heads.set i ptr)) h else none

/-- The string in an array of `char`; there is none without a terminator. -/
def readString (p : ℕ) (h : Heap Block) : Option CString := do
  let bytes ← loadChars p h
  if 0 ∈ bytes then some (CString.ofBytes bytes) else none

/-- `strcpy` into an array, for which there has to be room. -/
def strcpy (dest : ℕ) (s : CString) (h : Heap Block) : Option (Heap Block) := do
  let bytes ← loadChars dest h
  if s.strlen < bytes.length then
    store dest (.chars (s.bytes ++ 0 :: bytes.drop (s.strlen + 1))) h
  else none

/-! ### The functions of the source -/

/-- `create_table` -/
def create_table (pf : Platform) (table_size : ℕ) (h : Heap Block) : Option (ℕ × Heap Block) := do
  let (table, h) := malloc pf.allocator (.hashTable table_size 0) h
  let (array, h) := malloc pf.allocator (.buckets (pf.junkHeads table_size)) h
  let h ← store table (.hashTable table_size array) h
  let h ← (List.range table_size).foldlM (fun h i => storeHead array i none h) h
  return (table, h)

/-- The bucket of a key. -/
def bucketOf (pf : Platform) (size : ℕ) (key : CString) : ℕ := hash_func pf.signed ⟨size, []⟩ key

/-- The new node of `put`. -/
def newEntry (pf : Platform) (key : CString) (value : UInt16) (h : Heap Block) :
    Option (ℕ × Heap Block) := do
  let (new_entry, h) := malloc pf.allocator (.entry 0 0 none) h
  let (new_key, h) := malloc pf.allocator (.chars (pf.junkChars (key.strlen + 1))) h
  let h ← strcpy new_key key h
  let h ← store new_entry (.entry new_key value none) h
  return (new_entry, h)

/-- `while (ptr->next != NULL) ptr = ptr->next;` -/
def lastEntry (h : Heap Block) : ℕ → ℕ → Option ℕ
  | 0, _ => none
  | fuel + 1, ptr =>
      match loadEntry ptr h with
      | none => none
      | some (_, _, none) => some ptr
      | some (_, _, some next) => lastEntry h fuel next

/-- The end of `put`: the new entry is appended to the chain of its bucket. -/
def attach (fuel array hash new_entry : ℕ) (h : Heap Block) : Option (Heap Block) := do
  let heads ← loadHeads array h
  match ← heads[hash]? with
  | none => storeHead array hash (some new_entry) h
  | some ptr =>
      let last ← lastEntry h fuel ptr
      let (key, value, _) ← loadEntry last h
      store last (.entry key value (some new_entry)) h

/-- `put` -/
def put (pf : Platform) (fuel table : ℕ) (key : CString) (value : UInt16) (h : Heap Block) :
    Option (Heap Block) := do
  let (size, array) ← loadTable table h
  let hash := bucketOf pf size key
  let (new_entry, h) ← newEntry pf key value h
  attach fuel array hash new_entry h

/-- The loop of `get`. -/
def scan (h : Heap Block) (key : CString) : ℕ → Option ℕ → Option UInt16
  | 0, _ => none
  | _ + 1, none => some notFound
  | fuel + 1, some ptr =>
      match loadEntry ptr h with
      | none => none
      | some (k, value, next) =>
          match readString k h with
          | none => none
          | some s => if s = key then some value else scan h key fuel next

/-- `get` -/
def get (pf : Platform) (fuel table : ℕ) (key : CString) (h : Heap Block) : Option UInt16 := do
  let (size, array) ← loadTable table h
  let heads ← loadHeads array h
  let ptr ← heads[bucketOf pf size key]?
  scan h key fuel ptr

/-- The inner loop of `num_entries`. -/
def countChain (h : Heap Block) : ℕ → Option ℕ → BitVec 32 → Option (BitVec 32)
  | 0, _, _ => none
  | _ + 1, none, n => some n
  | fuel + 1, some ptr, n =>
      match loadEntry ptr h with
      | none => none
      | some (_, _, next) => countChain h fuel next (n + 1)

/-- `num_entries` -/
def num_entries (fuel table : ℕ) (h : Heap Block) : Option (BitVec 32) := do
  let (size, array) ← loadTable table h
  (List.range size).foldlM (fun n i => do
    let heads ← loadHeads array h
    let ptr ← heads[i]?
    countChain h fuel ptr n) 0

/-- The inner loop of `delete_table`. -/
def freeChain : ℕ → Option ℕ → Heap Block → Option (Heap Block)
  | 0, _, _ => none
  | _ + 1, none, h => some h
  | fuel + 1, some ptr, h =>
      match loadEntry ptr h with
      | none => none
      | some (key, _, next) => do
          let h ← free key h
          let h ← free ptr h
          freeChain fuel next h

/-- One round of the outer loop of `delete_table`. -/
def freeBucket (fuel array : ℕ) (h : Heap Block) (i : ℕ) : Option (Heap Block) := do
  let heads ← loadHeads array h
  let ptr ← heads[i]?
  freeChain fuel ptr h

/-- `delete_table` -/
def delete_table (fuel table : ℕ) (h : Heap Block) : Option (Heap Block) := do
  let (size, array) ← loadTable table h
  let h ← (List.range size).foldlM (freeBucket fuel array) h
  let h ← free array h
  free table h

/-! ### Blocks that are there -/

section Load

variable {h : Heap Block} {p : ℕ}

theorem loadTable_of_lookup {size table : ℕ} (hp : h.lookup p = some (.hashTable size table)) :
    loadTable p h = some (size, table) := by
  rw [loadTable, hp]

theorem loadHeads_of_lookup {heads : List (Option ℕ)} (hp : h.lookup p = some (.buckets heads)) :
    loadHeads p h = some heads := by
  rw [loadHeads, hp]

theorem loadEntry_of_lookup {key : ℕ} {value : UInt16} {next : Option ℕ}
    (hp : h.lookup p = some (.entry key value next)) : loadEntry p h = some (key, value, next) := by
  rw [loadEntry, hp]

theorem loadChars_of_lookup {bytes : List UInt8} (hp : h.lookup p = some (.chars bytes)) :
    loadChars p h = some bytes := by
  rw [loadChars, hp]

theorem storeHead_of_lookup {heads : List (Option ℕ)} (hp : h.lookup p = some (.buckets heads))
    {i : ℕ} (hi : i < heads.length) (ptr : Option ℕ) :
    storeHead p i ptr h = some (h.insert p (.buckets (heads.set i ptr))) := by
  rw [storeHead, loadHeads_of_lookup hp]
  simp only [Option.bind_eq_bind, Option.bind_some, if_pos hi, store_of_lookup hp]

/-- The string in an array. -/
theorem readString_of_lookup {s : CString} {rest : List UInt8}
    (hp : h.lookup p = some (.chars (s.bytes ++ 0 :: rest))) : readString p h = some s := by
  have hbytes : CString.ofBytes (s.bytes ++ 0 :: rest) = s := by
    ext1
    have hall : ∀ c ∈ s.bytes, decide (c ≠ 0) = true := by
      intro c hc
      simpa using fun h0 : c = 0 => s.noNul (h0 ▸ hc)
    simp only [CString.ofBytes]
    rw [List.takeWhile_append_of_pos hall, List.takeWhile_cons_of_neg (by simp), List.append_nil]
  rw [readString, loadChars_of_lookup hp]
  simp [hbytes]

theorem strcpy_of_lookup {bytes : List UInt8} (hp : h.lookup p = some (.chars bytes)) {s : CString}
    (hs : s.strlen < bytes.length) :
    strcpy p s h = some (h.insert p (.chars (s.bytes ++ 0 :: bytes.drop (s.strlen + 1)))) := by
  rw [strcpy, loadChars_of_lookup hp]
  simp only [Option.bind_eq_bind, Option.bind_some, if_pos hs, store_of_lookup hp]

end Load

end HeapTable

end DedupLzw
