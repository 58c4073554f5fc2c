/-
**The chained hash table of the LZW encoder (`LZW/hashtable.cpp`).**

The table maps C strings to 16-bit values.  `put` appends at the tail of the bucket the key hashes
to, without looking for the key; `get` scans that bucket from its head and answers with the
in-band value 65535 when it finds nothing.  So the table is the finite map in which the first
`put` of a key wins, whatever the hash function does, and this is what the module proves.  It keeps
an entry for every call; `num_entries` counts them in an `int`.

A C string is the list of its bytes up to the terminator, with the proof that the terminator is
not among them.  Whether `char` is signed is left to the compiler by the language; it only enters
the hash, and is a parameter here.

Main definitions:

* `DedupLzw.CString`, `DedupLzw.strcat`, `DedupLzw.CString.ofBytes` — C strings;
* `DedupLzw.Hashtable.create_table`, `hash_func`, `put`, `get`, `num_entries` — the functions of the
  source;
* `DedupLzw.Hashtable.Represents` — a table holds the entries of a list of `put` calls;
* `DedupLzw.Hashtable.Implements` — a table is the map in which the first call with a key wins.

Main results:

* `DedupLzw.Hashtable.represents_create`, `represents_put` — every table built by the source's
  functions represents its `put` calls;
* `DedupLzw.Hashtable.Represents.get_eq` — `get` answers with the earliest `put` of the key;
* `DedupLzw.Hashtable.Represents.entries_perm`, `num_entries_eq` — the entries and their number;
* `DedupLzw.Hashtable.implements_putAll` — **every table the source builds is such a map**.
-/

import DedupLzw.FirstWins

set_option relaxedAutoImplicit false
set_option autoImplicit false

namespace DedupLzw

/-! ### C strings -/

/-- A C string: the bytes before the terminating `'\\0'`. -/
structure CString where
  bytes : List UInt8
  noNul : 0 ∉ bytes
deriving DecidableEq, Repr

namespace CString

@[ext] theorem ext {s t : CString} (h : s.bytes = t.bytes) : s = t := by
  cases s; cases t; simpa using h

/-- The string that starts at the head of `mem`: the bytes up to the first `'\\0'`. -/
def ofBytes (mem : List UInt8) : CString where
  bytes := mem.takeWhile (· ≠ 0)
  noNul h := by simpa using List.mem_takeWhile_imp h

@[simp] theorem ofBytes_bytes (s : CString) : ofBytes s.bytes = s := by
  ext1
  refine List.takeWhile_eq_self_iff.2 fun c hc => ?_
  simpa using fun h0 : c = 0 => s.noNul (h0 ▸ hc)

theorem ofBytes_zero : (ofBytes [0]).bytes = [] := by decide

theorem ofBytes_ne_zero {c : UInt8} (h : c ≠ 0) : (ofBytes [c]).bytes = [c] := by
  simp [ofBytes, h]

/-- `strlen` -/
def strlen (s : CString) : ℕ := s.bytes.length

end CString

/-- `strcat`: the string that `s` becomes when `t` is appended to it. -/
def strcat (s t : CString) : CString where
  bytes := s.bytes ++ t.bytes
  noNul h := (List.mem_append.1 h).elim s.noNul t.noNul

@[simp] theorem strcat_bytes (s t : CString) : (strcat s t).bytes = s.bytes ++ t.bytes := rfl

namespace Hashtable

/-! ### The table -/

/-- `hash_table`: the number of buckets, and for each bucket its chain of entries from the head. -/
structure HashTable where
  size : ℕ
  table : List (List (CString × UInt16))
deriving DecidableEq, Repr

/-- `create_table` -/
def create_table (table_size : ℕ) : HashTable where
  size := table_size
  table := List.replicate table_size []

/-- The conversion of a `char` to `unsigned long` (by way of `int`) on a platform whose `char` is
signed or not. -/
def charToULong (signed : Bool) (c : UInt8) : UInt64 :=
  if signed then c.toInt8.toInt64.toUInt64 else c.toUInt64

/-- `hash_func`: djb2 over the bytes of the key, with the wrap-around of `unsigned long`. -/
def hash_func (signed : Bool) (table : HashTable) (key : CString) : ℕ :=
  let hash : UInt64 :=
    key.bytes.foldl (fun hash c => ((hash <<< 5) + hash) + charToULong signed c) 5381
  hash.toNat % table.size

/-- `put`: the new entry goes to the tail of the chain of its bucket. -/
def put (signed : Bool) (table : HashTable) (key : CString) (value : UInt16) : HashTable :=
  let hash := hash_func signed table key
  { table with table := table.table.modify hash (· ++ [(key, value)]) }

/-- The `(uint16_t) -1` by which `get` says that it found nothing. -/
def notFound : UInt16 := 65535

/-- `get`: the value of the first entry of the chain whose key compares equal. -/
def get (signed : Bool) (table : HashTable) (key : CString) : UInt16 :=
  let hash := hash_func signed table key
  match (table.table.getD hash []).find? (fun e => e.1 = key) with
  | some e => e.2
  | none => notFound

/-- `num_entries`: the entries of all chains, counted in an `int`. -/
def num_entries (table : HashTable) : BitVec 32 :=
  (List.range table.size).foldl
    (fun n i => (table.table.getD i []).foldl (fun n _ => n + 1) n) 0

/-- The table after a sequence of calls of `put`. -/
def putAll (signed : Bool) (table : HashTable) (puts : List (CString × UInt16)) : HashTable :=
  puts.foldl (fun table e => put signed table e.1 e.2) table

/-! ### The map it represents -/

/-- The hash depends on the table through its size only. -/
theorem hash_func_congr (signed : Bool) {t u : HashTable} (h : t.size = u.size) (key : CString) :
    hash_func signed t key = hash_func signed u key := by
  simp [hash_func, h]

@[simp] theorem size_put (signed : Bool) (t : HashTable) (key : CString) (value : UInt16) :
    (put signed t key value).size = t.size := rfl

@[simp] theorem hash_func_put (signed : Bool) (t : HashTable) (k : CString) (v : UInt16)
    (key : CString) : hash_func signed (put signed t k v) key = hash_func signed t key :=
  hash_func_congr signed rfl key

/-- The table `t` holds the entries of the calls `puts`, in the order of the calls: each chain
is the list of those whose key hashes to its bucket. -/
structure Represents (signed : Bool) (t : HashTable) (puts : List (CString × UInt16)) : Prop where
  size_pos : 0 < t.size
  length_table : t.table.length = t.size
  chain : ∀ b, b < t.size →
    t.table[b]? = some (puts.filter fun e => hash_func signed t e.1 = b)

theorem Represents.hash_func_lt {signed : Bool} {t : HashTable} {puts : List (CString × UInt16)}
    (h : Represents signed t puts) (key : CString) : hash_func signed t key < t.size :=
  Nat.mod_lt _ h.size_pos

theorem represents_create (signed : Bool) {n : ℕ} (hn : 0 < n) :
    Represents signed (create_table n) [] where
  size_pos := hn
  length_table := by simp [create_table]
  chain b hb := by
    have hb' : b < n := hb
    simp [create_table, hb']

theorem represents_put {signed : Bool} {t : HashTable} {puts : List (CString × UInt16)}
    (h : Represents signed t puts) (key : CString) (value : UInt16) :
    Represents signed (put signed t key value) (puts ++ [(key, value)]) where
  size_pos := h.size_pos
  length_table := by simp [put, h.length_table]
  chain b hb := by
    have hb' := h.chain b hb
    simp only [hash_func_put, List.filter_append]
    by_cases hkey : hash_func signed t key = b
    · simp [put, hkey, hb']
    · simp [put, hkey, hb']

/-- The value the first of the calls `puts` with this key was given. -/
def firstPut (puts : List (CString × UInt16)) (key : CString) : Option UInt16 :=
  (puts.find? fun e => e.1 = key).map Prod.snd

/-- `get` answers with the earliest `put` of the key, and with 65535 when there was none. -/
theorem Represents.get_eq {signed : Bool} {t : HashTable} {puts : List (CString × UInt16)}
    (h : Represents signed t puts) (key : CString) :
    get signed t key = (firstPut puts key).getD notFound := by
  have hchain := h.chain _ (h.hash_func_lt key)
  -- scanning the chain of the key's bucket is scanning all the calls
  have hfind : (puts.filter fun e => hash_func signed t e.1 = hash_func signed t key).find?
      (fun e => e.1 = key) = puts.find? fun e => e.1 = key := by
    rw [List.find?_filter]
    congr 1
    funext e
    by_cases he : e.1 = key <;> simp [he]
  rw [get, firstPut, List.getD_eq_getElem?_getD, hchain, Option.getD_some, hfind]
  cases puts.find? fun e => e.1 = key <;> rfl

theorem firstPut_eq_ofList (puts : List (CString × UInt16)) (key : CString) :
    firstPut puts key = FirstWins.ofList puts key := (FirstWins.ofList_eq_find? puts key).symm

theorem represents_putAll {signed : Bool} {t : HashTable} {before : List (CString × UInt16)}
    (h : Represents signed t before) (puts : List (CString × UInt16)) :
    Represents signed (putAll signed t puts) (before ++ puts) := by
  induction puts generalizing t before with
  | nil => rwa [List.append_nil]
  | cons e puts ih =>
      have hall := ih (represents_put h e.1 e.2)
      rwa [List.append_assoc, List.singleton_append] at hall

/-! ### The entries -/

/-- The entries of a table, chain after chain. -/
def entries (table : HashTable) : List (CString × UInt16) := table.table.flatten

/-- The table holds one entry for every call. -/
theorem Represents.entries_perm {signed : Bool} {t : HashTable}
    {puts : List (CString × UInt16)} (h : Represents signed t puts) : (entries t).Perm puts := by
  have htable : t.table
      = (List.range t.size).map fun b => puts.filter fun e => hash_func signed t e.1 = b := by
    refine List.ext_getElem? fun b => ?_
    rcases Nat.lt_or_ge b t.size with hb | hb
    · rw [h.chain b hb, List.getElem?_map, List.getElem?_range hb, Option.map_some]
    · rw [List.getElem?_eq_none (by rw [h.length_table]; exact hb),
        List.getElem?_eq_none (by simpa using hb)]
  rw [entries, htable, List.flatten_eq_flatMap, List.flatMap_map]
  exact FirstWins.flatMap_buckets_perm (fun e => h.hash_func_lt e.1) puts

/-- Counting the entries of one chain. -/
theorem count_chain (chain : List (CString × UInt16)) (n : ℕ) :
    chain.foldl (fun n _ => n + 1) (BitVec.ofNat 32 n) = BitVec.ofNat 32 (n + chain.length) := by
  induction chain generalizing n with
  | nil => rfl
  | cons e chain ih =>
      have hone : BitVec.ofNat 32 n + 1 = BitVec.ofNat 32 (n + 1) := (BitVec.ofNat_add n 1).symm
      rw [List.foldl_cons, hone, ih, List.length_cons]
      congr 1
      omega

/-- `num_entries` counts them all, as far as an `int` can count. -/
theorem num_entries_eq {t : HashTable} (h : t.table.length = t.size) :
    num_entries t = BitVec.ofNat 32 (entries t).length := by
  have hchains : ∀ m ≤ t.size, (List.range m).foldl
      (fun n i => (t.table.getD i []).foldl (fun n _ => n + 1) n) 0
        = BitVec.ofNat 32 (t.table.take m).flatten.length := by
    intro m
    induction m with
    | zero => exact fun _ => rfl
    | succ m ih =>
        intro hm
        rw [List.range_succ, List.foldl_append, ih (by omega), List.foldl_cons, List.foldl_nil,
          count_chain, List.take_succ_eq_append_getElem (by omega), List.flatten_append,
          List.length_append, List.flatten_singleton, List.getD_eq_getElem _ _ (by omega)]
  have hall := hchains t.size le_rfl
  rwa [List.take_of_length_le h.le] at hall

/-! ### The table as a map -/

/-- The table `t` of `table_size` buckets is the map in which the first of the calls `puts` with a
key wins. -/
structure Implements (signed : Bool) (table_size : ℕ) (puts : List (CString × UInt16))
    (t : HashTable) : Prop where
  get_eq : ∀ key, get signed t key = (FirstWins.ofList puts key).getD notFound
  earliest : ∀ before key value after, puts = before ++ (key, value) :: after →
    (∀ e ∈ before, e.1 ≠ key) → get signed t key = value
  absent : ∀ key, get signed t key = notFound ↔ ∀ e ∈ puts, e.1 ≠ key
  hash_lt : ∀ key, hash_func signed t key < table_size
  bucket : ∀ b chain, t.table[b]? = some chain → ∀ e ∈ chain, hash_func signed t e.1 = b
  entries_perm : (entries t).Perm puts
  /-- The number of calls, if it is an `int`. -/
  count : puts.length < 2 ^ 31 → (num_entries t).toInt = puts.length

theorem Represents.get_eq_notFound_iff {signed : Bool} {t : HashTable}
    {puts : List (CString × UInt16)} (h : Represents signed t puts)
    (hvalues : ∀ e ∈ puts, e.2 ≠ notFound) (key : CString) :
    get signed t key = notFound ↔ ∀ e ∈ puts, e.1 ≠ key := by
  rw [h.get_eq, firstPut_eq_ofList]
  cases hmap : FirstWins.ofList puts key with
  | none => exact iff_of_true rfl (FirstWins.ofList_eq_none_iff.1 hmap)
  | some value =>
      have hmem := FirstWins.mem_of_ofList_eq_some hmap
      exact iff_of_false (hvalues _ hmem) fun hno => hno _ hmem rfl

theorem Represents.hash_func_of_mem {signed : Bool} {t : HashTable}
    {puts : List (CString × UInt16)} (h : Represents signed t puts) {b : ℕ}
    {chain : List (CString × UInt16)} (hchain : t.table[b]? = some chain) :
    ∀ e ∈ chain, hash_func signed t e.1 = b := by
  obtain ⟨hb, _⟩ := List.getElem?_eq_some_iff.1 hchain
  rw [h.chain b (h.length_table ▸ hb), Option.some_inj] at hchain
  intro e he
  rw [← hchain] at he
  simpa using (List.mem_filter.1 he).2

theorem size_putAll (signed : Bool) (t : HashTable) (puts : List (CString × UInt16)) :
    (putAll signed t puts).size = t.size := by
  induction puts generalizing t with
  | nil => rfl
  | cons e puts ih => exact ih _

/-- A new table after any sequence of calls of `put`, with values that are not the in-band "not
found", is the map in which the first call with a key wins. -/
theorem implements_putAll (signed : Bool) {table_size : ℕ} (hsize : 1 ≤ table_size)
    {puts : List (CString × UInt16)} (hvalues : ∀ e ∈ puts, e.2 ≠ notFound) :
    Implements signed table_size puts (putAll signed (create_table table_size) puts) := by
  have h : Represents signed (putAll signed (create_table table_size) puts) puts :=
    represents_putAll (represents_create signed hsize) puts
  have hget : ∀ key, get signed (putAll signed (create_table table_size) puts) key
      = (FirstWins.ofList puts key).getD notFound := by
    intro key
    rw [h.get_eq, firstPut_eq_ofList]
  refine ⟨hget, ?_, h.get_eq_notFound_iff hvalues, ?_, fun b chain => h.hash_func_of_mem,
    h.entries_perm, ?_⟩
  · intro before key value after hputs hbefore
    rw [hget, FirstWins.ofList_eq_some_iff.2 ⟨before, after, hputs, hbefore⟩, Option.getD_some]
  · intro key
    have hlt := h.hash_func_lt key
    rwa [size_putAll] at hlt
  · intro hint
    rw [num_entries_eq h.length_table, h.entries_perm.length_eq,
      BitVec.toInt_eq_toNat_of_lt (by rw [BitVec.toNat_ofNat]; omega), BitVec.toNat_ofNat,
      Nat.mod_eq_of_lt (by omega)]

/-- Two calls with one key, and one with another key in the only bucket between them. -/
theorem implements_putAll_collision :
    get true (putAll true (create_table 1)
      [(CString.ofBytes [0xC3], 7), (CString.ofBytes [65], 8), (CString.ofBytes [0xC3], 9)])
        (CString.ofBytes [0xC3]) = 7 := by
  have hvalues : ∀ e ∈ [(CString.ofBytes [0xC3], (7 : UInt16)), (CString.ofBytes [65], 8),
      (CString.ofBytes [0xC3], 9)], e.2 ≠ notFound := by decide
  exact (implements_putAll true le_rfl hvalues).earliest [] _ _ _ rfl (by simp)

/-- After 2³¹ calls there is no `int` that `num_entries` could answer with. -/
theorem num_entries_overflows :
    let puts : List (CString × UInt16) := List.replicate (2 ^ 31) (CString.ofBytes [], 0)
    (∀ e ∈ puts, e.2 ≠ notFound) ∧
      (num_entries (putAll false (create_table 1) puts)).toInt ≠ puts.length := by
  intro puts
  constructor
  · intro e he
    rw [List.eq_of_mem_replicate he]
    decide
  · have hlt := BitVec.toInt_lt (x := num_entries (putAll false (create_table 1) puts))
    have hlen : puts.length = 2 ^ 31 := List.length_replicate
    rw [hlen]
    norm_num at hlt ⊢
    omega

end Hashtable

end DedupLzw
