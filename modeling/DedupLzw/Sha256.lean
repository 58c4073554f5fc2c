/-
**SHA-256.**

A message is padded to whole blocks of 64 bytes, each block is spread to a schedule of 64 words, and
the blocks are compressed one after another into eight working variables, in 64 rounds each.

The padding is the shortest one: a single byte 0x80, as few zero bytes as possible, and the length
of the message in bits, in eight bytes.

Main definitions:

* `Sha256.W` — the message schedule of a block;
* `Sha256.rounds`, `Sha256.compress` — the compression of one block;
* `Sha256.padding` — the padded message;
* `Sha256.sha256` — the digest.

Main results:

* `Sha256.W_of_lt`, `Sha256.W_add_sixteen` — the first sixteen words of a schedule, and the
  recurrence of the others;
* `Sha256.isLeast_zeroCount` — the padding is the shortest one;
* `Sha256.padding_injective` — different messages have different paddings.
-/

import Mathlib

set_option relaxedAutoImplicit false
set_option autoImplicit false

namespace Sha256

/-! ### Functions on words -/

/-- Rotation to the right. -/
def rotr (n x : UInt32) : UInt32 := (x >>> n) ||| (x <<< (32 - n))

/-- Choice: the bits of `y` where `x` is set, those of `z` elsewhere. -/
def ch (x y z : UInt32) : UInt32 := (x &&& y) ^^^ (~~~x &&& z)

/-- Majority. -/
def maj (x y z : UInt32) : UInt32 := (x &&& y) ^^^ (x &&& z) ^^^ (y &&& z)

def bigSigma0 (x : UInt32) : UInt32 := rotr 2 x ^^^ rotr 13 x ^^^ rotr 22 x

def bigSigma1 (x : UInt32) : UInt32 := rotr 6 x ^^^ rotr 11 x ^^^ rotr 25 x

def smallSigma0 (x : UInt32) : UInt32 := rotr 7 x ^^^ rotr 18 x ^^^ (x >>> 3)

def smallSigma1 (x : UInt32) : UInt32 := rotr 17 x ^^^ rotr 19 x ^^^ (x >>> 10)

/-- The constants of the 64 rounds. -/
def K : List UInt32 :=
  [0x428a2f98, 0x71374491, 0xb5c0fbcf, 0xe9b5dba5, 0x3956c25b, 0x59f111f1, 0x923f82a4, 0xab1c5ed5,
   0xd807aa98, 0x12835b01, 0x243185be, 0x550c7dc3, 0x72be5d74, 0x80deb1fe, 0x9bdc06a7, 0xc19bf174,
   0xe49b69c1, 0xefbe4786, 0x0fc19dc6, 0x240ca1cc, 0x2de92c6f, 0x4a7484aa, 0x5cb0a9dc, 0x76f988da,
   0x983e5152, 0xa831c66d, 0xb00327c8, 0xbf597fc7, 0xc6e00bf3, 0xd5a79147, 0x06ca6351, 0x14292967,
   0x27b70a85, 0x2e1b2138, 0x4d2c6dfc, 0x53380d13, 0x650a7354, 0x766a0abb, 0x81c2c92e, 0x92722c85,
   0xa2bfe8a1, 0xa81a664b, 0xc24b8b70, 0xc76c51a3, 0xd192e819, 0xd6990624, 0xf40e3585, 0x106aa070,
   0x19a4c116, 0x1e376c08, 0x2748774c, 0x34b0bcb5, 0x391c0cb3, 0x4ed8aa4a, 0x5b9cca4f, 0x682e6ff3,
   0x748f82ee, 0x78a5636f, 0x84c87814, 0x8cc70208, 0x90befffa, 0xa4506ceb, 0xbef9a3f7, 0xc67178f2]

/-! ### The message schedule -/

/-- The first `16 + n` words of the schedule of the block `M`, the last one first. -/
def schedule (M : ℕ → UInt32) : ℕ → List UInt32
  | 0 => (List.range 16).reverse.map M
  | n + 1 =>
      let w := schedule M n
      (smallSigma1 (w.getD 1 0) + w.getD 6 0 + smallSigma0 (w.getD 14 0) + w.getD 15 0) :: w

/-- The word `t` of the schedule. -/
def W (M : ℕ → UInt32) (t : ℕ) : UInt32 := (schedule M (t - 15)).getD (15 - t) 0

theorem W_of_lt (M : ℕ → UInt32) {t : ℕ} (ht : t < 16) : W M t = M t := by
  rw [W, show t - 15 = 0 by omega]
  simp only [schedule]
  interval_cases t <;> rfl

theorem getD_schedule (M : ℕ → UInt32) (n : ℕ) {j : ℕ} (hj : j ≤ n + 15) :
    (schedule M n).getD j 0 = W M (n + 15 - j) := by
  induction n generalizing j with
  | zero => rw [W, show 0 + 15 - j - 15 = 0 by omega, show 15 - (0 + 15 - j) = j by omega]
  | succ n ih =>
      cases j with
      | zero => rw [W, show n + 1 + 15 - 0 - 15 = n + 1 by omega,
          show 15 - (n + 1 + 15 - 0) = 0 by omega]
      | succ j =>
          rw [schedule, List.getD_cons_succ, ih (by omega)]
          congr 1
          omega

theorem W_add_sixteen (M : ℕ → UInt32) (t : ℕ) :
    W M (t + 16)
      = smallSigma1 (W M (t + 14)) + W M (t + 9) + smallSigma0 (W M (t + 1)) + W M t := by
  rw [W, show t + 16 - 15 = t + 1 by omega, show 15 - (t + 16) = 0 by omega, schedule,
    List.getD_cons_zero, getD_schedule M t (by omega), getD_schedule M t (by omega),
    getD_schedule M t (by omega), getD_schedule M t (by omega)]
  rfl

/-! ### The compression of a block -/

/-- The working variables, and the hash value between two blocks. -/
structure Vars where
  a : UInt32
  b : UInt32
  c : UInt32
  d : UInt32
  e : UInt32
  f : UInt32
  g : UInt32
  h : UInt32
deriving DecidableEq, Repr

/-- One round, with its constant and its word of the schedule. -/
def round (v : Vars) (k w : UInt32) : Vars :=
  let t₁ := v.h + bigSigma1 v.e + ch v.e v.f v.g + k + w
  let t₂ := bigSigma0 v.a + maj v.a v.b v.c
  ⟨t₁ + t₂, v.a, v.b, v.c, v.d + t₁, v.e, v.f, v.g⟩

/-- The first `t` rounds. -/
def rounds (M : ℕ → UInt32) (v : Vars) : ℕ → Vars
  | 0 => v
  | t + 1 => round (rounds M v t) (K.getD t 0) (W M t)

/-- The hash value after the block `M`. -/
def compress (v : Vars) (M : ℕ → UInt32) : Vars :=
  let r := rounds M v 64
  ⟨r.a + v.a, r.b + v.b, r.c + v.c, r.d + v.d, r.e + v.e, r.f + v.f, r.g + v.g, r.h + v.h⟩

/-- A word of a message, the first of its four bytes most significant. -/
def word (m : ℕ → UInt8) (p : ℕ) : UInt32 :=
  ((m p).toUInt32 <<< 24) ||| ((m (p + 1)).toUInt32 <<< 16) ||| ((m (p + 2)).toUInt32 <<< 8)
    ||| (m (p + 3)).toUInt32

/-- The words of the block `i` of a message. -/
def block (m : ℕ → UInt8) (i t : ℕ) : UInt32 := word m (64 * i + 4 * t)

/-- The compression over the first `n` blocks of a message. -/
def hashBlocks (m : ℕ → UInt8) (v : Vars) (n : ℕ) : Vars :=
  (List.range n).foldl (fun v i => compress v (block m i)) v

/-! ### Padding -/

/-- The number of zero bytes behind a message of `len` bytes. -/
def zeroCount (len : ℕ) : ℕ := (119 - len % 64) % 64

/-- No smaller number fills the last block. -/
theorem isLeast_zeroCount (len : ℕ) : IsLeast {z | 64 ∣ len + 1 + z + 8} (zeroCount len) := by
  constructor
  · change 64 ∣ len + 1 + (119 - len % 64) % 64 + 8
    omega
  · intro z hz
    change 64 ∣ len + 1 + z + 8 at hz
    unfold zeroCount
    omega

/-- A number in eight bytes, the first one most significant. -/
def bigEndian (n : ℕ) : List UInt8 := (List.range 8).map fun i => UInt8.ofNat (n / 256 ^ (7 - i))

@[simp] theorem length_bigEndian (n : ℕ) : (bigEndian n).length = 8 := rfl

theorem bigEndian_inj {m n : ℕ} (h : bigEndian m = bigEndian n) : m % 2 ^ 64 = n % 2 ^ 64 := by
  have hbytes : ∀ i < 8, m / 256 ^ (7 - i) % 256 = n / 256 ^ (7 - i) % 256 := by
    intro i hi
    have hget := congrArg (fun l => (l.getD i 0).toNat) h
    simpa [bigEndian, List.getD_eq_getElem?_getD, hi] using hget
  -- the bytes from the last one on
  have hmod : ∀ k ≤ 8, m % 256 ^ k = n % 256 ^ k := by
    intro k
    induction k with
    | zero => intro _; rw [pow_zero, Nat.mod_one, Nat.mod_one]
    | succ k ih =>
        intro hk
        have hbyte := hbytes (7 - k) (by omega)
        rw [show 7 - (7 - k) = k by omega] at hbyte
        rw [Nat.mod_pow_succ, Nat.mod_pow_succ, ih (by omega), hbyte]
  have hall := hmod 8 le_rfl
  norm_num at hall ⊢
  exact hall

/-- The padded message. -/
def padding (data : List UInt8) : List UInt8 :=
  data ++ [0x80] ++ List.replicate (zeroCount data.length) 0 ++ bigEndian (8 * data.length)

theorem length_padding (data : List UInt8) :
    (padding data).length = data.length + zeroCount data.length + 9 := by
  simp only [padding, List.length_append, List.length_singleton, List.length_replicate,
    length_bigEndian]
  omega

/-- Different messages have different paddings. -/
theorem padding_injective : Function.Injective padding := by
  intro data data' h
  have hlength := congrArg List.length h
  rw [length_padding, length_padding] at hlength
  -- the last eight bytes give the length modulo 2⁶¹, and the number of blocks gives it up to 64
  have hfield : bigEndian (8 * data.length) = bigEndian (8 * data'.length) :=
    (List.append_inj' h rfl).2
  have hmod := bigEndian_inj hfield
  have hlen : data.length = data'.length := by
    unfold zeroCount at hlength
    omega
  simp only [padding, List.append_assoc] at h
  exact (List.append_inj h hlen).1

/-! ### The digest -/

/-- The initial hash value. -/
def init : Vars :=
  ⟨0x6a09e667, 0xbb67ae85, 0x3c6ef372, 0xa54ff53a, 0x510e527f, 0x9b05688c, 0x1f83d9ab, 0x5be0cd19⟩

/-- The bytes of a word, the most significant one first. -/
def wordBytes (w : UInt32) : List UInt8 :=
  [(w >>> 24).toUInt8, (w >>> 16).toUInt8, (w >>> 8).toUInt8, w.toUInt8]

/-- The bytes of a hash value. -/
def Vars.bytes (v : Vars) : List UInt8 := [v.a, v.b, v.c, v.d, v.e, v.f, v.g, v.h].flatMap wordBytes

/-- The digest of a message. -/
def sha256 (data : List UInt8) : List UInt8 :=
  (hashBlocks (fun j => (padding data).getD j 0) init ((padding data).length / 64)).bytes

example : (sha256 [97, 98, 99]).take 8 = [0xba, 0x78, 0x16, 0xbf, 0x8f, 0x01, 0xcf, 0xea] := by
  decide +kernel

end Sha256
