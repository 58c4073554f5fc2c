/-
**Bit fields of packed numbers.**

Digits of a fixed width are packed, most significant first, into one number.  Bytes are digits of
width 8 and the codes of a code stream are digits of some other width, so packing codes into bytes
and reading them back is a statement about two packings of the same number, up to padding.

A *field* of a number of `T` bits is the run of `m` bits that starts `p` bits from its most
significant end.

Main definitions:

* `BitField.packed` — the number a list of digits of width `w` makes up;
* `BitField.field` — the `m` bits of a `T`-bit number that start at bit `p`.

Main results:

* `BitField.field_succ` — a field is read bit by bit;
* `BitField.field_packed` — the fields at multiples of the width are the digits;
* `BitField.bit_packed` — a single bit is a bit of the digit it falls into.
-/

import Mathlib

set_option relaxedAutoImplicit false
set_option autoImplicit false

namespace BitField

/-! ### Packing -/

/-- The number made up by digits of width `w`, most significant first. -/
def packed (w : ℕ) (ds : List ℕ) : ℕ := Nat.ofDigits (2 ^ w) ds.reverse

@[simp] theorem packed_nil (w : ℕ) : packed w [] = 0 := by simp [packed]

theorem packed_append (w : ℕ) (cs ds : List ℕ) :
    packed w (cs ++ ds) = packed w cs * 2 ^ (w * ds.length) + packed w ds := by
  rw [packed, List.reverse_append, Nat.ofDigits_append, List.length_reverse, ← pow_mul, packed,
    packed]
  ring

theorem packed_concat (w : ℕ) (ds : List ℕ) (d : ℕ) :
    packed w (ds ++ [d]) = packed w ds * 2 ^ w + d := by
  rw [packed_append]
  simp [packed]

theorem packed_lt {w : ℕ} (hw : 0 < w) (ds : List ℕ) (h : ∀ d ∈ ds, d < 2 ^ w) :
    packed w ds < 2 ^ (w * ds.length) := by
  have hrev : ds.reverse.length = ds.length := List.length_reverse
  rw [pow_mul, ← hrev]
  refine Nat.ofDigits_lt_base_pow_length (Nat.one_lt_two_pow hw.ne') ?_
  simpa using h

/-! ### Fields -/

/-- The `m` bits of the `T`-bit number `V` that start `p` bits from its most significant end. -/
def field (V T p m : ℕ) : ℕ := V / 2 ^ (T - p - m) % 2 ^ m

@[simp] theorem field_zero (V T p : ℕ) : field V T p 0 = 0 := by simp [field, Nat.mod_one]

/-- A field is read bit by bit, its most significant bit first. -/
theorem field_succ {V T p m : ℕ} (h : p + m + 1 ≤ T) :
    field V T p (m + 1) = 2 * field V T p m + field V T (p + m) 1 := by
  have hsplit : T - p - m = (T - p - (m + 1)) + 1 := by omega
  have hbit : T - (p + m) - 1 = T - p - (m + 1) := by omega
  rw [field, field, field, hsplit, hbit, pow_succ 2 m, Nat.mul_comm (2 ^ m) 2, Nat.mod_mul,
    Nat.pow_succ 2 (T - p - (m + 1)), ← Nat.div_div_eq_div_mul, pow_one]
  omega

/-- Splitting a packed number at one of its digits. -/
theorem packed_div {w : ℕ} (hw : 0 < w) {ds : List ℕ} (h : ∀ d ∈ ds, d < 2 ^ w) {k : ℕ}
    (hk : k < ds.length) :
    packed w ds / 2 ^ (w * (ds.length - 1 - k)) = packed w (ds.take k) * 2 ^ w + ds[k] := by
  have hsplit : packed w ds
      = (packed w (ds.take k) * 2 ^ w + ds[k]) * 2 ^ (w * (ds.length - 1 - k))
        + packed w (ds.drop (k + 1)) := by
    conv_lhs => rw [← List.take_append_drop (k + 1) ds]
    rw [packed_append, List.take_succ_eq_append_getElem hk, packed_concat, List.length_drop,
      show ds.length - (k + 1) = ds.length - 1 - k by omega]
  have hlow : packed w (ds.drop (k + 1)) < 2 ^ (w * (ds.length - 1 - k)) := by
    have := packed_lt hw (ds.drop (k + 1)) fun d hd => h d (List.mem_of_mem_drop hd)
    rwa [List.length_drop, show ds.length - (k + 1) = ds.length - 1 - k by omega] at this
  rw [hsplit, Nat.mul_comm _ (2 ^ (w * (ds.length - 1 - k))), Nat.mul_add_div (Nat.two_pow_pos _),
    Nat.div_eq_of_lt hlow, Nat.add_zero]

/-- The fields at multiples of the width are the digits, whatever padding follows. -/
theorem field_packed {w : ℕ} (hw : 0 < w) (ds : List ℕ) (h : ∀ d ∈ ds, d < 2 ^ w) (pad : ℕ)
    {k : ℕ} (hk : k < ds.length) :
    field (packed w ds * 2 ^ pad) (w * ds.length + pad) (w * k) w = ds[k] := by
  have hexp : w * ds.length + pad - w * k - w = w * (ds.length - 1 - k) + pad := by
    obtain ⟨r, hr⟩ : ∃ r, ds.length = k + 1 + r := ⟨ds.length - (k + 1), by omega⟩
    rw [hr, show k + 1 + r - 1 - k = r by omega]
    have : w * (k + 1 + r) = w * k + w + w * r := by ring
    omega
  rw [field, hexp, Nat.add_comm, pow_add, ← Nat.div_div_eq_div_mul,
    Nat.mul_div_cancel _ (Nat.two_pow_pos pad), packed_div hw h hk, Nat.mul_comm,
    Nat.mul_add_mod, Nat.mod_eq_of_lt (h _ (List.getElem_mem _))]

/-- A single bit of a packed number is a bit of the digit it falls into. -/
theorem bit_packed {w : ℕ} (hw : 0 < w) (ds : List ℕ) (h : ∀ d ∈ ds, d < 2 ^ w) {p : ℕ}
    (hp : p / w < ds.length) :
    field (packed w ds) (w * ds.length) p 1 = ds[p / w] / 2 ^ (w - 1 - p % w) % 2 := by
  have hmod : p % w < w := Nat.mod_lt _ hw
  have hexp : w * ds.length - p - 1 = w * (ds.length - 1 - p / w) + (w - 1 - p % w) := by
    obtain ⟨r, hr⟩ : ∃ r, ds.length = p / w + 1 + r := ⟨ds.length - (p / w + 1), by omega⟩
    have hdiv := Nat.div_add_mod p w
    rw [hr, show p / w + 1 + r - 1 - p / w = r by omega]
    have : w * (p / w + 1 + r) = w * (p / w) + w + w * r := by ring
    omega
  have hshift : 2 ^ w = 2 ^ (w - 1 - p % w) * (2 * 2 ^ (p % w)) := by
    rw [← pow_succ', ← pow_add]
    congr 1
    omega
  rw [field, hexp, pow_add, ← Nat.div_div_eq_div_mul, packed_div hw h hp, hshift,
    Nat.mul_left_comm, Nat.mul_add_div (Nat.two_pow_pos _), pow_one, Nat.mul_left_comm,
    Nat.mul_add_mod]

end BitField
