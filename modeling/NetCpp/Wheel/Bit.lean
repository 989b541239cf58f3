/-
# NetCpp.Wheel.Bit — `ceil2pow2`, and the masks of the ring buffers.

`include/xsl/wheel/bit.h`, on a 64-bit `std::size_t` and then on every width.  The loop SMEARS the top bit over all bits below it; both ring
buffers of the library store `ceil2pow2(size + 1) - 1` as their mask.  For every requested size this is a string of
ones, also where `size + 1` wraps around.
-/
import Mathlib

namespace NetCpp.Wheel

/-- `n |= n >> i`. -/
def smearStep (n i : Nat) : Nat := n ||| (n >>> i)

/-- The loop of `ceil2pow2` on 64 bits: `i` is 1, 2, 4, …, 32. -/
def smear (n : Nat) : Nat := [1, 2, 4, 8, 16, 32].foldl smearStep n

/-- `ceil2pow2<std::size_t>`. -/
def ceil2pow2 (n : Nat) : Nat := (smear ((n + (2 ^ 64 - 1)) % 2 ^ 64) + 1) % 2 ^ 64

/-- `_size_mask` for a requested size: `ceil2pow2(size + 1) - 1`. -/
def sizeMask (size : Nat) : Nat := (ceil2pow2 ((size + 1) % 2 ^ 64) + (2 ^ 64 - 1)) % 2 ^ 64

/-- The bits of the smallest ring that holds more than `size` slots. -/
def ringBits (size : Nat) : Nat := Nat.size size

/-- Bit `j` is set when one of the `w` bits from `j` on was. -/
def Covers (n m w : Nat) : Prop := ∀ j, m.testBit j = true ↔ ∃ d < w, n.testBit (j + d) = true

theorem covers_one (n : Nat) : Covers n n 1 := by
  intro j
  constructor
  · intro h
    exact ⟨0, by decide, h⟩
  · rintro ⟨d, hd, h⟩
    obtain rfl : d = 0 := by omega
    exact h

/-- Smearing by the width doubles it. -/
theorem Covers.smearStep {n m w : Nat} (h : Covers n m w) : Covers n (smearStep m w) (2 * w) := by
  intro j
  rw [Wheel.smearStep, Nat.testBit_or, Nat.testBit_shiftRight, Bool.or_eq_true, h j, h (w + j)]
  constructor
  · rintro (⟨d, hd, ht⟩ | ⟨d, hd, ht⟩)
    · exact ⟨d, by omega, ht⟩
    · exact ⟨w + d, by omega, by rwa [show j + (w + d) = w + j + d by omega]⟩
  · rintro ⟨d, hd, ht⟩
    by_cases hw : d < w
    · exact .inl ⟨d, hw, ht⟩
    · exact .inr ⟨d - w, by omega, by rwa [show w + j + (d - w) = j + d by omega]⟩

theorem covers_smear (n : Nat) : Covers n (smear n) 64 :=
  (covers_one n).smearStep.smearStep.smearStep.smearStep.smearStep.smearStep

/-- A value covered from its width on is filled below its top bit. -/
theorem Covers.eq {n m w : Nat} (h : Covers n m w) (hn : n < 2 ^ w) : m = 2 ^ Nat.size n - 1 := by
  apply Nat.eq_of_testBit_eq
  intro j
  rw [Nat.testBit_two_pow_sub_one, Bool.eq_iff_iff, h j, decide_eq_true_iff, Nat.lt_size]
  constructor
  · rintro ⟨d, -, ht⟩
    exact le_trans (Nat.pow_le_pow_right (by decide) (Nat.le_add_right j d)) (Nat.ge_two_pow_of_testBit ht)
  · intro hle
    obtain ⟨i, hi, ht⟩ := Nat.exists_ge_and_testBit_of_ge_two_pow hle
    have hiw : i < w := by
      by_contra hge
      have := Nat.ge_two_pow_of_testBit ht
      have := Nat.pow_le_pow_right (show 0 < 2 by decide) (Nat.le_of_not_lt hge)
      omega
    exact ⟨i - j, by omega, by rwa [Nat.add_sub_cancel' hi]⟩

/-- **The loop fills everything below the top bit.** -/
theorem smear_eq {n : Nat} (hn : n < 2 ^ 64) : smear n = 2 ^ Nat.size n - 1 := (covers_smear n).eq hn

/-- **The mask of every requested size is a string of ones.** -/
theorem sizeMask_eq {size : Nat} (h : size < 2 ^ 64) : sizeMask size = 2 ^ ringBits size - 1 := by
  have hdec : ((size + 1) % 2 ^ 64 + (2 ^ 64 - 1)) % 2 ^ 64 = size := by omega
  have hle : 2 ^ Nat.size size - 1 < 2 ^ 64 := by
    have := Nat.pow_le_pow_right (show 0 < 2 by decide) (Nat.size_le.mpr h)
    omega
  rw [sizeMask, ceil2pow2, hdec, smear_eq h, ringBits]
  omega

example : sizeMask 5 = 7 := by decide

/-! ## Every width

`ceil2pow2` is a template.  On a type of `2 ^ k` bits the loop doubles `i` until it reaches the width, `k` times. -/

/-- An unsigned type of `2 ^ k` bits.  The loop counts up to the width in an `unsigned`, which holds the width of every
integral type. -/
structure Unsigned where
  k : Nat
  counted : 2 ^ k < 2 ^ 32

/-- `sizeof(T) * 8`. -/
def Unsigned.bits (T : Unsigned) : Nat := 2 ^ T.k

/-- `std::size_t`. -/
def sizeT : Unsigned := ⟨6, by decide⟩

/-- `for (auto i = 1u; i < sizeof(T) * 8; i <<= 1) n |= n >> i`; `none` when the fuel does not reach its end. -/
def Unsigned.smearLoop (T : Unsigned) : (fuel i n : Nat) → Option Nat
  | 0, _, _ => none
  | fuel + 1, i, n => if i < T.bits then T.smearLoop fuel ((i <<< 1) % 2 ^ 32) (smearStep n i) else some n

/-- `ceil2pow2<T>`. -/
def Unsigned.ceil2pow2 (T : Unsigned) (fuel n : Nat) : Option Nat :=
  (T.smearLoop fuel 1 ((n + (2 ^ T.bits - 1)) % 2 ^ T.bits)).map fun m => (m + 1) % 2 ^ T.bits

/-- `ceil2pow2(size + 1) - 1`. -/
def Unsigned.sizeMask (T : Unsigned) (fuel size : Nat) : Option Nat :=
  (T.ceil2pow2 fuel ((size + 1) % 2 ^ T.bits)).map fun p => (p + (2 ^ T.bits - 1)) % 2 ^ T.bits

namespace Unsigned

variable {T : Unsigned} {fuel i j n m size : Nat}

theorem bits_pos (T : Unsigned) : 0 < T.bits := Nat.two_pow_pos _

/-- The modulus is two half ranges. -/
theorem two_pow_bits (T : Unsigned) : 2 ^ T.bits = 2 * 2 ^ (T.bits - 1) := by
  rw [← Nat.pow_succ', Nat.succ_eq_add_one, Nat.sub_add_cancel T.bits_pos]

/-- Below the width, doubling the counter does not wrap. -/
theorem shift_counter (hj : j < T.k) : (2 ^ j <<< 1) % 2 ^ 32 = 2 ^ (j + 1) := by
  have hle : 2 ^ (j + 1) ≤ 2 ^ T.k := Nat.pow_le_pow_right (by decide) hj
  rw [Nat.shiftLeft_eq, ← Nat.pow_add]
  exact Nat.mod_eq_of_lt (lt_of_le_of_lt hle T.counted)

/-- **The loop ends, and covers from the whole width on.** The induction is on the doublings still to come; before each
one, `i = 2 ^ j` bits are covered. -/
theorem smearLoop_covers : ∀ {fuel j m : Nat}, j ≤ T.k → T.k < fuel + j → Covers n m (2 ^ j) →
    ∃ r, T.smearLoop fuel (2 ^ j) m = some r ∧ Covers n r T.bits := by
  intro fuel
  induction fuel with
  | zero =>
    intro j m hj hfuel
    omega
  | succ fuel ih =>
    intro j m hj hfuel hc
    rw [smearLoop, bits]
    by_cases hlt : j < T.k
    · rw [if_pos (Nat.pow_lt_pow_right (by decide) hlt), shift_counter hlt]
      apply ih hlt (by omega)
      rw [Nat.pow_succ']
      exact hc.smearStep
    · obtain rfl : j = T.k := by omega
      rw [if_neg (Nat.lt_irrefl _)]
      exact ⟨m, rfl, hc⟩

theorem smearLoop_eq (hfuel : T.k < fuel) (hn : n < 2 ^ T.bits) : T.smearLoop fuel 1 n = some (2 ^ Nat.size n - 1) := by
  obtain ⟨r, hr, hc⟩ := smearLoop_covers (T := T) (Nat.zero_le _) hfuel (covers_one n)
  rw [← hc.eq hn]
  exact hr

/-- `--n; …; return n + 1` up to half of the range. -/
theorem ceil2pow2_eq (hfuel : T.k < fuel) (h1 : 1 ≤ n) (hn : n ≤ 2 ^ (T.bits - 1)) :
    T.ceil2pow2 fuel n = some (2 ^ Nat.size (n - 1)) := by
  have htop := T.two_pow_bits
  have hdec : (n + (2 ^ T.bits - 1)) % 2 ^ T.bits = n - 1 := by
    rw [show n + (2 ^ T.bits - 1) = n - 1 + 2 ^ T.bits by omega, Nat.add_mod_right, Nat.mod_eq_of_lt (by omega)]
  have hle : 2 ^ Nat.size (n - 1) ≤ 2 ^ (T.bits - 1) := by
    apply Nat.pow_le_pow_right (by decide)
    exact Nat.size_le.mpr (by omega)
  have hpos := Nat.two_pow_pos (Nat.size (n - 1))
  rw [ceil2pow2, hdec, smearLoop_eq hfuel (by omega), Option.map_some, Nat.sub_add_cancel hpos,
    Nat.mod_eq_of_lt (by omega)]

/-- `2 ^ size (n - 1)` is what `ceil2pow2` is for. -/
theorem isLeast_two_pow (h1 : 1 ≤ n) : IsLeast {p | (∃ j, p = 2 ^ j) ∧ n ≤ p} (2 ^ Nat.size (n - 1)) := by
  constructor
  · have := Nat.lt_size_self (n - 1)
    exact ⟨⟨_, rfl⟩, by omega⟩
  · rintro p ⟨⟨j, rfl⟩, hle⟩
    apply Nat.pow_le_pow_right (by decide)
    exact Nat.size_le.mpr (by omega)

/-- **The mask of a requested size in the lower half of the range is a string of ones.** -/
theorem sizeMask_eq (hfuel : T.k < fuel) (hsize : size < 2 ^ (T.bits - 1)) :
    T.sizeMask fuel size = some (2 ^ ringBits size - 1) := by
  have htop := T.two_pow_bits
  have hle : 2 ^ Nat.size size ≤ 2 ^ (T.bits - 1) := by
    apply Nat.pow_le_pow_right (by decide)
    exact Nat.size_le.mpr hsize
  have hpos := Nat.two_pow_pos (Nat.size size)
  rw [sizeMask, Nat.mod_eq_of_lt (by omega), ceil2pow2_eq hfuel (by omega) (by omega), Option.map_some,
    Nat.add_sub_cancel, ringBits,
    show 2 ^ Nat.size size + (2 ^ T.bits - 1) = 2 ^ Nat.size size - 1 + 2 ^ T.bits by omega, Nat.add_mod_right,
    Nat.mod_eq_of_lt (by omega)]

/-- On `std::size_t`: six doublings, and the test that ends the loop. -/
theorem smearLoop_sizeT (n : Nat) : sizeT.smearLoop 7 1 n = some (smear n) := by
  simp [smearLoop, bits, sizeT, smear]

theorem sizeMask_sizeT (size : Nat) : sizeT.sizeMask 7 size = some (Wheel.sizeMask size) := by
  rw [sizeMask, ceil2pow2, smearLoop_sizeT]
  rfl

end Unsigned

end NetCpp.Wheel
