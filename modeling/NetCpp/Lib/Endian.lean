/-
# NetCpp.Lib.Endian — integers and their bytes.

`image n x` is the object representation of an `n`-byte integer where the low byte comes first, `value` reads it
back, and `swap` reverses the bytes of an integer.  The rules are that the two are inverse to one another on texts of
`n` bytes, that a swapped integer has the reversed image, and that the bitwise operations act byte by byte.
-/
import Mathlib
import NetCpp.Lib.Bytes

namespace NetCpp.Lib

/-- The low `n` bytes of a number, the lowest first. -/
def lowFirst : Nat → Nat → Bytes
  | 0, _ => []
  | n + 1, x => UInt8.ofNat x :: lowFirst n (x / 256)

def ofLowFirst : Bytes → Nat
  | [] => 0
  | b :: bs => b.toNat + 256 * ofLowFirst bs

variable {n x y : Nat} {bs : Bytes}

@[simp] theorem length_lowFirst (n x : Nat) : (lowFirst n x).length = n := by
  induction n generalizing x with
  | zero => rfl
  | succ n ih => rw [lowFirst, List.length_cons, ih]

theorem ofLowFirst_lt (bs : Bytes) : ofLowFirst bs < 256 ^ bs.length := by
  induction bs with
  | nil => exact Nat.one_pos
  | cons b bs ih =>
    have hb := b.toNat_lt
    rw [ofLowFirst, List.length_cons, Nat.pow_succ]
    omega

theorem ofLowFirst_lowFirst (h : x < 256 ^ n) : ofLowFirst (lowFirst n x) = x := by
  induction n generalizing x with
  | zero =>
    rw [lowFirst, ofLowFirst]
    rw [Nat.pow_zero] at h
    omega
  | succ n ih =>
    have hdiv : x / 256 < 256 ^ n := by
      apply Nat.div_lt_of_lt_mul
      rw [Nat.pow_succ] at h
      omega
    rw [lowFirst, ofLowFirst, ih hdiv, UInt8.toNat_ofNat']
    omega

theorem lowFirst_ofLowFirst (bs : Bytes) : lowFirst bs.length (ofLowFirst bs) = bs := by
  induction bs with
  | nil => rfl
  | cons b bs ih =>
    have hb := b.toNat_lt
    have hdiv : (b.toNat + 256 * ofLowFirst bs) / 256 = ofLowFirst bs := by omega
    have hlow : UInt8.ofNat (b.toNat + 256 * ofLowFirst bs) = b := by
      apply UInt8.toNat_inj.mp
      rw [UInt8.toNat_ofNat']
      omega
    rw [List.length_cons, ofLowFirst, lowFirst, hdiv, hlow, ih]

/-! ## Integers of `n` bytes. -/

/-- The bytes of an integer in memory. -/
def image (n : Nat) (x : BitVec (8 * n)) : Bytes := lowFirst n x.toNat

/-- The integer that stands in memory. -/
def value (n : Nat) (bs : Bytes) : BitVec (8 * n) := BitVec.ofNat (8 * n) (ofLowFirst bs)

/-- The integer with its bytes the other way round. -/
def swap (n : Nat) (x : BitVec (8 * n)) : BitVec (8 * n) := value n (image n x).reverse

theorem two_pow_eight_mul (n : Nat) : 2 ^ (8 * n) = 256 ^ n := by
  rw [Nat.pow_mul]

@[simp] theorem length_image (n : Nat) (x : BitVec (8 * n)) : (image n x).length = n := length_lowFirst n x.toNat

@[simp] theorem value_image (n : Nat) (x : BitVec (8 * n)) : value n (image n x) = x := by
  have hlt : x.toNat < 256 ^ n := two_pow_eight_mul n ▸ x.isLt
  rw [value, image, ofLowFirst_lowFirst hlt, BitVec.ofNat_toNat, BitVec.setWidth_eq]

theorem image_value (h : bs.length = n) : image n (value n bs) = bs := by
  have hlt : ofLowFirst bs < 2 ^ (8 * n) := by
    rw [two_pow_eight_mul, ← h]
    exact ofLowFirst_lt bs
  rw [image, value, BitVec.toNat_ofNat, Nat.mod_eq_of_lt hlt, ← h, lowFirst_ofLowFirst]

/-- **Swapping reverses the image.** -/
theorem image_swap (n : Nat) (x : BitVec (8 * n)) : image n (swap n x) = (image n x).reverse := by
  apply image_value
  rw [List.length_reverse, length_image]

@[simp] theorem swap_swap (n : Nat) (x : BitVec (8 * n)) : swap n (swap n x) = x := by
  rw [swap, image_swap, List.reverse_reverse, value_image]

theorem lowFirst_or (n x y : Nat) : lowFirst n (x ||| y) = List.zipWith (· ||| ·) (lowFirst n x) (lowFirst n y) := by
  induction n generalizing x y with
  | zero => rfl
  | succ n ih =>
    have hdiv : (x ||| y) / 256 = x / 256 ||| y / 256 := Nat.or_div_two_pow (n := 8)
    rw [lowFirst, lowFirst, lowFirst, List.zipWith_cons_cons, hdiv, ih, UInt8.ofNat_or]

theorem lowFirst_and (n x y : Nat) : lowFirst n (x &&& y) = List.zipWith (· &&& ·) (lowFirst n x) (lowFirst n y) := by
  induction n generalizing x y with
  | zero => rfl
  | succ n ih =>
    have hdiv : (x &&& y) / 256 = x / 256 &&& y / 256 := Nat.and_div_two_pow (n := 8)
    rw [lowFirst, lowFirst, lowFirst, List.zipWith_cons_cons, hdiv, ih, UInt8.ofNat_and]

theorem image_or (n : Nat) (x y : BitVec (8 * n)) : image n (x ||| y) = List.zipWith (· ||| ·) (image n x) (image n y) := by
  rw [image, BitVec.toNat_or, lowFirst_or, image, image]

theorem image_and (n : Nat) (x y : BitVec (8 * n)) : image n (x &&& y) = List.zipWith (· &&& ·) (image n x) (image n y) := by
  rw [image, BitVec.toNat_and, lowFirst_and, image, image]

end NetCpp.Lib
