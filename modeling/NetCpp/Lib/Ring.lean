/-
# NetCpp.Lib.Ring — ring indices against absolute counters.

A ring of `2 ^ bits` slots keeps indices reduced by a mask of ones.  Reasoning about them goes through
the ABSOLUTE counters they abbreviate: `a` items ever removed, `b` items ever inserted, `a ≤ b`, and
never a whole ring apart.  Under that bound a reduced index determines its counter, so tests on indices
are tests on counters.
-/
import Mathlib

namespace NetCpp.Lib

/-- The successor of a reduced index: `(i + 1) & mask` with `mask = 2 ^ bits - 1`. -/
def ringNext (bits i : Nat) : Nat := (i + 1) &&& (2 ^ bits - 1)

/-- The reduced index of the absolute counter `a`. -/
def ringIdx (bits a : Nat) : Nat := a % 2 ^ bits

theorem ringNext_ringIdx (bits a : Nat) : ringNext bits (ringIdx bits a) = ringIdx bits (a + 1) := by
  unfold ringNext ringIdx
  rw [Nat.and_two_pow_sub_one_eq_mod, Nat.mod_add_mod]

/-- Less than a ring apart, equal indices mean equal counters. -/
theorem ringIdx_eq_iff {bits a b : Nat} (hab : a ≤ b) (hlt : b < a + 2 ^ bits) :
    ringIdx bits a = ringIdx bits b ↔ a = b := by
  constructor
  · intro h
    have hmod : (b - a) % 2 ^ bits = 0 := Nat.sub_mod_eq_zero_of_mod_eq h.symm
    rw [Nat.mod_eq_of_lt (by omega)] at hmod
    omega
  · rintro rfl
    rfl

/-- A whole ring apart, the indices coincide: the one-slot gap that means FULL. -/
theorem ringIdx_add_size (bits a : Nat) : ringIdx bits (a + 2 ^ bits) = ringIdx bits a := by
  simp [ringIdx]

/-! ## Contents

The slots of a ring, read from the absolute counter `a` on: each slot once. -/

variable {α : Type*} {bits a : Nat} {slots f g : Nat → α}

/-- Slot by slot from `a` on, the ring holds what `f` says of the absolute counter. -/
def RingShows (bits : Nat) (slots : Nat → α) (a : Nat) (f : Nat → α) : Prop :=
  ∀ j, a ≤ j → j < a + 2 ^ bits → slots (ringIdx bits j) = f j

theorem RingShows.congr (h : RingShows bits slots a f) (hfg : ∀ j, a ≤ j → j < a + 2 ^ bits → f j = g j) :
    RingShows bits slots a g :=
  fun j hj hlt => (h j hj hlt).trans (hfg j hj hlt)

/-- Writing one slot changes one counter. -/
theorem RingShows.update (h : RingShows bits slots a f) {j : Nat} (hj : a ≤ j) (hlt : j < a + 2 ^ bits) (x : α) :
    RingShows bits (Function.update slots (ringIdx bits j) x) a (Function.update f j x) := by
  intro i hi hilt
  by_cases hij : i = j
  · subst hij; simp
  · have hne : ringIdx bits i ≠ ringIdx bits j := by
      intro he
      rcases Nat.le_total i j with hle | hle
      · exact hij ((ringIdx_eq_iff hle (by omega)).mp he)
      · exact hij ((ringIdx_eq_iff hle (by omega)).mp he.symm).symm
    rw [Function.update_of_ne hne, Function.update_of_ne hij]
    exact h i hi hilt

/-- One slot given up at the front is one more at the back. -/
theorem RingShows.advance (h : RingShows bits slots a f) (hg : ∀ j, a < j → j < a + 2 ^ bits → f j = g j)
    (hback : f a = g (a + 2 ^ bits)) : RingShows bits slots (a + 1) g := by
  intro j hj hlt
  by_cases hlast : j = a + 2 ^ bits
  · subst hlast
    rw [ringIdx_add_size, ← hback]
    exact h a (Nat.le_refl a) (Nat.lt_add_of_pos_right (Nat.two_pow_pos bits))
  · rw [h j (by omega) (by omega)]
    exact hg j hj (by omega)

end NetCpp.Lib
