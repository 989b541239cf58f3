/-
# NetCpp.Lib.Memory — blocks of bytes, and the slices that views show.

A block is a function from offsets; `slice` reads a range and `write` puts a byte string at an offset
(`memcpy`, and `memmove` of a slice that was read first).  The rules say what a slice shows after a write.

A text that grows over a chain of blocks lies in the full ones and in the last up to an offset (`chainText`).
-/
import NetCpp.Lib.Bytes

namespace NetCpp.Lib

abbrev Block := Nat → UInt8

/-- `len` bytes from `off` on. -/
def slice (b : Block) (off len : Nat) : Bytes := (List.range len).map fun i => b (off + i)

/-- Put `data` at `off`. -/
def write (b : Block) (off : Nat) (data : Bytes) : Block :=
  fun i => if h : off ≤ i ∧ i < off + data.length then data.get ⟨i - off, by omega⟩ else b i

variable {b : Block} {off len n : Nat} {data : Bytes}

@[simp] theorem length_slice (b : Block) (off len : Nat) : (slice b off len).length = len := by
  simp [slice]

@[simp] theorem slice_zero (b : Block) (off : Nat) : slice b off 0 = [] := rfl

theorem slice_add (b : Block) (off n m : Nat) : slice b off (n + m) = slice b off n ++ slice b (off + n) m := by
  rw [slice, List.range_add, List.map_append, List.map_map]
  congr 1
  apply List.map_congr_left
  intro i _
  simp [Nat.add_assoc]

/-- A slice of a slice. -/
theorem take_drop_slice (b : Block) (off len i n : Nat) (h : i + n ≤ len) :
    ((slice b off len).drop i).take n = slice b (off + i) n := by
  obtain ⟨m, rfl⟩ : ∃ m, len = i + (n + m) := ⟨len - i - n, by omega⟩
  rw [slice_add, List.drop_left' (by simp), slice_add, List.take_left' (by simp)]

theorem slice_write_self (b : Block) (off : Nat) (data : Bytes) : slice (write b off data) off data.length = data := by
  apply List.ext_getElem
  · simp
  · intro i h1 h2
    simp [slice, write, h2]

/-- What lies outside a write stays. -/
theorem slice_write_of_disjoint (h : off + len ≤ n ∨ n + data.length ≤ off) :
    slice (write b n data) off len = slice b off len := by
  apply List.map_congr_left
  intro i hi
  have hi' : i < len := by simpa using hi
  rw [write, dif_neg (by omega)]

/-- A write right behind a slice prolongs it. -/
theorem slice_write_append (b : Block) (off len : Nat) (data : Bytes) :
    slice (write b (off + len) data) off (len + data.length) = slice b off len ++ data := by
  rw [slice_add, slice_write_self, slice_write_of_disjoint (.inl (Nat.le_refl _))]

/-! ## Chains. -/

/-- What is in `full`, whose blocks have `size` bytes, and in `back` up to `off`. -/
def chainText (size : Nat) (full : List Block) (back : Block) (off : Nat) : Bytes :=
  full.flatMap (slice · 0 size) ++ slice back 0 off

variable {size : Nat} {full : List Block} {back : Block}

theorem chainText_zero (size : Nat) (full : List Block) (back : Block) :
    chainText size full back 0 = full.flatMap (slice · 0 size) := List.append_nil _

theorem length_chainText (size : Nat) (full : List Block) (back : Block) (off : Nat) :
    (chainText size full back off).length = size * full.length + off := by
  rw [chainText, List.length_append, length_slice]
  congr 1
  induction full with
  | nil => rfl
  | cons block full ih =>
    rw [List.flatMap_cons, List.length_append, ih, length_slice, List.length_cons, Nat.mul_succ, Nat.add_comm]

/-- A write behind the offset prolongs the text. -/
theorem chainText_write (size : Nat) (full : List Block) (back : Block) (off : Nat) (data : Bytes) :
    chainText size full (write back off data) (off + data.length) = chainText size full back off ++ data := by
  have hslice := slice_write_append back 0 off data
  rw [Nat.zero_add] at hslice
  rw [chainText, chainText, hslice, List.append_assoc]

/-- The last block becomes a full one. -/
theorem chainText_next (size : Nat) (full : List Block) (back new : Block) :
    chainText size (full ++ [back]) new 0 = chainText size full back size := by
  rw [chainText_zero, List.flatMap_append, List.flatMap_singleton, chainText]

/-- A write that fills the last block. -/
theorem chainText_fill (h : off + data.length = size) (new : Block) :
    chainText size (full ++ [write back off data]) new 0 = chainText size full back off ++ data := by
  subst h
  rw [chainText_next, chainText_write]

end NetCpp.Lib
