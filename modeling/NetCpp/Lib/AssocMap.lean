/-
# NetCpp.Lib.AssocMap — hash maps as association lists.

A `std::unordered_map` whose iteration order nobody reads is a list of pairs, looked up with
`List.lookup`.  `alter` is an update THROUGH A REFERENCE: `m.try_emplace(k, d).first->second` changed by
`f`; `tryEmplace` inserts only a new key.
-/
import Mathlib

namespace NetCpp.Lib

variable {K V : Type*} [BEq K]

/-- Change the value at `k`, which is `d` when `k` is new. -/
def alter (k : K) (d : V) (f : V → V) : List (K × V) → List (K × V)
  | [] => [(k, f d)]
  | (j, v) :: m => if j == k then (j, f v) :: m else (j, v) :: alter k d f m

/-- Insert a new key; an old one keeps its value. -/
def tryEmplace (k : K) (v : V) (m : List (K × V)) : List (K × V) := alter k v id m

/-- `m.insert_or_assign(k, v)`. -/
def insertOrAssign (k : K) (v : V) (m : List (K × V)) : List (K × V) := alter k v (fun _ => v) m

/-- `m.erase(k)`. -/
def eraseKey (k : K) (m : List (K × V)) : List (K × V) := m.filter fun p => !(p.1 == k)

variable [LawfulBEq K]

theorem lookup_alter_self (k : K) (d : V) (f : V → V) (m : List (K × V)) :
    (alter k d f m).lookup k = some (f ((m.lookup k).getD d)) := by
  induction m with
  | nil => simp [alter]
  | cons p m ih =>
      obtain ⟨i, v⟩ := p
      unfold alter
      by_cases hi : i = k
      · simp [hi]
      · have hki : (k == i) = false := by simpa using Ne.symm hi
        have hik : (i == k) = false := by simpa using hi
        simp [hik, List.lookup_cons, hki, ih]

/-- A new key comes last. -/
theorem alter_of_not_mem {k : K} {m : List (K × V)} (h : k ∉ m.map Prod.fst) (d : V) (f : V → V) :
    alter k d f m = m ++ [(k, f d)] := by
  induction m with
  | nil => rfl
  | cons p m ih =>
      obtain ⟨j, v⟩ := p
      rw [List.map_cons, List.mem_cons, not_or] at h
      have hjk : (j == k) = false := by simpa using Ne.symm h.1
      rw [alter, hjk, ih h.2]
      rfl

theorem lookup_alter_of_ne {k j : K} (h : j ≠ k) (d : V) (f : V → V) (m : List (K × V)) :
    (alter k d f m).lookup j = m.lookup j := by
  have hjk : (j == k) = false := by simpa using h
  induction m with
  | nil => simp [alter, List.lookup_cons, hjk]
  | cons p m ih =>
      obtain ⟨i, v⟩ := p
      unfold alter
      by_cases hi : i = k
      · subst hi
        simp [List.lookup_cons, hjk]
      · have hik : (i == k) = false := by simpa using hi
        simp [hik, List.lookup_cons, ih]

theorem lookup_eraseKey_self (k : K) (m : List (K × V)) : (eraseKey k m).lookup k = none := by
  induction m with
  | nil => rfl
  | cons p m ih =>
      obtain ⟨i, v⟩ := p
      by_cases hi : i = k
      · simpa [eraseKey, hi] using ih
      · have hki : (k == i) = false := by simpa using Ne.symm hi
        simpa [eraseKey, hi, List.lookup_cons, hki] using ih

theorem lookup_eraseKey_of_ne {k j : K} (h : j ≠ k) (m : List (K × V)) :
    (eraseKey k m).lookup j = m.lookup j := by
  induction m with
  | nil => rfl
  | cons p m ih =>
      obtain ⟨i, v⟩ := p
      by_cases hi : i = k
      · have hjk : (j == k) = false := by simpa using h
        simpa [eraseKey, hi, List.lookup_cons, hjk] using ih
      · have hcons : eraseKey k ((i, v) :: m) = (i, v) :: eraseKey k m := by simp [eraseKey, hi]
        rw [hcons, List.lookup_cons, List.lookup_cons, ih]

theorem lookup_eraseKey_some {k j : K} {v : V} {m : List (K × V)} (h : (eraseKey k m).lookup j = some v) :
    m.lookup j = some v ∧ j ≠ k := by
  by_cases hj : j = k
  · subst hj
    rw [lookup_eraseKey_self] at h; cases h
  · rw [lookup_eraseKey_of_ne hj] at h
    exact ⟨h, hj⟩

/-- What is found after `insert_or_assign` is the new value under its key, or was there. -/
theorem lookup_insertOrAssign_some {k j : K} {v w : V} {m : List (K × V)}
    (h : (insertOrAssign k v m).lookup j = some w) : (j = k ∧ w = v) ∨ (j ≠ k ∧ m.lookup j = some w) := by
  by_cases hj : j = k
  · subst hj
    rw [insertOrAssign, lookup_alter_self] at h
    exact .inl ⟨rfl, (Option.some.inj h).symm⟩
  · rw [insertOrAssign, lookup_alter_of_ne hj] at h
    exact .inr ⟨hj, h⟩

theorem mem_of_lookup {k : K} {v : V} {m : List (K × V)} (h : m.lookup k = some v) : (k, v) ∈ m := by
  obtain ⟨l, r, rfl, -⟩ := List.lookup_eq_some_iff.mp h
  simp

end NetCpp.Lib
