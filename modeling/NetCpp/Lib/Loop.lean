/-
# NetCpp.Lib.Loop — loops that may not end.

`for (;;) { .. }` is one pass `body : σ → Next σ ρ`, repeated: a pass either goes on with a new state
or stops with a result.  `loop body n` runs at most `n` passes and is executable; `Halts body s r`
says that SOME number of passes reaches the result.  Nothing is assumed to terminate: that a loop halts
is a statement to prove (`Halts.go`), and that it does not is one too (`not_halts_of_invariant`).
-/
import Mathlib

namespace NetCpp.Lib

/-- What one pass of a loop does. -/
inductive Next (σ ρ : Type*)
  | go (s : σ)
  | stop (r : ρ)
  deriving DecidableEq, Repr

variable {σ ρ : Type*} {body : σ → Next σ ρ} {s t : σ} {r : ρ}

/-- At most `n` passes. -/
def loop (body : σ → Next σ ρ) : Nat → σ → Option ρ
  | 0, _ => none
  | n + 1, s =>
      match body s with
      | .go t => loop body n t
      | .stop r => some r

/-- The loop, entered in `s`, ends with `r`. -/
def Halts (body : σ → Next σ ρ) (s : σ) (r : ρ) : Prop := ∃ n, loop body n s = some r

theorem Halts.stop (h : body s = .stop r) : Halts body s r := ⟨1, by simp [loop, h]⟩

theorem Halts.go (h : body s = .go t) (ht : Halts body t r) : Halts body s r := by
  obtain ⟨n, hn⟩ := ht
  exact ⟨n + 1, by simpa [loop, h] using hn⟩

/-- More passes change nothing. -/
theorem loop_mono {n m : Nat} (hnm : n ≤ m) (h : loop body n s = some r) : loop body m s = some r := by
  induction n generalizing m s with
  | zero => cases h
  | succ n ih =>
      obtain ⟨m, rfl⟩ : ∃ k, m = k + 1 := ⟨m - 1, by omega⟩
      simp only [loop] at h ⊢
      cases hb : body s with
      | go t => rw [hb] at h; exact ih (by omega) h
      | stop q => rw [hb] at h; exact h

/-- **A loop has one end.** -/
theorem Halts.unique {n : Nat} {r' : ρ} (h : Halts body s r) (h' : loop body n s = some r') : r' = r := by
  obtain ⟨m, hm⟩ := h
  have h1 := loop_mono (Nat.le_max_left m n) hm
  have h2 := loop_mono (Nat.le_max_right m n) h'
  rw [h1] at h2
  exact (Option.some.inj h2).symm

/-- A loop whose states can always go on does not end. -/
theorem not_halts_of_invariant (Inv : σ → Prop) (hgo : ∀ s, Inv s → ∃ t, body s = .go t ∧ Inv t)
    (hs : Inv s) (r : ρ) : ¬ Halts body s r := by
  rintro ⟨n, hn⟩
  induction n generalizing s with
  | zero => cases hn
  | succ n ih =>
      obtain ⟨t, ht, hInv⟩ := hgo s hs
      exact ih hInv (by simpa [loop, ht] using hn)

end NetCpp.Lib
