/-
# NetCpp.Lib.Progress — runs that pay for their steps.

A transition function with an invariant and a measure: every step of the system's OWN takes something off the measure,
and a step of the others lends at most `c`.  Then a run is no longer than what it began with and what was lent to it
allows (`Metered.length_le`), and from every state the system's own steps lead to one in which none of them is left
(`Metered.exists_rest`).  Where such a state is a finished one, the system finishes, whatever the order of its steps.
-/
import NetCpp.Lib.Transition

namespace NetCpp.Lib

variable {σ α : Type*}

/-- `own a` says that `a` is a step of the system; every other step is one of its surroundings. -/
structure Metered (step : σ → α → Option σ) (Inv : σ → Prop) (own : α → Bool) (μ : σ → Nat) (c : Nat) : Prop where
  inv : ∀ s a t, Inv s → step s a = some t → Inv t
  pays : ∀ s a t, Inv s → own a = true → step s a = some t → μ t < μ s
  lends : ∀ s a t, Inv s → own a = false → step s a = some t → μ t ≤ μ s + c

/-- No step of the system is left. -/
def Rests (step : σ → α → Option σ) (own : α → Bool) (s : σ) : Prop := ∀ a, own a = true → step s a = none

namespace Metered

variable {step : σ → α → Option σ} {Inv : σ → Prop} {own : α → Bool} {μ : σ → Nat} {c : Nat}

theorem inv_exec (h : Metered step Inv own μ c) : ∀ {as : List α} {s t : σ}, Inv s → exec step s as = some t → Inv t
  | [], s, t, hs, he => by
      obtain rfl : s = t := by simpa [exec] using he
      exact hs
  | a :: as, s, t, hs, he => by
      obtain ⟨u, hu, ht⟩ := Option.bind_eq_some_iff.mp he
      exact h.inv_exec (h.inv s a u hs hu) ht

/-- **A run is paid for**, from what there was and what the surroundings lent. -/
theorem length_le (h : Metered step Inv own μ c) : ∀ {as : List α} {s t : σ}, Inv s → exec step s as = some t →
    as.length + μ t ≤ μ s + (c + 1) * as.countP fun a => !own a
  | [], s, t, _, he => by
      obtain rfl : s = t := by simpa [exec] using he
      simp
  | a :: as, s, t, hs, he => by
      obtain ⟨u, hu, ht⟩ := Option.bind_eq_some_iff.mp he
      have hrest := h.length_le (h.inv s a u hs hu) ht
      rw [List.length_cons, List.countP_cons]
      cases ha : own a with
      | true =>
          have hpay := h.pays s a u hs ha hu
          simp only [Bool.not_true, Bool.false_eq_true, if_false, Nat.add_zero]
          omega
      | false =>
          have hlend := h.lends s a u hs ha hu
          simp only [Bool.not_false, if_true, Nat.mul_add, Nat.mul_one]
          omega

/-- **The system comes to rest** by steps of its own. -/
theorem exists_rest (h : Metered step Inv own μ c) (s : σ) (hs : Inv s) :
    ∃ as t, (∀ a ∈ as, own a = true) ∧ exec step s as = some t ∧ Inv t ∧ Rests step own t := by
  induction hn : μ s using Nat.strong_induction_on generalizing s with
  | _ n ih =>
      by_cases hrest : Rests step own s
      · exact ⟨[], s, by simp, rfl, hs, hrest⟩
      · -- one more step of its own, from which less is left
        obtain ⟨a, ha, u, hu⟩ : ∃ a, own a = true ∧ ∃ u, step s a = some u := by
          by_contra hno
          apply hrest
          intro a ha
          cases hstep : step s a with
          | none => rfl
          | some u => exact absurd ⟨a, ha, u, hstep⟩ hno
        obtain ⟨as, t, hown, hexec, ht, hend⟩ :=
          ih (μ u) (hn ▸ h.pays s a u hs ha hu) u (h.inv s a u hs hu) rfl
        refine ⟨a :: as, t, ?_, Option.bind_eq_some_iff.mpr ⟨u, hu, hexec⟩, ht, hend⟩
        intro b hb
        rcases List.mem_cons.mp hb with rfl | hb
        · exact ha
        · exact hown b hb

end Metered

end NetCpp.Lib
