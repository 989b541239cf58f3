/-
# NetCpp.Lib.Transition — guarded runs of a labelled transition function.

A concurrent component is given by ONE function `step : σ → α → Option σ`: `step s a = some t` says
that the atomic action `a` is enabled in `s` and leads to `t`.  An interleaving is a list of actions.
Two views of the same runs live here:

* `exec step s as` — run the list `as`; `none` as soon as an action is not enabled.  Executable, so a
  concrete interleaving is checked by evaluation.
* `Run step P s t` — `t` is reached from `s` by enabled steps, each of which meets `P` in the state it
  is taken FROM.  `P := fun _ _ => True` gives plain reachability; a nontrivial `P` is a side
  condition on the schedule.

`Run.invariant` is the one induction of the module: what one step keeps, a whole run keeps.
-/
import Mathlib

namespace NetCpp.Lib

variable {σ α : Type*}

/-- `t` is reached from `s` by enabled steps that all meet `P` in the state they are taken from. -/
inductive Run (step : σ → α → Option σ) (P : σ → α → Prop) : σ → σ → Prop
  | refl (s : σ) : Run step P s s
  | tail {s t u : σ} (a : α) : Run step P s t → P t a → step t a = some u → Run step P s u

/-- Every state some schedule reaches. -/
def Reachable (step : σ → α → Option σ) (s t : σ) : Prop := Run step (fun _ _ => True) s t

namespace Run

variable {step : σ → α → Option σ} {P : σ → α → Prop} {s t u : σ}

/-- **The invariant rule.** What every admitted step keeps holds in every state of every run. -/
theorem invariant {Inv : σ → Prop}
    (hstep : ∀ s a t, Inv s → P s a → step s a = some t → Inv t)
    (h0 : Inv s) (h : Run step P s t) : Inv t := by
  induction h with
  | refl => exact h0
  | tail a _ hP hs ih => exact hstep _ a _ ih hP hs

theorem trans (h : Run step P s t) (h' : Run step P t u) : Run step P s u := by
  induction h' with
  | refl => exact h
  | tail a _ hP hs ih => exact ih.tail a hP hs

/-- The side condition forgotten. -/
theorem reachable (h : Run step P s t) : Reachable step s t := by
  induction h with
  | refl => exact .refl _
  | tail a _ _ hs ih => exact .tail a ih trivial hs

theorem head (a : α) (hP : P s a) (hs : step s a = some t) (h : Run step P t u) :
    Run step P s u :=
  ((Run.refl s).tail a hP hs).trans h

end Run

/-- Run a schedule given as a list of actions. -/
def exec (step : σ → α → Option σ) : σ → List α → Option σ
  | s, [] => some s
  | s, a :: as => (step s a).bind fun t => exec step t as

/-- The transition function that refuses the steps outside `P`. -/
def guarded (step : σ → α → Option σ) (P : σ → α → Prop) [∀ s a, Decidable (P s a)] :
    σ → α → Option σ :=
  fun s a => if P s a then step s a else none

/-- A schedule that the guarded function executes is a run of the original one inside `P`. -/
theorem run_of_exec_guarded {step : σ → α → Option σ} {P : σ → α → Prop}
    [∀ s a, Decidable (P s a)] :
    ∀ {as : List α} {s t : σ}, exec (guarded step P) s as = some t → Run step P s t
  | [], s, t, h => by
      obtain rfl : s = t := by simpa [exec] using h
      exact .refl s
  | a :: as, s, t, h => by
      obtain ⟨u, hu, ht⟩ := Option.bind_eq_some_iff.mp h
      by_cases hP : P s a
      · exact (run_of_exec_guarded ht).head a hP (by simpa [guarded, hP] using hu)
      · simp [guarded, hP] at hu

theorem reachable_of_exec {step : σ → α → Option σ} :
    ∀ {as : List α} {s t : σ}, exec step s as = some t → Reachable step s t
  | [], s, t, h => by
      obtain rfl : s = t := by simpa [exec] using h
      exact .refl s
  | a :: as, s, t, h => by
      obtain ⟨u, hu, ht⟩ := Option.bind_eq_some_iff.mp h
      exact Run.head a trivial hu (reachable_of_exec ht)

/-! ## Lockstep -/

/-- **The lockstep rule.** Two iterations stay related as long as the first one meets `P` before every step. -/
theorem iterate_lockstep {τ : Type*} {R : σ → τ → Prop} {P : σ → Prop} {f : σ → σ} {g : τ → τ}
    (hstep : ∀ s t, R s t → P s → R (f s) (g t)) {s : σ} {t : τ} (h0 : R s t) :
    ∀ n, (∀ i < n, P (f^[i] s)) → R (f^[n] s) (g^[n] t)
  | 0, _ => h0
  | n + 1, hP => by
      rw [Function.iterate_succ_apply', Function.iterate_succ_apply']
      apply hstep
      · exact iterate_lockstep hstep h0 n fun i hi => hP i (by omega)
      · exact hP n (by omega)

/-! ## Ghosts and logs

Properties of what HAPPENED along a run, not of the state reached, are read off a ghost value beside the state. -/

section Ghost

variable {γ ε : Type*} {step : σ → α → Option σ} {obs : σ → α → γ → γ} {ev : σ → α → List ε}

/-- The transition function that updates a ghost value beside the state; no step depends on it. -/
def observed (step : σ → α → Option σ) (obs : σ → α → γ → γ) : σ × γ → α → Option (σ × γ) :=
  fun s a => (step s.1 a).map fun t => (t, obs s.1 a s.2)

theorem observed_eq_some {s s' : σ × γ} {a : α} (h : observed step obs s a = some s') :
    step s.1 a = some s'.1 ∧ s'.2 = obs s.1 a s.2 := by
  obtain ⟨t, ht, rfl⟩ := Option.map_eq_some_iff.mp h
  exact ⟨ht, rfl⟩

/-- The transition function that writes the events of a step to a log. -/
def logged (step : σ → α → Option σ) (ev : σ → α → List ε) : σ × List ε → α → Option (σ × List ε) :=
  observed step fun s a log => log ++ ev s a

theorem logged_eq_some {s s' : σ × List ε} {a : α} (h : logged step ev s a = some s') :
    step s.1 a = some s'.1 ∧ s'.2 = s.2 ++ ev s.1 a := observed_eq_some h

end Ghost

/-! ## One live element

A list of activations in which one is live and all the others are leftovers, which satisfy `p`. -/

section Sole

variable {β : Type*} {p : β → Prop} {a b : β} {xs : List β} {i : Nat}

def Sole (p : β → Prop) (a : β) (xs : List β) : Prop := ∃ l r, xs = l ++ a :: r ∧ ∀ b ∈ l ++ r, p b

theorem Sole.eq_or (h : Sole p a xs) (hb : b ∈ xs) : b = a ∨ p b := by
  obtain ⟨l, r, rfl, hp⟩ := h
  rcases List.mem_append.mp hb with hl | hr
  · exact .inr (hp b (List.mem_append_left r hl))
  · rcases List.mem_cons.mp hr with rfl | hr
    · exact .inl rfl
    · exact .inr (hp b (List.mem_append_right l hr))

/-- The live element goes on behind what it leaves. -/
theorem sole_behind {l r : List β} (hp : ∀ c ∈ l ++ r, p c) (hb : p b) (a : β) : Sole p a (l ++ b :: a :: r) := by
  refine ⟨l ++ [b], r, by simp, fun c hc => ?_⟩
  simp only [List.append_assoc, List.mem_append, List.mem_cons, List.not_mem_nil, or_false] at hc
  rcases hc with hc | rfl | hc
  · exact hp c (List.mem_append_left r hc)
  · exact hb
  · exact hp c (List.mem_append_right l hc)

theorem mem_of_mem_splice {ys : List β} (h : b ∈ xs.take i ++ ys ++ xs.drop (i + 1)) : b ∈ ys ∨ b ∈ xs := by
  simp only [List.append_assoc, List.mem_append] at h
  rcases h with h | h | h
  · exact .inr (List.mem_of_mem_take h)
  · exact .inl h
  · exact .inr (List.mem_of_mem_drop h)

/-- Beside the live element there are only leftovers. -/
theorem Sole.rest (h : Sole p a xs) (hi : xs[i]? = some b) (hb : ¬ p b) {c : β}
    (hc : c ∈ xs.take i ∨ c ∈ xs.drop (i + 1)) : p c := by
  obtain ⟨l, r, rfl, hp⟩ := h
  have hlen : i = l.length := by
    rcases Nat.lt_trichotomy i l.length with hlt | he | hgt
    · rw [List.getElem?_append_left hlt] at hi
      exact absurd (hp b (List.mem_append_left r (List.mem_of_getElem? hi))) hb
    · exact he
    · rw [List.getElem?_append_right (by omega), List.getElem?_cons, if_neg (by omega)] at hi
      exact absurd (hp b (List.mem_append_right l (List.mem_of_getElem? hi))) hb
  subst hlen
  apply hp c
  simpa using hc

/-- **The element at `i` is the live one or a leftover.** The live one is replaced by the next live one, a leftover
by leftovers. -/
theorem Sole.splice (h : Sole p a xs) (hi : xs[i]? = some b) :
    (b = a ∧ ∀ a', Sole p a' (xs.take i ++ [a'] ++ xs.drop (i + 1))) ∨
      (p b ∧ ∀ ys, (∀ y ∈ ys, p y) → Sole p a (xs.take i ++ ys ++ xs.drop (i + 1))) := by
  obtain ⟨l, r, rfl, hp⟩ := h
  rcases Nat.lt_trichotomy i l.length with hlt | rfl | hgt
  · right
    have hb : l[i]? = some b := by rwa [List.getElem?_append_left hlt] at hi
    refine ⟨hp b (List.mem_append_left r (List.mem_of_getElem? hb)), fun ys hys => ?_⟩
    refine ⟨l.take i ++ ys ++ l.drop (i + 1), r, ?_, fun c hc => ?_⟩
    · rw [List.take_append_of_le_length hlt.le, List.drop_append_of_le_length hlt]
      simp
    · simp only [List.append_assoc, List.mem_append] at hc
      rcases hc with hc | hc | hc | hc
      · exact hp c (List.mem_append_left r (List.mem_of_mem_take hc))
      · exact hys c hc
      · exact hp c (List.mem_append_left r (List.mem_of_mem_drop hc))
      · exact hp c (List.mem_append_right l hc)
  · left
    rw [List.getElem?_append_right le_rfl] at hi
    refine ⟨by simpa using hi.symm, fun a' => ⟨l, r, ?_, hp⟩⟩
    simp
  · right
    obtain ⟨j, rfl⟩ : ∃ j, i = l.length + 1 + j := ⟨i - (l.length + 1), by omega⟩
    have hb : r[j]? = some b := by
      rw [List.getElem?_append_right (by omega)] at hi
      have he : l.length + 1 + j - l.length = j + 1 := by omega
      rwa [he, List.getElem?_cons_succ] at hi
    refine ⟨hp b (List.mem_append_right l (List.mem_of_getElem? hb)), fun ys hys => ?_⟩
    refine ⟨l, r.take j ++ ys ++ r.drop (j + 1), ?_, fun c hc => ?_⟩
    · have he : l.length + 1 + j - l.length = j + 1 := by omega
      have he' : l.length + 1 + j + 1 - l.length = j + 1 + 1 := by omega
      rw [List.take_append, List.drop_append, he, he', List.take_of_length_le (by omega),
        List.drop_of_length_le (by omega)]
      simp
    · simp only [List.append_assoc, List.mem_append] at hc
      rcases hc with hc | hc | hc | hc
      · exact hp c (List.mem_append_left r hc)
      · exact hp c (List.mem_append_right l (List.mem_of_mem_take hc))
      · exact hys c hc
      · exact hp c (List.mem_append_right l (List.mem_of_mem_drop hc))

end Sole

/-! ## Threads

A family of threads is a function from thread names to program counters; one thread moves at a time.
`OnlyOne` is the exclusive-ownership shape: at most one thread is at a counter that satisfies `p`;
`threadCount` counts the threads that are. -/

section Threads

variable {ι κ : Type*} [DecidableEq ι]

/-- At most one thread is at a counter satisfying `p`. -/
def OnlyOne (p : κ → Prop) (pc : ι → κ) : Prop := ∀ t t', p (pc t) → p (pc t') → t = t'

/-- How many threads are at a counter satisfying `p`. -/
def threadCount [Fintype ι] (p : κ → Bool) (pc : ι → κ) : Nat :=
  (Finset.univ.filter fun t => p (pc t) = true).card

section Count

variable [Fintype ι] {p : κ → Bool} {pc : ι → κ} {t : ι} {c : κ}

theorem threadCount_update (p : κ → Bool) (pc : ι → κ) (t : ι) (c : κ) :
    threadCount p (Function.update pc t c) + (p (pc t)).toNat = threadCount p pc + (p c).toNat := by
  have split : ∀ f : ι → κ, threadCount p f =
      ((Finset.univ.erase t).filter fun i => p (f i) = true).card + (p (f t)).toNat := by
    intro f
    unfold threadCount
    rw [← Finset.insert_erase (Finset.mem_univ t), Finset.filter_insert]
    by_cases hf : p (f t) = true
    · rw [if_pos hf, Finset.card_insert_of_notMem (by simp)]
      simp [hf]
    · rw [if_neg hf]
      simp [hf]
  have hrest : ((Finset.univ.erase t).filter fun i => p (Function.update pc t c i) = true) =
      (Finset.univ.erase t).filter fun i => p (pc i) = true := by
    apply Finset.filter_congr
    intro i hi
    rw [Function.update_of_ne (Finset.ne_of_mem_erase hi)]
  rw [split (Function.update pc t c), split pc, hrest, Function.update_self]
  omega

omit [DecidableEq ι] in
theorem threadCount_const (p : κ → Bool) (c : κ) (hc : p c = false) :
    threadCount p (fun _ : ι => c) = 0 := by
  simp [threadCount, hc]

end Count

end Threads

end NetCpp.Lib
