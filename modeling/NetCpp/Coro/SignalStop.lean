/-
# NetCpp.Coro.SignalStop — when `MPSCSignal::stop()` is sticky.

`stop()` is documented as a sticky terminal state.  The word is only ONE machine word, and three code
paths write it BLINDLY after having looked at an older value:

* `release()` that took WAITING stores IDLE — over a STOPPED written in between (`stop_is_lost` below
  is that schedule),
* `await_suspend` that found SIGNALED exchanges IDLE in — over a STOPPED written in between,
* `release()` that took STOPPED stores it back — over a WAITING written in between;

and between that last exchange and its store the word does not show STOPPED, so a consumer that looks
then takes a stopped signal for a running one.  `StopSafe` says of one step that it is none of these
(and that no `fn(h)` outruns its registration).  `StopInv` is what such steps keep.
-/
import NetCpp.Coro.Signal

namespace NetCpp.Coro.MPSCSignal

open NetCpp.Lib

variable {n : Nat}

/-! ## §1 — the property. -/

/-- Thread `t` holds the continuation of await `k`: on its stack, or about to copy it. -/
def HoldsCont (s : State n) (t : Fin n) (k : Await) : Prop :=
  (s.prod t).copied = some k ∨
    ((s.prod t).holds = true ∧ (s.prod t).copied = none ∧ s.cont = some k)

/-- **Stop is sticky in `s`.** Once some `stop()` has returned: with nothing in progress the word is
STOPPED, every await begun after that return completed with `false`, and a suspended consumer has its
continuation in some thread's hands. -/
def StopSticky (s : State n) : Prop :=
  s.stopRet = true →
    (Quiescent s → s.word = .stopped) ∧
    (∀ r ∈ s.completed, r.1.late = true → r.2 = false) ∧
    (∀ k, .parked k ∈ s.acts → ∃ t, HoldsCont s t k)

/-! ## §2 — the side condition on a step. -/

/-- The thread's next step is the `store(IDLE)` of a `release()` that had taken WAITING away. -/
def Prod.storesIdle : Prod → Bool
  | .relStore _ _ => true
  | _ => false

/-- The activation's next step exchanges IDLE into the word. -/
def Act.retractsToIdle : Act → Bool
  | .suspendRetract _ old => old.retract = .idle
  | _ => false

/-- The activation's next step decides on the word: it registers, or it reports the result of an await
begun after a `stop()` had returned. -/
def Act.decides : Act → Bool
  | .suspendExchange _ => true
  | .resumeLoad k => k.late
  | _ => false

/-- The step does not write IDLE over STOPPED. -/
def KeepsStopped (s : State n) : Action n → Prop
  | .prod t => (s.prod t).storesIdle = true → s.word ≠ .stopped
  | .act i => ∀ a ∈ s.acts[i]?, a.retractsToIdle = true → s.word ≠ .stopped
  | _ => True

/-- The consumer does not decide on the word while a `release()` has taken STOPPED out of it. -/
def OutsideWindow (s : State n) : Action n → Prop
  | .act i => (∃ t, (s.prod t).restores = true) → s.word ≠ .stopped →
      ∀ a ∈ s.acts[i]?, a.decides = false
  | _ => True

instance (s : State n) (act : Action n) : Decidable (KeepsStopped s act) :=
  match act with
  | .prod t => inferInstanceAs (Decidable ((s.prod t).storesIdle = true → _))
  | .act i => inferInstanceAs (Decidable (∀ a ∈ s.acts[i]?, _))
  | .callRelease _ | .callStop _ => inferInstanceAs (Decidable True)

instance (s : State n) (act : Action n) : Decidable (OutsideWindow s act) :=
  match act with
  | .act i => inferInstanceAs (Decidable (_ → _ → ∀ a ∈ s.acts[i]?, a.decides = false))
  | .callRelease _ | .callStop _ | .prod _ => inferInstanceAs (Decidable True)

/-- **The step is none of the blind writes** and does not look at the word inside a window. -/
def StopSafe (s : State n) (act : Action n) : Prop :=
  NotOutrun s act ∧ KeepsWaiting s act ∧ KeepsStopped s act ∧ OutsideWindow s act

instance (s : State n) (act : Action n) : Decidable (StopSafe s act) :=
  inferInstanceAs (Decidable (_ ∧ _ ∧ _ ∧ _))

/-! ## §3 — the invariant. -/

/-- Some `stop()` has made its exchange: it returned, or it is on its way to `fn(h)`. -/
def StopDone (s : State n) : Prop :=
  s.stopRet = true ∨ ∃ t, (s.prod t) = .stopCopy ∨ ∃ k, s.prod t = .stopInvoke k

/-- What `StopSafe` steps keep, next to `Owned`. -/
structure StopInv (s : State n) (a : Act) : Prop where
  kept : StopDone s →
    s.word = .stopped ∨ (∃ t, (s.prod t).restores = true) ∨ ∃ k, a = .suspendRetract k .stopped
  handed : StopDone s → ∀ k, a = .parked k → s.word ≠ .waiting
  late : ∀ k, a.await = some k → k.late = true → s.stopRet = true
  results : ∀ r ∈ s.completed, r.1.late = true → r.2 = false

variable {s s' : State n} {a a' : Act} {t : Fin n} {p : Prod} {w : Word}

theorem StopDone.of_moves (m : Moves s s' t p w) (hret : s'.stopRet = s.stopRet)
    (hp : p ≠ .stopCopy) (hp' : ∀ k, p ≠ .stopInvoke k) (h : StopDone s') : StopDone s := by
  rcases h with h | ⟨i, hi⟩
  · exact .inl (hret ▸ h)
  · by_cases hit : i = t
    · subst hit
      rw [m.here] at hi
      rcases hi with hi | ⟨k, hi⟩
      · exact absurd hi hp
      · exact absurd hi (hp' k)
    · rw [m.there i hit] at hi
      exact .inr ⟨i, hi⟩

/-- A thread's step keeps the invariant when it writes STOPPED, takes STOPPED to put it back, or
leaves a word alone that does not carry the stop. -/
theorem StopInv.move (h : StopInv s a) (m : Moves s s' t p w)
    (hdone : StopDone s' → StopDone s ∨ w = .stopped)
    (hmono : s.stopRet = true → s'.stopRet = true) (hcomp : s'.completed = s.completed)
    (hk : w = .stopped ∨ p.restores = true ∨
      ((s.prod t).restores = false ∧ (w = s.word ∨ s.word ≠ .stopped)))
    (hw : w = .waiting → s.word = .waiting) : StopInv s' a where
  kept hd := by
    rcases hk with hk | hk | ⟨hr, hk⟩
    · exact .inl (m.word.trans hk)
    · exact .inr (.inl ⟨t, by rw [m.here]; exact hk⟩)
    · rcases hdone hd with hd | hd
      · rcases h.kept hd with hs | ⟨i, hi⟩ | ha
        · rcases hk with hk | hk
          · exact .inl (m.word.trans (hk.trans hs))
          · exact absurd hs hk
        · have hit : i ≠ t := by rintro rfl; rw [hr] at hi; cases hi
          exact .inr (.inl ⟨i, by rw [m.there i hit]; exact hi⟩)
        · exact .inr (.inr ha)
      · exact .inl (m.word.trans hd)
  handed hd k hak hwait := by
    rw [m.word] at hwait
    rcases hdone hd with hd | hd
    · exact h.handed hd k hak (hw hwait)
    · rw [hd] at hwait; cases hwait
  late k hk hl := hmono (h.late k hk hl)
  results := by rw [hcomp]; exact h.results

/-- The same for a thread that is not on its way through `stop()`. -/
theorem StopInv.quiet (h : StopInv s a) (m : Moves s s' t p w) (hret : s'.stopRet = s.stopRet)
    (hcomp : s'.completed = s.completed) (hp : p ≠ .stopCopy) (hp' : ∀ k, p ≠ .stopInvoke k)
    (hk : w = .stopped ∨ p.restores = true ∨
      ((s.prod t).restores = false ∧ (w = s.word ∨ s.word ≠ .stopped)))
    (hw : w = .waiting → s.word = .waiting) : StopInv s' a :=
  h.move m (fun hd => .inl (StopDone.of_moves m hret hp hp' hd)) (fun hr => hret.trans hr) hcomp hk hw

/-- `fn(h)` only turns the parked activation into a running one. -/
theorem StopInv.wake {k : Await} (h : StopInv s (.parked k)) : StopInv s (.resumeLoad k) where
  kept hd := by
    rcases h.kept hd with hs | hr | ⟨j, hj⟩
    · exact .inl hs
    · exact .inr (.inl hr)
    · cases hj
  handed _ j hj := by cases hj
  late j hj := h.late j hj
  results := h.results

theorem StopInv.callStep {act : Action n} (h : StopInv s a) (ho : Owned s a) (ho' : Owned s' a')
    (hact : (∃ t, act = .callRelease t) ∨ ∃ t, act = .callStop t)
    (hs : step s act = some s') : StopInv s' a' := by
  rcases hact with ⟨t, rfl⟩ | ⟨t, rfl⟩ <;> simp only [MPSCSignal.step] at hs <;> split at hs
  · rename_i hp
    injection hs with hs; subst hs
    obtain rfl := ho.same_act ho' rfl
    exact h.quiet (moves_of rfl rfl rfl) rfl rfl (by simp) (by simp)
      (.inr (.inr ⟨by rw [hp]; rfl, .inl rfl⟩)) id
  · cases hs
  · rename_i hp
    injection hs with hs; subst hs
    obtain rfl := ho.same_act ho' rfl
    exact h.quiet (moves_of rfl rfl rfl) rfl rfl (by simp) (by simp)
      (.inr (.inr ⟨by rw [hp]; rfl, .inl rfl⟩)) id
  · cases hs

theorem StopInv.prodStep (h : StopInv s a) (ho : Owned s a) (ho' : Owned s' a')
    (hg : StopSafe s (.prod t)) (hs : prodStep s t = some s') : StopInv s' a' := by
  obtain ⟨hout, -, hkeep, -⟩ := hg
  cases hp : s.prod t with
  | idle => simp [MPSCSignal.prodStep, hp] at hs
  | relExchange b =>
      -- taking STOPPED away is the only case in which the word stops carrying the stop
      cases hw : s.word <;> simp only [MPSCSignal.prodStep, hp, hw, Option.some.injEq] at hs <;>
        subst hs <;> obtain rfl := ho.same_act ho' rfl
      · exact h.quiet (moves_of rfl rfl rfl) rfl rfl (by simp) (by simp)
          (.inr (.inr ⟨by rw [hp]; rfl, .inr (by simp [hw])⟩)) (by simp)
      · exact h.quiet (moves_of rfl rfl rfl) rfl rfl (by simp) (by simp)
          (.inr (.inr ⟨by rw [hp]; rfl, .inr (by simp [hw])⟩)) (by simp)
      · exact h.quiet (moves_of rfl rfl rfl) rfl rfl (by simp) (by simp) (.inr (.inl rfl)) (by simp)
      · exact h.quiet (moves_of rfl rfl rfl) rfl rfl (by simp) (by simp)
          (.inr (.inr ⟨by rw [hp]; rfl, .inr (by simp [hw])⟩)) (by simp)
  | relRestore b =>
      simp only [MPSCSignal.prodStep, hp, Option.some.injEq] at hs
      subst hs
      obtain rfl := ho.same_act ho' rfl
      exact h.move (moves_of rfl rfl rfl) (fun _ => .inr rfl) id rfl (.inl rfl) (by simp)
  | relCopy b =>
      cases hc : s.cont <;> simp only [MPSCSignal.prodStep, hp, hc, Option.some.injEq] at hs
      · cases hs
      · subst hs
        obtain rfl := ho.same_act ho' rfl
        exact h.quiet (moves_of rfl rfl rfl) rfl rfl (by simp) (by simp)
          (.inr (.inr ⟨by rw [hp]; rfl, .inl rfl⟩)) id
  | relStore b k =>
      simp only [MPSCSignal.prodStep, hp, Option.some.injEq] at hs
      subst hs
      obtain rfl := ho.same_act ho' rfl
      have hne : s.word ≠ .stopped := hkeep (by rw [hp]; rfl)
      exact h.quiet (moves_of rfl rfl rfl) rfl rfl (by simp) (by simp)
        (.inr (.inr ⟨by rw [hp]; rfl, .inr hne⟩)) (by simp)
  | relInvoke b k =>
      simp only [MPSCSignal.prodStep, hp, Option.some.injEq] at hs
      subst hs
      obtain rfl := ho.parked_of_invokes (by rw [hp]; rfl) hout
      obtain rfl : a' = .resumeLoad k := by simpa [ho.acts, invoke] using ho'.acts.symm
      refine StopInv.wake ?_
      exact h.quiet (moves_of rfl rfl rfl) rfl rfl (by simp) (by simp)
        (.inr (.inr ⟨by rw [hp]; rfl, .inl rfl⟩)) id
  | stopExchange =>
      cases hw : s.word <;> simp only [MPSCSignal.prodStep, hp, hw, Option.some.injEq] at hs <;>
        subst hs <;> obtain rfl := ho.same_act ho' rfl
      · exact h.move (moves_of rfl rfl rfl) (fun _ => .inr rfl) (fun _ => rfl) rfl (.inl rfl) (by simp)
      · exact h.move (moves_of rfl rfl rfl) (fun _ => .inr rfl) (fun _ => rfl) rfl (.inl rfl) (by simp)
      · exact h.move (moves_of rfl rfl rfl) (fun _ => .inr rfl) (fun _ => rfl) rfl (.inl rfl) (by simp)
      · exact h.move (moves_of rfl rfl rfl) (fun _ => .inr rfl) id rfl (.inl rfl) (by simp)
  | stopCopy =>
      cases hc : s.cont <;> simp only [MPSCSignal.prodStep, hp, hc, Option.some.injEq] at hs
      · cases hs
      · subst hs
        obtain rfl := ho.same_act ho' rfl
        exact h.move (moves_of rfl rfl rfl) (fun _ => .inl (.inr ⟨t, .inl hp⟩)) id rfl
          (.inr (.inr ⟨by rw [hp]; rfl, .inl rfl⟩)) id
  | stopInvoke k =>
      simp only [MPSCSignal.prodStep, hp, Option.some.injEq] at hs
      subst hs
      obtain rfl := ho.parked_of_invokes (by rw [hp]; rfl) hout
      obtain rfl : a' = .resumeLoad k := by simpa [ho.acts, invoke] using ho'.acts.symm
      refine StopInv.wake ?_
      exact h.move (moves_of rfl rfl rfl) (fun _ => .inl (.inr ⟨t, .inr ⟨k, hp⟩⟩)) (fun _ => rfl) rfl
        (.inr (.inr ⟨by rw [hp]; rfl, .inl rfl⟩)) id

/-- An activation step that leaves threads and completions alone keeps the invariant when it does not
take the stop out of the word. -/
theorem StopInv.run (h : StopInv s a) (hprod : s'.prod = s.prod) (hret : s'.stopRet = s.stopRet)
    (hcomp : s'.completed = s.completed)
    (hk : s.word = .stopped → s'.word = .stopped ∨ ∃ k, a' = .suspendRetract k .stopped)
    (hre : ∀ k, a = .suspendRetract k .stopped → s'.word = .stopped)
    (hpark : ∀ k, a' = .parked k → StopDone s → s'.word ≠ .waiting)
    (hlate : ∀ k, a'.await = some k → k.late = true → s.stopRet = true) : StopInv s' a' := by
  have hdone : StopDone s' ↔ StopDone s := by simp only [StopDone, hprod, hret]
  refine ⟨fun hd => ?_, fun hd k hak => hpark k hak (hdone.mp hd), fun k hk hl => ?_, ?_⟩
  · rcases h.kept (hdone.mp hd) with hs | hr | ⟨k, hak⟩
    · rcases hk hs with hs | ha
      · exact .inl hs
      · exact .inr (.inr ha)
    · exact .inr (.inl (by rw [hprod]; exact hr))
    · exact .inl (hre k hak)
  · rw [hret]; exact hlate k hk hl
  · rw [hcomp]; exact h.results

/-- Once stopped and outside every window, the word the consumer decides on is STOPPED. -/
theorem StopInv.word_eq {i : Nat} (h : StopInv s a) (ho : Owned s a) (hd : StopDone s)
    (hw : OutsideWindow s (.act i)) (hi : i = 0) (hdec : a.decides = true) : s.word = .stopped := by
  subst hi
  rcases h.kept hd with hs | hr | ⟨k, hak⟩
  · exact hs
  · by_contra hne
    have := hw hr hne a (by simp [ho.acts])
    rw [hdec] at this; cases this
  · subst hak; cases hdec

theorem StopInv.actStep {i : Nat} (h : StopInv s a) (ho : Owned s a) (ho' : Owned s' a')
    (hg : StopSafe s (.act i)) (hs : step s (.act i) = some s') : StopInv s' a' := by
  obtain ⟨-, -, hkeep, hwin⟩ := hg
  have hi : i = 0 := by
    cases i with
    | zero => rfl
    | succ i => simp [MPSCSignal.step, ho.acts] at hs
  obtain ⟨r, hr, rfl⟩ := act_step ho.acts hs
  have hacts := ho'.acts
  cases a with
  | body =>
      obtain rfl : _ = r := by simpa [MPSCSignal.actStep] using hr
      obtain rfl : a' = .readyLoad ⟨s.awaits, s.stopRet⟩ := by simpa using hacts.symm
      exact h.run rfl rfl rfl .inl (by simp) (by simp) (by simp [Act.await])
  | readyLoad k =>
      obtain rfl : _ = r := by simpa [MPSCSignal.actStep] using hr
      obtain rfl : a' = if s.word = .signaled then .readyCas k else .readyLoad2 k := by
        simpa using hacts.symm
      refine h.run rfl rfl rfl .inl (by simp) ?_ ?_
      · split <;> simp
      · have := h.late k rfl
        split <;> simpa [Act.await] using this
  | readyCas k =>
      obtain rfl : _ = r := by simpa [MPSCSignal.actStep] using hr
      obtain rfl : a' = .resumeLoad k := by simpa using hacts.symm
      refine h.run ?_ ?_ ?_ (fun hst => .inl ?_) (by simp) (by simp) (h.late)
      · dsimp only; split <;> rfl
      · dsimp only; split <;> rfl
      · dsimp only; split <;> rfl
      · simp [hst]
  | readyLoad2 k =>
      obtain rfl : _ = r := by simpa [MPSCSignal.actStep] using hr
      obtain rfl : a' = if s.word = .stopped then .resumeLoad k else .suspendWrite k := by
        simpa using hacts.symm
      refine h.run rfl rfl rfl .inl (by simp) ?_ ?_
      · split <;> simp
      · have := h.late k rfl
        split <;> simpa [Act.await] using this
  | suspendWrite k =>
      obtain rfl : _ = r := by simpa [MPSCSignal.actStep] using hr
      obtain rfl : a' = .suspendExchange k := by simpa using hacts.symm
      exact h.run rfl rfl rfl .inl (by simp) (by simp) (h.late)
  | suspendExchange k =>
      obtain rfl : _ = r := by simpa [MPSCSignal.actStep] using hr
      obtain rfl : a' = if s.word = .idle then .parked k else .suspendRetract k s.word := by
        simpa using hacts.symm
      refine h.run rfl rfl rfl (fun hst => .inr ⟨k, by simp [hst]⟩) (by simp) ?_ ?_
      · -- parking means the word was IDLE, which a stopped signal does not show outside a window
        intro j hj hd
        have hst := h.word_eq ho hd hwin hi rfl
        simp [hst] at hj
      · have := h.late k rfl
        split <;> simpa [Act.await] using this
  | suspendRetract k old =>
      obtain rfl : _ = r := by simpa [MPSCSignal.actStep] using hr
      obtain rfl : a' = if s.word = .waiting then .resumeLoad k else .parked k := by
        simpa using hacts.symm
      refine h.run rfl rfl rfl (fun hst => .inl ?_) ?_ ?_ ?_
      · -- an exchange to IDLE over STOPPED is what `KeepsStopped` rules out
        by_contra hne
        have hidle : old.retract = .idle := by
          cases old <;> simp_all [Word.retract]
        subst hi
        exact hkeep (.suspendRetract k old) (by simp [ho.acts]) (by simp [Act.retractsToIdle, hidle]) hst
      · intro j hj
        obtain ⟨-, rfl⟩ : k = j ∧ old = .stopped := by simpa using hj
        rfl
      · intro j _ _
        exact word_retract_ne old
      · have := h.late k rfl
        split <;> simpa [Act.await] using this
  | parked k => simp [MPSCSignal.actStep] at hr
  | outrun k old => exact absurd rfl (ho.live k old)
  | resumeLoad k =>
      obtain rfl : _ = r := by simpa [MPSCSignal.actStep] using hr
      obtain rfl : a' = .body := by simpa using hacts.symm
      refine ⟨fun hd => ?_, by simp, by simp [Act.await], ?_⟩
      · rcases h.kept hd with hst | hre | ⟨j, hj⟩
        · exact .inl hst
        · exact .inr (.inl hre)
        · cases hj
      · intro r hr hl
        rcases List.mem_cons.mp hr with rfl | hr
        · have : s.word = .stopped := h.word_eq ho (.inl (h.late k rfl hl)) hwin hi hl
          simp [this]
        · exact h.results r hr hl

/-! ## §4 — runs. -/

/-- The invariant of the runs inside `StopSafe`. -/
def StopRunInv (s : State n) : Prop := ∃ a, Owned s a ∧ StopInv s a

theorem stopRunInv_init : StopRunInv (init n) :=
  ⟨.body, owned_init,
    { kept := by
        rintro (h | ⟨t, h | ⟨k, h⟩⟩) <;> cases h
      handed := by simp
      late := by simp [Act.await]
      results := by simp [init] }⟩

theorem stopRunInv_step {act : Action n} (h : StopRunInv s) (hg : StopSafe s act)
    (hs : step s act = some s') : StopRunInv s' := by
  obtain ⟨a, ho, hi⟩ := h
  obtain ⟨a', ho'⟩ := ho.step hg.1 hg.2.1 hs
  refine ⟨a', ho', ?_⟩
  cases act with
  | callRelease t => exact hi.callStep ho ho' (.inl ⟨t, rfl⟩) hs
  | callStop t => exact hi.callStep ho ho' (.inr ⟨t, rfl⟩) hs
  | prod t => exact hi.prodStep ho ho' hg hs
  | act i => exact hi.actStep ho ho' hg hs

/-! ## §5 — who is asleep.

What a client of the signal needs of such runs: nobody goes to sleep on it but by the first exchange of an
`await_suspend` that finds IDLE, and nobody at all once a `stop()` has made its exchange. -/

/-- The coroutine is suspended, and nobody has taken its continuation. -/
def Asleep (s : State n) : Prop := s.word = .waiting ∧ ∃ a ∈ s.acts, ∃ k, a = .parked k

/-- The activation's next step is the first exchange of `await_suspend`. -/
def Act.publishes : Act → Bool
  | .suspendExchange _ => true
  | _ => false

/-- The step puts the coroutine to sleep. -/
def FallsAsleep (s : State n) : Action n → Prop
  | .act i => s.word = .idle ∧ ∃ a ∈ s.acts[i]?, a.publishes = true
  | _ => False

def Act.isParked : Act → Bool
  | .parked _ => true
  | _ => false

theorem asleep_iff : Asleep s ↔ s.word = .waiting ∧ s.acts.any Act.isParked = true := by
  refine and_congr_right fun _ => ?_
  rw [List.any_eq_true]
  refine exists_congr fun a => and_congr_right fun _ => ⟨?_, fun h => ?_⟩
  · rintro ⟨k, rfl⟩
    rfl
  · cases a with
    | parked k => exact ⟨k, rfl⟩
    | _ => cases h

instance (s : State n) : Decidable (Asleep s) := decidable_of_iff _ asleep_iff.symm

instance (s : State n) (act : Action n) : Decidable (FallsAsleep s act) :=
  match act with
  | .act i => inferInstanceAs (Decidable (_ ∧ ∃ a ∈ s.acts[i]?, a.publishes = true))
  | .callRelease _ | .callStop _ | .prod _ => inferInstanceAs (Decidable False)

/-- No thread writes WAITING; with a word that says WAITING it does not invoke anybody. -/
theorem Owned.asleep_prod (h : Owned s a) (hs : MPSCSignal.prodStep s t = some s') (hsleep : Asleep s') : Asleep s := by
  obtain ⟨hw, hpark⟩ := hsleep
  cases hp : s.prod t with
  | idle => simp [MPSCSignal.prodStep, hp] at hs
  | relExchange b | stopExchange =>
      cases hword : s.word <;> simp only [MPSCSignal.prodStep, hp, hword, Option.some.injEq] at hs <;> subst hs <;>
        cases hw
  | relRestore b | relStore b k =>
      simp only [MPSCSignal.prodStep, hp, Option.some.injEq] at hs
      subst hs
      cases hw
  | relCopy b | stopCopy =>
      cases hc : s.cont <;> simp only [MPSCSignal.prodStep, hp, hc, Option.some.injEq] at hs
      · cases hs
      · subst hs
        exact ⟨hw, hpark⟩
  | relInvoke b k | stopInvoke k =>
      simp only [MPSCSignal.prodStep, hp, Option.some.injEq] at hs
      subst hs
      exact absurd hw (h.holder t (by rw [hp]; rfl)).1

theorem Owned.asleep_act {i : Nat} (h : Owned s a) (hs : MPSCSignal.step s (.act i) = some s') (hsleep : Asleep s') :
    FallsAsleep s (.act i) := by
  have hi : i = 0 := by
    cases i with
    | zero => rfl
    | succ i => simp [MPSCSignal.step, h.acts] at hs
  obtain ⟨r, hr, rfl⟩ := act_step h.acts hs
  obtain ⟨hw, b, hb, j, rfl⟩ := hsleep
  cases a with
  | suspendExchange k =>
      obtain rfl : _ = r := by simpa [MPSCSignal.actStep] using hr
      have hidle : s.word = .idle := by
        by_contra hne
        simp [hne] at hb
      exact ⟨hidle, .suspendExchange k, by simp [hi, h.acts], rfl⟩
  | suspendRetract k old =>
      obtain rfl : _ = r := by simpa [MPSCSignal.actStep] using hr
      exact absurd hw (word_retract_ne old)
  | parked k => cases hr
  | outrun k old => exact absurd rfl (h.live k old)
  | readyLoad k | readyLoad2 k =>
      obtain rfl : _ = r := by simpa [MPSCSignal.actStep] using hr
      obtain hb : Act.parked j = _ := List.mem_singleton.mp hb
      split at hb <;> cases hb
  | body | readyCas k | suspendWrite k | resumeLoad k =>
      obtain rfl : _ = r := by simpa [MPSCSignal.actStep] using hr
      cases List.mem_singleton.mp hb

/-- **Who is asleep after a step was so before it, or has just fallen asleep.** -/
theorem asleep_step {act : Action n} (h : StopRunInv s) (hs : step s act = some s') (hsleep : Asleep s') :
    Asleep s ∨ FallsAsleep s act := by
  obtain ⟨a, ho, -⟩ := h
  cases act with
  | callRelease t | callStop t =>
      simp only [MPSCSignal.step] at hs
      split at hs
      · obtain rfl := Option.some.inj hs
        exact .inl hsleep
      · cases hs
  | prod t => exact .inl (ho.asleep_prod hs hsleep)
  | act i => exact .inr (ho.asleep_act hs hsleep)

/-- Nobody is asleep on a signal whose `stop()` has made its exchange. -/
theorem not_asleep_of_stopDone (h : StopRunInv s) (hd : StopDone s) : ¬ Asleep s := by
  obtain ⟨a, ho, hi⟩ := h
  rintro ⟨hw, b, hb, k, rfl⟩
  rw [ho.acts] at hb
  exact hi.handed hd k (List.mem_singleton.mp hb).symm hw

/-- A suspended coroutine is asleep, or a thread has its continuation. -/
theorem asleep_or_held (h : StopRunInv s) {k : Await} (hk : .parked k ∈ s.acts) :
    Asleep s ∨ ∃ t, (s.prod t).holds = true := by
  obtain ⟨a, ho, -⟩ := h
  have hpark : Act.parked k ∈ s.acts := hk
  rw [ho.acts] at hk
  obtain rfl := List.mem_singleton.mp hk
  exact (ho.slot k rfl).2.imp_left fun hw => ⟨hw, _, hpark, k, rfl⟩

/-- Inside `stop()`. -/
def Prod.inStop : Prod → Bool
  | .stopExchange | .stopCopy | .stopInvoke _ => true
  | _ => false

/-- Inside `stop()`, behind its exchange. -/
def Prod.hasStopped : Prod → Bool
  | .stopCopy | .stopInvoke _ => true
  | _ => false

theorem stopDone_iff : StopDone s ↔ s.stopRet = true ∨ ∃ t, (s.prod t).hasStopped = true := by
  refine or_congr_right (exists_congr fun t => ⟨?_, fun h => ?_⟩)
  · rintro (h | ⟨k, h⟩) <;> rw [h] <;> rfl
  · cases hp : s.prod t with
    | stopCopy => exact .inl rfl
    | stopInvoke k => exact .inr ⟨k, rfl⟩
    | _ => rw [hp] at h; cases h

/-- What a step leaves of the `stop()` calls under way: each stays, or gets ahead. -/
structure Advances (s s' : State n) : Prop where
  returned : s.stopRet = true → s'.stopRet = true
  calls : ∀ t, (s.prod t).inStop = true →
    s'.prod t = s.prod t ∨ (s'.prod t).hasStopped = true ∨ s'.stopRet = true

theorem Advances.of_eq (hp : s'.prod = s.prod) (hr : s'.stopRet = s.stopRet) : Advances s s' :=
  ⟨fun h => hr.trans h, fun t _ => .inl (by rw [hp])⟩

/-- One thread moves. -/
theorem Advances.of_update (hp : s'.prod = Function.update s.prod t p) (hr : s.stopRet = true → s'.stopRet = true)
    (hmove : (s.prod t).inStop = true → p.hasStopped = true ∨ s'.stopRet = true) : Advances s s' := by
  refine ⟨hr, fun u hu => ?_⟩
  by_cases hut : u = t
  · subst hut
    rw [hp, Function.update_self]
    exact .inr (hmove hu)
  · rw [hp, Function.update_of_ne hut]
    exact .inl rfl

theorem advances_prod (hs : prodStep s t = some s') : Advances s s' := by
  cases hp : s.prod t with
  | idle => simp [MPSCSignal.prodStep, hp] at hs
  | relExchange b =>
      cases hw : s.word <;> simp only [MPSCSignal.prodStep, hp, hw, Option.some.injEq] at hs <;> subst hs <;>
        exact .of_update rfl id fun h => by rw [hp] at h; cases h
  | relRestore b | relStore b k | relInvoke b k =>
      simp only [MPSCSignal.prodStep, hp, Option.some.injEq] at hs
      subst hs
      exact .of_update rfl id fun h => by rw [hp] at h; cases h
  | relCopy b =>
      cases hc : s.cont <;> simp only [MPSCSignal.prodStep, hp, hc, Option.some.injEq] at hs
      · cases hs
      · subst hs
        exact .of_update rfl id fun h => by rw [hp] at h; cases h
  | stopExchange =>
      cases hw : s.word <;> simp only [MPSCSignal.prodStep, hp, hw, Option.some.injEq] at hs <;> subst hs
      · exact .of_update rfl (fun _ => rfl) fun _ => .inr rfl
      · exact .of_update rfl (fun _ => rfl) fun _ => .inr rfl
      · exact .of_update rfl (fun _ => rfl) fun _ => .inr rfl
      · exact .of_update rfl id fun _ => .inl rfl
  | stopCopy =>
      cases hc : s.cont <;> simp only [MPSCSignal.prodStep, hp, hc, Option.some.injEq] at hs
      · cases hs
      · subst hs
        exact .of_update rfl id fun _ => .inl rfl
  | stopInvoke k =>
      simp only [MPSCSignal.prodStep, hp, Option.some.injEq] at hs
      subst hs
      exact .of_update rfl (fun _ => rfl) fun _ => .inr rfl

/-- No step of an activation touches a thread. -/
theorem actStep_prod {r : State n × List Act} (hs : actStep s a = some r) :
    r.1.prod = s.prod ∧ r.1.stopRet = s.stopRet := by
  cases a with
  | parked k => cases hs
  | readyCas k =>
      obtain rfl := Option.some.inj hs
      dsimp only
      split <;> exact ⟨rfl, rfl⟩
  | _ =>
      obtain rfl := Option.some.inj hs
      exact ⟨rfl, rfl⟩

theorem advances_step {act : Action n} (hs : step s act = some s') : Advances s s' := by
  cases act with
  | callRelease t | callStop t =>
      obtain ⟨hidle, ⟨⟩⟩ := Option.ite_none_right_eq_some.mp hs
      exact .of_update rfl id fun h => by rw [hidle] at h; cases h
  | prod t => exact advances_prod hs
  | act i =>
      simp only [MPSCSignal.step] at hs
      split at hs
      · cases hs
      · obtain ⟨r, hr, rfl⟩ := Option.map_eq_some_iff.mp hs
        obtain ⟨hp, hret⟩ := actStep_prod hr
        exact .of_eq hp hret

/-- **A `stop()` that has made its exchange has made it.** -/
theorem stopDone_step {act : Action n} (hd : StopDone s) (hs : step s act = some s') : StopDone s' := by
  have hadv := advances_step hs
  rw [stopDone_iff] at hd ⊢
  rcases hd with hr | ⟨t, ht⟩
  · exact .inl (hadv.returned hr)
  · have hin : (s.prod t).inStop = true := by
      cases hp : s.prod t with
      | stopCopy | stopInvoke k => rfl
      | _ => rw [hp] at ht; cases ht
    rcases hadv.calls t hin with he | hst | hr
    · exact .inr ⟨t, by rw [he]; exact ht⟩
    · exact .inr ⟨t, hst⟩
    · exact .inl hr

/-- Thread `t` is about to make the exchange of a `stop()`, or one has been made. -/
def Stopping (s : State n) (t : Fin n) : Prop := s.prod t = .stopExchange ∨ StopDone s

theorem Stopping.step {act : Action n} (h : Stopping s t) (hs : MPSCSignal.step s act = some s') : Stopping s' t := by
  rcases h with hex | hd
  · rcases (advances_step hs).calls t (by rw [hex]; rfl) with he | hst | hr
    · exact .inl (he.trans hex)
    · exact .inr (stopDone_iff.mpr (.inr ⟨t, hst⟩))
    · exact .inr (.inl hr)
  · exact .inr (stopDone_step hd hs)

/-- **A `stop()` that has returned has made its exchange.** -/
theorem Stopping.done (h : Stopping s t) (hidle : s.prod t = .idle) : StopDone s := by
  rcases h with hex | hd
  · rw [hidle] at hex
    cases hex
  · exact hd

/-! ## §6 — the property along runs. -/

theorem stopSticky_of_inv (h : StopRunInv s) : StopSticky s := by
  obtain ⟨a, ho, hi⟩ := h
  intro hret
  have hd : StopDone s := .inl hret
  refine ⟨fun hq => ?_, hi.results, fun k hk => ?_⟩
  · rcases hi.kept hd with hs | ⟨t, ht⟩ | ⟨k, rfl⟩
    · exact hs
    · rw [hq.1 t] at ht; cases ht
    · have hmem : Act.suspendRetract k .stopped ∈ s.acts := by rw [ho.acts]; simp
      rcases hq.2 _ hmem with h | ⟨j, h⟩ <;> cases h
  · obtain rfl : a = .parked k := by simpa [ho.acts, eq_comm] using hk
    obtain ⟨hc, hw | ⟨t, ht⟩⟩ := ho.slot k rfl
    · exact absurd hw (hi.handed hd k rfl)
    · refine ⟨t, ?_⟩
      cases hcp : (s.prod t).copied with
      | none => exact .inr ⟨ht, hcp, hc⟩
      | some j =>
          have : k = j := by simpa [Act.slot] using ho.copied t j hcp
          exact .inl (by rw [this]; exact hcp)

/-- **`stop()` is sticky along every run** whose steps are none of the blind writes. -/
theorem stop_sticky_of_safe_run {n : Nat} {s : State n} (h : Run step StopSafe (init n) s) :
    StopSticky s :=
  stopSticky_of_inv (h.invariant (fun _ _ _ hi hg hs => stopRunInv_step hi hg hs) stopRunInv_init)

/-- A run inside the side condition: an await woken by `release()`, one woken by `stop()`, a `release()`
on the stopped signal, and a late await that completes with `false`. -/
def stopSchedule (t u : Fin n) : List (Action n) :=
  [.act 0, .act 0, .act 0, .act 0, .act 0, .callRelease t, .prod t, .prod t, .prod t, .prod t, .act 0,
   .act 0, .act 0, .act 0, .act 0, .act 0, .callStop u, .prod u, .prod u, .prod u, .act 0,
   .callRelease t, .prod t, .prod t, .act 0, .act 0, .act 0, .act 0]

theorem stop_sticky_after_release_and_stop :
    ∃ s : State 2, Run step StopSafe (init 2) s ∧ StopSticky s ∧ s.stopRet = true ∧
      s.word = .stopped ∧ s.completed = [(⟨2, true⟩, false), (⟨1, false⟩, false), (⟨0, false⟩, true)] := by
  obtain ⟨s, hs, h⟩ : ∃ s, exec (guarded step StopSafe) (init 2) (stopSchedule 0 1) = some s ∧
      s.stopRet = true ∧ s.word = .stopped ∧
      s.completed = [(⟨2, true⟩, false), (⟨1, false⟩, false), (⟨0, false⟩, true)] :=
    ⟨_, rfl, by decide⟩
  exact ⟨s, run_of_exec_guarded hs, stop_sticky_of_safe_run (run_of_exec_guarded hs), h⟩

/-- **The lost stop.** A consumer is parked; `release()` takes WAITING; a whole `stop()` runs and
returns; `release()` stores IDLE and resumes the consumer.  Nothing is in progress and the word is
IDLE. -/
theorem stop_is_lost : ¬ ∀ (n : Nat) (s : State n), Reachable step (init n) s → StopSticky s := by
  intro h
  obtain ⟨s, hs, hret, hp, ha, hw⟩ : ∃ s : State 2, exec step (init 2)
      [.act 0, .act 0, .act 0, .act 0, .act 0, .callRelease 0, .prod 0, .callStop 1, .prod 1,
        .prod 0, .prod 0, .prod 0, .act 0] = some s ∧
      s.stopRet = true ∧ (∀ t, s.prod t = .idle) ∧ s.acts = [.body] ∧ s.word = .idle :=
    ⟨_, rfl, by decide⟩
  have hq : Quiescent s := ⟨hp, by simp [ha]⟩
  have := (h 2 s (reachable_of_exec hs) hret).1 hq
  rw [hw] at this; cases this

end NetCpp.Coro.MPSCSignal
