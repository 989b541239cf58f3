/-
# NetCpp.Coro.CancelCalls — awaits, releases and `cancel()` by whole calls.

The atomic steps of `NetCpp.Coro.AwaiterWrapper` when no two calls on the signal or on the stop state overlap.  A call
is a `release()`, an await up to its suspension or return, an `await_resume()`, or one move of `cancel()`: the flag is
set, one callback is run, the call returns.  Between the moves of `cancel()` anything else may be called.

`whole_of_alone` takes a schedule of atomic steps to these calls.  What `NetCpp.Coro.Domains` asks of an await in one
step is read off them there; where calls overlap, a cancellation can be lost (`NetCpp.Coro.AwaiterWrapper`).
-/
import NetCpp.Coro.AwaiterWrapper
import NetCpp.Coro.SignalCalls

namespace NetCpp.Coro.AwaiterWrapper

open NetCpp.Lib
open NetCpp.Coro.MPSCSignal (Word Await Prod Rest)

/-! ## §1 — the moves. -/

/-- Signal, stop state and coroutine between calls. -/
structure Whole where
  sig : MPSCSignal.Whole
  /-- `stop_requested()` -/
  stop : Bool
  /-- the callback of an await is registered -/
  registered : Bool
  cancel : Cancel
  /-- what the awaits returned, the last one first -/
  results : List Bool
  deriving DecidableEq, Repr

inductive Call
  | release
  | await
  | resume
  /-- `cancel()` is called -/
  | callCancel
  /-- it sets the flag -/
  | request
  /-- it runs the callback -/
  | callback
  /-- it returns -/
  | returned
  deriving DecidableEq, Repr

namespace Whole

def init : Whole := ⟨.init, false, false, .idle, []⟩

def release (v : Whole) : Whole := { v with sig := v.sig.release }

/-- `co_await`: where the signal would suspend the coroutine, `AwaiterWrapper` tests the flag and registers. -/
def await (v : Whole) : Whole :=
  if v.sig.word = .idle then
    if v.stop then { v with sig := ⟨.idle, .resumed⟩ } else { v with sig := ⟨.waiting, .suspended⟩, registered := true }
  else { v with sig := v.sig.await }

/-- `await_resume()`: the callback is taken back, and what is returned says whether the flag is set. -/
def resume (v : Whole) : Whole :=
  { v with sig := ⟨v.sig.word, .body⟩, registered := false, results := (!v.stop) :: v.results }

def step (v : Whole) : Call → Option Whole
  | .release => some v.release
  | .await => if v.sig.rest = .body then some v.await else none
  | .resume => if v.sig.rest = .resumed then some v.resume else none
  | .callCancel => if v.cancel = .idle then some { v with cancel := .request } else none
  | .request => if v.cancel = .request then some { v with stop := true, cancel := .next } else none
  | .callback =>
      if v.cancel = .next ∧ v.registered = true then some { v.release with registered := false } else none
  | .returned => if v.cancel = .next ∧ v.registered = false then some { v with cancel := .returned } else none

end Whole

/-- An await that suspends has found the flag unset, and has registered. -/
theorem Whole.await_suspended {v : Whole} (h : v.await.sig.rest = .suspended) :
    v.stop = false ∧ v.await.registered = true := by
  unfold Whole.await at h ⊢
  by_cases hw : v.sig.word = .idle
  · rw [if_pos hw] at h ⊢
    cases hstop : v.stop with
    | true => simp [hstop] at h
    | false => simp
  · rw [if_neg hw] at h
    simp [MPSCSignal.Whole.await, hw] at h

/-- `cancel()` is not past the flag, or the flag is set. -/
def Whole.Flagged (v : Whole) : Prop := v.cancel = .idle ∨ v.cancel = .request ∨ v.stop = true

theorem Whole.Flagged.step {v v' : Whole} {c : Call} (h : v.Flagged) (hs : v.step c = some v') : v'.Flagged := by
  cases c with
  | release =>
      obtain rfl := Option.some.inj hs
      exact h
  | await =>
      obtain ⟨-, ⟨⟩⟩ := Option.ite_none_right_eq_some.mp hs
      unfold Whole.await
      split
      · split <;> exact h
      · exact h
  | resume =>
      obtain ⟨-, ⟨⟩⟩ := Option.ite_none_right_eq_some.mp hs
      exact h
  | callCancel =>
      obtain ⟨-, ⟨⟩⟩ := Option.ite_none_right_eq_some.mp hs
      exact .inr (.inl rfl)
  | request =>
      obtain ⟨-, ⟨⟩⟩ := Option.ite_none_right_eq_some.mp hs
      exact .inr (.inr rfl)
  | callback | returned =>
      obtain ⟨⟨hn, -⟩, ⟨⟩⟩ := Option.ite_none_right_eq_some.mp hs
      rcases h with hc | hc | hstop
      · rw [hn] at hc; cases hc
      · rw [hn] at hc; cases hc
      · exact .inr (.inr hstop)

/-- **Nothing is called back before the flag is set.** -/
theorem Whole.stop_of_next {v : Whole} (h : Reachable Whole.step .init v) (hn : v.cancel = .next) : v.stop = true := by
  have hinv : v.Flagged := h.invariant (fun _ _ _ hi _ hs => hi.step hs) (.inl rfl)
  rcases hinv with hc | hc | hstop
  · rw [hn] at hc; cases hc
  · rw [hn] at hc; cases hc
  · exact hstop

/-! ## §2 — one call at a time. -/

variable {n : Nat}

/-- Where an activation is between calls. -/
def Act.rest : Act → Option Rest
  | .inner .body => some .body
  | .inner (.parked _) => some .suspended
  | .reset _ _ => some .resumed
  | _ => none

/-- No call is under way. -/
def Resting (s : State n) : Prop :=
  (∀ t, s.sig.prod t = .idle) ∧ s.cancel ≠ .calling ∧ ∀ A ∈ s.acts, A.rest ≠ none

/-- The call an action begins. -/
def begins (s : State n) : Action n → Option Call
  | .callRelease _ => some .release
  | .callCancel => some .callCancel
  | .cancel =>
      match s.cancel with
      | .request => some .request
      | .next => some (if s.callbacks = [] then .returned else .callback)
      | _ => none
  | .prod _ => none
  | .act i =>
      match s.acts[i]? with
      | some (.inner .body) => some .await
      | some (.reset _ _) => some .resume
      | _ => none

/-- **Calls do not overlap.** -/
def Alone (s : State n) (act : Action n) : Prop := begins s act ≠ none → Resting s

/-- What lies outside the signal, with the signal at `w` and `cancel()` at `c`. -/
def State.around (s : State n) (c : Cancel) (w : MPSCSignal.Whole) : Whole :=
  ⟨w, s.stop, !s.callbacks.isEmpty, c, s.completed.map fun e => e.2.1⟩

/-- The state is at rest, as `v` says. -/
structure AtRest (s : State n) (v : Whole) : Prop where
  idle : ∀ t, s.sig.prod t = .idle
  act : ∃ A r, s.acts = [A] ∧ A.rest = some r ∧ v = s.around s.cancel ⟨s.sig.word, r⟩

/-! ## §3 — the call under way. -/

/-- The callback of an activation at rest: one that is suspended has it, and one that was resumed may have it yet. -/
def Act.Kept (s : State n) : Act → Prop
  | .inner (.parked k) => s.callbacks = [k]
  | .reset k _ => s.callbacks = [k] ∨ s.callbacks = []
  | _ => s.callbacks = []

/-- What is known while an activation is at its counter, no thread is in a call and `cancel()` is not inside one. -/
def Act.Fits (s : State n) : Act → Prop
  | .inner .body | .inner (.readyLoad _) | .recheck _ => s.sig.word ≠ .waiting ∧ s.callbacks = []
  | .inner (.parked k) => s.sig.word = .waiting ∧ s.sig.cont = some k ∧ s.callbacks = [k]
  | .reset k _ => s.sig.word ≠ .waiting ∧ (s.callbacks = [k] ∨ s.callbacks = [])
  | .inner (.readyCas _) => s.sig.word = .signaled ∧ s.callbacks = []
  | .inner (.readyLoad2 _) | .check _ => s.sig.word = .idle ∧ s.callbacks = []
  | .emplace _ => s.sig.word = .idle ∧ s.callbacks = [] ∧ s.stop = false
  | .inner (.suspendWrite k) => s.sig.word = .idle ∧ s.callbacks = [k]
  | .inner (.suspendExchange k) => s.sig.word = .idle ∧ s.sig.cont = some k ∧ s.callbacks = [k]
  | .inner (.resumeLoad _) => s.sig.word ≠ .waiting ∧ s.callbacks = [] ∧ s.stop = false
  | .inline _ | .inner (.suspendRetract _ _) | .inner (.outrun _ _) => False

/-- Where the call of an activation comes to. -/
def Act.ends (s : State n) : Act → Whole
  | .inner (.parked _) => s.around s.cancel ⟨s.sig.word, .suspended⟩
  | .reset _ _ => s.around s.cancel ⟨s.sig.word, .resumed⟩
  | .inner (.readyCas _) => s.around s.cancel ⟨.idle, .resumed⟩
  | .inner (.readyLoad _) | .inner (.readyLoad2 _) | .check _ | .emplace _ =>
      (s.around s.cancel ⟨s.sig.word, .body⟩).await
  | .inner (.suspendWrite _) | .inner (.suspendExchange _) => s.around s.cancel ⟨.waiting, .suspended⟩
  | .recheck _ | .inner (.resumeLoad _) => (s.around s.cancel ⟨s.sig.word, .resumed⟩).resume
  | _ => s.around s.cancel ⟨s.sig.word, .body⟩

/-- What is known of the word while a thread is inside `release()` and `A` rests. -/
def Releases (s : State n) (A : Act) : Prod → Prop
  | .relExchange _ => (∃ k, A = .inner (.parked k) ∧ s.sig.word = .waiting ∧ s.sig.cont = some k) ∨
      A.rest ≠ some .suspended ∧ s.sig.word ≠ .waiting
  | .relCopy _ => ∃ k, A = .inner (.parked k) ∧ s.sig.cont = some k
  | .relStore _ k => A = .inner (.parked k)
  | .relInvoke _ k => A = .inner (.parked k) ∧ s.sig.word = .idle
  | _ => False

/-- Where a `release()` comes to, from the word and from where the coroutine is. -/
def releaseEnds (w : Word) (r : Rest) : Prod → MPSCSignal.Whole
  | .relExchange _ => MPSCSignal.Whole.release ⟨w, r⟩
  | _ => ⟨.idle, .resumed⟩

/-- **At most one call is under way**, and it comes to `v`.  The `release()` of thread 0 is a callback's: its await is no
longer registered, and `cancel()` goes on behind it. -/
inductive Behind (s : State n) : Whole → Prop
  | consumer (A : Act) (hidle : ∀ t, s.sig.prod t = .idle) (hcancel : s.cancel ≠ .calling) (hrun : s.running = none)
      (ha : s.acts = [A]) (hword : s.sig.word ≠ .stopped) (hfits : A.Fits s) : Behind s (A.ends s)
  | release (t : Fin (n + 2)) (A : Act) (r : Rest) (hothers : ∀ u, u ≠ t → s.sig.prod u = .idle)
      (hcancel : s.cancel ≠ .calling) (hrun : s.running = none) (ha : s.acts = [A]) (hword : s.sig.word ≠ .stopped)
      (hrest : A.rest = some r) (hrel : Releases s A (s.sig.prod t)) (hkept : A.Kept s) :
      Behind s (s.around s.cancel (releaseEnds s.sig.word r (s.sig.prod t)))
  | callback (A : Act) (r : Rest) (hothers : ∀ u, u ≠ 0 → s.sig.prod u = .idle) (hcancel : s.cancel = .calling)
      (ha : s.acts = [A]) (hword : s.sig.word ≠ .stopped) (hrest : A.rest = some r)
      (hrel : Releases s A (s.sig.prod 0)) (hcb : s.callbacks = []) :
      Behind s (s.around .next (releaseEnds s.sig.word r (s.sig.prod 0)))
  | called (A : Act) (r : Rest) (hidle : ∀ t, s.sig.prod t = .idle) (hcancel : s.cancel = .calling)
      (ha : s.acts = [A]) (hword : s.sig.word ≠ .stopped) (hwait : s.sig.word ≠ .waiting) (hrest : A.rest = some r)
      (hawake : r ≠ .suspended) (hcb : s.callbacks = []) : Behind s (s.around .next ⟨s.sig.word, r⟩)

variable {s s' : State n} {v v' : Whole} {A : Act} {t : Fin (n + 2)} {r : Rest}

theorem behind_init (n : Nat) : Behind (init n) .init :=
  .consumer (.inner .body) (fun _ => rfl) nofun rfl rfl nofun ⟨nofun, rfl⟩

theorem Behind.of_consumer (hidle : ∀ t, s.sig.prod t = .idle) (hcancel : s.cancel ≠ .calling) (hrun : s.running = none)
    (ha : s.acts = [A]) (hword : s.sig.word ≠ .stopped) (hfits : A.Fits s) (hv : A.ends s = v) : Behind s v :=
  hv ▸ .consumer A hidle hcancel hrun ha hword hfits

/-- An activation at rest that is not suspended. -/
theorem Act.awake_cases (hrest : A.rest = some r) (hawake : r ≠ .suspended) :
    A = .inner .body ∧ r = .body ∨ ∃ k own, A = .reset k own ∧ r = .resumed := by
  cases A with
  | inner a =>
      cases a with
      | body => exact .inl ⟨rfl, (Option.some.inj hrest).symm⟩
      | parked k => exact absurd (Option.some.inj hrest).symm hawake
      | _ => cases hrest
  | reset k own => exact .inr ⟨k, own, rfl, (Option.some.inj hrest).symm⟩
  | _ => cases hrest

/-- Such an activation fits any word but WAITING. -/
theorem Act.fits_of_awake (hrest : A.rest = some r) (hawake : r ≠ .suspended) (hwait : s.sig.word ≠ .waiting)
    (hkept : A.Kept s) : A.Fits s ∧ A.ends s = s.around s.cancel ⟨s.sig.word, r⟩ := by
  rcases Act.awake_cases hrest hawake with ⟨rfl, rfl⟩ | ⟨k, own, rfl, rfl⟩
  · exact ⟨⟨hwait, hkept⟩, rfl⟩
  · exact ⟨⟨hwait, hkept⟩, rfl⟩

/-! ## §4 — a step inside `release()`. -/

/-- **One step of `release()`**: it goes on, or returns with the coroutine awake. -/
theorem release_step (hothers : ∀ u, u ≠ t → s.sig.prod u = .idle) (ha : s.acts = [A]) (hrest : A.rest = some r)
    (hword : s.sig.word ≠ .stopped) (hrel : Releases s A (s.sig.prod t)) (hs : prodStep s t = some s') :
    (∃ sig, s' = { s with sig := sig } ∧ (∀ u, u ≠ t → sig.prod u = .idle) ∧ sig.word ≠ .stopped ∧
      Releases s' A (sig.prod t) ∧ releaseEnds sig.word r (sig.prod t) = releaseEnds s.sig.word r (s.sig.prod t)) ∨
    ∃ sig A' r', s' = { s with sig := sig, acts := [A'] } ∧ (∀ u, sig.prod u = .idle) ∧ sig.word ≠ .stopped ∧
      sig.word ≠ .waiting ∧ A'.rest = some r' ∧ r' ≠ .suspended ∧
      releaseEnds s.sig.word r (s.sig.prod t) = ⟨sig.word, r'⟩ ∧
      (A' = A ∨ ∃ k own, A = .inner (.parked k) ∧ A' = .reset k own) := by
  have hp : (s.sig.prod t).stopping = false := by
    cases hpc : s.sig.prod t with
    | relRestore b | stopExchange | stopCopy | stopInvoke k =>
        rw [hpc] at hrel
        exact hrel.elim
    | _ => rfl
  rcases prodStep_cases hword hp hs with ⟨b, hpc, hne, rfl⟩ | ⟨b, hpc, hwait, rfl⟩ | ⟨b, k, hpc, hc, rfl⟩ |
    ⟨b, k, hpc, rfl⟩ | ⟨b, k, hpc, rfl⟩
  · -- the exchange finds nobody
    rw [hpc] at hrel
    have hawake : r ≠ .suspended := by
      rcases hrel with ⟨k, -, hw, -⟩ | ⟨hawake, -⟩
      · exact absurd hw hne
      · rintro rfl
        exact hawake hrest
    refine .inr ⟨{ (s.sig.goto t .idle) with word := .signaled, finished := b :: s.sig.finished }, A, r, by rw [← ha],
      MPSCSignal.goto_idle hothers, nofun, nofun, hrest, hawake, ?_, .inl rfl⟩
    rw [hpc]
    cases hw : s.sig.word with
    | idle | signaled => rfl
    | stopped => exact absurd hw hword
    | waiting => exact absurd hw hne
  · -- the exchange finds a continuation
    rw [hpc] at hrel
    rcases hrel with ⟨k, rfl, -, hc⟩ | ⟨-, hw⟩
    · refine .inl ⟨{ (s.sig.goto t (.relCopy b)) with word := .signaled }, rfl, MPSCSignal.goto_others hothers, nofun,
        ?_, ?_⟩
      · rw [show MPSCSignal.State.prod _ t = .relCopy b from MPSCSignal.goto_self]
        exact ⟨k, rfl, hc⟩
      · rw [show MPSCSignal.State.prod _ t = .relCopy b from MPSCSignal.goto_self, hpc, hwait]
        rfl
    · exact absurd hwait hw
  · rw [hpc] at hrel
    obtain ⟨k', rfl, hc'⟩ := hrel
    obtain rfl : k = k' := Option.some.inj (hc.symm.trans hc')
    refine .inl ⟨_, rfl, MPSCSignal.goto_others hothers, hword, ?_, ?_⟩
    · rw [MPSCSignal.goto_self]
      rfl
    · rw [MPSCSignal.goto_self, hpc]
      rfl
  · rw [hpc] at hrel
    refine .inl ⟨{ (s.sig.goto t (.relInvoke b k)) with word := .idle }, rfl, MPSCSignal.goto_others hothers, nofun,
      ?_, ?_⟩
    · rw [show MPSCSignal.State.prod _ t = .relInvoke b k from MPSCSignal.goto_self]
      exact ⟨hrel, rfl⟩
    · rw [show MPSCSignal.State.prod _ t = .relInvoke b k from MPSCSignal.goto_self, hpc]
      rfl
  · -- `fn(h)`
    rw [hpc] at hrel
    obtain ⟨rfl, hw⟩ := hrel
    have hacts : resume (t = 0) k s.acts = [.reset k (t = 0)] := by simp [ha, resume]
    refine .inr ⟨{ (s.sig.goto t .idle) with finished := b :: s.sig.finished }, .reset k (t = 0), .resumed,
      by rw [hacts], MPSCSignal.goto_idle hothers, hword, ?_, rfl, nofun, ?_, .inr ⟨k, _, rfl, rfl⟩⟩
    · show s.sig.word ≠ .waiting
      rw [hw]
      nofun
    · rw [hpc]
      show _ = MPSCSignal.Whole.mk s.sig.word .resumed
      rw [hw]
      rfl

theorem prodStep_of_idle (h : s.sig.prod t = .idle) : prodStep s t = none := by
  simp [prodStep, h, MPSCSignal.prodStep]

/-- **A step of a thread** does not change what the call comes to. -/
theorem Behind.prod (h : Behind s v) (hs : prodStep s t = some s') : Behind s' v := by
  cases h with
  | consumer A hidle =>
      rw [prodStep_of_idle (hidle t)] at hs
      cases hs
  | called A r hidle =>
      rw [prodStep_of_idle (hidle t)] at hs
      cases hs
  | release u A r hothers hcancel hrun ha hword hrest hrel hkept =>
      obtain rfl : t = u := by
        by_contra hne
        rw [prodStep_of_idle (hothers t hne)] at hs
        cases hs
      rcases release_step hothers ha hrest hword hrel hs with ⟨sig, rfl, hothers', hword', hrel', hends⟩ |
        ⟨sig, A', r', rfl, hidle, hword', hwait, hrest', hawake, hends, hA⟩
      · rw [← hends]
        exact .release t A r hothers' hcancel hrun ha hword' hrest hrel' hkept
      · have hkept' : A'.Kept { s with sig := sig, acts := [A'] } := by
          rcases hA with rfl | ⟨k, own, rfl, rfl⟩
          · exact hkept
          · exact .inl hkept
        obtain ⟨hfits, hv⟩ := Act.fits_of_awake hrest' hawake hwait hkept'
        rw [hends]
        exact .of_consumer hidle hcancel hrun rfl hword' hfits hv
  | callback A r hothers hcancel ha hword hrest hrel hcb =>
      obtain rfl : t = 0 := by
        by_contra hne
        rw [prodStep_of_idle (hothers t hne)] at hs
        cases hs
      rcases release_step hothers ha hrest hword hrel hs with ⟨sig, rfl, hothers', hword', hrel', hends⟩ |
        ⟨sig, A', r', rfl, hidle, hword', hwait, hrest', hawake, hends, -⟩
      · rw [← hends]
        exact .callback A r hothers' hcancel ha hword' hrest hrel' hcb
      · rw [hends]
        exact .called A' r' hidle hcancel rfl hword' hwait hrest' hawake hcb

/-! ## §5 — a step of the coroutine. -/

theorem act_zero (ha : s.acts = [A]) :
    step s (.act 0) = (actStep s A).map fun r => { r.1 with acts := r.2 } := by
  simp [step, ha]

/-- **A step of the await or of the `await_resume()` that is under way.** -/
theorem Behind.act (hidle : ∀ t, s.sig.prod t = .idle) (hcancel : s.cancel ≠ .calling) (hrun : s.running = none)
    (ha : s.acts = [A]) (hword : s.sig.word ≠ .stopped) (hfits : A.Fits s) (hrest : A.rest = none)
    (hs : step s (.act 0) = some s') : Behind s' (A.ends s) := by
  rw [act_zero ha, Option.map_eq_some_iff] at hs
  obtain ⟨x, hx, rfl⟩ := hs
  cases A with
  | inline k => exact hfits.elim
  | reset k own => cases hrest
  | check k =>
      obtain rfl := Option.some.inj hx
      obtain ⟨hw, hcb⟩ := hfits
      cases hstop : s.stop with
      | true =>
          refine .of_consumer (A := .reset k false) hidle hcancel hrun (by simp) hword ⟨?_, .inr hcb⟩ ?_
          · simp [hw]
          · simp [Act.ends, State.around, Whole.await, hw, hstop]
      | false =>
          exact .of_consumer (A := .emplace k) hidle hcancel hrun (by simp) hword ⟨hw, hcb, hstop⟩ rfl
  | emplace k =>
      obtain ⟨hw, hcb, hstop⟩ := hfits
      simp only [actStep, hstop, Bool.false_eq_true, if_false, Option.some.injEq] at hx
      subst hx
      refine .of_consumer (A := .inner (.suspendWrite k)) hidle hcancel hrun rfl hword ⟨hw, ?_⟩ ?_
      · simp [hcb]
      · simp [Act.ends, State.around, Whole.await, hw, hstop]
  | recheck k =>
      obtain ⟨hw, hcb⟩ := hfits
      cases hstop : s.stop with
      | true =>
          simp only [actStep, hstop, if_true, Option.some.injEq] at hx
          subst hx
          refine .of_consumer (A := .inner .body) hidle hcancel hrun rfl hword ⟨hw, hcb⟩ ?_
          simp [Act.ends, State.around, Whole.resume, hcb, hstop]
      | false =>
          simp only [actStep, hstop, Bool.false_eq_true, if_false, Option.some.injEq] at hx
          subst hx
          exact .of_consumer (A := .inner (.resumeLoad k)) hidle hcancel hrun rfl hword ⟨hw, hcb, hstop⟩ rfl
  | inner a =>
      cases a with
      | body | parked k => cases hrest
      | suspendRetract k old | outrun k old => exact hfits.elim
      | readyLoad k =>
          obtain rfl := Option.some.inj hx
          obtain ⟨hwait, hcb⟩ := hfits
          by_cases hw : s.sig.word = .signaled
          · refine .of_consumer (A := .inner (.readyCas k)) hidle hcancel hrun (by simp [hw, Act.enter]) hword ⟨hw, hcb⟩ ?_
            simp [Act.ends, State.around, Whole.await, MPSCSignal.Whole.await, hw, Word.await]
          · have hi : s.sig.word = .idle := by
              cases hword' : s.sig.word with
              | idle => rfl
              | signaled => exact absurd hword' hw
              | stopped => exact absurd hword' hword
              | waiting => exact absurd hword' hwait
            exact .of_consumer (A := .inner (.readyLoad2 k)) hidle hcancel hrun (by simp [hw, Act.enter]) hword ⟨hi, hcb⟩ rfl
      | readyCas k =>
          obtain rfl := Option.some.inj hx
          obtain ⟨hw, hcb⟩ := hfits
          refine .of_consumer (A := .reset k false) ?_ hcancel hrun rfl ?_ ⟨?_, .inr hcb⟩ ?_
          · simpa [hw] using hidle
          · simp [hw]
          · simp [hw]
          · simp [hw, Act.ends, State.around]
      | readyLoad2 k =>
          obtain rfl := Option.some.inj hx
          obtain ⟨hw, hcb⟩ := hfits
          exact .of_consumer (A := .check k) hidle hcancel hrun (by simp [hw, Act.enter]) hword ⟨hw, hcb⟩ rfl
      | suspendWrite k =>
          obtain rfl := Option.some.inj hx
          obtain ⟨hw, hcb⟩ := hfits
          exact .of_consumer (A := .inner (.suspendExchange k)) hidle hcancel hrun rfl hword ⟨hw, rfl, hcb⟩ rfl
      | suspendExchange k =>
          obtain rfl := Option.some.inj hx
          obtain ⟨hw, hc, hcb⟩ := hfits
          exact .of_consumer (A := .inner (.parked k)) hidle hcancel hrun (by simp [hw, Act.enter]) (by simp) ⟨rfl, hc, hcb⟩ rfl
      | resumeLoad k =>
          obtain ⟨hwait, hcb, hstop⟩ := hfits
          obtain rfl := Option.some.inj hx
          refine .of_consumer (A := .inner .body) hidle hcancel hrun rfl hword ⟨hwait, hcb⟩ ?_
          simp [Act.ends, State.around, Whole.resume, hcb, hstop, hword]

/-! ## §6 — a call. -/

theorem Act.ends_rest (hrest : A.rest = some r) : A.ends s = s.around s.cancel ⟨s.sig.word, r⟩ := by
  cases A with
  | inner a =>
      cases a with
      | body | parked k => cases hrest; rfl
      | _ => cases hrest
  | reset k own => cases hrest; rfl
  | _ => cases hrest

/-- What a `release()` finds that is called where nothing is under way. -/
theorem Act.Fits.at_rest (h : A.Fits s) (hrest : A.rest = some r) (b : Nat) : A.Kept s ∧ Releases s A (.relExchange b) := by
  cases A with
  | inner a =>
      cases a with
      | body => exact ⟨h.2, .inr ⟨nofun, h.1⟩⟩
      | parked k => exact ⟨h.2.2, .inl ⟨k, rfl, h.1, h.2.1⟩⟩
      | _ => cases hrest
  | reset k own => exact ⟨h.2, .inr ⟨nofun, h.1⟩⟩
  | _ => cases hrest

/-- At rest only the word, the pair and the callback matter. -/
theorem Act.Fits.same (h : A.Fits s) (hrest : A.rest = some r) (hsig : s'.sig = s.sig)
    (hcb : s'.callbacks = s.callbacks) : A.Fits s' := by
  cases A with
  | inner a =>
      cases a with
      | body | parked k => simpa only [Act.Fits, hsig, hcb] using h
      | _ => cases hrest
  | reset k own => simpa only [Act.Fits, hsig, hcb] using h
  | _ => cases hrest

theorem Behind.of_rest (hidle : ∀ t, s.sig.prod t = .idle) (hcancel : s.cancel ≠ .calling) (hrun : s.running = none)
    (ha : s.acts = [A]) (hword : s.sig.word ≠ .stopped) (hrest : A.rest = some r) (hfits : A.Fits s) :
    Behind s (s.around s.cancel ⟨s.sig.word, r⟩) :=
  .of_consumer hidle hcancel hrun ha hword hfits (Act.ends_rest hrest)

/-- Where nothing is under way, `v` is the state at rest. -/
theorem Behind.rests (h : Behind s v) (hrest : Resting s) :
    ∃ A r, s.acts = [A] ∧ A.rest = some r ∧ A.Fits s ∧ s.running = none ∧ s.sig.word ≠ .stopped ∧
      v = s.around s.cancel ⟨s.sig.word, r⟩ := by
  obtain ⟨hidle, hcancel, hacts⟩ := hrest
  cases h with
  | consumer A _ _ hrun ha hword hfits =>
      obtain ⟨r, hr⟩ := Option.ne_none_iff_exists'.mp (hacts A (by rw [ha]; exact List.mem_singleton_self A))
      exact ⟨A, r, ha, hr, hfits, hrun, hword, Act.ends_rest hr⟩
  | release t A r _ _ _ _ _ _ hrel =>
      rw [hidle t] at hrel
      exact hrel.elim
  | callback A r _ hc => exact absurd hc hcancel
  | called A r _ hc => exact absurd hc hcancel

theorem callRelease_prod (s : State n) (t : Fin (n + 2)) :
    (callRelease s t).sig.prod t = .relExchange s.sig.awaits := MPSCSignal.goto_self

/-- `release()` is called by a thread that is free. -/
theorem Behind.release_begin (hidle : ∀ u, s.sig.prod u = .idle) (hcancel : s.cancel ≠ .calling) (hrun : s.running = none)
    (ha : s.acts = [A]) (hword : s.sig.word ≠ .stopped) (hrest : A.rest = some r) (hfits : A.Fits s) (t : Fin (n + 2)) :
    Behind (callRelease s t) (s.around s.cancel (MPSCSignal.Whole.release ⟨s.sig.word, r⟩)) := by
  obtain ⟨hkept, hrel⟩ := hfits.at_rest hrest s.sig.awaits
  have hpc := callRelease_prod s t
  have h := Behind.release (s := callRelease s t) t A r (MPSCSignal.goto_others fun u _ => hidle u) hcancel hrun ha hword
    hrest (by rw [hpc]; exact hrel) hkept
  rw [hpc] at h
  exact h

/-- `cancel()` runs the callback. -/
theorem Behind.callback_begin {k : Await} {rest : List Await} (hidle : ∀ u, s.sig.prod u = .idle) (ha : s.acts = [A])
    (hword : s.sig.word ≠ .stopped) (hrest : A.rest = some r) (hfits : A.Fits s) (hcb : s.callbacks = k :: rest) :
    Behind { callRelease s 0 with callbacks := rest, running := some k, cancel := .calling }
      { s.around .next (MPSCSignal.Whole.release ⟨s.sig.word, r⟩) with registered := false } := by
  obtain ⟨hkept, hrel⟩ := hfits.at_rest hrest s.sig.awaits
  obtain rfl : rest = [] := by
    have hone : ∃ j, s.callbacks = [j] ∨ s.callbacks = [] := by
      cases A with
      | inner a =>
          cases a with
          | parked j => exact ⟨j, .inl hkept⟩
          | _ => exact ⟨k, .inr hkept⟩
      | reset j own => exact ⟨j, hkept⟩
      | _ => exact ⟨k, .inr hkept⟩
    obtain ⟨j, hj | hj⟩ := hone
    · exact (List.cons.inj (hcb.symm.trans hj)).2
    · rw [hj] at hcb
      cases hcb
  have hpc := callRelease_prod s 0
  have h := Behind.callback (s := { callRelease s 0 with callbacks := [], running := some k, cancel := .calling }) A r
    (MPSCSignal.goto_others fun u _ => hidle u) rfl ha hword hrest (by rw [hpc]; exact hrel) rfl
  rw [hpc] at h
  exact h

/-- **A call begins** where nothing is under way, and comes to its move. -/
theorem Behind.begin {act : Action n} {c : Call} (h : Behind s v) (hrest : Resting s) (hc : begins s act = some c)
    (hs : step s act = some s') : ∃ v', v.step c = some v' ∧ Behind s' v' := by
  obtain ⟨A, r, ha, hr, hfits, hrun, hword, rfl⟩ := h.rests hrest
  obtain ⟨hidle, hcancel, -⟩ := hrest
  cases act with
  | callRelease t =>
      obtain rfl : Call.release = c := Option.some.inj hc
      obtain ⟨-, ⟨⟩⟩ := Option.ite_none_right_eq_some.mp hs
      exact ⟨_, rfl, .release_begin hidle hcancel hrun ha hword hr hfits (producer t)⟩
  | callCancel =>
      obtain rfl : Call.callCancel = c := Option.some.inj hc
      obtain ⟨hi, ⟨⟩⟩ := Option.ite_none_right_eq_some.mp hs
      exact ⟨_, if_pos hi, .of_rest hidle (by simp) hrun ha hword hr (hfits.same hr rfl rfl)⟩
  | cancel =>
      change cancelStep s = some s' at hs
      cases hcan : s.cancel with
      | idle | calling | returned => simp [begins, hcan] at hc
      | request =>
          obtain rfl : Call.request = c := by simpa [begins, hcan] using hc
          simp only [cancelStep, hcan, Option.some.injEq] at hs
          subst hs
          exact ⟨_, rfl, .of_rest hidle (by simp) hrun ha hword hr (hfits.same hr rfl rfl)⟩
      | next =>
          cases hcb : s.callbacks with
          | nil =>
              obtain rfl : Call.returned = c := by simpa [begins, hcan, hcb] using hc
              simp only [cancelStep, hcan, hcb, Option.some.injEq] at hs
              subst hs
              have hreg : (s.around .next ⟨s.sig.word, r⟩).registered = false := by simp [State.around, hcb]
              have h := Behind.of_rest (s := { s with callbacks := [], cancel := .returned }) hidle (by simp) hrun ha hword hr
                (hfits.same hr rfl hcb.symm)
              refine ⟨_, if_pos ⟨rfl, hreg⟩, ?_⟩
              simpa [State.around, hcb] using h
          | cons k rest =>
              obtain rfl : Call.callback = c := by simpa [begins, hcan, hcb] using hc
              simp only [cancelStep, hcan, hcb, Option.some.injEq] at hs
              subst hs
              have hreg : (s.around .next ⟨s.sig.word, r⟩).registered = true := by simp [State.around, hcb]
              exact ⟨_, if_pos ⟨rfl, hreg⟩, .callback_begin hidle ha hword hr hfits hcb⟩
  | prod t => cases hc
  | act i =>
      have hi : i = 0 := by
        cases i with
        | zero => rfl
        | succ i => simp [begins, ha] at hc
      subst hi
      simp only [begins, ha, List.getElem?_cons_zero] at hc
      rw [act_zero ha, Option.map_eq_some_iff] at hs
      obtain ⟨x, hx, rfl⟩ := hs
      cases A with
      | inner a =>
          cases a with
          | body =>
              obtain rfl : Call.await = c := Option.some.inj hc
              obtain rfl := Option.some.inj hx
              obtain rfl : Rest.body = r := Option.some.inj hr
              exact ⟨_, rfl, .of_consumer (A := .inner (.readyLoad _)) hidle hcancel hrun rfl hword hfits rfl⟩
          | _ => cases hc
      | reset k own =>
          obtain rfl : Call.resume = c := Option.some.inj hc
          obtain rfl : Rest.resumed = r := Option.some.inj hr
          simp only [actStep, hrun, reduceCtorEq, false_and, if_false, Option.some.injEq] at hx
          subst hx
          obtain ⟨hwait, hcb⟩ := hfits
          have herase : s.callbacks.erase k = [] := by rcases hcb with hcb | hcb <;> simp [hcb]
          refine ⟨_, rfl, .of_consumer (A := .recheck k) hidle hcancel rfl rfl hword ⟨hwait, herase⟩ rfl⟩
      | _ => cases hc

/-- **A step inside a call** does not change what it comes to. -/
theorem Behind.goes_on {act : Action n} (h : Behind s v) (hc : begins s act = none) (hs : step s act = some s') :
    Behind s' v := by
  cases act with
  | callRelease t | callCancel => cases hc
  | prod t => exact h.prod hs
  | cancel =>
      change cancelStep s = some s' at hs
      cases hcan : s.cancel with
      | request | next => simp [begins, hcan] at hc
      | idle | returned => simp [cancelStep, hcan] at hs
      | calling =>
          simp only [cancelStep, hcan, Option.ite_none_right_eq_some] at hs
          obtain ⟨h0, ⟨⟩⟩ := hs
          cases h with
          | consumer A _ hcancel => exact absurd hcan hcancel
          | release t A r _ hcancel => exact absurd hcan hcancel
          | callback A r _ _ _ _ _ hrel =>
              rw [h0] at hrel
              exact hrel.elim
          | called A r hidle _ ha hword hwait hrest hawake hcb =>
              have hkept : A.Kept { s with running := none, cancel := .next } := by
                rcases Act.awake_cases hrest hawake with ⟨rfl, -⟩ | ⟨k, own, rfl, -⟩
                · exact hcb
                · exact .inr hcb
              obtain ⟨hfits, hv⟩ := Act.fits_of_awake (s := { s with running := none, cancel := .next }) hrest hawake hwait hkept
              exact .of_consumer hidle (by simp) rfl ha hword hfits hv
  | act i =>
      -- an activation at rest has no step that does not begin a call
      have hstuck : ∀ A, s.acts = [A] → i = 0 ∧ A.rest = none := by
        intro A ha
        have hi : i = 0 := by
          cases i with
          | zero => rfl
          | succ i => simp [step, ha] at hs
        subst hi
        simp only [begins, ha, List.getElem?_cons_zero] at hc
        rw [act_zero ha] at hs
        cases A with
        | inner a =>
            cases a with
            | body => cases hc
            | parked k => simp [actStep, MPSCSignal.actStep] at hs
            | _ => exact ⟨rfl, rfl⟩
        | reset k own => cases hc
        | _ => exact ⟨rfl, rfl⟩
      cases h with
      | consumer A hidle hcancel hrun ha hword hfits =>
          obtain ⟨rfl, hrest⟩ := hstuck A ha
          exact .act hidle hcancel hrun ha hword hfits hrest hs
      | release t A r _ _ _ ha _ hrest | callback A r _ _ ha _ hrest | called A r _ _ ha _ _ hrest =>
          rw [(hstuck A ha).2] at hrest
          cases hrest

/-! ## §7 — runs. -/

theorem behind_of_alone (h : Run step Alone (init n) s) : ∃ v, Reachable Whole.step .init v ∧ Behind s v := by
  induction h with
  | refl => exact ⟨.init, .refl _, behind_init n⟩
  | @tail s s' act _ hg hs ih =>
      obtain ⟨v, hv, hbehind⟩ := ih
      cases hc : begins s act with
      | none => exact ⟨v, hv, hbehind.goes_on hc hs⟩
      | some c =>
          obtain ⟨v', hstep, hbehind'⟩ := hbehind.begin (hg (by rw [hc]; exact Option.some_ne_none c)) hc hs
          exact ⟨v', hv.tail c trivial hstep, hbehind'⟩

/-- **Calls that do not overlap are whole calls**: where nothing is under way, signal, stop state and coroutine are as
whole calls leave them. -/
theorem whole_of_alone (h : Run step Alone (init n) s) (hrest : Resting s) :
    ∃ v, Reachable Whole.step .init v ∧ AtRest s v := by
  obtain ⟨v, hv, hbehind⟩ := behind_of_alone h
  obtain ⟨A, r, ha, hr, -, -, -, rfl⟩ := hbehind.rests hrest
  exact ⟨_, hv, hrest.1, A, r, ha, hr, rfl⟩

end NetCpp.Coro.AwaiterWrapper
