/-
# NetCpp.Coro.Tiers — the two tiers of the signal are one state machine.

`include/xsl/coro/signal/core.h` promises that `UnsafeSignal` and `MPSCSignal` "implement the SAME state
machine and the same semantics".  Here both classes run on ONE thread, under an arbitrary program that
releases, stops and awaits the same signal.

A suspended coroutine is resumed inline, inside the `release()` or `stop()` that finds it: what the
coroutine does next is again a program, which may re-await, release or stop the signal before the outer
call returns.  So a run is a STACK of program points.  In all four functions the call `fn(h)` is the last
statement; a call is therefore modelled by the state it leaves and by whether it ends in `fn(h)`.

The contract of the header is single-consumer, at most one await outstanding.  Inside it the two runs are
equal step by step (`tiers_agree`); outside it they part (`tiers_disagree`).
-/
import NetCpp.Coro.Signal

namespace NetCpp.Coro.Tiers

open NetCpp.Lib
open NetCpp.Coro.MPSCSignal (Word)

variable {ι : Type*}

/-! ## §1 — the two classes. -/

/-- A suspended `co_await`: its number, and where the coroutine goes on with the result of `await_resume`. -/
structure Suspension (ι : Type*) where
  id : Nat
  resumed : Bool → ι

/-- The members of either class. -/
structure Sig (ι : Type*) where
  /-- `_state` -/
  state : Word
  /-- `{_resume, _handle}`, `none` for `nullptr` -/
  cont : Option (Suspension ι)

/-- How a call of `release()` or `stop()` ends: it returns, or its last statement is `fn(h)`. -/
inductive Call (ι : Type*)
  | returns
  | fn (h : Option (Suspension ι))

/-- A signal as its callers see it. -/
structure Tier (ι : Type*) where
  awaitReady : Sig ι → Bool × Sig ι
  awaitSuspend : Suspension ι → Sig ι → Bool × Sig ι
  awaitResume : Sig ι → Bool
  release : Sig ι → Sig ι × Call ι
  stop : Sig ι → Sig ι × Call ι

namespace UnsafeSignal

def awaitReady (s : Sig ι) : Bool × Sig ι :=
  if s.state = .signaled then (true, { s with state := .idle })
  else (s.state == .stopped, s)

def awaitSuspend (handle : Suspension ι) (_ : Sig ι) : Bool × Sig ι :=
  (true, { state := .waiting, cont := some handle })

def awaitResume (s : Sig ι) : Bool := s.state != .stopped

def release (s : Sig ι) : Sig ι × Call ι :=
  if s.state = .idle then ({ s with state := .signaled }, .returns)
  else if s.state ≠ .waiting then (s, .returns)
  else ({ s with state := .idle }, .fn s.cont)

def stop (s : Sig ι) : Sig ι × Call ι :=
  if s.state = .stopped then (s, .returns)
  else
    let waiting := s.state == .waiting
    let fn := s.cont
    let s := { s with state := .stopped }
    if waiting then (s, .fn fn) else (s, .returns)

end UnsafeSignal

namespace MPSCSignal

/-- `_state.exchange(w)`: what it returns, and the signal afterwards. -/
def exchange (s : Sig ι) (w : Word) : Word × Sig ι := (s.state, { s with state := w })

/-- `_state.store(w)` -/
def store (s : Sig ι) (w : Word) : Sig ι := { s with state := w }

/-- `_state.compare_exchange_strong(expected, desired)` -/
def compareExchange (s : Sig ι) (expected desired : Word) : Sig ι :=
  if s.state = expected then { s with state := desired } else s

def awaitReady (s : Sig ι) : Bool × Sig ι :=
  if s.state = .signaled then (true, compareExchange s .signaled .idle)
  else (s.state == .stopped, s)

def awaitSuspend (handle : Suspension ι) (s : Sig ι) : Bool × Sig ι :=
  let r := exchange { s with cont := some handle } .waiting
  if r.1 = .idle then (true, r.2)
  else
    -- what was there is consumed, and the registration taken back
    let r' := exchange r.2 (if r.1 = .stopped then .stopped else .idle)
    (r'.1 != .waiting, r'.2)

def awaitResume (s : Sig ι) : Bool := s.state != .stopped

def release (s : Sig ι) : Sig ι × Call ι :=
  let r := exchange s .signaled
  if r.1 = .idle ∨ r.1 = .signaled then (r.2, .returns)
  else if r.1 = .stopped then (store r.2 .stopped, .returns)
  else (store r.2 .idle, .fn r.2.cont)

def stop (s : Sig ι) : Sig ι × Call ι :=
  let r := exchange s .stopped
  if r.1 = .idle ∨ r.1 = .signaled ∨ r.1 = .stopped then (r.2, .returns)
  else (r.2, .fn r.2.cont)

end MPSCSignal

def unsafeSignal : Tier ι where
  awaitReady := UnsafeSignal.awaitReady
  awaitSuspend := UnsafeSignal.awaitSuspend
  awaitResume := UnsafeSignal.awaitResume
  release := UnsafeSignal.release
  stop := UnsafeSignal.stop

def mpscSignal : Tier ι where
  awaitReady := MPSCSignal.awaitReady
  awaitSuspend := MPSCSignal.awaitSuspend
  awaitResume := MPSCSignal.awaitResume
  release := MPSCSignal.release
  stop := MPSCSignal.stop

/-! ## §2 — single-threaded runs. -/

/-- What stands at a program point. -/
inductive Instr (ι : Type*)
  /-- the script is over: control goes back to whoever runs below it -/
  | done
  | release (next : ι)
  | stop (next : ι)
  /-- `co_await`: the coroutine goes on at `resumed b`, its caller at `next` once the coroutine has
  suspended or finished -/
  | coAwait (resumed : Bool → ι) (next : ι)

/-- What can be seen of a run; awaits are numbered in the order they begin. -/
inductive Event
  | release
  | stop
  | ready (id : Nat) (result : Bool)
  | suspend (id : Nat) (result : Bool)
  | resume (id : Nat)
  | result (id : Nat) (signaled : Bool)
  /-- `fn(h)` on a null pair -/
  | nullCall
  deriving DecidableEq, Repr

structure Config (ι : Type*) where
  sig : Sig ι
  /-- how many awaits have begun -/
  awaits : Nat
  /-- the suspended awaits that nobody has resumed -/
  outstanding : List Nat
  /-- the script that runs, above the ones it was called from -/
  stack : List ι
  trace : List Event

namespace Config

/-- The signal after a call that is logged as `es`. -/
def did (c : Config ι) (s : Sig ι) (es : List Event) : Config ι :=
  { c with sig := s, trace := c.trace ++ es }

/-- The coroutine of await `h` runs on, above the scripts in `stack`. -/
def enter (T : Tier ι) (h : Suspension ι) (stack : List ι) (c : Config ι) : Config ι :=
  { c with stack := h.resumed (T.awaitResume c.sig) :: stack
           trace := c.trace ++ [.result h.id (T.awaitResume c.sig)] }

/-- The end of a `release()` or `stop()`. -/
def call (T : Tier ι) (stack : List ι) (c : Config ι) : Call ι → Config ι
  | .returns => { c with stack := stack }
  | .fn none => { c with stack := stack, trace := c.trace ++ [.nullCall] }
  | .fn (some h) =>
      enter T h stack { c with outstanding := c.outstanding.erase h.id, trace := c.trace ++ [.resume h.id] }

/-- One `co_await`: `await_ready`, then at once `await_suspend` if that returned false. -/
def coAwait (T : Tier ι) (resumed : Bool → ι) (stack : List ι) (c : Config ι) : Config ι :=
  let h : Suspension ι := { id := c.awaits, resumed }
  let c := { c with awaits := c.awaits + 1 }
  let r := T.awaitReady c.sig
  if r.1 then enter T h stack (c.did r.2 [.ready h.id true])
  else
    let r' := T.awaitSuspend h r.2
    let c := c.did r'.2 [.ready h.id false, .suspend h.id r'.1]
    if r'.1 then { c with outstanding := c.outstanding ++ [h.id], stack := stack }
    else enter T h stack c

/-- One instruction of the script on top. -/
def step (T : Tier ι) (code : ι → Instr ι) (c : Config ι) : Config ι :=
  match c.stack with
  | [] => c
  | pc :: stack =>
    match code pc with
    | .done => { c with stack := stack }
    | .release next => call T (next :: stack) (c.did (T.release c.sig).1 [.release]) (T.release c.sig).2
    | .stop next => call T (next :: stack) (c.did (T.stop c.sig).1 [.stop]) (T.stop c.sig).2
    | .coAwait resumed next => coAwait T resumed (next :: stack) c

/-- A fresh signal, and a program that starts at `pc`. -/
def start (pc : ι) : Config ι where
  sig := { state := .idle, cont := none }
  awaits := 0
  outstanding := []
  stack := [pc]
  trace := []

/-- **The contract of the header.** At most one await is outstanding: none begins while another is suspended. -/
def singleConsumer (code : ι → Instr ι) (c : Config ι) : Bool :=
  match c.stack.head?.map code with
  | some (.coAwait _ _) => c.outstanding.isEmpty
  | _ => true

theorem outstanding_of_singleConsumer {code : ι → Instr ι} {c : Config ι} {pc next : ι} {stack : List ι}
    {resumed : Bool → ι} (h : c.singleConsumer code = true) (hs : c.stack = pc :: stack)
    (hi : code pc = .coAwait resumed next) : c.outstanding = [] := by
  simpa [singleConsumer, hs, hi] using h

end Config

/-! ## §3 — call by call. -/

theorem awaitReady_eq (s : Sig ι) : MPSCSignal.awaitReady s = UnsafeSignal.awaitReady s := by
  unfold MPSCSignal.awaitReady UnsafeSignal.awaitReady MPSCSignal.compareExchange
  split_ifs
  · rfl
  · rfl

theorem release_eq (s : Sig ι) : MPSCSignal.release s = UnsafeSignal.release s := by
  rcases s with ⟨w, h⟩
  cases w <;> rfl

theorem stop_eq (s : Sig ι) : MPSCSignal.stop s = UnsafeSignal.stop s := by
  rcases s with ⟨w, h⟩
  cases w <;> rfl

/-- The one call that differs, and only on a signal somebody waits on: the atomic tier takes its own
registration back. -/
theorem awaitSuspend_eq {s : Sig ι} (h : Suspension ι) (hs : s.state = .idle) :
    MPSCSignal.awaitSuspend h s = UnsafeSignal.awaitSuspend h s := by
  simp [MPSCSignal.awaitSuspend, MPSCSignal.exchange, UnsafeSignal.awaitSuspend, hs]

theorem awaitReady_true {s : Sig ι} (hr : (UnsafeSignal.awaitReady s).1 = true) :
    (UnsafeSignal.awaitReady s).2.state ≠ .waiting := by
  rcases s with ⟨w, h⟩
  cases w <;> simp_all [UnsafeSignal.awaitReady]

theorem awaitReady_false {s : Sig ι} (hr : (UnsafeSignal.awaitReady s).1 = false) :
    (UnsafeSignal.awaitReady s).2 = s ∧ (s.state = .idle ∨ s.state = .waiting) := by
  rcases s with ⟨w, h⟩
  cases w <;> simp_all [UnsafeSignal.awaitReady]

/-- What `release()` and `stop()` have in common: they leave WAITING, and end in `fn(h)` exactly when they
found it. -/
def Hands (s : Sig ι) (r : Sig ι × Call ι) : Prop :=
  r.1.state ≠ .waiting ∧ r.2 = if s.state = .waiting then .fn s.cont else .returns

theorem hands_release (s : Sig ι) : Hands s (UnsafeSignal.release s) := by
  rcases s with ⟨w, h⟩
  cases w <;> simp [Hands, UnsafeSignal.release]

theorem hands_stop (s : Sig ι) : Hands s (UnsafeSignal.stop s) := by
  rcases s with ⟨w, h⟩
  cases w <;> simp [Hands, UnsafeSignal.stop]

/-! ## §4 — lockstep. -/

section Lockstep

variable {code : ι → Instr ι} {c : Config ι}

/-- The slot of the signal: WAITING exactly while one await is outstanding, and then the pair is that await's. -/
structure Inv (c : Config ι) : Prop where
  waiting : c.sig.state = .waiting → ∃ h, c.sig.cont = some h ∧ c.outstanding = [h.id]
  free : c.sig.state ≠ .waiting → c.outstanding = []
  noNull : .nullCall ∉ c.trace

theorem inv_start (pc : ι) : Inv (Config.start pc) where
  waiting h := by cases h
  free _ := rfl
  noNull := by simp [Config.start]

theorem inv_enter {T : Tier ι} {h : Suspension ι} {stack : List ι} (hc : Inv c) : Inv (c.enter T h stack) where
  waiting := hc.waiting
  free := hc.free
  noNull := by simp [Config.enter, hc.noNull]

/-- A `release()` or `stop()` empties the slot, and the continuation it calls is the one that was in it. -/
theorem inv_call {T : Tier ι} {stack : List ι} {r : Sig ι × Call ι} {e : Event} (hc : Inv c) (he : e ≠ .nullCall)
    (hr : Hands c.sig r) : Inv (Config.call T stack (c.did r.1 [e]) r.2) := by
  obtain ⟨hfree, hcall⟩ := hr
  by_cases hw : c.sig.state = .waiting
  · obtain ⟨h, hcont, hout⟩ := hc.waiting hw
    rw [if_pos hw, hcont] at hcall
    rw [hcall]
    apply inv_enter
    constructor
    · intro hw'
      exact absurd hw' hfree
    · intro _
      simp [Config.did, hout]
    · simp [Config.did, hc.noNull, he.symm]
  · rw [if_neg hw] at hcall
    rw [hcall]
    constructor
    · intro hw'
      exact absurd hw' hfree
    · intro _
      exact hc.free hw
    · simp [Config.call, Config.did, hc.noNull, he.symm]

/-- With nobody outstanding, an await that is not ready finds IDLE. -/
theorem idle_of_not_ready (hc : Inv c) (hout : c.outstanding = [])
    (hr : (UnsafeSignal.awaitReady c.sig).1 = false) :
    (UnsafeSignal.awaitReady c.sig).2 = c.sig ∧ c.sig.state = .idle := by
  obtain ⟨hsame, hidle | hw⟩ := awaitReady_false hr
  · exact ⟨hsame, hidle⟩
  · obtain ⟨h, -, hout'⟩ := hc.waiting hw
    simp [hout] at hout'

theorem inv_coAwait {resumed : Bool → ι} {stack : List ι} (hc : Inv c) (hout : c.outstanding = []) :
    Inv (Config.coAwait unsafeSignal resumed stack c) := by
  unfold Config.coAwait
  cases hr : (UnsafeSignal.awaitReady c.sig).1 with
  | true =>
    simp only [unsafeSignal, hr, if_true]
    apply inv_enter
    constructor
    · intro hw
      exact absurd hw (awaitReady_true hr)
    · intro _
      exact hout
    · simp [Config.did, hc.noNull]
  | false =>
    simp only [unsafeSignal, hr, UnsafeSignal.awaitSuspend, if_true]
    constructor
    · intro _
      exact ⟨_, rfl, by simp [Config.did, hout]⟩
    · intro hw
      exact absurd rfl hw
    · simp [Config.did, hc.noNull]

theorem inv_step (hc : Inv c) (hone : c.singleConsumer code = true) : Inv (c.step unsafeSignal code) := by
  unfold Config.step
  rcases hs : c.stack with - | ⟨pc, stack⟩
  · exact hc
  · simp only []
    cases hi : code pc with
    | done => exact ⟨hc.waiting, hc.free, hc.noNull⟩
    | release next => exact inv_call hc (by simp) (hands_release c.sig)
    | stop next => exact inv_call hc (by simp) (hands_stop c.sig)
    | coAwait resumed next => exact inv_coAwait hc (Config.outstanding_of_singleConsumer hone hs hi)

theorem enter_eq (h : Suspension ι) (stack : List ι) (c : Config ι) :
    Config.enter mpscSignal h stack c = Config.enter unsafeSignal h stack c := rfl

theorem call_eq (stack : List ι) (c : Config ι) (r : Call ι) :
    Config.call mpscSignal stack c r = Config.call unsafeSignal stack c r := by
  rcases r with - | (- | h)
  · rfl
  · rfl
  · exact enter_eq _ _ _

theorem coAwait_eq {resumed : Bool → ι} {stack : List ι} (hc : Inv c) (hout : c.outstanding = []) :
    Config.coAwait mpscSignal resumed stack c = Config.coAwait unsafeSignal resumed stack c := by
  have hready : mpscSignal.awaitReady c.sig = unsafeSignal.awaitReady c.sig := awaitReady_eq c.sig
  unfold Config.coAwait
  simp only [hready, enter_eq]
  cases hr : (UnsafeSignal.awaitReady c.sig).1 with
  | true => simp only [unsafeSignal, hr, if_true]
  | false =>
    obtain ⟨hsame, hidle⟩ := idle_of_not_ready hc hout hr
    have hsuspend : ∀ h, mpscSignal.awaitSuspend h c.sig = unsafeSignal.awaitSuspend h c.sig :=
      fun h => awaitSuspend_eq h hidle
    have hr' : (unsafeSignal.awaitReady c.sig).2 = c.sig := hsame
    simp only [hr', hsuspend]

/-- One instruction does the same on both tiers. -/
theorem step_eq (hc : Inv c) (hone : c.singleConsumer code = true) : c.step mpscSignal code = c.step unsafeSignal code := by
  unfold Config.step
  rcases hs : c.stack with - | ⟨pc, stack⟩
  · rfl
  · simp only []
    cases hi : code pc with
    | done => rfl
    | release next =>
      have hrelease : mpscSignal.release c.sig = unsafeSignal.release c.sig := release_eq c.sig
      simp only [hrelease, call_eq]
    | stop next =>
      have hstop : mpscSignal.stop c.sig = unsafeSignal.stop c.sig := stop_eq c.sig
      simp only [hstop, call_eq]
    | coAwait resumed next => exact coAwait_eq hc (Config.outstanding_of_singleConsumer hone hs hi)

/-- Inside the contract the two runs stay equal, and the slot of the signal stays what it is. -/
theorem lockstep {pc : ι} {n : Nat}
    (hone : ∀ i < n, ((Config.step unsafeSignal code)^[i] (.start pc)).singleConsumer code = true) :
    (Config.step mpscSignal code)^[n] (.start pc) = (Config.step unsafeSignal code)^[n] (.start pc) ∧
      Inv ((Config.step unsafeSignal code)^[n] (.start pc)) := by
  refine iterate_lockstep (R := fun c c' => c' = c ∧ Inv c) (P := fun c => c.singleConsumer code = true)
    ?_ ⟨rfl, inv_start pc⟩ n hone
  rintro c c' ⟨rfl, hc⟩ hstep
  exact ⟨step_eq hc hstep, inv_step hc hstep⟩

/-- WAITING means that somebody is suspended, and no call goes through a null pair. -/
theorem waiting_iff_outstanding {pc : ι} {n : Nat} {c : Config ι}
    (hc : c = (Config.step mpscSignal code)^[n] (.start pc))
    (hone : ∀ i < n, ((Config.step unsafeSignal code)^[i] (.start pc)).singleConsumer code = true) :
    (c.sig.state = .waiting ↔ c.outstanding ≠ []) ∧ .nullCall ∉ c.trace := by
  obtain ⟨heq, hinv⟩ := lockstep hone
  rw [← heq, ← hc] at hinv
  refine ⟨⟨fun hw => ?_, fun hout => ?_⟩, hinv.noNull⟩
  · obtain ⟨h, -, hout⟩ := hinv.waiting hw
    simp [hout]
  · by_contra hw
    exact hout (hinv.free hw)

end Lockstep

/-- **The tiers are one state machine.** As long as every await begins with no other outstanding, the two runs
are equal instruction by instruction: the same results, the same suspensions resumed at the same points, the
same scripts still to be finished, the same state of the signal. -/
theorem tiers_agree (code : ι → Instr ι) (pc : ι) (n : Nat)
    (hone : ∀ i < n, ((Config.step unsafeSignal code)^[i] (.start pc)).singleConsumer code = true) :
    (Config.step mpscSignal code)^[n] (.start pc) = (Config.step unsafeSignal code)^[n] (.start pc) :=
  (lockstep hone).1

/-- A coroutine that awaits twice, releases the signal for itself in between and then awaits again; its caller
releases and stops. -/
def looping : Nat → Instr Nat
  | 0 => .coAwait (fun signaled => if signaled then 10 else 20) 1
  | 1 => .release 2
  | 2 => .stop 20
  -- the coroutine, resumed inside the caller's `release()`
  | 10 => .release 11
  | 11 => .coAwait (fun _ => 12) 20
  | 12 => .coAwait (fun signaled => if signaled then 20 else 13) 20
  -- ... and inside the caller's `stop()`
  | 13 => .release 14
  | 14 => .coAwait (fun _ => 20) 20
  | _ => .done

theorem tiers_agree_looping :
    (∀ i < 17, ((Config.step unsafeSignal looping)^[i] (.start 0)).singleConsumer looping = true) ∧
      (Config.step mpscSignal looping)^[17] (.start 0) = (Config.step unsafeSignal looping)^[17] (.start 0) ∧
      ((Config.step unsafeSignal looping)^[17] (.start 0)).stack = [] ∧
      ((Config.step unsafeSignal looping)^[17] (.start 0)).trace =
        [.ready 0 false, .suspend 0 true, .release, .resume 0, .result 0 true, .release, .ready 1 true,
          .result 1 true, .ready 2 false, .suspend 2 true, .stop, .resume 2, .result 2 false, .release,
          .ready 3 true, .result 3 false] := by
  have hone : ∀ i < 17, ((Config.step unsafeSignal looping)^[i] (.start 0)).singleConsumer looping = true := by
    decide
  exact ⟨hone, tiers_agree looping 0 17 hone, by decide, by decide⟩

/-- Two coroutines that await one signal. -/
def twoConsumers : Nat → Instr Nat
  | 0 => .coAwait (fun _ => 2) 1
  | 1 => .coAwait (fun _ => 2) 2
  | _ => .done

/-- **Outside the contract the tiers part.** The second await suspends on the plain tier; the atomic tier finds
WAITING, takes the registration back and goes on as if it had been released. -/
theorem tiers_disagree :
    ((Config.step unsafeSignal twoConsumers)^[2] (.start 0)).trace =
        [.ready 0 false, .suspend 0 true, .ready 1 false, .suspend 1 true] ∧
      ((Config.step mpscSignal twoConsumers)^[2] (.start 0)).trace =
        [.ready 0 false, .suspend 0 true, .ready 1 false, .suspend 1 false, .result 1 true] := by
  decide

end NetCpp.Coro.Tiers
