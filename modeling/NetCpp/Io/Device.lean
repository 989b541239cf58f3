/-
# NetCpp.Io.Device — a loop on an edge-triggered device.

`include/xsl/asio/io.h` and `asio/net/socket.h`: a loop makes a system call on a non-blocking descriptor; at `EAGAIN` it
awaits the signal of its device, and then begins again.  The descriptor is registered with `ET`
(`sys/io/context/epoll.h`): it enters the ready list when something happens, not as long as something could be done, so
a loop that missed it would sleep for good.  The poller takes the descriptor from the ready list, and the handler of the
device publishes the mask it was reported with.

`Side` is such a loop with its signal, its descriptor and its context.  Calls on the signal are whole: the schedules meant
are those in which the calls on one signal do not overlap, and there whole calls are what the atomic steps come to
(`NetCpp.Coro.SignalCalls`, `Side.calls_run_alone`).  What overlapping calls can do to a loop is in
`NetCpp.Coro.SignalStop`, `NetCpp.Coro.SignalWake` and `NetCpp.Coro.AwaiterWrapper`.  An await goes through
`AwaiterWrapper` (`coro/core/task.h`): it comes back with false when its signal was stopped or its context was cancelled.
-/
import NetCpp.Sys.IoContext
import NetCpp.Coro.SignalCalls

namespace NetCpp.Io

open NetCpp.Lib
open NetCpp.Coro.MPSCSignal (Word Rest Whole Alone AtRest Behind Resting)
open NetCpp.Sys.IOContext (Events deletes published)

variable {ρ : Type}

/-! ## §1 — the loop. -/

/-- Where a loop is: before its system call, before `co_await sig`, suspended there, resumed, or at an end. -/
inductive Phase (ρ : Type)
  | call
  | await
  | suspended
  | resumed
  | returned (res : ρ)
  deriving DecidableEq

/-- Where the coroutine is for its signal. -/
def Phase.rest : Phase ρ → Rest
  | .call | .await | .returned _ => .body
  | .suspended => .suspended
  | .resumed => .resumed

def Phase.isReturned : Phase ρ → Bool
  | .returned _ => true
  | _ => false

/-- A loop, the signal it awaits, whether the descriptor is in the ready list, and whether the context is cancelled. -/
structure Side (ρ : Type) where
  phase : Phase ρ
  sig : Word
  ready : Bool
  cancelled : Bool
  deriving DecidableEq

def isStopped : Word → Bool
  | .stopped => true
  | .idle | .signaled | .waiting => false

@[simp] theorem isStopped_iff {w : Word} : isStopped w = true ↔ w = .stopped := by
  cases w <;> simp [isStopped]

namespace Side

def init : Side ρ := ⟨.call, .idle, false, false⟩

def goto (p : Phase ρ) (c : Side ρ) : Side ρ := { c with phase := p }

/-- `!await_resume()` -/
def dead (c : Side ρ) : Bool := c.cancelled || isStopped c.sig

/-- `co_await sig` up to the suspension: `await_ready` takes a signal that is there, and `await_suspend` refuses in a
cancelled context. -/
def await (c : Side ρ) : Side ρ where
  phase := if c.sig = .idle ∧ c.cancelled = false then .suspended else .resumed
  sig := if c.sig = .idle ∧ c.cancelled = true then .idle else c.sig.await
  ready := c.ready
  cancelled := c.cancelled

/-- `release()`: a suspended loop is resumed. -/
def release (c : Side ρ) : Side ρ where
  phase := if c.sig = .waiting then .resumed else c.phase
  sig := c.sig.release
  ready := c.ready
  cancelled := c.cancelled

/-- `stop()` -/
def stop (c : Side ρ) : Side ρ where
  phase := if c.sig = .waiting then .resumed else c.phase
  sig := .stopped
  ready := c.ready
  cancelled := c.cancelled

/-- `request_stop()`: the callback of a suspended await releases the signal. -/
def cancel (c : Side ρ) : Side ρ where
  phase := if c.sig = .waiting then .resumed else c.phase
  sig := if c.sig = .waiting then .idle else c.sig
  ready := c.ready
  cancelled := true

/-- The descriptor enters the ready list. -/
def rouse (c : Side ρ) : Side ρ := { c with ready := true }

/-- The poller takes it from there. -/
def taken (c : Side ρ) : Side ρ := { c with ready := false }

/-- One event: an empty mask is not reported, the handler of any other one publishes it to the keys of its device. -/
def report (keys : List Events) (key mask : Events) (c : Side ρ) : Side ρ :=
  if deletes mask = false ∧ (published keys mask).contains key = true then c.taken.release else c.taken

/-! ## §2 — the calls on the signal.

What the moves do to the signal is what whole calls do. -/

variable {c : Side ρ}

/-- The signal between calls, with its coroutine. -/
def whole (c : Side ρ) : Whole := ⟨c.sig, c.phase.rest⟩

theorem whole_release (c : Side ρ) : c.release.whole = c.whole.release := by
  unfold whole release Whole.release
  split <;> rfl

theorem whole_stop (c : Side ρ) : c.stop.whole = c.whole.stop := by
  unfold whole stop Whole.stop
  split <;> rfl

theorem whole_await (hp : c.phase = .await) (hx : c.cancelled = false) : c.whole.step .await = some c.await.whole := by
  simp only [whole, await, hp, hx, Phase.rest, Whole.step, Whole.await, if_true, and_true, Bool.false_eq_true, and_false,
    if_false]
  split <;> rfl

/-- A cancellation releases the signal of a suspended await, and of no other. -/
theorem whole_cancel (c : Side ρ) : c.cancel.whole = if c.sig = .waiting then c.whole.release else c.whole := by
  unfold whole cancel Whole.release
  split
  · rename_i hw
    simp [hw, Word.release, Phase.rest]
  · rfl

/-- **The moves of a loop on its signal are calls of the atomic machine that run alone.** -/
theorem calls_run_alone {n : Nat} {sig : Coro.MPSCSignal.State n} (h : Behind sig c.whole) (hrest : Resting sig)
    (t : Fin n) :
    (∃ sig', Lib.Run Coro.MPSCSignal.step Alone sig sig' ∧ AtRest sig' c.release.whole) ∧
      (∃ sig', Lib.Run Coro.MPSCSignal.step Alone sig sig' ∧ AtRest sig' c.stop.whole) ∧
      (c.phase = .await → c.cancelled = false →
        ∃ sig', Lib.Run Coro.MPSCSignal.step Alone sig sig' ∧ AtRest sig' c.await.whole) := by
  refine ⟨?_, ?_, fun hp hx => ?_⟩
  · have hs : Coro.MPSCSignal.step sig (.callRelease t) = some _ := if_pos (hrest.1 t)
    obtain ⟨v, sig', hv, hrun, -, hat⟩ := Coro.MPSCSignal.Call.runs_alone h hrest rfl hs
    obtain rfl : c.release.whole = v := by rw [whole_release]; exact Option.some.inj hv
    exact ⟨sig', hrun, hat⟩
  · have hs : Coro.MPSCSignal.step sig (.callStop t) = some _ := if_pos (hrest.1 t)
    obtain ⟨v, sig', hv, hrun, -, hat⟩ := Coro.MPSCSignal.Call.runs_alone h hrest rfl hs
    obtain rfl : c.stop.whole = v := by rw [whole_stop]; exact Option.some.inj hv
    exact ⟨sig', hrun, hat⟩
  · -- the coroutine is in its body
    obtain ⟨-, -, a, ha, hr⟩ := h.atRest hrest
    have hbody : a = .body := by
      cases a with
      | body => rfl
      | _ => simp [whole, hp, Phase.rest, Coro.MPSCSignal.Act.rest] at hr
    subst hbody
    have hc : Coro.MPSCSignal.begins sig (.act 0) = some .await := by simp [Coro.MPSCSignal.begins, ha]
    obtain ⟨_, hs⟩ : ∃ sig', Coro.MPSCSignal.step sig (.act 0) = some sig' := by
      simp [Coro.MPSCSignal.step, ha, Coro.MPSCSignal.actStep]
    obtain ⟨v, sig', hv, hrun, -, hat⟩ := Coro.MPSCSignal.Call.runs_alone h hrest hc hs
    obtain rfl : c.await.whole = v := by rw [whole_await hp hx] at hv; exact Option.some.inj hv
    exact ⟨sig', hrun, hat⟩

/-! ## §3 — when it is woken. -/

/-- The loop has to be woken. -/
def Waits (c : Side ρ) : Prop := c.phase = .await ∨ c.phase = .suspended

/-- It will be. -/
def Woken (c : Side ρ) : Prop := c.ready = true ∨ c.sig = .signaled ∨ c.dead = true

/-- The signal has a consumer exactly while the loop is suspended; a cancelled context suspends no loop. -/
structure WF (c : Side ρ) : Prop where
  waiting : c.phase = .suspended ↔ c.sig = .waiting
  live : c.phase = .suspended → c.cancelled = false

/-- What an event does to a loop: nothing, or it resumes it. -/
def Stirs (c d : Side ρ) : Prop := d.phase = c.phase ∨ (c.phase = .suspended ∧ d.phase = .resumed)

variable {c d : Side ρ}

theorem wf_init : (init : Side ρ).WF := ⟨⟨nofun, nofun⟩, nofun⟩

theorem WF.goto (h : c.WF) {p : Phase ρ} (hc : c.phase ≠ .suspended) (hp : p ≠ .suspended) : (c.goto p).WF :=
  ⟨⟨fun he => absurd he hp, fun he => absurd (h.waiting.mpr he) hc⟩, fun he => absurd he hp⟩

theorem WF.not_waiting (h : c.WF) (hc : c.phase ≠ .suspended) : c.sig ≠ .waiting := fun hs => hc (h.waiting.mpr hs)

theorem WF.await (h : c.WF) (hc : c.phase = .await) : c.await.WF := by
  have hw : c.sig ≠ .waiting := h.not_waiting (by rw [hc]; exact nofun)
  unfold Side.await
  cases hs : c.sig with
  | waiting => exact absurd hs hw
  | idle =>
      cases hx : c.cancelled with
      | false => exact ⟨by simp [Word.await], by simp⟩
      | true => exact ⟨by simp, by simp⟩
  | signaled | stopped => exact ⟨by simp [Word.await], by simp⟩

theorem WF.release (h : c.WF) : c.release.WF := by
  have hwait := h.waiting
  unfold Side.release
  cases hs : c.sig with
  | waiting => exact ⟨by simp [Word.release], by simp⟩
  | idle | signaled | stopped =>
      rw [hs] at hwait
      exact ⟨by simpa [Word.release] using hwait, by simpa using h.live⟩

theorem WF.stop (h : c.WF) : c.stop.WF := by
  have hwait := h.waiting
  unfold Side.stop
  cases hs : c.sig with
  | waiting => exact ⟨by simp, by simp⟩
  | idle | signaled | stopped =>
      rw [hs] at hwait
      exact ⟨by simpa using hwait, by simpa using h.live⟩

theorem WF.cancel (h : c.WF) : c.cancel.WF := by
  have hwait := h.waiting
  unfold Side.cancel
  cases hs : c.sig with
  | waiting => exact ⟨by simp, by simp⟩
  | idle | signaled | stopped =>
      rw [hs] at hwait
      exact ⟨by simpa using hwait, fun hp => by simp at hp; exact absurd (hwait.mp hp) nofun⟩

theorem WF.rouse (h : c.WF) : c.rouse.WF := ⟨h.waiting, h.live⟩

theorem WF.taken (h : c.WF) : c.taken.WF := ⟨h.waiting, h.live⟩

theorem WF.report (h : c.WF) (keys : List Events) (key mask : Events) : (c.report keys key mask).WF := by
  unfold Side.report
  split
  · exact h.taken.release
  · exact h.taken

theorem WF.resumes (h : c.WF) {p : Phase ρ} (hp : p = if c.sig = .waiting then .resumed else c.phase) :
    p = c.phase ∨ (c.phase = .suspended ∧ p = .resumed) := by
  by_cases hs : c.sig = .waiting
  · exact .inr ⟨h.waiting.mpr hs, by rw [hp, if_pos hs]⟩
  · exact .inl (by rw [hp, if_neg hs])

theorem WF.stirs_release (h : c.WF) : c.Stirs c.release := h.resumes rfl

theorem WF.stirs_stop (h : c.WF) : c.Stirs c.stop := h.resumes rfl

theorem WF.stirs_cancel (h : c.WF) : c.Stirs c.cancel := h.resumes rfl

theorem stirs_rouse : c.Stirs c.rouse := .inl rfl

theorem WF.stirs_report (h : c.WF) (keys : List Events) (key mask : Events) : c.Stirs (c.report keys key mask) := by
  unfold Side.report
  split
  · exact h.taken.stirs_release
  · exact .inl rfl

theorem Stirs.waits (h : c.Stirs d) (hd : d.Waits) : c.Waits := by
  rcases h with h | ⟨hc, -⟩
  · unfold Waits at *
    rwa [← h]
  · exact .inr hc

theorem Stirs.resumed (h : c.Stirs d) (hd : d.phase = .resumed) : c.Waits ∨ c.phase = .resumed := by
  rcases h with h | ⟨hc, -⟩
  · exact .inr (h ▸ hd)
  · exact .inl (.inr hc)

theorem Stirs.returned (h : c.Stirs d) {res : ρ} (hd : d.phase = .returned res) : c.phase = .returned res := by
  rcases h with h | ⟨-, hr⟩
  · exact h ▸ hd
  · rw [hd] at hr
    cases hr

theorem Stirs.isReturned (h : c.Stirs d) (hc : c.phase.isReturned = true) : d.phase.isReturned = true := by
  rcases h with h | ⟨hs, -⟩
  · rwa [h]
  · rw [hs] at hc
    cases hc

theorem not_waits_goto {p : Phase ρ} (ha : p ≠ .await) (hs : p ≠ .suspended) : ¬(c.goto p).Waits := by
  rintro (h | h)
  · exact ha h
  · exact hs h

/-- A loop that still waits behind a `release()` has not suspended yet, and will find the signal. -/
theorem woken_release (hw : c.release.Waits) : c.release.Woken := by
  unfold Waits Woken dead release at *
  cases hs : c.sig with
  | waiting => simp [hs] at hw
  | idle | signaled | stopped => simp [Word.release]

theorem woken_stop : c.stop.Woken := .inr (.inr (by simp [stop, dead]))

theorem woken_cancel : c.cancel.Woken := .inr (.inr (by simp [cancel, dead]))

theorem woken_rouse : c.rouse.Woken := .inl rfl

/-- A loop that suspends leaves the event behind it, if there was one. -/
theorem woken_await (hw : c.await.Waits) (h : c.Woken) : c.await.Woken := by
  unfold Waits at hw
  unfold Woken dead at *
  unfold await at *
  cases hs : c.sig with
  | idle =>
      cases hx : c.cancelled with
      | true => simp [hs, hx] at hw
      | false =>
          rw [hs, hx] at h
          exact .inl (by simpa using h)
  | waiting | signaled | stopped => simp [hs] at hw

/-- A suspended loop that will be woken is in the ready list. -/
theorem WF.ready (h : c.WF) (hc : c.phase = .suspended) (hw : c.Woken) : c.ready = true := by
  have hsig : c.sig = .waiting := h.waiting.mp hc
  have hlive : c.cancelled = false := h.live hc
  simpa [Woken, dead, hsig, hlive] using hw

theorem WF.not_woken (h : c.WF) (hc : c.phase = .suspended) (hr : c.ready = false) : ¬c.Woken := by
  intro hw
  rw [h.ready hc hw] at hr
  cases hr

/-- Calls leave a stop or a cancellation as they find it. -/
@[simp] theorem dead_goto (p : Phase ρ) : (c.goto p).dead = c.dead := rfl

@[simp] theorem dead_rouse : c.rouse.dead = c.dead := rfl

@[simp] theorem dead_await : c.await.dead = c.dead := by
  simp only [dead, await]
  cases c.sig with
  | idle => cases c.cancelled <;> simp [Word.await, isStopped]
  | waiting | signaled | stopped => simp [Word.await, isStopped]

@[simp] theorem dead_release : c.release.dead = c.dead := by
  simp only [dead, release]
  cases c.sig <;> rfl

@[simp] theorem dead_report (keys : List Events) (key mask : Events) : (c.report keys key mask).dead = c.dead := by
  unfold report
  split
  · exact dead_release
  · rfl

@[simp] theorem report_cancelled (keys : List Events) (key mask : Events) :
    (c.report keys key mask).cancelled = c.cancelled := by
  unfold report
  split <;> rfl

theorem report_stopped (keys : List Events) (key mask : Events) (h : c.sig = .stopped) :
    (c.report keys key mask).sig = .stopped := by
  unfold report
  split
  · simp [release, taken, h, Word.release]
  · exact h

theorem await_phase (c : Side ρ) : c.await.phase = .suspended ∨ c.await.phase = .resumed := by
  unfold await
  split
  · exact .inl rfl
  · exact .inr rfl

theorem await_not_returned (res : ρ) : c.await.phase ≠ .returned res := by
  rcases c.await_phase with h | h <;> rw [h] <;> exact nofun

/-- An event that is the loop's: it does not wait any more, or will find the signal. -/
theorem woken_report {keys : List Events} {key mask : Events} (hd : deletes mask = false)
    (hk : (published keys mask).contains key = true) (hw : (c.report keys key mask).Waits) :
    (c.report keys key mask).Woken := by
  unfold report at *
  rw [if_pos ⟨hd, hk⟩] at *
  exact woken_release hw

/-! ## §4 — what its steps cost.

A wake-up is worth more than the turn it leads to: a loop that goes round once has used one up. -/

/-- What a loop at `p` may still do before it sleeps; an await that comes back with false is not followed by a call. -/
def phasePrice (dead : Bool) : Phase ρ → Nat
  | .call => 3
  | .await => 2
  | .suspended => 1
  | .resumed => bif dead then 1 else 4
  | .returned _ => 0

/-- A wake-up that waits in the signal. -/
def wordPrice : Word → Nat
  | .signaled => 3
  | .idle | .waiting | .stopped => 0

def price (c : Side ρ) : Nat := phasePrice c.dead c.phase + (bif c.ready then 4 else 0) + wordPrice c.sig

theorem price_goto (c : Side ρ) (p : Phase ρ) :
    (c.goto p).price + phasePrice c.dead c.phase = c.price + phasePrice c.dead p := by
  simp only [price, goto, dead]
  omega

theorem price_rouse (c : Side ρ) : c.rouse.price ≤ c.price + 4 := by
  simp only [price, rouse, cond_true, dead]
  omega

theorem price_await (h : c.WF) (hc : c.phase = .await) : c.await.price < c.price := by
  have hw : c.sig ≠ .waiting := h.not_waiting (by rw [hc]; exact nofun)
  simp only [price, await, dead, hc]
  cases hs : c.sig with
  | waiting => exact absurd hs hw
  | idle => cases hx : c.cancelled <;> simp [phasePrice, wordPrice, Word.await, isStopped]
  | signaled => cases hx : c.cancelled <;> simp [phasePrice, wordPrice, Word.await, isStopped] <;> omega
  | stopped => simp [phasePrice, wordPrice, Word.await, isStopped]

theorem price_release (h : c.WF) : c.release.price ≤ c.price + 3 := by
  have hwait := h.waiting
  simp only [price, release, dead]
  cases hs : c.sig with
  | waiting =>
      have hc := hwait.mpr hs
      rw [hc, h.live hc]
      simp [phasePrice, wordPrice, Word.release, isStopped]
      omega
  | idle => simp [wordPrice, Word.release, isStopped]
  | signaled => simp [wordPrice, Word.release, isStopped]
  | stopped => simp [wordPrice, Word.release, isStopped]

theorem price_report (h : c.WF) (hr : c.ready = true) (keys : List Events) (key mask : Events) :
    (c.report keys key mask).price < c.price := by
  have htaken : c.taken.price + 4 = c.price := by
    simp only [price, taken, hr, cond_true, cond_false, dead]
    omega
  unfold report
  split
  · have := price_release h.taken
    omega
  · omega

/-- A loop that is cancelled or stopped has nothing to wait for. -/
theorem WF.price_resumes (h : c.WF) {sig : Word} (hs : wordPrice sig ≤ wordPrice c.sig) {cancelled : Bool}
    (hd : (cancelled || isStopped sig) = true) :
    (⟨if c.sig = .waiting then .resumed else c.phase, sig, c.ready, cancelled⟩ : Side ρ).price ≤ c.price := by
  have hwait := h.waiting
  have hphase : phasePrice true (if c.sig = .waiting then .resumed else c.phase) ≤ phasePrice c.dead c.phase := by
    by_cases hw : c.sig = .waiting
    · rw [if_pos hw, hwait.mpr hw]
      exact Nat.le_refl _
    · rw [if_neg hw]
      cases c.phase with
      | resumed => cases c.dead <;> simp [phasePrice]
      | call | await | suspended | returned _ => exact Nat.le_refl _
  simp only [price, dead, hd] at *
  omega

theorem price_stop (h : c.WF) : c.stop.price ≤ c.price :=
  h.price_resumes (Nat.zero_le _) (by simp [isStopped])

theorem price_cancel (h : c.WF) : c.cancel.price ≤ c.price := by
  refine h.price_resumes ?_ rfl
  split
  · exact Nat.zero_le _
  · exact Nat.le_refl _

end Side

end NetCpp.Io
