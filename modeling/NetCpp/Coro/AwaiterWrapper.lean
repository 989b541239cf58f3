/-
# NetCpp.Coro.AwaiterWrapper — cancellation of an await of `MPSCSignal`.

`include/xsl/coro/core/task.h`: inside a `Task` every `co_await` goes through `AwaiterWrapper`.  Its `await_suspend` tests
the stop flag, registers a `std::stop_callback` that calls `release()` on the signal, and then lets the signal's own
`await_suspend` publish the handle; its `await_resume` unregisters the callback and tests the flag again.
`CoroContext::cancel()` is `request_stop()`.

The signal is that of `NetCpp.Coro.Signal`, step for step; an activation is inside the signal's code (`Act.inner`) or
inside the wrapper's.  Thread 0 of the signal is the canceller running a callback, thread 1 the consumer running its
own callback inline, the `n` others are producers.  Nobody calls `stop()`.

## `std::stop_source`

`request_stop` sets the flag and then runs the registered callbacks, each once; a callback constructed after the flag
was set is run inline by its constructor and never registered; the destructor of a callback that is being run by
another thread waits for it (`running`), but not when the destructor is called from inside the callback, as happens
when the canceller's `fn(h)` resumes the coroutine inline (`own`).
-/
import NetCpp.Coro.SignalOnce
import NetCpp.Coro.SignalWake

namespace NetCpp.Coro.AwaiterWrapper

open NetCpp.Lib
open NetCpp.Coro.MPSCSignal (Word Await Prod)

/-! ## §1 — program counters and state. -/

/-- Where an activation of the coroutine is. -/
inductive Act
  /-- in the coroutine's body or in the signal's code -/
  | inner (a : MPSCSignal.Act)
  /-- `await_suspend`: `ctx.stop_requested()` -/
  | check (k : Await)
  /-- `await_suspend`: `_cb.emplace(..)` -/
  | emplace (k : Await)
  /-- `await_suspend`: the callback runs inside its constructor -/
  | inline (k : Await)
  /-- `await_resume`: `_cb.reset()`; `own`: resumed by the callback itself -/
  | reset (k : Await) (own : Bool)
  /-- `await_resume`: `ctx.stop_requested()` -/
  | recheck (k : Await)
  deriving DecidableEq, Repr

/-- Where the thread that calls `cancel()` is. -/
inductive Cancel
  | idle
  | request
  | next
  | calling
  | returned
  deriving DecidableEq, Repr

structure State (n : Nat) where
  /-- the signal; its activations are those in `acts` -/
  sig : MPSCSignal.State (n + 2)
  acts : List Act
  /-- `stop_requested()` -/
  stop : Bool
  /-- the awaits whose callback is registered -/
  callbacks : List Await
  /-- the await whose callback `request_stop` is running -/
  running : Option Await
  cancel : Cancel
  /-- history: awaits completed, the value returned, and whether the stop request had been made -/
  completed : List (Await × Bool × Bool)

def init (n : Nat) : State n where
  sig := MPSCSignal.init (n + 2)
  acts := [.inner .body]
  stop := false
  callbacks := []
  running := none
  cancel := .idle
  completed := []

/-! ## §2 — the steps. -/

variable {n : Nat}

/-- The signal's code hands over to the wrapper where its `await_ready` returned `false`, and where the coroutine
goes on. -/
def Act.enter : MPSCSignal.Act → Act
  | .suspendWrite k => .check k
  | .resumeLoad k => .reset k false
  | a => .inner a

/-- `fn(h)` for the continuation of await `k`. -/
def resume (own : Bool) (k : Await) : List Act → List Act
  | [] => [.reset k own]
  | .inner (.parked j) :: as =>
      if j = k then .reset k own :: as else .inner (.parked j) :: resume own k as
  | .inner (.suspendRetract j old) :: as =>
      if j = k then .inner (.outrun k old) :: .reset k own :: as
      else .inner (.suspendRetract j old) :: resume own k as
  | a :: as => a :: resume own k as

/-- A thread's step inside `release()`. -/
def prodStep (s : State n) (t : Fin (n + 2)) : Option (State n) :=
  match s.sig.prod t with
  | .relInvoke b k =>
      some { s with
        sig := { (s.sig.goto t .idle) with finished := b :: s.sig.finished }
        acts := resume (t = 0) k s.acts }
  | _ => (MPSCSignal.prodStep s.sig t).map fun sig => { s with sig := sig }

/-- The call of `release()` by thread `t`. -/
def callRelease (s : State n) (t : Fin (n + 2)) : State n :=
  { s with sig := { (s.sig.goto t (.relExchange s.sig.awaits)) with releases := s.sig.releases + 1 } }

def actStep (s : State n) : Act → Option (State n × List Act)
  | .inner (.resumeLoad k) =>
      some ({ s with completed := (k, decide (s.sig.word ≠ .stopped), s.stop) :: s.completed }, [.inner .body])
  | .inner a => (MPSCSignal.actStep s.sig a).map fun r => ({ s with sig := r.1 }, r.2.map Act.enter)
  -- await_suspend
  | .check k => some (s, [if s.stop then .reset k false else .emplace k])
  | .emplace k =>
      if s.stop then
        if s.sig.prod 1 = .idle then some (callRelease s 1, [.inline k]) else none
      else some ({ s with callbacks := k :: s.callbacks }, [.inner (.suspendWrite k)])
  | .inline k => if s.sig.prod 1 = .idle then some (s, [.inner (.suspendWrite k)]) else none
  -- await_resume
  | .reset k own =>
      if s.running = some k ∧ own = false then none
      else some ({ s with callbacks := s.callbacks.erase k }, [.recheck k])
  | .recheck k =>
      if s.stop then some ({ s with completed := (k, false, true) :: s.completed }, [.inner .body])
      else some (s, [.inner (.resumeLoad k)])

/-- The thread inside `cancel()`. -/
def cancelStep (s : State n) : Option (State n) :=
  match s.cancel with
  | .request => some { s with stop := true, cancel := .next }
  | .next =>
      match s.callbacks with
      | [] => some { s with cancel := .returned }
      | k :: rest => some { (callRelease s 0) with callbacks := rest, running := some k, cancel := .calling }
  | .calling => if s.sig.prod 0 = .idle then some { s with running := none, cancel := .next } else none
  | .idle | .returned => none

inductive Action (n : Nat)
  /-- a producer calls `release()` -/
  | callRelease (t : Fin n)
  | callCancel
  | cancel
  | prod (t : Fin (n + 2))
  | act (i : Nat)
  deriving DecidableEq

/-- The thread of producer `t`. -/
def producer (t : Fin n) : Fin (n + 2) := t.succ.succ

def step (s : State n) : Action n → Option (State n)
  | .callRelease t => if s.sig.prod (producer t) = .idle then some (callRelease s (producer t)) else none
  | .callCancel => if s.cancel = .idle then some { s with cancel := .request } else none
  | .cancel => cancelStep s
  | .prod t => prodStep s t
  | .act i =>
      match s.acts[i]? with
      | none => none
      | some a =>
          (actStep s a).map fun r => { r.1 with acts := s.acts.take i ++ r.2 ++ s.acts.drop (i + 1) }

/-! ## §3 — the property and the side condition. -/

/-- **Cancellation reaches the consumer.** After `cancel()` has returned, a suspended coroutine's continuation is in some
thread's hands; and an await that completes after the stop request returns `false`. -/
def Reached (s : State n) : Prop :=
  (s.cancel = .returned → ∀ k, .inner (.parked k) ∈ s.acts → ∃ t, (s.sig.prod t).holds = true) ∧
    ∀ c ∈ s.completed, c.2.2 = true → c.2.1 = false

/-- An `await_suspend` of the signal whose coroutine was resumed under it. -/
def Act.outrun : Act → Bool
  | .inner (.outrun _ _) => true
  | _ => false

/-- `await_resume` has found the flag unset and is about to return `true`. -/
def Act.passed : Act → Bool
  | .inner (.resumeLoad _) => true
  | _ => false

def Cancel.requests : Cancel → Bool
  | .request => true
  | _ => false

/-- **Nothing comes late.** The step is neither the second exchange of an outrun `await_suspend` on a word other than IDLE,
nor a stop request between an `await_resume`'s test of the flag and its end. -/
def NotLate (s : State n) : Action n → Prop
  | .act i => ∀ a ∈ s.acts[i]?, a.outrun = true → s.sig.word = .idle
  | .cancel => s.cancel.requests = true → s.acts.any Act.passed = false
  | _ => True

instance (s : State n) (act : Action n) : Decidable (NotLate s act) :=
  match act with
  | .act i => inferInstanceAs (Decidable (∀ a ∈ s.acts[i]?, _))
  | .cancel => inferInstanceAs (Decidable (s.cancel.requests = true → _))
  | .callRelease _ | .callCancel | .prod _ => inferInstanceAs (Decidable True)

/-! ## §4 — the signal underneath.

Forgetting where the wrapper is leaves a state of the signal, and the ownership of continuations is that of
`NetCpp.Coro.SignalOnce`. -/

def Act.proj : Act → MPSCSignal.Act
  | .inner a => a
  | .check k | .emplace k | .inline k => .suspendWrite k
  | .reset k _ | .recheck k => .resumeLoad k

def State.proj (s : State n) : MPSCSignal.State (n + 2) := { s.sig with acts := s.acts.map Act.proj }

open MPSCSignal (Shared Recorded Ghost)

variable {s s' : State n} {g g' : Ghost (n + 2)} {a a' : MPSCSignal.Act} {A B : Act} {t : Fin (n + 2)} {i : Nat}
  {k : Await}

@[simp] theorem proj_enter (a : MPSCSignal.Act) : (Act.enter a).proj = a := by
  cases a <;> rfl

theorem map_proj_resume (own : Bool) (k : Await) (as : List Act) :
    (resume own k as).map Act.proj = MPSCSignal.invoke k (as.map Act.proj) := by
  fun_induction resume own k as with
  | case1 => rfl
  | case2 as => simp [Act.proj, MPSCSignal.invoke]
  | case3 j as hj ih => simp [Act.proj, MPSCSignal.invoke, hj, ih]
  | case4 old as => simp [Act.proj, MPSCSignal.invoke]
  | case5 j old as hj ih => simp [Act.proj, MPSCSignal.invoke, hj, ih]
  | case6 b as hp hr ih =>
      cases b with
      | inner a =>
          cases a with
          | parked j => exact absurd rfl (hp j)
          | suspendRetract j old => exact absurd rfl (hr j old)
          | _ => simp [Act.proj, MPSCSignal.invoke, ih]
      | _ => simp [Act.proj, MPSCSignal.invoke, ih]

/-- No step of an activation looks at the other activations. -/
theorem actStep_acts (sig : MPSCSignal.State (n + 2)) (as : List MPSCSignal.Act) (a : MPSCSignal.Act) :
    MPSCSignal.actStep { sig with acts := as } a =
      (MPSCSignal.actStep sig a).map fun r => ({ r.1 with acts := as }, r.2) := by
  cases a with
  | readyCas k =>
      simp only [MPSCSignal.actStep, Option.map_some]
      split <;> rfl
  | _ => rfl

/-- What a thread's step can be while nobody stops the signal. -/
theorem prodStep_cases (hw : s.sig.word ≠ .stopped) (hp : (s.sig.prod t).stopping = false)
    (hs : prodStep s t = some s') :
    (∃ b, s.sig.prod t = .relExchange b ∧ s.sig.word ≠ .waiting ∧
      s' = { s with sig := { (s.sig.goto t .idle) with word := .signaled, finished := b :: s.sig.finished } }) ∨
    (∃ b, s.sig.prod t = .relExchange b ∧ s.sig.word = .waiting ∧
      s' = { s with sig := { (s.sig.goto t (.relCopy b)) with word := .signaled } }) ∨
    (∃ b k, s.sig.prod t = .relCopy b ∧ s.sig.cont = some k ∧
      s' = { s with sig := s.sig.goto t (.relStore b k) }) ∨
    (∃ b k, s.sig.prod t = .relStore b k ∧
      s' = { s with sig := { (s.sig.goto t (.relInvoke b k)) with word := .idle } }) ∨
    (∃ b k, s.sig.prod t = .relInvoke b k ∧
      s' = { s with
        sig := { (s.sig.goto t .idle) with finished := b :: s.sig.finished }
        acts := resume (t = 0) k s.acts }) := by
  cases hpc : s.sig.prod t with
  | idle => simp [prodStep, hpc, MPSCSignal.prodStep] at hs
  | relExchange b =>
      cases hword : s.sig.word with
      | stopped => exact absurd hword hw
      | waiting =>
          simp only [prodStep, hpc, MPSCSignal.prodStep, hword, Option.map_some, Option.some.injEq] at hs
          exact .inr (.inl ⟨b, rfl, rfl, hs.symm⟩)
      | idle | signaled =>
          simp only [prodStep, hpc, MPSCSignal.prodStep, hword, Option.map_some, Option.some.injEq] at hs
          exact .inl ⟨b, rfl, by simp, hs.symm⟩
  | relCopy b =>
      simp only [prodStep, hpc, MPSCSignal.prodStep] at hs
      cases hc : s.sig.cont with
      | none => rw [hc] at hs; cases hs
      | some k =>
          rw [hc] at hs
          exact .inr (.inr (.inl ⟨b, k, rfl, rfl, (Option.some.inj hs).symm⟩))
  | relStore b k =>
      simp only [prodStep, hpc, MPSCSignal.prodStep, Option.map_some, Option.some.injEq] at hs
      exact .inr (.inr (.inr (.inl ⟨b, k, rfl, hs.symm⟩)))
  | relInvoke b k =>
      simp only [prodStep, hpc, Option.some.injEq] at hs
      exact .inr (.inr (.inr (.inr ⟨b, k, rfl, hs.symm⟩)))
  | relRestore b | stopExchange | stopCopy | stopInvoke k => rw [hpc] at hp; cases hp

/-- A thread's step is the signal's. -/
theorem prodStep_proj (hw : s.sig.word ≠ .stopped) (hp : (s.sig.prod t).stopping = false)
    (hs : prodStep s t = some s') : MPSCSignal.prodStep s.proj t = some s'.proj := by
  rcases prodStep_cases hw hp hs with ⟨b, hpc, hne, rfl⟩ | ⟨b, hpc, hwait, rfl⟩ | ⟨b, k, hpc, hc, rfl⟩ |
    ⟨b, k, hpc, rfl⟩ | ⟨b, k, hpc, rfl⟩
  · simp only [MPSCSignal.prodStep, State.proj, hpc]
    cases hword : s.sig.word with
    | stopped => exact absurd hword hw
    | waiting => exact absurd hword hne
    | idle | signaled => rfl
  · simp only [MPSCSignal.prodStep, State.proj, hpc, hwait]; rfl
  · simp [MPSCSignal.prodStep, State.proj, hpc, hc, MPSCSignal.State.goto]
  · simp [MPSCSignal.prodStep, State.proj, hpc, MPSCSignal.State.goto]
  · simp [MPSCSignal.prodStep, State.proj, hpc, map_proj_resume, MPSCSignal.State.goto]

/-! ## §5 — the invariant. -/

/-- What is known of an activation: before it publishes, a callback or a signal will stop it from sleeping; once it
has, a callback is to come or somebody holds the continuation. -/
def Act.Cover (s : State n) : Act → Prop
  | .inline _ => (s.sig.prod 1).fresh = true ∨ s.sig.word = .signaled
  | .inner (.suspendWrite k) | .inner (.suspendExchange k) =>
      k ∈ s.callbacks ∨ (s.sig.prod 0).fresh = true ∨ s.sig.word = .signaled
  | .inner (.suspendRetract _ old) =>
      old ≠ .stopped ∧ (s.sig.word = .waiting ∨ ∃ t, (s.sig.prod t).holds = true)
  | .inner (.parked k) =>
      (s.sig.word = .waiting → k ∈ s.callbacks ∨ (s.sig.prod 0).fresh = true) ∧
        (s.sig.word = .waiting ∨ ∃ t, (s.sig.prod t).holds = true)
  | .inner (.outrun _ old) => old ≠ .stopped
  | .inner (.resumeLoad _) => s.stop = false
  | _ => True

structure Inv (s : State n) (g : Ghost (n + 2)) (a : MPSCSignal.Act) : Prop where
  shared : Shared s.proj g a
  recorded : Recorded s.proj g a
  calm : s.sig.word ≠ .stopped ∧ ∀ t, (s.sig.prod t).stopping = false
  cover : ∀ A ∈ s.acts, A.Cover s
  alone : s.cancel ≠ .calling → s.sig.prod 0 = .idle
  emptied : s.cancel = .returned → s.callbacks = []
  stopping : s.stop = false → s.cancel = .idle ∨ s.cancel = .request
  returns : ∀ c ∈ s.completed, c.2.2 = true → c.2.1 = false

theorem Inv.reached (h : Inv s g a) : Reached s := by
  refine ⟨fun hc k hk => ?_, h.returns⟩
  obtain ⟨hsleep, hheld⟩ := h.cover _ hk
  rcases hheld with hw | hheld
  · have hidle := h.alone (by rw [hc]; simp)
    rcases hsleep hw with hm | hf
    · rw [h.emptied hc] at hm; cases hm
    · rw [hidle] at hf; cases hf
  · exact hheld

/-- While a thread holds a continuation, every activation is the one it belongs to or a leftover. -/
theorem Inv.of_holder (h : Inv s g a) (ht : (s.sig.prod t).holds = true) (hA : A ∈ s.acts) :
    A.proj.Left ∨ ∃ k, A.proj.slot = some k := by
  obtain ⟨-, k, hk, -⟩ := h.shared.holder t ht
  rcases h.shared.acts.eq_or (List.mem_map_of_mem hA) with he | hl
  · exact .inr ⟨k, he ▸ hk⟩
  · exact .inl hl

theorem Act.of_proj_left (h : A.proj.Left) : ∃ k old, A = .inner (.outrun k old) := by
  obtain ⟨k, old, he⟩ := h
  cases A with
  | inner a => exact ⟨k, old, by rw [show a = _ from he]⟩
  | _ => cases he

theorem Act.of_proj_slot (h : A.proj.slot = some k) :
    A = .inner (.parked k) ∨ ∃ old, A = .inner (.suspendRetract k old) := by
  cases A with
  | inner a =>
      cases a with
      | parked j => exact .inl (by rw [show j = k by simpa [Act.proj, MPSCSignal.Act.slot] using h])
      | suspendRetract j old =>
          exact .inr ⟨old, by rw [show j = k by simpa [Act.proj, MPSCSignal.Act.slot] using h]⟩
      | _ => cases h
  | _ => cases h

/-! ## §6 — the threads' steps. -/

/-- An exchange of `release()` leaves SIGNALED, which covers every activation; WAITING it takes with it. -/
theorem Act.Cover.exchange (h : A.Cover s) (hstop : s'.stop = s.stop) (hw : s'.sig.word = .signaled)
    (hheld : (s.sig.word = .waiting ∨ ∃ t, (s.sig.prod t).holds = true) → ∃ t, (s'.sig.prod t).holds = true) :
    A.Cover s' := by
  cases A with
  | inline k => exact .inr hw
  | inner a =>
      cases a with
      | suspendWrite k | suspendExchange k => exact .inr (.inr hw)
      | suspendRetract k old => exact ⟨h.1, .inr (hheld h.2)⟩
      | parked k =>
          refine ⟨fun hwait => ?_, .inr (hheld h.2)⟩
          rw [hw] at hwait; cases hwait
      | outrun k old => exact h
      | resumeLoad k => exact hstop.trans h
      | _ => trivial
  | _ => trivial

/-- A step that leaves word and callbacks alone, and takes no call of `release()` away. -/
theorem Act.Cover.same (h : A.Cover s) (hstop : s'.stop = s.stop) (hw : s'.sig.word = s.sig.word)
    (hcb : ∀ k ∈ s.callbacks, k ∈ s'.callbacks ∨ (s'.sig.prod 0).fresh = true)
    (h0 : (s.sig.prod 0).fresh = true → (s'.sig.prod 0).fresh = true)
    (h1 : (s.sig.prod 1).fresh = true → (s'.sig.prod 1).fresh = true)
    (hheld : (∃ t, (s.sig.prod t).holds = true) → ∃ t, (s'.sig.prod t).holds = true) : A.Cover s' := by
  cases A with
  | inline k =>
      rcases h with hf | hs
      · exact .inl (h1 hf)
      · exact .inr (hw.trans hs)
  | inner a =>
      cases a with
      | suspendWrite k | suspendExchange k =>
          rcases h with hm | hf | hs
          · rcases hcb _ hm with hm | hf
            · exact .inl hm
            · exact .inr (.inl hf)
          · exact .inr (.inl (h0 hf))
          · exact .inr (.inr (hw.trans hs))
      | suspendRetract k old => exact ⟨h.1, by rw [hw]; exact h.2.imp id hheld⟩
      | parked k =>
          refine ⟨fun hwait => ?_, by rw [hw]; exact h.2.imp id hheld⟩
          rw [hw] at hwait
          rcases h.1 hwait with hm | hf
          · exact hcb _ hm
          · exact .inr (h0 hf)
      | outrun k old => exact h
      | resumeLoad k => exact hstop.trans h
      | _ => trivial
  | _ => trivial

/-- What the steps outside `cancel()` have to show. -/
theorem Inv.keep (h : Inv s g a) (hsh : Shared s'.proj g' a') (hrec : Recorded s'.proj g' a')
    (hcalm : s'.sig.word ≠ .stopped ∧ ∀ t, (s'.sig.prod t).stopping = false) (hcover : ∀ A ∈ s'.acts, A.Cover s')
    (halone : s.sig.prod 0 = .idle → s'.sig.prod 0 = .idle) (hcancel : s'.cancel = s.cancel) (hstop : s'.stop = s.stop)
    (hcb : s'.callbacks ⊆ s.callbacks ∨ s.stop = false)
    (hret : ∀ c ∈ s'.completed, c ∈ s.completed ∨ (c.2.2 = true → c.2.1 = false)) : Inv s' g' a' where
  shared := hsh
  recorded := hrec
  calm := hcalm
  cover := hcover
  alone hc := halone (h.alone (hcancel ▸ hc))
  emptied hc := by
    rw [hcancel] at hc
    rcases hcb with hsub | hno
    · exact List.subset_nil.mp (h.emptied hc ▸ hsub)
    · rcases h.stopping hno with he | he <;> rw [he] at hc <;> cases hc
  stopping hs := by
    rw [hcancel]; exact h.stopping (hstop ▸ hs)
  returns c hc := by
    rcases hret c hc with hc | hc
    · exact h.returns c hc
    · exact hc

theorem calm_goto {p : Prod} (hcalm : ∀ t, (s.sig.prod t).stopping = false) (hp : p.stopping = false) (u : Fin (n + 2)) :
    ((s.sig.goto t p).prod u).stopping = false := by
  by_cases hut : u = t
  · subst hut; simp [MPSCSignal.State.goto, hp]
  · simp [MPSCSignal.State.goto, hut, hcalm u]

/-- The threads that are where thread `t` is not stay where they are. -/
theorem goto_of_ne (q : Prod → Bool) {u : Fin (n + 2)} (p : Prod) (ht : q (s.sig.prod t) = false)
    (hu : q (s.sig.prod u) = true) : (s.sig.goto t p).prod u = s.sig.prod u := by
  apply Function.update_of_ne
  rintro rfl
  rw [ht] at hu; cases hu

theorem mem_resume {own : Bool} {as : List Act} (h : A ∈ resume own k as) :
    A ∈ as ∨ A = .reset k own ∨ ∃ old, A = .inner (.outrun k old) ∧ .inner (.suspendRetract k old) ∈ as := by
  fun_induction resume own k as with
  | case1 => exact .inr (.inl (List.mem_singleton.mp h))
  | case2 as =>
      rcases List.mem_cons.mp h with rfl | h
      · exact .inr (.inl rfl)
      · exact .inl (List.mem_cons_of_mem _ h)
  | case4 old as =>
      rcases List.mem_cons.mp h with rfl | h
      · exact .inr (.inr ⟨old, rfl, List.mem_cons_self⟩)
      · rcases List.mem_cons.mp h with rfl | h
        · exact .inr (.inl rfl)
        · exact .inl (List.mem_cons_of_mem _ h)
  | case3 j as hj ih | case5 j old as hj ih | case6 b as hp hr ih =>
      rcases List.mem_cons.mp h with rfl | h
      · exact .inl List.mem_cons_self
      · rcases ih h with h | h | ⟨old, he, h⟩
        · exact .inl (List.mem_cons_of_mem _ h)
        · exact .inr (.inl h)
        · exact .inr (.inr ⟨old, he, List.mem_cons_of_mem _ h⟩)

/-- What a thread's step leaves of the cover. -/
theorem Inv.prodCover (h : Inv s g a) (hs : prodStep s t = some s') (hA : A ∈ s'.acts) : A.Cover s' := by
  rcases prodStep_cases h.calm.1 (h.calm.2 t) hs with ⟨b, hpc, hne, rfl⟩ | ⟨b, hpc, hwait, rfl⟩ |
    ⟨b, k, hpc, hc, rfl⟩ | ⟨b, k, hpc, rfl⟩ | ⟨b, k, hpc, rfl⟩
  · -- the exchange finds nobody waiting
    refine (h.cover A hA).exchange rfl rfl ?_
    rintro (hwait | ⟨u, hu⟩)
    · exact absurd hwait hne
    · refine ⟨u, ?_⟩
      show ((s.sig.goto t .idle).prod u).holds = true
      rw [goto_of_ne Prod.holds .idle (by rw [hpc]; rfl) hu]; exact hu
  · -- the exchange takes the registration
    exact (h.cover A hA).exchange rfl rfl fun _ => ⟨t, by simp [MPSCSignal.State.goto, Prod.holds]⟩
  · have hfresh : ∀ u, (s.sig.prod u).fresh = true → ((s.sig.goto t (.relStore b k)).prod u).fresh = true := by
      intro u hu
      rw [goto_of_ne Prod.fresh _ (by rw [hpc]; rfl) hu]; exact hu
    exact (h.cover A hA).same rfl rfl (fun _ hm => .inl hm) (hfresh 0) (hfresh 1) fun _ =>
      ⟨t, by simp [MPSCSignal.State.goto, Prod.holds]⟩
  · -- nobody is about to publish while a thread holds the continuation
    have hheld : ∃ u, ((s.sig.goto t (.relInvoke b k)).prod u).holds = true :=
      ⟨t, by simp [MPSCSignal.State.goto, Prod.holds]⟩
    have hcov := h.cover A hA
    rcases h.of_holder (t := t) (by rw [hpc]; rfl) hA with hl | ⟨j, hj⟩
    · obtain ⟨j, old, rfl⟩ := Act.of_proj_left hl
      exact hcov
    · rcases Act.of_proj_slot hj with rfl | ⟨old, rfl⟩
      · refine ⟨fun hw => ?_, .inr hheld⟩
        cases hw
      · exact ⟨hcov.1, .inr hheld⟩
  · have hslot := h.shared.copied t k (show (s.sig.prod t).copied = some k by rw [hpc]; rfl)
    rcases mem_resume hA with hold | rfl | ⟨old, rfl, hold⟩
    · have hcov := h.cover A hold
      rcases h.of_holder (t := t) (by rw [hpc]; rfl) hold with hl | ⟨j, hj⟩
      · obtain ⟨j, old, rfl⟩ := Act.of_proj_left hl
        exact hcov
      · -- the activation the continuation belongs to has been resumed
        have hmem : A.proj ∈ MPSCSignal.invoke k s.proj.acts := by
          show A.proj ∈ MPSCSignal.invoke k (s.acts.map Act.proj)
          rw [← map_proj_resume]
          exact List.mem_map_of_mem hA
        rcases (MPSCSignal.sole_invoke h.shared.acts hslot).1.eq_or hmem with he | ⟨i, old, he⟩
        · rw [he] at hj; cases hj
        · rw [he] at hj; cases hj
    · trivial
    · exact (h.cover _ hold).1

/-- What a thread's step leaves alone. -/
theorem prodStep_frame (hw : s.sig.word ≠ .stopped) (hp : ∀ t, (s.sig.prod t).stopping = false)
    (hs : prodStep s t = some s') :
    (s.sig.prod 0 = .idle → s'.sig.prod 0 = .idle) ∧ s'.sig.word ≠ .stopped ∧
      (∀ u, (s'.sig.prod u).stopping = false) ∧ s'.cancel = s.cancel ∧ s'.stop = s.stop ∧
      s'.callbacks = s.callbacks ∧ s'.completed = s.completed := by
  have halone : ∀ p : Prod, s.sig.prod t ≠ .idle → s.sig.prod 0 = .idle → (s.sig.goto t p).prod 0 = .idle := by
    intro p hpc h0
    show Function.update s.sig.prod t p 0 = .idle
    rw [Function.update_of_ne, h0]
    rintro rfl
    exact hpc h0
  rcases prodStep_cases hw (hp t) hs with ⟨b, hpc, -, rfl⟩ | ⟨b, hpc, -, rfl⟩ | ⟨b, k, hpc, -, rfl⟩ |
    ⟨b, k, hpc, rfl⟩ | ⟨b, k, hpc, rfl⟩
  · exact ⟨halone _ (by simp [hpc]), by simp, calm_goto hp rfl, rfl, rfl, rfl, rfl⟩
  · exact ⟨halone _ (by simp [hpc]), by simp, calm_goto hp rfl, rfl, rfl, rfl, rfl⟩
  · exact ⟨halone _ (by simp [hpc]), hw, calm_goto hp rfl, rfl, rfl, rfl, rfl⟩
  · exact ⟨halone _ (by simp [hpc]), by simp, calm_goto hp rfl, rfl, rfl, rfl, rfl⟩
  · exact ⟨halone _ (by simp [hpc]), hw, calm_goto hp rfl, rfl, rfl, rfl, rfl⟩

theorem Inv.prodStep (h : Inv s g a) (hs : prodStep s t = some s') : ∃ g' a', Inv s' g' a' := by
  obtain ⟨a', hsh, hrec⟩ := h.shared.prodStep h.recorded (prodStep_proj h.calm.1 (h.calm.2 t) hs)
  obtain ⟨halone, hw, hp, hcancel, hstop, hcb, hc⟩ := prodStep_frame h.calm.1 h.calm.2 hs
  refine ⟨_, a', h.keep hsh hrec ⟨hw, hp⟩ (fun A hA => h.prodCover hs hA) halone hcancel hstop (.inl ?_) ?_⟩
  · rw [hcb]; exact List.Subset.refl _
  · rw [hc]; exact fun c hm => .inl hm

/-! ## §7 — `cancel()`. -/

theorem callRelease_fresh (s : State n) (t : Fin (n + 2)) : ((callRelease s t).sig.prod t).fresh = true := by
  simp [callRelease, MPSCSignal.State.goto, Prod.fresh]

/-- A call of `release()` takes nothing away. -/
theorem Act.Cover.called (h : A.Cover s) (ht : s.sig.prod t = .idle) (hsig : s'.sig = (callRelease s t).sig)
    (hstop : s'.stop = s.stop) (hcb : ∀ k ∈ s.callbacks, k ∈ s'.callbacks ∨ (s'.sig.prod 0).fresh = true) :
    A.Cover s' := by
  have hfresh : ∀ u, (s.sig.prod u).fresh = true → (s'.sig.prod u).fresh = true := by
    intro u hu
    rw [hsig]
    show ((s.sig.goto t _).prod u).fresh = true
    rw [goto_of_ne Prod.fresh _ (by rw [ht]; rfl) hu]; exact hu
  refine h.same hstop (by rw [hsig]; rfl) hcb (hfresh 0) (hfresh 1) ?_
  rintro ⟨u, hu⟩
  refine ⟨u, ?_⟩
  rw [hsig]
  show ((s.sig.goto t _).prod u).holds = true
  rw [goto_of_ne Prod.holds _ (by rw [ht]; rfl) hu]; exact hu

/-- The signal underneath a call of `release()`. -/
theorem Inv.called (h : Inv s g a) (s' : State n) (ht : s.sig.prod t = .idle) (hsig : s'.sig = (callRelease s t).sig)
    (hacts : s'.acts.map Act.proj = s.acts.map Act.proj) :
    (Shared s'.proj g a ∧ Recorded s'.proj g a) ∧
      s'.sig.word ≠ .stopped ∧ ∀ u, (s'.sig.prod u).stopping = false := by
  have hproj : s'.proj = (callRelease s t).proj := by
    simp [State.proj, hsig, hacts, callRelease]
  refine ⟨?_, ?_⟩
  · rw [hproj]
    have m : MPSCSignal.Moves s.proj (callRelease s t).proj t (.relExchange s.sig.awaits) s.proj.word :=
      MPSCSignal.moves_of rfl rfl rfl
    exact ⟨h.shared.outside m rfl (by show (s.sig.prod t).holds = false; rw [ht]; rfl) rfl (.inl rfl),
      h.recorded.thread rfl rfl rfl rfl fun c hc => .inl hc⟩
  · rw [hsig]
    exact ⟨h.calm.1, calm_goto h.calm.2 rfl⟩

theorem Inv.callRelease (h : Inv s g a) (ht : s.sig.prod t = .idle) (h0 : t ≠ 0) :
    Inv (AwaiterWrapper.callRelease s t) g a := by
  obtain ⟨⟨hsh, hrec⟩, hcalm⟩ := h.called _ ht rfl rfl
  refine h.keep hsh hrec hcalm ?_ (fun hidle => ?_) rfl rfl (.inl (List.Subset.refl _)) fun c hc => .inl hc
  · intro A hA
    exact (h.cover A hA).called ht rfl rfl fun k hk => .inl hk
  · show Function.update s.sig.prod t _ 0 = .idle
    rw [Function.update_of_ne h0.symm]; exact hidle

theorem Inv.cancelStep (h : Inv s g a) (hg : NotLate s .cancel) (hs : cancelStep s = some s') : Inv s' g a := by
  have hset : s.cancel ≠ .idle → s.cancel ≠ .request → s.stop = true := by
    intro hi hr
    by_contra hno
    rcases h.stopping (by simpa using hno) with he | he
    · exact hi he
    · exact hr he
  cases hc : s.cancel with
  | idle | returned => simp [AwaiterWrapper.cancelStep, hc] at hs
  | request =>
      -- nobody has passed the test of the flag
      obtain rfl : _ = s' := by simpa [AwaiterWrapper.cancelStep, hc] using hs
      have hnone := hg (by rw [hc]; rfl)
      refine ⟨h.shared, h.recorded, h.calm, fun A hA => ?_, fun _ => h.alone (by simp [hc]), by simp, by simp, h.returns⟩
      have hcov := h.cover A hA
      cases A with
      | inner b =>
          cases b with
          | resumeLoad k => exact absurd rfl (List.any_eq_false.mp hnone _ hA)
          | _ => exact hcov
      | _ => exact hcov
  | next =>
      have h0 := h.alone (by simp [hc])
      have hstop := hset (by simp [hc]) (by simp [hc])
      cases hcb : s.callbacks with
      | nil =>
          obtain rfl : _ = s' := by simpa [AwaiterWrapper.cancelStep, hc, hcb] using hs
          refine ⟨h.shared, h.recorded, h.calm, fun A hA => ?_, fun _ => h0, fun _ => rfl, by simp [hstop], h.returns⟩
          exact (h.cover A hA).same rfl rfl (fun _ hk => .inl (hcb ▸ hk)) id id id
      | cons k rest =>
          obtain rfl : _ = s' := by simpa [AwaiterWrapper.cancelStep, hc, hcb] using hs
          obtain ⟨⟨hsh, hrec⟩, hcalm⟩ := h.called { (AwaiterWrapper.callRelease s 0) with
            callbacks := rest, running := some k, cancel := .calling } h0 rfl rfl
          refine ⟨hsh, hrec, hcalm, fun A hA => ?_, by simp, by simp, ?_, h.returns⟩
          · exact (h.cover A hA).called h0 rfl rfl fun _ _ => .inr (callRelease_fresh s 0)
          · simp [AwaiterWrapper.callRelease, hstop]
  | calling =>
      have hstop := hset (by simp [hc]) (by simp [hc])
      by_cases h0 : s.sig.prod 0 = .idle
      · obtain rfl : _ = s' := by simpa [AwaiterWrapper.cancelStep, hc, h0] using hs
        refine ⟨h.shared, h.recorded, h.calm, fun A hA => ?_, fun _ => h0, by simp, by simp [hstop], h.returns⟩
        exact (h.cover A hA).same rfl rfl (fun _ hk => .inl hk) id id id
      · simp [AwaiterWrapper.cancelStep, hc, h0] at hs

/-! ## §8 — the activations' steps. -/

/-- Beside the live activation only leftovers stand, whose cover is the same in every state. -/
theorem Inv.spliced (h : Inv s g a) (hi : s.acts[i]? = some A) (hlive : ¬ A.proj.Left) {ys : List Act}
    (hys : ∀ B ∈ ys, B.Cover s') : ∀ B ∈ s.acts.take i ++ ys ++ s.acts.drop (i + 1), B.Cover s' := by
  intro B hB
  have hproj : s.proj.acts[i]? = some A.proj := by simp [State.proj, hi]
  simp only [List.append_assoc, List.mem_append] at hB
  have hrest : B ∈ s.acts.take i ∨ B ∈ s.acts.drop (i + 1) → B.Cover s' := by
    intro hmem
    have hold : B ∈ s.acts := hmem.elim List.mem_of_mem_take List.mem_of_mem_drop
    have hl : B.proj.Left := by
      apply h.shared.acts.rest hproj hlive
      simp only [State.proj, ← List.map_take, ← List.map_drop]
      exact hmem.imp List.mem_map_of_mem List.mem_map_of_mem
    obtain ⟨k, old, rfl⟩ := Act.of_proj_left hl
    exact h.cover _ hold
  rcases hB with hB | hB | hB
  · exact hrest (.inl hB)
  · exact hys B hB
  · exact hrest (.inr hB)

theorem proj_splice {sig : MPSCSignal.State (n + 2)} {ys : List Act} (hsig : s'.sig = sig)
    (hacts : s'.acts = s.acts.take i ++ ys ++ s.acts.drop (i + 1)) :
    s'.proj = { sig with acts := s.proj.acts.take i ++ ys.map Act.proj ++ s.proj.acts.drop (i + 1) } := by
  simp [State.proj, hsig, hacts, List.map_take, List.map_drop]

/-- The signal's own steps. -/
theorem Inv.innerStep (h : Inv s g a) {r : MPSCSignal.State (n + 2) × List MPSCSignal.Act}
    (hr : MPSCSignal.actStep s.sig a = some r)
    (hsole : ∀ a', Sole MPSCSignal.Act.Left a' (s.proj.acts.take i ++ [a'] ++ s.proj.acts.drop (i + 1)))
    (hs : s' = { s with sig := r.1, acts := s.acts.take i ++ r.2.map Act.enter ++ s.acts.drop (i + 1) }) :
    ∃ g' a', Shared s'.proj g' a' ∧ Recorded s'.proj g' a' := by
  have hstep : MPSCSignal.actStep s.proj a = some ({ r.1 with acts := s.acts.map Act.proj }, r.2) := by
    rw [State.proj, actStep_acts, hr]; rfl
  have hproj := proj_splice (s := s) (i := i) (congrArg State.sig hs) (congrArg State.acts hs)
  have hmap : (r.2.map Act.enter).map Act.proj = r.2 := by simp [Function.comp_def]
  rw [hmap] at hproj
  obtain ⟨a', hsh, hrec⟩ := h.shared.liveStep h.recorded hstep hproj hsole
  exact ⟨_, a', hsh, hrec⟩

theorem retract_eq {old : Word} (h : old ≠ .stopped) : old.retract = .idle := by
  cases old with
  | stopped => exact absurd rfl h
  | _ => rfl

/-- What the signal's own steps leave of the cover. -/
theorem Inv.innerCover (h : Inv s g a) (s' : State n) (hcov : (Act.inner a).Cover s) (hload : ∀ k, a ≠ .resumeLoad k)
    {r : MPSCSignal.State (n + 2) × List MPSCSignal.Act} (hr : MPSCSignal.actStep s.sig a = some r)
    (hsig : s'.sig = r.1) (hcb : s'.callbacks = s.callbacks) :
    (s'.sig.word ≠ .stopped ∧ s'.sig.prod = s.sig.prod) ∧ ∀ B ∈ r.2.map Act.enter, B.Cover s' := by
  have hw := h.calm.1
  cases a with
  | body =>
      obtain rfl : _ = r := by simpa [MPSCSignal.actStep] using hr
      rw [hsig]
      refine ⟨⟨hw, rfl⟩, ?_⟩
      simp [Act.enter, Act.Cover]
  | readyLoad k =>
      obtain rfl : _ = r := by simpa [MPSCSignal.actStep] using hr
      rw [hsig]
      refine ⟨⟨hw, rfl⟩, ?_⟩
      dsimp only
      split <;> simp [Act.enter, Act.Cover]
  | readyLoad2 k =>
      obtain rfl : _ = r := by simpa [MPSCSignal.actStep] using hr
      rw [hsig]
      refine ⟨⟨hw, rfl⟩, ?_⟩
      simp [hw, Act.enter, Act.Cover]
  | readyCas k =>
      obtain rfl : _ = r := by simpa [MPSCSignal.actStep] using hr
      rw [hsig]
      refine ⟨?_, by simp [Act.enter, Act.Cover]⟩
      dsimp only
      split
      · simp
      · exact ⟨hw, rfl⟩
  | suspendWrite k =>
      obtain rfl : _ = r := by simpa [MPSCSignal.actStep] using hr
      refine ⟨by rw [hsig]; exact ⟨hw, rfl⟩, ?_⟩
      intro B hB
      obtain rfl : B = .inner (.suspendExchange k) := by simpa [Act.enter] using hB
      show _ ∨ _ ∨ _
      rw [hsig, hcb]
      exact hcov
  | suspendExchange k =>
      obtain rfl : _ = r := by simpa [MPSCSignal.actStep] using hr
      refine ⟨by rw [hsig]; simp, ?_⟩
      intro B hB
      by_cases hidle : s.sig.word = .idle
      · -- it sleeps: its callback has not run, or a call of the callback has its exchange to do
        obtain rfl : B = .inner (.parked k) := by simpa [hidle, Act.enter] using hB
        refine ⟨fun _ => ?_, .inl (by rw [hsig])⟩
        rw [hsig, hcb]
        rcases hcov with hk | hf | hs
        · exact .inl hk
        · exact .inr hf
        · rw [hidle] at hs; cases hs
      · obtain rfl : B = .inner (.suspendRetract k s.sig.word) := by simpa [hidle, Act.enter] using hB
        exact ⟨hw, .inl (by rw [hsig])⟩
  | suspendRetract k old =>
      obtain rfl : _ = r := by simpa [MPSCSignal.actStep] using hr
      have hretract : old.retract = .idle := retract_eq hcov.1
      have hword : s'.sig.word = .idle := by rw [hsig]; exact hretract
      refine ⟨⟨by rw [hword]; simp, by rw [hsig]⟩, ?_⟩
      intro B hB
      by_cases hwait : s.sig.word = .waiting
      · obtain rfl : B = .reset k false := by simpa [hwait, Act.enter] using hB
        trivial
      · obtain rfl : B = .inner (.parked k) := by simpa [hwait, Act.enter] using hB
        refine ⟨fun hw' => ?_, .inr ?_⟩
        · rw [hword] at hw'; cases hw'
        · rw [hsig]
          exact hcov.2.resolve_left hwait
  | parked k => simp [MPSCSignal.actStep] at hr
  | outrun k old => exact absurd ⟨k, old, rfl⟩ h.shared.live
  | resumeLoad k => exact absurd rfl (hload k)

/-- A step of the wrapper that the signal does not see. -/
theorem Inv.stutter (h : Inv s g a) (hi : s.acts[i]? = some A) (hlive : A.proj = a)
    (hsole : ∀ a', Sole MPSCSignal.Act.Left a' (s.proj.acts.take i ++ [a'] ++ s.proj.acts.drop (i + 1)))
    (hsig : s'.sig = s.sig) (hacts : s'.acts = s.acts.take i ++ [B] ++ s.acts.drop (i + 1)) (hcov : B.Cover s')
    (hslot : a.slot = none) (hopen : ∀ k, B.proj.opens = some k → a.opens = some k)
    (hcont : B.proj = a ∨ B.proj.written = none) (hB : ¬ B.proj.Left)
    (hcancel : s'.cancel = s.cancel) (hstop : s'.stop = s.stop) (hcb : s'.callbacks ⊆ s.callbacks ∨ s.stop = false)
    (hret : ∀ c ∈ s'.completed, c ∈ s.completed ∨ (c.2.2 = true → c.2.1 = false)) : ∃ g' a', Inv s' g' a' := by
  have hproj := proj_splice hsig hacts
  have hps : s'.proj.acts = s.proj.acts.take i ++ [B.proj] ++ s.proj.acts.drop (i + 1) := by rw [hproj]; rfl
  refine ⟨g, B.proj, h.keep ?_ ?_ (by rw [hsig]; exact h.calm) ?_ (by rw [hsig]; exact id) hcancel hstop hcb hret⟩
  · refine h.shared.running hslot (by rw [hps]; exact hsole _) hB (by rw [hproj]; rfl) ?_ ?_
    · intro k hk
      rcases hcont with he | he
      · rw [hproj]
        exact h.shared.cont k (he ▸ hk)
      · rw [he] at hk; cases hk
    · rw [hproj]
      exact (h.shared.free hslot).2
  · exact h.recorded.forward hps hB (by rw [hproj]; rfl) rfl rfl rfl hopen
  · rw [hacts]
    refine h.spliced hi (by rw [hlive]; exact h.shared.live) ?_
    intro C hC
    obtain rfl := List.mem_singleton.mp hC
    exact hcov

theorem actStep_inner (s : State n) (hload : ∀ k, a ≠ .resumeLoad k) :
    actStep s (.inner a) = (MPSCSignal.actStep s.sig a).map fun r => ({ s with sig := r.1 }, r.2.map Act.enter) := by
  cases a with
  | resumeLoad k => exact absurd rfl (hload k)
  | _ => rfl

theorem Inv.inner (h : Inv s g a) (hi : s.acts[i]? = some (.inner a)) (hload : ∀ k, a ≠ .resumeLoad k)
    (hsole : ∀ a', Sole MPSCSignal.Act.Left a' (s.proj.acts.take i ++ [a'] ++ s.proj.acts.drop (i + 1)))
    {r : State n × List Act} (hstep : actStep s (.inner a) = some r)
    (hs : s' = { r.1 with acts := s.acts.take i ++ r.2 ++ s.acts.drop (i + 1) }) : ∃ g' a', Inv s' g' a' := by
  rw [actStep_inner s hload] at hstep
  obtain ⟨q, hq, rfl⟩ := Option.map_eq_some_iff.mp hstep
  have hcov := h.cover _ (List.mem_of_getElem? hi)
  obtain ⟨⟨hw, hprod⟩, hcover⟩ := h.innerCover s' hcov hload hq (by rw [hs]) (by rw [hs])
  obtain ⟨g', a', hsh, hrec⟩ := h.innerStep hq hsole hs
  refine ⟨g', a', h.keep hsh hrec ⟨hw, by rw [hprod]; exact h.calm.2⟩ ?_ (by rw [hprod]; exact id) (by rw [hs])
    (by rw [hs]) (.inl (by rw [hs]; exact List.Subset.refl _)) (by rw [hs]; exact fun c hc => .inl hc)⟩
  have hall := h.spliced hi h.shared.live hcover
  intro B hB
  apply hall
  rwa [hs] at hB

/-- A callback that runs inside its constructor. -/
theorem Inv.inlined (h : Inv s g a) (hi : s.acts[i]? = some (.emplace k)) (hlive : Act.proj (.emplace k) = a)
    (hp : s.sig.prod 1 = .idle)
    (hs : s' = { (AwaiterWrapper.callRelease s 1) with acts := s.acts.take i ++ [.inline k] ++ s.acts.drop (i + 1) }) : Inv s' g a := by
  have hmap : s'.acts.map Act.proj = s.acts.map Act.proj := by
    obtain ⟨hlt, hget⟩ := List.getElem?_eq_some_iff.mp hi
    have hsplit : s.acts = s.acts.take i ++ [.emplace k] ++ s.acts.drop (i + 1) := by
      rw [List.append_assoc, List.singleton_append, ← hget, ← List.drop_eq_getElem_cons hlt, List.take_append_drop]
    have hproj : s.acts.map Act.proj = (s.acts.take i ++ [Act.emplace k] ++ s.acts.drop (i + 1)).map Act.proj :=
      congrArg _ hsplit
    rw [hs, hproj]
    simp [Act.proj]
  obtain ⟨⟨hsh, hrec⟩, hcalm⟩ := h.called s' hp (by rw [hs]) hmap
  subst hs
  refine h.keep hsh hrec hcalm ?_ ?_ rfl rfl (.inl (List.Subset.refl _)) fun c hc => .inl hc
  · refine h.spliced hi (by rw [hlive]; exact h.shared.live) fun B hB => ?_
    obtain rfl := List.mem_singleton.mp hB
    exact .inl (callRelease_fresh s 1)
  · intro hidle
    show Function.update s.sig.prod 1 (.relExchange s.sig.awaits) 0 = .idle
    rw [Function.update_of_ne (by simp)]; exact hidle

/-- What a step of the live activation keeps. -/
theorem Inv.liveStep (h : Inv s g a) (hi : s.acts[i]? = some A) (hlive : A.proj = a)
    (hsole : ∀ a', Sole MPSCSignal.Act.Left a' (s.proj.acts.take i ++ [a'] ++ s.proj.acts.drop (i + 1)))
    {r : State n × List Act} (hstep : actStep s A = some r)
    (hs : s' = { r.1 with acts := s.acts.take i ++ r.2 ++ s.acts.drop (i + 1) }) : ∃ g' a', Inv s' g' a' := by
  have hcov := h.cover A (List.mem_of_getElem? hi)
  cases A with
  | inner b =>
      obtain rfl : b = a := hlive
      by_cases hload : ∃ k, b = .resumeLoad k
      · obtain ⟨k, rfl⟩ := hload
        obtain rfl : _ = r := by simpa [actStep] using hstep
        subst hs
        refine h.stutter (B := .inner .body) hi rfl hsole rfl rfl trivial rfl (by simp [Act.proj, MPSCSignal.Act.opens])
          (.inr rfl) (by rintro ⟨j, o, hj⟩; cases hj) rfl rfl (.inl (List.Subset.refl _)) ?_
        intro c hc
        rcases List.mem_cons.mp hc with rfl | hc
        · refine .inr fun hstop => ?_
          rw [show s.stop = false from hcov] at hstop; cases hstop
        · exact .inl hc
      · exact h.inner hi (fun k hk => hload ⟨k, hk⟩) hsole hstep hs
  | check k =>
      subst hlive
      obtain rfl : _ = r := by simpa [actStep] using hstep
      subst hs
      refine h.stutter hi rfl hsole rfl rfl ?_ rfl ?_ ?_ ?_ rfl rfl (.inl (List.Subset.refl _)) fun c hc => .inl hc
      all_goals split <;> simp [Act.Cover, Act.proj, MPSCSignal.Act.opens, MPSCSignal.Act.written, MPSCSignal.Act.Left]
  | emplace k =>
      by_cases hstop : s.stop = true
      · by_cases hp : s.sig.prod 1 = .idle
        · obtain rfl : _ = r := by simpa [actStep, hstop, hp] using hstep
          exact ⟨g, a, h.inlined hi hlive hp hs⟩
        · simp [actStep, hstop, hp] at hstep
      · subst hlive
        rw [actStep, if_neg hstop] at hstep
        obtain rfl := Option.some.inj hstep
        subst hs
        exact h.stutter (B := .inner (.suspendWrite k)) hi rfl hsole rfl rfl (.inl List.mem_cons_self) rfl (fun _ hj => hj)
          (.inl rfl) (by rintro ⟨j, o, hj⟩; cases hj) rfl rfl (.inr (by simpa using hstop)) fun c hc => .inl hc
  | inline k =>
      by_cases hp : s.sig.prod 1 = .idle
      · subst hlive
        obtain rfl : _ = r := by simpa [actStep, hp] using hstep
        subst hs
        -- the stop callback has run: the inner signal shows it
        have hsig : s.sig.word = .signaled := by
          rcases hcov with hf | hsig
          · rw [hp] at hf; cases hf
          · exact hsig
        exact h.stutter (B := .inner (.suspendWrite k)) hi rfl hsole rfl rfl (.inr (.inr hsig)) rfl (fun _ hj => hj)
          (.inl rfl) (by rintro ⟨j, o, hj⟩; cases hj) rfl rfl (.inl (List.Subset.refl _)) fun c hc => .inl hc
      · simp [actStep, hp] at hstep
  | reset k own =>
      by_cases hwait : s.running = some k ∧ own = false
      · simp [actStep, hwait] at hstep
      · subst hlive
        obtain rfl : _ = r := by simpa [actStep, hwait] using hstep
        subst hs
        exact h.stutter (B := .recheck k) hi rfl hsole rfl rfl trivial rfl (fun _ hj => hj)
          (.inl rfl) (by rintro ⟨j, o, hj⟩; cases hj) rfl rfl (.inl List.erase_subset) fun c hc => .inl hc
  | recheck k =>
      subst hlive
      by_cases hstop : s.stop = true
      · rw [actStep, if_pos hstop] at hstep
        obtain rfl := Option.some.inj hstep
        subst hs
        refine h.stutter (B := .inner .body) hi rfl hsole rfl rfl trivial rfl (by simp [Act.proj, MPSCSignal.Act.opens])
          (.inr rfl) (by rintro ⟨j, o, hj⟩; cases hj) rfl rfl (.inl (List.Subset.refl _)) ?_
        intro c hc
        rcases List.mem_cons.mp hc with rfl | hc
        · exact .inr fun _ => rfl
        · exact .inl hc
      · rw [actStep, if_neg hstop] at hstep
        obtain rfl := Option.some.inj hstep
        subst hs
        exact h.stutter (B := .inner (.resumeLoad k)) hi rfl hsole rfl rfl (show s.stop = false by simpa using hstop) rfl
          (fun _ hj => hj)
          (.inl rfl) (by rintro ⟨j, o, hj⟩; cases hj) rfl rfl (.inl (List.Subset.refl _)) fun c hc => .inl hc

/-- A leftover's second exchange on IDLE changes nothing. -/
theorem Inv.leftStep (h : Inv s g a) (hi : s.acts[i]? = some A) (hleft : A.proj.Left) (hidle : s.sig.word = .idle)
    (hsole : ∀ ys, (∀ y ∈ ys, y.Left) →
      Sole MPSCSignal.Act.Left a (s.proj.acts.take i ++ ys ++ s.proj.acts.drop (i + 1)))
    {r : State n × List Act} (hstep : actStep s A = some r)
    (hs : s' = { r.1 with acts := s.acts.take i ++ r.2 ++ s.acts.drop (i + 1) }) : ∃ g' a', Inv s' g' a' := by
  have hcov := h.cover A (List.mem_of_getElem? hi)
  obtain ⟨k, old, rfl⟩ := Act.of_proj_left hleft
  have hretract : old.retract = .idle := retract_eq hcov
  obtain rfl : _ = r := by simpa [actStep, MPSCSignal.actStep, hidle, hretract] using hstep
  have hword : s'.sig.word = s.sig.word := by rw [hs, hidle]
  have hacts : s'.acts = s.acts.take i ++ [] ++ s.acts.drop (i + 1) := by rw [hs]
  have hproj := proj_splice (s := s) (congrArg State.sig hs) hacts
  obtain ⟨hsh, hrec⟩ := h.shared.leftStep h.recorded hleft (show s.sig.word ≠ .waiting by simp [hidle])
    (show MPSCSignal.actStep s.proj (.outrun k old) = some ({ s.proj with word := .idle }, []) by
      simp [MPSCSignal.actStep, State.proj, hidle, hretract]) hproj hsole
  refine ⟨_, a, h.keep hsh hrec ⟨by rw [hword]; exact h.calm.1, by rw [hs]; exact h.calm.2⟩ ?_ (by rw [hs]; exact id)
    (by rw [hs]) (by rw [hs]) (.inl (by rw [hs]; exact List.Subset.refl _)) (by rw [hs]; exact fun c hc => .inl hc)⟩
  intro B hB
  have hold : B ∈ s.acts := by
    rw [hacts] at hB
    simpa using mem_of_mem_splice hB
  exact (h.cover B hold).same (by rw [hs]) hword (by rw [hs]; exact fun _ hk => .inl hk) (by rw [hs]; exact id)
    (by rw [hs]; exact id) (by rw [hs]; exact id)

/-! ## §9 — whole runs. -/

/-- What a run in which nothing comes late keeps. -/
def Covered (s : State n) : Prop := ∃ g a, Inv s g a

theorem act_parts (hs : step s (.act i) = some s') :
    ∃ A r, s.acts[i]? = some A ∧ actStep s A = some r ∧
      s' = { r.1 with acts := s.acts.take i ++ r.2 ++ s.acts.drop (i + 1) } := by
  simp only [step] at hs
  split at hs
  · cases hs
  · rename_i A hA
    obtain ⟨r, hr, rfl⟩ := Option.map_eq_some_iff.mp hs
    exact ⟨A, r, hA, hr, rfl⟩

theorem Inv.step {act : Action n} (h : Inv s g a) (hg : NotLate s act) (hs : step s act = some s') :
    Covered s' := by
  cases act with
  | callRelease t =>
      simp only [AwaiterWrapper.step] at hs
      split at hs
      · rename_i hp
        obtain rfl := Option.some.inj hs
        exact ⟨g, a, h.callRelease hp (by simp [producer])⟩
      · cases hs
  | callCancel =>
      simp only [AwaiterWrapper.step] at hs
      split at hs
      · rename_i hc
        obtain rfl := Option.some.inj hs
        refine ⟨g, a, h.shared, h.recorded, h.calm, fun A hA => ?_, fun _ => h.alone (by simp [hc]), by simp, by simp,
          h.returns⟩
        exact (h.cover A hA).same rfl rfl (fun _ hk => .inl hk) id id id
      · cases hs
  | cancel => exact ⟨g, a, h.cancelStep hg hs⟩
  | prod t => exact h.prodStep hs
  | act i =>
      obtain ⟨A, r, hi, hstep, hs⟩ := act_parts hs
      have hproj : s.proj.acts[i]? = some A.proj := by simp [State.proj, hi]
      rcases h.shared.acts.splice hproj with ⟨hlive, hsole⟩ | ⟨hleft, hsole⟩
      · exact h.liveStep hi hlive hsole hstep hs
      · refine h.leftStep hi hleft (hg A hi ?_) hsole hstep hs
        obtain ⟨k, old, rfl⟩ := Act.of_proj_left hleft
        rfl

theorem inv_init (n : Nat) : Inv (init n) (MPSCSignal.ghost (n + 2)) .body := by
  obtain ⟨a, hsh, hrec⟩ : MPSCSignal.Once (MPSCSignal.init (n + 2), MPSCSignal.ghost (n + 2)) := MPSCSignal.once_init
  obtain rfl : MPSCSignal.Act.body = a := by
    rcases hsh.acts.eq_or (b := .body) (by simp [MPSCSignal.init]) with he | ⟨k, old, he⟩
    · exact he
    · cases he
  exact ⟨hsh, hrec, ⟨by simp [init, MPSCSignal.init], fun _ => rfl⟩, by simp [init, Act.Cover], fun _ => rfl,
    fun _ => rfl, fun _ => .inl rfl, by simp [init]⟩

/-- **Cancellation reaches the consumer** in every run in which nothing comes late. -/
theorem cancellation_reaches_of_not_late (n : Nat) (s : State n) (h : Run step NotLate (init n) s) : Reached s := by
  have hcovered : Covered s := by
    refine h.invariant ?_ ⟨_, _, inv_init n⟩
    rintro s act s' ⟨g, a, hinv⟩ hg hs
    exact hinv.step hg hs
  obtain ⟨g, a, hinv⟩ := hcovered
  exact hinv.reached

/-- The consumer sleeps; `cancel()` runs its callback, which takes the registration and resumes it. -/
def cancelWakes : List (Action n) :=
  List.flatten [List.replicate 7 (.act 0), [.callCancel, .cancel, .cancel], List.replicate 4 (.prod 0),
    [.cancel, .cancel], List.replicate 2 (.act 0)]

theorem cancellation_reaches_of_cancelWakes :
    ∃ s, Run step NotLate (init 1) s ∧ s.cancel = .returned ∧ s.completed = [(⟨0, false⟩, false, true)] ∧ Reached s := by
  have hexec : (exec (guarded step NotLate) (init 1) cancelWakes).map (fun s => (s.cancel, s.completed)) =
      some (.returned, [(⟨0, false⟩, false, true)]) := by decide
  obtain ⟨s, hs, hp⟩ := Option.map_eq_some_iff.mp hexec
  simp only [Prod.mk.injEq] at hp
  have hrun := run_of_exec_guarded hs
  exact ⟨s, hrun, hp.1, hp.2, cancellation_reaches_of_not_late 1 s hrun⟩

/-- A `release()` wakes the coroutine under its running `await_suspend`; it awaits again and registers its callback;
`cancel()` runs the callback, which puts SIGNALED in; the old `await_suspend`'s second exchange wipes it out. -/
def wipedOut (t : Fin n) : List (Action n) :=
  List.flatten [List.replicate 6 (.act 0), [.callRelease t, .prod (producer t), .act 0, .callRelease t],
    List.replicate 4 (.prod (producer t)), List.replicate 8 (.act 1), [.callCancel, .cancel, .cancel, .prod 0, .cancel, .cancel],
    List.replicate 3 (.act 0)]

theorem cancellation_is_lost : ¬ ∀ (n : Nat) (s : State n), Reachable step (init n) s → Reached s := by
  intro h
  have hexec : (exec step (init 1) (wipedOut 0)).map (fun s => (s.cancel, s.acts, s.sig.prod 0, s.sig.prod 1, s.sig.prod 2)) =
      some (.returned, [.inner (.parked ⟨1, false⟩)], .idle, .idle, .idle) := by decide
  obtain ⟨s, hs, hp⟩ := Option.map_eq_some_iff.mp hexec
  simp only [Prod.mk.injEq] at hp
  obtain ⟨hc, hacts, h0, h1, h2⟩ := hp
  obtain ⟨t, ht⟩ := (h 1 s (reachable_of_exec hs)).1 hc ⟨1, false⟩ (by rw [hacts]; simp)
  have hidle : s.sig.prod t = .idle := by
    match t with
    | 0 => exact h0
    | 1 => exact h1
    | 2 => exact h2
  rw [hidle] at ht; cases ht


end NetCpp.Coro.AwaiterWrapper
