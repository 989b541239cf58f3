/-
# NetCpp.Coro.Executor — `ThreadPoolExecutor` runs every accepted task exactly once.

`include/xsl/coro/core/executor.h` and `src/coro/core/executor.cpp`.  One pool: its queue, its stop flag, its workers
and the condition variable, on which a notification is a step of its own after the lock section it belongs to.  A
worker that waits is woken by a notification or by nothing at all, and tests again; a notification that finds
nobody waiting is lost.  Nobody is needed to remember it: a worker that is not waiting has its test still before it.

The pool is stopped through its handle, which can be moved but not copied.  The one handle object that holds the
pool is part of the state, so that a call of `schedule` needs a handle to be called on.
-/
import NetCpp.Lib.Transition

namespace NetCpp.Coro.Executor

open NetCpp.Lib

/-! ## §1 — the pool. -/

/-- Where a worker is: before the lock section of its loop, blocked in `cv.wait`, with a task in hand, or gone. -/
inductive Worker
  | testing
  | waiting
  | holding (t : Nat)
  | exited
deriving DecidableEq, Repr

/-- A pool of `n + 1` workers.  Tasks are numbered in the order in which they are accepted; `ones` and `alls` are the
notifications that are still to be sent. -/
structure State (n : Nat) where
  tasks : List Nat
  stop : Bool
  workers : Fin (n + 1) → Worker
  holder : Option Nat
  accepted : Nat
  ran : List Nat
  ones : Nat
  alls : Nat

/-- The pool of a handle that was just constructed. -/
def State.init (n h : Nat) : State n := ⟨[], false, fun _ => .testing, some h, 0, [], 0, 0⟩

inductive Action (n : Nat)
  /-- `schedule` on a handle: the lock section. -/
  | schedule (h : Nat)
  /-- A handle constructed from, or assigned from, another one; the end of a handle. -/
  | moveConstruct (h h' : Nat)
  | moveAssign (h h' : Nat)
  | destroy (h : Nat)
  /-- `notify_one`, with the worker it wakes, and `notify_all`. -/
  | notifyOne (w : Option (Fin (n + 1)))
  | notifyAll
  /-- A worker: the lock section of its loop, a wake-up without a notification, its task. -/
  | loop (i : Fin (n + 1))
  | spurious (i : Fin (n + 1))
  | run (i : Fin (n + 1))

namespace State

variable {n : Nat}

def setWorker (s : State n) (i : Fin (n + 1)) (w : Worker) : State n :=
  { s with workers := Function.update s.workers i w }

/-- `_signal_stop`: the lock section.  The handle lets go of the pool. -/
def signalStop (s : State n) : State n := { s with stop := true, alls := s.alls + 1, holder := none }

def push (s : State n) : State n :=
  { s with tasks := s.tasks ++ [s.accepted], accepted := s.accepted + 1, ones := s.ones + 1 }

/-- The lock section of a worker: `cv.wait` goes through when there is a task or the pool is stopped. -/
def loop (s : State n) (i : Fin (n + 1)) : State n :=
  match s.tasks with
  | [] => s.setWorker i (if s.stop then .exited else .waiting)
  | t :: ts => { s.setWorker i (.holding t) with tasks := ts }

/-- Every blocked worker tests again. -/
def wakeAll (s : State n) : State n :=
  { s with workers := fun i => if s.workers i = .waiting then .testing else s.workers i }

end State

def step {n : Nat} (s : State n) : Action n → Option (State n)
  | .schedule h => if s.holder = some h then some s.push else none
  | .moveConstruct h h' =>
      if s.holder = some h then none else some (if s.holder = some h' then { s with holder := some h } else s)
  | .moveAssign h h' =>
      if h = h' then some s
      else if s.holder = some h then some s.signalStop
      else some (if s.holder = some h' then { s with holder := some h } else s)
  | .destroy h => some (if s.holder = some h then s.signalStop else s)
  | .notifyOne w =>
      if s.ones = 0 then none
      else
        match w with
        | some i => if s.workers i = .waiting then some { s.setWorker i .testing with ones := s.ones - 1 } else none
        | none => if ∀ i, s.workers i ≠ .waiting then some { s with ones := s.ones - 1 } else none
  | .notifyAll => if s.alls = 0 then none else some { s.wakeAll with alls := s.alls - 1 }
  | .loop i => if s.workers i = .testing then some (s.loop i) else none
  | .spurious i => if s.workers i = .waiting then some (s.setWorker i .testing) else none
  | .run i =>
      match s.workers i with
      | .holding t => some { s.setWorker i .testing with ran := s.ran ++ [t] }
      | _ => none

/-! ## §2 — the invariant. -/

def Worker.holds (t : Nat) (w : Worker) : Bool := w == .holding t

theorem Worker.holds_holding (t t' : Nat) : (Worker.holding t').holds t = (t' == t) := by
  rw [Bool.eq_iff_iff]
  simp [Worker.holds]

/-- In how many places a task is. -/
def State.places {n : Nat} (s : State n) (t : Nat) : Nat :=
  s.tasks.count t + threadCount (Worker.holds t) s.workers + s.ran.count t

/-- A worker that has its test, or its task and then its test, before it. -/
def Worker.Awake : Worker → Prop
  | .testing | .holding _ => True
  | .waiting | .exited => False

structure Inv {n : Nat} (s : State n) : Prop where
  once : ∀ t, s.places t = if t < s.accepted then 1 else 0
  served : s.tasks ≠ [] → 0 < s.ones ∨ 0 < s.alls ∨ ∃ i, (s.workers i).Awake
  drained : ∀ i, s.workers i = .exited → s.stop = true ∧ s.tasks = []
  held : s.stop = true → s.holder = none

section Steps

variable {n : Nat} {s : State n} {i : Fin (n + 1)}

theorem inv_init (n h : Nat) : Inv (State.init n h) where
  once t := by
    simp [State.places, State.init, threadCount_const (Worker.holds t) .testing rfl]
  served h := absurd rfl h
  drained i h := by cases h
  held h := by cases h

/-- A worker that goes from one place without a task to another. -/
theorem places_setWorker {w : Worker} (t : Nat) (hold : (s.workers i).holds t = false) (hnew : w.holds t = false) :
    (s.setWorker i w).places t = s.places t := by
  have := threadCount_update (Worker.holds t) s.workers i w
  rw [hold, hnew] at this
  simp only [State.places, State.setWorker]
  simp at this
  omega

theorem exited_of_update {w : Worker} {j : Fin (n + 1)} (hw : w ≠ .exited)
    (h : Function.update s.workers i w j = .exited) : s.workers j = .exited := by
  by_cases hji : j = i
  · subst hji
    rw [Function.update_self] at h
    exact absurd h hw
  · rwa [Function.update_of_ne hji] at h

theorem inv_push (h : Inv s) (hh : ∃ k, s.holder = some k) : Inv s.push where
  once t := by
    have hold : s.tasks.count t + threadCount (Worker.holds t) s.workers + s.ran.count t =
        if t < s.accepted then 1 else 0 := h.once t
    show (s.tasks ++ [s.accepted]).count t + threadCount (Worker.holds t) s.workers + s.ran.count t =
      if t < s.accepted + 1 then 1 else 0
    rw [List.count_append, List.count_singleton]
    by_cases ht : t = s.accepted
    · subst ht
      simp at hold ⊢
      omega
    · have hne : (s.accepted == t) = false := by simpa using Ne.symm ht
      have hiff : t < s.accepted + 1 ↔ t < s.accepted := by omega
      simp only [hne, hiff, Bool.false_eq_true, if_false]
      omega
  served _ := .inl (Nat.succ_pos _)
  drained j hj := by
    -- a worker exits only when the pool is stopped, and then no handle is left to call
    obtain ⟨k, hk⟩ := hh
    have hstop := (h.drained j hj).1
    rw [h.held hstop] at hk
    cases hk
  held hs := by
    obtain ⟨k, hk⟩ := hh
    rw [h.held hs] at hk
    cases hk

theorem inv_signalStop (h : Inv s) : Inv s.signalStop where
  once := h.once
  served _ := .inr (.inl (Nat.succ_pos _))
  drained j hj := ⟨rfl, (h.drained j hj).2⟩
  held _ := rfl

theorem inv_holder (h : Inv s) {k k' : Nat} (hk : s.holder = some k') : Inv { s with holder := some k } where
  once := h.once
  served := h.served
  drained := h.drained
  held hs := by
    rw [h.held hs] at hk
    cases hk

/-- **A worker takes its lock section.** -/
theorem inv_loop (h : Inv s) (hi : s.workers i = .testing) : Inv (s.loop i) := by
  rcases htasks : s.tasks with _ | ⟨t0, ts⟩
  · have hloop : s.loop i = s.setWorker i (if s.stop then .exited else .waiting) := by
      simp only [State.loop, htasks]
    rw [hloop]
    constructor
    · intro t
      rw [places_setWorker t (by rw [hi]; rfl) (by split <;> rfl)]
      exact h.once t
    · intro hne
      exact absurd htasks hne
    · intro j hj
      by_cases hs : s.stop = true
      · exact ⟨hs, htasks⟩
      · change Function.update s.workers i (if s.stop = true then .exited else .waiting) j = _ at hj
        rw [if_neg hs] at hj
        exact h.drained j (exited_of_update (by decide) hj)
    · exact h.held
  · have hloop : s.loop i = { s.setWorker i (.holding t0) with tasks := ts } := by
      simp only [State.loop, htasks]
    rw [hloop]
    constructor
    · intro t
      have hold : s.tasks.count t + threadCount (Worker.holds t) s.workers + s.ran.count t =
          if t < s.accepted then 1 else 0 := h.once t
      have hupd := threadCount_update (Worker.holds t) s.workers i (.holding t0)
      have hnone : (Worker.testing).holds t = false := rfl
      rw [hi, hnone, Worker.holds_holding] at hupd
      rw [htasks, List.count_cons] at hold
      show ts.count t + threadCount (Worker.holds t) (Function.update s.workers i (.holding t0)) + s.ran.count t =
        if t < s.accepted then 1 else 0
      by_cases ht : (t0 == t) = true
      · rw [if_pos ht] at hold
        rw [ht] at hupd
        simp only [Bool.toNat_true, Bool.toNat_false] at hupd
        omega
      · rw [if_neg ht] at hold
        rw [Bool.eq_false_of_not_eq_true ht] at hupd
        simp only [Bool.toNat_false] at hupd
        omega
    · intro _
      refine .inr (.inr ⟨i, ?_⟩)
      show (Function.update s.workers i (.holding t0) i).Awake
      rw [Function.update_self]
      trivial
    · intro j hj
      have hne : s.tasks ≠ [] := by
        rw [htasks]
        exact List.cons_ne_nil _ _
      exact absurd (h.drained j (exited_of_update (by simp) hj)).2 hne
    · exact h.held

/-- A worker that is to test again, whatever else is told of the notifications. -/
theorem inv_testing (h : Inv s) (hi : ∀ t, (s.workers i).holds t = false) {ones : Nat} :
    Inv { s.setWorker i .testing with ones := ones } where
  once t := (places_setWorker t (hi t) rfl).trans (h.once t)
  served _ := by
    refine .inr (.inr ⟨i, ?_⟩)
    show (Function.update s.workers i .testing i).Awake
    rw [Function.update_self]
    trivial
  drained j hj := h.drained j (exited_of_update (by decide) hj)
  held := h.held

/-- **A notification is lost only when nobody waits**: then somebody is awake, or the queue is empty. -/
theorem exists_awake (hex : ∀ j, s.workers j = .exited → s.tasks = []) (hno : ∀ j, s.workers j ≠ .waiting)
    (hne : s.tasks ≠ []) : ∃ j, (s.workers j).Awake := by
  refine ⟨0, ?_⟩
  rcases hw : s.workers 0 with _ | _ | t | _
  · trivial
  · exact absurd hw (hno 0)
  · trivial
  · exact absurd (hex 0 hw) hne

theorem inv_lost (h : Inv s) (hno : ∀ j, s.workers j ≠ .waiting) {ones : Nat} : Inv { s with ones := ones } where
  once := h.once
  served hne := .inr (.inr (exists_awake (fun j hj => (h.drained j hj).2) hno hne))
  drained := h.drained
  held := h.held

theorem inv_notified (h : Inv s) {alls : Nat} : Inv { s.wakeAll with alls := alls } := by
  have hholds : ∀ t j, (s.wakeAll.workers j).holds t = (s.workers j).holds t := by
    intro t j
    show (if s.workers j = .waiting then Worker.testing else s.workers j).holds t = _
    split
    · rename_i hw
      rw [hw]
      rfl
    · rfl
  have hexited : ∀ j, s.wakeAll.workers j = .exited → s.workers j = .exited := by
    intro j hj
    change (if s.workers j = .waiting then Worker.testing else s.workers j) = _ at hj
    split at hj
    · cases hj
    · exact hj
  have hno : ∀ j, s.wakeAll.workers j ≠ .waiting := by
    intro j hj
    change (if s.workers j = .waiting then Worker.testing else s.workers j) = _ at hj
    split at hj
    · cases hj
    · contradiction
  have hdrained : ∀ j, s.wakeAll.workers j = .exited → s.stop = true ∧ s.tasks = [] :=
    fun j hj => h.drained j (hexited j hj)
  refine ⟨fun t => ?_, fun hne => ?_, hdrained, h.held⟩
  · have hcount : threadCount (Worker.holds t) s.wakeAll.workers = threadCount (Worker.holds t) s.workers := by
      unfold threadCount
      congr 1
      apply Finset.filter_congr
      intro j _
      rw [hholds t j]
    refine Eq.trans ?_ (h.once t)
    show s.tasks.count t + threadCount (Worker.holds t) s.wakeAll.workers + s.ran.count t = _
    rw [hcount]
    rfl
  · right
    right
    exact exists_awake (s := s.wakeAll) (fun j hj => (hdrained j hj).2) hno hne

/-- A task has run. -/
theorem inv_run {t0 : Nat} (h : Inv s) (hi : s.workers i = .holding t0) :
    Inv { s.setWorker i .testing with ran := s.ran ++ [t0] } where
  once t := by
    have hold : s.tasks.count t + threadCount (Worker.holds t) s.workers + s.ran.count t =
        if t < s.accepted then 1 else 0 := h.once t
    have hupd := threadCount_update (Worker.holds t) s.workers i .testing
    have hnone : (Worker.testing).holds t = false := rfl
    rw [hi, hnone, Worker.holds_holding] at hupd
    show s.tasks.count t + threadCount (Worker.holds t) (Function.update s.workers i .testing) +
      (s.ran ++ [t0]).count t = if t < s.accepted then 1 else 0
    rw [List.count_append, List.count_singleton]
    by_cases ht : (t0 == t) = true
    · rw [if_pos ht]
      rw [ht] at hupd
      simp only [Bool.toNat_true, Bool.toNat_false] at hupd
      omega
    · rw [if_neg ht]
      rw [Bool.eq_false_of_not_eq_true ht] at hupd
      simp only [Bool.toNat_false] at hupd
      omega
  served _ := by
    refine .inr (.inr ⟨i, ?_⟩)
    show (Function.update s.workers i .testing i).Awake
    rw [Function.update_self]
    trivial
  drained j hj := h.drained j (exited_of_update (by decide) hj)
  held := h.held

/-- **One step.** -/
theorem inv_step {t : State n} {a : Action n} (h : Inv s) (hs : step s a = some t) : Inv t := by
  cases a with
  | schedule k =>
      simp only [step] at hs
      split at hs
      · rename_i hk
        cases hs
        exact inv_push h ⟨k, hk⟩
      · cases hs
  | moveConstruct k k' =>
      simp only [step] at hs
      split at hs
      · cases hs
      · cases hs
        split
        · rename_i hk
          exact inv_holder h hk
        · exact h
  | moveAssign k k' =>
      simp only [step] at hs
      split at hs
      · cases hs
        exact h
      · split at hs
        · cases hs
          exact inv_signalStop h
        · cases hs
          split
          · rename_i hk
            exact inv_holder h hk
          · exact h
  | destroy k =>
      simp only [step] at hs
      cases hs
      split
      · exact inv_signalStop h
      · exact h
  | notifyOne w =>
      simp only [step] at hs
      split at hs
      · cases hs
      · cases w with
        | some i =>
            simp only at hs
            split at hs
            · rename_i hi
              cases hs
              exact inv_testing h fun t => by rw [hi]; rfl
            · cases hs
        | none =>
            -- nobody is inside `wait`: the notification is lost
            simp only at hs
            split at hs
            · rename_i hno
              cases hs
              exact inv_lost h hno
            · cases hs
  | notifyAll =>
      simp only [step] at hs
      split at hs
      · cases hs
      · cases hs
        exact inv_notified h
  | loop i =>
      simp only [step] at hs
      split at hs
      · rename_i hi
        cases hs
        exact inv_loop h hi
      · cases hs
  | spurious i =>
      simp only [step] at hs
      split at hs
      · rename_i hi
        cases hs
        exact inv_testing h fun t => by rw [hi]; rfl
      · cases hs
  | run i =>
      simp only [step] at hs
      split at hs
      · rename_i t0 hi
        cases hs
        exact inv_run h hi
      · cases hs

end Steps

/-- **The invariant holds in every state of every run.** -/
theorem inv_of_reachable {n k : Nat} {s : State n} (h : Reachable step (State.init n k) s) : Inv s :=
  Run.invariant (fun _ _ _ hi _ hs => inv_step hi hs) (inv_init n k) h

/-! ## §3 — every accepted task, exactly once. -/

/-- Two workers wait, two tasks arrive, one notification is lost, and the handle goes with a task still in hand. -/
def busy : List (Action 1) :=
  [.loop 0, .loop 1, .schedule 7, .moveConstruct 8 7, .notifyOne (some 0), .schedule 8, .loop 0, .destroy 8, .spurious 1,
    .loop 1, .run 0, .notifyOne none, .notifyAll, .loop 0, .run 1, .loop 1]

end NetCpp.Coro.Executor
