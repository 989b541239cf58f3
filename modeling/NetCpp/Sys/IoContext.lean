/-
# NetCpp.Sys.IoContext — the poller, its handler map and the devices registered in it.

`include/xsl/sys/io/context/epoll.h` and `src/sys/io/context/epoll.cpp`, with the handler of `include/xsl/asio/io.h`
(`DefaultEpollWrapper`).  One thread is in `run()`; `n` others open devices, `add` them, `deregister` them and call
`shutdown`.  A step is one system call, one critical section of the handler map, or one atomic step of a signal; `add`
keeps the lock over its `epoll_ctl`, so its critical section is two steps, and `shutdown` keeps it shared over its whole
loop.

## The kernel

A descriptor number is free or belongs to one open device.  The number of a closed device may be given out again.
`epoll_pwait` reports up to 10 pairs of a number and an event mask for devices in the interest list; a device leaves
that list by `EPOLL_CTL_DEL`, when it is closed, and when the poller's own descriptor is.

## Devices

A device is built and added by `init_async_device`, once.  Its descriptor is closed with the last reference: the map
holds one, `run()` pins one for the event it handles, and `held` says that its users still do (a coroutine suspended on
one of its signals is a user).

## Signals

Every key of a device has its `MPSCSignal`, which is the machine of `NetCpp.Coro.Signal`, step for step.  `release()` is
called by the poller and by cancellations, `stop()` by a `shutdown`; the calls of different threads interleave with one
another and with the awaits of the coroutine.

`Event.src` is history: the device the event was reported for.
-/
import NetCpp.Lib.Transition
import NetCpp.Lib.AssocMap
import NetCpp.Coro.Signal

namespace NetCpp.Sys.IOContext

open NetCpp.Lib
open NetCpp.Coro

/-! ## §1 — events, program counters, state. -/

/-- `IOM_EVENTS`: a mask of `EPOLL…` bits. -/
abbrev Events := BitVec 32

def Events.IN : Events := 0x001
def Events.OUT : Events := 0x004
def Events.HUP : Events := 0x010

/-- One entry of the array `epoll_pwait` fills. -/
structure Event where
  fd : Nat
  mask : Events
  /-- history: the device it was reported for -/
  src : Nat
  deriving DecidableEq, Repr

/-- Where the thread in `run()` is.  `d` is the handler it has pinned, `batch` what is left of the array. -/
inductive Poller
  | wait
  | loop (batch : List Event)
  | handle (e : Event) (d : Nat) (batch : List Event)
  | publish (e : Event) (d : Nat) (keys : List Events) (batch : List Event)
  | releasing (e : Event) (d : Nat) (k : Events) (keys : List Events) (batch : List Event)
  | removeCtl (e : Event) (d : Nat) (batch : List Event)
  | removeErase (e : Event) (d : Nat) (batch : List Event)
  | exited
  deriving DecidableEq, Repr

/-- Where another thread is inside `add`, `deregister` or `shutdown`. -/
inductive Thread
  | idle
  | addLock (d : Nat)
  | addCtl (d : Nat)
  | addInsert (d : Nat)
  | removeCtl (d : Nat)
  | removeErase (d : Nat)
  | shutStopped
  | shutRequest
  | shutLock
  | shutNotify (todo : List (Nat × Events))
  | shutStopping (d : Nat) (k : Events) (todo : List (Nat × Events))
  | shutClear
  | shutClose
  deriving DecidableEq, Repr

structure State (n : Nat) where
  /-- `fd != -1` -/
  valid : Bool
  /-- `stopped_` -/
  stopped : Bool
  /-- `handlers`: descriptor number to device -/
  handlers : List (Nat × Nat)
  /-- the kernel's interest list -/
  interest : Nat → Option Nat
  /-- the kernel's descriptor table -/
  files : Nat → Option Nat
  /-- devices opened so far; they are numbered in this order -/
  opened : Nat
  /-- `raw()` -/
  fdOf : Nat → Nat
  /-- the keys of the device's `IOSignalStorage` -/
  keys : Nat → List Events
  /-- the signals, with the poller, the threads and the cancellations as producers; those of a device that is still to be
  opened are fresh -/
  sig : Nat → Events → MPSCSignal.State (n + n + 1)
  /-- `ctx_ != nullptr` -/
  bound : Nat → Bool
  /-- `init_async_device` was called for it -/
  added : Nat → Bool
  /-- somebody other than the map and the poller has a reference -/
  held : Nat → Bool
  poller : Poller
  thread : Fin n → Thread

def init (n : Nat) : State n where
  valid := true
  stopped := false
  handlers := []
  interest := fun _ => none
  files := fun _ => none
  opened := 0
  fdOf := fun _ => 0
  keys := fun _ => []
  sig := fun _ _ => MPSCSignal.init _
  bound := fun _ => false
  added := fun _ => false
  held := fun _ => false
  poller := .wait
  thread := fun _ => .idle

/-! ## §2 — the signals. -/

variable {n : Nat}

/-- The poller as a producer. -/
def polling : Fin (n + n + 1) := 0

/-- Thread `t` in `shutdown`, as a producer. -/
def worker (t : Fin n) : Fin (n + n + 1) := (t.castAdd n).succ

/-- A cancellation, as a producer: `request_stop()` runs the callback of an await. -/
def canceller (t : Fin n) : Fin (n + n + 1) := (t.natAdd n).succ

def State.setSig (s : State n) (d : Nat) (k : Events) (sig : MPSCSignal.State (n + n + 1)) : State n :=
  { s with sig := Function.update s.sig d (Function.update (s.sig d) k sig) }

/-- An atomic step of the signal of `k`. -/
def State.signal (s : State n) (d : Nat) (k : Events) (a : MPSCSignal.Action (n + n + 1)) : Option (State n) :=
  (MPSCSignal.step (s.sig d k) a).map (s.setSig d k)

/-! ## §3 — the steps. -/

def State.goto (s : State n) (t : Fin n) (p : Thread) : State n :=
  { s with thread := Function.update s.thread t p }

/-- Inside the critical section of `add`. -/
def Thread.writes : Thread → Bool
  | .addCtl _ | .addInsert _ => true
  | _ => false

/-- Inside the loop of `shutdown`. -/
def Thread.reads : Thread → Bool
  | .shutNotify _ | .shutStopping _ _ _ => true
  | _ => false

/-- `handlers.lock_shared()` can be taken. -/
def State.sharable (s : State n) : Prop := ∀ t, (s.thread t).writes = false

/-- `handlers.lock()` can be taken. -/
def State.lockable (s : State n) : Prop := ∀ t, (s.thread t).writes = false ∧ (s.thread t).reads = false

instance (s : State n) : Decidable s.sharable := inferInstanceAs (Decidable (∀ _, _))
instance (s : State n) : Decidable s.lockable := inferInstanceAs (Decidable (∀ _, _))

/-- `DefaultEpollWrapper::epoll_handle` answers `DELETE`. -/
def deletes (mask : Events) : Bool := mask == 0 || mask &&& Events.HUP != 0

/-- The signals `publish` releases. -/
def published (keys : List Events) (mask : Events) : List Events := keys.filter fun k => mask &&& k != 0

/-- Every signal of every handler, in the order in which `shutdown` stops them. -/
def subscribers (s : State n) : List (Nat × Events) :=
  s.handlers.flatMap fun p => (s.keys p.2).map fun k => (p.2, k)

def pollerStep (s : State n) : Option (State n) :=
  match s.poller with
  | .wait => if s.valid then none else some { s with poller := .exited }
  | .loop [] => some { s with poller := .wait }
  | .loop (e :: batch) =>
      if s.sharable then
        match s.handlers.lookup e.fd with
        | some d => some { s with poller := .handle e d batch }
        | none => some { s with poller := .loop batch }
      else none
  | .handle e d batch =>
      if deletes e.mask then some { s with poller := .removeCtl e d batch }
      else some { s with poller := .publish e d (published (s.keys d) e.mask) batch }
  | .publish e d (k :: ks) batch =>
      (s.signal d k (.callRelease polling)).map fun s => { s with poller := .releasing e d k ks batch }
  | .releasing e d k ks batch =>
      if (s.sig d k).prod polling = .idle then some { s with poller := .publish e d ks batch }
      else s.signal d k (.prod polling)
  | .publish _ _ [] batch => some { s with poller := .loop batch }
  -- remove(fd)
  | .removeCtl e d batch =>
      some { s with poller := .removeErase e d batch, interest := Function.update s.interest e.fd none }
  | .removeErase e _ batch =>
      if s.lockable then some { s with poller := .loop batch, handlers := eraseKey e.fd s.handlers } else none
  | .exited => none

def threadStep (s : State n) (t : Fin n) : Option (State n) :=
  match s.thread t with
  | .idle => none
  -- add
  | .addLock d => if s.lockable then some (s.goto t (.addCtl d)) else none
  | .addCtl d =>
      if s.valid ∧ s.interest (s.fdOf d) = none then
        some { (s.goto t (.addInsert d)) with interest := Function.update s.interest (s.fdOf d) (some d) }
      else some (s.goto t .idle)
  | .addInsert d =>
      some { (s.goto t .idle) with handlers := insertOrAssign (s.fdOf d) d s.handlers }
  -- deregister
  | .removeCtl d =>
      some { (s.goto t (.removeErase d)) with interest := Function.update s.interest (s.fdOf d) none }
  | .removeErase d =>
      if s.lockable then
        some { (s.goto t .idle) with
          handlers := eraseKey (s.fdOf d) s.handlers, bound := Function.update s.bound d false }
      else none
  -- shutdown; what request_stop() releases is released by steps of its own
  | .shutStopped => some { (s.goto t .shutRequest) with stopped := true }
  | .shutRequest => some (s.goto t .shutLock)
  | .shutLock => if s.sharable then some (s.goto t (.shutNotify (subscribers s))) else none
  | .shutNotify ((d, k) :: todo) => (s.signal d k (.callStop (worker t))).map (·.goto t (.shutStopping d k todo))
  | .shutStopping d k todo =>
      if (s.sig d k).prod (worker t) = .idle then some (s.goto t (.shutNotify todo))
      else s.signal d k (.prod (worker t))
  | .shutNotify [] => some (s.goto t .shutClear)
  | .shutClear => if s.lockable then some { (s.goto t .shutClose) with handlers := [] } else none
  | .shutClose => some { (s.goto t .idle) with valid := false, interest := fun _ => none }

/-- The device the call a thread is in was made for. -/
def Thread.device : Thread → Option Nat
  | .addLock d | .addCtl d | .addInsert d | .removeCtl d | .removeErase d => some d
  | _ => none

/-- A coroutine is inside an await of one of the device's signals. -/
def State.inUse (s : State n) (d : Nat) : Bool := (s.keys d).any fun k => (s.sig d k).acts.any (· ≠ .body)

/-- The event being handled and the pinned handler. -/
def Poller.handling : Poller → Option (Event × Nat)
  | .handle e d _ | .publish e d _ _ | .releasing e d _ _ _ | .removeCtl e d _ | .removeErase e d _ => some (e, d)
  | _ => none

/-- The events of the batch that are still to be looked up. -/
def Poller.pending : Poller → List Event
  | .loop batch | .handle _ _ batch | .publish _ _ _ batch | .releasing _ _ _ _ batch | .removeCtl _ _ batch
  | .removeErase _ _ batch => batch
  | _ => []

inductive Action (n : Nat)
  /-- `socket`, `accept`, …: a new device under a free number -/
  | openDevice (fd : Nat) (keys : List Events)
  /-- `init_async_device` -/
  | callAdd (t : Fin n) (d : Nat)
  | callDeregister (t : Fin n) (d : Nat)
  | callShutdown (t : Fin n)
  | thread (t : Fin n)
  /-- `epoll_pwait` returns -/
  | poll (reported : List (Nat × Events))
  | poller
  /-- a coroutine goes on, inside its await of a signal or with a new one -/
  | consumer (d : Nat) (k : Events) (i : Nat)
  /-- a cancellation calls `release()` -/
  | callCancel (t : Fin n) (d : Nat) (k : Events)
  | cancel (t : Fin n) (d : Nat) (k : Events)
  /-- the users' last reference goes -/
  | drop (d : Nat)
  /-- the last reference is gone -/
  | close (d : Nat)
  deriving DecidableEq

def step (s : State n) : Action n → Option (State n)
  | .openDevice fd keys =>
      match s.files fd with
      | some _ => none
      | none => some { s with
          files := Function.update s.files fd (some s.opened)
          opened := s.opened + 1
          fdOf := Function.update s.fdOf s.opened fd
          keys := Function.update s.keys s.opened keys
          held := Function.update s.held s.opened true }
  | .callAdd t d =>
      if s.thread t = .idle ∧ s.held d ∧ s.added d = false then
        some { (s.goto t (.addLock d)) with
          bound := Function.update s.bound d true, added := Function.update s.added d true }
      else none
  | .callDeregister t d =>
      if s.thread t = .idle ∧ s.held d then some (if s.bound d then s.goto t (.removeCtl d) else s) else none
  | .callShutdown t => if s.thread t = .idle then some (if s.valid then s.goto t .shutStopped else s) else none
  | .thread t => threadStep s t
  | .poll reported =>
      if s.poller = .wait ∧ s.valid ∧ reported.length ≤ 10 then
        (reported.mapM fun r => (s.interest r.1).map fun d => ⟨r.1, r.2, d⟩).map fun batch =>
          { s with poller := .loop batch }
      else none
  | .poller => pollerStep s
  | .consumer d k i => if s.held d ∧ k ∈ s.keys d then s.signal d k (.act i) else none
  | .callCancel t d k => if k ∈ s.keys d then s.signal d k (.callRelease (canceller t)) else none
  | .cancel t d k => s.signal d k (.prod (canceller t))
  | .drop d =>
      if s.held d ∧ s.inUse d = false ∧ ∀ t, (s.thread t).device ≠ some d then
        some { s with held := Function.update s.held d false }
      else none
  | .close d =>
      if s.files (s.fdOf d) = some d ∧ s.held d = false ∧ s.handlers.lookup (s.fdOf d) ≠ some d ∧
          s.poller.handling.map Prod.snd ≠ some d then
        some { s with
          files := Function.update s.files (s.fdOf d) none
          interest := Function.update s.interest (s.fdOf d) none }
      else none

/-! ## §4 — what a step can do. -/

/-- The steps of the thread in `run()`, one constructor a branch. -/
inductive Polls (s : State n) : State n → Prop
  | exits (hp : s.poller = .wait) (hv : s.valid = false) : Polls s { s with poller := .exited }
  | ends (hp : s.poller = .loop []) : Polls s { s with poller := .wait }
  | finds {e d batch} (hp : s.poller = .loop (e :: batch)) (hl : s.handlers.lookup e.fd = some d) :
      Polls s { s with poller := .handle e d batch }
  | skips {e batch} (hp : s.poller = .loop (e :: batch)) (hl : s.handlers.lookup e.fd = none) :
      Polls s { s with poller := .loop batch }
  | hint {e d batch} (hp : s.poller = .handle e d batch) (hm : deletes e.mask = true) :
      Polls s { s with poller := .removeCtl e d batch }
  | publishes {e d batch} (hp : s.poller = .handle e d batch) (hm : deletes e.mask = false) :
      Polls s { s with poller := .publish e d (published (s.keys d) e.mask) batch }
  | releases {e d k ks batch sig} (hp : s.poller = .publish e d (k :: ks) batch)
      (hsig : MPSCSignal.step (s.sig d k) (.callRelease polling) = some sig) :
      Polls s { (s.setSig d k sig) with poller := .releasing e d k ks batch }
  | releasing {e d k ks batch sig} (hp : s.poller = .releasing e d k ks batch)
      (hsig : MPSCSignal.step (s.sig d k) (.prod polling) = some sig) : Polls s (s.setSig d k sig)
  | released {e d k ks batch} (hp : s.poller = .releasing e d k ks batch) :
      Polls s { s with poller := .publish e d ks batch }
  | handled {e d batch} (hp : s.poller = .publish e d [] batch) : Polls s { s with poller := .loop batch }
  | delists {e d batch} (hp : s.poller = .removeCtl e d batch) :
      Polls s { s with poller := .removeErase e d batch, interest := Function.update s.interest e.fd none }
  | erases {e d batch} (hp : s.poller = .removeErase e d batch) (hl : s.lockable) :
      Polls s { s with poller := .loop batch, handlers := eraseKey e.fd s.handlers }

/-- The steps of another thread. -/
inductive Works (s : State n) (t : Fin n) : State n → Prop
  | locks {d} (ht : s.thread t = .addLock d) (hl : s.lockable) : Works s t (s.goto t (.addCtl d))
  | lists {d} (ht : s.thread t = .addCtl d) (hv : s.valid = true) (hi : s.interest (s.fdOf d) = none) :
      Works s t { (s.goto t (.addInsert d)) with interest := Function.update s.interest (s.fdOf d) (some d) }
  | fails {d} (ht : s.thread t = .addCtl d) : Works s t (s.goto t .idle)
  | inserts {d} (ht : s.thread t = .addInsert d) :
      Works s t { (s.goto t .idle) with handlers := insertOrAssign (s.fdOf d) d s.handlers }
  | delists {d} (ht : s.thread t = .removeCtl d) :
      Works s t { (s.goto t (.removeErase d)) with interest := Function.update s.interest (s.fdOf d) none }
  | erases {d} (ht : s.thread t = .removeErase d) (hl : s.lockable) :
      Works s t { (s.goto t .idle) with
        handlers := eraseKey (s.fdOf d) s.handlers, bound := Function.update s.bound d false }
  | stops (ht : s.thread t = .shutStopped) : Works s t { (s.goto t .shutRequest) with stopped := true }
  | requests (ht : s.thread t = .shutRequest) : Works s t (s.goto t .shutLock)
  | shares (ht : s.thread t = .shutLock) (hl : s.sharable) : Works s t (s.goto t (.shutNotify (subscribers s)))
  | notifies {d k todo sig} (ht : s.thread t = .shutNotify ((d, k) :: todo))
      (hsig : MPSCSignal.step (s.sig d k) (.callStop (worker t)) = some sig) :
      Works s t ((s.setSig d k sig).goto t (.shutStopping d k todo))
  | stopping {d k todo sig} (ht : s.thread t = .shutStopping d k todo)
      (hsig : MPSCSignal.step (s.sig d k) (.prod (worker t)) = some sig) : Works s t (s.setSig d k sig)
  | stopped {d k todo} (ht : s.thread t = .shutStopping d k todo) (hidle : (s.sig d k).prod (worker t) = .idle) :
      Works s t (s.goto t (.shutNotify todo))
  | notified (ht : s.thread t = .shutNotify []) : Works s t (s.goto t .shutClear)
  | clears (ht : s.thread t = .shutClear) (hl : s.lockable) : Works s t { (s.goto t .shutClose) with handlers := [] }
  | closes (ht : s.thread t = .shutClose) :
      Works s t { (s.goto t .idle) with valid := false, interest := fun _ => none }

variable {s s' : State n} {t : Fin n} {p : Thread} {fd d : Nat} {k : Events}

theorem polls (hs : pollerStep s = some s') : Polls s s' := by
  unfold pollerStep at hs
  split at hs
  · rename_i hp
    split at hs
    · cases hs
    · rename_i hv
      obtain rfl := Option.some.inj hs
      exact .exits hp (by simpa using hv)
  · obtain rfl := Option.some.inj hs
    exact .ends ‹_›
  · split at hs
    · split at hs
      · obtain rfl := Option.some.inj hs
        exact .finds ‹_› ‹_›
      · obtain rfl := Option.some.inj hs
        exact .skips ‹_› ‹_›
    · cases hs
  · split at hs
    · obtain rfl := Option.some.inj hs
      exact .hint ‹_› ‹_›
    · rename_i hp hm
      obtain rfl := Option.some.inj hs
      exact .publishes hp (by simpa using hm)
  · obtain ⟨_, hu, rfl⟩ := Option.map_eq_some_iff.mp hs
    obtain ⟨sig, hsig, rfl⟩ := Option.map_eq_some_iff.mp hu
    exact .releases ‹_› hsig
  · split at hs
    · obtain rfl := Option.some.inj hs
      exact .released ‹_›
    · obtain ⟨sig, hsig, rfl⟩ := Option.map_eq_some_iff.mp hs
      exact .releasing ‹_› hsig
  · obtain rfl := Option.some.inj hs
    exact .handled ‹_›
  · obtain rfl := Option.some.inj hs
    exact .delists ‹_›
  · split at hs
    · obtain rfl := Option.some.inj hs
      exact .erases ‹_› ‹_›
    · cases hs
  · cases hs

theorem works (hs : threadStep s t = some s') : Works s t s' := by
  unfold threadStep at hs
  split at hs
  · cases hs
  · split at hs
    · obtain rfl := Option.some.inj hs
      exact .locks ‹_› ‹_›
    · cases hs
  · rename_i d ht
    split at hs
    · rename_i hg
      obtain rfl := Option.some.inj hs
      exact .lists ht hg.1 hg.2
    · obtain rfl := Option.some.inj hs
      exact .fails ht
  · obtain rfl := Option.some.inj hs
    exact .inserts ‹_›
  · obtain rfl := Option.some.inj hs
    exact .delists ‹_›
  · split at hs
    · obtain rfl := Option.some.inj hs
      exact .erases ‹_› ‹_›
    · cases hs
  · obtain rfl := Option.some.inj hs
    exact .stops ‹_›
  · obtain rfl := Option.some.inj hs
    exact .requests ‹_›
  · split at hs
    · obtain rfl := Option.some.inj hs
      exact .shares ‹_› ‹_›
    · cases hs
  · obtain ⟨_, hu, rfl⟩ := Option.map_eq_some_iff.mp hs
    obtain ⟨sig, hsig, rfl⟩ := Option.map_eq_some_iff.mp hu
    exact .notifies ‹_› hsig
  · split at hs
    · obtain rfl := Option.some.inj hs
      exact .stopped ‹_› ‹_›
    · obtain ⟨sig, hsig, rfl⟩ := Option.map_eq_some_iff.mp hs
      exact .stopping ‹_› hsig
  · obtain rfl := Option.some.inj hs
    exact .notified ‹_›
  · split at hs
    · obtain rfl := Option.some.inj hs
      exact .clears ‹_› ‹_›
    · cases hs
  · obtain rfl := Option.some.inj hs
    exact .closes ‹_›

/-! ## §5 — what the tables say is true.

A number in the map, in the interest list or in the poller's hand is the number of the open device it stands for: each
of them, and every user, keeps the device open. -/

structure Sound (s : State n) : Prop where
  file : ∀ fd d, s.files fd = some d → s.fdOf d = fd ∧ d < s.opened
  map : ∀ fd d, s.handlers.lookup fd = some d → s.files fd = some d
  listed : ∀ fd d, s.interest fd = some d → s.files fd = some d
  pinned : ∀ e d, s.poller.handling = some (e, d) → s.files e.fd = some d
  batch : ∀ e ∈ s.poller.pending, s.fdOf e.src = e.fd ∧ e.src < s.opened
  held : ∀ d, s.held d = true → s.files (s.fdOf d) = some d
  busy : ∀ t d, (s.thread t).device = some d → s.held d = true

/-- The devices, their numbers and their users are left alone. -/
structure Kept (s s' : State n) : Prop where
  files : s'.files = s.files
  fdOf : s'.fdOf = s.fdOf
  opened : s'.opened = s.opened
  held : s'.held = s.held

theorem of_update_none {f : Nat → Option Nat} {i j v : Nat} (h : Function.update f i none j = some v) :
    f j = some v := by
  by_cases hj : j = i
  · subst hj; simp at h
  · rwa [Function.update_of_ne hj] at h

theorem of_update_some {f : Nat → Option Nat} {i j v w : Nat} (h : Function.update f i (some w) j = some v) :
    (j = i ∧ w = v) ∨ f j = some v := by
  by_cases hj : j = i
  · subst hj
    exact .inl ⟨rfl, by simpa using h⟩
  · rw [Function.update_of_ne hj] at h
    exact .inr h

/-- A thread moves. -/
theorem Sound.moveThread (h : Sound s) (kept : Kept s s') (hpoll : s'.poller = s.poller)
    (hthread : s'.thread = Function.update s.thread t p) (hp : ∀ d, p.device = some d → s.held d = true)
    (hmap : ∀ fd d, s'.handlers.lookup fd = some d → s.files fd = some d)
    (hint : ∀ fd d, s'.interest fd = some d → s.files fd = some d) : Sound s' := by
  obtain ⟨hf, hfd, ho, hh⟩ := kept
  refine ⟨?_, by rw [hf]; exact hmap, by rw [hf]; exact hint, ?_, ?_, ?_, ?_⟩
  · rw [hf, hfd, ho]; exact h.file
  · rw [hpoll, hf]; exact h.pinned
  · rw [hpoll, hfd, ho]; exact h.batch
  · rw [hh, hf, hfd]; exact h.held
  · intro u d hu
    rw [hh]
    rw [hthread] at hu
    by_cases hut : u = t
    · subst hut
      rw [Function.update_self] at hu
      exact hp d hu
    · rw [Function.update_of_ne hut] at hu
      exact h.busy u d hu

/-- The poller moves. -/
theorem Sound.movePoller (h : Sound s) (kept : Kept s s') (hthread : s'.thread = s.thread)
    (hpin : ∀ e d, s'.poller.handling = some (e, d) → s.files e.fd = some d)
    (hbatch : ∀ e ∈ s'.poller.pending, s.fdOf e.src = e.fd ∧ e.src < s.opened)
    (hmap : ∀ fd d, s'.handlers.lookup fd = some d → s.files fd = some d)
    (hint : ∀ fd d, s'.interest fd = some d → s.files fd = some d) : Sound s' := by
  obtain ⟨hf, hfd, ho, hh⟩ := kept
  refine ⟨?_, by rw [hf]; exact hmap, by rw [hf]; exact hint, by rw [hf]; exact hpin, by rw [hfd, ho]; exact hbatch,
    ?_, ?_⟩
  · rw [hf, hfd, ho]; exact h.file
  · rw [hh, hf, hfd]; exact h.held
  · rw [hthread, hh]; exact h.busy

/-- A signal moves. -/
theorem Sound.signal {sig : MPSCSignal.State (n + n + 1)} (h : Sound s) : Sound (s.setSig d k sig) :=
  h.movePoller ⟨rfl, rfl, rfl, rfl⟩ rfl h.pinned h.batch h.map h.listed

theorem Sound.poller (h : Sound s) (hs : pollerStep s = some s') : Sound s' := by
  have hbatch := h.batch
  have hpinned := h.pinned
  cases polls hs with
  | exits hp hv => exact h.movePoller ⟨rfl, rfl, rfl, rfl⟩ rfl (by simp [Poller.handling]) (by simp [Poller.pending]) h.map h.listed
  | ends hp => exact h.movePoller ⟨rfl, rfl, rfl, rfl⟩ rfl (by simp [Poller.handling]) (by simp [Poller.pending]) h.map h.listed
  | finds hp hl =>
      rw [hp] at hbatch
      refine h.movePoller ⟨rfl, rfl, rfl, rfl⟩ rfl ?_ ?_ h.map h.listed
      · intro e d he
        obtain ⟨rfl, rfl⟩ : _ = e ∧ _ = d := by simpa [Poller.handling] using he
        exact h.map _ _ hl
      · intro e he
        exact hbatch e (List.mem_cons_of_mem _ he)
  | skips hp hl =>
      rw [hp] at hbatch
      exact h.movePoller ⟨rfl, rfl, rfl, rfl⟩ rfl (by simp [Poller.handling])
        (fun e he => hbatch e (List.mem_cons_of_mem _ he)) h.map h.listed
  | hint hp hm | publishes hp hm | releases hp hsig | released hp =>
      rw [hp] at hbatch hpinned
      exact h.movePoller ⟨rfl, rfl, rfl, rfl⟩ rfl hpinned hbatch h.map h.listed
  | releasing hp hsig => exact h.signal
  | handled hp =>
      rw [hp] at hbatch
      exact h.movePoller ⟨rfl, rfl, rfl, rfl⟩ rfl (by simp [Poller.handling]) hbatch h.map h.listed
  | delists hp =>
      rw [hp] at hbatch hpinned
      refine h.movePoller ⟨rfl, rfl, rfl, rfl⟩ rfl hpinned hbatch h.map fun fd d hi => ?_
      exact h.listed fd d (of_update_none hi)
  | erases hp hl =>
      rw [hp] at hbatch
      exact h.movePoller ⟨rfl, rfl, rfl, rfl⟩ rfl (by simp [Poller.handling]) hbatch
        (fun fd d hm => h.map fd d (lookup_eraseKey_some hm).1) h.listed

theorem Sound.works (h : Sound s) (hs : threadStep s t = some s') : Sound s' := by
  have hbusy := h.busy t
  cases IOContext.works hs with
  | locks ht hl =>
      rw [ht] at hbusy
      exact h.moveThread ⟨rfl, rfl, rfl, rfl⟩ rfl rfl hbusy h.map h.listed
  | lists ht hv hi =>
      rw [ht] at hbusy
      refine h.moveThread ⟨rfl, rfl, rfl, rfl⟩ rfl rfl hbusy h.map fun fd d hl => ?_
      rcases of_update_some hl with ⟨rfl, rfl⟩ | hl
      · exact h.held _ (hbusy _ rfl)
      · exact h.listed fd d hl
  | fails ht | requests ht | shares ht hl | notified ht =>
      exact h.moveThread ⟨rfl, rfl, rfl, rfl⟩ rfl rfl (by simp [Thread.device]) h.map h.listed
  | stops ht | notifies ht hsig | stopped ht hidle =>
      exact h.moveThread ⟨rfl, rfl, rfl, rfl⟩ rfl rfl (by simp [Thread.device]) h.map h.listed
  | stopping ht hsig => exact h.signal
  | inserts ht =>
      rw [ht] at hbusy
      refine h.moveThread ⟨rfl, rfl, rfl, rfl⟩ rfl rfl (by simp [Thread.device]) ?_ h.listed
      intro fd d hl
      rcases lookup_insertOrAssign_some hl with ⟨rfl, rfl⟩ | ⟨-, hl⟩
      · exact h.held _ (hbusy _ rfl)
      · exact h.map fd d hl
  | delists ht =>
      rw [ht] at hbusy
      exact h.moveThread ⟨rfl, rfl, rfl, rfl⟩ rfl rfl hbusy h.map fun fd d hi => h.listed fd d (of_update_none hi)
  | erases ht hl =>
      exact h.moveThread ⟨rfl, rfl, rfl, rfl⟩ rfl rfl (by simp [Thread.device])
        (fun fd d hm => h.map fd d (lookup_eraseKey_some hm).1) h.listed
  | clears ht hl =>
      exact h.moveThread ⟨rfl, rfl, rfl, rfl⟩ rfl rfl (by simp [Thread.device]) (by simp) h.listed
  | closes ht =>
      exact h.moveThread ⟨rfl, rfl, rfl, rfl⟩ rfl rfl (by simp [Thread.device]) h.map (by simp)

theorem mem_of_mapM {α β : Type} {f : α → Option β} {l : List α} {b : List β} (h : l.mapM f = some b) {y : β}
    (hy : y ∈ b) : ∃ x ∈ l, f x = some y := by
  induction l generalizing b with
  | nil =>
      obtain rfl : [] = b := by simpa using h
      cases hy
  | cons x l ih =>
      rw [List.mapM_cons] at h
      obtain ⟨z, hz, h⟩ := Option.bind_eq_some_iff.mp h
      obtain ⟨c, hc, h⟩ := Option.bind_eq_some_iff.mp h
      obtain rfl : z :: c = b := by simpa using h
      rcases List.mem_cons.mp hy with rfl | hy
      · exact ⟨x, List.mem_cons_self, hz⟩
      · obtain ⟨x', hx', hf⟩ := ih hc hy
        exact ⟨x', List.mem_cons_of_mem _ hx', hf⟩

/-- What `epoll_pwait` reports is in the interest list. -/
theorem reported {es : List (Nat × Events)} {batch : List Event}
    (h : (es.mapM fun r => (s.interest r.1).map fun d => (⟨r.1, r.2, d⟩ : Event)) = some batch) :
    ∀ e ∈ batch, s.interest e.fd = some e.src := by
  intro e he
  obtain ⟨r, -, hr⟩ := mem_of_mapM h he
  obtain ⟨d, hd, rfl⟩ := Option.map_eq_some_iff.mp hr
  exact hd

theorem Sound.openDevice {keys : List Events} (h : Sound s) (hfree : s.files fd = none) :
    Sound { s with
      files := Function.update s.files fd (some s.opened)
      opened := s.opened + 1
      fdOf := Function.update s.fdOf s.opened fd
      keys := Function.update s.keys s.opened keys
      held := Function.update s.held s.opened true } := by
  have hfile : ∀ fd' d, s.files fd' = some d → Function.update s.files fd (some s.opened) fd' = some d := by
    intro fd' d hd
    have hne : fd' ≠ fd := by
      rintro rfl
      rw [hfree] at hd; cases hd
    rw [Function.update_of_ne hne]; exact hd
  have hfd : ∀ d, d < s.opened → Function.update s.fdOf s.opened fd d = s.fdOf d := by
    intro d hd
    exact Function.update_of_ne (by omega) _ _
  refine ⟨?_, ?_, ?_, ?_, ?_, ?_, ?_⟩
  · intro fd' d hd
    rcases of_update_some hd with ⟨rfl, rfl⟩ | hd
    · exact ⟨Function.update_self .., Nat.lt_succ_self _⟩
    · obtain ⟨he, hlt⟩ := h.file fd' d hd
      exact ⟨(hfd d hlt).trans he, Nat.lt_succ_of_lt hlt⟩
  · intro fd' d hd
    exact hfile _ _ (h.map fd' d hd)
  · intro fd' d hd
    exact hfile _ _ (h.listed fd' d hd)
  · intro e d hd
    exact hfile _ _ (h.pinned e d hd)
  · intro e he
    obtain ⟨hfe, hlt⟩ := h.batch e he
    exact ⟨(hfd _ hlt).trans hfe, Nat.lt_succ_of_lt hlt⟩
  · intro d hd
    by_cases hdo : d = s.opened
    · subst hdo
      show Function.update s.files fd (some s.opened) (Function.update s.fdOf s.opened fd s.opened) = _
      rw [Function.update_self, Function.update_self]
    · have hold : s.held d = true := by simpa [hdo] using hd
      have hf := h.held d hold
      show Function.update s.files fd (some s.opened) (Function.update s.fdOf s.opened fd d) = _
      rw [hfd d (h.file _ d hf).2]
      exact hfile _ _ hf
  · intro t d hd
    show Function.update s.held s.opened true d = true
    by_cases hdo : d = s.opened
    · subst hdo; exact Function.update_self ..
    · rw [Function.update_of_ne hdo]; exact h.busy t d hd

theorem Sound.close (h : Sound s) (hf : s.files (s.fdOf d) = some d) (hheld : s.held d = false)
    (hmap : s.handlers.lookup (s.fdOf d) ≠ some d) (hpin : s.poller.handling.map Prod.snd ≠ some d) :
    Sound { s with
      files := Function.update s.files (s.fdOf d) none
      interest := Function.update s.interest (s.fdOf d) none } := by
  have hfile : ∀ fd' d', s.files fd' = some d' → d' ≠ d → Function.update s.files (s.fdOf d) none fd' = some d' := by
    intro fd' d' hd hne
    have hfd : fd' ≠ s.fdOf d := by
      rintro rfl
      rw [hf] at hd
      exact hne (Option.some.inj hd).symm
    rw [Function.update_of_ne hfd]; exact hd
  refine ⟨fun fd' d' hd => h.file fd' d' (of_update_none hd), ?_, ?_, ?_, h.batch, ?_, h.busy⟩
  · intro fd' d' hd
    have hd' := h.map fd' d' hd
    refine hfile fd' d' hd' ?_
    rintro rfl
    exact hmap ((h.file fd' _ hd').1 ▸ hd)
  · intro fd' d' hd
    have hd' := h.listed fd' d' (of_update_none hd)
    refine hfile fd' d' hd' ?_
    rintro rfl
    have hfd := (h.file fd' _ hd').1
    rw [hfd] at hd
    simp at hd
  · intro e d' hd
    refine hfile e.fd d' (h.pinned e d' hd) ?_
    rintro rfl
    exact hpin (by rw [hd]; rfl)
  · intro d' hd
    refine hfile _ d' (h.held d' hd) ?_
    rintro rfl
    rw [hheld] at hd; cases hd

/-- **The tables are kept sound by every step.** -/
theorem Sound.step {act : Action n} (h : Sound s) (hs : step s act = some s') : Sound s' := by
  cases act with
  | openDevice fd keys =>
      simp only [IOContext.step] at hs
      split at hs
      · cases hs
      · obtain rfl := Option.some.inj hs
        exact h.openDevice ‹_›
  | callAdd t d =>
      simp only [IOContext.step] at hs
      split at hs
      · rename_i hg
        obtain rfl := Option.some.inj hs
        refine h.moveThread ⟨rfl, rfl, rfl, rfl⟩ rfl rfl ?_ h.map h.listed
        intro j hj
        obtain rfl : d = j := by simpa [Thread.device] using hj
        exact hg.2.1
      · cases hs
  | callDeregister t d =>
      simp only [IOContext.step] at hs
      split at hs
      · rename_i hg
        obtain rfl := Option.some.inj hs
        split
        · refine h.moveThread ⟨rfl, rfl, rfl, rfl⟩ rfl rfl ?_ h.map h.listed
          intro j hj
          obtain rfl : d = j := by simpa [Thread.device] using hj
          exact hg.2
        · exact h
      · cases hs
  | callShutdown t =>
      simp only [IOContext.step] at hs
      split at hs
      · obtain rfl := Option.some.inj hs
        split
        · exact h.moveThread ⟨rfl, rfl, rfl, rfl⟩ rfl rfl (by simp [Thread.device]) h.map h.listed
        · exact h
      · cases hs
  | thread t => exact h.works hs
  | poll es =>
      simp only [IOContext.step] at hs
      split at hs
      · obtain ⟨batch, hb, rfl⟩ := Option.map_eq_some_iff.mp hs
        -- what is reported was listed
        refine h.movePoller ⟨rfl, rfl, rfl, rfl⟩ rfl (by simp [Poller.handling]) ?_ h.map h.listed
        intro e he
        exact h.file _ _ (h.listed _ _ (reported hb e he))
      · cases hs
  | poller => exact h.poller hs
  | consumer d k i | callCancel t d k =>
      simp only [IOContext.step] at hs
      split at hs
      · obtain ⟨sig, -, rfl⟩ := Option.map_eq_some_iff.mp hs
        exact h.signal
      · cases hs
  | cancel t d k =>
      obtain ⟨sig, -, rfl⟩ := Option.map_eq_some_iff.mp hs
      exact h.signal
  | drop d =>
      simp only [IOContext.step] at hs
      split at hs
      · rename_i hg
        obtain rfl := Option.some.inj hs
        refine ⟨h.file, h.map, h.listed, h.pinned, h.batch, ?_, ?_⟩
        · intro j hj
          by_cases hjd : j = d
          · subst hjd; simp at hj
          · exact h.held j (by simpa [hjd] using hj)
        · -- no thread is at work on `d`
          intro t j hj
          have hjd : j ≠ d := by
            rintro rfl
            exact hg.2.2 t hj
          simpa [hjd] using h.busy t j hj
      · cases hs
  | close d =>
      simp only [IOContext.step] at hs
      split at hs
      · rename_i hg
        obtain rfl := Option.some.inj hs
        exact h.close hg.1 hg.2.1 hg.2.2.1 hg.2.2.2
      · cases hs

theorem sound_init : Sound (init n) := by
  refine ⟨?_, ?_, ?_, ?_, ?_, ?_, ?_⟩ <;> simp [init, Poller.handling, Poller.pending, Thread.device]

end NetCpp.Sys.IOContext
