/-
# NetCpp.Sys.Orphan — who wakes a coroutine whose device leaves the map.

A handler leaves the map by a `DELETE` hint, by `deregister()` and by the clear of `shutdown()`.  Only `shutdown()` stops
the signals first.  `epoll_handle` answers a hang-up with `DELETE` and publishes NOTHING, and `remove` erases the handler:
a coroutine suspended on the device is never resumed (`hang_up_orphans_reader`).

`Orderly` says what must not happen for the property to hold.  Of the callers and the kernel: no hang-up and no
`deregister()` on a device that is being awaited, no await on a device that is not (or is no longer) registered, no `add`
between `shutdown`'s loop and its end.  Of the steps inside a signal: none that loses a `stop()`
(`MPSCSignal.StopSafe`), for a `release()` under way can wipe the `stop()` of `shutdown` out of the word, and the
coroutine it resumes may suspend again before the map is cleared.
-/
import NetCpp.Sys.IoContext
import NetCpp.Coro.SignalStop

namespace NetCpp.Sys.IOContext

open NetCpp.Lib
open NetCpp.Coro
open NetCpp.Coro.MPSCSignal (Asleep FallsAsleep StopDone StopRunInv StopSafe Stopping)

variable {n : Nat}

/-! ## §1 — the property and the side condition. -/

/-- The signals the poller has still to release, of which device. -/
def Poller.publishes : Poller → Option (Nat × List Events)
  | .publish _ d ks _ | .releasing _ d _ ks _ => some (d, ks)
  | _ => none

/-- The signals a `shutdown` has still to stop. -/
def Thread.notifies : Thread → List (Nat × Events)
  | .shutNotify todo | .shutStopping _ _ todo => todo
  | _ => []

/-- A call of `release()` or `stop()` that is to make its exchange or has the continuation. -/
def wakes : MPSCSignal.Prod → Bool
  | .relExchange _ | .stopExchange => true
  | p => p.holds

theorem wakes_of_holds {p : MPSCSignal.Prod} (h : p.holds = true) : wakes p = true := by
  cases p with
  | idle | relRestore b => cases h
  | _ => rfl

/-- A release or a stop of the signal is under way, or the poller or a `shutdown` will come to it. -/
def AboutToWake (s : State n) (d : Nat) (k : Events) : Prop :=
  (∃ p, wakes ((s.sig d k).prod p) = true) ∨ (∃ ks, s.poller.publishes = some (d, ks) ∧ k ∈ ks) ∨
    ∃ t, (d, k) ∈ (s.thread t).notifies

/-- **Nobody is orphaned.** A suspended coroutine's device is in the map of a running poller, or its signal is being
released or stopped, or is about to be. -/
def NoOrphan (s : State n) : Prop :=
  ∀ d k j, .parked j ∈ (s.sig d k).acts →
    (s.handlers.lookup (s.fdOf d) = some d ∧ s.valid = true) ∨ AboutToWake s d k

/-- A coroutine is suspended on one of the device's signals. -/
def State.awaited (s : State n) (d : Nat) : Bool := (s.keys d).any fun k => decide (Asleep (s.sig d k))

/-- The device `epoll_handle` is about to answer `DELETE` for. -/
def Poller.hints : Poller → Option Nat
  | .handle e d _ => if deletes e.mask then some d else none
  | _ => none

/-- The device being removed. -/
def Poller.removes : Poller → Option Nat
  | .removeCtl _ d _ | .removeErase _ d _ => some d
  | _ => none

def Thread.removes : Thread → Option Nat
  | .removeCtl d | .removeErase d => some d
  | _ => none

def State.Removing (s : State n) (d : Nat) : Prop := s.poller.removes = some d ∨ ∃ t, (s.thread t).removes = some d

instance (s : State n) (d : Nat) : Decidable (s.Removing d) := inferInstanceAs (Decidable (_ ∨ _))

/-- About to take the lock for an `add`. -/
def Thread.enters : Thread → Bool
  | .addLock _ => true
  | _ => false

/-- Past the loop of `shutdown`. -/
def Thread.winds : Thread → Bool
  | .shutClear | .shutClose => true
  | _ => false

/-- **The callers are orderly, and so is the kernel.** -/
def Registered (s : State n) : Action n → Prop
  | .poller => ∀ d ∈ s.poller.hints, s.awaited d = false
  | .callDeregister _ d => s.bound d = true → s.awaited d = false
  | .consumer d k i => FallsAsleep (s.sig d k) (.act i) → s.handlers.lookup (s.fdOf d) = some d ∧ ¬ s.Removing d
  | .thread t => (s.thread t).enters = true → ∀ u, (s.thread u).winds = false
  | _ => True

instance (s : State n) (act : Action n) : Decidable (Registered s act) :=
  match act with
  | .poller => inferInstanceAs (Decidable (∀ d ∈ s.poller.hints, _))
  | .callDeregister _ d => inferInstanceAs (Decidable (s.bound d = true → s.awaited d = false))
  | .consumer d k i => inferInstanceAs (Decidable (FallsAsleep (s.sig d k) (.act i) → _))
  | .thread t => inferInstanceAs (Decidable ((s.thread t).enters = true → _))
  | .openDevice _ _ | .callAdd _ _ | .callShutdown _ | .poll _ | .callCancel _ _ _ | .cancel _ _ _ | .drop _
  | .close _ => inferInstanceAs (Decidable True)

/-- The step of a signal that the poller's next step is. -/
def Poller.signals : Poller → Option (Nat × Events × MPSCSignal.Action (n + n + 1))
  | .publish _ d (k :: _) _ => some (d, k, .callRelease polling)
  | .releasing _ d k _ _ => some (d, k, .prod polling)
  | _ => none

/-- The same for another thread. -/
def Thread.signals (t : Fin n) : Thread → Option (Nat × Events × MPSCSignal.Action (n + n + 1))
  | .shutNotify ((d, k) :: _) => some (d, k, .callStop (worker t))
  | .shutStopping d k _ => some (d, k, .prod (worker t))
  | _ => none

/-- The step of a signal that an action is. -/
def State.signals (s : State n) : Action n → Option (Nat × Events × MPSCSignal.Action (n + n + 1))
  | .poller => s.poller.signals
  | .thread t => (s.thread t).signals t
  | .consumer d k i => some (d, k, .act i)
  | .callCancel t d k => some (d, k, .callRelease (canceller t))
  | .cancel t d k => some (d, k, .prod (canceller t))
  | _ => none

/-- **The step is orderly**, and loses no `stop()` inside a signal. -/
def Orderly (s : State n) (act : Action n) : Prop :=
  Registered s act ∧ ∀ x ∈ s.signals act, StopSafe (s.sig x.1 x.2.1) x.2.2

instance (s : State n) (act : Action n) : Decidable (Orderly s act) :=
  inferInstanceAs (Decidable (Registered s act ∧ ∀ x ∈ s.signals act, _))

/-! ## §2 — the invariant. -/

/-- What a `shutdown` past its lock has still to stop. -/
def Thread.todo : Thread → Option (List (Nat × Events))
  | .shutNotify todo => some todo
  | .shutStopping d k todo => some ((d, k) :: todo)
  | .shutClear => some []
  | _ => none

def Thread.closes : Thread → Bool
  | .shutClose => true
  | _ => false

def Thread.adds : Thread → Bool
  | .addInsert _ => true
  | _ => false

/-- The signal a `shutdown` is stopping. -/
def Thread.stops : Thread → Option (Nat × Events)
  | .shutStopping d k _ => some (d, k)
  | _ => none

structure Attended (s : State n) : Prop where
  signal : ∀ d k, StopRunInv (s.sig d k)
  here : ∀ d k, Asleep (s.sig d k) → s.handlers.lookup (s.fdOf d) = some d ∧ k ∈ s.keys d ∧ ¬ s.Removing d
  stopping : ∀ t todo, (s.thread t).todo = some todo → ∀ fd d k, s.handlers.lookup fd = some d → k ∈ s.keys d →
    (d, k) ∈ todo ∨ StopDone (s.sig d k)
  /-- the `stop()` under way has made its exchange, or will -/
  calling : ∀ t d k, (s.thread t).stops = some (d, k) → Stopping (s.sig d k) (worker t)
  cleared : (∃ t, (s.thread t).closes = true) ∨ s.valid = false → s.handlers = []
  exclusive : ∀ t, (s.thread t).writes = true → ∀ u, (s.thread u).reads = false ∧ (s.thread u).winds = false
  inserting : ∀ t, (s.thread t).adds = true → s.valid = true

variable {s s' : State n} {t : Fin n} {p : Thread} {fd d : Nat} {k : Events}

theorem awaited_of_asleep (hk : k ∈ s.keys d) (hw : Asleep (s.sig d k)) : s.awaited d = true :=
  List.any_eq_true.mpr ⟨k, hk, by simp [hw]⟩

/-- What a step leaves of the signals and of the map. -/
structure Eases (s s' : State n) : Prop where
  fdOf : s'.fdOf = s.fdOf
  keys : s'.keys = s.keys
  signal : ∀ d k, StopRunInv (s'.sig d k)
  asleep : ∀ d k, Asleep (s'.sig d k) → Asleep (s.sig d k)
  stopped : ∀ d k, StopDone (s.sig d k) → StopDone (s'.sig d k)
  calling : ∀ d k p, Stopping (s.sig d k) p → Stopping (s'.sig d k) p
  map : ∀ fd d, s'.handlers.lookup fd = some d → s.handlers.lookup fd = some d
  empty : s.handlers = [] → s'.handlers = []

/-- The signals are left alone. -/
theorem Attended.eases (h : Attended s) (hfd : s'.fdOf = s.fdOf) (hkeys : s'.keys = s.keys) (hsig : s'.sig = s.sig)
    (hmap : ∀ fd d, s'.handlers.lookup fd = some d → s.handlers.lookup fd = some d)
    (hempty : s.handlers = [] → s'.handlers = []) : Eases s s' where
  fdOf := hfd
  keys := hkeys
  signal := by rw [hsig]; exact h.signal
  asleep := by simp [hsig]
  stopped := by simp [hsig]
  calling := by simp [hsig]
  map := hmap
  empty := hempty

theorem Attended.same (h : Attended s) (hfd : s'.fdOf = s.fdOf) (hkeys : s'.keys = s.keys) (hsig : s'.sig = s.sig)
    (hm : s'.handlers = s.handlers) : Eases s s' :=
  h.eases hfd hkeys hsig (by simp [hm]) (by simp [hm])

theorem Attended.erase (h : Attended s) (hfd : s'.fdOf = s.fdOf) (hkeys : s'.keys = s.keys) (hsig : s'.sig = s.sig)
    (hm : s'.handlers = eraseKey fd s.handlers) : Eases s s' := by
  refine h.eases hfd hkeys hsig (fun fd' d hd => ?_) fun he => ?_
  · rw [hm] at hd
    exact (lookup_eraseKey_some hd).1
  · rw [hm, he]; rfl

theorem setSig_sig {sig : MPSCSignal.State (n + n + 1)} {d' : Nat} {k' : Events} :
    (s.setSig d k sig).sig d' k' = if d' = d ∧ k' = k then sig else s.sig d' k' := by
  by_cases hd : d' = d
  · subst hd
    by_cases hk : k' = k
    · subst hk; simp [State.setSig]
    · simp [State.setSig, hk]
  · simp [State.setSig, hd]

/-- What holds of the signals holds after a step of one of them, when it holds of that one. -/
theorem forall_setSig {Q : Nat → Events → MPSCSignal.State (n + n + 1) → Prop} {sig : MPSCSignal.State (n + n + 1)}
    (hall : ∀ d' k', Q d' k' (s.sig d' k')) (hsig : Q d k sig) (d' : Nat) (k' : Events) :
    Q d' k' ((s.setSig d k sig).sig d' k') := by
  rw [setSig_sig]
  split
  · rename_i he
    obtain ⟨rfl, rfl⟩ := he
    exact hsig
  · exact hall d' k'

/-- A step of a signal that puts nobody to sleep. -/
theorem Attended.signals {a : MPSCSignal.Action (n + n + 1)} {sig : MPSCSignal.State (n + n + 1)} (h : Attended s)
    (hg : StopSafe (s.sig d k) a) (hs : MPSCSignal.step (s.sig d k) a = some sig) (hno : ¬ FallsAsleep (s.sig d k) a)
    (hfd : s'.fdOf = s.fdOf) (hkeys : s'.keys = s.keys) (hm : s'.handlers = s.handlers)
    (hsig : s'.sig = (s.setSig d k sig).sig) : Eases s s' where
  fdOf := hfd
  keys := hkeys
  signal := by
    rw [hsig]
    exact forall_setSig h.signal (MPSCSignal.stopRunInv_step (h.signal d k) hg hs)
  asleep := by
    rw [hsig]
    exact forall_setSig (Q := fun d' k' x => Asleep x → Asleep (s.sig d' k')) (fun _ _ => id) fun hw =>
      (MPSCSignal.asleep_step (h.signal d k) hs hw).resolve_right hno
  stopped := by
    rw [hsig]
    exact forall_setSig (Q := fun d' k' x => StopDone (s.sig d' k') → StopDone x) (fun _ _ => id) fun hd =>
      MPSCSignal.stopDone_step hd hs
  calling := by
    rw [hsig]
    exact forall_setSig (Q := fun d' k' x => ∀ p, Stopping (s.sig d' k') p → Stopping x p) (fun _ _ _ => id)
      fun p hp => hp.step hs
  map := by rw [hm]; exact fun _ _ h => h
  empty := by rw [hm]; exact id

/-- A step of the poller, of a user or of a signal: the threads stay where they are. -/
theorem Attended.still (h : Attended s) (e : Eases s s') (hthread : s'.thread = s.thread) (hv : s'.valid = s.valid)
    (hstay : ∀ d k, Asleep (s'.sig d k) → s'.handlers.lookup (s.fdOf d) = some d)
    (hrem : ∀ d k, Asleep (s'.sig d k) → s'.poller.removes ≠ some d) : Attended s' := by
  refine ⟨e.signal, ?_, ?_, ?_, ?_, by rw [hthread]; exact h.exclusive, by rw [hthread, hv]; exact h.inserting⟩
  · intro d k hw
    obtain ⟨-, hk, hno⟩ := h.here d k (e.asleep d k hw)
    refine ⟨by rw [e.fdOf]; exact hstay d k hw, by rw [e.keys]; exact hk, ?_⟩
    rintro (hr | ⟨t, ht⟩)
    · exact hrem d k hw hr
    · exact hno (.inr ⟨t, by rw [← hthread]; exact ht⟩)
  · rw [hthread, e.keys]
    intro t todo ht fd d k hd hk
    rcases h.stopping t todo ht fd d k (e.map fd d hd) hk with hm | hs
    · exact .inl hm
    · exact .inr (e.stopped d k hs)
  · rw [hthread]
    exact fun t d k ht => e.calling d k _ (h.calling t d k ht)
  · rw [hthread, hv]
    exact fun hc => e.empty (h.cleared hc)

theorem writes_of_adds (h : p.adds = true) : p.writes = true := by
  cases p with
  | addInsert d => rfl
  | _ => cases h

theorem winds_of_closes (h : p.closes = true) : p.winds = true := by
  cases p with
  | shutClose => rfl
  | _ => cases h

theorem outside_of_writes (h : p.writes = true) : p.reads = false ∧ p.winds = false := by
  cases p with
  | addCtl d => exact ⟨rfl, rfl⟩
  | addInsert d => exact ⟨rfl, rfl⟩
  | _ => cases h

/-- While a `shutdown` is past its lock, no `add` is inside. -/
theorem Attended.no_writer (h : Attended s) (ht : (s.thread t).reads = true ∨ (s.thread t).winds = true) (u : Fin n) :
    (s.thread u).writes = false := by
  by_contra hu
  obtain ⟨hr, hw⟩ := h.exclusive u (by simpa using hu) t
  rcases ht with ht | ht
  · rw [hr] at ht; cases ht
  · rw [hw] at ht; cases ht

/-- Thread `t` goes to `p`. -/
theorem Attended.move (h : Attended s) (e : Eases s s') (hthread : s'.thread = Function.update s.thread t p)
    (hpoll : s'.poller = s.poller) (hstay : ∀ d k, Asleep (s'.sig d k) → s'.handlers.lookup (s.fdOf d) = some d)
    (hrem : ∀ d k, p.removes = some d → (s.thread t).removes = some d ∨ ¬ Asleep (s.sig d k))
    (htodo : ∀ rest, p.todo = some rest → ∀ fd d k, s'.handlers.lookup fd = some d → k ∈ s.keys d →
      (d, k) ∈ rest ∨ StopDone (s'.sig d k))
    (hcall : ∀ d k, p.stops = some (d, k) → Stopping (s'.sig d k) (worker t))
    (hclose : p.closes = true → s'.handlers = [])
    (hin : p.writes = true → ∀ u, (s.thread u).reads = false ∧ (s.thread u).winds = false)
    (hout : p.reads = true ∨ p.winds = true → ∀ u, (s.thread u).writes = false)
    (hins : p.adds = true → s'.valid = true)
    (hvalid : s'.valid = s.valid ∨ ((s.thread t).closes = true ∧ ∀ u, (s.thread u).adds = false)) :
    Attended s' := by
  have hat : s'.thread t = p := by rw [hthread, Function.update_self]
  have helse : ∀ u, u ≠ t → s'.thread u = s.thread u := fun u hu => by rw [hthread, Function.update_of_ne hu]
  refine ⟨e.signal, ?_, ?_, ?_, ?_, ?_, ?_⟩
  · intro d k hw
    have hold := e.asleep d k hw
    obtain ⟨-, hk, hno⟩ := h.here d k hold
    refine ⟨by rw [e.fdOf]; exact hstay d k hw, by rw [e.keys]; exact hk, ?_⟩
    rintro (hr | ⟨u, hu⟩)
    · exact hno (.inl (hpoll ▸ hr))
    · by_cases hut : u = t
      · subst hut
        rw [hat] at hu
        rcases hrem d k hu with hr | hne
        · exact hno (.inr ⟨u, hr⟩)
        · exact hne hold
      · rw [helse u hut] at hu
        exact hno (.inr ⟨u, hu⟩)
  · rw [e.keys]
    intro u rest hu fd d k hd hk
    by_cases hut : u = t
    · subst hut
      rw [hat] at hu
      exact htodo rest hu fd d k hd hk
    · rw [helse u hut] at hu
      rcases h.stopping u rest hu fd d k (e.map fd d hd) hk with hm | hs
      · exact .inl hm
      · exact .inr (e.stopped d k hs)
  · intro u d k hu
    by_cases hut : u = t
    · subst hut
      exact hcall d k (hat ▸ hu)
    · exact e.calling d k _ (h.calling u d k (helse u hut ▸ hu))
  · intro hc
    rcases hc with ⟨u, hu⟩ | hv
    · by_cases hut : u = t
      · subst hut
        exact hclose (hat ▸ hu)
      · exact e.empty (h.cleared (.inl ⟨u, helse u hut ▸ hu⟩))
    · rcases hvalid with he | ⟨hc, -⟩
      · exact e.empty (h.cleared (.inr (he ▸ hv)))
      · exact e.empty (h.cleared (.inl ⟨t, hc⟩))
  · intro u hu v
    by_cases hut : u = t
    · subst hut
      rw [hat] at hu
      by_cases hvu : v = u
      · subst hvu
        rw [hat]; exact outside_of_writes hu
      · rw [helse v hvu]; exact hin hu v
    · rw [helse u hut] at hu
      by_cases hvt : v = t
      · subst hvt
        rw [hat]
        have hno : ¬ (p.reads = true ∨ p.winds = true) := by
          intro hp
          have := hout hp u
          rw [hu] at this; cases this
        simpa using hno
      · rw [helse v hvt]; exact h.exclusive u hu v
  · intro u hu
    by_cases hut : u = t
    · subst hut
      exact hins (hat ▸ hu)
    · rw [helse u hut] at hu
      rcases hvalid with hv | ⟨-, hnone⟩
      · rw [hv]; exact h.inserting u hu
      · rw [hnone u] at hu; cases hu

/-- Counters at which a thread is outside of everything. -/
def Thread.plain : Thread → Bool
  | .idle | .addLock _ | .shutStopped | .shutRequest | .shutLock => true
  | _ => false

theorem Thread.plain_spec (h : p.plain = true) :
    p.removes = none ∧ p.todo = none ∧ p.stops = none ∧ p.closes = false ∧ p.writes = false ∧ p.reads = false ∧
      p.winds = false ∧ p.adds = false := by
  cases p with
  | idle | addLock d | shutStopped | shutRequest | shutLock => exact ⟨rfl, rfl, rfl, rfl, rfl, rfl, rfl, rfl⟩
  | _ => cases h

/-- Thread `t` goes to a plain counter. -/
theorem Attended.leave (h : Attended s) (e : Eases s s') (hp : p.plain = true)
    (hthread : s'.thread = Function.update s.thread t p) (hpoll : s'.poller = s.poller) (hv : s'.valid = s.valid)
    (hstay : ∀ d k, Asleep (s'.sig d k) → s'.handlers.lookup (s.fdOf d) = some d) : Attended s' := by
  obtain ⟨h1, h2, hstops, h3, h4, h5, h6, h7⟩ := Thread.plain_spec hp
  refine h.move e hthread hpoll hstay ?_ ?_ ?_ ?_ ?_ ?_ ?_ (.inl hv)
  · intro d k hd; rw [h1] at hd; cases hd
  · intro rest hr; rw [h2] at hr; cases hr
  · intro d k hd; rw [hstops] at hd; cases hd
  · intro hc; rw [h3] at hc; cases hc
  · intro hw; rw [h4] at hw; cases hw
  · rintro (hr | hr)
    · rw [h5] at hr; cases hr
    · rw [h6] at hr; cases hr
  · intro ha; rw [h7] at ha; cases ha

/-! ## §3 — what a step keeps. -/

/-- Under an unchanged map the device of a sleeper stays where it is. -/
theorem Attended.stays (h : Attended s) (e : Eases s s') (hm : s'.handlers = s.handlers) (d : Nat) (k : Events)
    (hw : Asleep (s'.sig d k)) : s'.handlers.lookup (s.fdOf d) = some d := by
  rw [hm]; exact (h.here d k (e.asleep d k hw)).1

/-- A step of the poller or of a user that leaves the signals and the map alone, and removes nothing. -/
theorem Attended.quiet (h : Attended s) (hfd : s'.fdOf = s.fdOf) (hkeys : s'.keys = s.keys) (hsig : s'.sig = s.sig)
    (hm : s'.handlers = s.handlers) (hthread : s'.thread = s.thread) (hv : s'.valid = s.valid)
    (hrem : ∀ d k, Asleep (s.sig d k) → s'.poller.removes ≠ some d) : Attended s' :=
  h.still (h.same hfd hkeys hsig hm) hthread hv (h.stays (h.same hfd hkeys hsig hm) hm) (by rw [hsig]; exact hrem)

/-- A step of a signal that puts nobody to sleep leaves the rest alone. -/
theorem Attended.signalStep {a : MPSCSignal.Action (n + n + 1)} {sig : MPSCSignal.State (n + n + 1)} (h : Attended s)
    (hg : StopSafe (s.sig d k) a) (hs : MPSCSignal.step (s.sig d k) a = some sig) (hno : ¬ FallsAsleep (s.sig d k) a) :
    Attended (s.setSig d k sig) := by
  have hease : Eases s (s.setSig d k sig) := h.signals hg hs hno rfl rfl rfl rfl
  refine h.still hease rfl rfl (h.stays hease rfl) fun d' k' hw hr => ?_
  exact (h.here d' k' (hease.asleep d' k' hw)).2.2 (.inl hr)

/-- A device that is being removed is the only one under its number, and nobody awaits it. -/
theorem Attended.erased (h : Attended s) (hs : Sound s) (hfile : s.files fd = some d) (hrem : s.Removing d) :
    ∀ d' k, Asleep (s.sig d' k) → (eraseKey fd s.handlers).lookup (s.fdOf d') = some d' := by
  intro d' k hw
  obtain ⟨hl, -, hno⟩ := h.here d' k hw
  have hne : s.fdOf d' ≠ fd := by
    rintro rfl
    have := hs.map _ _ hl
    rw [hfile] at this
    obtain rfl := Option.some.inj this
    exact hno hrem
  rw [lookup_eraseKey_of_ne hne]
  exact hl

theorem Attended.poller (h : Attended s) (hw : Sound s) (hg : Orderly s .poller) (hs : pollerStep s = some s') :
    Attended s' := by
  cases polls hs with
  | exits hp hv | ends hp | finds hp hl | skips hp hl | publishes hp hm | released hp | handled hp =>
      exact h.quiet rfl rfl rfl rfl rfl rfl (by simp [Poller.removes])
  | @hint e d batch hp hm =>
      refine h.quiet rfl rfl rfl rfl rfl rfl ?_
      intro d' k hwait hr
      obtain rfl : d = d' := by simpa [Poller.removes] using hr
      have hno := hg.1 d (by rw [hp]; simp [Poller.hints, hm])
      have hyes := awaited_of_asleep (h.here d k hwait).2.1 hwait
      rw [hno] at hyes; cases hyes
  | @releases e d k ks batch sig hp hsig =>
      have hsafe : StopSafe (s.sig d k) (.callRelease polling) := hg.2 (d, k, .callRelease polling) (by
        rw [State.signals, hp]
        rfl)
      have hease : Eases s { (s.setSig d k sig) with poller := .releasing e d k ks batch } :=
        h.signals hsafe hsig id rfl rfl rfl rfl
      exact h.still hease rfl rfl (h.stays hease rfl) (by simp [Poller.removes])
  | @releasing e d k ks batch sig hp hsig =>
      have hsafe : StopSafe (s.sig d k) (.prod polling) := hg.2 (d, k, .prod polling) (by
        rw [State.signals, hp]
        rfl)
      exact h.signalStep hsafe hsig id
  | delists hp =>
      refine h.quiet rfl rfl rfl rfl rfl rfl ?_
      intro d' k hwait hr
      exact (h.here d' k hwait).2.2 (.inl (by rw [hp]; exact hr))
  | @erases e d batch hp hl =>
      have hpin := hw.pinned e d (by rw [hp]; rfl)
      exact h.still (h.erase rfl rfl rfl rfl) rfl rfl (h.erased hw hpin (.inl (by rw [hp]; rfl)))
        (by simp [Poller.removes])

theorem past_of_todo {todo : List (Nat × Events)} (h : p.todo = some todo) : p.reads = true ∨ p.winds = true := by
  cases p with
  | shutNotify l | shutStopping d k l => exact .inl rfl
  | shutClear => exact .inr rfl
  | _ => cases h

/-- The end of an `add`: no `shutdown` is past its lock, and the number is the device's own. -/
theorem Attended.insert (h : Attended s) (hw : Sound s) (ht : s.thread t = .addInsert d) :
    Attended { (s.goto t .idle) with handlers := insertOrAssign (s.fdOf d) d s.handlers } := by
  have hno := h.exclusive t (by rw [ht]; rfl)
  have hfile : s.files (s.fdOf d) = some d := hw.held d (hw.busy t d (by rw [ht]; rfl))
  have hvalid : s.valid = true := h.inserting t (by rw [ht]; rfl)
  have hthread : ∀ u, Function.update s.thread t .idle u = .idle ∨ Function.update s.thread t .idle u = s.thread u := by
    intro u
    by_cases hut : u = t
    · subst hut; exact .inl (Function.update_self ..)
    · exact .inr (Function.update_of_ne hut ..)
  refine ⟨h.signal, ?_, ?_, ?_, ?_, ?_, fun _ _ => hvalid⟩
  · intro d' k hwait
    obtain ⟨hl, hk, hrem⟩ := h.here d' k hwait
    refine ⟨?_, hk, ?_⟩
    · show (insertOrAssign (s.fdOf d) d s.handlers).lookup (s.fdOf d') = some d'
      by_cases hfd : s.fdOf d' = s.fdOf d
      · have := hw.map _ _ hl
        rw [hfd, hfile] at this
        obtain rfl := Option.some.inj this
        simp [insertOrAssign, lookup_alter_self]
      · rw [insertOrAssign, lookup_alter_of_ne hfd]; exact hl
    · rintro (hr | ⟨u, hu⟩)
      · exact hrem (.inl hr)
      · rcases hthread u with he | he
        · have hu' : (Function.update s.thread t .idle u).removes = some d' := hu
          rw [he] at hu'; cases hu'
        · exact hrem (.inr ⟨u, by rw [← he]; exact hu⟩)
  · intro u todo hu
    have hu' : (Function.update s.thread t .idle u).todo = some todo := hu
    rcases hthread u with he | he
    · rw [he] at hu'; cases hu'
    · rw [he] at hu'
      have := hno u
      rcases past_of_todo hu' with hr | hr
      · rw [this.1] at hr; cases hr
      · rw [this.2] at hr; cases hr
  · intro u d' k hu
    have hu' : (Function.update s.thread t .idle u).stops = some (d', k) := hu
    rcases hthread u with he | he
    · rw [he] at hu'; cases hu'
    · exact h.calling u d' k (he ▸ hu')
  · rintro (⟨u, hu⟩ | hv)
    · have hu' : (Function.update s.thread t .idle u).closes = true := hu
      rcases hthread u with he | he
      · rw [he] at hu'; cases hu'
      · rw [he] at hu'
        have := winds_of_closes hu'
        rw [(hno u).2] at this; cases this
    · have hv' : s.valid = false := hv
      rw [hvalid] at hv'; cases hv'
  · intro u _ v
    show (Function.update s.thread t .idle v).reads = false ∧ (Function.update s.thread t .idle v).winds = false
    rcases hthread v with he | he
    · rw [he]; exact ⟨rfl, rfl⟩
    · rw [he]; exact hno v

theorem Attended.works (h : Attended s) (hw : Sound s) (hg : Orderly s (.thread t)) (hs : threadStep s t = some s') :
    Attended s' := by
  have hstays : ∀ d k, Asleep (s.sig d k) → s.handlers.lookup (s.fdOf d) = some d := fun d k hk => (h.here d k hk).1
  have hsame : ∀ p : Thread, Eases s (s.goto t p) := fun p => h.same rfl rfl rfl rfl
  cases IOContext.works hs with
  | locks ht hl =>
      have hwind := hg.1 (by rw [ht]; rfl)
      exact h.move (hsame _) rfl rfl hstays (by simp [Thread.removes]) (by simp [Thread.todo]) (by simp [Thread.stops])
        (by simp [Thread.closes]) (fun _ u => ⟨(hl u).2, hwind u⟩)
        (by simp [Thread.reads, Thread.winds]) (by simp [Thread.adds]) (.inl rfl)
  | lists ht hv hi =>
      exact h.move (h.same rfl rfl rfl rfl) rfl rfl hstays (by simp [Thread.removes]) (by simp [Thread.todo])
        (by simp [Thread.stops]) (by simp [Thread.closes]) (fun _ => h.exclusive t (by rw [ht]; rfl))
        (by simp [Thread.reads, Thread.winds]) (fun _ => hv) (.inl rfl)
  | fails ht | stops ht | requests ht => exact h.leave (h.same rfl rfl rfl rfl) rfl rfl rfl rfl hstays
  | inserts ht => exact h.insert hw ht
  | delists ht =>
      exact h.move (h.same rfl rfl rfl rfl) rfl rfl hstays (fun d k hd => .inl (by rw [ht]; exact hd))
        (by simp [Thread.todo]) (by simp [Thread.stops]) (by simp [Thread.closes])
        (by simp [Thread.writes]) (by simp [Thread.reads, Thread.winds]) (by simp [Thread.adds]) (.inl rfl)
  | @erases d ht hl =>
      have hfile : s.files (s.fdOf d) = some d := hw.held d (hw.busy t d (by rw [ht]; rfl))
      exact h.leave (h.erase rfl rfl rfl rfl) rfl rfl rfl rfl
        (h.erased hw hfile (.inr ⟨t, by rw [ht]; rfl⟩))
  | shares ht hl =>
      refine h.move (hsame _) rfl rfl hstays (by simp [Thread.removes]) ?_ (by simp [Thread.stops])
        (by simp [Thread.closes]) (by simp [Thread.writes]) (fun _ => hl)
        (by simp [Thread.adds]) (.inl rfl)
      intro rest hr fd d k hd hk
      obtain rfl : subscribers s = rest := by simpa [Thread.todo] using hr
      exact .inl (List.mem_flatMap.mpr ⟨(fd, d), mem_of_lookup hd, List.mem_map_of_mem hk⟩)
  | @notifies d k todo sig ht hsig =>
      have hsafe : StopSafe (s.sig d k) (.callStop (worker t)) := hg.2 (d, k, .callStop (worker t)) (by
        rw [State.signals, ht]
        rfl)
      have hease : Eases s ((s.setSig d k sig).goto t (.shutStopping d k todo)) :=
        h.signals hsafe hsig id rfl rfl rfl rfl
      refine h.move hease rfl rfl (h.stays hease rfl) (by simp [Thread.removes]) ?_ ?_ (by simp [Thread.closes])
        (by simp [Thread.writes]) (fun _ => h.no_writer (.inl (by rw [ht]; rfl))) (by simp [Thread.adds]) (.inl rfl)
      · intro rest hr fd d' k' hd hk
        obtain rfl : (d, k) :: todo = rest := by simpa [Thread.todo] using hr
        exact (h.stopping t _ (by rw [ht]; rfl) fd d' k' hd hk).imp_right (hease.stopped d' k')
      · -- the call begins at the exchange
        intro d' k' hd
        obtain ⟨rfl, rfl⟩ : d = d' ∧ k = k' := by simpa [Thread.stops] using hd
        obtain ⟨hidle, ⟨⟩⟩ := Option.ite_none_right_eq_some.mp hsig
        left
        show ((s.setSig d k _).sig d k).prod (worker t) = .stopExchange
        rw [setSig_sig, if_pos ⟨rfl, rfl⟩]
        exact Function.update_self ..
  | @stopping d k todo sig ht hsig =>
      have hsafe : StopSafe (s.sig d k) (.prod (worker t)) := hg.2 (d, k, .prod (worker t)) (by
        rw [State.signals, ht]
        rfl)
      exact h.signalStep hsafe hsig id
  | @stopped d k todo ht hidle =>
      refine h.move (hsame _) rfl rfl hstays (by simp [Thread.removes]) ?_ (by simp [Thread.stops])
        (by simp [Thread.closes]) (by simp [Thread.writes])
        (fun _ => h.no_writer (.inl (by rw [ht]; rfl))) (by simp [Thread.adds]) (.inl rfl)
      intro rest hr fd d' k' hd hk
      obtain rfl : todo = rest := by simpa [Thread.todo] using hr
      rcases h.stopping t _ (by rw [ht]; rfl) fd d' k' hd hk with hm | hst
      · rcases List.mem_cons.mp hm with he | hm
        · -- the `stop()` that has returned
          obtain ⟨rfl, rfl⟩ : d' = d ∧ k' = k := by simpa using he
          exact .inr ((h.calling t d' k' (by rw [ht]; rfl)).done hidle)
        · exact .inl hm
      · exact .inr hst
  | notified ht =>
      refine h.move (hsame _) rfl rfl hstays (by simp [Thread.removes]) ?_ (by simp [Thread.stops])
        (by simp [Thread.closes]) (by simp [Thread.writes])
        (fun _ => h.no_writer (.inl (by rw [ht]; rfl))) (by simp [Thread.adds]) (.inl rfl)
      intro rest hr fd d k hd hk
      obtain rfl : [] = rest := by simpa [Thread.todo] using hr
      exact h.stopping t [] (by rw [ht]; rfl) fd d k hd hk
  | clears ht hl =>
      refine h.move (h.eases rfl rfl rfl (by simp) fun _ => rfl) rfl rfl ?_
        (by simp [Thread.removes]) (by simp [Thread.todo]) (by simp [Thread.stops]) (fun _ => rfl)
        (by simp [Thread.writes]) (fun _ => h.no_writer (.inr (by rw [ht]; rfl))) (by simp [Thread.adds]) (.inl rfl)
      intro d k hsleep
      -- Everything in the map is stopped, so nobody sleeps.
      obtain ⟨hl, hk, -⟩ := h.here d k hsleep
      have hst := (h.stopping t [] (by rw [ht]; rfl) _ d k hl hk).resolve_left (by simp)
      exact absurd hsleep (MPSCSignal.not_asleep_of_stopDone (h.signal d k) hst)
  | closes ht =>
      have hcl : (s.thread t).closes = true := by rw [ht]; rfl
      refine h.move (h.same rfl rfl rfl rfl) rfl rfl hstays (by simp [Thread.removes]) (by simp [Thread.todo])
        (by simp [Thread.stops]) (by simp [Thread.closes]) (by simp [Thread.writes])
        (by simp [Thread.reads, Thread.winds]) (by simp [Thread.adds]) (.inr ⟨hcl, fun u => ?_⟩)
      by_contra hu
      have hwr : (s.thread u).writes = true := writes_of_adds (by simpa using hu)
      rw [h.no_writer (.inr (winds_of_closes hcl)) u] at hwr; cases hwr

theorem not_asleep_init {m : Nat} : ¬ Asleep (MPSCSignal.init m) := fun h => by cases h.1

theorem Attended.openDevice {keys : List Events} (h : Attended s) (hw : Sound s) :
    Attended { s with
      files := Function.update s.files fd (some s.opened)
      opened := s.opened + 1
      fdOf := Function.update s.fdOf s.opened fd
      keys := Function.update s.keys s.opened keys
      held := Function.update s.held s.opened true } := by
  have hold : ∀ fd' d, s.handlers.lookup fd' = some d → d ≠ s.opened := by
    intro fd' d hd
    have := (hw.file _ _ (hw.map fd' d hd)).2
    omega
  refine ⟨h.signal, ?_, ?_, h.calling, h.cleared, h.exclusive, h.inserting⟩
  · intro d k hsleep
    obtain ⟨hl, hk, hrem⟩ := h.here d k hsleep
    have hne := hold _ d hl
    exact ⟨by simpa [hne] using hl, by simpa [hne] using hk, hrem⟩
  · intro t todo ht fd' d k hd hk
    have hne := hold fd' d hd
    exact h.stopping t todo ht fd' d k hd (by simpa [hne] using hk)

/-- **A coroutine goes on** inside its await: it may fall asleep on a registered device that nobody is removing. -/
theorem Attended.consumer {i : Nat} {sig : MPSCSignal.State (n + n + 1)} (h : Attended s) (hk : k ∈ s.keys d)
    (hg : StopSafe (s.sig d k) (.act i)) (hs : MPSCSignal.step (s.sig d k) (.act i) = some sig)
    (hreg : FallsAsleep (s.sig d k) (.act i) → s.handlers.lookup (s.fdOf d) = some d ∧ ¬ s.Removing d) :
    Attended (s.setSig d k sig) := by
  by_cases hfalls : FallsAsleep (s.sig d k) (.act i)
  · obtain ⟨hl, hrem⟩ := hreg hfalls
    refine ⟨forall_setSig h.signal (MPSCSignal.stopRunInv_step (h.signal d k) hg hs), ?_, ?_, ?_, h.cleared, h.exclusive,
      h.inserting⟩
    · exact forall_setSig (Q := fun d' k' x => Asleep x → s.handlers.lookup (s.fdOf d') = some d' ∧ k' ∈ s.keys d' ∧
        ¬ s.Removing d') h.here fun _ => ⟨hl, hk, hrem⟩
    · intro t todo ht fd' d' k' hd' hk'
      exact (h.stopping t todo ht fd' d' k' hd' hk').imp_right fun hst =>
        forall_setSig (Q := fun d' k' x => StopDone (s.sig d' k') → StopDone x) (fun _ _ => id)
          (fun hd => MPSCSignal.stopDone_step hd hs) d' k' hst
    · intro t d' k' ht
      exact forall_setSig (Q := fun d' k' x => ∀ p, Stopping (s.sig d' k') p → Stopping x p) (fun _ _ _ => id)
        (fun p hp => hp.step hs) d' k' _ (h.calling t d' k' ht)
  · exact h.signalStep hg hs hfalls

/-- **Every suspended coroutine stays attended** while everybody is orderly. -/
theorem Attended.step {act : Action n} (h : Attended s) (hw : Sound s) (hg : Orderly s act)
    (hs : step s act = some s') : Attended s' := by
  have hstays : ∀ d k, Asleep (s.sig d k) → s.handlers.lookup (s.fdOf d) = some d := fun d k hk => (h.here d k hk).1
  have hpoll : ∀ d k, Asleep (s.sig d k) → s.poller.removes ≠ some d := by
    intro d k hk hr
    exact (h.here d k hk).2.2 (.inl hr)
  cases act with
  | openDevice fd keys =>
      simp only [IOContext.step] at hs
      split at hs
      · cases hs
      · obtain rfl := Option.some.inj hs
        exact h.openDevice hw
  | callAdd t d =>
      simp only [IOContext.step] at hs
      split at hs
      · obtain rfl := Option.some.inj hs
        exact h.leave (h.same rfl rfl rfl rfl) rfl rfl rfl rfl hstays
      · cases hs
  | callDeregister t d =>
      simp only [IOContext.step] at hs
      split at hs
      · obtain rfl := Option.some.inj hs
        split
        · rename_i hbound
          refine h.move (h.same rfl rfl rfl rfl) rfl rfl hstays ?_ (by simp [Thread.todo]) (by simp [Thread.stops])
            (by simp [Thread.closes]) (by simp [Thread.writes]) (by simp [Thread.reads, Thread.winds])
            (by simp [Thread.adds]) (.inl rfl)
          intro d' k hd
          obtain rfl : d = d' := by simpa [Thread.removes] using hd
          right
          intro hsleep
          -- `Orderly`: nobody deregisters a device that is awaited
          have hyes := awaited_of_asleep (h.here d k hsleep).2.1 hsleep
          have hno : s.awaited d = false := hg.1 hbound
          rw [hno] at hyes; cases hyes
        · exact h
      · cases hs
  | callShutdown t =>
      simp only [IOContext.step] at hs
      split at hs
      · obtain rfl := Option.some.inj hs
        split
        · exact h.leave (h.same rfl rfl rfl rfl) rfl rfl rfl rfl hstays
        · exact h
      · cases hs
  | thread t => exact h.works hw hg hs
  | poll es =>
      simp only [IOContext.step] at hs
      split at hs
      · obtain ⟨batch, -, rfl⟩ := Option.map_eq_some_iff.mp hs
        exact h.quiet rfl rfl rfl rfl rfl rfl (by simp [Poller.removes])
      · cases hs
  | poller => exact h.poller hw hg hs
  | consumer d k i =>
      obtain ⟨⟨-, hk⟩, hs⟩ := Option.ite_none_right_eq_some.mp hs
      obtain ⟨sig, hsig, rfl⟩ := Option.map_eq_some_iff.mp hs
      exact h.consumer hk (hg.2 _ rfl) hsig hg.1
  | callCancel t d k =>
      obtain ⟨-, hs⟩ := Option.ite_none_right_eq_some.mp hs
      obtain ⟨sig, hsig, rfl⟩ := Option.map_eq_some_iff.mp hs
      exact h.signalStep (hg.2 _ rfl) hsig id
  | cancel t d k =>
      obtain ⟨sig, hsig, rfl⟩ := Option.map_eq_some_iff.mp hs
      exact h.signalStep (hg.2 _ rfl) hsig id
  | drop d | close d =>
      simp only [IOContext.step] at hs
      split at hs
      · obtain rfl := Option.some.inj hs
        exact h.quiet rfl rfl rfl rfl rfl rfl hpoll
      · cases hs

theorem attended_init : Attended (init n) where
  signal _ _ := MPSCSignal.stopRunInv_init
  here _ _ hsleep := absurd hsleep not_asleep_init
  stopping t todo ht := by cases ht
  calling t d k ht := by cases ht
  cleared := by simp [init, Thread.closes]
  exclusive t ht := by cases ht
  inserting t ht := by cases ht

theorem Attended.noOrphan (h : Attended s) : NoOrphan s := by
  intro d k j hpark
  rcases MPSCSignal.asleep_or_held (h.signal d k) hpark with hsleep | ⟨p, hp⟩
  · obtain ⟨hl, -, -⟩ := h.here d k hsleep
    refine .inl ⟨hl, ?_⟩
    by_contra hv
    rw [h.cleared (.inr (by simpa using hv))] at hl
    cases hl
  · -- its continuation is in somebody's hands
    exact .inr (.inl ⟨p, wakes_of_holds hp⟩)

/-- **No coroutine is orphaned by deregistration** in a run in which everybody is orderly. -/
theorem no_orphan_of_orderly (n : Nat) (s : State n) (h : Run step Orderly (init n) s) : NoOrphan s := by
  have hstep : ∀ (s : State n) (act : Action n) (s' : State n), Sound s ∧ Attended s → Orderly s act →
      step s act = some s' → Sound s' ∧ Attended s' :=
    fun _ _ _ hi hg hs => ⟨hi.1.step hs, hi.2.step hi.1 hg hs⟩
  obtain ⟨-, ha⟩ := h.invariant hstep ⟨sound_init, attended_init⟩
  exact ha.noOrphan

/-- A device is opened under number 5 and added, and a coroutine is suspended on its read signal. -/
def reading (t : Fin n) : List (Action n) :=
  [.openDevice 5 [Events.IN, Events.OUT], .callAdd t 0, .thread t, .thread t, .thread t, .consumer 0 Events.IN 0,
    .consumer 0 Events.IN 0, .consumer 0 Events.IN 0, .consumer 0 Events.IN 0, .consumer 0 Events.IN 0]

/-- A reader is suspended on a registered device and another thread is in the loop of `shutdown`. -/
def shuttingDown (t : Fin n) : List (Action n) := reading t ++ [.callShutdown t, .thread t, .thread t, .thread t]

theorem no_orphan_shuttingDown :
    ∃ s, Run step Orderly (init 1) s ∧ (s.sig 0 Events.IN).acts = [.parked ⟨0, false⟩] ∧
      s.thread 0 = .shutNotify [(0, Events.IN), (0, Events.OUT)] ∧ NoOrphan s := by
  have hexec : (exec (guarded step Orderly) (init 1) (shuttingDown 0)).map
      (fun s => ((s.sig 0 Events.IN).acts, s.thread 0)) =
      some ([.parked ⟨0, false⟩], .shutNotify [(0, Events.IN), (0, Events.OUT)]) := by decide +kernel
  obtain ⟨s, hs, hp⟩ := Option.map_eq_some_iff.mp hexec
  have hrun := run_of_exec_guarded hs
  obtain ⟨h1, h2⟩ := Prod.mk.inj hp
  exact ⟨s, hrun, h1, h2, no_orphan_of_orderly 1 s hrun⟩

/-- The peer of a reader hangs up. -/
def hangUpUnderReader (t : Fin n) : List (Action n) :=
  reading t ++ [.poll [(5, Events.IN ||| Events.HUP)], .poller, .poller, .poller, .poller, .poller]

theorem hang_up_orphans_reader :
    ¬ ∀ (n : Nat) (s : State n), Reachable step (init n) s → NoOrphan s := by
  intro h
  have hexec : (exec step (init 1) (hangUpUnderReader 0)).any (fun s => decide (
      (s.sig 0 Events.IN).acts = [.parked ⟨0, false⟩] ∧ (∀ p, wakes ((s.sig 0 Events.IN).prod p) = false) ∧
        s.handlers = [] ∧ s.poller = .wait ∧ s.thread 0 = .idle)) = true := by decide +kernel
  obtain ⟨s, hs, hp⟩ := (Option.any_eq_true _ _).mp hexec
  obtain ⟨hsig, hprod, hmap, hpoll, hthread⟩ := of_decide_eq_true hp
  have hpark : .parked ⟨0, false⟩ ∈ (s.sig 0 Events.IN).acts := by rw [hsig]; exact List.mem_singleton_self _
  rcases h 1 s (reachable_of_exec hs) 0 Events.IN _ hpark with ⟨hl, -⟩ | ⟨p, hw⟩ | ⟨ks, he, -⟩ | ⟨t, ht⟩
  · rw [hmap] at hl; cases hl
  · rw [hprod p] at hw; cases hw
  · rw [hpoll] at he; cases he
  · obtain rfl : t = 0 := Subsingleton.elim t 0
    rw [hthread] at ht; cases ht

end NetCpp.Sys.IOContext
