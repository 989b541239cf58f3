/-
# NetCpp.Sys.Shutdown — `IOContext::shutdown` on the thread that resumes.

`include/xsl/sys/io/context/epoll.h` and `src/sys/io/context/epoll.cpp` once more, now on ONE thread: under the inline
executor every resumption that `shutdown` triggers runs inside it, up to the consumer's `deregister`.  Consumers are
woken twice over.  The stop source wakes those bound to it, and no lock is held; `shutdown_notify` wakes all that
are left, from the loop over the handlers and with their lock held shared.  `remove` asks for it exclusively.
-/
import NetCpp.Lib.Transition

namespace NetCpp.Sys.Shutdown

/-! ## §1 — devices and their consumers. -/

/-- A coroutine suspended on the signal `key` of the device `fd`; `bound`: its context has the poller's stop source. -/
structure Consumer where
  fd : Nat
  key : Nat
  bound : Bool
deriving DecidableEq

/-- `stopped`, `requested` and `valid` are those of the poller, `handlers` its map in the order of the iteration, and
`shared` says that this thread holds its lock.  `ctx` is `ctx_ != nullptr` of a device, `keys` are its signals and
`silenced` the signals that were stopped.  Suspended consumers stand in the order of the stop callbacks. -/
structure State where
  valid : Bool
  stopped : Bool
  requested : Bool
  shared : Bool
  handlers : List Nat
  keys : Nat → List Nat
  ctx : Nat → Bool
  silenced : List (Nat × Nat)
  waiting : List Consumer

/-- Registered devices and suspended consumers before the shutdown. -/
def State.start (handlers : List Nat) (keys : Nat → List Nat) (waiting : List Consumer) : State where
  valid := true
  stopped := false
  requested := false
  shared := false
  handlers := handlers
  keys := keys
  ctx := fun _ => true
  silenced := []
  waiting := waiting

/-- The exclusive lock is asked for by the thread that holds the shared one, to erase `fd`. -/
inductive Fault
  | deadlock (fd : Nat)
deriving DecidableEq

/-! ## §2 — the code. -/

/-- `IOContext::remove`: the lock, then the entry. -/
def remove (fd : Nat) (s : State) : Except Fault State :=
  if s.shared then .error (.deadlock fd) else .ok { s with handlers := s.handlers.filter (· ≠ fd) }

/-- `DefaultEpollWrapper::deregister`. -/
def deregister (fd : Nat) (s : State) : Except Fault State :=
  if s.ctx fd then
    match remove fd s with
    | .error e => .error e
    | .ok s => .ok { s with ctx := Function.update s.ctx fd false }
  else .ok s

/-- What the await of a consumer returns: its context is asked first, then the signal. -/
def awaitResume (c : Consumer) (s : State) : Bool :=
  !(c.bound && s.requested) && !s.silenced.contains (c.fd, c.key)

/-- A consumer is resumed inline.  On `false` it ends, and deregisters its device. -/
def resume (c : Consumer) (s : State) : Except Fault State :=
  let s := { s with waiting := s.waiting.erase c }
  if awaitResume c s then .ok s else deregister c.fd s

/-- The stop callbacks: each releases its awaiter. -/
def fire : List Consumer → State → Except Fault State
  | [], s => .ok s
  | c :: cs, s =>
      match resume c s with
      | .error e => .error e
      | .ok s => fire cs s

/-- `_stop.request_stop()`. -/
def requestStop (s : State) : Except Fault State := fire (s.waiting.filter (·.bound)) { s with requested := true }

def Consumer.isOn (fd key : Nat) (c : Consumer) : Bool := c.fd == fd && c.key == key

def State.silence (fd key : Nat) (s : State) : State := { s with silenced := (fd, key) :: s.silenced }

/-- `stop` of the signals of a device, one after the other. -/
def stopSignals (fd : Nat) : List Nat → State → Except Fault State
  | [], s => .ok s
  | k :: ks, s =>
      match s.waiting.find? (Consumer.isOn fd k) with
      | none => stopSignals fd ks (s.silence fd k)
      | some c =>
          match resume c (s.silence fd k) with
          | .error e => .error e
          | .ok s => stopSignals fd ks s

/-- The loop over the handlers: `shutdown_notify` of each. -/
def notifyAll : List Nat → State → Except Fault State
  | [], s => .ok s
  | fd :: fds, s =>
      match stopSignals fd (s.keys fd) s with
      | .error e => .error e
      | .ok s => notifyAll fds s

/-- The lock is taken shared; it is let go of, the map is cleared and the poller closed. -/
def State.lockShared (s : State) : State := { s with shared := true }
def State.close (s : State) : State := { s with shared := false, handlers := [], valid := false }

def shutdown (s : State) : Except Fault State :=
  if s.valid then
    match requestStop { s with stopped := true } with
    | .error e => .error e
    | .ok s =>
        match notifyAll s.handlers s.lockShared with
        | .error e => .error e
        | .ok s => .ok s.close
  else .ok s

variable {s s' : State} {c : Consumer} {fd : Nat}

theorem resume_of_false (h : awaitResume c { s with waiting := s.waiting.erase c } = false) :
    resume c s = deregister c.fd { s with waiting := s.waiting.erase c } := by
  exact if_neg (by simp [h])

theorem deregister_registered (hctx : s.ctx fd = true) :
    deregister fd s =
      if s.shared then .error (.deadlock fd)
      else .ok { s with handlers := s.handlers.filter (· ≠ fd), ctx := Function.update s.ctx fd false } := by
  rw [deregister, if_pos hctx, remove]
  cases s.shared with
  | true => rfl
  | false => rfl

theorem deregister_done (hctx : ¬ s.ctx fd = true) : deregister fd s = .ok s := if_neg hctx

/-! ## §3 — the stop source: no lock is held. -/

/-- **What the callbacks leave**: the devices of the consumers they woke are deregistered, and all else is there. -/
theorem fire_spec : ∀ (cs : List Consumer) (s : State), s.shared = false → s.requested = true →
    (∀ c ∈ cs, c.bound = true) → ∃ s', fire cs s = .ok s' ∧ s'.keys = s.keys ∧
      (∀ fd, s'.ctx fd = true ↔ s.ctx fd = true ∧ ∀ c ∈ cs, c.fd ≠ fd) ∧
      (∀ fd, fd ∈ s'.handlers ↔ fd ∈ s.handlers ∧ (s.ctx fd = true → ∀ c ∈ cs, c.fd ≠ fd)) ∧
      (∀ c, c.bound = false → c ∈ s.waiting → c ∈ s'.waiting) ∧ ∀ c ∈ s'.waiting, c ∈ s.waiting := by
  intro cs
  induction cs with
  | nil =>
      intro s _ _ _
      exact ⟨s, rfl, rfl, by simp, by simp, fun _ _ h => h, fun _ h => h⟩
  | cons b cs ih =>
      intro s hshared hreq hbound
      obtain ⟨hb, hrest⟩ := List.forall_mem_cons.mp hbound
      have hawait : ∀ w, awaitResume b { s with waiting := w } = false := by
        intro w
        simp [awaitResume, hb, hreq]
      have herase : ∀ c, c.bound = false → c ∈ s.waiting → c ∈ s.waiting.erase b := by
        intro c hc hw
        refine (List.mem_erase_of_ne ?_).mpr hw
        rintro rfl
        rw [hb] at hc
        cases hc
      by_cases hctx : s.ctx b.fd = true
      · -- the device is taken out of the map
        have hres : resume b s = .ok { s with
            waiting := s.waiting.erase b
            handlers := s.handlers.filter (· ≠ b.fd)
            ctx := Function.update s.ctx b.fd false } := by
          rw [resume_of_false (hawait _), deregister_registered (s := { s with waiting := s.waiting.erase b }) hctx]
          exact if_neg (by simp [hshared])
        obtain ⟨s', hfire, hkeys, hctx', hmap, hwait, hsub⟩ := ih { s with
            waiting := s.waiting.erase b
            handlers := s.handlers.filter (· ≠ b.fd)
            ctx := Function.update s.ctx b.fd false } hshared hreq hrest
        refine ⟨s', ?_, hkeys, fun fd => ?_, fun fd => ?_, fun c hc hw => hwait c hc (herase c hc hw),
          fun c hc => List.mem_of_mem_erase (hsub c hc)⟩
        · rw [fire, hres]
          exact hfire
        · rw [hctx' fd]
          by_cases hfd : fd = b.fd
          · subst hfd
            simp
          · simp [Function.update_of_ne hfd, Ne.symm hfd]
        · rw [hmap fd]
          by_cases hfd : fd = b.fd
          · subst hfd
            simp [hctx]
          · simp [hfd, Ne.symm hfd]
      · have hres : resume b s = .ok { s with waiting := s.waiting.erase b } := by
          rw [resume_of_false (hawait _)]
          exact deregister_done hctx
        obtain ⟨s', hfire, hkeys, hctx', hmap, hwait, hsub⟩ := ih { s with waiting := s.waiting.erase b } hshared hreq hrest
        refine ⟨s', ?_, hkeys, fun fd => ?_, fun fd => ?_, fun c hc hw => hwait c hc (herase c hc hw),
          fun c hc => List.mem_of_mem_erase (hsub c hc)⟩
        · rw [fire, hres]
          exact hfire
        · rw [hctx' fd]
          by_cases hfd : fd = b.fd
          · subst hfd
            simp [hctx]
          · simp [Ne.symm hfd]
        · rw [hmap fd]
          by_cases hfd : fd = b.fd
          · subst hfd
            simp [hctx]
          · simp [Ne.symm hfd]

/-! ## §4 — the loop over the handlers: the lock is held shared. -/

/-- What stopping signals leaves alone. -/
structure Frame (fd : Nat) (s s' : State) : Prop where
  keys : s'.keys = s.keys
  ctx : s'.ctx = s.ctx
  shared : s'.shared = s.shared
  waiting : ∀ c, c ∈ s'.waiting → c ∈ s.waiting
  others : ∀ c, c.fd ≠ fd → c ∈ s.waiting → c ∈ s'.waiting

theorem Frame.refl (fd : Nat) (s : State) : Frame fd s s := ⟨rfl, rfl, rfl, fun _ h => h, fun _ _ h => h⟩

theorem Frame.trans {s'' : State} (h : Frame fd s s') (h' : Frame fd s' s'') : Frame fd s s'' where
  keys := h'.keys.trans h.keys
  ctx := h'.ctx.trans h.ctx
  shared := h'.shared.trans h.shared
  waiting c hc := h.waiting c (h'.waiting c hc)
  others c hne hc := h'.others c hne (h.others c hne hc)

/-- **A consumer of a stopped signal**: it comes to its end when its device is not registered any more, and to the
lock when it is. -/
theorem resume_stopped (hshared : s.shared = true) (hsil : (c.fd, c.key) ∈ s.silenced) :
    if s.ctx c.fd = true then resume c s = .error (.deadlock c.fd)
    else ∃ s', resume c s = .ok s' ∧ Frame c.fd s s' := by
  have hawait : awaitResume c { s with waiting := s.waiting.erase c } = false := by
    simp [awaitResume, hsil]
  split
  · rename_i hctx
    rw [resume_of_false hawait, deregister_registered (s := { s with waiting := s.waiting.erase c }) hctx]
    exact if_pos hshared
  · rename_i hctx
    refine ⟨{ s with waiting := s.waiting.erase c }, ?_, rfl, rfl, rfl, fun d hd => List.mem_of_mem_erase hd, ?_⟩
    · rw [resume_of_false hawait]
      exact deregister_done hctx
    · intro d hne hd
      refine (List.mem_erase_of_ne ?_).mpr hd
      rintro rfl
      exact hne rfl

/-- **The signals of a device are stopped** unless a consumer is left on one of them and the device is registered. -/
theorem stopSignals_spec : ∀ (ks : List Nat) (s : State), s.shared = true →
    ((∃ s', stopSignals fd ks s = .ok s') ↔ (s.ctx fd = true → ∀ c ∈ s.waiting, c.fd = fd → c.key ∉ ks)) ∧
      ∀ s', stopSignals fd ks s = .ok s' → Frame fd s s' := by
  intro ks
  induction ks with
  | nil =>
      intro s _
      refine ⟨⟨fun _ _ c _ _ => List.not_mem_nil, fun _ => ⟨s, rfl⟩⟩, fun s' h => ?_⟩
      obtain rfl := Except.ok.inj h
      exact .refl fd s
  | cons k ks ih =>
      intro s hshared
      have hframe1 : Frame fd s (s.silence fd k) := ⟨rfl, rfl, rfl, fun _ h => h, fun _ _ h => h⟩
      have hmem : ∀ c : Consumer, c.isOn fd k = true ↔ c.fd = fd ∧ c.key = k := by
        intro c
        simp [Consumer.isOn]
      cases hfind : s.waiting.find? (Consumer.isOn fd k) with
      | none =>
          have hnone : ∀ c ∈ s.waiting, c.fd = fd → c.key ≠ k := by
            intro c hc hfd hk
            exact List.find?_eq_none.mp hfind c hc ((hmem c).mpr ⟨hfd, hk⟩)
          have hrun : stopSignals fd (k :: ks) s = stopSignals fd ks (s.silence fd k) := by
            simp only [stopSignals, hfind]
          obtain ⟨hiff, hfr⟩ := ih (s.silence fd k) hshared
          rw [hrun]
          refine ⟨hiff.trans ?_, fun s' h => hframe1.trans (hfr s' h)⟩
          apply imp_congr_right
          intro _
          constructor
          · intro h c hc hfd hk
            rcases List.mem_cons.mp hk with rfl | hk
            · exact hnone c hc hfd rfl
            · exact h c hc hfd hk
          · intro h c hc hfd hk
            exact h c hc hfd (List.mem_cons_of_mem _ hk)
      | some c =>
          obtain ⟨hcfd, hck⟩ := (hmem c).mp (List.find?_some hfind)
          have hc : c ∈ s.waiting := List.mem_of_find?_eq_some hfind
          have hsil : (c.fd, c.key) ∈ (s.silence fd k).silenced := by
            rw [hcfd, hck]
            exact List.mem_cons_self
          have hres := resume_stopped (s := s.silence fd k) hshared hsil
          rw [hcfd] at hres
          by_cases hctx : (s.silence fd k).ctx fd = true
          · rw [if_pos hctx] at hres
            have hrun : stopSignals fd (k :: ks) s = .error (.deadlock fd) := by
              simp only [stopSignals, hfind, hres]
            rw [hrun]
            refine ⟨iff_of_false (by simp) ?_, fun s' h => by cases h⟩
            intro h
            exact h hctx c hc hcfd (hck ▸ List.mem_cons_self)
          · rw [if_neg hctx] at hres
            obtain ⟨s2, hres, hframe2⟩ := hres
            have hrun : stopSignals fd (k :: ks) s = stopSignals fd ks s2 := by
              simp only [stopSignals, hfind, hres]
            obtain ⟨hiff, hfr⟩ := ih s2 (hframe2.shared.trans hshared)
            rw [hrun]
            refine ⟨iff_of_true (hiff.mpr ?_) fun h => absurd h hctx, fun s' h => ?_⟩
            · intro h
              rw [hframe2.ctx] at h
              exact absurd h hctx
            · exact (hframe1.trans hframe2).trans (hfr s' h)

/-- **The loop goes through** unless a consumer is left on a registered device. -/
theorem notifyAll_iff : ∀ (fds : List Nat) (s : State), s.shared = true →
    ((∃ s', notifyAll fds s = .ok s') ↔
      ∀ fd ∈ fds, s.ctx fd = true → ∀ c ∈ s.waiting, c.fd = fd → c.key ∉ s.keys fd) := by
  intro fds
  induction fds with
  | nil =>
      intro s _
      exact ⟨fun _ fd h => absurd h List.not_mem_nil, fun _ => ⟨s, rfl⟩⟩
  | cons fd fds ih =>
      intro s hshared
      obtain ⟨hiff, hfr⟩ := @stopSignals_spec fd (s.keys fd) s hshared
      cases hstop : stopSignals fd (s.keys fd) s with
      | error e =>
          have hrun : notifyAll (fd :: fds) s = .error e := by
            simp only [notifyAll, hstop]
          rw [hrun]
          refine iff_of_false (by simp) fun h => ?_
          obtain ⟨s', hs'⟩ := hiff.mpr (h fd List.mem_cons_self)
          rw [hstop] at hs'
          cases hs'
      | ok s1 =>
          have hframe := hfr s1 hstop
          have hfirst := hiff.mp ⟨s1, hstop⟩
          have hrun : notifyAll (fd :: fds) s = notifyAll fds s1 := by
            simp only [notifyAll, hstop]
          rw [hrun, ih s1 (hframe.shared.trans hshared), List.forall_mem_cons, hframe.ctx, hframe.keys]
          constructor
          · intro h
            refine ⟨hfirst, fun fd' hfd' hctx c hc hcfd => ?_⟩
            by_cases hsame : fd' = fd
            · subst hsame
              exact hfirst hctx c hc hcfd
            · exact h fd' hfd' hctx c (hframe.others c (hcfd ▸ hsame) hc) hcfd
          · rintro ⟨-, h⟩ fd' hfd' hctx c hc hcfd
            exact h fd' hfd' hctx c (hframe.waiting c hc) hcfd

/-! ## §5 — when shutdown completes. -/

/-- **`IOContext::shutdown` runs to completion** exactly when every registered device with a suspended consumer under an
independent context has one that is bound to the stop source as well: the stop source then has the device
deregistered before the loop comes to it. -/
theorem shutdown_completes_iff (handlers : List Nat) (keys : Nat → List Nat) (waiting : List Consumer) :
    (∃ s', shutdown (.start handlers keys waiting) = .ok s') ↔
      ∀ c ∈ waiting, c.bound = false → c.fd ∈ handlers → c.key ∈ keys c.fd → ∃ b ∈ waiting, b.bound = true ∧ b.fd = c.fd := by
  obtain ⟨s1, hfire, hkeys, hctx, hmap, hwait, hsub⟩ := fire_spec (waiting.filter (·.bound))
    { State.start handlers keys waiting with stopped := true, requested := true } rfl rfl
    fun c hc => (List.mem_filter.mp hc).2
  have hloop := notifyAll_iff s1.handlers s1.lockShared rfl
  have hrun : (∃ s', shutdown (.start handlers keys waiting) = .ok s') ↔
      ∃ s', notifyAll s1.handlers s1.lockShared = .ok s' := by
    have hreq : requestStop { State.start handlers keys waiting with stopped := true } = .ok s1 := hfire
    have hvalid : (State.start handlers keys waiting).valid = true := rfl
    rw [shutdown, if_pos hvalid, hreq]
    cases hn : notifyAll s1.handlers s1.lockShared with
    | error e => exact iff_of_false (by simp [hn]) (by simp)
    | ok s2 => exact iff_of_true ⟨s2.close, by simp [hn]⟩ ⟨s2, rfl⟩
  have hunbound : ∀ fd, s1.ctx fd = true ↔ ∀ b ∈ waiting, b.bound = true → b.fd ≠ fd := by
    intro fd
    rw [hctx fd]
    simp [State.start, List.mem_filter]
  have hreg : ∀ fd, s1.ctx fd = true → (fd ∈ s1.handlers ↔ fd ∈ handlers) := by
    intro fd h
    rw [hmap fd]
    have := (hctx fd).mp h
    exact ⟨fun h' => h'.1, fun h' => ⟨h', fun _ => this.2⟩⟩
  rw [hrun, hloop]
  constructor
  · intro h c hc hfree hfd hk
    by_contra hno
    have hc1 : s1.ctx c.fd = true := (hunbound c.fd).mpr fun b hb hbb hbf => hno ⟨b, hb, hbb, hbf⟩
    have hk1 : c.key ∈ s1.keys c.fd := by
      rw [hkeys]
      exact hk
    exact h c.fd ((hreg c.fd hc1).mpr hfd) hc1 c (hwait c hfree hc) rfl hk1
  · intro h fd hfd hc1 c hc hcfd hk
    subst hcfd
    have hcw : c ∈ waiting := hsub c hc
    have hk' : c.key ∈ keys c.fd := by
      have hk1 : c.key ∈ s1.keys c.fd := hk
      rw [hkeys] at hk1
      exact hk1
    -- a bound consumer of the device would have had it deregistered
    have hall := (hunbound c.fd).mp hc1
    have hfree : c.bound = false := Bool.eq_false_of_not_eq_true fun hb => hall c hcw hb rfl
    obtain ⟨b, hb, hbb, hbf⟩ := h c hcw hfree ((hreg c.fd hc1).mp hfd) hk'
    exact hall b hb hbb hbf

/-- One device, and a consumer of its read signal under `new_independent_context`. -/
theorem shutdown_deadlocks :
    shutdown (.start [5] (fun _ => [0, 1]) [⟨5, 0, false⟩]) = .error (.deadlock 5) ∧
      ¬ ∃ s', shutdown (.start [5] (fun _ => [0, 1]) [⟨5, 0, false⟩]) = .ok s' := by
  have h : shutdown (.start [5] (fun _ => [0, 1]) [⟨5, 0, false⟩]) = .error (.deadlock 5) := rfl
  refine ⟨h, ?_⟩
  rintro ⟨s', hs'⟩
  rw [h] at hs'
  cases hs'

end NetCpp.Sys.Shutdown
