/-
# NetCpp.Net.Listen — the accept loop of a server, from its start to its shutdown.

`include/xsl/asio/net/socket.h` (`accept`, `accept_async`, `make_async_socket`) in the loop of
`HttpServer::serve_connection` (`include/xsl/asio/http/server.h`), with `IOContext::shutdown` and `cancel_contexts`
(`sys/io/context/epoll.h`).  Clients connect, the kernel queues their connections, and the loop takes them out with
`accept4`; at `EAGAIN` it awaits the `IN` signal of the listener.  A connection that is registered with the poller is
`co_yield`ed: its coroutine runs on its own.

A step is one system call of the loop with what it does about the answer, one await up to the suspension, one signal
call, one event, one connection that arrives, or one stage of `shutdown()`; `make_async_socket` goes with the `accept4`
before it.  Other code may run on the loop's thread while it is suspended, so `errno` may be anything behind an await
that was suspended.

What `shutdown()` does to the other devices is in `NetCpp.Sys.Shutdown`, and the handler map in `NetCpp.Sys.IoContext`.
-/
import NetCpp.Lib.Progress
import NetCpp.Io.Device

namespace NetCpp.Net.Listen

open NetCpp.Lib
open NetCpp.Io (Phase Side)
open NetCpp.Sys.IOContext (Events)

/-! ## §1 — the loop. -/

def EAGAIN : Nat := 11
def EWOULDBLOCK : Nat := 11
def ECONNABORTED : Nat := 103
def ECANCELED : Nat := 125

/-- What `accept4` comes to: with a connection, the error of `make_async_socket`; with an error, whether the first
connection of the queue went away with it. -/
inductive Answer
  | accepted (ec : Option Nat)
  | failed (errno : Nat) (dropped : Bool)
  deriving DecidableEq

/-- Does `serve_connection` give up?  `ec` is the error of `accept_async`. -/
def gives (stopped : Bool) (ec : Nat) : Bool :=
  stopped || (ec != EWOULDBLOCK && ec != EAGAIN && ec != ECONNABORTED)

/-- `serve_connection` behind `co_await accept_async(io)`: an error, or a connection. -/
def serveTurn (stopped : Bool) : Option Nat → Phase Nat
  | none => .call
  | some ec => if gives stopped ec = true then .returned ec else .call

/-- A turn of `accept`, with the `and_then` of `accept_async`. -/
def acceptTurn (stopped : Bool) : Answer → Phase Nat
  | .accepted ec => serveTurn stopped ec
  | .failed errno _ => if errno = EAGAIN ∨ errno = EWOULDBLOCK then .await else serveTurn stopped (some errno)

/-- `accept` behind `co_await read_signal()`: `CO_ENSEC` of false is `errno`. -/
def acceptResume (stopped dead : Bool) (errno : Nat) : Phase Nat :=
  if dead = true then serveTurn stopped (some errno) else .call

/-! ## §2 — the system. -/

/-- What became of a connection: `co_yield`ed, closed since it could not be registered, or gone before it was taken. -/
inductive Fate
  | served
  | closed
  | aborted
  deriving DecidableEq

/-- How far `shutdown()` has come: `stopped_` is set, stop is requested, the devices are notified, `fd` is closed. -/
inductive Stage
  | running
  | stopped
  | requested
  | notified
  | closed
  deriving DecidableEq

structure State where
  /-- the connections in the queue of the kernel; they are numbered as they arrive -/
  backlog : List Nat
  arrived : Nat
  handled : List (Nat × Fate)
  stage : Stage
  /-- `errno`, as long as no other code has run on the thread of the loop -/
  errno : Option Nat
  loop : Side Nat
  deriving DecidableEq

def init : State := ⟨[], 0, [], .running, none, .init⟩

/-- `stopped()` -/
def State.stopped (s : State) : Bool := s.stage != .running

/-- The answers `accept4` may give.  `ECONNABORTED` is the error of a connection. -/
def State.accepts (s : State) : Answer → Bool
  | .accepted _ => !s.backlog.isEmpty
  | .failed errno dropped =>
      if errno = EAGAIN then s.backlog.isEmpty && !dropped
      else if errno = ECONNABORTED then !s.backlog.isEmpty && dropped
      else !dropped || !s.backlog.isEmpty

/-- What happens to the first connection. -/
def Answer.fate : Answer → Option Fate
  | .accepted none => some .served
  | .accepted (some _) => some .closed
  | .failed _ true => some .aborted
  | .failed _ false => none

/-- `errno` behind the call. -/
def Answer.errno : Answer → Option Nat
  | .accepted _ => none
  | .failed errno _ => some errno

inductive Action
  /-- a client connects -/
  | arrive
  /-- `accept4` -/
  | accept (a : Answer)
  /-- `if (self.stopped())`, and `co_await read_signal()` -/
  | await
  | resume (errno : Nat)
  | report
  | rouse
  /-- `shutdown()` is called -/
  | shutdown
  /-- and goes on -/
  | shutNext
  | cancelContexts
  deriving DecidableEq

/-- `accept4` has answered. -/
def State.took (s : State) (a : Answer) : State :=
  { s with
    backlog := if a.fate = none then s.backlog else s.backlog.tail
    handled := s.handled ++ (s.backlog.head?.bind fun i => a.fate.map fun f => (i, f)).toList
    errno := a.errno
    loop := s.loop.goto (acceptTurn s.stopped a) }

/-- At `EAGAIN`: `operation_canceled` when the poller is shut down, else the await. -/
def State.awaits (s : State) : State :=
  if s.stopped = true then { s with loop := s.loop.goto (serveTurn true (some ECANCELED)) }
  else { s with loop := s.loop.await, errno := if s.loop.await.phase = .suspended then none else s.errno }

/-- The mask of the listener. -/
def State.mask (s : State) : Events := if s.backlog ≠ [] then Events.IN else 0

/-- The keys of the listener. -/
def keys : List Events := [Events.IN, Events.OUT]

/-- One stage of `shutdown()`. -/
def State.shut (s : State) : Option State :=
  match s.stage with
  | .stopped => some { s with stage := .requested, loop := s.loop.cancel }
  | .requested => some { s with stage := .notified, loop := s.loop.stop }
  | .notified => some { s with stage := .closed }
  | .running | .closed => none

def step (s : State) : Action → Option State
  | .arrive => some { s with backlog := s.backlog ++ [s.arrived], arrived := s.arrived + 1, loop := s.loop.rouse }
  | .accept a => if s.loop.phase = .call ∧ s.accepts a = true then some (s.took a) else none
  | .await => if s.loop.phase = .await then some s.awaits else none
  | .resume errno =>
      if s.loop.phase = .resumed ∧ (s.errno = none ∨ s.errno = some errno) then
        some { s with loop := s.loop.goto (acceptResume s.stopped s.loop.dead errno) }
      else none
  | .report =>
      if s.loop.ready = true ∧ s.stage ≠ .closed then some { s with loop := s.loop.report keys Events.IN s.mask } else none
  | .rouse => some { s with loop := s.loop.rouse }
  | .shutdown => if s.stage = .running then some { s with stage := .stopped } else none
  | .shutNext => s.shut
  | .cancelContexts => some { s with loop := s.loop.cancel }

/-! ## §3 — what holds in every state. -/

/-- Stop has been requested. -/
def Stage.asked : Stage → Bool
  | .requested | .notified | .closed => true
  | .running | .stopped => false

/-- The listener has been notified. -/
def Stage.told : Stage → Bool
  | .notified | .closed => true
  | .running | .stopped | .requested => false

structure Inv (s : State) : Prop where
  wf : s.loop.WF
  queue : s.handled.map Prod.fst ++ s.backlog = List.range s.arrived
  /-- connections that came while the loop waits are on their way to it -/
  fed : s.loop.Waits → s.backlog = [] ∨ s.loop.Woken
  ended : ∀ ec, s.loop.phase = .returned ec → gives s.stopped ec = true
  /-- the loop came to its await by `EAGAIN` -/
  errno : s.loop.Waits ∨ s.loop.phase = .resumed → ∀ e, s.errno = some e → e = EAGAIN
  asked : s.stage.asked = true → s.loop.cancelled = true
  told : s.stage.told = true → s.loop.sig = .stopped

theorem inv_init : Inv init where
  wf := Side.wf_init
  queue := rfl
  fed := by simp [init, Side.init, Side.Waits]
  ended := nofun
  errno := nofun
  asked := nofun
  told := nofun

theorem serveTurn_eq (stopped : Bool) (res : Option Nat) :
    serveTurn stopped res = .call ∨ ∃ ec, serveTurn stopped res = .returned ec ∧ gives stopped ec = true := by
  cases res with
  | none => exact .inl rfl
  | some ec =>
      by_cases hg : gives stopped ec = true
      · exact .inr ⟨ec, if_pos hg, hg⟩
      · exact .inl (if_neg hg)

theorem acceptResume_eq (stopped dead : Bool) (errno : Nat) :
    acceptResume stopped dead errno = .call ∨
      ∃ ec, acceptResume stopped dead errno = .returned ec ∧ gives stopped ec = true := by
  cases dead with
  | true => exact serveTurn_eq stopped (some errno)
  | false => exact .inl rfl

/-- `accept4` is followed by the await exactly at `EAGAIN`. -/
theorem acceptTurn_eq (stopped : Bool) (a : Answer) :
    (∃ dropped, a = .failed EAGAIN dropped ∧ acceptTurn stopped a = .await) ∨ acceptTurn stopped a = .call ∨
      ∃ ec, acceptTurn stopped a = .returned ec ∧ gives stopped ec = true := by
  cases a with
  | accepted ec => exact .inr (serveTurn_eq stopped ec)
  | failed errno dropped =>
      by_cases he : errno = EAGAIN ∨ errno = EWOULDBLOCK
      · refine .inl ⟨dropped, ?_, if_pos he⟩
        rw [he.elim id id]
      · rw [acceptTurn, if_neg he]
        exact .inr (serveTurn_eq stopped (some errno))

section Steps

variable {s t : State}

/-- A loop that goes on, or ends. -/
theorem Inv.goto (h : Inv s) (hc : s.loop.phase ≠ .suspended) {p : Phase Nat}
    (hp : p = .call ∨ ∃ ec, p = .returned ec ∧ gives s.stopped ec = true) : Inv { s with loop := s.loop.goto p } := by
  have hns : p ≠ .suspended ∧ p ≠ .await := by
    rcases hp with rfl | ⟨ec, rfl, -⟩ <;> exact ⟨nofun, nofun⟩
  exact
    { wf := h.wf.goto hc hns.1
      queue := h.queue
      fed := fun hw => absurd hw (Side.not_waits_goto hns.2 hns.1)
      ended := by
        intro ec hec
        rcases hp with rfl | ⟨ec', rfl, hg⟩
        · cases hec
        · obtain rfl : ec' = ec := by simpa [Side.goto] using hec
          exact hg
      errno := by
        rintro (hw | he)
        · exact absurd hw (Side.not_waits_goto hns.2 hns.1)
        · rcases hp with rfl | ⟨ec, rfl, -⟩ <;> cases he
      asked := h.asked
      told := h.told }

/-- An event leaves the loop where it is, or resumes it. -/
theorem Inv.of_stirs (h : Inv s) {d : Side Nat} (hd : d.WF) (hsd : s.loop.Stirs d) (hw : d.Waits → s.backlog = [] ∨ d.Woken)
    (hc : s.loop.cancelled = true → d.cancelled = true) (hs : s.loop.sig = .stopped → d.sig = .stopped) :
    Inv { s with loop := d } where
  wf := hd
  queue := h.queue
  fed := hw
  ended _ he := h.ended _ (hsd.returned he)
  errno he := h.errno (he.elim (fun hw => .inl (hsd.waits hw)) hsd.resumed)
  asked ha := hc (h.asked ha)
  told ht := hs (h.told ht)

theorem Inv.rouse (h : Inv s) : Inv { s with loop := s.loop.rouse } :=
  h.of_stirs h.wf.rouse Side.stirs_rouse (fun _ => .inr Side.woken_rouse) id id

theorem Inv.cancel (h : Inv s) : Inv { s with loop := s.loop.cancel } := by
  refine h.of_stirs h.wf.cancel h.wf.stirs_cancel (fun _ => .inr Side.woken_cancel) (fun _ => rfl) fun hs => ?_
  simp [Side.cancel, hs]

theorem Inv.stop (h : Inv s) : Inv { s with loop := s.loop.stop } :=
  h.of_stirs h.wf.stop h.wf.stirs_stop (fun _ => .inr Side.woken_stop) id fun _ => rfl

/-- A stage of `shutdown()`. -/
theorem Inv.with_stage (h : Inv s) {stage : Stage} (hs : s.stopped = true → stage ≠ .running)
    (ha : stage.asked = true → s.loop.cancelled = true) (ht : stage.told = true → s.loop.sig = .stopped) :
    Inv { s with stage := stage } where
  wf := h.wf
  queue := h.queue
  fed := h.fed
  ended ec he := by
    have hold := h.ended ec he
    cases hst : s.stopped with
    | true => simp [gives, State.stopped, hs hst]
    | false =>
        rw [hst] at hold
        cases hnew : (State.stopped { s with stage := stage }) with
        | true => rfl
        | false => exact hold
  errno := h.errno
  asked := ha
  told := ht

/-- An answer of `accept4` that names a connection takes the first one. -/
theorem backlog_of_fate {a : Answer} (ha : s.accepts a = true) (hf : a.fate ≠ none) : s.backlog ≠ [] := by
  intro hnil
  cases a with
  | accepted ec => simp [State.accepts, hnil] at ha
  | failed errno dropped =>
      cases dropped with
      | false => exact hf rfl
      | true =>
          simp only [State.accepts, hnil, List.isEmpty_nil] at ha
          split at ha
          · simp at ha
          · split at ha <;> simp at ha

/-- The first connection goes from the queue to those that are done. -/
theorem took_queue (s : State) (a : Answer) (ha : s.accepts a = true) :
    (s.took a).handled.map Prod.fst ++ (s.took a).backlog = s.handled.map Prod.fst ++ s.backlog := by
  simp only [State.took]
  cases hf : a.fate with
  | none => cases s.backlog <;> simp
  | some f =>
      have hne := backlog_of_fate ha (by simp [hf])
      obtain ⟨i, rest, hq⟩ := List.exists_cons_of_ne_nil hne
      simp [hq]

theorem took_nil (s : State) {a : Answer} (h : s.backlog = []) : (s.took a).backlog = [] := by
  simp [State.took, h]

theorem inv_accept (h : Inv s) {a : Answer} (hc : s.loop.phase = .call) (ha : s.accepts a = true) : Inv (s.took a) := by
  have hsus : s.loop.phase ≠ .suspended := by rw [hc]; exact nofun
  have hqueue := (took_queue s a ha).trans h.queue
  rcases acceptTurn_eq s.stopped a with ⟨dropped, rfl, hp⟩ | hp
  · have hnil : s.backlog = [] := by
      have : s.backlog = [] ∧ dropped = false := by simpa [State.accepts, EAGAIN] using ha
      exact this.1
    exact
      { wf := by
          simp only [State.took, hp]
          exact h.wf.goto hsus nofun
        queue := hqueue
        fed := fun _ => .inl (took_nil s hnil)
        ended := by simp [State.took, hp, Side.goto]
        errno := fun _ e he => (Option.some.inj he).symm
        asked := h.asked
        told := h.told }
  · have hnext := h.goto hsus hp
    exact
      { wf := hnext.wf
        queue := hqueue
        fed := fun hw => (hnext.fed hw).imp_left (took_nil s)
        ended := hnext.ended
        errno := by rcases hp with hp | ⟨ec, hp, -⟩ <;> simp [State.took, hp, Side.goto, Side.Waits]
        asked := h.asked
        told := h.told }

theorem inv_await (h : Inv s) (hc : s.loop.phase = .await) : Inv s.awaits := by
  have hsus : s.loop.phase ≠ .suspended := by rw [hc]; exact nofun
  unfold State.awaits
  cases hst : s.stopped with
  | true =>
      rw [if_pos rfl]
      exact h.goto hsus (.inr ⟨ECANCELED, rfl, by rw [hst]; rfl⟩)
  | false =>
      rw [if_neg Bool.false_ne_true]
      exact
        { wf := h.wf.await hc
          queue := h.queue
          fed := fun hw => (h.fed (.inl hc)).imp_right fun hk => Side.woken_await hw hk
          ended := fun ec he => absurd he (Side.await_not_returned ec)
          errno := fun _ e he => by
            split at he
            · cases he
            · exact h.errno (.inl (.inl hc)) e he
          asked := h.asked
          told := fun ht => by
            simp [Side.await, h.told ht, Coro.MPSCSignal.Word.await] }

theorem inv_shut (h : Inv s) (hs : s.shut = some t) : Inv t := by
  unfold State.shut at hs
  cases hst : s.stage with
  | stopped =>
      rw [hst] at hs
      obtain rfl := Option.some.inj hs
      exact h.cancel.with_stage (fun _ => nofun) (fun _ => rfl) nofun
  | requested =>
      rw [hst] at hs
      obtain rfl := Option.some.inj hs
      exact h.stop.with_stage (fun _ => nofun) (fun _ => h.asked (by rw [hst]; rfl)) fun _ => rfl
  | notified =>
      rw [hst] at hs
      obtain rfl := Option.some.inj hs
      exact h.with_stage (fun _ => nofun) (fun _ => h.asked (by rw [hst]; rfl)) fun _ => h.told (by rw [hst]; rfl)
  | running | closed =>
      rw [hst] at hs
      cases hs

theorem inv_step (h : Inv s) {a : Action} (hs : step s a = some t) : Inv t := by
  cases a with
  | arrive =>
      obtain rfl := Option.some.inj hs
      have hr := h.rouse
      exact
        { wf := hr.wf
          queue := by rw [← List.append_assoc, h.queue, List.range_succ]
          fed := fun _ => .inr Side.woken_rouse
          ended := hr.ended
          errno := hr.errno
          asked := hr.asked
          told := hr.told }
  | accept a =>
      obtain ⟨⟨hc, ha⟩, ⟨⟩⟩ := Option.ite_none_right_eq_some.mp hs
      exact inv_accept h hc ha
  | await =>
      obtain ⟨hc, ⟨⟩⟩ := Option.ite_none_right_eq_some.mp hs
      exact inv_await h hc
  | resume errno =>
      obtain ⟨⟨hc, -⟩, ⟨⟩⟩ := Option.ite_none_right_eq_some.mp hs
      exact h.goto (by rw [hc]; exact nofun) (acceptResume_eq _ _ _)
  | report =>
      obtain ⟨-, ⟨⟩⟩ := Option.ite_none_right_eq_some.mp hs
      refine h.of_stirs (h.wf.report _ _ _) (h.wf.stirs_report _ _ _) (fun hw => ?_) ?_ ?_
      · by_cases hq : s.backlog = []
        · exact .inl hq
        · rw [State.mask, if_pos hq] at hw ⊢
          exact .inr (Side.woken_report rfl (by decide) hw)
      · exact fun hc => (Side.report_cancelled _ _ _).trans hc
      · exact Side.report_stopped _ _ _
  | rouse =>
      obtain rfl := Option.some.inj hs
      exact h.rouse
  | shutdown =>
      obtain ⟨hst, ⟨⟩⟩ := Option.ite_none_right_eq_some.mp hs
      exact h.with_stage (fun _ => nofun) nofun nofun
  | shutNext => exact inv_shut h hs
  | cancelContexts =>
      obtain rfl := Option.some.inj hs
      exact h.cancel

end Steps

/-! ## §4 — every run. -/

theorem inv_of_reachable {s : State} (h : Reachable step init s) : Inv s :=
  Run.invariant (fun _ _ _ hs _ hstep => inv_step hs hstep) inv_init h

/-- A loop that sleeps has not been asked to stop. -/
theorem Inv.asleep {s : State} (h : Inv s) (hc : s.loop.phase = .suspended) :
    s.loop.cancelled = false ∧ (s.stage = .running ∨ s.stage = .stopped) := by
  have hlive := h.wf.live hc
  refine ⟨hlive, ?_⟩
  cases hst : s.stage with
  | running => exact .inl rfl
  | stopped => exact .inr rfl
  | requested | notified | closed =>
      have hx := h.asked (by rw [hst]; rfl)
      rw [hlive] at hx
      cases hx

/-- **Every connection is handled once, in the order of the queue, and none is slept on.**  In every state of every run,
with failures, shutdowns and cancellations at any time: the connections that were dealt with and those in the queue are
those that arrived; a loop that sleeps while one is in the queue is in the ready list, and stop has not been requested;
and it ends only when the poller is shut down or with an error that is not one of a single connection. -/
theorem accept_exact {s : State} (h : Reachable step init s) :
    s.handled.map Prod.fst ++ s.backlog = List.range s.arrived ∧
      (s.loop.phase = .suspended →
        (s.backlog ≠ [] → s.loop.ready = true) ∧ s.loop.cancelled = false ∧ (s.stage = .running ∨ s.stage = .stopped)) ∧
      ∀ ec, s.loop.phase = .returned ec → s.stopped = true ∨ (ec ≠ EWOULDBLOCK ∧ ec ≠ EAGAIN ∧ ec ≠ ECONNABORTED) := by
  have hinv := inv_of_reachable h
  refine ⟨hinv.queue, fun hc => ⟨fun hq => ?_, hinv.asleep hc⟩, fun ec hec => ?_⟩
  · exact hinv.wf.ready hc ((hinv.fed (.inr hc)).resolve_left hq)
  · simpa [gives, and_assoc] using hinv.ended ec hec

/-- Two connections: the loop sleeps between them, and the event of the first one finds nothing to report. -/
theorem accept_exact_two :
    ∃ s, Reachable step init s ∧ s.loop.phase = .suspended ∧ s.loop.ready = true ∧
      s.handled.map Prod.fst ++ s.backlog = List.range 2 := by
  have h : exec step init
      [.arrive, .accept (.accepted none), .accept (.failed EAGAIN false), .await, .report, .arrive] =
      some ⟨[1], 2, [(0, .served)], .running, none, ⟨.suspended, .waiting, true, false⟩⟩ := by decide
  have hr := reachable_of_exec h
  have hex := accept_exact hr
  exact ⟨_, hr, rfl, (hex.2.1 rfl).1 nofun, hex.1⟩

/-! ## §5 — the loop comes to rest. -/

/-- An answer that does not end a loop that is not shut down. -/
def Answer.mild (a : Answer) : Bool := !(acceptTurn false a).isReturned

/-- Without `cancel_contexts()`; what would end the loop happens only while it is shut down. -/
def State.calm (s : State) : Action → Bool
  | .accept a => s.stopped || a.mild
  | .cancelContexts => false
  | _ => true

/-- Connections, events that report nothing new, and the call of `shutdown()` come from outside. -/
def Action.own : Action → Bool
  | .arrive | .rouse | .shutdown => false
  | _ => true

def calmStep : State → Action → Option State := guarded step fun s a => s.calm a = true

structure Calm (s : State) : Prop where
  dead : s.loop.dead = true → s.stopped = true
  ended : s.loop.phase.isReturned = true → s.stopped = true

/-- The stages that are left of `shutdown()`. -/
def Stage.left : Stage → Nat
  | .running | .stopped => 3
  | .requested => 2
  | .notified => 1
  | .closed => 0

def work (s : State) : Nat := s.backlog.length + s.loop.price + s.stage.left

theorem calm_init : Calm init := ⟨nofun, nofun⟩

section CalmSteps

variable {s t : State}

theorem isReturned_of_mild {a : Answer} (h : a.mild = true) : (acceptTurn false a).isReturned = false := by
  simpa [Answer.mild] using h

theorem calm_step (h : Inv s) (hc : Calm s) {a : Action} (hs : calmStep s a = some t) : Calm t := by
  obtain ⟨ha, hs⟩ := Option.ite_none_right_eq_some.mp hs
  cases a with
  | arrive | rouse =>
      obtain rfl := Option.some.inj hs
      exact ⟨hc.dead, hc.ended⟩
  | accept a =>
      obtain ⟨⟨hp, -⟩, ⟨⟩⟩ := Option.ite_none_right_eq_some.mp hs
      refine ⟨hc.dead, fun hr => ?_⟩
      cases hst : s.stopped with
      | true => exact hst
      | false =>
          have hmild : a.mild = true := by simpa [State.calm, hst] using ha
          simp [State.took, Side.goto, hst, isReturned_of_mild hmild] at hr
  | await =>
      obtain ⟨hp, ⟨⟩⟩ := Option.ite_none_right_eq_some.mp hs
      unfold State.awaits
      cases hst : s.stopped with
      | true => exact ⟨fun _ => hst, fun _ => hst⟩
      | false =>
          rw [if_neg Bool.false_ne_true]
          refine ⟨fun hd => hc.dead (Side.dead_await.symm.trans hd), fun hr => ?_⟩
          rcases s.loop.await_phase with hph | hph <;> · simp [hph, Phase.isReturned] at hr
  | resume errno =>
      obtain ⟨⟨hp, -⟩, ⟨⟩⟩ := Option.ite_none_right_eq_some.mp hs
      refine ⟨hc.dead, fun hr => ?_⟩
      cases hd : s.loop.dead with
      | true => exact hc.dead hd
      | false => simp [Side.goto, acceptResume, hd, Phase.isReturned] at hr
  | report =>
      obtain ⟨-, ⟨⟩⟩ := Option.ite_none_right_eq_some.mp hs
      refine ⟨fun hd => hc.dead ((Side.dead_report _ _ _).symm.trans hd), fun hr => ?_⟩
      rcases h.wf.stirs_report keys Events.IN s.mask with hph | ⟨-, hph⟩
      · exact hc.ended (hph ▸ hr)
      · simp [hph, Phase.isReturned] at hr
  | shutdown =>
      obtain ⟨-, ⟨⟩⟩ := Option.ite_none_right_eq_some.mp hs
      exact ⟨fun _ => rfl, fun _ => rfl⟩
  | shutNext =>
      have hst : t.stopped = true := by
        unfold step State.shut at hs
        cases hst : s.stage with
        | stopped | requested | notified =>
            rw [hst] at hs
            obtain rfl := Option.some.inj hs
            rfl
        | running | closed =>
            rw [hst] at hs
            cases hs
      exact ⟨fun _ => hst, fun _ => hst⟩
  | cancelContexts => cases ha

theorem took_length_le (s : State) (a : Answer) : (s.took a).backlog.length ≤ s.backlog.length := by
  simp only [State.took]
  split
  · exact Nat.le_refl _
  · rw [List.length_tail]
    exact Nat.sub_le _ _

theorem took_length_lt {a : Answer} (ha : s.accepts a = true) (hf : a.fate ≠ none) :
    (s.took a).backlog.length < s.backlog.length := by
  have hpos : 0 < s.backlog.length := List.length_pos_iff.mpr (backlog_of_fate ha hf)
  simp only [State.took, if_neg hf, List.length_tail]
  omega

theorem not_gives {stopped : Bool} {ec : Nat} (h : gives stopped ec ≠ true) : ec = EAGAIN ∨ ec = ECONNABORTED := by
  by_contra hno
  obtain ⟨ha, hc⟩ := not_or.mp hno
  apply h
  simp [gives, hc, ha, show EWOULDBLOCK = EAGAIN from rfl]

/-- A call that takes no connection leads to the await, or to the end. -/
theorem acceptTurn_of_no_fate {a : Answer} (ha : s.accepts a = true) (hf : a.fate = none) (stopped : Bool) :
    acceptTurn stopped a = .await ∨ ∃ ec, acceptTurn stopped a = .returned ec := by
  cases a with
  | accepted ec => cases ec <;> cases hf
  | failed errno dropped =>
      by_cases he : errno = EAGAIN ∨ errno = EWOULDBLOCK
      · exact .inl (if_pos he)
      · rw [acceptTurn, if_neg he]
        by_cases hg : gives stopped errno = true
        · exact .inr ⟨errno, if_pos hg⟩
        · -- only `ECONNABORTED` is left, and that one takes a connection
          obtain rfl : errno = ECONNABORTED := (not_gives hg).resolve_left fun h => he (.inl h)
          cases dropped with
          | true => cases hf
          | false => simp [State.accepts, EAGAIN, ECONNABORTED] at ha

theorem phasePrice_acceptTurn_le (dead stopped : Bool) (a : Answer) :
    Side.phasePrice dead (acceptTurn stopped a) ≤ Side.phasePrice dead (.call : Phase Nat) := by
  rcases acceptTurn_eq stopped a with ⟨-, -, h⟩ | h | ⟨ec, h, -⟩ <;> rw [h] <;> simp [Side.phasePrice]

/-- Each step of the loop, of the poller and of `shutdown()` is paid for. -/
theorem work_pays (h : Inv s) (hc : Calm s) {a : Action} (ha : a.own = true) (hs : calmStep s a = some t) :
    work t < work s := by
  obtain ⟨hcalm, hs⟩ := Option.ite_none_right_eq_some.mp hs
  cases a with
  | arrive | rouse | shutdown => cases ha
  | accept a =>
      obtain ⟨⟨hp, hans⟩, ⟨⟩⟩ := Option.ite_none_right_eq_some.mp hs
      have hgoto := s.loop.price_goto (acceptTurn s.stopped a)
      rw [hp] at hgoto
      have hloop : (s.took a).loop = s.loop.goto (acceptTurn s.stopped a) := rfl
      have hstage : (s.took a).stage = s.stage := rfl
      by_cases hf : a.fate = none
      · have hle := took_length_le s a
        have hlt : Side.phasePrice s.loop.dead (acceptTurn s.stopped a) < Side.phasePrice s.loop.dead (.call : Phase Nat) := by
          rcases acceptTurn_of_no_fate hans hf s.stopped with hw | ⟨ec, hw⟩ <;> rw [hw] <;> simp [Side.phasePrice]
        simp only [work, hloop, hstage]
        omega
      · have hlt := took_length_lt hans hf
        have hle := phasePrice_acceptTurn_le s.loop.dead s.stopped a
        simp only [work, hloop, hstage]
        omega
  | await =>
      obtain ⟨hp, ⟨⟩⟩ := Option.ite_none_right_eq_some.mp hs
      unfold State.awaits
      cases hst : s.stopped with
      | true =>
          have hgoto := s.loop.price_goto (serveTurn true (some ECANCELED))
          have hend : serveTurn true (some ECANCELED) = .returned ECANCELED := rfl
          rw [hp, hend] at hgoto
          simp only [if_true, work, hend]
          simp only [Side.phasePrice] at hgoto
          omega
      | false =>
          have := Side.price_await h.wf hp
          simp only [Bool.false_eq_true, if_false, work]
          omega
  | resume errno =>
      obtain ⟨⟨hp, -⟩, ⟨⟩⟩ := Option.ite_none_right_eq_some.mp hs
      have hgoto := s.loop.price_goto (acceptResume s.stopped s.loop.dead errno)
      rw [hp] at hgoto
      simp only [work]
      cases hd : s.loop.dead with
      | true =>
          -- it was stopped, so it ends
          have hend : acceptResume s.stopped true errno = .returned errno := by rw [hc.dead hd]; rfl
          rw [hd, hend] at hgoto
          simp only [hend]
          simp only [Side.phasePrice, cond_true] at hgoto
          omega
      | false =>
          have hcall : acceptResume s.stopped false errno = .call := rfl
          rw [hd, hcall] at hgoto
          simp only [hcall]
          simp only [Side.phasePrice, cond_false] at hgoto
          omega
  | report =>
      obtain ⟨⟨hr, -⟩, ⟨⟩⟩ := Option.ite_none_right_eq_some.mp hs
      have := Side.price_report h.wf hr keys Events.IN s.mask
      simp only [work]
      omega
  | shutNext =>
      have hcancel := Side.price_cancel h.wf
      have hstop := Side.price_stop h.wf
      unfold step State.shut at hs
      cases hst : s.stage with
      | stopped | requested | notified =>
          rw [hst] at hs
          obtain rfl := Option.some.inj hs
          simp only [work, hst, Stage.left]
          omega
      | running | closed =>
          rw [hst] at hs
          cases hs
  | cancelContexts => cases hcalm

theorem work_lends {a : Action} (ha : a.own = false) (hs : calmStep s a = some t) : work t ≤ work s + 5 := by
  obtain ⟨-, hs⟩ := Option.ite_none_right_eq_some.mp hs
  have hready := s.loop.price_rouse
  cases a with
  | arrive =>
      obtain rfl := Option.some.inj hs
      simp only [work, List.length_append, List.length_singleton]
      omega
  | rouse =>
      obtain rfl := Option.some.inj hs
      simp only [work]
      omega
  | shutdown =>
      obtain ⟨hst, ⟨⟩⟩ := Option.ite_none_right_eq_some.mp hs
      simp only [work, hst, Stage.left]
      omega
  | accept _ | await | resume _ | report | shutNext | cancelContexts => cases ha

theorem calm_metered : Metered calmStep (fun s => Inv s ∧ Calm s) Action.own work 5 where
  inv _ _ _ h hs := ⟨inv_step h.1 (Option.ite_none_right_eq_some.mp hs).2, calm_step h.1 h.2 hs⟩
  pays _ _ _ h ha hs := work_pays h.1 h.2 ha hs
  lends _ _ _ _ ha hs := work_lends ha hs

/-! ### Where no step is left -/

theorem step_of_rests (hr : Rests calmStep Action.own s) {a : Action} (ha : a.own = true) (hc : s.calm a = true) :
    step s a = none := by
  have h := hr a ha
  rwa [calmStep, guarded, if_pos hc] at h

/-- `accept4` answers. -/
theorem exists_accepts (s : State) : ∃ a, s.accepts a = true ∧ s.calm (.accept a) = true := by
  by_cases hq : s.backlog = []
  · exact ⟨.failed EAGAIN false, by simp [State.accepts, hq], by simp [State.calm, Answer.mild, acceptTurn, Phase.isReturned]⟩
  · exact ⟨.accepted none, by simp [State.accepts, hq],
      by simp [State.calm, Answer.mild, acceptTurn, serveTurn, Phase.isReturned]⟩

/-- The loop has returned, or sleeps. -/
theorem loop_rests (hr : Rests calmStep Action.own s) : s.loop.phase = .suspended ∨ ∃ ec, s.loop.phase = .returned ec := by
  cases hp : s.loop.phase with
  | call =>
      obtain ⟨a, ha, hc⟩ := exists_accepts s
      have hno := step_of_rests hr rfl hc
      rw [step, if_pos ⟨hp, ha⟩] at hno
      cases hno
  | await =>
      have hno := step_of_rests hr (a := .await) rfl rfl
      rw [step, if_pos hp] at hno
      cases hno
  | resumed =>
      have hno : ∀ errno, step s (.resume errno) = none := fun errno => step_of_rests hr rfl rfl
      obtain ⟨errno, he⟩ : ∃ errno, s.errno = none ∨ s.errno = some errno := by
        cases hx : s.errno with
        | none => exact ⟨0, .inl rfl⟩
        | some errno => exact ⟨errno, .inr rfl⟩
      have hend := hno errno
      rw [step, if_pos ⟨hp, he⟩] at hend
      cases hend
  | suspended => exact .inl rfl
  | returned ec => exact .inr ⟨ec, rfl⟩

/-- `shutdown()` has not begun, or is through. -/
theorem stage_rests (hr : Rests calmStep Action.own s) : s.stage = .running ∨ s.stage = .closed := by
  have hno : step s .shutNext = none := step_of_rests hr rfl rfl
  unfold step State.shut at hno
  cases hst : s.stage with
  | running => exact .inl rfl
  | closed => exact .inr rfl
  | stopped | requested | notified =>
      rw [hst] at hno
      cases hno

/-- What a server at rest has done: all its connections while it runs, and its loop has ended when it is shut down. -/
def Settled (s : State) : Prop :=
  (s.stage = .running ∧ s.loop.phase = .suspended ∧ s.handled.map Prod.fst = List.range s.arrived) ∨
    (s.stage = .closed ∧ ∃ ec, s.loop.phase = .returned ec)

theorem settled_of_rests (h : Inv s) (hc : Calm s) (hr : Rests calmStep Action.own s) : Settled s := by
  rcases stage_rests hr with hst | hst
  · left
    have hlive : s.stopped = false := by rw [State.stopped, hst]; rfl
    have hsus : s.loop.phase = .suspended := by
      refine (loop_rests hr).resolve_right ?_
      rintro ⟨ec, hec⟩
      have hx := hc.ended (by rw [hec]; rfl)
      rw [hlive] at hx
      cases hx
    have hready : s.loop.ready = false := by
      have hno : step s .report = none := step_of_rests hr rfl rfl
      simpa [step, hst] using hno
    have hq : s.backlog = [] := (h.fed (.inr hsus)).resolve_right (h.wf.not_woken hsus hready)
    have hqueue := h.queue
    rw [hq, List.append_nil] at hqueue
    exact ⟨hst, hsus, hqueue⟩
  · refine .inr ⟨hst, (loop_rests hr).resolve_left fun hsus => ?_⟩
    have hsig := h.wf.waiting.mp hsus
    rw [h.told (by rw [hst]; rfl)] at hsig
    cases hsig

/-- **The loop keeps up, and ends when it is told to.**  Without `cancel_contexts()` and without errors that end a server
that runs, in every order of the steps: a run is bounded by what came from outside; it can always be brought to its end
by steps of the loop, the poller and `shutdown()`; and where none is left, either every connection that ever came was
handled and the loop sleeps, or the server was shut down and the loop has returned. -/
theorem accept_settles {as : List Action} (h : exec calmStep init as = some s) :
    as.length ≤ 6 + 6 * as.countP (fun a => !a.own) ∧
      (∃ bs t, (∀ b ∈ bs, b.own = true) ∧ exec calmStep s bs = some t ∧ Settled t) ∧
      (Rests calmStep Action.own s → Settled s) := by
  have h0 : Inv init ∧ Calm init := ⟨inv_init, calm_init⟩
  have hs := calm_metered.inv_exec h0 h
  refine ⟨?_, ?_, settled_of_rests hs.1 hs.2⟩
  · have hlen := calm_metered.length_le h0 h
    have hwork : work init = 6 := by simp [work, init, Side.init, Side.price, Side.phasePrice, Side.wordPrice, Stage.left]
    omega
  · obtain ⟨bs, t, hown, hexec, ht, hrest⟩ := calm_metered.exists_rest s hs
    exact ⟨bs, t, hown, hexec, settled_of_rests ht.1 ht.2 hrest⟩

end CalmSteps

/-- Two connections, and a shutdown in the middle of the second await. -/
theorem accept_settles_two :
    ∃ s, exec calmStep init
        [.arrive, .accept (.accepted none), .accept (.failed EAGAIN false), .await, .arrive, .report, .resume EAGAIN,
          .accept (.accepted none), .accept (.failed EAGAIN false), .await, .shutdown, .shutNext, .resume 9, .shutNext,
          .shutNext] = some s ∧
      Rests calmStep Action.own s ∧ Settled s := by
  have h : exec calmStep init
      [.arrive, .accept (.accepted none), .accept (.failed EAGAIN false), .await, .arrive, .report, .resume EAGAIN,
        .accept (.accepted none), .accept (.failed EAGAIN false), .await, .shutdown, .shutNext, .resume 9, .shutNext,
        .shutNext] =
      some ⟨[], 2, [(0, .served), (1, .served)], .closed, none, ⟨.returned 9, .stopped, false, true⟩⟩ := by decide
  have hrests : Rests calmStep Action.own
      ⟨[], 2, [(0, .served), (1, .served)], .closed, none, ⟨.returned 9, .stopped, false, true⟩⟩ := by
    intro a ha
    cases a with
    | arrive | rouse | shutdown => cases ha
    | accept _ | await | resume _ | report | shutNext | cancelContexts => simp [calmStep, guarded, step, State.calm, State.shut]
  exact ⟨_, h, hrests, (accept_settles h).2.2 hrests⟩

/-! ## §6 — `cancel_contexts()` without a shutdown. -/

/-- No shutdown, and no error that would end a server that runs. -/
def Action.quiet : Action → Bool
  | .accept a => a.mild
  | .resume errno => !gives false errno
  | .shutdown => false
  | _ => true

def quietStep : State → Action → Option State := guarded step fun _ a => a.quiet = true

/-- A step of the loop itself. -/
def Action.turns : Action → Bool
  | .accept _ | .await | .resume _ => true
  | _ => false

/-- The loop is cancelled, but its server is not shut down. -/
structure Spins (s : State) : Prop where
  running : s.stage = .running
  cancelled : s.loop.cancelled = true
  goes : s.loop.phase.isReturned = false

section Quiet

variable {s t : State}

theorem serveTurn_goes {res : Option Nat} (h : ∀ ec, res = some ec → gives false ec = false) :
    (serveTurn false res).isReturned = false := by
  cases res with
  | none => rfl
  | some ec => simp [serveTurn, h ec rfl, Phase.isReturned]

theorem spins_step (h : Inv s) (hs : Spins s) {a : Action} (ht : quietStep s a = some t) : Spins t := by
  obtain ⟨ha, ht⟩ := Option.ite_none_right_eq_some.mp ht
  have hlive : s.stopped = false := by rw [State.stopped, hs.running]; rfl
  cases a with
  | arrive | rouse =>
      obtain rfl := Option.some.inj ht
      exact ⟨hs.running, hs.cancelled, hs.goes⟩
  | accept a =>
      obtain ⟨-, ⟨⟩⟩ := Option.ite_none_right_eq_some.mp ht
      refine ⟨hs.running, hs.cancelled, ?_⟩
      simp only [State.took, Side.goto, hlive]
      exact isReturned_of_mild ha
  | await =>
      obtain ⟨-, ⟨⟩⟩ := Option.ite_none_right_eq_some.mp ht
      rw [State.awaits, hlive, if_neg Bool.false_ne_true]
      refine ⟨hs.running, hs.cancelled, ?_⟩
      rcases s.loop.await_phase with hp | hp <;> simp [hp, Phase.isReturned]
  | resume errno =>
      obtain ⟨-, ⟨⟩⟩ := Option.ite_none_right_eq_some.mp ht
      refine ⟨hs.running, hs.cancelled, ?_⟩
      have hd : s.loop.dead = true := by simp [Side.dead, hs.cancelled]
      simp only [Side.goto, hlive, hd, acceptResume, if_true]
      refine serveTurn_goes fun ec he => ?_
      obtain rfl := Option.some.inj he
      simpa [Action.quiet] using ha
  | report =>
      obtain ⟨-, ⟨⟩⟩ := Option.ite_none_right_eq_some.mp ht
      refine ⟨hs.running, (Side.report_cancelled _ _ _).trans hs.cancelled, ?_⟩
      rcases h.wf.stirs_report keys Events.IN s.mask with hp | ⟨-, hp⟩
      · simpa [hp] using hs.goes
      · simp [hp, Phase.isReturned]
  | shutdown => cases ha
  | shutNext => simp [step, State.shut, hs.running] at ht
  | cancelContexts =>
      obtain rfl := Option.some.inj ht
      refine ⟨hs.running, rfl, ?_⟩
      rcases h.wf.stirs_cancel with hp | ⟨-, hp⟩
      · simpa [hp] using hs.goes
      · simp [hp, Phase.isReturned]

theorem quietStep_eq {a : Action} (ha : a.quiet = true) : quietStep s a = step s a := if_pos ha

/-- There is always a next turn. -/
theorem exists_turn (h : Inv s) (hs : Spins s) : ∃ a t, a.turns = true ∧ quietStep s a = some t := by
  cases hp : s.loop.phase with
  | call =>
      by_cases hq : s.backlog = []
      · refine ⟨.accept (.failed EAGAIN false), s.took (.failed EAGAIN false), rfl, ?_⟩
        rw [quietStep_eq (by decide), step, if_pos ⟨hp, by simp [State.accepts, hq]⟩]
      · refine ⟨.accept (.accepted none), s.took (.accepted none), rfl, ?_⟩
        rw [quietStep_eq (by decide), step, if_pos ⟨hp, by simp [State.accepts, hq]⟩]
  | await =>
      refine ⟨.await, s.awaits, rfl, ?_⟩
      rw [quietStep_eq (by decide), step, if_pos hp]
  | resumed =>
      have hno : s.errno = none ∨ s.errno = some EAGAIN := by
        cases he : s.errno with
        | none => exact .inl rfl
        | some e => exact .inr (by rw [h.errno (.inr hp) e he])
      refine ⟨.resume EAGAIN, { s with loop := s.loop.goto (acceptResume s.stopped s.loop.dead EAGAIN) }, rfl, ?_⟩
      rw [quietStep_eq (by decide), step, if_pos ⟨hp, hno⟩]
  | suspended =>
      have hx := h.wf.live hp
      rw [hs.cancelled] at hx
      cases hx
  | returned ec =>
      have hx := hs.goes
      rw [hp] at hx
      cases hx

theorem spins_exec : ∀ {as : List Action} {s t : State}, Inv s → Spins s → exec quietStep s as = some t → Inv t ∧ Spins t
  | [], s, t, h, hs, he => by
      obtain rfl : s = t := by simpa [exec] using he
      exact ⟨h, hs⟩
  | a :: as, s, t, h, hs, he => by
      obtain ⟨u, hu, ht⟩ := Option.bind_eq_some_iff.mp he
      exact spins_exec (inv_step h (Option.ite_none_right_eq_some.mp hu).2) (spins_step h hs hu) ht

theorem exists_turns (n : Nat) (s : State) (h : Inv s) (hs : Spins s) :
    ∃ as t, as.length = n ∧ (∀ a ∈ as, a.turns = true) ∧ exec quietStep s as = some t := by
  induction n generalizing s with
  | zero => exact ⟨[], s, rfl, by simp, rfl⟩
  | succ n ih =>
      obtain ⟨a, u, ha, hu⟩ := exists_turn h hs
      obtain ⟨as, t, hlen, hown, hexec⟩ := ih u (inv_step h (Option.ite_none_right_eq_some.mp hu).2) (spins_step h hs hu)
      refine ⟨a :: as, t, by rw [List.length_cons, hlen], ?_, Option.bind_eq_some_iff.mpr ⟨u, hu, hexec⟩⟩
      intro b hb
      rcases List.mem_cons.mp hb with rfl | hb
      · exact ha
      · exact hown b hb

/-- **`cancel_contexts()` does not end the loop, it makes it spin.**  From every state in which the loop is cancelled and
its server is not shut down: as long as there is no shutdown and no error that would end the server by itself, the loop
neither sleeps nor returns, and it goes round as often as one likes without any event. -/
theorem cancelled_spins (h : Reachable step init s) (hs : Spins s) :
    (∀ as t, exec quietStep s as = some t → t.loop.phase ≠ .suspended ∧ ∀ ec, t.loop.phase ≠ .returned ec) ∧
      ∀ n, ∃ as t, as.length = n ∧ (∀ a ∈ as, a.turns = true) ∧ exec quietStep s as = some t := by
  have hinv := inv_of_reachable h
  refine ⟨fun as t ht => ?_, fun n => exists_turns n s hinv hs⟩
  obtain ⟨hi, hspin⟩ := spins_exec hinv hs ht
  refine ⟨fun hsus => ?_, fun ec hec => ?_⟩
  · have hx := hi.wf.live hsus
    rw [hspin.cancelled] at hx
    cases hx
  · have hx := hspin.goes
    rw [hec] at hx
    cases hx

end Quiet

/-- A loop that is cancelled in its sleep. -/
theorem cancelled_spins_asleep :
    ∃ s, Reachable step init s ∧ Spins s ∧
      ∀ n, ∃ as t, as.length = n ∧ (∀ a ∈ as, a.turns = true) ∧ exec quietStep s as = some t := by
  have h : exec step init [.accept (.failed EAGAIN false), .await, .cancelContexts] =
      some ⟨[], 0, [], .running, none, ⟨.resumed, .idle, false, true⟩⟩ := by decide
  have hr := reachable_of_exec h
  have hs : Spins ⟨[], 0, [], .running, none, ⟨.resumed, .idle, false, true⟩⟩ := ⟨rfl, rfl, rfl⟩
  exact ⟨_, hr, hs, (cancelled_spins hr hs).2⟩

end NetCpp.Net.Listen
