/-
# NetCpp.Io.Splice — forwarding through a pipe.

`include/xsl/asio/pipe.h` over the loops of `NetCpp.Io.Device`.  `splice_bidirectional` makes a pipe and yields two
coroutines: the first splices the socket `from` into the pipe, the second splices the pipe into the socket `to`.  A
`splice` awaits the read signal of its source as long as it has moved nothing; behind that it returns at the first call
that moves nothing more.

## The kernel

`Pipe.takes` says at how many bytes a pipe takes more; `to` may take nothing at any time (`full`).  A call moves any part
of what there is, up to `MAX_SINGLE_FWD_SIZE`, or fails.  The bytes of the peer come in pieces, and then the end of its
stream; `HUP`, which is reported when both directions are down, is left out.

The ends of the pipe are registered, and nobody deregisters them: the map of the poller holds them
(`DefaultEpollWrapper::deregister`).  So the pipe has an end only when the first coroutine has returned and the poller
was shut down, behind the stops of all signals (`IOContext::shutdown`).

## Steps

A step is one system call, one signal call or one event that is published, of either coroutine, in any interleaving.
`inline` says which of these orders there are when both run on the thread of the poller.
-/
import NetCpp.Io.Transfer

namespace NetCpp.Io.Splice

open NetCpp.Lib
open NetCpp.Io.Transfer (Answer)
open NetCpp.Sys.IOContext (Events published)

/-! ## §1 — `splice`. -/

/-- The `errc` of `splice`. -/
inductive SpliceError
  | noMessage
  | notConnected
  | errno (n : Nat)
  deriving DecidableEq

/-- `std::optional<errc>` -/
abbrev Result := Option SpliceError

def MAX_SINGLE_FWD_SIZE : Nat := 4096

/-- A coroutine in `splice`. -/
structure Loop where
  offset : Nat
  side : Side Result
  deriving DecidableEq

namespace Loop

def init : Loop := ⟨0, .init⟩

/-- Where the loop goes when `::splice` has moved nothing. -/
def dry (l : Loop) (p : Phase Result) : Phase Result := if l.offset ≠ 0 then .returned none else p

/-- `::splice` has answered. -/
def turn (l : Loop) : Answer → Loop
  | .moved n =>
      if 0 < n then ⟨l.offset + n, l.side.goto .call⟩ else ⟨l.offset, l.side.goto (l.dry (.returned (some .noMessage)))⟩
  | .again => ⟨l.offset, l.side.goto (l.dry .await)⟩
  | .failed errno => ⟨l.offset, l.side.goto (.returned (some (.errno errno)))⟩

/-- Behind `co_await from->read_signal()`. -/
def resume (l : Loop) : Loop :=
  ⟨l.offset, l.side.goto (if l.side.dead = true then .returned (some .notConnected) else .call)⟩

/-- An event, or the await. -/
def map (f : Side Result → Side Result) (l : Loop) : Loop := ⟨l.offset, f l.side⟩

/-- The coroutine runs. -/
def active (l : Loop) : Bool :=
  match l.side.phase with
  | .call | .await | .resumed => true
  | .suspended | .returned _ => false

end Loop

/-! ## §2 — the two of them. -/

/-- At how many bytes a pipe takes more. -/
structure Pipe where
  takes : Nat → Bool
  empty : takes 0 = true

/-- Which of the coroutines. -/
inductive Which
  | fill
  | drain
  deriving DecidableEq

structure State where
  /-- what the peer will send -/
  future : Bytes
  /-- what came and was not taken from `from` -/
  queue : Bytes
  /-- the peer has closed its side -/
  fin : Bool
  pipe : Bytes
  /-- what `to` was given -/
  written : Bytes
  /-- `to` takes nothing -/
  full : Bool
  /-- history: `to` took nothing of a pipe with bytes in it, before it had taken any -/
  stuck : Bool
  /-- the poller was shut down -/
  shut : Bool
  fill : Loop
  drain : Loop
  deriving DecidableEq

def init (data : Bytes) : State := ⟨data, [], false, [], [], false, false, false, .init, .init⟩

inductive Action
  /-- bytes of the peer come -/
  | arrive (n : Nat)
  /-- the end of its stream comes -/
  | finish
  | full (b : Bool)
  /-- the poller lets go of its map -/
  | shut
  /-- `::splice` -/
  | call (w : Which) (a : Answer)
  | await (w : Which)
  | resume (w : Which)
  | report (w : Which)
  | rouse (w : Which)
  | stop (w : Which)
  | cancel (w : Which)
  deriving DecidableEq

namespace State

def loop (s : State) : Which → Loop
  | .fill => s.fill
  | .drain => s.drain

def set (s : State) (w : Which) (l : Loop) : State :=
  match w with
  | .fill => { s with fill := l }
  | .drain => { s with drain := l }

/-- The writing end of the pipe is closed. -/
def closed (s : State) : Bool := s.shut && s.fill.side.phase.isReturned

/-- The answers `::splice` may give to the first coroutine. -/
def fills (P : Pipe) (s : State) : Answer → Bool
  | .moved n =>
      P.takes s.pipe.length &&
        if s.queue = [] then s.fin && n == 0 else decide (0 < n ∧ n ≤ min MAX_SINGLE_FWD_SIZE s.queue.length)
  | .again => !P.takes s.pipe.length || (decide (s.queue = []) && !s.fin)
  | .failed _ => true

/-- The answers `::splice` may give to the second one. -/
def drains (s : State) : Answer → Bool
  | .moved n =>
      if s.pipe = [] then s.closed && n == 0
      else !s.full && decide (0 < n ∧ n ≤ min MAX_SINGLE_FWD_SIZE s.pipe.length)
  | .again => if s.pipe = [] then !s.closed else s.full
  | .failed _ => true

/-- `::splice` has answered the first coroutine. -/
def filled (s : State) (a : Answer) : State :=
  { s with
    queue := s.queue.drop a.bytes
    pipe := s.pipe ++ s.queue.take a.bytes
    fill := s.fill.turn a
    drain := if 0 < a.bytes then s.drain.map Side.rouse else s.drain }

/-- `::splice` has answered the second one. -/
def drained (s : State) (a : Answer) : State :=
  { s with
    pipe := s.pipe.drop a.bytes
    written := s.written ++ s.pipe.take a.bytes
    stuck := s.stuck || decide (a = .again ∧ s.pipe ≠ [] ∧ s.drain.offset = 0)
    drain := s.drain.turn a }

end State

/-- The keys of the device that is read. -/
def keys : Which → List Events
  | .fill => [Events.IN, Events.OUT]
  | .drain => [Events.IN]

/-- The device that is read has something. -/
def State.readable (s : State) : Which → Bool
  | .fill => decide (s.queue ≠ []) || s.fin
  | .drain => decide (s.pipe ≠ [])

def step (P : Pipe) (s : State) : Action → Option State
  | .arrive n =>
      if 0 < n ∧ n ≤ s.future.length then
        some { s with
          future := s.future.drop n
          queue := s.queue ++ s.future.take n
          fill := s.fill.map Side.rouse }
      else none
  | .finish =>
      if s.future = [] ∧ s.fin = false then some { s with fin := true, fill := s.fill.map Side.rouse } else none
  | .full b => some { s with full := b }
  | .shut =>
      if s.fill.side.sig = .stopped ∧ s.drain.side.sig = .stopped then some { s with shut := true } else none
  | .call .fill a => if s.fill.side.phase = .call ∧ s.fills P a = true then some (s.filled a) else none
  | .call .drain a => if s.drain.side.phase = .call ∧ s.drains a = true then some (s.drained a) else none
  | .await w => if (s.loop w).side.phase = .await then some (s.set w ((s.loop w).map Side.await)) else none
  | .resume w => if (s.loop w).side.phase = .resumed then some (s.set w (s.loop w).resume) else none
  | .report w =>
      if (s.loop w).side.ready = true then
        some (s.set w ((s.loop w).map (Side.report (keys w) Events.IN (if s.readable w = true then Events.IN else 0))))
      else none
  | .rouse w => some (s.set w ((s.loop w).map Side.rouse))
  | .stop w => some (s.set w ((s.loop w).map Side.stop))
  | .cancel w => some (s.set w ((s.loop w).map Side.cancel))

/-! ### An echo

Both coroutines sleep when two bytes come; these are forwarded, and two more that come later are not. -/

def wide : Pipe := ⟨fun _ => true, rfl⟩

def echo : List Action :=
  [.call .fill .again, .await .fill, .call .drain .again, .await .drain, .arrive 2, .report .fill, .resume .fill,
    .call .fill (.moved 2), .call .fill .again, .report .drain, .resume .drain, .call .drain (.moved 2),
    .call .drain .again, .arrive 2, .report .fill]

def echoed : State :=
  ⟨[], [3, 4], false, [], [1, 2], false, false, false, ⟨2, ⟨.returned none, .signaled, false, false⟩⟩,
    ⟨2, ⟨.returned none, .idle, false, false⟩⟩⟩

/-! ## §3 — what holds of a loop.

`quiet` is what a loop may sleep on. -/

structure Loop.Inv (quiet : Prop) (l : Loop) : Prop where
  wf : l.side.WF
  idle : l.side.Waits ∨ l.side.phase = .resumed → l.offset = 0
  fed : l.side.Waits → quiet ∨ l.side.Woken
  moved : l.side.phase = .returned none → 0 < l.offset

namespace Loop.Inv

variable {quiet quiet' : Prop} {l : Loop}

theorem init : Loop.init.Inv quiet where
  wf := Side.wf_init
  idle := by simp [Loop.init, Side.init, Side.Waits]
  fed := by simp [Loop.init, Side.init, Side.Waits]
  moved := by simp [Loop.init, Side.init]

theorem imp (h : l.Inv quiet) (hq : quiet → quiet') : l.Inv quiet' :=
  ⟨h.wf, h.idle, fun hw => (h.fed hw).imp_left hq, h.moved⟩

/-- An event leaves the loop where it is, or resumes it. -/
theorem of_stirs (h : l.Inv quiet) {f : Side Result → Side Result} (hd : (f l.side).WF) (hcd : l.side.Stirs (f l.side))
    (hw : (f l.side).Waits → quiet' ∨ (f l.side).Woken) : (l.map f).Inv quiet' where
  wf := hd
  idle hl := hl.elim (fun hl => h.idle (.inl (hcd.waits hl))) fun hl => h.idle (hcd.resumed hl)
  fed := hw
  moved hr := h.moved (hcd.returned hr)

theorem rouse (h : l.Inv quiet) : (l.map Side.rouse).Inv quiet' :=
  h.of_stirs h.wf.rouse Side.stirs_rouse fun _ => .inr Side.woken_rouse

theorem stop (h : l.Inv quiet) : (l.map Side.stop).Inv quiet :=
  h.of_stirs h.wf.stop h.wf.stirs_stop fun _ => .inr Side.woken_stop

theorem cancel (h : l.Inv quiet) : (l.map Side.cancel).Inv quiet :=
  h.of_stirs h.wf.cancel h.wf.stirs_cancel fun _ => .inr Side.woken_cancel

theorem report (h : l.Inv quiet) {ks : List Events} (hk : (published ks Events.IN).contains Events.IN = true) {b : Bool}
    (hb : b = false → quiet) : (l.map (Side.report ks Events.IN (if b = true then Events.IN else 0))).Inv quiet := by
  refine h.of_stirs (h.wf.report _ _ _) (h.wf.stirs_report _ _ _) fun hw => ?_
  cases b with
  | false => exact .inl (hb rfl)
  | true =>
      rw [if_pos rfl] at hw ⊢
      exact .inr (Side.woken_report rfl hk hw)

theorem await (h : l.Inv quiet) (hc : l.side.phase = .await) : (l.map Side.await).Inv quiet where
  wf := h.wf.await hc
  idle _ := h.idle (.inl (.inl hc))
  fed hw := (h.fed (.inl hc)).imp_right fun hk => Side.woken_await hw hk
  moved hr := absurd hr (Side.await_not_returned none)

/-- The loop goes on with a call, or ends. -/
theorem goto (h : l.side.WF) (hc : l.side.phase ≠ .suspended) {n : Nat} {p : Phase Result}
    (hp : p = .call ∨ ∃ res, p = .returned res ∧ (res = none → 0 < n)) : (⟨n, l.side.goto p⟩ : Loop).Inv quiet := by
  rcases hp with rfl | ⟨res, rfl, hres⟩
  · exact ⟨h.goto hc (by simp), by simp [Side.Waits, Side.goto], by simp [Side.Waits, Side.goto], by simp [Side.goto]⟩
  · refine ⟨h.goto hc (by simp), by simp [Side.Waits, Side.goto], by simp [Side.Waits, Side.goto], fun hr => ?_⟩
    exact hres (by simpa [Side.goto] using hr)

theorem resume (h : l.Inv quiet) (hc : l.side.phase = .resumed) : l.resume.Inv quiet := by
  refine goto h.wf (by rw [hc]; simp) ?_
  split
  · exact .inr ⟨_, rfl, by simp⟩
  · exact .inl rfl

/-- A loop that has moved something does not wait again. -/
theorem turn (h : l.Inv quiet) (hc : l.side.phase = .call) {a : Answer}
    (ha : a = .again → l.offset = 0 → quiet') : (l.turn a).Inv quiet' := by
  have hsus : l.side.phase ≠ .suspended := by
    rw [hc]
    simp
  have hdry : ∀ {res : Result}, res ≠ none → ∃ r, l.dry (.returned res) = .returned r ∧ (r = none → 0 < l.offset) := by
    intro res hres
    unfold dry
    split
    · exact ⟨none, rfl, fun _ => by omega⟩
    · exact ⟨res, rfl, fun hn => absurd hn hres⟩
  cases a with
  | moved n =>
      simp only [Loop.turn]
      split
      · exact goto h.wf hsus (.inl rfl)
      · exact goto h.wf hsus (.inr (hdry (by simp)))
  | again =>
      by_cases ho : l.offset = 0
      · simp only [Loop.turn, dry, ho, ne_eq, not_true_eq_false, if_false]
        exact ⟨h.wf.goto hsus (by simp), fun _ => rfl, fun _ => .inl (ha rfl ho), by simp [Side.goto]⟩
      · simp only [Loop.turn, dry, ne_eq, ho, not_false_eq_true, if_true]
        exact goto h.wf hsus (.inr ⟨none, rfl, fun _ => by omega⟩)
  | failed errno => exact goto h.wf hsus (.inr ⟨_, rfl, by simp⟩)

end Loop.Inv

/-! ## §4 — every step. -/

structure Inv (data : Bytes) (s : State) : Prop where
  stream : s.written ++ s.pipe ++ s.queue ++ s.future = data
  filled : s.fill.offset = s.written.length + s.pipe.length
  drained : s.drain.offset = s.written.length
  fill : s.fill.Inv (s.queue = [] ∧ s.fin = false)
  drain : s.drain.Inv (s.pipe = [] ∨ s.stuck = true)

theorem inv_init (data : Bytes) : Inv data (init data) := ⟨by simp [init], rfl, rfl, .init, .init⟩

section Steps

variable {P : Pipe} {data : Bytes} {s t : State}

theorem turn_offset (l : Loop) (a : Answer) : (l.turn a).offset = l.offset + a.bytes := by
  cases a with
  | moved n =>
      simp only [Loop.turn, Answer.bytes]
      split
      · rfl
      · simp only
        omega
  | again | failed _ => rfl

theorem fills_bytes {a : Answer} (h : s.fills P a = true) : a.bytes ≤ s.queue.length := by
  cases a with
  | moved n =>
      simp only [State.fills, Bool.and_eq_true] at h
      obtain ⟨-, h⟩ := h
      split at h
      · simp at h
        simp [Answer.bytes, h.2]
      · have hn := of_decide_eq_true h
        simp only [Answer.bytes]
        omega
  | again | failed _ => exact Nat.zero_le _

theorem drains_bytes {a : Answer} (h : s.drains a = true) : a.bytes ≤ s.pipe.length := by
  cases a with
  | moved n =>
      simp only [State.drains] at h
      split at h
      · simp at h
        simp [Answer.bytes, h.2]
      · simp only [Bool.and_eq_true, decide_eq_true_eq] at h
        simp only [Answer.bytes]
        omega
  | again | failed _ => exact Nat.zero_le _

theorem inv_fill (h : Inv data s) {a : Answer} (hc : s.fill.side.phase = .call) (ha : s.fills P a = true) :
    Inv data (s.filled a) where
  stream := by
    simp only [State.filled]
    rw [← List.append_assoc, List.append_assoc (s.written ++ s.pipe), List.take_append_drop]
    exact h.stream
  filled := by
    have hle := fills_bytes ha
    simp only [State.filled, turn_offset, List.length_append, List.length_take, h.filled]
    omega
  drained := by
    simp only [State.filled]
    split
    · exact h.drained
    · exact h.drained
  fill := by
    refine h.fill.turn hc fun hagain ho => ?_
    subst hagain
    -- the pipe is empty as long as nothing was moved
    have hpipe : s.pipe = [] := by
      have := h.filled
      exact List.length_eq_zero_iff.mp (by omega)
    simpa [State.fills, State.filled, hpipe, P.empty, Answer.bytes] using ha
  drain := by
    by_cases hb : 0 < a.bytes
    · simp only [State.filled, hb, if_true]
      exact h.drain.rouse
    · have hzero : a.bytes = 0 := by omega
      simp only [State.filled, hzero, Nat.lt_irrefl, if_false, List.take_zero, List.append_nil]
      exact h.drain

theorem inv_drain (h : Inv data s) {a : Answer} (hc : s.drain.side.phase = .call) (ha : s.drains a = true) :
    Inv data (s.drained a) where
  stream := by
    simp only [State.drained]
    rw [List.append_assoc s.written, List.take_append_drop]
    exact h.stream
  filled := by
    have hle := drains_bytes ha
    have hfill := h.filled
    simp only [State.drained, List.length_append, List.length_take, List.length_drop]
    omega
  drained := by
    have hle := drains_bytes ha
    simp only [State.drained, turn_offset, List.length_append, List.length_take, h.drained]
    omega
  fill := h.fill
  drain := by
    refine h.drain.turn hc fun hagain ho => ?_
    subst hagain
    by_cases hp : s.pipe = []
    · exact .inl (by simp [State.drained, hp])
    · exact .inr (by simp [State.drained, hp, ho])

/-- What a loop may sleep on. -/
def State.Quiet (s : State) : Which → Prop
  | .fill => s.queue = [] ∧ s.fin = false
  | .drain => s.pipe = [] ∨ s.stuck = true

theorem Inv.loop (h : Inv data s) (w : Which) : (s.loop w).Inv (s.Quiet w) := by
  cases w with
  | fill => exact h.fill
  | drain => exact h.drain

/-- A step of one loop that moves no bytes. -/
theorem Inv.set (h : Inv data s) {w : Which} {l : Loop} (ho : l.offset = (s.loop w).offset) (hl : l.Inv (s.Quiet w)) :
    Inv data (s.set w l) := by
  cases w with
  | fill => exact ⟨h.stream, ho.trans h.filled, h.drained, hl, h.drain⟩
  | drain => exact ⟨h.stream, h.filled, ho.trans h.drained, h.fill, hl⟩

theorem quiet_of_not_readable {w : Which} (h : s.readable w = false) : s.Quiet w := by
  cases w with
  | fill => simpa [State.readable, State.Quiet] using h
  | drain => exact .inl (by simpa [State.readable] using h)

theorem published_keys (w : Which) : (published (keys w) Events.IN).contains Events.IN = true := by
  cases w <;> decide

theorem inv_step (h : Inv data s) {a : Action} (hs : step P s a = some t) : Inv data t := by
  cases a with
  | arrive n =>
      obtain ⟨-, ⟨⟩⟩ := Option.ite_none_right_eq_some.mp hs
      refine ⟨?_, h.filled, h.drained, h.fill.rouse, h.drain⟩
      simp only
      rw [← List.append_assoc, List.append_assoc _ (s.future.take n), List.take_append_drop]
      exact h.stream
  | finish =>
      obtain ⟨-, ⟨⟩⟩ := Option.ite_none_right_eq_some.mp hs
      exact ⟨h.stream, h.filled, h.drained, h.fill.rouse, h.drain⟩
  | full b =>
      obtain rfl := Option.some.inj hs
      exact ⟨h.stream, h.filled, h.drained, h.fill, h.drain⟩
  | shut =>
      obtain ⟨-, ⟨⟩⟩ := Option.ite_none_right_eq_some.mp hs
      exact ⟨h.stream, h.filled, h.drained, h.fill, h.drain⟩
  | call w a =>
      cases w with
      | fill =>
          obtain ⟨⟨hc, ha⟩, ⟨⟩⟩ := Option.ite_none_right_eq_some.mp hs
          exact inv_fill h hc ha
      | drain =>
          obtain ⟨⟨hc, ha⟩, ⟨⟩⟩ := Option.ite_none_right_eq_some.mp hs
          exact inv_drain h hc ha
  | await w =>
      obtain ⟨hc, ⟨⟩⟩ := Option.ite_none_right_eq_some.mp hs
      exact h.set rfl ((h.loop w).await hc)
  | resume w =>
      obtain ⟨hc, ⟨⟩⟩ := Option.ite_none_right_eq_some.mp hs
      exact h.set rfl ((h.loop w).resume hc)
  | report w =>
      obtain ⟨-, ⟨⟩⟩ := Option.ite_none_right_eq_some.mp hs
      exact h.set rfl ((h.loop w).report (published_keys w) quiet_of_not_readable)
  | rouse w =>
      obtain rfl := Option.some.inj hs
      exact h.set rfl (h.loop w).rouse
  | stop w =>
      obtain rfl := Option.some.inj hs
      exact h.set rfl (h.loop w).stop
  | cancel w =>
      obtain rfl := Option.some.inj hs
      exact h.set rfl (h.loop w).cancel

/-! ## §5 — every run. -/

theorem inv_run (hi : Inv data s) (hr : Reachable (step P) s t) : Inv data t :=
  Run.invariant (fun _ _ _ hs _ hstep => inv_step hs hstep) hi hr

theorem inv_of_reachable (h : Reachable (step P) (init data) s) : Inv data s := inv_run (inv_init data) h

/-- What a loop that has returned has moved is all it ever moves. -/
structure Ends (w : Which) (moved : Nat) (s : State) : Prop where
  returned : (s.loop w).side.phase.isReturned = true
  offset : (s.loop w).offset = moved

/-- An event changes no phase that is an end. -/
theorem Ends.stirs {w v : Which} {m : Nat} (h : Ends w m s) {l : Loop} (hst : (s.loop v).side.Stirs l.side)
    (ho : l.offset = (s.loop v).offset) : Ends w m (s.set v l) := by
  cases w <;> cases v
  · exact ⟨hst.isReturned h.returned, ho.trans h.offset⟩
  · exact ⟨h.returned, h.offset⟩
  · exact ⟨h.returned, h.offset⟩
  · exact ⟨hst.isReturned h.returned, ho.trans h.offset⟩

/-- Nor does the other coroutine. -/
theorem Ends.other {w v : Which} {m : Nat} (h : Ends w m s) {l : Loop} (hv : v ≠ w) : Ends w m (s.set v l) := by
  cases w <;> cases v
  · exact absurd rfl hv
  · exact ⟨h.returned, h.offset⟩
  · exact ⟨h.returned, h.offset⟩
  · exact absurd rfl hv

/-- The loop that takes a step of its own is the other one. -/
theorem Ends.ne_of_phase {w v : Which} {m : Nat} (h : Ends w m s) {p : Phase Result} (hp : (s.loop v).side.phase = p)
    (hr : p.isReturned = false) : v ≠ w := by
  rintro rfl
  have := h.returned
  rw [hp, hr] at this
  cases this

theorem ends_step {w : Which} {m : Nat} (hi : Inv data s) (h : Ends w m s) {a : Action} (hs : step P s a = some t) :
    Ends w m t := by
  cases a with
  | arrive n =>
      obtain ⟨-, ⟨⟩⟩ := Option.ite_none_right_eq_some.mp hs
      have := h.stirs (v := .fill) (l := s.fill.map Side.rouse) Side.stirs_rouse rfl
      exact ⟨by cases w <;> exact this.returned, by cases w <;> exact this.offset⟩
  | finish =>
      obtain ⟨-, ⟨⟩⟩ := Option.ite_none_right_eq_some.mp hs
      have := h.stirs (v := .fill) (l := s.fill.map Side.rouse) Side.stirs_rouse rfl
      exact ⟨by cases w <;> exact this.returned, by cases w <;> exact this.offset⟩
  | full b =>
      obtain rfl := Option.some.inj hs
      exact ⟨by cases w <;> exact h.returned, by cases w <;> exact h.offset⟩
  | shut =>
      obtain ⟨-, ⟨⟩⟩ := Option.ite_none_right_eq_some.mp hs
      exact ⟨by cases w <;> exact h.returned, by cases w <;> exact h.offset⟩
  | call v a =>
      cases v with
      | fill =>
          obtain ⟨⟨hc, -⟩, ⟨⟩⟩ := Option.ite_none_right_eq_some.mp hs
          cases w with
          | fill => exact absurd rfl (h.ne_of_phase (v := .fill) hc rfl)
          | drain =>
              simp only [State.filled]
              split
              · exact ⟨h.returned, h.offset⟩
              · exact ⟨h.returned, h.offset⟩
      | drain =>
          obtain ⟨⟨hc, -⟩, ⟨⟩⟩ := Option.ite_none_right_eq_some.mp hs
          cases w with
          | fill => exact ⟨h.returned, h.offset⟩
          | drain => exact absurd rfl (h.ne_of_phase (v := .drain) hc rfl)
  | await v =>
      obtain ⟨hc, ⟨⟩⟩ := Option.ite_none_right_eq_some.mp hs
      exact h.other (h.ne_of_phase hc rfl)
  | resume v =>
      obtain ⟨hc, ⟨⟩⟩ := Option.ite_none_right_eq_some.mp hs
      exact h.other (h.ne_of_phase hc rfl)
  | report v =>
      obtain ⟨-, ⟨⟩⟩ := Option.ite_none_right_eq_some.mp hs
      exact h.stirs ((hi.loop v).wf.stirs_report _ _ _) rfl
  | rouse v =>
      obtain rfl := Option.some.inj hs
      exact h.stirs Side.stirs_rouse rfl
  | stop v =>
      obtain rfl := Option.some.inj hs
      exact h.stirs (hi.loop v).wf.stirs_stop rfl
  | cancel v =>
      obtain rfl := Option.some.inj hs
      exact h.stirs (hi.loop v).wf.stirs_cancel rfl

theorem ends_run {w : Which} (hi : Inv data s) (h : (s.loop w).side.phase.isReturned = true)
    (hr : Reachable (step P) s t) : (t.loop w).offset = (s.loop w).offset := by
  have hends : Inv data t ∧ Ends w (s.loop w).offset t := by
    induction hr with
    | refl => exact ⟨hi, h, rfl⟩
    | tail a _ _ hs ih => exact ⟨inv_step ih.1 hs, ends_step ih.1 ih.2 hs⟩
  exact hends.2.offset

/-- A piece from the beginning of the stream is told by its length. -/
theorem piece_unique {x y v w : Bytes} (h : x ++ v = y ++ w) (hlen : x.length = y.length) : x = y :=
  (List.append_inj h hlen).1

/-- When the first coroutine has returned nothing goes into the pipe any more. -/
theorem taken_stays (hi : Inv data s) (h : s.fill.side.phase.isReturned = true) (hr : Reachable (step P) s t) :
    t.written ++ t.pipe = s.written ++ s.pipe := by
  have hi' : Inv data t := inv_run hi hr
  have hsame : t.fill.offset = s.fill.offset := ends_run (w := .fill) hi h hr
  have hstream := hi'.stream.trans hi.stream.symm
  rw [List.append_assoc (t.written ++ t.pipe), List.append_assoc (s.written ++ s.pipe)] at hstream
  refine piece_unique hstream ?_
  rw [List.length_append, List.length_append, ← hi'.filled, ← hi.filled, hsame]

/-- When the second one has, nothing comes out. -/
theorem written_stays (hi : Inv data s) (h : s.drain.side.phase.isReturned = true) (hr : Reachable (step P) s t) :
    t.written = s.written := by
  have hi' : Inv data t := inv_run hi hr
  have hsame : t.drain.offset = s.drain.offset := ends_run (w := .drain) hi h hr
  have hstream := hi'.stream.trans hi.stream.symm
  simp only [List.append_assoc] at hstream
  refine piece_unique hstream ?_
  rw [← hi'.drained, ← hi.drained, hsame]

/-- **What is forwarded is a piece of the stream, from its beginning.**  In every state of every run, with stops,
cancellations, a shutdown and failures at any time: what `to` was given, what the pipe holds, what waits in `from` and
what is to come are the stream of the peer.  A `splice` that returns no error has moved something, one that sleeps has
not, and sleeps on nothing that it could move, unless `to` was full when it first tried.  When the first one has returned
nothing goes into the pipe any more, and when the second one has, nothing comes out. -/
theorem splice_exact (h : Reachable (step P) (init data) s) :
    s.written ++ s.pipe ++ s.queue ++ s.future = data ∧
      (s.fill.side.phase = .returned none → s.written ++ s.pipe ≠ []) ∧
      (s.drain.side.phase = .returned none → s.written ≠ []) ∧
      (s.fill.side.phase = .suspended →
        s.written ++ s.pipe = [] ∧ (s.queue ≠ [] ∨ s.fin = true → s.fill.side.ready = true)) ∧
      (s.drain.side.phase = .suspended →
        s.written = [] ∧ (s.pipe ≠ [] → s.drain.side.ready = true ∨ s.stuck = true)) ∧
      ∀ t, Reachable (step P) s t →
        (s.fill.side.phase.isReturned = true → t.written ++ t.pipe = s.written ++ s.pipe) ∧
          (s.drain.side.phase.isReturned = true → t.written = s.written) := by
  have hi := inv_of_reachable h
  have hmoved : ∀ {n : Nat} {bs : Bytes}, n = bs.length → 0 < n → bs ≠ [] := by
    rintro n bs rfl hpos
    exact List.length_pos_iff.mp hpos
  refine ⟨hi.stream, fun hr => ?_, fun hr => ?_, fun hsus => ⟨?_, fun hq => ?_⟩, fun hsus => ⟨?_, fun hp => ?_⟩, ?_⟩
  · exact hmoved (by rw [List.length_append]; exact hi.filled) (hi.fill.moved hr)
  · exact hmoved hi.drained (hi.drain.moved hr)
  · have hzero := hi.fill.idle (.inl (.inr hsus))
    exact List.length_eq_zero_iff.mp (by rw [List.length_append, ← hi.filled, hzero])
  · refine hi.fill.wf.ready hsus ((hi.fill.fed (.inr hsus)).resolve_left ?_)
    rintro ⟨hnil, hf⟩
    rcases hq with hq | hq
    · exact hq hnil
    · rw [hf] at hq
      cases hq
  · have hzero := hi.drain.idle (.inl (.inr hsus))
    exact List.length_eq_zero_iff.mp (by rw [← hi.drained, hzero])
  · rcases hi.drain.fed (.inr hsus) with (hnil | hstuck) | hw
    · exact absurd hnil hp
    · exact .inr hstuck
    · exact .inl (hi.drain.wf.ready hsus hw)
  · exact fun t hr => ⟨fun hret => taken_stays hi hret hr, fun hret => written_stays hi hret hr⟩

theorem exec_echo : exec (step wide) (init [1, 2, 3, 4]) echo = some echoed := by decide

theorem splice_exact_echo : Reachable (step wide) (init [1, 2, 3, 4]) echoed ∧
    ∀ t, Reachable (step wide) echoed t → t.written = [1, 2] := by
  have h := reachable_of_exec exec_echo
  obtain ⟨-, -, -, -, -, hlater⟩ := splice_exact h
  exact ⟨h, fun t ht => (hlater t ht).2 rfl⟩

end Steps

/-! ## §6 — runs without stops, cancellations and failures come to rest. -/

def Action.calm : Action → Bool
  | .stop _ | .cancel _ | .call _ (.failed _) => false
  | _ => true

/-- The peer, the socket `to`, and events that report nothing new are outside. -/
def Action.own : Action → Bool
  | .call _ _ | .await _ | .resume _ | .report _ => true
  | _ => false

/-- The transition function without them. -/
def calmStep (P : Pipe) : State → Action → Option State := guarded (step P) fun _ a => a.calm = true

structure Calm (s : State) : Prop where
  live : ∀ w, (s.loop w).side.dead = false
  fill_end : ∀ res, s.fill.side.phase = .returned res → res = none ∨ (res = some .noMessage ∧ s.fill.offset = 0)
  drain_end : ∀ res, s.drain.side.phase = .returned res → res = none
  open_ : s.shut = false

/-- Bytes are paid for twice: once when they go into the pipe and once when they leave it. -/
def work (s : State) : Nat :=
  10 * (s.future.length + s.queue.length) + 5 * s.pipe.length + s.fill.side.price + s.drain.side.price

section CalmSteps

variable {P : Pipe} {data : Bytes} {s t : State}

theorem both {p : Which → Prop} (hf : p .fill) (hd : p .drain) (w : Which) : p w := by
  cases w with
  | fill => exact hf
  | drain => exact hd

theorem calm_init : Calm (init data) where
  live := both rfl rfl
  fill_end := by simp [init, Loop.init, Side.init]
  drain_end := by simp [init, Loop.init, Side.init]
  open_ := rfl

theorem Calm.set (hc : Calm s) {w : Which} {l : Loop} (ho : l.offset = (s.loop w).offset) (hl : l.side.dead = false)
    (hr : ∀ res, l.side.phase = .returned res → (s.loop w).side.phase = .returned res) : Calm (s.set w l) := by
  have hlive := hc.live
  cases w with
  | fill =>
      have hoff : l.offset = s.fill.offset := ho
      refine ⟨fun v => ?_, fun res h => ?_, hc.drain_end, hc.open_⟩
      rotate_left
      · simpa only [State.set, hoff] using hc.fill_end res (hr res h)
      cases v with
      | fill => exact hl
      | drain => exact hlive .drain
  | drain =>
      refine ⟨fun v => ?_, hc.fill_end, fun res h => hc.drain_end res (hr res h), hc.open_⟩
      cases v with
      | fill => exact hlive .fill
      | drain => exact hl

theorem turn_dead (l : Loop) (a : Answer) : (l.turn a).side.dead = l.side.dead := by
  cases a with
  | moved n =>
      simp only [Loop.turn]
      split <;> rfl
  | again | failed _ => rfl

/-- How a `splice` ends without a failure. -/
theorem turn_returned {l : Loop} {a : Answer} (ha : ∀ errno, a ≠ .failed errno) {res : Result}
    (hr : (l.turn a).side.phase = .returned res) : res = none ∨ (res = some .noMessage ∧ a = .moved 0 ∧ l.offset = 0) := by
  cases a with
  | moved n =>
      simp only [Loop.turn] at hr
      split at hr
      · cases hr
      · obtain rfl : n = 0 := by omega
        simp only [Side.goto, Loop.dry] at hr
        split at hr
        · cases hr
          exact .inl rfl
        · rename_i ho
          cases hr
          exact .inr ⟨rfl, rfl, by omega⟩
  | again =>
      simp only [Loop.turn, Side.goto, Loop.dry] at hr
      split at hr
      · cases hr
        exact .inl rfl
      · cases hr
  | failed errno => exact absurd rfl (ha errno)

theorem calm_step (h : Inv data s) (hc : Calm s) {a : Action} (hs : calmStep P s a = some t) : Calm t := by
  obtain ⟨ha, hs⟩ := Option.ite_none_right_eq_some.mp hs
  have hlive := hc.live
  cases a with
  | arrive n =>
      obtain ⟨-, ⟨⟩⟩ := Option.ite_none_right_eq_some.mp hs
      exact ⟨both (hlive .fill) (hlive .drain), hc.fill_end, hc.drain_end, hc.open_⟩
  | finish =>
      obtain ⟨-, ⟨⟩⟩ := Option.ite_none_right_eq_some.mp hs
      exact ⟨both (hlive .fill) (hlive .drain), hc.fill_end, hc.drain_end, hc.open_⟩
  | full b =>
      obtain rfl := Option.some.inj hs
      exact ⟨both (hlive .fill) (hlive .drain), hc.fill_end, hc.drain_end, hc.open_⟩
  | shut =>
      obtain ⟨⟨hstop, -⟩, ⟨⟩⟩ := Option.ite_none_right_eq_some.mp hs
      have := hlive .fill
      simp [State.loop, Side.dead, hstop, isStopped] at this
  | call w a =>
      have hcalm : ∀ errno, a ≠ .failed errno := by
        rintro errno rfl
        cases ha
      cases w with
      | fill =>
          obtain ⟨-, ⟨⟩⟩ := Option.ite_none_right_eq_some.mp hs
          refine ⟨fun v => ?_, fun res hr => (turn_returned hcalm hr).imp_right ?_, fun res hr => ?_, hc.open_⟩
          · cases v with
            | fill => exact (turn_dead _ _).trans (hlive .fill)
            | drain =>
                simp only [State.filled, State.loop]
                split
                · exact hlive .drain
                · exact hlive .drain
          · rintro ⟨rfl, rfl, ho⟩
            exact ⟨rfl, (turn_offset _ _).trans ho⟩
          · simp only [State.filled] at hr
            split at hr
            · exact hc.drain_end res hr
            · exact hc.drain_end res hr
      | drain =>
          obtain ⟨⟨-, hans⟩, ⟨⟩⟩ := Option.ite_none_right_eq_some.mp hs
          refine ⟨fun v => ?_, hc.fill_end, fun res hr => ?_, hc.open_⟩
          · cases v with
            | fill => exact hlive .fill
            | drain => exact (turn_dead _ _).trans (hlive .drain)
          · -- the pipe has no end
            rcases turn_returned hcalm hr with hnone | ⟨-, rfl, -⟩
            · exact hnone
            · simp [State.drains, State.closed, hc.open_] at hans
  | await w =>
      obtain ⟨-, ⟨⟩⟩ := Option.ite_none_right_eq_some.mp hs
      exact hc.set rfl (Side.dead_await.trans (hlive w)) fun res hr => absurd hr (Side.await_not_returned res)
  | resume w =>
      obtain ⟨-, ⟨⟩⟩ := Option.ite_none_right_eq_some.mp hs
      refine hc.set rfl (hlive w) fun res hr => ?_
      simp [Loop.resume, hlive w, Side.goto] at hr
  | report w =>
      obtain ⟨-, ⟨⟩⟩ := Option.ite_none_right_eq_some.mp hs
      exact hc.set rfl ((Side.dead_report _ _ _).trans (hlive w)) fun res hr => ((h.loop w).wf.stirs_report _ _ _).returned hr
  | rouse w =>
      obtain rfl := Option.some.inj hs
      exact hc.set rfl (Side.dead_rouse.trans (hlive w)) fun res hr => hr
  | stop w | cancel w => cases ha

/-- A step of one loop that moves no bytes costs what it costs there. -/
theorem work_set (s : State) (w : Which) (l : Loop) :
    work (s.set w l) + (s.loop w).side.price = work s + l.side.price := by
  cases w with
  | fill =>
      simp only [work, State.set, State.loop]
      omega
  | drain =>
      simp only [work, State.set, State.loop]
      omega

/-- A call that moves nothing is the last one, or followed by an await. -/
theorem price_turn {l : Loop} (hc : l.side.phase = .call) {a : Answer} (hm : a.bytes = 0) :
    (l.turn a).side.price < l.side.price := by
  have hgoto : ∀ p, Side.phasePrice l.side.dead p < 3 → (l.side.goto p).price < l.side.price := by
    intro p hp
    have := l.side.price_goto p
    rw [hc] at this
    simp only [Side.phasePrice] at this hp
    omega
  cases a with
  | moved n =>
      obtain rfl : n = 0 := hm
      simp only [Loop.turn, Nat.lt_irrefl, if_false]
      apply hgoto
      unfold Loop.dry
      split <;> simp [Side.phasePrice]
  | again =>
      apply hgoto
      unfold Loop.dry
      split <;> simp [Side.phasePrice]
  | failed errno => exact hgoto _ (by simp [Side.phasePrice])

/-- One that moves something is followed by the next. -/
theorem price_turn_moved {l : Loop} (hc : l.side.phase = .call) {a : Answer} (hm : 0 < a.bytes) :
    (l.turn a).side.price = l.side.price := by
  cases a with
  | moved n =>
      have hn : 0 < n := hm
      have := l.side.price_goto .call
      rw [hc] at this
      simp only [Loop.turn, hn, if_true]
      omega
  | again | failed _ => exact absurd hm (Nat.lt_irrefl 0)

theorem work_pays (h : Inv data s) (hc : Calm s) {a : Action} (ha : a.own = true) (hs : calmStep P s a = some t) :
    work t < work s := by
  obtain ⟨-, hs⟩ := Option.ite_none_right_eq_some.mp hs
  cases a with
  | call w a =>
      cases w with
      | fill =>
          obtain ⟨⟨hp, hans⟩, ⟨⟩⟩ := Option.ite_none_right_eq_some.mp hs
          have hle := fills_bytes hans
          by_cases hm : 0 < a.bytes
          · have hsame := price_turn_moved hp hm
            have hready := s.drain.side.price_rouse
            simp only [work, State.filled, hm, if_true, hsame, Loop.map, List.length_append, List.length_take,
              List.length_drop]
            omega
          · have hzero : a.bytes = 0 := by omega
            have hless := price_turn hp hzero
            simp only [work, State.filled, hzero, Nat.lt_irrefl, if_false, List.take_zero, List.append_nil, List.drop_zero]
            omega
      | drain =>
          obtain ⟨⟨hp, hans⟩, ⟨⟩⟩ := Option.ite_none_right_eq_some.mp hs
          have hle := drains_bytes hans
          by_cases hm : 0 < a.bytes
          · have hsame := price_turn_moved hp hm
            simp only [work, State.drained, hsame, List.length_drop]
            omega
          · have hzero : a.bytes = 0 := by omega
            have hless := price_turn hp hzero
            simp only [work, State.drained, hzero, List.drop_zero]
            omega
  | await w =>
      obtain ⟨hp, ⟨⟩⟩ := Option.ite_none_right_eq_some.mp hs
      have hless := Side.price_await (h.loop w).wf hp
      have := work_set s w ((s.loop w).map Side.await)
      simp only [Loop.map] at *
      omega
  | resume w =>
      obtain ⟨hp, ⟨⟩⟩ := Option.ite_none_right_eq_some.mp hs
      have hgoto := (s.loop w).side.price_goto (.call : Phase Result)
      have hset := work_set s w (s.loop w).resume
      rw [hp, hc.live w] at hgoto
      simp only [Loop.resume, hc.live w, Bool.false_eq_true, if_false] at hset ⊢
      simp only [Side.phasePrice, cond_false] at hgoto
      omega
  | report w =>
      obtain ⟨hr, ⟨⟩⟩ := Option.ite_none_right_eq_some.mp hs
      have hless := Side.price_report (h.loop w).wf hr (keys w) Events.IN (if s.readable w = true then Events.IN else 0)
      have := work_set s w ((s.loop w).map (Side.report (keys w) Events.IN (if s.readable w = true then Events.IN else 0)))
      simp only [Loop.map] at *
      omega
  | arrive n | finish | full b | shut | rouse w | stop w | cancel w => cases ha

theorem work_lends {a : Action} (ha : a.own = false) (hs : calmStep P s a = some t) : work t ≤ work s + 4 := by
  obtain ⟨hcalm, hs⟩ := Option.ite_none_right_eq_some.mp hs
  cases a with
  | arrive n =>
      obtain ⟨⟨-, hn⟩, ⟨⟩⟩ := Option.ite_none_right_eq_some.mp hs
      have hready := s.fill.side.price_rouse
      simp only [work, Loop.map, List.length_append, List.length_take, List.length_drop]
      omega
  | finish =>
      obtain ⟨-, ⟨⟩⟩ := Option.ite_none_right_eq_some.mp hs
      have hready := s.fill.side.price_rouse
      simp only [work, Loop.map]
      omega
  | full b =>
      obtain rfl := Option.some.inj hs
      simp only [work]
      omega
  | shut =>
      obtain ⟨-, ⟨⟩⟩ := Option.ite_none_right_eq_some.mp hs
      simp only [work]
      omega
  | rouse w =>
      obtain rfl := Option.some.inj hs
      have hready := (s.loop w).side.price_rouse
      have := work_set s w ((s.loop w).map Side.rouse)
      simp only [Loop.map] at *
      omega
  | stop w | cancel w => cases hcalm
  | call _ _ | await _ | resume _ | report _ => cases ha

theorem calm_metered (P : Pipe) (data : Bytes) :
    Metered (calmStep P) (fun s => Inv data s ∧ Calm s) Action.own work 4 where
  inv _ _ _ h hs := ⟨inv_step h.1 (Option.ite_none_right_eq_some.mp hs).2, calm_step h.1 h.2 hs⟩
  pays _ _ _ h ha hs := work_pays h.1 h.2 ha hs
  lends _ _ _ _ ha hs := work_lends ha hs

/-! ### Where no step is left -/

/-- `::splice` answers the first coroutine. -/
theorem exists_fills (P : Pipe) (s : State) : ∃ a, s.fills P a = true ∧ (Action.call .fill a).calm = true := by
  cases hP : P.takes s.pipe.length with
  | false => exact ⟨.again, by simp [State.fills, hP], rfl⟩
  | true =>
      by_cases hq : s.queue = []
      · cases hf : s.fin with
        | true => exact ⟨.moved 0, by simp [State.fills, hP, hq, hf], rfl⟩
        | false => exact ⟨.again, by simp [State.fills, hq, hf], rfl⟩
      · have hlen : 0 < s.queue.length := List.length_pos_iff.mpr hq
        refine ⟨.moved 1, ?_, rfl⟩
        simp [State.fills, hP, hq, MAX_SINGLE_FWD_SIZE]
        omega

/-- It answers the second one. -/
theorem exists_drains (s : State) : ∃ a, s.drains a = true ∧ (Action.call .drain a).calm = true := by
  by_cases hp : s.pipe = []
  · cases hx : s.closed with
    | true => exact ⟨.moved 0, by simp [State.drains, hp, hx], rfl⟩
    | false => exact ⟨.again, by simp [State.drains, hp, hx], rfl⟩
  · cases hf : s.full with
    | true => exact ⟨.again, by simp [State.drains, hp, hf], rfl⟩
    | false =>
        have hlen : 0 < s.pipe.length := List.length_pos_iff.mpr hp
        refine ⟨.moved 1, ?_, rfl⟩
        simp [State.drains, hp, hf, MAX_SINGLE_FWD_SIZE]
        omega

/-- A loop without a step sleeps or has returned. -/
theorem loop_rests {w : Which} (hcall : ∀ a, (Action.call w a).calm = true → step P s (.call w a) = none)
    (hawait : step P s (.await w) = none) (hresume : step P s (.resume w) = none) :
    (s.loop w).side.phase = .suspended ∨ ∃ res, (s.loop w).side.phase = .returned res := by
  cases hp : (s.loop w).side.phase with
  | call =>
      cases w with
      | fill =>
          obtain ⟨a, ha, hc⟩ := exists_fills P s
          have hno := hcall a hc
          rw [step, if_pos ⟨hp, ha⟩] at hno
          cases hno
      | drain =>
          obtain ⟨a, ha, hc⟩ := exists_drains s
          have hno := hcall a hc
          rw [step, if_pos ⟨hp, ha⟩] at hno
          cases hno
  | await =>
      rw [step, if_pos hp] at hawait
      cases hawait
  | resumed =>
      rw [step, if_pos hp] at hresume
      cases hresume
  | suspended => exact .inl rfl
  | returned res => exact .inr ⟨res, rfl⟩

theorem ready_of_rests {w : Which} (h : step P s (.report w) = none) : (s.loop w).side.ready = false := by
  simpa [step] using h

/-- What is left when nobody can move: a sleeping loop has moved nothing, and has nothing to move, unless `to` was full
when it first tried; one that has returned has moved something, or found the stream of the peer at its end. -/
structure Settled (s : State) : Prop where
  fill : (s.fill.side.phase = .suspended ∧ s.written ++ s.pipe ++ s.queue = [] ∧ s.fin = false) ∨
    (s.fill.side.phase = .returned (some .noMessage) ∧ s.written ++ s.pipe = []) ∨
    (s.fill.side.phase = .returned none ∧ s.written ++ s.pipe ≠ [])
  drain : (s.drain.side.phase = .suspended ∧ s.written = [] ∧ (s.pipe = [] ∨ s.stuck = true)) ∨
    (s.drain.side.phase = .returned none ∧ s.written ≠ [])

theorem settled_of_quiet (h : Inv data s) (hc : Calm s) (hready : ∀ w, (s.loop w).side.ready = false)
    (hends : ∀ w, (s.loop w).side.phase = .suspended ∨ ∃ res, (s.loop w).side.phase = .returned res) : Settled s where
  fill := by
    have hlen : s.fill.offset = (s.written ++ s.pipe).length := by rw [List.length_append, h.filled]
    rcases hends .fill with hsus | ⟨res, hret⟩
    · have hzero := h.fill.idle (.inl (.inr hsus))
      have hnil : s.written ++ s.pipe = [] := List.length_eq_zero_iff.mp (by omega)
      obtain ⟨hq, hf⟩ := (h.fill.fed (.inr hsus)).resolve_right (h.fill.wf.not_woken hsus (hready .fill))
      exact .inl ⟨hsus, by rw [hnil, hq, List.append_nil], hf⟩
    · rcases hc.fill_end res hret with rfl | ⟨rfl, hzero⟩
      · have hpos := h.fill.moved hret
        exact .inr (.inr ⟨hret, List.length_pos_iff.mp (by omega)⟩)
      · exact .inr (.inl ⟨hret, List.length_eq_zero_iff.mp (by omega)⟩)
  drain := by
    rcases hends .drain with hsus | ⟨res, hret⟩
    · have hzero := h.drain.idle (.inl (.inr hsus))
      refine .inl ⟨hsus, List.length_eq_zero_iff.mp (h.drained.symm.trans hzero), ?_⟩
      exact (h.drain.fed (.inr hsus)).resolve_right (h.drain.wf.not_woken hsus (hready .drain))
    · obtain rfl := hc.drain_end res hret
      have hpos := h.drain.moved hret
      exact .inr ⟨hret, List.length_pos_iff.mp (h.drained ▸ hpos)⟩

theorem step_of_rests (hr : Rests (calmStep P) Action.own s) {a : Action} (ha : a.own = true) (hc : a.calm = true) :
    step P s a = none := by
  have h := hr a ha
  rwa [calmStep, guarded, if_pos hc] at h

theorem settled_of_rests (h : Inv data s) (hc : Calm s) (hr : Rests (calmStep P) Action.own s) : Settled s :=
  settled_of_quiet h hc (fun _ => ready_of_rests (step_of_rests hr rfl rfl)) fun _ =>
    loop_rests (fun _ ha => step_of_rests hr rfl ha) (step_of_rests hr rfl rfl) (step_of_rests hr rfl rfl)

/-- **Forwarding settles.**  Without stops, cancellations and failures, in every order of the steps, with every answer of
the kernel: a run is bounded by the bytes of the peer and by what happens outside; it can always be brought to rest by
the steps of the coroutines and the poller; and at rest it is settled. -/
theorem splice_settles {as : List Action} (h : exec (calmStep P) (init data) as = some s) :
    as.length ≤ 10 * data.length + 6 + 5 * as.countP (fun a => !a.own) ∧
      (∃ bs t, (∀ b ∈ bs, b.own = true) ∧ exec (calmStep P) s bs = some t ∧ Settled t) ∧
      (Rests (calmStep P) Action.own s → Settled s) := by
  have hm := calm_metered P data
  have h0 : Inv data (init data) ∧ Calm (init data) := ⟨inv_init data, calm_init⟩
  have hs := hm.inv_exec h0 h
  refine ⟨?_, ?_, fun hr => settled_of_rests hs.1 hs.2 hr⟩
  · have hlen := hm.length_le h0 h
    have hwork : work (init data) = 10 * data.length + 6 := by
      simp [work, init, Loop.init, Side.init, Side.price, Side.phasePrice, Side.wordPrice]
    omega
  · obtain ⟨bs, t, hown, hexec, ht, hrest⟩ := hm.exists_rest s hs
    exact ⟨bs, t, hown, hexec, settled_of_rests ht.1 ht.2 hrest⟩

/-- No step of the coroutines and the poller is left. -/
theorem echoed_idle {a : Action} (ha : a.own = true) : step wide echoed a = none := by
  cases a with
  | call w _ | await w | resume w | report w => cases w <;> rfl
  | arrive _ | finish | full _ | shut | rouse _ | stop _ | cancel _ => cases ha

theorem splice_settles_echo : Rests (calmStep wide) Action.own echoed ∧ Settled echoed := by
  have h : exec (calmStep wide) (init [1, 2, 3, 4]) echo = some echoed := by decide
  have hr : Rests (calmStep wide) Action.own echoed := by
    intro a ha
    rw [calmStep, guarded, echoed_idle ha, ite_self]
  exact ⟨hr, (splice_settles h).2.2 hr⟩

end CalmSteps

/-! ## §7 — on the thread of the poller.

With the inline executor a coroutine runs until it suspends: the second one begins when the first one has suspended or
returned, and the poller goes on when both have. -/

def Action.inline (s : State) : Action → Bool
  | .call .drain _ | .await .drain | .resume .drain => !s.fill.active
  | .report _ => !s.fill.active && !s.drain.active
  | .full b => !b
  | _ => true

/-- The transition function of these orders, with a socket `to` that always takes something. -/
def inlineStep (P : Pipe) : State → Action → Option State := guarded (calmStep P) fun s a => a.inline s = true

section Inline

variable {P : Pipe} {data : Bytes} {s t : State}

/-- When the second coroutine has returned the first one had, and left nothing behind. -/
structure Burst (s : State) : Prop where
  takes : s.full = false
  unstuck : s.stuck = false
  drained : ∀ res, s.drain.side.phase = .returned res → s.pipe = [] ∧ s.fill.side.phase.isReturned = true

theorem burst_init : Burst (init data) := ⟨rfl, rfl, by simp [init, Loop.init, Side.init]⟩

theorem Burst.set (hb : Burst s) {w : Which} {l : Loop} (hw : w = .fill → s.fill.side.phase.isReturned = true →
    l.side.phase.isReturned = true) (hr : w = .drain → ∀ res, l.side.phase = .returned res →
      s.drain.side.phase = .returned res) : Burst (s.set w l) := by
  cases w with
  | fill => exact ⟨hb.takes, hb.unstuck, fun res h => ⟨(hb.drained res h).1, hw rfl (hb.drained res h).2⟩⟩
  | drain => exact ⟨hb.takes, hb.unstuck, fun res h => hb.drained res (hr rfl res h)⟩

theorem not_returned_of {l : Loop} {p : Phase Result} (h : l.side.phase = p) (hp : p.isReturned = false) :
    ¬ l.side.phase.isReturned = true := by
  rw [h, hp]
  exact Bool.false_ne_true

/-- A socket that takes refuses only an empty pipe. -/
theorem pipe_of_drains (hf : s.full = false) {a : Answer} (ha : s.drains a = true) (hno : ∀ errno, a ≠ .failed errno)
    (hzero : a.bytes = 0) : s.pipe = [] := by
  by_contra hpipe
  cases a with
  | moved n =>
      obtain rfl : n = 0 := hzero
      simp [State.drains, hpipe] at ha
  | again => simp [State.drains, hpipe, hf] at ha
  | failed errno => exact hno errno rfl

/-- The call after which a loop returns moved nothing. -/
theorem bytes_of_returned {l : Loop} {a : Answer} {res : Result} (h : (l.turn a).side.phase = .returned res) :
    a.bytes = 0 := by
  by_contra hpos
  cases a with
  | moved n =>
      have hn : 0 < n := Nat.pos_of_ne_zero hpos
      simp [Loop.turn, hn, Side.goto] at h
  | again | failed _ => exact hpos rfl

/-- Where bytes came through the pipe the first coroutine does not sleep: if it does not run it has returned. -/
theorem fill_returned (h : Inv data s) (hin : s.fill.active = false) (hmoved : 0 < s.drain.offset) :
    s.fill.side.phase.isReturned = true := by
  have hawake : s.fill.side.phase ≠ .suspended := by
    intro hsus
    have hidle := h.fill.idle (.inl (.inr hsus))
    have hf := h.filled
    have hd := h.drained
    omega
  unfold Loop.active at hin
  cases hq : s.fill.side.phase with
  | suspended => exact absurd hq hawake
  | returned _ => rfl
  | call | await | resumed => simp [hq] at hin

theorem Burst.drained_call (hb : Burst s) (h : Inv data s) (hc : Calm s) (hin : s.fill.active = false) {a : Answer}
    (hp : s.drain.side.phase = .call) (ha : s.drains a = true) (hno : ∀ errno, a ≠ .failed errno) :
    Burst (s.drained a) where
  takes := hb.takes
  unstuck := by
    have hmoves : ¬ (a = .again ∧ s.pipe ≠ [] ∧ s.drain.offset = 0) := by
      rintro ⟨rfl, hpipe, -⟩
      exact hpipe (pipe_of_drains hb.takes ha hno rfl)
    simp only [State.drained, hb.unstuck, hmoves, decide_false, Bool.or_false]
  drained res hr := by
    have hzero : a.bytes = 0 := bytes_of_returned hr
    have hpipe : s.pipe = [] := pipe_of_drains hb.takes ha hno hzero
    refine ⟨by simp [State.drained, hpipe], ?_⟩
    have hnone : res = none := by
      rcases turn_returned hno hr with hnone | ⟨-, rfl, -⟩
      · exact hnone
      · simp [State.drains, State.closed, hpipe, hc.open_] at ha
    subst hnone
    have hmoved : 0 < s.drain.offset := by
      have := (inv_drain h hp ha).drain.moved hr
      simpa [State.drained, turn_offset, hzero] using this
    show s.fill.side.phase.isReturned = true
    exact fill_returned h hin hmoved

theorem burst_step (h : Inv data s) (hc : Calm s) (hb : Burst s) {a : Action} (hs : inlineStep P s a = some t) :
    Burst t := by
  obtain ⟨hin, hcalm⟩ := Option.ite_none_right_eq_some.mp hs
  obtain ⟨ha, hs⟩ := Option.ite_none_right_eq_some.mp hcalm
  cases a with
  | arrive n =>
      obtain ⟨-, ⟨⟩⟩ := Option.ite_none_right_eq_some.mp hs
      exact ⟨hb.takes, hb.unstuck, hb.drained⟩
  | finish =>
      obtain ⟨-, ⟨⟩⟩ := Option.ite_none_right_eq_some.mp hs
      exact ⟨hb.takes, hb.unstuck, hb.drained⟩
  | full b =>
      obtain rfl := Option.some.inj hs
      exact ⟨by simpa [Action.inline] using hin, hb.unstuck, hb.drained⟩
  | shut =>
      obtain ⟨-, ⟨⟩⟩ := Option.ite_none_right_eq_some.mp hs
      exact ⟨hb.takes, hb.unstuck, hb.drained⟩
  | call w a =>
      cases w with
      | fill =>
          obtain ⟨⟨hp, -⟩, ⟨⟩⟩ := Option.ite_none_right_eq_some.mp hs
          refine ⟨hb.takes, hb.unstuck, fun res hr => ?_⟩
          have hdrain : s.drain.side.phase = .returned res := by
            simp only [State.filled] at hr
            split at hr
            · exact hr
            · exact hr
          exact absurd (hb.drained res hdrain).2 (not_returned_of hp rfl)
      | drain =>
          obtain ⟨⟨hp, hans⟩, ⟨⟩⟩ := Option.ite_none_right_eq_some.mp hs
          have hno : ∀ errno, a ≠ .failed errno := by
            rintro errno rfl
            cases ha
          exact hb.drained_call h hc (by simpa [Action.inline] using hin) hp hans hno
  | await w =>
      obtain ⟨hp, ⟨⟩⟩ := Option.ite_none_right_eq_some.mp hs
      refine hb.set ?_ fun _ res hr => absurd hr (Side.await_not_returned res)
      rintro rfl hret
      exact absurd hret (not_returned_of hp rfl)
  | resume w =>
      obtain ⟨hp, ⟨⟩⟩ := Option.ite_none_right_eq_some.mp hs
      refine hb.set ?_ ?_
      · rintro rfl hret
        exact absurd hret (not_returned_of hp rfl)
      · rintro rfl res hr
        simp [Loop.resume, hc.live .drain, Side.goto] at hr
  | report w =>
      obtain ⟨-, ⟨⟩⟩ := Option.ite_none_right_eq_some.mp hs
      refine hb.set ?_ ?_
      · rintro rfl hret
        exact (h.fill.wf.stirs_report _ _ _).isReturned hret
      · rintro rfl res hr
        exact (h.drain.wf.stirs_report _ _ _).returned hr
  | rouse w =>
      obtain rfl := Option.some.inj hs
      refine hb.set ?_ ?_
      · rintro rfl hret
        exact hret
      · rintro rfl res hr
        exact hr
  | stop w | cancel w => cases ha

theorem inline_of_reachable (h : Reachable (inlineStep P) (init data) s) : Inv data s ∧ Calm s ∧ Burst s := by
  induction h with
  | refl => exact ⟨inv_init data, calm_init, burst_init⟩
  | tail a _ _ hs ih =>
      have hcalm := (Option.ite_none_right_eq_some.mp hs).2
      have hstep := (Option.ite_none_right_eq_some.mp hcalm).2
      exact ⟨inv_step ih.1 hstep, calm_step ih.1 ih.2.1 hcalm, burst_step ih.1 ih.2.1 ih.2.2 hs⟩

theorem step_of_inline_rests (hr : Rests (inlineStep P) Action.own s) {a : Action} (ha : a.own = true)
    (hc : a.calm = true) (hi : a.inline s = true) : step P s a = none := by
  have h := hr a ha
  rwa [inlineStep, guarded, if_pos hi, calmStep, guarded, if_pos hc] at h

theorem inactive_of {l : Loop} (h : l.side.phase = .suspended ∨ ∃ res, l.side.phase = .returned res) :
    l.active = false := by
  unfold Loop.active
  rcases h with h | ⟨res, h⟩ <;> rw [h]

/-- Nobody waits for the other: the first coroutine may always go on, and the poller when both have stopped. -/
theorem settled_of_inline_rests (h : Inv data s) (hc : Calm s) (hr : Rests (inlineStep P) Action.own s) : Settled s := by
  have hfill : s.fill.side.phase = .suspended ∨ ∃ res, s.fill.side.phase = .returned res :=
    loop_rests (w := .fill) (fun _ ha => step_of_inline_rests hr rfl ha rfl) (step_of_inline_rests hr rfl rfl rfl)
      (step_of_inline_rests hr rfl rfl rfl)
  have hf : (!s.fill.active) = true := by rw [inactive_of hfill, Bool.not_false]
  have hdrain : s.drain.side.phase = .suspended ∨ ∃ res, s.drain.side.phase = .returned res :=
    loop_rests (w := .drain) (fun _ ha => step_of_inline_rests hr rfl ha hf) (step_of_inline_rests hr rfl rfl hf)
      (step_of_inline_rests hr rfl rfl hf)
  refine settled_of_quiet h hc (fun w => ready_of_rests (step_of_inline_rests hr rfl rfl ?_)) (both hfill hdrain)
  simp [Action.inline, inactive_of hfill, inactive_of hdrain]

/-- **One burst is forwarded, and it is forwarded whole.**  On the thread of the poller, in every run without stops,
cancellations and failures into a socket that takes: at rest the pipe is empty.  Either nothing came and both coroutines
sleep, or the peer closed its side without a byte and the second one sleeps for good, or both have returned: then `to` was
given everything that the first one took, and is given nothing more in any run from there. -/
theorem splice_one_burst (h : Reachable (inlineStep P) (init data) s) (hr : Rests (inlineStep P) Action.own s) :
    s.pipe = [] ∧ s.written ++ s.queue ++ s.future = data ∧
      ((s.fill.side.phase = .suspended ∧ s.drain.side.phase = .suspended ∧ s.written ++ s.queue = [] ∧ s.fin = false) ∨
        (s.fill.side.phase = .returned (some .noMessage) ∧ s.drain.side.phase = .suspended ∧ s.written = []) ∨
        (s.fill.side.phase = .returned none ∧ s.drain.side.phase = .returned none ∧ s.written ≠ [] ∧
          ∀ t, Reachable (step P) s t → t.written = s.written)) := by
  obtain ⟨hi, hc, hb⟩ := inline_of_reachable h
  have hset := settled_of_inline_rests hi hc hr
  have hpipe : s.pipe = [] := by
    rcases hset.drain with ⟨-, -, hnil | hstuck⟩ | ⟨hret, -⟩
    · exact hnil
    · rw [hb.unstuck] at hstuck
      cases hstuck
    · exact (hb.drained none hret).1
  have hfill := hset.fill
  rw [hpipe, List.append_nil] at hfill
  refine ⟨hpipe, ?_, ?_⟩
  · have hstream := hi.stream
    rwa [hpipe, List.append_nil] at hstream
  · rcases hset.drain with ⟨hdsus, hnil, -⟩ | ⟨hdret, hne⟩
    · rcases hfill with ⟨hsus, hall, hf⟩ | ⟨hret, -⟩ | ⟨-, hmoved⟩
      · exact .inl ⟨hsus, hdsus, hall, hf⟩
      · exact .inr (.inl ⟨hret, hdsus, hnil⟩)
      · exact absurd hnil hmoved
    · rcases hfill with ⟨-, hall, -⟩ | ⟨-, hnil⟩ | ⟨hret, -⟩
      · exact absurd (List.append_eq_nil_iff.mp hall).1 hne
      · exact absurd hnil hne
      · refine .inr (.inr ⟨hret, hdret, hne, fun t ht => ?_⟩)
        exact written_stays hi (by rw [hdret]; rfl) ht

theorem exec_inline_echo : exec (inlineStep wide) (init [1, 2, 3, 4]) echo = some echoed := by decide

theorem splice_one_burst_echo : Reachable (inlineStep wide) (init [1, 2, 3, 4]) echoed ∧
    Rests (inlineStep wide) Action.own echoed ∧
    ∀ t, Reachable (step wide) echoed t → t.written = [1, 2] := by
  have h := reachable_of_exec exec_inline_echo
  have hr : Rests (inlineStep wide) Action.own echoed := by
    intro a ha
    rw [inlineStep, guarded, calmStep, guarded, echoed_idle ha, ite_self, ite_self]
  obtain ⟨-, -, ⟨hsus, -⟩ | ⟨hret, -⟩ | ⟨-, -, -, hlater⟩⟩ := splice_one_burst h hr
  · cases hsus
  · cases hret
  · exact ⟨h, hr, hlater⟩

end Inline

end NetCpp.Io.Splice
