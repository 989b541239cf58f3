/-
# NetCpp.Io.Transfer — a byte stream between two edge-triggered devices.

`include/xsl/asio/io.h` over the loops of `NetCpp.Io.Device`.  A coroutine in `send` writes `data` to its socket, another
one calls `read` on the socket of the other side until it is not connected.  When the kernel answers `EAGAIN` they await
their signal, `OUT` or `IN`.

## The kernel

`Kernel.takes` says at how many bytes in flight the socket takes more, and `Kernel.writable` where `EPOLLOUT` says so;
what is taken may be any part of what is offered.  A descriptor enters the ready list with new bytes or the end of the
stream, and when a socket becomes writable in which an `EAGAIN` found no room; and at any other time too (`rouse`).  The
mask that is reported is that of the moment.

## Steps

A step is one system call, one signal call or one event that is published, in any interleaving of the two loops and
their pollers.  Signal calls are whole, as in `NetCpp.Sys.IoContext`.  The sender closes its socket when `send` has
returned; `HUP`, which is reported when both directions are down, is not.
-/
import NetCpp.Lib.Progress
import NetCpp.Lib.Bytes
import NetCpp.Io.Device

namespace NetCpp.Io.Transfer

open NetCpp.Lib
open NetCpp.Sys.IOContext (Events)

/-! ## §1 — the loops. -/

inductive IoError
  | notConnected
  | errno (n : Nat)
  deriving DecidableEq

/-- `io::Result` -/
structure Result where
  size : Nat
  ec : Option IoError
  deriving DecidableEq

/-- What a system call on a non-blocking socket comes to. -/
inductive Answer
  | moved (n : Nat)
  | again
  | failed (errno : Nat)
  deriving DecidableEq

def Answer.bytes : Answer → Nat
  | .moved n => n
  | .again | .failed _ => 0

/-- `while (total < size)`, and the return behind it. -/
def sendMore (size total : Nat) : Phase Result := if total < size then .call else .returned ⟨total, none⟩

/-- A turn of `send`. -/
def sendTurn (size total : Nat) : Answer → Nat × Phase Result
  | .moved n => if 0 < n then (total + n, sendMore size (total + n)) else (total, .returned ⟨total, none⟩)
  | .again => (total, .await)
  | .failed errno => (total, .returned ⟨total, some (.errno errno)⟩)

/-- `send` behind `co_await sig`. -/
def sendResume (size total : Nat) (dead : Bool) : Phase Result :=
  if dead = true then .returned ⟨total, some .notConnected⟩ else sendMore size total

/-- The `then` of `recv`: no bytes are no connection, whatever the reason. -/
def connected (res : Result) : Result := if res.size = 0 then ⟨0, some .notConnected⟩ else res

/-- A turn of `imm_recv`: a result, or none when it has to wait. -/
def immRecvTurn : Answer → Option Result
  | .moved n => some ⟨n, none⟩
  | .again => none
  | .failed errno => some ⟨0, some (.errno errno)⟩

/-- A user that reads until there is no connection. -/
def nextRead (res : Result) : Phase Result := if (connected res).ec = none then .call else .returned (connected res)

def readTurn (a : Answer) : Phase Result :=
  match immRecvTurn a with
  | none => .await
  | some res => nextRead res

/-- `imm_recv` behind `co_await sig`. -/
def readResume (dead : Bool) : Phase Result := if dead = true then nextRead ⟨0, some .notConnected⟩ else .call

/-! ## §2 — the system. -/

/-- The keys of a device. -/
def keys : List Events := [Events.IN, Events.OUT]

/-- At how many bytes in flight a socket takes more, and where it is reported to. -/
structure Kernel where
  takes : Nat → Bool
  writable : Nat → Bool
  takes_of : ∀ n, writable n = true → takes n = true
  empty : writable 0 = true
  anti : ∀ m n, m ≤ n → writable n = true → writable m = true

/-- The answers `::send` may give. -/
def Kernel.sends (K : Kernel) (inFlight offered : Nat) : Answer → Bool
  | .moved n => if offered = 0 then n == 0 else K.takes inFlight && decide (0 < n ∧ n ≤ offered)
  | .again => !K.takes inFlight && decide (0 < offered)
  | .failed _ => true

structure State where
  /-- `total` of `send` -/
  total : Nat
  /-- an `EAGAIN` found no room, and the socket has not become writable yet -/
  noSpace : Bool
  /-- bytes in flight -/
  pipe : Bytes
  /-- the sender has closed its socket -/
  fin : Bool
  received : Bytes
  /-- calls of `read` that gave bytes -/
  reads : Nat
  tx : Side Result
  rx : Side Result
  deriving DecidableEq

def init : State := ⟨0, false, [], false, [], 0, .init, .init⟩

/-- The answers `::recv` may give. -/
def State.receives (s : State) (size : Nat) : Answer → Bool
  | .moved n =>
      if size = 0 ∨ s.pipe = [] then (decide (size = 0) || s.fin) && n == 0 else decide (0 < n ∧ n ≤ min size s.pipe.length)
  | .again => decide (s.pipe = []) && !s.fin
  | .failed _ => true

inductive Action
  /-- `::send` -/
  | send (a : Answer)
  | sendAwait
  | sendResume
  | close
  /-- `::recv` -/
  | recv (a : Answer)
  | recvAwait
  | recvResume
  | reportOut
  | reportIn
  | rouseOut
  | rouseIn
  | stopOut
  | stopIn
  | cancelOut
  | cancelIn
  deriving DecidableEq

section Step

variable (K : Kernel) (data : Bytes) (size : Nat → Nat)

/-- `::send` has answered. -/
def State.sent (s : State) (a : Answer) : State :=
  { s with
    total := (sendTurn data.length s.total a).1
    noSpace := if a = .again then true else s.noSpace
    pipe := s.pipe ++ (data.drop s.total).take a.bytes
    tx := s.tx.goto (sendTurn data.length s.total a).2
    rx := if 0 < a.bytes then s.rx.rouse else s.rx }

/-- `::recv` has answered. -/
def State.taken (s : State) (a : Answer) : State :=
  { s with
    noSpace := s.noSpace && !K.writable (s.pipe.drop a.bytes).length
    pipe := s.pipe.drop a.bytes
    received := s.received ++ s.pipe.take a.bytes
    reads := if 0 < a.bytes then s.reads + 1 else s.reads
    tx := if s.noSpace && K.writable (s.pipe.drop a.bytes).length then s.tx.rouse else s.tx
    rx := s.rx.goto (readTurn a) }

/-- The mask of the sender's descriptor. -/
def State.outMask (s : State) : Events := if K.writable s.pipe.length then Events.OUT else 0

/-- The mask of the receiver's descriptor. -/
def State.inMask (s : State) : Events := if s.pipe ≠ [] ∨ s.fin then Events.IN else 0

/-- `data` is sent; the `i`-th `read` asks for `size i` bytes. -/
def step (s : State) : Action → Option State
  | .send a =>
      if s.tx.phase = .call ∧ K.sends s.pipe.length (data.length - s.total) a = true then some (s.sent data a) else none
  | .sendAwait => if s.tx.phase = .await then some { s with tx := s.tx.await } else none
  | .sendResume =>
      if s.tx.phase = .resumed then some { s with tx := s.tx.goto (sendResume data.length s.total s.tx.dead) } else none
  | .close =>
      if s.tx.phase.isReturned = true ∧ s.fin = false then some { s with fin := true, rx := s.rx.rouse } else none
  | .recv a => if s.rx.phase = .call ∧ s.receives (size s.reads) a = true then some (s.taken K a) else none
  | .recvAwait => if s.rx.phase = .await then some { s with rx := s.rx.await } else none
  | .recvResume => if s.rx.phase = .resumed then some { s with rx := s.rx.goto (readResume s.rx.dead) } else none
  | .reportOut => if s.tx.ready = true then some { s with tx := s.tx.report keys Events.OUT (s.outMask K) } else none
  | .reportIn => if s.rx.ready = true then some { s with rx := s.rx.report keys Events.IN s.inMask } else none
  | .rouseOut => some { s with tx := s.tx.rouse }
  | .rouseIn => some { s with rx := s.rx.rouse }
  | .stopOut => some { s with tx := s.tx.stop }
  | .stopIn => some { s with rx := s.rx.stop }
  | .cancelOut => some { s with tx := s.tx.cancel }
  | .cancelIn => some { s with rx := s.rx.cancel }

end Step

/-! ## §3 — what holds in every state. -/

/-- The sender.  Room that opened while it waits is on its way to it. -/
structure TxInv (K : Kernel) (length total inFlight : Nat) (noSpace : Bool) (c : Side Result) : Prop where
  wf : c.WF
  less : c.Waits ∨ c.phase = .resumed → total < length
  room : c.Waits → noSpace = false → K.writable inFlight = true ∧ c.Woken
  result : ∀ res, c.phase = .returned res → res.size = total ∧ (res.ec = none → total = length)

/-- The receiver.  Bytes that came while it waits, and the end of the stream, are on their way to it. -/
structure RxInv (pipe : Bytes) (fin : Bool) (c : Side Result) : Prop where
  wf : c.WF
  fed : c.Waits → (pipe = [] ∧ fin = false) ∨ c.Woken
  result : ∀ res, c.phase = .returned res → res = ⟨0, some .notConnected⟩

structure Inv (K : Kernel) (data : Bytes) (s : State) : Prop where
  total_le : s.total ≤ data.length
  stream : s.received ++ s.pipe = data.take s.total
  space : s.noSpace = true → K.writable s.pipe.length = false
  closed : s.fin = true → s.tx.phase.isReturned = true
  tx : TxInv K data.length s.total s.pipe.length s.noSpace s.tx
  rx : RxInv s.pipe s.fin s.rx

theorem inv_init (K : Kernel) (data : Bytes) : Inv K data init where
  total_le := Nat.zero_le _
  stream := rfl
  space h := by cases h
  closed h := by cases h
  tx :=
    { wf := Side.wf_init
      less := by simp [init, Side.init, Side.Waits]
      room := by simp [init, Side.init, Side.Waits]
      result := nofun }
  rx :=
    { wf := Side.wf_init
      fed := by simp [init, Side.init, Side.Waits]
      result := nofun }

/-! ### The sender's steps -/

namespace TxInv

variable {K : Kernel} {length total inFlight : Nat} {noSpace : Bool} {c d : Side Result}

theorem await (h : TxInv K length total inFlight noSpace c) (hc : c.phase = .await) :
    TxInv K length total inFlight noSpace c.await where
  wf := h.wf.await hc
  less _ := h.less (.inl (.inl hc))
  room hw hn := ⟨(h.room (.inl hc) hn).1, Side.woken_await hw (h.room (.inl hc) hn).2⟩
  result res hr := absurd hr (Side.await_not_returned res)

/-- An event leaves the loop where it is, or resumes it. -/
theorem of_stirs (h : TxInv K length total inFlight noSpace c) (hd : d.WF) (hcd : c.Stirs d)
    (hw : d.Waits → noSpace = false → d.Woken) : TxInv K length total inFlight noSpace d where
  wf := hd
  less hl := hl.elim (fun hl => h.less (.inl (hcd.waits hl))) fun hl => h.less (hcd.resumed hl)
  room hr hn := ⟨(h.room (hcd.waits hr) hn).1, hw hr hn⟩
  result _ hr := h.result _ (hcd.returned hr)

theorem rouse (h : TxInv K length total inFlight noSpace c) : TxInv K length total inFlight noSpace c.rouse :=
  h.of_stirs h.wf.rouse Side.stirs_rouse fun _ _ => Side.woken_rouse

theorem stop (h : TxInv K length total inFlight noSpace c) : TxInv K length total inFlight noSpace c.stop :=
  h.of_stirs h.wf.stop h.wf.stirs_stop fun _ _ => Side.woken_stop

theorem cancel (h : TxInv K length total inFlight noSpace c) : TxInv K length total inFlight noSpace c.cancel :=
  h.of_stirs h.wf.cancel h.wf.stirs_cancel fun _ _ => Side.woken_cancel

theorem report (h : TxInv K length total inFlight noSpace c) :
    TxInv K length total inFlight noSpace (c.report keys Events.OUT (if K.writable inFlight then Events.OUT else 0)) := by
  refine h.of_stirs (h.wf.report _ _ _) (h.wf.stirs_report _ _ _) fun hw hn => ?_
  -- a loop that waits without an `EAGAIN` to come is owed this event
  have hroom : K.writable inFlight = true := (h.room ((h.wf.stirs_report _ _ _).waits hw) hn).1
  rw [if_pos hroom] at hw ⊢
  exact Side.woken_report rfl (by decide) hw

/-- Bytes have been taken out of the stream. -/
theorem drain (h : TxInv K length total inFlight noSpace c) {left : Nat} (hl : left ≤ inFlight) :
    TxInv K length total left (noSpace && !K.writable left) (if noSpace && K.writable left then c.rouse else c) := by
  cases hn : noSpace with
  | false =>
      simp only [Bool.false_and, Bool.false_eq_true, if_false]
      subst hn
      exact ⟨h.wf, h.less, fun hw hf => ⟨K.anti _ _ hl (h.room hw hf).1, (h.room hw hf).2⟩, h.result⟩
  | true =>
      cases hK : K.writable left with
      | false =>
          simp only [Bool.and_false, Bool.not_false, Bool.and_true, Bool.false_eq_true, if_false]
          exact ⟨h.wf, h.less, nofun, h.result⟩
      | true =>
          simp only [Bool.and_true, if_true]
          exact ⟨h.wf.rouse, h.less, fun _ _ => ⟨hK, Side.woken_rouse⟩, h.result⟩

/-- The loop goes on, or ends with a result that tells what it did. -/
theorem goto (h : c.WF) (hc : c.phase ≠ .suspended) {p : Phase Result} (hp : p = .call ∨ ∃ res, p = .returned res ∧
    res.size = total ∧ (res.ec = none → total = length)) : TxInv K length total inFlight noSpace (c.goto p) := by
  rcases hp with rfl | ⟨res, rfl, hres⟩
  · exact ⟨h.goto hc (by simp), by simp [Side.Waits, Side.goto], by simp [Side.Waits, Side.goto], by simp [Side.goto]⟩
  · refine ⟨h.goto hc (by simp), by simp [Side.Waits, Side.goto], by simp [Side.Waits, Side.goto], ?_⟩
    rintro r hr
    obtain rfl : res = r := by simpa [Side.goto] using hr
    exact hres

end TxInv

/-! ### The receiver's steps -/

namespace RxInv

variable {pipe : Bytes} {fin : Bool} {c d : Side Result}

theorem await (h : RxInv pipe fin c) (hc : c.phase = .await) : RxInv pipe fin c.await where
  wf := h.wf.await hc
  fed hw := (h.fed (.inl hc)).imp_right fun hk => Side.woken_await hw hk
  result res hr := absurd hr (Side.await_not_returned res)

theorem of_stirs (h : RxInv pipe fin c) (hd : d.WF) (hcd : c.Stirs d)
    (hw : d.Waits → (pipe = [] ∧ fin = false) ∨ d.Woken) : RxInv pipe fin d where
  wf := hd
  fed := hw
  result _ hr := h.result _ (hcd.returned hr)

theorem rouse (h : RxInv pipe fin c) {pipe' : Bytes} {fin' : Bool} : RxInv pipe' fin' c.rouse :=
  ⟨h.wf.rouse, fun _ => .inr Side.woken_rouse, h.result⟩

theorem stop (h : RxInv pipe fin c) : RxInv pipe fin c.stop :=
  h.of_stirs h.wf.stop h.wf.stirs_stop fun _ => .inr Side.woken_stop

theorem cancel (h : RxInv pipe fin c) : RxInv pipe fin c.cancel :=
  h.of_stirs h.wf.cancel h.wf.stirs_cancel fun _ => .inr Side.woken_cancel

theorem report (h : RxInv pipe fin c) :
    RxInv pipe fin (c.report keys Events.IN (if pipe ≠ [] ∨ fin then Events.IN else 0)) := by
  refine h.of_stirs (h.wf.report _ _ _) (h.wf.stirs_report _ _ _) fun hw => ?_
  by_cases hm : pipe ≠ [] ∨ fin
  · rw [if_pos hm] at hw ⊢
    exact .inr (Side.woken_report rfl (by decide) hw)
  · exact .inl (by simpa using hm)

theorem goto (h : c.WF) (hc : c.phase ≠ .suspended) {p : Phase Result}
    (hp : p = .call ∨ p = .returned ⟨0, some .notConnected⟩) : RxInv pipe fin (c.goto p) := by
  rcases hp with rfl | rfl
  · exact ⟨h.goto hc (by simp), by simp [Side.Waits, Side.goto], by simp [Side.goto]⟩
  · refine ⟨h.goto hc (by simp), by simp [Side.Waits, Side.goto], ?_⟩
    rintro r hr
    obtain rfl : (⟨0, some .notConnected⟩ : Result) = r := by simpa [Side.goto] using hr
    rfl

end RxInv

/-! ### Every step -/

theorem sendMore_eq (size total : Nat) (h : total ≤ size) :
    sendMore size total = .call ∨ ∃ res, sendMore size total = .returned res ∧
      res.size = total ∧ (res.ec = none → total = size) := by
  by_cases ht : total < size
  · exact .inl (if_pos ht)
  · exact .inr ⟨⟨total, none⟩, if_neg ht, rfl, fun _ => by omega⟩

theorem nextRead_eq (res : Result) (h : res.size = 0 ∨ res.ec = none) :
    nextRead res = .call ∨ nextRead res = .returned ⟨0, some .notConnected⟩ := by
  by_cases hs : res.size = 0
  · exact .inr (by simp [nextRead, connected, hs])
  · have hec : res.ec = none := h.resolve_left hs
    exact .inl (by simp [nextRead, connected, hs, hec])

theorem not_suspended_of {c : Side Result} {p : Phase Result} (h : c.phase = p) (hp : p ≠ .suspended) : c.phase ≠ .suspended := by
  rw [h]
  exact hp

section Steps

variable {K : Kernel} {data : Bytes} {size : Nat → Nat} {s t : State}

/-- What `::send` may have taken. -/
theorem sends_moved {inFlight offered n : Nat} (h : K.sends inFlight offered (.moved n) = true) :
    n ≤ offered ∧ (n = 0 → offered = 0) := by
  unfold Kernel.sends at h
  by_cases ho : offered = 0
  · have hn : n = 0 := by simpa [ho] using h
    omega
  · obtain ⟨-, hpos, hle⟩ : K.takes inFlight = true ∧ 0 < n ∧ n ≤ offered := by simpa [ho] using h
    omega

theorem not_writable_of_not_takes {n : Nat} (h : K.takes n = false) : K.writable n = false := by
  cases hw : K.writable n with
  | false => rfl
  | true => rw [K.takes_of n hw] at h; cases h

theorem not_writable_of_le {m n : Nat} (h : m ≤ n) (hm : K.writable m = false) : K.writable n = false := by
  cases hw : K.writable n with
  | false => rfl
  | true => rw [K.anti m n h hw] at hm; cases hm

theorem inv_send (h : Inv K data s) {a : Answer} (hc : s.tx.phase = .call)
    (ha : K.sends s.pipe.length (data.length - s.total) a = true) : Inv K data (s.sent data a) := by
  have hsus : s.tx.phase ≠ .suspended := not_suspended_of hc nofun
  have hfin : s.fin = false := by
    cases hf : s.fin with
    | false => rfl
    | true =>
        have := h.closed hf
        rw [hc] at this
        cases this
  have hle := h.total_le
  cases a with
  | moved n =>
      obtain ⟨hn, hzero⟩ := sends_moved ha
      by_cases hpos : 0 < n
      · have hturn : sendTurn data.length s.total (.moved n) = (s.total + n, sendMore data.length (s.total + n)) :=
          if_pos hpos
        exact
          { total_le := by
              simp only [State.sent, hturn]
              omega
            stream := by
              simp only [State.sent, hturn, Answer.bytes]
              rw [← List.append_assoc, h.stream, List.take_add]
            space := by
              intro hns
              apply not_writable_of_le _ (h.space (by simpa [State.sent] using hns))
              simp [State.sent]
            closed := by simp [State.sent, hfin]
            tx := by
              simp only [State.sent, hturn]
              exact TxInv.goto h.tx.wf hsus (sendMore_eq _ _ (by omega))
            rx := by
              have hrx : (s.sent data (.moved n)).rx = s.rx.rouse := if_pos hpos
              rw [hrx]
              exact h.rx.rouse }
      · obtain rfl : n = 0 := by omega
        have hall : s.total = data.length := by
          have := hzero rfl
          omega
        exact
          { total_le := hle
            stream := by simpa [State.sent, sendTurn, Answer.bytes] using h.stream
            space := by simpa [State.sent, Answer.bytes] using h.space
            closed := by simp [State.sent, hfin]
            tx := TxInv.goto h.tx.wf hsus (.inr ⟨_, rfl, rfl, fun _ => hall⟩)
            rx := by simpa [State.sent, Answer.bytes] using h.rx }
  | again =>
      obtain ⟨hfull, hoff⟩ : K.takes s.pipe.length = false ∧ 0 < data.length - s.total := by
        simpa [Kernel.sends] using ha
      exact
        { total_le := hle
          stream := by simpa [State.sent, sendTurn, Answer.bytes] using h.stream
          space := by simpa [State.sent, Answer.bytes] using not_writable_of_not_takes hfull
          closed := by simp [State.sent, hfin]
          tx :=
            { wf := h.tx.wf.goto hsus nofun
              less := fun _ => Nat.lt_of_sub_pos hoff
              room := by simp [State.sent]
              result := nofun }
          rx := by simpa [State.sent, Answer.bytes] using h.rx }
  | failed errno =>
      exact
        { total_le := hle
          stream := by simpa [State.sent, sendTurn, Answer.bytes] using h.stream
          space := by simpa [State.sent, Answer.bytes] using h.space
          closed := by simp [State.sent, hfin]
          tx := TxInv.goto h.tx.wf hsus (.inr ⟨_, rfl, rfl, nofun⟩)
          rx := by simpa [State.sent, Answer.bytes] using h.rx }

theorem inv_recv (h : Inv K data s) {m : Nat} {a : Answer} (hc : s.rx.phase = .call)
    (ha : s.receives m a = true) : Inv K data (s.taken K a) where
  total_le := h.total_le
  stream := by
    simp only [State.taken, List.append_assoc, List.take_append_drop]
    exact h.stream
  space := by
    simp only [State.taken, Bool.and_eq_true, Bool.not_eq_true']
    exact fun hs => hs.2
  closed hf := by
    have hret : s.tx.phase.isReturned = true := h.closed hf
    simp only [State.taken]
    split
    · exact hret
    · exact hret
  tx := by
    have hlen : (s.pipe.drop a.bytes).length ≤ s.pipe.length := by
      rw [List.length_drop]
      omega
    exact h.tx.drain hlen
  rx := by
    have hsus : s.rx.phase ≠ .suspended := not_suspended_of hc nofun
    cases a with
    | moved n => exact RxInv.goto h.rx.wf hsus (nextRead_eq _ (.inr rfl))
    | failed errno => exact RxInv.goto h.rx.wf hsus (nextRead_eq _ (.inl rfl))
    | again =>
        have hnone : s.pipe = [] ∧ s.fin = false := by simpa [State.receives] using ha
        exact ⟨h.rx.wf.goto hsus nofun, fun _ => .inl (by simpa [State.taken, Answer.bytes] using hnone), nofun⟩

/-- A step of the sending side alone. -/
theorem Inv.with_tx (h : Inv K data s) {c : Side Result} (hc : TxInv K data.length s.total s.pipe.length s.noSpace c)
    (hret : s.tx.phase.isReturned = true → c.phase.isReturned = true) : Inv K data { s with tx := c } :=
  ⟨h.total_le, h.stream, h.space, fun hf => hret (h.closed hf), hc, h.rx⟩

/-- A step of the receiving side alone. -/
theorem Inv.with_rx (h : Inv K data s) {c : Side Result} (hc : RxInv s.pipe s.fin c) : Inv K data { s with rx := c } :=
  ⟨h.total_le, h.stream, h.space, h.closed, h.tx, hc⟩

theorem inv_step (h : Inv K data s) {a : Action} (hs : step K data size s a = some t) : Inv K data t := by
  cases a with
  | send a =>
      obtain ⟨⟨hc, ha⟩, ⟨⟩⟩ := Option.ite_none_right_eq_some.mp hs
      exact inv_send h hc ha
  | sendAwait =>
      obtain ⟨hc, ⟨⟩⟩ := Option.ite_none_right_eq_some.mp hs
      exact h.with_tx (h.tx.await hc) (by simp [hc, Phase.isReturned])
  | sendResume =>
      obtain ⟨hc, ⟨⟩⟩ := Option.ite_none_right_eq_some.mp hs
      have hsus : s.tx.phase ≠ .suspended := not_suspended_of hc nofun
      refine h.with_tx (TxInv.goto h.tx.wf hsus ?_) (by simp [hc, Phase.isReturned])
      by_cases hst : s.tx.dead = true
      · exact .inr ⟨_, if_pos hst, rfl, nofun⟩
      · rw [sendResume, if_neg hst]
        exact sendMore_eq _ _ h.total_le
  | close =>
      obtain ⟨⟨hr, -⟩, ⟨⟩⟩ := Option.ite_none_right_eq_some.mp hs
      exact ⟨h.total_le, h.stream, h.space, fun _ => hr, h.tx, h.rx.rouse⟩
  | recv a =>
      obtain ⟨⟨hc, ha⟩, ⟨⟩⟩ := Option.ite_none_right_eq_some.mp hs
      exact inv_recv h hc ha
  | recvAwait =>
      obtain ⟨hc, ⟨⟩⟩ := Option.ite_none_right_eq_some.mp hs
      exact h.with_rx (h.rx.await hc)
  | recvResume =>
      obtain ⟨hc, ⟨⟩⟩ := Option.ite_none_right_eq_some.mp hs
      refine h.with_rx (RxInv.goto h.rx.wf (not_suspended_of hc nofun) ?_)
      by_cases hst : s.rx.dead = true
      · rw [readResume, if_pos hst]
        exact nextRead_eq _ (.inl rfl)
      · exact .inl (if_neg hst)
  | reportOut =>
      obtain ⟨-, ⟨⟩⟩ := Option.ite_none_right_eq_some.mp hs
      exact h.with_tx h.tx.report (h.tx.wf.stirs_report _ _ _).isReturned
  | reportIn =>
      obtain ⟨-, ⟨⟩⟩ := Option.ite_none_right_eq_some.mp hs
      exact h.with_rx h.rx.report
  | rouseOut =>
      obtain rfl := Option.some.inj hs
      exact h.with_tx h.tx.rouse id
  | rouseIn =>
      obtain rfl := Option.some.inj hs
      exact h.with_rx h.rx.rouse
  | stopOut =>
      obtain rfl := Option.some.inj hs
      exact h.with_tx h.tx.stop h.tx.wf.stirs_stop.isReturned
  | stopIn =>
      obtain rfl := Option.some.inj hs
      exact h.with_rx h.rx.stop
  | cancelOut =>
      obtain rfl := Option.some.inj hs
      exact h.with_tx h.tx.cancel h.tx.wf.stirs_cancel.isReturned
  | cancelIn =>
      obtain rfl := Option.some.inj hs
      exact h.with_rx h.rx.cancel

end Steps

/-! ## §4 — every run. -/

section Runs

variable {K : Kernel} {data : Bytes} {size : Nat → Nat} {s : State}

theorem inv_of_reachable (h : Reachable (step K data size) init s) : Inv K data s :=
  Run.invariant (fun _ _ _ hs _ hstep => inv_step hs hstep) (inv_init K data) h

/-- **Nothing is lost, doubled or reordered, and nobody sleeps on what has come.**  In every state of every run, with
stops, cancellations and failures at any time: what was received, what is in flight and what is left to send are `data`; a `send` that
has returned tells how much it took, and has taken all when it names no error; a suspended sender whose socket is
writable and a suspended receiver whose socket has bytes, or is at its end, are in the ready list. -/
theorem transfer_exact (h : Reachable (step K data size) init s) :
    s.received ++ s.pipe ++ data.drop s.total = data ∧
      (∀ res, s.tx.phase = .returned res →
        res.size = (s.received ++ s.pipe).length ∧ (res.ec = none → s.received ++ s.pipe = data)) ∧
      (s.tx.phase = .suspended → K.writable s.pipe.length = true → s.tx.ready = true) ∧
      (s.rx.phase = .suspended → s.pipe ≠ [] ∨ s.fin = true → s.rx.ready = true) := by
  have hinv := inv_of_reachable h
  refine ⟨?_, ?_, ?_, ?_⟩
  · rw [hinv.stream, List.take_append_drop]
  · intro res hr
    obtain ⟨hsize, hec⟩ := hinv.tx.result res hr
    refine ⟨?_, fun he => ?_⟩
    · rw [hsize, hinv.stream, List.length_take, Nat.min_eq_left hinv.total_le]
    · rw [hinv.stream, hec he, List.take_length]
  · intro hsus hw
    have hns : s.noSpace = false := by
      cases hns : s.noSpace with
      | false => rfl
      | true =>
          have hfull := hinv.space hns
          rw [hw] at hfull
          cases hfull
    exact hinv.tx.wf.ready hsus (hinv.tx.room (.inr hsus) hns).2
  · intro hsus hm
    refine hinv.rx.wf.ready hsus ((hinv.rx.fed (.inr hsus)).resolve_left ?_)
    rintro ⟨hp, hf⟩
    rcases hm with hm | hm
    · exact hm hp
    · rw [hf] at hm
      cases hm

end Runs

/-- A socket that takes more below two bytes in flight. -/
def twoBytes : Kernel := ⟨fun n => decide (n < 2), fun n => decide (n < 2), fun _ h => h, rfl, fun _ _ h => by simp; omega⟩

/-- Three bytes: two fill the pipe, the sender sleeps, one is read. -/
theorem transfer_exact_waits :
    ∃ s, Reachable (step twoBytes [1, 2, 3] fun _ => 8) init s ∧ s.tx.phase = .suspended ∧ s.tx.ready = true ∧
      s.received ++ s.pipe ++ List.drop s.total [1, 2, 3] = [1, 2, 3] := by
  have h : exec (step twoBytes [1, 2, 3] fun _ => 8) init [.send (.moved 2), .send .again, .sendAwait, .recv (.moved 1)] =
      some ⟨2, false, [2], false, [1], 1, ⟨.suspended, .waiting, true, false⟩, ⟨.call, .idle, true, false⟩⟩ := by decide
  have hr := reachable_of_exec h
  have hex := transfer_exact hr
  exact ⟨_, hr, rfl, hex.2.2.1 rfl rfl, hex.1⟩

/-! ## §5 — runs without stops, cancellations and failures come to their end. -/

def Action.calm : Action → Bool
  | .stopOut | .stopIn | .cancelOut | .cancelIn | .send (.failed _) | .recv (.failed _) => false
  | _ => true

/-- Events that report nothing new come from outside. -/
def Action.own : Action → Bool
  | .rouseOut | .rouseIn => false
  | _ => true

/-- The transition function without them. -/
def calmStep (K : Kernel) (data : Bytes) (size : Nat → Nat) : State → Action → Option State :=
  guarded (step K data size) fun _ a => a.calm = true

structure Calm (s : State) : Prop where
  tx_live : s.tx.dead = false
  rx_live : s.rx.dead = false
  tx_end : ∀ res, s.tx.phase = .returned res → res.ec = none
  rx_end : ∀ res, s.rx.phase = .returned res → s.pipe = [] ∧ s.fin = true

/-! ### What a run has to pay with -/

/-- Bytes to send are paid for twice: once when they are sent and once when they are read. -/
def work (data : Bytes) (s : State) : Nat :=
  10 * (data.length - s.total) + 5 * s.pipe.length + (bif s.fin then 0 else 5) + s.tx.price + s.rx.price

/-! ### The steps -/

section CalmSteps

variable {K : Kernel} {data : Bytes} {size : Nat → Nat} {s t : State}

theorem calm_init : Calm init := ⟨rfl, rfl, nofun, nofun⟩

theorem sendMore_ec {m n : Nat} {res : Result} (h : sendMore m n = .returned res) : res.ec = none := by
  unfold sendMore at h
  split at h
  · cases h
  · cases h
    rfl

theorem nextRead_moved {n : Nat} {res : Result} (h : nextRead ⟨n, none⟩ = .returned res) : n = 0 := by
  by_contra hn
  simp [nextRead, connected, hn] at h

/-- What `::recv` may have given, when something is asked for. -/
theorem receives_moved {m n : Nat} (hm : 0 < m) (h : s.receives m (.moved n) = true) :
    n ≤ s.pipe.length ∧ (n = 0 → s.pipe = [] ∧ s.fin = true) := by
  unfold State.receives at h
  by_cases hp : s.pipe = []
  · obtain ⟨hf, hn⟩ : s.fin = true ∧ n = 0 := by simpa [hp, Nat.pos_iff_ne_zero.mp hm] using h
    exact ⟨by omega, fun _ => ⟨hp, hf⟩⟩
  · obtain ⟨hpos, -, hle⟩ : 0 < n ∧ n ≤ m ∧ n ≤ s.pipe.length := by simpa [hp, Nat.pos_iff_ne_zero.mp hm] using h
    exact ⟨hle, fun hn => by omega⟩

/-- The receiver has not returned while the sender is at work. -/
theorem rx_open (h : Inv K data s) (hc : Calm s) (ht : s.tx.phase.isReturned = false) (res : Result) :
    s.rx.phase ≠ .returned res := by
  intro hr
  have := h.closed (hc.rx_end res hr).2
  rw [ht] at this
  cases this

theorem calm_step (h : Inv K data s) (hc : Calm s) (hsize : ∀ i, 0 < size i) {a : Action}
    (hs : calmStep K data size s a = some t) : Calm t := by
  obtain ⟨ha, hs⟩ := Option.ite_none_right_eq_some.mp hs
  cases a with
  | send a =>
      obtain ⟨⟨hp, -⟩, ⟨⟩⟩ := Option.ite_none_right_eq_some.mp hs
      refine ⟨hc.tx_live, ?_, ?_, ?_⟩
      · simp only [State.sent]
        split <;> exact hc.rx_live
      · intro res hr
        cases a with
        | moved n =>
            by_cases hn : 0 < n
            · exact sendMore_ec (by simpa [State.sent, sendTurn, hn, Side.goto] using hr)
            · obtain rfl : (⟨s.total, none⟩ : Result) = res := by simpa [State.sent, sendTurn, hn, Side.goto] using hr
              rfl
        | again => cases hr
        | failed errno => cases ha
      · intro res hr
        refine absurd ?_ (rx_open h hc (by rw [hp]; rfl) res)
        simp only [State.sent] at hr
        split at hr <;> exact hr
  | sendAwait =>
      obtain ⟨hp, ⟨⟩⟩ := Option.ite_none_right_eq_some.mp hs
      exact ⟨Side.dead_await.trans hc.tx_live, hc.rx_live, fun res hr => absurd hr (Side.await_not_returned res), hc.rx_end⟩
  | sendResume =>
      obtain ⟨hp, ⟨⟩⟩ := Option.ite_none_right_eq_some.mp hs
      refine ⟨hc.tx_live, hc.rx_live, ?_, hc.rx_end⟩
      intro res hr
      exact sendMore_ec (by simpa [sendResume, hc.tx_live, Side.goto] using hr)
  | close =>
      obtain ⟨⟨hr, -⟩, ⟨⟩⟩ := Option.ite_none_right_eq_some.mp hs
      exact ⟨hc.tx_live, hc.rx_live, hc.tx_end, fun res hr => ⟨(hc.rx_end res hr).1, rfl⟩⟩
  | recv a =>
      obtain ⟨⟨hp, hans⟩, ⟨⟩⟩ := Option.ite_none_right_eq_some.mp hs
      refine ⟨?_, hc.rx_live, ?_, ?_⟩
      · simp only [State.taken]
        split <;> exact hc.tx_live
      · intro res hr
        apply hc.tx_end res
        simp only [State.taken] at hr
        split at hr <;> exact hr
      · intro res hr
        cases a with
        | moved n =>
            obtain rfl : n = 0 := nextRead_moved hr
            simpa [State.taken, Answer.bytes] using (receives_moved (hsize _) hans).2 rfl
        | again => cases hr
        | failed errno => cases ha
  | recvAwait =>
      obtain ⟨hp, ⟨⟩⟩ := Option.ite_none_right_eq_some.mp hs
      exact ⟨hc.tx_live, Side.dead_await.trans hc.rx_live, hc.tx_end, fun res hr => absurd hr (Side.await_not_returned res)⟩
  | recvResume =>
      obtain ⟨hp, ⟨⟩⟩ := Option.ite_none_right_eq_some.mp hs
      refine ⟨hc.tx_live, hc.rx_live, hc.tx_end, ?_⟩
      intro res hr
      simp [readResume, hc.rx_live, Side.goto] at hr
  | reportOut =>
      obtain ⟨-, ⟨⟩⟩ := Option.ite_none_right_eq_some.mp hs
      refine ⟨(Side.dead_report _ _ _).trans hc.tx_live, hc.rx_live, fun res hr => ?_, hc.rx_end⟩
      exact hc.tx_end res ((h.tx.wf.stirs_report _ _ _).returned hr)
  | reportIn =>
      obtain ⟨-, ⟨⟩⟩ := Option.ite_none_right_eq_some.mp hs
      refine ⟨hc.tx_live, (Side.dead_report _ _ _).trans hc.rx_live, hc.tx_end, fun res hr => ?_⟩
      exact hc.rx_end res ((h.rx.wf.stirs_report _ _ _).returned hr)
  | rouseOut =>
      obtain rfl := Option.some.inj hs
      exact ⟨hc.tx_live, hc.rx_live, hc.tx_end, hc.rx_end⟩
  | rouseIn =>
      obtain rfl := Option.some.inj hs
      exact ⟨hc.tx_live, hc.rx_live, hc.tx_end, hc.rx_end⟩
  | stopOut | stopIn | cancelOut | cancelIn => cases ha

/-- Nothing was taken, so no room has opened. -/
theorem taken_tx (h : Inv K data s) {a : Answer} (ha : a.bytes = 0) : (s.taken K a).tx = s.tx := by
  simp only [State.taken, ha, List.drop_zero]
  apply if_neg
  rw [Bool.and_eq_true]
  rintro ⟨hn, hw⟩
  rw [h.space hn] at hw
  cases hw

/-- Each step of the loops, their pollers and the kernel is paid for. -/
theorem work_pays (h : Inv K data s) (hc : Calm s) (hsize : ∀ i, 0 < size i) {a : Action} (ha : a.own = true)
    (hs : calmStep K data size s a = some t) : work data t < work data s := by
  obtain ⟨hcalm, hs⟩ := Option.ite_none_right_eq_some.mp hs
  cases a with
  | send a =>
      obtain ⟨⟨hp, hans⟩, ⟨⟩⟩ := Option.ite_none_right_eq_some.mp hs
      have hgoto := s.tx.price_goto (sendTurn data.length s.total a).2
      rw [hp] at hgoto
      cases a with
      | moved n =>
          obtain ⟨hn, -⟩ := sends_moved hans
          by_cases hpos : 0 < n
          · have hphase :
                Side.phasePrice s.tx.dead (sendMore data.length (s.total + n)) ≤
                  Side.phasePrice s.tx.dead (.call : Phase Result) := by
              unfold sendMore
              split
              · exact Nat.le_refl _
              · exact Nat.zero_le _
            have hready := s.rx.price_rouse
            simp only [sendTurn, hpos, if_true] at hgoto
            simp only [work, State.sent, sendTurn, Answer.bytes, hpos, if_true, List.length_append, List.length_take,
              List.length_drop]
            omega
          · obtain rfl : n = 0 := by omega
            simp only [sendTurn, Side.phasePrice, Nat.lt_irrefl, if_false] at hgoto
            simp only [work, State.sent, sendTurn, Answer.bytes, Nat.lt_irrefl, if_false, List.take_zero, List.append_nil]
            omega
      | again =>
          simp only [sendTurn, Side.phasePrice] at hgoto
          simp only [work, State.sent, sendTurn, Answer.bytes, Nat.lt_irrefl, if_false, List.take_zero, List.append_nil]
          omega
      | failed errno => cases hcalm
  | sendAwait =>
      obtain ⟨hp, ⟨⟩⟩ := Option.ite_none_right_eq_some.mp hs
      have := Side.price_await h.tx.wf hp
      simp only [work]
      omega
  | sendResume =>
      obtain ⟨hp, ⟨⟩⟩ := Option.ite_none_right_eq_some.mp hs
      have hgoto := s.tx.price_goto (sendResume data.length s.total s.tx.dead)
      have hlt : s.total < data.length := h.tx.less (.inr hp)
      rw [hp, hc.tx_live, sendResume, if_neg Bool.false_ne_true, sendMore, if_pos hlt] at hgoto
      simp only [work, sendResume, hc.tx_live, sendMore, if_pos hlt, Bool.false_eq_true, if_false]
      simp only [Side.phasePrice, cond_false] at hgoto
      omega
  | close =>
      obtain ⟨⟨-, hf⟩, ⟨⟩⟩ := Option.ite_none_right_eq_some.mp hs
      have hready := s.rx.price_rouse
      simp only [work, hf, cond_true, cond_false]
      omega
  | recv a =>
      obtain ⟨⟨hp, hans⟩, ⟨⟩⟩ := Option.ite_none_right_eq_some.mp hs
      have hgoto := s.rx.price_goto (readTurn a)
      have hready : (s.taken K a).tx.price ≤ s.tx.price + 4 := by
        simp only [State.taken]
        split
        · exact s.tx.price_rouse
        · omega
      rw [hp] at hgoto
      cases a with
      | moved n =>
          obtain ⟨hn, -⟩ := receives_moved (hsize _) hans
          by_cases hpos : 0 < n
          · have hcall : readTurn (.moved n) = .call := by
              simp [readTurn, immRecvTurn, nextRead, connected, Nat.pos_iff_ne_zero.mp hpos]
            rw [hcall] at hgoto
            simp only [work] at hready ⊢
            simp only [State.taken, hcall, Answer.bytes, List.length_drop] at hready ⊢
            omega
          · obtain rfl : n = 0 := by omega
            have hend : readTurn (.moved 0) = .returned ⟨0, some .notConnected⟩ := rfl
            have hsame : (s.taken K (.moved 0)).tx = s.tx := taken_tx h rfl
            rw [hend] at hgoto
            simp only [work, hsame]
            simp only [State.taken, hend, Answer.bytes, List.drop_zero, Side.phasePrice] at hgoto ⊢
            omega
      | again =>
          have hwait : readTurn .again = .await := rfl
          have hsame : (s.taken K .again).tx = s.tx := taken_tx h rfl
          rw [hwait] at hgoto
          simp only [work, hsame]
          simp only [State.taken, hwait, Answer.bytes, List.drop_zero, Side.phasePrice] at hgoto ⊢
          omega
      | failed errno => cases hcalm
  | recvAwait =>
      obtain ⟨hp, ⟨⟩⟩ := Option.ite_none_right_eq_some.mp hs
      have := Side.price_await h.rx.wf hp
      simp only [work]
      omega
  | recvResume =>
      obtain ⟨hp, ⟨⟩⟩ := Option.ite_none_right_eq_some.mp hs
      have hgoto := s.rx.price_goto (readResume s.rx.dead)
      rw [hp, hc.rx_live, readResume, if_neg Bool.false_ne_true] at hgoto
      simp only [work, readResume, hc.rx_live, Bool.false_eq_true, if_false]
      simp only [Side.phasePrice, cond_false] at hgoto
      omega
  | reportOut =>
      obtain ⟨hr, ⟨⟩⟩ := Option.ite_none_right_eq_some.mp hs
      have := Side.price_report h.tx.wf hr keys Events.OUT (s.outMask K)
      simp only [work]
      omega
  | reportIn =>
      obtain ⟨hr, ⟨⟩⟩ := Option.ite_none_right_eq_some.mp hs
      have := Side.price_report h.rx.wf hr keys Events.IN s.inMask
      simp only [work]
      omega
  | rouseOut => cases ha
  | rouseIn => cases ha
  | stopOut | stopIn | cancelOut | cancelIn => cases hcalm

theorem work_lends {a : Action} (ha : a.own = false) (hs : calmStep K data size s a = some t) :
    work data t ≤ work data s + 4 := by
  obtain ⟨-, hs⟩ := Option.ite_none_right_eq_some.mp hs
  cases a with
  | rouseOut =>
      obtain rfl := Option.some.inj hs
      have := s.tx.price_rouse
      simp only [work]
      omega
  | rouseIn =>
      obtain rfl := Option.some.inj hs
      have := s.rx.price_rouse
      simp only [work]
      omega
  | send _ | sendAwait | sendResume | close | recv _ | recvAwait | recvResume | reportOut | reportIn | stopOut | stopIn |
      cancelOut | cancelIn =>
      cases ha

theorem calm_metered (K : Kernel) (data : Bytes) {size : Nat → Nat} (hsize : ∀ i, 0 < size i) :
    Metered (calmStep K data size) (fun s => Inv K data s ∧ Calm s) Action.own (work data) 4 where
  inv _ _ _ h hs := ⟨inv_step h.1 (Option.ite_none_right_eq_some.mp hs).2, calm_step h.1 h.2 hsize hs⟩
  pays _ _ _ h ha hs := work_pays h.1 h.2 hsize ha hs
  lends _ _ _ _ ha hs := work_lends ha hs

/-! ### Where no step is left -/

theorem step_of_rests (hr : Rests (calmStep K data size) Action.own s) {a : Action} (ha : a.own = true)
    (hc : a.calm = true) : step K data size s a = none := by
  have h := hr a ha
  rwa [calmStep, guarded, if_pos hc] at h

/-- `::send` answers. -/
theorem exists_sends (K : Kernel) (inFlight offered : Nat) :
    ∃ a, K.sends inFlight offered a = true ∧ (Action.send a).calm = true := by
  by_cases ho : offered = 0
  · exact ⟨.moved 0, by simp [Kernel.sends, ho], rfl⟩
  · cases hK : K.takes inFlight with
    | true => exact ⟨.moved 1, by simp [Kernel.sends, ho, hK]; omega, rfl⟩
    | false => exact ⟨.again, by simp [Kernel.sends, hK, Nat.pos_iff_ne_zero.mpr ho], rfl⟩

/-- `::recv` answers. -/
theorem exists_receives (s : State) {m : Nat} (hm : 0 < m) :
    ∃ a, s.receives m a = true ∧ (Action.recv a).calm = true := by
  by_cases hp : s.pipe = []
  · cases hf : s.fin with
    | true => exact ⟨.moved 0, by simp [State.receives, hp, hf], rfl⟩
    | false => exact ⟨.again, by simp [State.receives, hp, hf], rfl⟩
  · have hlen : 0 < s.pipe.length := List.length_pos_iff.mpr hp
    refine ⟨.moved 1, ?_, rfl⟩
    simp [State.receives, hp, Nat.pos_iff_ne_zero.mp hm]
    omega

/-- The sender has returned and closed its socket, or sleeps. -/
theorem tx_rests (hr : Rests (calmStep K data size) Action.own s) :
    s.tx.ready = false ∧ (s.tx.phase = .suspended ∨ (∃ res, s.tx.phase = .returned res) ∧ s.fin = true) := by
  have hready : s.tx.ready = false := by
    simpa [step] using step_of_rests hr (a := .reportOut) rfl rfl
  refine ⟨hready, ?_⟩
  cases hp : s.tx.phase with
  | call =>
      obtain ⟨a, ha, hc⟩ := exists_sends K s.pipe.length (data.length - s.total)
      have hno := step_of_rests hr rfl hc
      rw [step, if_pos ⟨hp, ha⟩] at hno
      cases hno
  | await =>
      have hno := step_of_rests hr (a := .sendAwait) rfl rfl
      rw [step, if_pos hp] at hno
      cases hno
  | resumed =>
      have hno := step_of_rests hr (a := .sendResume) rfl rfl
      rw [step, if_pos hp] at hno
      cases hno
  | suspended => exact .inl rfl
  | returned res =>
      refine .inr ⟨⟨res, rfl⟩, ?_⟩
      have hno : step K data size s .close = none := step_of_rests hr rfl rfl
      simpa [step, hp, Phase.isReturned] using hno

/-- The receiver has returned, or sleeps. -/
theorem rx_rests (hsize : ∀ i, 0 < size i) (hr : Rests (calmStep K data size) Action.own s) :
    s.rx.ready = false ∧ (s.rx.phase = .suspended ∨ ∃ res, s.rx.phase = .returned res) := by
  have hready : s.rx.ready = false := by
    simpa [step] using step_of_rests hr (a := .reportIn) rfl rfl
  refine ⟨hready, ?_⟩
  cases hp : s.rx.phase with
  | call =>
      obtain ⟨a, ha, hc⟩ := exists_receives s (hsize s.reads)
      have hno := step_of_rests hr rfl hc
      rw [step, if_pos ⟨hp, ha⟩] at hno
      cases hno
  | await =>
      have hno := step_of_rests hr (a := .recvAwait) rfl rfl
      rw [step, if_pos hp] at hno
      cases hno
  | resumed =>
      have hno := step_of_rests hr (a := .recvResume) rfl rfl
      rw [step, if_pos hp] at hno
      cases hno
  | suspended => exact .inl rfl
  | returned res => exact .inr ⟨res, rfl⟩

/-- The stream has come to its end on both sides. -/
def Complete (data : Bytes) (s : State) : Prop :=
  s.received = data ∧ s.tx.phase = .returned ⟨data.length, none⟩ ∧ s.rx.phase = .returned ⟨0, some .notConnected⟩

/-- Two sleeping loops would both have been woken: the sender sleeps on a full pipe, the receiver on an empty one. -/
theorem complete_of_rests (h : Inv K data s) (hc : Calm s) (hsize : ∀ i, 0 < size i)
    (hr : Rests (calmStep K data size) Action.own s) : Complete data s := by
  obtain ⟨htx, hsend⟩ := tx_rests hr
  obtain ⟨hrx, hread⟩ := rx_rests hsize hr
  have hfull : s.tx.phase = .suspended → s.pipe ≠ [] := by
    intro hp hnil
    have hroom := h.tx.room (.inr hp)
    have hspace := h.space
    rw [hnil, List.length_nil, K.empty] at hspace
    cases hn : s.noSpace with
    | true => cases hspace hn
    | false => exact h.tx.wf.not_woken hp htx (hroom hn).2
  have hempty : s.pipe = [] ∧ (s.rx.phase = .suspended → s.fin = false) := by
    rcases hread with hp | ⟨res, hp⟩
    · obtain ⟨hnil, hf⟩ := (h.rx.fed (.inr hp)).resolve_right (h.rx.wf.not_woken hp hrx)
      exact ⟨hnil, fun _ => hf⟩
    · refine ⟨(hc.rx_end res hp).1, fun hs => ?_⟩
      rw [hp] at hs
      cases hs
  obtain ⟨⟨res, hres⟩, hfin⟩ := hsend.resolve_left fun hp => hfull hp hempty.1
  obtain ⟨hsz, hec⟩ := h.tx.result res hres
  have hnone : res.ec = none := hc.tx_end res hres
  have htotal : s.total = data.length := hec hnone
  refine ⟨?_, ?_, ?_⟩
  · have hstream := h.stream
    rwa [hempty.1, List.append_nil, htotal, List.take_length] at hstream
  · have heq : res = ⟨data.length, none⟩ := by
      rw [← htotal, ← hsz, ← hnone]
    rw [hres, heq]
  · rcases hread with hp | ⟨out, hp⟩
    · have hopen := hempty.2 hp
      rw [hfin] at hopen
      cases hopen
    · rw [hp, h.rx.result out hp]

/-- **A transfer completes.**  Without stops, cancellations and failures, in every order of the steps, with every answer of the kernel:
a run is bounded by the bytes and by the events that reported nothing new; it can always be brought to its end by the
steps of the loops and their pollers; and where none of those is left, everything has been received, `send` has returned
the number of bytes and the reader has seen the end. -/
theorem transfer_completes (hsize : ∀ i, 0 < size i) {as : List Action}
    (h : exec (calmStep K data size) init as = some s) :
    as.length ≤ 10 * data.length + 11 + 5 * as.countP (fun a => !a.own) ∧
      (∃ bs t, (∀ b ∈ bs, b.own = true) ∧ exec (calmStep K data size) s bs = some t ∧ Complete data t) ∧
      (Rests (calmStep K data size) Action.own s → Complete data s) := by
  have hm := calm_metered K data hsize
  have h0 : Inv K data init ∧ Calm init := ⟨inv_init K data, calm_init⟩
  have hs := hm.inv_exec h0 h
  refine ⟨?_, ?_, fun hr => complete_of_rests hs.1 hs.2 hsize hr⟩
  · have hlen := hm.length_le h0 h
    have hwork : work data init = 10 * data.length + 11 := by
      simp [work, init, Side.init, Side.price, Side.phasePrice, Side.wordPrice]
    omega
  · obtain ⟨bs, t, hown, hexec, ht, hrest⟩ := hm.exists_rest s hs
    exact ⟨bs, t, hown, hexec, complete_of_rests ht.1 ht.2 hsize hrest⟩

end CalmSteps

/-- Both loops sleep once on the way. -/
theorem transfer_completes_three :
    ∃ s, exec (calmStep twoBytes [1, 2, 3] fun _ => 8) init
        [.recv .again, .recvAwait, .send (.moved 2), .send .again, .sendAwait, .reportIn, .recvResume, .recv (.moved 2),
          .reportOut, .sendResume, .send (.moved 1), .close, .recv (.moved 1), .reportIn, .recv (.moved 0)] = some s ∧
      Rests (calmStep twoBytes [1, 2, 3] fun _ => 8) Action.own s ∧ Complete [1, 2, 3] s := by
  have h : exec (calmStep twoBytes [1, 2, 3] fun _ => 8) init
      [.recv .again, .recvAwait, .send (.moved 2), .send .again, .sendAwait, .reportIn, .recvResume, .recv (.moved 2),
        .reportOut, .sendResume, .send (.moved 1), .close, .recv (.moved 1), .reportIn, .recv (.moved 0)] =
      some ⟨3, false, [], true, [1, 2, 3], 2, ⟨.returned ⟨3, none⟩, .idle, false, false⟩,
        ⟨.returned ⟨0, some .notConnected⟩, .signaled, false, false⟩⟩ := by decide
  have hrests : Rests (calmStep twoBytes [1, 2, 3] fun _ => 8) Action.own
      ⟨3, false, [], true, [1, 2, 3], 2, ⟨.returned ⟨3, none⟩, .idle, false, false⟩,
        ⟨.returned ⟨0, some .notConnected⟩, .signaled, false, false⟩⟩ := by
    intro a ha
    cases a with
    | rouseOut | rouseIn => cases ha
    | send _ | sendAwait | sendResume | close | recv _ | recvAwait | recvResume | reportOut | reportIn | stopOut | stopIn |
      cancelOut | cancelIn =>
        simp [calmStep, guarded, step, Action.calm]
  exact ⟨_, h, hrests, (transfer_completes (fun _ => by decide) h).2.2 hrests⟩

end NetCpp.Io.Transfer
