/-
# NetCpp.Coro.Frames — tasks, `block()` and `detach()` as coroutine frames on a heap.

`include/xsl/coro/core/task.h`, `base.h`, `block.h`, `detach.h` and `context.h`.  Three kinds of coroutine live on one
heap: tasks, the frames that run a detached task, and the shells of `block()`.  A task knows who awaits it by the handle
`_next` in its promise, and its context by an `Rc`, whose count is not atomic.

A step is one instruction of a running coroutine, with the transfers of control it ends in, one wake-up by a signal, or
one function that an executor runs.  `dispatch` leaves the function with the executor, whatever that is; the inline
executor is the one that runs it at once.  What a context consists of is nobody's business here: a `CoroContext` is any
value, and its copies are equal to it.

A signal is the environment.  It is taken to resume each handle that it holds ONCE, and only after the coroutine has
suspended; the atomic steps behind that, and the schedules that break it, are in `NetCpp.Coro.SignalOnce` and
`NetCpp.Coro.SignalWake`.

Whatever would be undefined in the source is a `Fault`: a handle resumed that is not suspended, or that is gone; a null
context used; a failed `assert` of a debug build.
-/
import NetCpp.Lib.CallStack

namespace NetCpp.Coro.Frames

open NetCpp.Lib
open NetCpp.Lib.CallStack (Instr Event errorOf)

variable {C V E G A R : Type}

/-! ## §1 — frames. -/

/-- The address of a frame. -/
abbrev Handle := Nat

/-- The address of what an `Rc<CoroContext>` points to. -/
abbrev Inner := Nat

inductive Fault
  /-- a frame or a context that is not there -/
  | dangling (h : Nat)
  /-- a null `Rc` dereferenced or copied -/
  | nullRc
  /-- a coroutine resumed that is not suspended, or suspended for good -/
  | resumed (h : Handle)
  /-- "Task completed without a continuation" -/
  | nullNext
  /-- "Task destroyed before co_return/co_yield" -/
  | notDone (h : Handle)
  /-- "ctx must be uniquely owned" -/
  | shared (i : Inner)
  /-- `unwrap` of a result nobody has set -/
  | badVariantAccess

/-- `_detail::Result`.  A `void` task returns a value here like any other. -/
inductive Result (V E : Type)
  | monostate
  | value (v : V)
  | exception (e : E)

/-- `unwrap`: the value, or the exception rethrown. -/
def Result.unwrap : Result V E → Except Fault (Except E V)
  | .monostate => .error .badVariantAccess
  | .value v => .ok (.ok v)
  | .exception e => .ok (.error e)

/-- Where a task stands. -/
inductive Point (C V E : Type)
  /-- suspended at `initial_suspend` -/
  | initial (c : C)
  | running (c : C)
  /-- suspended in the `co_await` of a task -/
  | awaiting (task : Handle) (k : Except E V → C)
  /-- suspended in the `co_await` of a signal -/
  | waiting (k : Bool → C)
  /-- suspended at `final_suspend` -/
  | final

/-- The frame of a `Task`, with the members of its promise: `_ctx`, `_next`, `_result`. -/
structure TaskFrame (C V E : Type) where
  point : Point C V E
  ctx : Option Inner
  next : Option Handle
  result : Result V E

/-- The frame of the coroutine in `detach()`: its parameter `awaiter`, and `_ctx` of its promise. -/
structure DetachFrame where
  started : Bool
  awaiter : Handle
  ctx : Option Inner

inductive Frame (C V E : Type)
  | task (f : TaskFrame C V E)
  | detach (d : DetachFrame)
  /-- a `BlockShell`, and whether its body has run -/
  | shell (done : Bool)

/-- The context a promise holds. -/
def Frame.ctx : Frame C V E → Option Inner
  | .task f => f.ctx
  | .detach d => d.ctx
  | .shell _ => none

/-- `Rc<CoroContext>::Inner`. -/
structure RcInner (G : Type) where
  value : G
  refCount : Nat

/-- A thread inside `block()`: the task it owns, and its semaphore. -/
structure Blocked where
  task : Handle
  sem : Bool

structure State (C V E G A R : Type) where
  frames : Handle → Option (Frame C V E)
  /-- the next address of a frame -/
  fresh : Handle
  inners : Inner → Option (RcInner G)
  freshInner : Inner
  /-- the handles that signals hold -/
  signals : List Handle
  /-- the handles that functions given to `schedule` will resume -/
  jobs : List Handle
  /-- the threads inside `block()`, by their shell -/
  blocked : Handle → Option Blocked
  /-- what `block()` has returned or rethrown -/
  returned : Handle → Option (Except E V)
  log : List (Event C G A R)
  /-- the exceptions of detached tasks that were logged -/
  errors : List E

def State.init : State C V E G A R :=
  ⟨fun _ => none, 0, fun _ => none, 0, [], [], fun _ => none, fun _ => none, [], []⟩

namespace State

def setFrame (s : State C V E G A R) (h : Handle) (f : Frame C V E) : State C V E G A R :=
  { s with frames := Function.update s.frames h (some f) }

def newFrame (s : State C V E G A R) (f : Frame C V E) : State C V E G A R :=
  { s.setFrame s.fresh f with fresh := s.fresh + 1 }

def freeFrame (s : State C V E G A R) (h : Handle) : State C V E G A R :=
  { s with frames := Function.update s.frames h none }

def task (s : State C V E G A R) (h : Handle) : Except Fault (TaskFrame C V E) :=
  match s.frames h with
  | some (.task f) => .ok f
  | _ => .error (.dangling h)

/-! ## §2 — `Rc<CoroContext>`. -/

def setInner (s : State C V E G A R) (i : Inner) (x : Option (RcInner G)) : State C V E G A R :=
  { s with inners := Function.update s.inners i x }

/-- `Rc(args...)`: a new `Inner`, at `freshInner`. -/
def makeRc (s : State C V E G A R) (g : G) : State C V E G A R :=
  { s.setInner s.freshInner (some ⟨g, 1⟩) with freshInner := s.freshInner + 1 }

def inner (s : State C V E G A R) : Option Inner → Except Fault (RcInner G)
  | none => .error .nullRc
  | some i => match s.inners i with
    | some x => .ok x
    | none => .error (.dangling i)

/-- `Rc(const Rc&)`: no test for null. -/
def copyRc (s : State C V E G A R) (rc : Option Inner) : Except Fault (State C V E G A R) := do
  let x ← s.inner rc
  match rc with
  | some i => .ok (s.setInner i (some { x with refCount := x.refCount + 1 }))
  | none => .error .nullRc

/-- `~Rc()`. -/
def dropRc (s : State C V E G A R) : Option Inner → Except Fault (State C V E G A R)
  | none => .ok s
  | some i => do
    let x ← s.inner (some i)
    if x.refCount = 1 then .ok (s.setInner i none)
    else .ok (s.setInner i (some { x with refCount := x.refCount - 1 }))

/-- `assert(ctx.unique())`. -/
def assertUnique (s : State C V E G A R) (i : Inner) : Except Fault Unit := do
  let x ← s.inner (some i)
  if x.refCount = 1 then .ok () else .error (.shared i)

/-- `_ctx->dispatch([handle] { handle(); })`. -/
def dispatch (s : State C V E G A R) (ctx : Option Inner) (h : Handle) : Except Fault (State C V E G A R) := do
  let _ ← s.inner ctx
  .ok { s with jobs := s.jobs ++ [h] }

/-! ## §3 — `Task`. -/

/-- A call of a coroutine: a task at `fresh`, suspended at `initial_suspend`. -/
def newTask (s : State C V E G A R) (c : C) : State C V E G A R :=
  s.newFrame (.task ⟨.initial c, none, none, .monostate⟩)

/-- `NextBase::by` of the task `t`. -/
def attach (s : State C V E G A R) (t : Handle) (g : G) : Except Fault (State C V E G A R) := do
  let f ← s.task t
  let i := s.freshInner
  let s ← (s.makeRc g).dropRc f.ctx
  let s := s.setFrame t (.task { f with ctx := some i })
  s.assertUnique i
  .ok s

/-- `NextBase::next` of the task `t`: the continuation, and its context unless `t` has one. -/
def next (s : State C V E G A R) (t h : Handle) : Except Fault (State C V E G A R) := do
  let f ← s.task t
  match s.frames h with
  | none => .error (.dangling h)
  -- the promise of a shell has no `ctx()`
  | some (.shell _) => .ok (s.setFrame t (.task { f with next := some h }))
  | some p =>
    if f.ctx.isSome then .ok (s.setFrame t (.task { f with next := some h }))
    else do
      let s ← s.copyRc p.ctx
      .ok (s.setFrame t (.task { f with next := some h, ctx := p.ctx }))

/-- Control transferred to a task that has not started. -/
def start (s : State C V E G A R) (t : Handle) : Except Fault (State C V E G A R) := do
  let f ← s.task t
  match f.point with
  | .initial c => .ok (s.setFrame t (.task { f with point := .running c }))
  | _ => .error (.resumed t)

/-- `Task::await_resume`. -/
def awaitResume (s : State C V E G A R) (t : Handle) : Except Fault (Except E V) := do
  let f ← s.task t
  f.result.unwrap

/-- `~Task`. -/
def destroyTask (s : State C V E G A R) (t : Handle) : Except Fault (State C V E G A R) := do
  let f ← s.task t
  match f.point with
  | .final => (s.freeFrame t).dropRc f.ctx
  | _ => .error (.notDone t)

/-- `handle.resume()`; `b` is what the awaiter of a signal makes of it. -/
def resume (s : State C V E G A R) (h : Handle) (b : Bool) : Except Fault (State C V E G A R) :=
  match s.frames h with
  | none => .error (.dangling h)
  | some (.task f) =>
    match f.point with
    | .initial _ => s.start h
    | .waiting k => .ok { s.setFrame h (.task { f with point := .running (k b) }) with
        log := s.log ++ [.answered b] }
    -- the `Task` that was awaited is a temporary: it goes when its result is there
    | .awaiting t k => do
      let o ← s.awaitResume t
      (s.setFrame h (.task { f with point := .running (k o) })).destroyTask t
    | .running _ => .error (.resumed h)
    | .final => .error (.resumed h)
  | some (.detach d) =>
    if d.started then do
      -- the exception of a detached task is logged, and `final_suspend` lets the frame go, its parameter last
      let o ← s.awaitResume d.awaiter
      let s := { s with errors := s.errors ++ errorOf o }
      let s ← (s.freeFrame h).dropRc d.ctx
      s.destroyTask d.awaiter
    else do
      let s ← (s.setFrame h (.detach { d with started := true })).next d.awaiter h
      s.start d.awaiter
  | some (.shell done) =>
    match done, s.blocked h with
    | false, some b => .ok { s.setFrame h (.shell true) with
        blocked := Function.update s.blocked h (some { b with sem := true }) }
    | _, _ => .error (.resumed h)

/-- `return_value` or `unhandled_exception`, and then the transfer from `final_suspend` to `_next`. -/
def finish (s : State C V E G A R) (h : Handle) (f : TaskFrame C V E) (r : Result V E) :
    Except Fault (State C V E G A R) :=
  let s := s.setFrame h (.task { f with point := .final, result := r })
  match f.next with
  | none => .error .nullNext
  | some n => s.resume n false

/-- `co_await callee()` in the task `h`, or `co_await callee().by(ctx)`. -/
def await (s : State C V E G A R) (h : Handle) (f : TaskFrame C V E) (by_ : Option G) (callee : C)
    (k : Except E V → C) : Except Fault (State C V E G A R) := do
  -- `await_transform` binds `*_ctx`
  let _ ← s.inner f.ctx
  let t := s.fresh
  let s := s.newTask callee
  let s ← match by_ with
    | some g => s.attach t g
    | none => .ok s
  let s := s.setFrame h (.task { f with point := .awaiting t k })
  let s ← s.next t h
  s.start t

/-- `coro::detach`: a frame for the task `t`, and its first run dispatched on a context of its own. -/
def detach (s : State C V E G A R) (t : Handle) (g : G) : Except Fault (State C V E G A R) := do
  let i := s.freshInner
  let d := s.fresh
  let s := (s.makeRc g).newFrame (.detach ⟨false, t, none⟩)
  s.assertUnique i
  let s := s.setFrame d (.detach ⟨false, t, some i⟩)
  s.dispatch (some i) d

/-- `co_yield child()` in the task `h`, or `child().detach(ctx)`. -/
def spawn (s : State C V E G A R) (h : Handle) (f : TaskFrame C V E) (by_ : Option G) (child : C) (k : C) :
    Except Fault (State C V E G A R) := do
  -- `_ctx->new_child_context()` shows what the context shows
  let x ← s.inner f.ctx
  let t := s.fresh
  let s ← (s.newTask child).detach t (by_.getD x.value)
  .ok { s.setFrame h (.task { f with point := .running k }) with
    log := s.log ++ [.spawned (by_.getD x.value) child] }

/-- `Task::block` and `coro::block`, up to `sem.acquire()`; `own` is the `CoroContext{}` for a task without one. -/
def block (s : State C V E G A R) (by_ : Option G) (own : G) (c : C) : Except Fault (State C V E G A R) := do
  let t := s.fresh
  let s := s.newTask c
  let s ← match by_ with
    | some g => s.attach t g
    | none => .ok s
  let f ← s.task t
  let s ← if f.ctx.isSome then .ok s else s.attach t own
  let sh := s.fresh
  let s := { s.newFrame (.shell false) with blocked := Function.update s.blocked sh (some ⟨t, false⟩) }
  let s ← s.next t sh
  s.start t

/-- `block` behind `sem.acquire()`. -/
def acquired (s : State C V E G A R) (sh t : Handle) : Except Fault (State C V E G A R) := do
  let o ← s.awaitResume t
  { s.freeFrame sh with
    blocked := Function.update s.blocked sh none
    returned := Function.update s.returned sh (some o) }.destroyTask t

/-! ## §4 — the machine. -/

/-- The task that runs at `h`, and what it does next. -/
def current (code : C → Instr C V E G A R) (s : State C V E G A R) (h : Handle) :
    Option (TaskFrame C V E × Instr C V E G A R) :=
  match s.frames h with
  | some (.task f) => match f.point with
    | .running c => some (f, code c)
    | _ => none
  | _ => none

end State

inductive Act (C G R : Type)
  /-- a thread calls `block()` -/
  | block (by_ : Option G) (own : G) (c : C)
  /-- `sem.acquire()` returns -/
  | acquire (shell : Handle)
  /-- a thread calls `detach(ctx)` -/
  | detach (g : G) (c : C)
  /-- the coroutine at `h` goes on -/
  | step (h : Handle)
  | answer (h : Handle) (r : R)
  /-- the coroutine at `h` goes on, and the signal it awaits is ready -/
  | ready (h : Handle) (b : Bool)
  /-- a signal resumes what it holds -/
  | wake (h : Handle)
  /-- an executor runs a function that resumes `h` -/
  | run (h : Handle) (b : Bool)

open State in
def step (code : C → Instr C V E G A R) (s : State C V E G A R) :
    Act C G R → Option (Except Fault (State C V E G A R))
  | .block by_ own c => some (s.block by_ own c)
  | .acquire sh => match s.blocked sh with
    | some ⟨t, true⟩ => some (s.acquired sh t)
    | _ => none
  | .detach g c => some ((s.newTask c).detach s.fresh g)
  | .step h => match s.current code h with
    | some (f, .ret v) => some (s.finish h f (.value v))
    | some (f, .throw e) => some (s.finish h f (.exception e))
    | some (f, .call b callee k) => some (s.await h f b callee k)
    | some (f, .spawn b child k) => some (s.spawn h f b child k)
    | some (f, .wait k) => some do
        let _ ← s.inner f.ctx
        .ok { s.setFrame h (.task { f with point := .waiting k }) with signals := s.signals ++ [h] }
    | _ => none
  | .answer h r => match s.current code h with
    | some (f, .act a k) => some do
        let x ← s.inner f.ctx
        .ok { s.setFrame h (.task { f with point := .running (k r) }) with log := s.log ++ [.did x.value a r] }
    | _ => none
  | .ready h b => match s.current code h with
    | some (f, .wait k) => some do
        let _ ← s.inner f.ctx
        .ok { s.setFrame h (.task { f with point := .running (k b) }) with log := s.log ++ [.answered b] }
    | _ => none
  | .wake h => if h ∈ s.signals then some do
        let f ← s.task h
        { s with signals := s.signals.erase h }.dispatch f.ctx h
      else none
  | .run h b => if h ∈ s.jobs then some ({ s with jobs := s.jobs.erase h }.resume h b) else none

/-- The steps that do not fault. -/
def next (code : C → Instr C V E G A R) (s : State C V E G A R) (act : Act C G R) : Option (State C V E G A R) :=
  (step code s act).bind Except.toOption

end NetCpp.Coro.Frames
