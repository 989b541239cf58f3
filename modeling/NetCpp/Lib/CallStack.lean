/-
# NetCpp.Lib.CallStack — programs that call, wait and spawn, and the stacks that run them.

`code : C → Instr` says what a point of a program does next; a point is a place in the text together with the locals.
Every activation runs in an environment `G`, which a callee has from its caller unless it was given one of its own.

* `Eval` is the program in direct style: a call is the evaluation of the callee, and then of what the caller makes of
  the outcome, be it a value or an exception.
* `Stack` is one thread with an explicit stack of callers, moved one instruction at a time; `Sys.step` has any number
  of threads, and any of them may move.

`Sound` is what a move keeps: what the stack evaluates to from here on, the thread's origin evaluates to, behind the
events the thread has had.  So a thread that has ended has evaluated its origin (`sound_of_reachable`, `Sound.ended`).
-/
import NetCpp.Lib.Transition

namespace NetCpp.Lib.CallStack

variable {C V E G A R : Type*}

/-! ## §1 — programs, and what they evaluate to. -/

/-- What a point of a program does next. -/
inductive Instr (C V E G A R : Type*)
  | ret (v : V)
  | throw (e : E)
  /-- an action of plain code, and how the program goes on with its answer -/
  | act (a : A) (k : R → C)
  | call (by_ : Option G) (callee : C) (k : Except E V → C)
  /-- wait for somebody else -/
  | wait (k : Bool → C)
  | spawn (by_ : Option G) (child : C) (k : C)

/-- What can be seen of a thread from outside. -/
inductive Event (C G A R : Type*)
  | did (g : G) (a : A) (r : R)
  | answered (b : Bool)
  | spawned (g : G) (child : C)

/-- The program at `c` in the environment `g` has the events `tr` and the outcome `o`. -/
inductive Eval (code : C → Instr C V E G A R) : G → C → List (Event C G A R) → Except E V → Prop
  | ret {g c v} : code c = .ret v → Eval code g c [] (.ok v)
  | throw {g c e} : code c = .throw e → Eval code g c [] (.error e)
  | act {g c a k tr o} (r : R) : code c = .act a k → Eval code g (k r) tr o →
      Eval code g c (.did g a r :: tr) o
  | call {g c b callee k tr o' tr' o} : code c = .call b callee k → Eval code (b.getD g) callee tr o' →
      Eval code g (k o') tr' o → Eval code g c (tr ++ tr') o
  | wait {g c k tr o} (b : Bool) : code c = .wait k → Eval code g (k b) tr o →
      Eval code g c (.answered b :: tr) o
  | spawn {g c b child k tr o} : code c = .spawn b child k → Eval code g k tr o →
      Eval code g c (.spawned (b.getD g) child :: tr) o

/-! ## §2 — one thread. -/

/-- An activation that waits for the outcome of the one it called. -/
structure Caller (C V E G : Type*) where
  env : G
  k : Except E V → C

/-- Where a thread stands. -/
inductive Stack (C V E G : Type*)
  | running (g : G) (c : C) (callers : List (Caller C V E G))
  | waiting (g : G) (k : Bool → C) (callers : List (Caller C V E G))
  | ended (o : Except E V)

/-- An outcome goes to the innermost caller. -/
def deliver (o : Except E V) : List (Caller C V E G) → Stack C V E G
  | [] => .ended o
  | q :: callers => .running q.env (q.k o) callers

/-- What decides how a thread moves, beside the program. -/
inductive Move (R : Type*)
  | next
  | answer (r : R)
  /-- what a thread waits for is there: it does not wait, or no longer -/
  | there (b : Bool)

/-- One instruction of a thread, with the event that shows. -/
def Stack.move (code : C → Instr C V E G A R) : Stack C V E G → Move R → Option (Stack C V E G × List (Event C G A R))
  | .running g c callers, m =>
    match code c, m with
    | .ret v, .next => some (deliver (.ok v) callers, [])
    | .throw e, .next => some (deliver (.error e) callers, [])
    | .act a k, .answer r => some (.running g (k r) callers, [.did g a r])
    | .call b callee k, .next => some (.running (b.getD g) callee (⟨g, k⟩ :: callers), [])
    | .wait k, .next => some (.waiting g k callers, [])
    | .wait k, .there b => some (.running g (k b) callers, [.answered b])
    | .spawn b child k, .next => some (.running g k callers, [.spawned (b.getD g) child])
    | _, _ => none
  | .waiting g k callers, .there b => some (.running g (k b) callers, [.answered b])
  | _, _ => none

/-- What a stack evaluates to: the innermost activation first, then its callers. -/
def EvalCallers (code : C → Instr C V E G A R) :
    Except E V → List (Caller C V E G) → List (Event C G A R) → Except E V → Prop
  | o', [], tr, o => tr = [] ∧ o = o'
  | o', q :: callers, tr, o => ∃ tr₁ o₁ tr₂, Eval code q.env (q.k o') tr₁ o₁ ∧
      EvalCallers code o₁ callers tr₂ o ∧ tr = tr₁ ++ tr₂

/-- What a thread evaluates to from where it stands. -/
inductive EvalStack (code : C → Instr C V E G A R) : Stack C V E G → List (Event C G A R) → Except E V → Prop
  | running {g c callers tr o' tr' o} : Eval code g c tr o' → EvalCallers code o' callers tr' o →
      EvalStack code (.running g c callers) (tr ++ tr') o
  | waiting {g k callers b tr o' tr' o} : Eval code g (k b) tr o' → EvalCallers code o' callers tr' o →
      EvalStack code (.waiting g k callers) (.answered b :: (tr ++ tr')) o
  | ended {o} : EvalStack code (.ended o) [] o

variable {code : C → Instr C V E G A R}

theorem EvalStack.of_running {g : G} {c : C} {callers : List (Caller C V E G)} {tr : List (Event C G A R)}
    {o : Except E V} (h : EvalStack code (.running g c callers) tr o) :
    ∃ tr₁ o₁ tr₂, Eval code g c tr₁ o₁ ∧ EvalCallers code o₁ callers tr₂ o ∧ tr = tr₁ ++ tr₂ := by
  cases h with
  | running he hc => exact ⟨_, _, _, he, hc, rfl⟩

theorem EvalCallers.of_deliver {o' o : Except E V} {callers : List (Caller C V E G)} {tr : List (Event C G A R)}
    (h : EvalStack code (deliver o' callers) tr o) : EvalCallers code o' callers tr o := by
  cases callers with
  | nil =>
    cases h
    exact ⟨rfl, rfl⟩
  | cons q callers =>
    obtain ⟨tr₁, o₁, tr₂, he, hc, rfl⟩ := h.of_running
    exact ⟨tr₁, o₁, tr₂, he, hc, rfl⟩

/-- **One move, read backwards.** What the stack evaluates to after a move, it evaluated to before, behind the event of
the move. -/
theorem EvalStack.move {st st' : Stack C V E G} {m : Move R} {ev tr : List (Event C G A R)} {o : Except E V}
    (hm : st.move code m = some (st', ev)) (h : EvalStack code st' tr o) : EvalStack code st (ev ++ tr) o := by
  cases st with
  | ended o' => simp [Stack.move] at hm
  | waiting g k callers =>
    cases m with
    | next => simp [Stack.move] at hm
    | answer r => simp [Stack.move] at hm
    | there b =>
      simp only [Stack.move, Option.some.injEq, Prod.mk.injEq] at hm
      obtain ⟨rfl, rfl⟩ := hm
      obtain ⟨tr₁, o₁, tr₂, he, hc, rfl⟩ := h.of_running
      have := EvalStack.waiting he hc
      exact this
  | running g c callers =>
    cases hcode : code c <;> cases m <;> simp only [Stack.move, hcode, reduceCtorEq, Option.some.injEq,
      Prod.mk.injEq] at hm <;> obtain ⟨rfl, rfl⟩ := hm
    case ret.next v => exact .running (.ret hcode) (EvalCallers.of_deliver h)
    case throw.next e => exact .running (.throw hcode) (EvalCallers.of_deliver h)
    case act.answer a k r =>
      obtain ⟨tr₁, o₁, tr₂, he, hc, rfl⟩ := h.of_running
      have := EvalStack.running (.act r hcode he) hc
      exact this
    case call.next b callee k =>
      obtain ⟨tr₁, o₁, tr₂, he, ⟨tr₃, o₃, tr₄, hk, hc, rfl⟩, rfl⟩ := h.of_running
      rw [List.nil_append, ← List.append_assoc]
      exact .running (.call hcode he hk) hc
    case wait.next k =>
      cases h with
      | @waiting _ _ _ b tr₁ _ tr₂ _ he hc =>
        have := EvalStack.running (.wait b hcode he) hc
        exact this
    case wait.there k b =>
      obtain ⟨tr₁, o₁, tr₂, he, hc, rfl⟩ := h.of_running
      have := EvalStack.running (.wait b hcode he) hc
      exact this
    case spawn.next b child k =>
      obtain ⟨tr₁, o₁, tr₂, he, hc, rfl⟩ := h.of_running
      have := EvalStack.running (.spawn hcode he) hc
      exact this

/-! ## §3 — any number of threads. -/

/-- A thread: how it was started, what it has done, and where it stands. -/
structure Thread (C V E G A R : Type*) where
  env : G
  start : C
  /-- nobody waits for the outcome -/
  detached : Bool
  trace : List (Event C G A R)
  now : Stack C V E G

/-- The thread that begins at `c`. -/
def Thread.begin (g : G) (c : C) (detached : Bool) : Thread C V E G A R := ⟨g, c, detached, [], .running g c []⟩

structure Sys (C V E G A R : Type*) where
  threads : Nat → Option (Thread C V E G A R)
  log : List (Nat × Event C G A R)
  /-- the exceptions that have ended detached threads -/
  errors : List E

def Sys.init : Sys C V E G A R := ⟨fun _ => none, [], []⟩

inductive Sys.Act (C G R : Type*)
  | start (i : Nat) (g : G) (c : C) (detached : Bool)
  /-- thread `i` moves; `new` names the thread it may spawn -/
  | move (i : Nat) (m : Move R) (new : Nat)

/-- The exception in an outcome. -/
def errorOf : Except E V → List E
  | .ok _ => []
  | .error e => [e]

/-- The exception a detached thread has died of. -/
def Thread.died (th : Thread C V E G A R) : List E :=
  match th.now with
  | .ended o => if th.detached then errorOf o else []
  | _ => []

/-- The threads that the events of a move start, under the name `new`. -/
def spawned (new : Nat) (a : Sys C V E G A R) : List (Event C G A R) → Option (Sys C V E G A R)
  | [.spawned g c] => if (a.threads new).isNone
      then some { a with threads := Function.update a.threads new (some (.begin g c true)) } else none
  | _ => some a

def Sys.step (code : C → Instr C V E G A R) (a : Sys C V E G A R) : Sys.Act C G R → Option (Sys C V E G A R)
  | .start i g c detached => if (a.threads i).isNone
      then some { a with threads := Function.update a.threads i (some (.begin g c detached)) } else none
  | .move i m new => do
    let th ← a.threads i
    let (now, ev) ← th.now.move code m
    let th : Thread C V E G A R := { th with trace := th.trace ++ ev, now := now }
    spawned new { threads := Function.update a.threads i (some th), log := a.log ++ ev.map (Prod.mk i),
                  errors := a.errors ++ th.died } ev

theorem Sys.step_move {a : Sys C V E G A R} {i : Nat} {th : Thread C V E G A R} (hi : a.threads i = some th)
    {code : C → Instr C V E G A R} {m : Move R} {now : Stack C V E G} {ev : List (Event C G A R)}
    (hm : th.now.move code m = some (now, ev)) (hev : ∀ g c, ev ≠ [.spawned g c]) (new : Nat) :
    a.step code (.move i m new) = some ⟨Function.update a.threads i (some { th with trace := th.trace ++ ev, now := now }),
      a.log ++ ev.map (Prod.mk i), a.errors ++ Thread.died { th with trace := th.trace ++ ev, now := now }⟩ := by
  simp only [Sys.step, hi, hm, Option.bind_eq_bind, Option.bind_some]
  unfold spawned
  split
  · exact absurd rfl (hev _ _)
  · rfl

theorem Sys.step_spawn {a : Sys C V E G A R} {i new : Nat} {th : Thread C V E G A R} (hi : a.threads i = some th)
    {code : C → Instr C V E G A R} {m : Move R} {now : Stack C V E G} {g : G} {c : C}
    (hm : th.now.move code m = some (now, [.spawned g c])) (hnow : ∀ o, now ≠ .ended o) (hni : i ≠ new)
    (hnew : a.threads new = none) :
    a.step code (.move i m new) = some ⟨Function.update (Function.update a.threads new (some (.begin g c true))) i
        (some { th with trace := th.trace ++ [.spawned g c], now := now }),
      a.log ++ [(i, .spawned g c)], a.errors⟩ := by
  have hdied : Thread.died { th with trace := th.trace ++ [.spawned g c], now := now } = [] := by
    cases now with
    | ended o => exact absurd rfl (hnow o)
    | running g c callers => rfl
    | waiting g k callers => rfl
  simp [Sys.step, hi, hm, spawned, hni.symm, hnew, hdied, Function.update_comm hni.symm]

/-- The trace of a thread stands in the log, and what the thread evaluates to from here on its origin evaluates to. -/
structure Sound (code : C → Instr C V E G A R) (log : List (Nat × Event C G A R)) (i : Nat)
    (th : Thread C V E G A R) : Prop where
  logged : th.trace = (log.filter fun x => x.1 = i).map Prod.snd
  eval : ∀ tr o, EvalStack code th.now tr o → Eval code th.env th.start (th.trace ++ tr) o

/-- **A thread that has ended has evaluated its origin**, with just the events it has had. -/
theorem Sound.ended {log : List (Nat × Event C G A R)} {i : Nat} {th : Thread C V E G A R} {o : Except E V}
    (h : Sound code log i th) (hnow : th.now = .ended o) : Eval code th.env th.start th.trace o := by
  simpa using h.eval [] o (hnow ▸ .ended)

theorem Sound.begin {log : List (Nat × Event C G A R)} {i : Nat} (hlog : ∀ x ∈ log, x.1 ≠ i) (g : G) (c : C)
    (detached : Bool) : Sound code log i (.begin g c detached) where
  logged := by
    rw [List.filter_eq_nil_iff.mpr (by simpa using hlog)]
    rfl
  eval tr o h := by
    obtain ⟨tr₁, o₁, tr₂, he, ⟨rfl, rfl⟩, rfl⟩ := EvalStack.of_running h
    simpa [Thread.begin] using he

/-- What every step of a system keeps: every thread is sound, and the log speaks of threads only. -/
structure Sys.Ok (code : C → Instr C V E G A R) (a : Sys C V E G A R) : Prop where
  sound : ∀ i th, a.threads i = some th → Sound code a.log i th
  named : ∀ x ∈ a.log, (a.threads x.1).isSome

theorem Sys.Ok.add {a : Sys C V E G A R} (ha : a.Ok code) {i : Nat} (hi : a.threads i = none) (g : G) (c : C)
    (detached : Bool) :
    Sys.Ok code { a with threads := Function.update a.threads i (some (.begin g c detached)) } where
  sound j th hj := by
    by_cases hji : j = i
    · subst hji
      obtain rfl : Thread.begin g c detached = th := by simpa using hj
      exact .begin (fun x hx he => by simpa [he, hi] using ha.named x hx) g c detached
    · exact ha.sound j th (by simpa [Function.update_of_ne hji] using hj)
  named x hx := by
    by_cases hxi : x.1 = i
    · simp [hxi]
    · simpa [Function.update_of_ne hxi] using ha.named x hx

theorem Sys.Ok.moved {a : Sys C V E G A R} (ha : a.Ok code) {i : Nat} {th : Thread C V E G A R}
    (hi : a.threads i = some th) {m : Move R} {now : Stack C V E G} {ev : List (Event C G A R)}
    (hm : th.now.move code m = some (now, ev)) (errors : List E) :
    Sys.Ok code ⟨Function.update a.threads i (some { th with trace := th.trace ++ ev, now := now }),
      a.log ++ ev.map (Prod.mk i), errors⟩ where
  sound j th' hj := by
    by_cases hji : j = i
    · subst hji
      obtain rfl : { th with trace := th.trace ++ ev, now := now } = th' := by simpa using hj
      refine ⟨?_, fun tr o h => ?_⟩
      · have hev : (ev.map (Prod.mk j)).filter (fun x => decide (x.1 = j)) = ev.map (Prod.mk j) := by
          apply List.filter_eq_self.mpr
          simp
        simp only [List.filter_append, List.map_append, hev, List.map_map, (ha.sound j th hi).logged]
        simp [Function.comp_def]
      · rw [List.append_assoc]
        exact (ha.sound j th hi).eval _ _ (.move hm h)
    · obtain ⟨hlog, heval⟩ := ha.sound j th' (by simpa [Function.update_of_ne hji] using hj)
      refine ⟨?_, heval⟩
      have hev : (ev.map (Prod.mk i)).filter (fun x => decide (x.1 = j)) = [] := by
        apply List.filter_eq_nil_iff.mpr
        simp [Ne.symm hji]
      rw [List.filter_append, hev, List.append_nil, hlog]
  named x hx := by
    by_cases hxi : x.1 = i
    · simp [hxi]
    · have hx : x ∈ a.log := by
        rcases List.mem_append.mp hx with hx | hx
        · exact hx
        · obtain ⟨e, -, rfl⟩ := List.mem_map.mp hx
          exact absurd rfl hxi
      simpa [Function.update_of_ne hxi] using ha.named x hx

theorem Sys.Ok.step {a a' : Sys C V E G A R} {act : Sys.Act C G R} (ha : a.Ok code)
    (h : a.step code act = some a') : a'.Ok code := by
  cases act with
  | start i g c detached =>
    simp only [Sys.step, Option.ite_none_right_eq_some, Option.isNone_iff_eq_none, Option.some.injEq] at h
    obtain ⟨hi, rfl⟩ := h
    exact ha.add hi g c detached
  | move i m new =>
    simp only [Sys.step, Option.bind_eq_bind, Option.bind_eq_some_iff] at h
    obtain ⟨th, hi, ⟨now, ev⟩, hm, h⟩ := h
    have hmoved := ha.moved hi hm (a.errors ++ Thread.died { th with trace := th.trace ++ ev, now := now })
    unfold spawned at h
    split at h
    · simp only [Option.ite_none_right_eq_some, Option.isNone_iff_eq_none, Option.some.injEq] at h
      obtain ⟨hnew, rfl⟩ := h
      exact hmoved.add hnew _ _ _
    · simp only [Option.some.injEq] at h
      subst h
      exact hmoved

/-- **Every run of every system keeps the threads sound.** -/
theorem sound_of_reachable {a : Sys C V E G A R} (h : Reachable (Sys.step code) .init a) : a.Ok code :=
  h.invariant (fun _ _ _ ha _ hs => ha.step hs) ⟨by simp [Sys.init], by simp [Sys.init]⟩

end NetCpp.Lib.CallStack
