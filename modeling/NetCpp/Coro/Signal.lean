/-
# NetCpp.Coro.Signal — `MPSCSignal` as an interleaving of its atomic steps.

The atomic tier of `include/xsl/coro/signal/core.h`.  One shared word `_state`, one pair of plain
fields `{_resume, _handle}`, any number `n` of threads that call `release()` / `stop()`, and one
consumer coroutine that performs successive awaits.  Every atomic load, store, exchange and
compare-exchange of `_state`, every copy of the continuation fields and every `fn(h)` is ONE step.

## What `fn(h)` does

`fn(h)` is `h.promise().resume(h)`, which hands the coroutine to its executor; from then on the
coroutine body runs, on whatever thread, WHETHER OR NOT the `await_suspend` call that registered it
has returned — the source says so itself at the publication point.  So the consumer is not one program
counter but a list of ACTIVATIONS (threads of control inside the coroutine):

* an activation that suspends stays in the list as `parked`,
* `fn(h)` turns the parked activation of that await into `resumeLoad`,
* `fn(h)` on an await whose `await_suspend` is still between its two exchanges starts a NEW activation
  at `resumeLoad` and leaves the old call behind as `outrun`; when that call's second exchange comes,
  it either ends (returned `true`) or runs the same resumption once more (returned `false`).

Initially there is exactly one activation, in the coroutine's body.

## History variables

`awaits`, `releases`, `completed`, `finished`, `stopRet` and the stamps inside program counters record
what happened; no step reads them to decide anything.
-/
import NetCpp.Lib.Transition

namespace NetCpp.Coro.MPSCSignal

open NetCpp.Lib

/-! ## §1 — the word, the program counters, the state. -/

/-- The values of `_state`. -/
inductive Word
  | idle | signaled | stopped | waiting
  deriving DecidableEq, Repr

/-- One await: its number, and whether it began after some `stop()` had returned. -/
structure Await where
  id : Nat
  late : Bool
  deriving DecidableEq, Repr

/-- Where a thread is inside `release()` or `stop()`.  `since` is the number of awaits begun when the
`release()` was called; `k` is the continuation copied to the thread's stack. -/
inductive Prod
  | idle
  | relExchange (since : Nat)
  | relRestore (since : Nat)
  | relCopy (since : Nat)
  | relStore (since : Nat) (k : Await)
  | relInvoke (since : Nat) (k : Await)
  | stopExchange
  | stopCopy
  | stopInvoke (k : Await)
  deriving DecidableEq, Repr

/-- Where an activation of the coroutine is. -/
inductive Act
  | body
  | readyLoad (k : Await)
  | readyCas (k : Await)
  | readyLoad2 (k : Await)
  | suspendWrite (k : Await)
  | suspendExchange (k : Await)
  | suspendRetract (k : Await) (old : Word)
  | parked (k : Await)
  | outrun (k : Await) (old : Word)
  | resumeLoad (k : Await)
  deriving DecidableEq, Repr

structure State (n : Nat) where
  /-- `_state` -/
  word : Word
  /-- `{_resume, _handle}`: the await that wrote the pair last, `none` for `nullptr` -/
  cont : Option Await
  prod : Fin n → Prod
  acts : List Act
  /-- awaits begun -/
  awaits : Nat
  /-- `release()` calls made -/
  releases : Nat
  /-- awaits completed, with the value `await_resume` returned -/
  completed : List (Await × Bool)
  /-- the `since` stamps of the `release()` calls that returned -/
  finished : List Nat
  /-- some `stop()` has returned -/
  stopRet : Bool

/-- A fresh signal, all threads outside, the coroutine in its body. -/
def init (n : Nat) : State n where
  word := .idle
  cont := none
  prod := fun _ => .idle
  acts := [.body]
  awaits := 0
  releases := 0
  completed := []
  finished := []
  stopRet := false

/-! ## §2 — the steps. -/

variable {n : Nat}

/-- Move thread `t` to `p`. -/
def State.goto (s : State n) (t : Fin n) (p : Prod) : State n :=
  { s with prod := Function.update s.prod t p }

/-- `fn(h)` for the continuation of await `k`. -/
def invoke (k : Await) : List Act → List Act
  | [] => [.resumeLoad k]
  | .parked j :: as => if j = k then .resumeLoad k :: as else .parked j :: invoke k as
  | .suspendRetract j old :: as =>
      if j = k then .outrun k old :: .resumeLoad k :: as else .suspendRetract j old :: invoke k as
  | a :: as => a :: invoke k as

/-- The next atomic step of a thread inside `release()` or `stop()`. -/
def prodStep (s : State n) (t : Fin n) : Option (State n) :=
  match s.prod t with
  | .idle => none
  -- release(): exchange SIGNALED, then decide on the old value
  | .relExchange b =>
      match s.word with
      | .idle | .signaled =>
          some { (s.goto t .idle) with word := .signaled, finished := b :: s.finished }
      | .stopped => some { (s.goto t (.relRestore b)) with word := .signaled }
      | .waiting => some { (s.goto t (.relCopy b)) with word := .signaled }
  | .relRestore b => some { (s.goto t .idle) with word := .stopped, finished := b :: s.finished }
  | .relCopy b =>
      match s.cont with
      | some k => some (s.goto t (.relStore b k))
      | none => none
  | .relStore b k => some { (s.goto t (.relInvoke b k)) with word := .idle }
  | .relInvoke b k =>
      some { (s.goto t .idle) with acts := invoke k s.acts, finished := b :: s.finished }
  -- stop(): exchange STOPPED; only an old WAITING leads on
  | .stopExchange =>
      match s.word with
      | .waiting => some { (s.goto t .stopCopy) with word := .stopped }
      | _ => some { (s.goto t .idle) with word := .stopped, stopRet := true }
  | .stopCopy =>
      match s.cont with
      | some k => some (s.goto t (.stopInvoke k))
      | none => none
  | .stopInvoke k => some { (s.goto t .idle) with acts := invoke k s.acts, stopRet := true }

/-- `old == STOPPED ? STOPPED : IDLE`, what `await_suspend` puts back. -/
def Word.retract : Word → Word
  | .stopped => .stopped
  | _ => .idle

/-- The next atomic step of an activation: the new state and what becomes of the activation. -/
def actStep (s : State n) : Act → Option (State n × List Act)
  | .body => some ({ s with awaits := s.awaits + 1 }, [.readyLoad ⟨s.awaits, s.stopRet⟩])
  -- await_ready(): a SIGNALED word is consumed; the CAS result is ignored
  | .readyLoad k =>
      some (s, [if s.word = .signaled then .readyCas k else .readyLoad2 k])
  | .readyCas k =>
      some (if s.word = .signaled then { s with word := .idle } else s, [.resumeLoad k])
  | .readyLoad2 k =>
      some (s, [if s.word = .stopped then .resumeLoad k else .suspendWrite k])
  -- await_suspend(): write the pair, publish it, and retract when something had arrived
  | .suspendWrite k => some ({ s with cont := some k }, [.suspendExchange k])
  | .suspendExchange k =>
      some ({ s with word := .waiting },
        [if s.word = .idle then .parked k else .suspendRetract k s.word])
  | .suspendRetract k old =>
      some ({ s with word := old.retract },
        [if s.word = .waiting then .resumeLoad k else .parked k])
  | .parked _ => none
  | .outrun k old =>
      some ({ s with word := old.retract },
        if s.word = .waiting then [.resumeLoad k] else [])
  -- await_resume()
  | .resumeLoad k =>
      some ({ s with completed := (k, decide (s.word ≠ .stopped)) :: s.completed }, [.body])

/-- The actions a schedule is made of. -/
inductive Action (n : Nat)
  | callRelease (t : Fin n)
  | callStop (t : Fin n)
  | prod (t : Fin n)
  | act (i : Nat)
  deriving DecidableEq

def step (s : State n) : Action n → Option (State n)
  | .callRelease t =>
      if s.prod t = .idle then
        some { (s.goto t (.relExchange s.awaits)) with releases := s.releases + 1 }
      else none
  | .callStop t => if s.prod t = .idle then some (s.goto t .stopExchange) else none
  | .prod t => prodStep s t
  | .act i =>
      match s.acts[i]? with
      | none => none
      | some a =>
          (actStep s a).map fun r => { r.1 with acts := s.acts.take i ++ r.2 ++ s.acts.drop (i + 1) }

/-! ## §3 — who owns the continuation.

A thread HOLDS the continuation from the exchange that took `WAITING` away to its `fn(h)`.  The await
that has its continuation registered (or taken) is the SLOT of its activation. -/

/-- Inside `release()` or `stop()` after taking `WAITING`, before `fn(h)` is done. -/
def Prod.holds : Prod → Bool
  | .relCopy _ | .relStore _ _ | .relInvoke _ _ | .stopCopy | .stopInvoke _ => true
  | _ => false

/-- The continuation a thread has on its stack. -/
def Prod.copied : Prod → Option Await
  | .relStore _ k | .relInvoke _ k | .stopInvoke k => some k
  | _ => none

/-- The continuation a thread's next step invokes. -/
def Prod.invokes : Prod → Option Await
  | .relInvoke _ k | .stopInvoke k => some k
  | _ => none

/-- The await an activation has published and not been resumed from. -/
def Act.slot : Act → Option Await
  | .suspendRetract k _ | .parked k => some k
  | _ => none

/-- The await an activation is performing. -/
def Act.await : Act → Option Await
  | .body => none
  | .readyLoad k | .readyCas k | .readyLoad2 k | .suspendWrite k | .suspendExchange k
  | .suspendRetract k _ | .parked k | .outrun k _ | .resumeLoad k => some k

/-- No release(), stop() or await step is in progress. -/
def Quiescent (s : State n) : Prop :=
  (∀ t, s.prod t = .idle) ∧ ∀ a ∈ s.acts, a = .body ∨ ∃ k, a = .parked k

/-- The await whose registration an activation's next step retracts. -/
def Act.retracting : Act → Option Await
  | .suspendRetract k _ => some k
  | _ => none

/-- The thread's next step is the `store(STOPPED)` of a `release()` that had taken STOPPED away. -/
def Prod.restores : Prod → Bool
  | .relRestore _ => true
  | _ => false

/-- **The registration is not outrun.** The step is not a `fn(h)` taken while the `await_suspend` call
that registered `h` still has its second exchange to do. -/
def NotOutrun (s : State n) : Action n → Prop
  | .prod t => (s.prod t).invokes ≠ none → ∀ a ∈ s.acts, a.retracting ≠ (s.prod t).invokes
  | _ => True

/-- The step is not a `release()` that puts STOPPED back over a registration. -/
def KeepsWaiting (s : State n) : Action n → Prop
  | .prod t => (s.prod t).restores = true → s.word ≠ .waiting
  | _ => True

instance (s : State n) (act : Action n) : Decidable (NotOutrun s act) :=
  match act with
  | .prod _ => inferInstanceAs (Decidable (_ → ∀ a ∈ s.acts, _))
  | .callRelease _ | .callStop _ | .act _ => inferInstanceAs (Decidable True)

instance (s : State n) (act : Action n) : Decidable (KeepsWaiting s act) :=
  match act with
  | .prod t => inferInstanceAs (Decidable ((s.prod t).restores = true → _))
  | .callRelease _ | .callStop _ | .act _ => inferInstanceAs (Decidable True)

/-- No `stop()` is called. -/
def NoStop (_ : State n) (act : Action n) : Prop := ∀ t, act ≠ .callStop t

instance (s : State n) (act : Action n) : Decidable (NoStop s act) :=
  match act with
  | .callStop t => .isFalse fun h => h t rfl
  | .callRelease _ | .prod _ | .act _ => .isTrue fun _ h => by cases h

/-- **Exclusive ownership.** One activation; at most one thread holds the continuation, and it holds
the one that activation published; a published continuation is in the word or in a thread's hands. -/
structure Owned (s : State n) (a : Act) : Prop where
  acts : s.acts = [a]
  live : ∀ k old, a ≠ .outrun k old
  unique : OnlyOne (fun p : Prod => p.holds = true) s.prod
  holder : ∀ t, (s.prod t).holds = true → s.word ≠ .waiting ∧ ∃ k, a.slot = some k
  copied : ∀ t k, (s.prod t).copied = some k → a.slot = some k
  slot : ∀ k, a.slot = some k →
    s.cont = some k ∧ (s.word = .waiting ∨ ∃ t, (s.prod t).holds = true)
  published : ∀ k, a = .suspendExchange k → s.cont = some k
  waiting : s.word = .waiting → ∃ k, a.slot = some k

/-! ## §4 — ownership is kept.

Every step of a thread is one of four moves: outside the holding region, taking `WAITING`, inside the
holding region, or the final `fn(h)`.  Every step of the activation either runs with nobody holding
anything, publishes, or retracts. -/

variable {s s' : State n} {a a' : Act} {t : Fin n} {p : Prod} {w : Word} {k : Await}

/-- What ownership sees of a thread's step: thread `t` goes to `p`, the word becomes `w`. -/
structure Moves (s s' : State n) (t : Fin n) (p : Prod) (w : Word) : Prop where
  here : s'.prod t = p
  there : ∀ i, i ≠ t → s'.prod i = s.prod i
  word : s'.word = w
  cont : s'.cont = s.cont

theorem moves_of (hprod : s'.prod = Function.update s.prod t p) (hw : s'.word = w)
    (hc : s'.cont = s.cont) : Moves s s' t p w where
  here := by rw [hprod]; simp
  there i hi := by rw [hprod]; simp [hi]
  word := hw
  cont := hc

theorem holds_of_copied (h : p.copied = some k) : p.holds = true := by
  cases p <;> simp_all [Prod.copied, Prod.holds]

theorem holds_of_invokes (h : p.invokes = some k) : p.holds = true ∧ p.copied = some k := by
  cases p <;> simp_all [Prod.copied, Prod.holds, Prod.invokes]

theorem Owned.same_act (h : Owned s a) (h' : Owned s' a') (he : s'.acts = s.acts) : a' = a := by
  have := h'.acts.symm.trans (he.trans h.acts)
  simpa using this

/-- With nothing published, nobody holds anything and the word is not WAITING. -/
theorem Owned.free (h : Owned s a) (ha : a.slot = none) :
    (∀ t, (s.prod t).holds = false) ∧ s.word ≠ .waiting := by
  refine ⟨fun t => ?_, fun hw => ?_⟩
  · by_contra hh
    obtain ⟨k, hk⟩ := (h.holder t (by simpa using hh)).2
    rw [ha] at hk; cases hk
  · obtain ⟨k, hk⟩ := h.waiting hw
    rw [ha] at hk; cases hk

/-- A thread moves outside the holding region; it does not overwrite a registration. -/
theorem Owned.outside (h : Owned s a) (m : Moves s s' t p w) (ha : s'.acts = s.acts)
    (hp : (s.prod t).holds = false) (hp' : p.holds = false)
    (hw : w = s.word ∨ (s.word ≠ .waiting ∧ w ≠ .waiting)) : Owned s' a := by
  obtain ⟨h1, h2, h3, h4, h5, h6, h7, h8⟩ := h
  obtain ⟨mt, mo, m2, m3⟩ := m
  constructor
  · rw [ha, h1]
  · exact h2
  · intro i j hi hj
    have := h3 i j
    grind
  · grind
  · grind [holds_of_copied]
  · intro j hj
    have := h6 j hj
    grind
  · grind
  · grind

/-- The exchange that takes WAITING away makes its thread the only holder. -/
theorem Owned.take (h : Owned s a) (m : Moves s s' t p w) (ha : s'.acts = s.acts)
    (hwait : s.word = .waiting) (hp : p.holds = true) (hc : p.copied = none)
    (hw : w ≠ .waiting) : Owned s' a := by
  obtain ⟨h1, h2, h3, h4, h5, h6, h7, h8⟩ := h
  obtain ⟨mt, mo, m2, m3⟩ := m
  have hnone : ∀ i, (s.prod i).holds = false := by grind
  constructor
  · rw [ha, h1]
  · exact h2
  · intro i j hi hj
    grind
  · grind
  · grind [holds_of_copied]
  · intro j hj
    have := h6 j hj
    exact ⟨m3.trans this.1, .inr ⟨t, by rw [mt]; exact hp⟩⟩
  · grind
  · grind

/-- The holder moves on towards its `fn(h)`; what it copies is what is registered. -/
theorem Owned.inside (h : Owned s a) (m : Moves s s' t p w) (ha : s'.acts = s.acts)
    (hp : (s.prod t).holds = true) (hp' : p.holds = true)
    (hc : ∀ k, p.copied = some k → s.cont = some k ∨ (s.prod t).copied = some k)
    (hw : w ≠ .waiting) : Owned s' a := by
  obtain ⟨h1, h2, h3, h4, h5, h6, h7, h8⟩ := h
  obtain ⟨mt, mo, m2, m3⟩ := m
  obtain ⟨j, hj⟩ := (h4 t hp).2
  have hcj := (h6 j hj).1
  constructor
  · rw [ha, h1]
  · exact h2
  · intro i i' hi hi'
    have := h3 i t
    have := h3 i' t
    grind
  · grind
  · intro i k hi
    by_cases hit : i = t
    · subst hit
      rcases hc k (mt ▸ hi) with hck | hck
      · rw [hj, ← hcj, hck]
      · exact h5 i k hck
    · exact h5 i k (mo i hit ▸ hi)
  · intro j hj
    exact ⟨m3.trans (h6 j hj).1, .inr ⟨t, by rw [mt]; exact hp'⟩⟩
  · grind
  · grind

/-- A continuation about to be invoked, its registration not outrun, is that of a parked activation. -/
theorem Owned.parked_of_invokes (h : Owned s a) (hp : (s.prod t).invokes = some k)
    (hg : NotOutrun s (.prod t)) : a = .parked k := by
  have hret : a.retracting ≠ some k := by
    simp only [NotOutrun, hp, h.acts] at hg
    exact hg (by simp) a (by simp)
  have hslot := h.copied t k (holds_of_invokes hp).2
  cases a <;> simp_all [Act.slot, Act.retracting]

/-- The holder's `fn(h)` resumes the parked activation and nobody holds anything any more. -/
theorem Owned.invoked (h : Owned s (.parked k)) (hp : (s.prod t).invokes = some k)
    (m : Moves s s' t .idle s.word) (ha : s'.acts = invoke k s.acts) :
    Owned s' (.resumeLoad k) := by
  obtain ⟨h1, h2, h3, h4, h5, h6, h7, h8⟩ := h
  obtain ⟨mt, mo, m2, m3⟩ := m
  obtain ⟨hh, hcp⟩ := holds_of_invokes hp
  have hothers : ∀ i, (s'.prod i).holds = false := by
    intro i
    by_cases hit : i = t
    · subst hit; rw [mt]; rfl
    · rw [mo i hit]
      by_contra hi
      exact hit (h3 i t (by simpa using hi) hh)
  refine ⟨?_, by simp, ?_, ?_, ?_, by simp [Act.slot], by simp, ?_⟩
  · rw [ha, h1]; simp [invoke]
  · intro i j hi; rw [hothers i] at hi; cases hi
  · intro i hi; rw [hothers i] at hi; cases hi
  · intro i j hi
    have := holds_of_copied hi
    rw [hothers i] at this; cases this
  · intro hw
    rw [m2] at hw
    exact absurd hw (h4 t hh).1

/-- The activation runs with nothing published before or after. -/
theorem Owned.running (h : Owned s a) (ha : a.slot = none) (ha' : a'.slot = none)
    (hlive : ∀ k old, a' ≠ .outrun k old) (hacts : s'.acts = [a']) (hprod : s'.prod = s.prod)
    (hw : s'.word ≠ .waiting) (hpub : ∀ k, a' = .suspendExchange k → s'.cont = some k) :
    Owned s' a' := by
  obtain ⟨hfree, -⟩ := h.free ha
  refine ⟨hacts, hlive, ?_, ?_, ?_, ?_, hpub, fun hw' => absurd hw' hw⟩
  · intro i j hi; rw [hprod, hfree i] at hi; cases hi
  · intro i hi; rw [hprod, hfree i] at hi; cases hi
  · intro i j hi
    have := holds_of_copied hi
    rw [hprod, hfree i] at this; cases this
  · intro j hj; rw [ha'] at hj; cases hj

/-- The first exchange of `await_suspend` publishes the pair written just before. -/
theorem Owned.publish (h : Owned s (.suspendExchange k)) (ha' : a'.slot = some k)
    (hlive : ∀ k old, a' ≠ .outrun k old) (hne : ∀ k, a' ≠ .suspendExchange k)
    (hacts : s'.acts = [a']) (hprod : s'.prod = s.prod) (hc : s'.cont = s.cont)
    (hw : s'.word = .waiting) : Owned s' a' := by
  obtain ⟨hfree, -⟩ := h.free rfl
  refine ⟨hacts, hlive, ?_, ?_, ?_, ?_, fun j hj => absurd hj (hne j), fun _ => ⟨k, ha'⟩⟩
  · intro i j hi; rw [hprod, hfree i] at hi; cases hi
  · intro i hi; rw [hprod, hfree i] at hi; cases hi
  · intro i j hi
    have := holds_of_copied hi
    rw [hprod, hfree i] at this; cases this
  · intro j hj
    obtain rfl : k = j := by simpa [ha'] using hj
    exact ⟨hc.trans (h.published k rfl), .inl hw⟩

/-- The second exchange finds the registration gone: a thread holds it, the activation parks. -/
theorem Owned.parks {old : Word} (h : Owned s (.suspendRetract k old)) (hgot : s.word ≠ .waiting)
    (hacts : s'.acts = [.parked k]) (hprod : s'.prod = s.prod) (hc : s'.cont = s.cont)
    (hw : s'.word ≠ .waiting) : Owned s' (.parked k) := by
  obtain ⟨h1, h2, h3, h4, h5, h6, h7, h8⟩ := h
  have hslot := h6 k rfl
  refine ⟨hacts, by simp, by rw [hprod]; exact h3, ?_, ?_, ?_, by simp, fun hw' => absurd hw' hw⟩
  · intro i hi
    exact ⟨hw, k, rfl⟩
  · intro i j hi
    have := h5 i j (hprod ▸ hi)
    exact this
  · intro j hj
    obtain rfl : k = j := by simpa [Act.slot] using hj
    rw [hc, hprod]
    exact ⟨hslot.1, .inr (hslot.2.resolve_left hgot)⟩

/-- The second exchange takes the registration back: nobody holds it, the await completes. -/
theorem Owned.retracts {old : Word} (h : Owned s (.suspendRetract k old)) (hgot : s.word = .waiting)
    (hacts : s'.acts = [.resumeLoad k]) (hprod : s'.prod = s.prod)
    (hw : s'.word ≠ .waiting) : Owned s' (.resumeLoad k) := by
  have hnone : ∀ i, (s'.prod i).holds = false := by
    intro i
    by_contra hi
    rw [hprod] at hi
    exact (h.holder i (by simpa using hi)).1 hgot
  refine ⟨hacts, by simp, ?_, ?_, ?_, by simp [Act.slot], by simp, fun hw' => absurd hw' hw⟩
  · intro i j hi; rw [hnone i] at hi; cases hi
  · intro i hi; rw [hnone i] at hi; cases hi
  · intro i j hi
    have := holds_of_copied hi
    rw [hnone i] at this; cases this

/-- With a single activation, an activation step is that activation's step. -/
theorem act_step {i : Nat} (h : s.acts = [a]) (hs : step s (.act i) = some s') :
    ∃ r, actStep s a = some r ∧ s' = { r.1 with acts := r.2 } := by
  cases i with
  | zero =>
      simp only [step, h, List.getElem?_cons_zero, Option.map_eq_some_iff] at hs
      obtain ⟨r, hr, rfl⟩ := hs
      exact ⟨r, hr, by simp⟩
  | succ i => simp [step, h] at hs

theorem word_retract_ne (w : Word) : w.retract ≠ .waiting := by
  cases w <;> simp [Word.retract]

/-- Whoever has taken a registration finds the continuation in its place. -/
theorem Owned.cont_of_holds (h : Owned s a) (ht : (s.prod t).holds = true) : ∃ k, s.cont = some k := by
  obtain ⟨k, hk⟩ := (h.holder t ht).2
  exact ⟨k, (h.slot k hk).1⟩

theorem Owned.prodStep (h : Owned s a) (hg : NotOutrun s (.prod t))
    (hk : KeepsWaiting s (.prod t)) (hs : prodStep s t = some s') : ∃ a', Owned s' a' := by
  cases hp : s.prod t with
  | idle => simp [MPSCSignal.prodStep, hp] at hs
  | relExchange b =>
      cases hw : s.word <;> simp only [MPSCSignal.prodStep, hp, hw, Option.some.injEq] at hs <;> subst hs
      · exact ⟨a, h.outside (moves_of rfl rfl rfl) rfl (by rw [hp]; rfl) rfl (.inr (by simp [hw]))⟩
      · exact ⟨a, h.outside (moves_of rfl rfl rfl) rfl (by rw [hp]; rfl) rfl (.inr (by simp [hw]))⟩
      · exact ⟨a, h.outside (moves_of rfl rfl rfl) rfl (by rw [hp]; rfl) rfl (.inr (by simp [hw]))⟩
      · exact ⟨a, h.take (moves_of rfl rfl rfl) rfl hw rfl rfl (by simp)⟩
  | relRestore b =>
      simp only [MPSCSignal.prodStep, hp, Option.some.injEq] at hs
      subst hs
      exact ⟨a, h.outside (moves_of rfl rfl rfl) rfl (by rw [hp]; rfl) rfl
        (.inr ⟨hk (by rw [hp]; rfl), by simp⟩)⟩
  | relCopy b =>
      obtain ⟨k, hc⟩ := h.cont_of_holds (show (s.prod t).holds = true by rw [hp]; rfl)
      simp only [MPSCSignal.prodStep, hp, hc, Option.some.injEq] at hs
      subst hs
      exact ⟨a, h.inside (moves_of rfl rfl rfl) rfl (by rw [hp]; rfl) rfl
        (fun j hj => .inl (by rw [hc]; exact hj)) (h.holder t (by rw [hp]; rfl)).1⟩
  | relStore b k =>
      simp only [MPSCSignal.prodStep, hp, Option.some.injEq] at hs
      subst hs
      exact ⟨a, h.inside (moves_of rfl rfl rfl) rfl (by rw [hp]; rfl) rfl
        (fun j hj => .inr (by rw [hp]; exact hj)) (by simp)⟩
  | relInvoke b k =>
      simp only [MPSCSignal.prodStep, hp, Option.some.injEq] at hs
      subst hs
      have hinv : (s.prod t).invokes = some k := by rw [hp]; rfl
      obtain rfl := h.parked_of_invokes hinv hg
      exact ⟨_, h.invoked hinv (moves_of rfl rfl rfl) rfl⟩
  | stopExchange =>
      cases hw : s.word <;> simp only [MPSCSignal.prodStep, hp, hw, Option.some.injEq] at hs <;> subst hs
      · exact ⟨a, h.outside (moves_of rfl rfl rfl) rfl (by rw [hp]; rfl) rfl (.inr (by simp [hw]))⟩
      · exact ⟨a, h.outside (moves_of rfl rfl rfl) rfl (by rw [hp]; rfl) rfl (.inr (by simp [hw]))⟩
      · exact ⟨a, h.outside (moves_of rfl rfl rfl) rfl (by rw [hp]; rfl) rfl (.inr (by simp [hw]))⟩
      · exact ⟨a, h.take (moves_of rfl rfl rfl) rfl hw rfl rfl (by simp)⟩
  | stopCopy =>
      obtain ⟨k, hc⟩ := h.cont_of_holds (show (s.prod t).holds = true by rw [hp]; rfl)
      simp only [MPSCSignal.prodStep, hp, hc, Option.some.injEq] at hs
      subst hs
      exact ⟨a, h.inside (moves_of rfl rfl rfl) rfl (by rw [hp]; rfl) rfl
        (fun j hj => .inl (by rw [hc]; exact hj)) (h.holder t (by rw [hp]; rfl)).1⟩
  | stopInvoke k =>
      simp only [MPSCSignal.prodStep, hp, Option.some.injEq] at hs
      subst hs
      have hinv : (s.prod t).invokes = some k := by rw [hp]; rfl
      obtain rfl := h.parked_of_invokes hinv hg
      exact ⟨_, h.invoked hinv (moves_of rfl rfl rfl) rfl⟩

theorem Owned.actStep {i : Nat} (h : Owned s a) (hs : step s (.act i) = some s') :
    ∃ a', Owned s' a' := by
  obtain ⟨r, hr, rfl⟩ := act_step h.acts hs
  have hfree := h.free
  cases a with
  | body =>
      obtain rfl : _ = r := by simpa [MPSCSignal.actStep] using hr
      exact ⟨_, h.running rfl rfl (by simp) rfl rfl (hfree rfl).2 (by simp)⟩
  | readyLoad k =>
      obtain rfl : _ = r := by simpa [MPSCSignal.actStep] using hr
      refine ⟨_, h.running rfl ?_ ?_ rfl rfl (hfree rfl).2 ?_⟩ <;> split <;> simp [Act.slot]
  | readyCas k =>
      obtain rfl : _ = r := by simpa [MPSCSignal.actStep] using hr
      refine ⟨_, h.running rfl rfl (by simp) rfl ?_ ?_ (by simp)⟩
      · dsimp only; split <;> rfl
      · dsimp only; split
        · simp
        · exact (hfree rfl).2
  | readyLoad2 k =>
      obtain rfl : _ = r := by simpa [MPSCSignal.actStep] using hr
      refine ⟨_, h.running rfl ?_ ?_ rfl rfl (hfree rfl).2 ?_⟩ <;> split <;> simp [Act.slot]
  | suspendWrite k =>
      obtain rfl : _ = r := by simpa [MPSCSignal.actStep] using hr
      exact ⟨_, h.running rfl rfl (by simp) rfl rfl (hfree rfl).2 (by simp)⟩
  | suspendExchange k =>
      obtain rfl : _ = r := by simpa [MPSCSignal.actStep] using hr
      refine ⟨_, h.publish ?_ ?_ ?_ rfl rfl rfl rfl⟩ <;> split <;> simp [Act.slot]
  | suspendRetract k old =>
      obtain rfl : _ = r := by simpa [MPSCSignal.actStep] using hr
      by_cases hgot : s.word = .waiting
      · exact ⟨_, h.retracts hgot (by simp [hgot]) rfl (word_retract_ne old)⟩
      · exact ⟨_, h.parks hgot (by simp [hgot]) rfl rfl (word_retract_ne old)⟩
  | parked k => simp [MPSCSignal.actStep] at hr
  | outrun k old => exact absurd rfl (h.live k old)
  | resumeLoad k =>
      obtain rfl : _ = r := by simpa [MPSCSignal.actStep] using hr
      exact ⟨_, h.running rfl rfl (by simp) rfl rfl (hfree rfl).2 (by simp)⟩

/-- **Ownership is kept by every step** that neither outruns a registration nor writes over one. -/
theorem Owned.step {act : Action n} (h : Owned s a) (hg : NotOutrun s act) (hk : KeepsWaiting s act)
    (hs : step s act = some s') : ∃ a', Owned s' a' := by
  cases act with
  | callRelease t =>
      simp only [MPSCSignal.step] at hs
      split at hs
      · rename_i hp
        injection hs with hs; subst hs
        exact ⟨a, h.outside (moves_of rfl rfl rfl) rfl (by rw [hp]; rfl) rfl (.inl rfl)⟩
      · cases hs
  | callStop t =>
      simp only [MPSCSignal.step] at hs
      split at hs
      · rename_i hp
        injection hs with hs; subst hs
        exact ⟨a, h.outside (moves_of rfl rfl rfl) rfl (by rw [hp]; rfl) rfl (.inl rfl)⟩
      · cases hs
  | prod t => exact h.prodStep hg hk hs
  | act i => exact h.actStep hs

theorem owned_init : Owned (init n) .body where
  acts := rfl
  live := by simp
  unique := by intro i j hi; cases hi
  holder := by intro i hi; cases hi
  copied := by intro i k hi; cases hi
  slot := by intro k hk; cases hk
  published := by simp
  waiting := by intro hw; cases hw

end NetCpp.Coro.MPSCSignal
