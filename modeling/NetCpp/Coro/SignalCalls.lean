/-
# NetCpp.Coro.SignalCalls — `MPSCSignal` by whole calls.

When no two calls on a signal overlap, the atomic steps of `NetCpp.Coro.Signal` come to four moves on the word and on
where the coroutine is: `release()`, `stop()`, a `co_await` up to its suspension or return, and an `await_resume()`.
`Whole` is the signal between calls and `Whole.step` these moves.

`Alone` says of a schedule that calls do not overlap: one begins only where nothing is under way.  Both directions are
shown: a state at rest that such a schedule reaches is one that whole calls reach (`whole_of_alone`), and every whole
call is what its atomic steps come to when they run alone (`Call.runs_alone`).  Models that take calls as steps
(`NetCpp.Io.Device`) stand on these two; what overlapping calls do is in `NetCpp.Coro.SignalStop`,
`NetCpp.Coro.SignalWake` and `NetCpp.Coro.AwaiterWrapper`.
-/
import NetCpp.Coro.Signal

namespace NetCpp.Coro.MPSCSignal

open NetCpp.Lib

/-! ## §1 — the moves. -/

/-- `release()`: a suspended consumer is resumed. -/
def Word.release : Word → Word
  | .idle | .signaled => .signaled
  | .stopped => .stopped
  | .waiting => .idle

/-- `co_await` of the signal: ready when signaled or stopped, else the coroutine is suspended. -/
def Word.await : Word → Word
  | .idle => .waiting
  | .signaled => .idle
  | .stopped => .stopped
  | .waiting => .waiting

/-- Where the coroutine is between calls. -/
inductive Rest
  | body
  | suspended
  | resumed
  deriving DecidableEq, Repr

/-- The signal between calls. -/
structure Whole where
  word : Word
  rest : Rest
  deriving DecidableEq, Repr

inductive Call
  | release
  | stop
  | await
  | resume
  deriving DecidableEq, Repr

namespace Whole

def init : Whole := ⟨.idle, .body⟩

def release (v : Whole) : Whole := ⟨v.word.release, if v.word = .waiting then .resumed else v.rest⟩

def stop (v : Whole) : Whole := ⟨.stopped, if v.word = .waiting then .resumed else v.rest⟩

def await (v : Whole) : Whole := ⟨v.word.await, if v.word = .idle then .suspended else .resumed⟩

def step (v : Whole) : Call → Option Whole
  | .release => some v.release
  | .stop => some v.stop
  | .await => if v.rest = .body then some v.await else none
  | .resume => if v.rest = .resumed then some { v with rest := .body } else none

end Whole

/-! ## §2 — one call at a time. -/

variable {n : Nat}

/-- Where an activation is between calls. -/
def Act.rest : Act → Option Rest
  | .body => some .body
  | .parked _ => some .suspended
  | .resumeLoad _ => some .resumed
  | _ => none

/-- No call is under way. -/
def Resting (s : State n) : Prop := (∀ t, s.prod t = .idle) ∧ ∀ a ∈ s.acts, a.rest ≠ none

/-- The call an action begins. -/
def begins (s : State n) : Action n → Option Call
  | .callRelease _ => some .release
  | .callStop _ => some .stop
  | .prod _ => none
  | .act i =>
      match s.acts[i]? with
      | some .body => some .await
      | some (.resumeLoad _) => some .resume
      | _ => none

/-- **Calls do not overlap.** -/
def Alone (s : State n) (act : Action n) : Prop := begins s act ≠ none → Resting s

/-- The signal is at rest, as `v` says. -/
structure AtRest (s : State n) (v : Whole) : Prop where
  idle : ∀ t, s.prod t = .idle
  word : s.word = v.word
  act : ∃ a, s.acts = [a] ∧ a.rest = some v.rest

/-! ## §3 — the call under way. -/

/-- What is known of the word `w` and of the pair `c` while an activation is at its counter and no thread is in a call. -/
def Act.Fits (w : Word) (c : Option Await) : Act → Prop
  | .body | .resumeLoad _ | .readyLoad _ => w ≠ .waiting
  | .parked k => w = .waiting ∧ c = some k
  | .readyCas _ => w = .signaled
  | .readyLoad2 _ => w ≠ .waiting ∧ w ≠ .signaled
  | .suspendWrite _ => w = .idle
  | .suspendExchange k => w = .idle ∧ c = some k
  | .suspendRetract _ _ | .outrun _ _ => False

/-- The same while a thread is at its counter and the activation `a` rests. -/
def Prod.Fits (w : Word) (c : Option Await) (a : Act) : Prod → Prop
  | .idle => False
  | .relExchange _ | .stopExchange => a.Fits w c
  | .relRestore _ => a.rest ≠ some .suspended
  | .relCopy _ => ∃ k, a = .parked k ∧ c = some k
  | .relStore _ k => a = .parked k
  | .relInvoke _ k => w = .idle ∧ a = .parked k
  | .stopCopy => w = .stopped ∧ ∃ k, a = .parked k ∧ c = some k
  | .stopInvoke k => w = .stopped ∧ a = .parked k

/-- Where the await of an activation comes to, with the word as it is. -/
def Act.ends (w : Word) : Act → Whole
  | .body => ⟨w, .body⟩
  | .parked _ => ⟨w, .suspended⟩
  | .resumeLoad _ => ⟨w, .resumed⟩
  | .readyCas _ => ⟨.idle, .resumed⟩
  | _ => ⟨w.await, if w = .idle then .suspended else .resumed⟩

/-- Where the call of a thread comes to. -/
def Prod.ends (v : Whole) : Prod → Whole
  | .idle => v
  | .relExchange _ => v.release
  | .relRestore _ => ⟨.stopped, v.rest⟩
  | .relCopy _ | .relStore _ _ | .relInvoke _ _ => ⟨.idle, .resumed⟩
  | .stopExchange => v.stop
  | .stopCopy | .stopInvoke _ => ⟨.stopped, .resumed⟩

/-- **At most one call is under way**, and it comes to `v`. -/
inductive Behind (s : State n) : Whole → Prop
  | consumer (a : Act) (hidle : ∀ t, s.prod t = .idle) (ha : s.acts = [a]) (hfits : a.Fits s.word s.cont) :
      Behind s (a.ends s.word)
  | producer (t : Fin n) (a : Act) (hothers : ∀ u, u ≠ t → s.prod u = .idle) (ha : s.acts = [a]) (hrest : a.rest ≠ none)
      (hfits : (s.prod t).Fits s.word s.cont a) : Behind s ((s.prod t).ends (a.ends s.word))

variable {s s' : State n} {v v' : Whole} {a : Act} {t u : Fin n} {p : Prod} {w : Word} {c : Option Await} {r : Rest}

theorem behind_init : Behind (init n) .init := .consumer .body (fun _ => rfl) rfl (by simp [Act.Fits, init])

theorem Behind.of_consumer (hidle : ∀ t, s.prod t = .idle) (ha : s.acts = [a]) (hfits : a.Fits s.word s.cont)
    (hv : a.ends s.word = v) : Behind s v := hv ▸ .consumer a hidle ha hfits

theorem Behind.of_producer (hp : s.prod t = p) (hothers : ∀ u, u ≠ t → s.prod u = .idle) (ha : s.acts = [a])
    (hrest : a.rest ≠ none) (hfits : p.Fits s.word s.cont a) (hv : p.ends (a.ends s.word) = v) : Behind s v := by
  subst hp hv
  exact .producer t a hothers ha hrest hfits

/-- An activation at rest is suspended, or runs and fits any word but WAITING. -/
theorem Act.rest_cases (h : a.rest ≠ none) :
    (∃ k, a = .parked k) ∨
      ∃ r, a.rest = some r ∧ r ≠ .suspended ∧ (∀ w, a.ends w = ⟨w, r⟩) ∧ ∀ w c, a.Fits w c ↔ w ≠ .waiting := by
  cases a with
  | body => exact .inr ⟨.body, rfl, by simp, fun _ => rfl, fun _ _ => Iff.rfl⟩
  | parked k => exact .inl ⟨k, rfl⟩
  | resumeLoad k => exact .inr ⟨.resumed, rfl, by simp, fun _ => rfl, fun _ _ => Iff.rfl⟩
  | _ => exact absurd rfl h

theorem Act.ends_rest (hr : a.rest = some r) (w : Word) : a.ends w = ⟨w, r⟩ := by
  cases a with
  | body | parked k | resumeLoad k => cases hr; rfl
  | _ => cases hr

theorem update_others {f : Fin n → Prod} (hidle : ∀ u, u ≠ t → f u = .idle) :
    ∀ u, u ≠ t → Function.update f t p u = .idle :=
  fun u hu => (Function.update_of_ne hu ..).trans (hidle u hu)

/-- The thread of the call moves on. -/
theorem goto_others (hothers : ∀ u, u ≠ t → s.prod u = .idle) : ∀ u, u ≠ t → (s.goto t p).prod u = .idle :=
  update_others hothers

theorem goto_self : (s.goto t p).prod t = p := Function.update_self ..

/-- The call returns. -/
theorem goto_idle (hothers : ∀ u, u ≠ t → s.prod u = .idle) : ∀ u, (s.goto t .idle).prod u = .idle := by
  intro u
  by_cases hut : u = t
  · rw [hut]
    exact goto_self
  · exact goto_others hothers u hut

/-! ## §4 — a step. -/

/-- The first exchange of a `release()`. -/
theorem Behind.release {b : Nat} (hothers : ∀ u, u ≠ t → s.prod u = .idle) (ha : s.acts = [a]) (hrest : a.rest ≠ none)
    (hp : s.prod t = .relExchange b) (hfits : a.Fits s.word s.cont) (hs : prodStep s t = some s') :
    Behind s' (a.ends s.word).release := by
  rcases Act.rest_cases hrest with ⟨k, rfl⟩ | ⟨r, hr, hsusp, hends, hfit⟩
  · obtain ⟨hw, hc⟩ := hfits
    simp only [MPSCSignal.prodStep, hp, hw, Option.some.injEq] at hs
    subst hs
    exact .of_producer goto_self (goto_others hothers) ha hrest ⟨k, rfl, hc⟩ (by rw [hw]; rfl)
  · have hw := (hfit _ _).mp hfits
    cases hword : s.word <;> simp only [MPSCSignal.prodStep, hp, hword, Option.some.injEq] at hs <;> subst hs
    · exact .of_consumer (goto_idle hothers) ha ((hfit _ _).mpr (by simp)) (by simp only [hends]; rfl)
    · exact .of_consumer (goto_idle hothers) ha ((hfit _ _).mpr (by simp)) (by simp only [hends]; rfl)
    · refine .of_producer goto_self (goto_others hothers) ha hrest ?_ (by simp only [hends]; rfl)
      show a.rest ≠ some .suspended
      rw [hr]
      simpa using hsusp
    · exact absurd hword hw

/-- The exchange of a `stop()`. -/
theorem Behind.stop (hothers : ∀ u, u ≠ t → s.prod u = .idle) (ha : s.acts = [a]) (hrest : a.rest ≠ none)
    (hp : s.prod t = .stopExchange) (hfits : a.Fits s.word s.cont) (hs : prodStep s t = some s') :
    Behind s' (a.ends s.word).stop := by
  rcases Act.rest_cases hrest with ⟨k, rfl⟩ | ⟨r, hr, hsusp, hends, hfit⟩
  · obtain ⟨hw, hc⟩ := hfits
    simp only [MPSCSignal.prodStep, hp, hw, Option.some.injEq] at hs
    subst hs
    exact .of_producer goto_self (goto_others hothers) ha hrest ⟨rfl, k, rfl, hc⟩ (by rw [hw]; rfl)
  · have hw := (hfit _ _).mp hfits
    cases hword : s.word <;> simp only [MPSCSignal.prodStep, hp, hword, Option.some.injEq] at hs
    case waiting => exact absurd hword hw
    all_goals
      subst hs
      exact .of_consumer (goto_idle hothers) ha ((hfit _ _).mpr (by simp)) (by simp only [hends]; rfl)

/-- **A step of the thread whose call is under way.** -/
theorem Behind.prod (hothers : ∀ u, u ≠ t → s.prod u = .idle) (ha : s.acts = [a]) (hrest : a.rest ≠ none)
    (hfits : (s.prod t).Fits s.word s.cont a) (hs : prodStep s t = some s') :
    Behind s' ((s.prod t).ends (a.ends s.word)) := by
  cases hp : s.prod t with
  | idle =>
      rw [hp] at hfits
      exact hfits.elim
  | relExchange b =>
      rw [hp] at hfits
      exact .release hothers ha hrest hp hfits hs
  | stopExchange =>
      rw [hp] at hfits
      exact .stop hothers ha hrest hp hfits hs
  | relRestore b =>
      rw [hp] at hfits
      simp only [MPSCSignal.prodStep, hp, Option.some.injEq] at hs
      subst hs
      rcases Act.rest_cases hrest with ⟨k, rfl⟩ | ⟨r, hr, -, hends, hfit⟩
      · exact absurd rfl hfits
      · exact .of_consumer (goto_idle hothers) ha ((hfit _ _).mpr (by simp)) (by simp only [hends]; rfl)
  | relCopy b =>
      rw [hp] at hfits
      obtain ⟨k, rfl, hc⟩ := hfits
      simp only [MPSCSignal.prodStep, hp, hc, Option.some.injEq] at hs
      subst hs
      exact .of_producer goto_self (goto_others hothers) ha hrest rfl rfl
  | relStore b k =>
      rw [hp] at hfits
      simp only [MPSCSignal.prodStep, hp, Option.some.injEq] at hs
      subst hs
      exact .of_producer goto_self (goto_others hothers) ha hrest ⟨rfl, hfits⟩ rfl
  | relInvoke b k =>
      rw [hp] at hfits
      obtain ⟨hw, rfl⟩ := hfits
      simp only [MPSCSignal.prodStep, hp, Option.some.injEq] at hs
      subst hs
      refine .of_consumer (a := .resumeLoad k) (goto_idle hothers) (by simp [ha, invoke]) ?_
        (by simp [Act.ends, State.goto, hw, Prod.ends])
      simp [Act.Fits, State.goto, hw]
  | stopCopy =>
      rw [hp] at hfits
      obtain ⟨hw, k, rfl, hc⟩ := hfits
      simp only [MPSCSignal.prodStep, hp, hc, Option.some.injEq] at hs
      subst hs
      exact .of_producer goto_self (goto_others hothers) ha hrest ⟨hw, rfl⟩ rfl
  | stopInvoke k =>
      rw [hp] at hfits
      obtain ⟨hw, rfl⟩ := hfits
      simp only [MPSCSignal.prodStep, hp, Option.some.injEq] at hs
      subst hs
      refine .of_consumer (a := .resumeLoad k) (goto_idle hothers) (by simp [ha, invoke]) ?_
        (by simp [Act.ends, State.goto, hw, Prod.ends])
      simp [Act.Fits, State.goto, hw]

/-- **A step of the await that is under way.** -/
theorem Behind.act (hidle : ∀ t, s.prod t = .idle) (ha : s.acts = [a]) (hfits : a.Fits s.word s.cont)
    (hrest : a.rest = none) (hs : step s (.act 0) = some s') : Behind s' (a.ends s.word) := by
  simp only [step, ha, List.getElem?_cons_zero, Option.map_eq_some_iff] at hs
  obtain ⟨x, hx, rfl⟩ := hs
  cases a with
  | body | parked k | resumeLoad k => cases hrest
  | suspendRetract k old | outrun k old => exact hfits.elim
  | readyLoad k =>
      obtain rfl := Option.some.inj hx
      by_cases hw : s.word = .signaled
      · exact .of_consumer (a := .readyCas k) hidle (by simp [hw]) hw (by simp [Act.ends, hw, Word.await])
      · exact .of_consumer (a := .readyLoad2 k) hidle (by simp [hw]) ⟨hfits, hw⟩ rfl
  | readyCas k =>
      obtain rfl := Option.some.inj hx
      have hw : s.word = .signaled := hfits
      refine .of_consumer (a := .resumeLoad k) ?_ (by simp) ?_ ?_
      · simpa [hw] using hidle
      · simp [hw, Act.Fits]
      · simp [hw, Act.ends]
  | readyLoad2 k =>
      obtain rfl := Option.some.inj hx
      obtain ⟨hwait, hsig⟩ := hfits
      by_cases hw : s.word = .stopped
      · exact .of_consumer (a := .resumeLoad k) hidle (by simp [hw]) hwait (by simp [Act.ends, hw, Word.await])
      · have hi : s.word = .idle := by
          cases hword : s.word with
          | idle => rfl
          | signaled => exact absurd hword hsig
          | stopped => exact absurd hword hw
          | waiting => exact absurd hword hwait
        exact .of_consumer (a := .suspendWrite k) hidle (by simp [hw]) hi rfl
  | suspendWrite k =>
      obtain rfl := Option.some.inj hx
      exact .of_consumer (a := .suspendExchange k) hidle (by simp) ⟨hfits, rfl⟩ rfl
  | suspendExchange k =>
      obtain rfl := Option.some.inj hx
      obtain ⟨hw, hc⟩ := hfits
      exact .of_consumer (a := .parked k) hidle (by simp [hw]) ⟨rfl, hc⟩ (by simp [Act.ends, hw, Word.await])

/-- **A call begins** where nothing is under way, and comes to its move. -/
theorem Behind.begin {act : Action n} {c : Call} (h : Behind s v) (hrest : Resting s) (hc : begins s act = some c)
    (hs : step s act = some s') : ∃ v', v.step c = some v' ∧ Behind s' v' := by
  obtain ⟨hidle, hacts⟩ := hrest
  have hothers : ∀ t u, u ≠ t → s.prod u = .idle := fun _ u _ => hidle u
  cases h with
  | producer t a _ ha hrest hfits =>
      rw [hidle t] at hfits
      exact hfits.elim
  | consumer a _ ha hfits =>
      have hrest : a.rest ≠ none := hacts a (by rw [ha]; exact List.mem_singleton_self a)
      cases act with
      | callRelease t =>
          obtain rfl : Call.release = c := Option.some.inj hc
          obtain ⟨-, ⟨⟩⟩ := Option.ite_none_right_eq_some.mp hs
          exact ⟨_, rfl, .of_producer goto_self (goto_others (hothers t)) ha hrest hfits rfl⟩
      | callStop t =>
          obtain rfl : Call.stop = c := Option.some.inj hc
          obtain ⟨-, ⟨⟩⟩ := Option.ite_none_right_eq_some.mp hs
          exact ⟨_, rfl, .of_producer goto_self (goto_others (hothers t)) ha hrest hfits rfl⟩
      | prod t => cases hc
      | act i =>
          have hi : i = 0 := by
            cases i with
            | zero => rfl
            | succ i => simp [begins, ha] at hc
          subst hi
          simp only [step, ha, List.getElem?_cons_zero, Option.map_eq_some_iff] at hs
          obtain ⟨x, hx, rfl⟩ := hs
          simp only [begins, ha, List.getElem?_cons_zero] at hc
          cases a with
          | body =>
              obtain rfl : Call.await = c := Option.some.inj hc
              obtain rfl := Option.some.inj hx
              exact ⟨_, rfl, .of_consumer hidle rfl hfits rfl⟩
          | resumeLoad k =>
              obtain rfl : Call.resume = c := Option.some.inj hc
              obtain rfl := Option.some.inj hx
              exact ⟨_, rfl, .of_consumer (a := .body) hidle rfl hfits rfl⟩
          | _ => cases hc

/-- **A step inside a call** does not change what it comes to. -/
theorem Behind.goes_on {act : Action n} (h : Behind s v) (hc : begins s act = none) (hs : step s act = some s') :
    Behind s' v := by
  cases h with
  | consumer a hidle ha hfits =>
      cases act with
      | callRelease t | callStop t => cases hc
      | prod t => simp [step, MPSCSignal.prodStep, hidle t] at hs
      | act i =>
          have hi : i = 0 := by
            cases i with
            | zero => rfl
            | succ i => simp [step, ha] at hs
          subst hi
          refine .act hidle ha hfits ?_ hs
          simp only [begins, ha, List.getElem?_cons_zero] at hc
          cases a with
          | body | resumeLoad k => cases hc
          | parked k => simp [step, ha, MPSCSignal.actStep] at hs
          | _ => rfl
  | producer t a hothers ha hrest hfits =>
      cases act with
      | callRelease u | callStop u => cases hc
      | prod u =>
          by_cases hut : u = t
          · subst hut
            exact .prod hothers ha hrest hfits hs
          · simp [step, MPSCSignal.prodStep, hothers u hut] at hs
      | act i =>
          have hi : i = 0 := by
            cases i with
            | zero => rfl
            | succ i => simp [step, ha] at hs
          subst hi
          simp only [begins, ha, List.getElem?_cons_zero] at hc
          cases a with
          | body | resumeLoad k => cases hc
          | parked k => simp [step, ha, MPSCSignal.actStep] at hs
          | _ => exact absurd rfl hrest

/-! ## §5 — runs. -/

/-- At rest the signal is what the calls so far came to. -/
theorem Behind.atRest (h : Behind s v) (hrest : Resting s) : AtRest s v := by
  obtain ⟨hidle, hacts⟩ := hrest
  cases h with
  | producer t a _ ha _ hfits =>
      rw [hidle t] at hfits
      exact hfits.elim
  | consumer a _ ha hfits =>
      obtain ⟨r, hr⟩ := Option.ne_none_iff_exists'.mp (hacts a (by rw [ha]; exact List.mem_singleton_self a))
      rw [Act.ends_rest hr]
      exact ⟨hidle, rfl, a, ha, hr⟩

theorem behind_of_alone (h : Run step Alone (init n) s) : ∃ v, Reachable Whole.step .init v ∧ Behind s v := by
  induction h with
  | refl => exact ⟨.init, .refl _, behind_init⟩
  | @tail s s' act _ hg hs ih =>
      obtain ⟨v, hv, hbehind⟩ := ih
      cases hc : begins s act with
      | none => exact ⟨v, hv, hbehind.goes_on hc hs⟩
      | some c =>
          obtain ⟨v', hstep, hbehind'⟩ := hbehind.begin (hg (by rw [hc]; exact Option.some_ne_none c)) hc hs
          exact ⟨v', hv.tail c trivial hstep, hbehind'⟩

/-- **Calls that do not overlap are whole calls**: where nothing is under way, the signal is as whole calls leave it. -/
theorem whole_of_alone (h : Run step Alone (init n) s) (hrest : Resting s) :
    ∃ v, Reachable Whole.step .init v ∧ AtRest s v := by
  obtain ⟨v, hv, hbehind⟩ := behind_of_alone h
  exact ⟨v, hv, hbehind.atRest hrest⟩

/-- The steps a thread has still to do, at most. -/
def Prod.left : Prod → Nat
  | .idle => 0
  | .relExchange _ => 4
  | .relRestore _ | .relInvoke _ _ | .stopInvoke _ => 1
  | .relCopy _ | .stopExchange => 3
  | .relStore _ _ | .stopCopy => 2

/-- The steps of an await that are still to be done, at most. -/
def Act.left : Act → Nat
  | .readyLoad _ => 4
  | .readyLoad2 _ => 3
  | .suspendWrite _ => 2
  | .suspendExchange _ | .readyCas _ => 1
  | _ => 0

/-- The thread of the call is not blocked. -/
theorem prod_enabled (hfits : (s.prod t).Fits s.word s.cont a) : ∃ s', prodStep s t = some s' := by
  unfold MPSCSignal.prodStep
  cases hp : s.prod t with
  | idle =>
      rw [hp] at hfits
      exact hfits.elim
  | relExchange b | stopExchange => cases s.word <;> exact ⟨_, rfl⟩
  | relCopy b =>
      rw [hp] at hfits
      obtain ⟨k, -, hc⟩ := hfits
      rw [hc]
      exact ⟨_, rfl⟩
  | stopCopy =>
      rw [hp] at hfits
      obtain ⟨-, k, -, hc⟩ := hfits
      rw [hc]
      exact ⟨_, rfl⟩
  | relRestore b | relStore b k | relInvoke b k | stopInvoke k => exact ⟨_, rfl⟩

/-- Every step brings it nearer to the end, and leaves the other threads where they are. -/
theorem prod_left (hs : prodStep s t = some s') :
    ∃ p, s'.prod = Function.update s.prod t p ∧ p.left < (s.prod t).left := by
  cases hp : s.prod t with
  | idle => simp [MPSCSignal.prodStep, hp] at hs
  | relExchange b | stopExchange =>
      cases hw : s.word <;> simp only [MPSCSignal.prodStep, hp, hw, Option.some.injEq] at hs <;> subst hs <;>
        exact ⟨_, rfl, by simp [Prod.left]⟩
  | relCopy b | stopCopy =>
      cases hc : s.cont <;> simp only [MPSCSignal.prodStep, hp, hc, Option.some.injEq] at hs
      · cases hs
      · subst hs
        exact ⟨_, rfl, by simp [Prod.left]⟩
  | relRestore b | relStore b k | relInvoke b k | stopInvoke k =>
      simp only [MPSCSignal.prodStep, hp, Option.some.injEq] at hs
      subst hs
      exact ⟨_, rfl, by simp [Prod.left]⟩

/-- The await that is under way is not blocked, and every step brings it nearer to its end. -/
theorem act_enabled (hfits : a.Fits w s.cont) (hrest : a.rest = none) :
    ∃ r a', actStep s a = some r ∧ r.2 = [a'] ∧ a'.left < a.left ∧ r.1.prod = s.prod := by
  cases a with
  | body | parked k | resumeLoad k => cases hrest
  | suspendRetract k old | outrun k old => exact hfits.elim
  | readyLoad k | readyLoad2 k | suspendExchange k =>
      refine ⟨_, _, rfl, rfl, ?_, rfl⟩
      split <;> simp [Act.left]
  | readyCas k =>
      refine ⟨_, _, rfl, rfl, by simp [Act.left], ?_⟩
      dsimp only
      split <;> rfl
  | suspendWrite k => exact ⟨_, _, rfl, rfl, by simp [Act.left], rfl⟩

/-- With no thread in a call, what is under way is an await. -/
theorem Behind.fits (h : Behind s v) (hidle : ∀ t, s.prod t = .idle) (ha : s.acts = [a]) : a.Fits s.word s.cont := by
  cases h with
  | producer t b _ _ _ hfits =>
      rw [hidle t] at hfits
      exact hfits.elim
  | consumer b _ hb hfits =>
      obtain rfl : b = a := by simpa using hb.symm.trans ha
      exact hfits

/-- An await that is under way runs to its end. -/
theorem Behind.settles_act (m : Nat) : ∀ {s : State n} {a : Act}, Behind s v → (∀ t, s.prod t = .idle) → s.acts = [a] →
    a.left ≤ m → ∃ s', Run step Alone s s' ∧ Behind s' v ∧ Resting s' := by
  induction m with
  | zero =>
      intro s a h hidle ha hm
      by_cases hrest : a.rest = none
      · obtain ⟨r, a', -, -, hlt, -⟩ := act_enabled (h.fits hidle ha) hrest
        omega
      · exact ⟨s, .refl s, h, hidle, by simpa [ha] using hrest⟩
  | succ m ih =>
      intro s a h hidle ha hm
      by_cases hrest : a.rest = none
      · obtain ⟨r, a', hr, hacts, hlt, hprod⟩ := act_enabled (h.fits hidle ha) hrest
        have hs : step s (.act 0) = some { r.1 with acts := r.2 } := by simp [step, ha, hr]
        have hc : begins s (.act 0) = none := by
          simp only [begins, ha, List.getElem?_cons_zero]
          cases a with
          | body | parked k | resumeLoad k => cases hrest
          | _ => rfl
        obtain ⟨s', hrun, hs'⟩ := ih (h.goes_on hc hs) (fun t => by rw [← hidle t, ← hprod]) hacts (by omega)
        exact ⟨s', hrun.head _ (fun hne => absurd hc hne) hs, hs'⟩
      · exact ⟨s, .refl s, h, hidle, by simpa [ha] using hrest⟩

/-- So does the call of a thread. -/
theorem Behind.settles_prod (m : Nat) : ∀ {s : State n}, Behind s v → (∀ u, u ≠ t → s.prod u = .idle) →
    (s.prod t).left ≤ m → ∃ s', Run step Alone s s' ∧ Behind s' v ∧ Resting s' := by
  induction m with
  | zero =>
      intro s h hothers hm
      cases h with
      | consumer a hidle ha hfits => exact (Behind.consumer a hidle ha hfits).settles_act _ hidle ha le_rfl
      | producer u a hothers' ha hrest hfits =>
          obtain rfl : u = t := by
            by_contra hut
            rw [hothers u hut] at hfits
            exact hfits
          obtain ⟨s', hs⟩ := prod_enabled hfits
          obtain ⟨p, -, hlt⟩ := prod_left hs
          omega
  | succ m ih =>
      intro s h hothers hm
      cases h with
      | consumer a hidle ha hfits => exact (Behind.consumer a hidle ha hfits).settles_act _ hidle ha le_rfl
      | producer u a hothers' ha hrest hfits =>
          obtain rfl : u = t := by
            by_contra hut
            rw [hothers u hut] at hfits
            exact hfits
          obtain ⟨s', hs⟩ := prod_enabled hfits
          obtain ⟨p, hp, hlt⟩ := prod_left hs
          have hidle' : ∀ x, x ≠ u → s'.prod x = .idle := by
            rw [hp]
            exact update_others hothers
          obtain ⟨s'', hrun, hs''⟩ := ih (.prod hothers ha hrest hfits hs) hidle' (by rw [hp, Function.update_self]; omega)
          exact ⟨s'', hrun.head (.prod u) (fun hne => absurd rfl hne) hs, hs''⟩

/-- **A whole call is what its atomic steps come to** when they run alone: it can be begun wherever the signal is at
rest, by any thread that is free or by the coroutine, and its steps lead to the state at rest that the move says. -/
theorem Call.runs_alone {c : Call} {act : Action n} (h : Behind s v) (hrest : Resting s) (hc : begins s act = some c)
    (hs : step s act = some s') :
    ∃ v' s'', v.step c = some v' ∧ Run step Alone s s'' ∧ Behind s'' v' ∧ AtRest s'' v' := by
  obtain ⟨v', hstep, hbehind⟩ := h.begin hrest hc hs
  have hsettles : ∃ s'', Run step Alone s' s'' ∧ Behind s'' v' ∧ Resting s'' := by
    have hall := hbehind
    cases hbehind with
    | consumer a hidle ha hfits => exact hall.settles_act _ hidle ha le_rfl
    | producer t a hothers ha hrest hfits => exact hall.settles_prod _ hothers le_rfl
  obtain ⟨s'', hrun, hbehind'', hrest''⟩ := hsettles
  exact ⟨v', s'', hstep, hrun.head act (fun _ => hrest) hs, hbehind'', hbehind''.atRest hrest''⟩

end NetCpp.Coro.MPSCSignal
