/-
# NetCpp.Coro.Domains — cancellation reaches a whole domain, and nothing of it stays behind.

`include/xsl/coro/core/context.h` over the frames of `NetCpp.Coro.Frames`.  The copies of a context and the contexts of
`new_child_context` share one stop state; the coroutines that run in them are one cancellation domain.  `co_yield` makes
its child in such a copy (`NextBase::yield_value`), so a connection belongs to the domain of the loop that accepted it.

`CoroContext::cancel` is `request_stop()`: it sets the flag, and calls back every await that is registered, which
releases its signal.  An await in a domain where stop was requested does not suspend, and comes back with false
(`AwaiterWrapper`, `NetCpp.Coro.AwaiterWrapper`).

Here the test of the flag, the registration of the callback and the suspension are ONE step, and so is a release: the
whole calls of `NetCpp.Coro.CancelCalls`, which are steps here (§3).  Where calls overlap a cancellation can be lost
(`NetCpp.Coro.AwaiterWrapper`); nothing is said of such runs.
-/
import NetCpp.Coro.CancelCalls
import NetCpp.Coro.Chains
import NetCpp.Lib.Fallible

namespace NetCpp.Coro.Frames

open NetCpp.Lib
open NetCpp.Lib.CallStack (Instr Event Stack Caller Thread Sys)
open Relation (ReflTransGen)

variable {C V E G A R : Type} {s s' u : State C V E G A R} {t h h' r : Handle} {i j : Inner}

/-! ## §1 — what a step leaves alone. -/

theorem State.inner_some {x : RcInner G} (h : s.inner (some i) = .ok x) : s.inners i = some x := by
  unfold State.inner at h
  cases hi : s.inners i with
  | none => simp [hi] at h
  | some y =>
    obtain rfl : y = x := by simpa [hi] using h
    rfl

theorem State.task_some {f : TaskFrame C V E} (h : s.task t = .ok f) : s.frames t = some (.task f) := by
  unfold State.task at h
  split at h
  · obtain rfl := Except.ok.inj h
    assumption
  · cases h

/-- A task that is suspended in the `co_await` of a signal. -/
def Waits (s : State C V E G A R) (t : Handle) : Prop := ∃ f k, s.frames t = some (.task f) ∧ f.point = .waiting k

/-- From `s` to `s'` the signals hold what they hold; if `P`, the frame at `t` is as it was; and the context `i` shows
nothing that it did not show, if it was there. -/
structure Keeps (P : Prop) (t : Handle) (i : Inner) (s s' : State C V E G A R) : Prop where
  signals : s'.signals = s.signals
  frame : P → s'.frames t = s.frames t
  shows_ : i < s.freshInner → ∀ g, s'.Shows i g → s.Shows i g
  fresh : s.fresh ≤ s'.fresh
  freshInner : s.freshInner ≤ s'.freshInner

/-- If `P`, the task `t` waits. -/
structure Asleep (P : Prop) (s : State C V E G A R) (t : Handle) : Prop where
  waits : P → Waits s t
  old : P → t < s.fresh

namespace Keeps

variable {P : Prop}

theorem refl (s : State C V E G A R) : Keeps P t i s s :=
  ⟨rfl, fun _ => rfl, fun _ _ h => h, Nat.le_refl _, Nat.le_refl _⟩

theorem trans (h : Keeps P t i s s') (h' : Keeps P t i s' u) : Keeps P t i s u where
  signals := h'.signals.trans h.signals
  frame hP := (h'.frame hP).trans (h.frame hP)
  shows_ hi g hg := h.shows_ hi g (h'.shows_ (hi.trans_le h.freshInner) g hg)
  fresh := h.fresh.trans h'.fresh
  freshInner := h.freshInner.trans h'.freshInner

theorem asleep (h : Keeps P t i s s') (hw : Asleep P s t) : Asleep P s' t where
  waits hP := by
    obtain ⟨f, k, hf, hp⟩ := hw.waits hP
    exact ⟨f, k, (h.frame hP).trans hf, hp⟩
  old hP := (hw.old hP).trans_le h.fresh

/-- Jobs, threads inside `block()` and the log are not looked at. -/
theorem congr (h : Keeps P t i s s') (hf : u.frames = s'.frames) (hi : u.inners = s'.inners)
    (hs : u.signals = s'.signals) (hfr : u.fresh = s'.fresh) (hin : u.freshInner = s'.freshInner) : Keeps P t i s u where
  signals := hs.trans h.signals
  frame hP := (congrFun hf t).trans (h.frame hP)
  shows_ hlt g hg := h.shows_ hlt g (by rwa [State.Shows, hi] at hg)
  fresh := h.fresh.trans (Nat.le_of_eq hfr.symm)
  freshInner := h.freshInner.trans (Nat.le_of_eq hin.symm)

theorem setFrame (hne : P → h ≠ t) (f : Frame C V E) : Keeps P t i s (s.setFrame h f) :=
  ⟨rfl, fun hP => Function.update_of_ne (hne hP).symm _ _, fun _ _ hg => hg, Nat.le_refl _, Nat.le_refl _⟩

theorem freeFrame (hne : P → h ≠ t) : Keeps P t i s (s.freeFrame h) :=
  ⟨rfl, fun hP => Function.update_of_ne (hne hP).symm _ _, fun _ _ hg => hg, Nat.le_refl _, Nat.le_refl _⟩

theorem newFrame (hw : Asleep P s t) (f : Frame C V E) : Keeps P t i s (s.newFrame f) :=
  ⟨rfl, fun hP => Function.update_of_ne (Nat.ne_of_lt (hw.old hP)) _ _, fun _ _ hg => hg, Nat.le_succ _, Nat.le_refl _⟩

theorem makeRc (g : G) : Keeps P t i s (s.makeRc g) := by
  refine ⟨rfl, fun _ => rfl, fun hi g' hg => ?_, Nat.le_refl _, Nat.le_succ _⟩
  simpa [State.Shows, State.makeRc, State.setInner, Nat.ne_of_lt hi] using hg

/-- A count changes, or the context goes. -/
theorem setInner {x : RcInner G} (hx : s.inners j = some x) {y : Option (RcInner G)}
    (hy : ∀ z, y = some z → z.value = x.value) : Keeps P t i s (s.setInner j y) := by
  refine ⟨rfl, fun _ => rfl, fun _ g hg => ?_, Nat.le_refl _, Nat.le_refl _⟩
  by_cases hij : i = j
  · subst hij
    obtain ⟨n, hn⟩ := hg
    have hz : y = some ⟨g, n⟩ := by simpa [State.setInner] using hn
    have hv : g = x.value := hy _ hz
    exact ⟨x.refCount, by rw [hx, hv]⟩
  · simpa [State.Shows, State.setInner, hij] using hg

theorem copyRc {rc : Option Inner} (h : s.copyRc rc = .ok s') : Keeps P t i s s' := by
  cases rc with
  | none => simp [State.copyRc, State.inner, bind, Except.bind] at h
  | some j =>
    simp only [State.copyRc, bind_eq_ok] at h
    obtain ⟨x, hx, hs⟩ := h
    obtain rfl := Except.ok.inj hs
    exact setInner (State.inner_some hx) (by rintro z ⟨⟩; rfl)

theorem dropRc {rc : Option Inner} (h : s.dropRc rc = .ok s') : Keeps P t i s s' := by
  cases rc with
  | none =>
    obtain rfl := Except.ok.inj h
    exact refl s
  | some j =>
    simp only [State.dropRc, bind_eq_ok] at h
    obtain ⟨x, hx, hs⟩ := h
    split at hs
    · obtain rfl := Except.ok.inj hs
      exact setInner (State.inner_some hx) (by simp)
    · obtain rfl := Except.ok.inj hs
      exact setInner (State.inner_some hx) (by rintro z ⟨⟩; rfl)

theorem attach {g : G} (hne : P → h ≠ t) (hs : s.attach h g = .ok s') : Keeps P t i s s' := by
  simp only [State.attach, bind_eq_ok] at hs
  obtain ⟨f, -, s₁, hdrop, -, -, hs⟩ := hs
  obtain rfl := Except.ok.inj hs
  exact ((makeRc g).trans (dropRc hdrop)).trans (setFrame hne _)

theorem next {n : Handle} (hne : P → h ≠ t) (hs : s.next h n = .ok s') : Keeps P t i s s' := by
  simp only [State.next, bind_eq_ok] at hs
  obtain ⟨f, -, hs⟩ := hs
  split at hs
  · cases hs
  · obtain rfl := Except.ok.inj hs
    exact setFrame hne _
  · split at hs
    · obtain rfl := Except.ok.inj hs
      exact setFrame hne _
    · obtain ⟨s₁, hcopy, hs⟩ := bind_eq_ok.mp hs
      obtain rfl := Except.ok.inj hs
      exact (copyRc hcopy).trans (setFrame hne _)

/-- A task that waits does not start. -/
theorem start (hw : Asleep P s t) (hs : s.start h = .ok s') : Keeps P t i s s' := by
  simp only [State.start, bind_eq_ok] at hs
  obtain ⟨f, hf, hs⟩ := hs
  split at hs
  · rename_i c hp
    obtain rfl := Except.ok.inj hs
    apply setFrame
    rintro hP rfl
    obtain ⟨f', k, hf', hp'⟩ := hw.waits hP
    obtain rfl := Frame.task.inj (Option.some.inj ((State.task_some hf).symm.trans hf'))
    simp [hp'] at hp
  · cases hs

/-- Nor is it destroyed. -/
theorem destroyTask (hw : Asleep P s t) (hs : s.destroyTask h = .ok s') : Keeps P t i s s' := by
  simp only [State.destroyTask, bind_eq_ok] at hs
  obtain ⟨f, hf, hs⟩ := hs
  split at hs
  · rename_i hp
    refine (freeFrame ?_).trans (dropRc hs)
    rintro hP rfl
    obtain ⟨f', k, hf', hp'⟩ := hw.waits hP
    obtain rfl := Frame.task.inj (Option.some.inj ((State.task_some hf).symm.trans hf'))
    simp [hp'] at hp
  · cases hs

theorem detach {g : G} (hw : Asleep P s t) (hs : s.detach h g = .ok s') : Keeps P t i s s' := by
  simp only [State.detach, State.dispatch, bind_eq_ok] at hs
  obtain ⟨-, -, -, -, hs⟩ := hs
  obtain rfl := Except.ok.inj hs
  have hmade : Keeps P t i s (s.makeRc g) := makeRc g
  have hnew := hmade.trans (newFrame (hmade.asleep hw) (.detach ⟨false, h, none⟩))
  exact (hnew.trans (setFrame (fun hP => Nat.ne_of_gt (hw.old hP)) _)).congr rfl rfl rfl rfl rfl

/-- The task that `next` is called for does not wait, if it starts behind that. -/
theorem next_start {n : Handle} (hw : Asleep P s t) (hn : s.next h n = .ok s') (hs : s'.start h = .ok u) :
    Keeps P t i s u := by
  have hnext : Keeps P t i s s' := by
    apply next _ hn
    rintro hP rfl
    obtain ⟨f, k, hf, hp⟩ := hw.waits hP
    have hpoint : ∃ f', s'.frames h = some (.task f') ∧ f'.point = .waiting k := by
      simp only [State.next, State.task_eq hf, ok_bind] at hn
      split at hn
      · cases hn
      · obtain rfl := Except.ok.inj hn
        exact ⟨_, Function.update_self _ _ _, hp⟩
      · split at hn
        · obtain rfl := Except.ok.inj hn
          exact ⟨_, Function.update_self _ _ _, hp⟩
        · obtain ⟨s₁, -, hn⟩ := bind_eq_ok.mp hn
          obtain rfl := Except.ok.inj hn
          exact ⟨_, Function.update_self _ _ _, hp⟩
    obtain ⟨f', hf', hp'⟩ := hpoint
    simp [State.start, State.task_eq hf', hp'] at hs
  exact hnext.trans (start (hnext.asleep hw) hs)

theorem resume (hw : Asleep P s t) (hne : P → h ≠ t) {b : Bool} (hs : s.resume h b = .ok s') : Keeps P t i s s' := by
  have hset : ∀ f, Keeps P t i s (s.setFrame h f) := setFrame hne
  unfold State.resume at hs
  split at hs
  · cases hs
  · split at hs
    · exact start hw hs
    · obtain rfl := Except.ok.inj hs
      exact (hset _).congr rfl rfl rfl rfl rfl
    · obtain ⟨o, -, hs⟩ := bind_eq_ok.mp hs
      exact (hset _).trans (destroyTask ((hset _).asleep hw) hs)
    · cases hs
    · cases hs
  · split at hs
    · simp only [bind_eq_ok] at hs
      obtain ⟨o, -, s₁, hdrop, hs⟩ := hs
      have hfree : Keeps P t i s ({ s with errors := s.errors ++ CallStack.errorOf o }.freeFrame h) :=
        (freeFrame hne).congr rfl rfl rfl rfl rfl
      have hleft := hfree.trans (dropRc hdrop)
      exact hleft.trans (destroyTask (hleft.asleep hw) hs)
    · obtain ⟨s₁, hnext, hs⟩ := bind_eq_ok.mp hs
      exact (hset _).trans (next_start ((hset _).asleep hw) hnext hs)
  · split at hs
    · obtain rfl := Except.ok.inj hs
      exact (hset _).congr rfl rfl rfl rfl rfl
    · cases hs

theorem finish {f : TaskFrame C V E} {res : Result V E} (hw : Asleep P s t) (hne : P → h ≠ t)
    (hn : ∀ n, f.next = some n → P → n ≠ t) (hs : s.finish h f res = .ok s') : Keeps P t i s s' := by
  unfold State.finish at hs
  have hset : Keeps P t i s (s.setFrame h (.task { f with point := .final, result := res })) := setFrame hne _
  split at hs
  · cases hs
  · rename_i n hnext
    exact hset.trans (resume (hset.asleep hw) (hn n hnext) hs)

theorem newTask (hw : Asleep P s t) (c : C) : Keeps P t i s (s.newTask c) := newFrame hw _

/-- A new task with a context of its own. -/
theorem newTask_by {c : C} {g : G} (hw : Asleep P s t) (hs : (s.newTask c).attach s.fresh g = .ok s') :
    Keeps P t i s s' :=
  (newTask hw c).trans (attach (fun hP => Nat.ne_of_gt (hw.old hP)) hs)

theorem await {f : TaskFrame C V E} {b : Option G} {callee : C} {k : Except E V → C} (hw : Asleep P s t)
    (hne : P → h ≠ t) (hs : s.await h f b callee k = .ok s') : Keeps P t i s s' := by
  have hrest : ∀ s₁ s₂ : State C V E G A R, Keeps P t i s s₁ →
      (s₁.setFrame h (.task { f with point := .awaiting s.fresh k })).next s.fresh h = .ok s₂ →
      s₂.start s.fresh = .ok s' → Keeps P t i s s' := by
    intro s₁ s₂ hset hnext hstart
    have hawaits := hset.trans (setFrame (s := s₁) hne (.task { f with point := .awaiting s.fresh k }))
    exact hawaits.trans (next_start (hawaits.asleep hw) hnext hstart)
  cases b with
  | none =>
    simp only [State.await, bind_eq_ok] at hs
    obtain ⟨x, -, s₁, hby, s₂, hnext, hs⟩ := hs
    obtain rfl := Except.ok.inj hby
    exact hrest _ s₂ (newTask hw callee) hnext hs
  | some g =>
    simp only [State.await, bind_eq_ok] at hs
    obtain ⟨x, -, s₁, hby, s₂, hnext, hs⟩ := hs
    exact hrest s₁ s₂ (newTask_by hw hby) hnext hs

theorem spawn {f : TaskFrame C V E} {b : Option G} {child k : C} (hw : Asleep P s t) (hne : P → h ≠ t)
    (hs : s.spawn h f b child k = .ok s') : Keeps P t i s s' := by
  simp only [State.spawn, bind_eq_ok] at hs
  obtain ⟨x, -, s₁, hdetach, hs⟩ := hs
  obtain rfl := Except.ok.inj hs
  have hnew : Keeps P t i s (s.newTask child) := newTask hw child
  have hchild := hnew.trans (detach (hnew.asleep hw) hdetach)
  exact (hchild.trans (setFrame hne _)).congr rfl rfl rfl rfl rfl

/-- `coro::block` of the task at `q`. -/
theorem shell {q : Handle} (hw : Asleep P s t) (hs : ({ s.newFrame (.shell false) with
    blocked := Function.update s.blocked s.fresh (some ⟨q, false⟩) } : State C V E G A R).next q s.fresh = .ok s')
    (hu : s'.start q = .ok u) : Keeps P t i s u := by
  have hshell := (newFrame (i := i) hw (.shell false)).congr (u :=
    { s.newFrame (.shell false) with blocked := Function.update s.blocked s.fresh (some ⟨q, false⟩) })
    rfl rfl rfl rfl rfl
  exact hshell.trans (next_start (hshell.asleep hw) hs hu)

theorem block {b : Option G} {own : G} {c : C} (hw : Asleep P s t) (hs : s.block b own c = .ok s') :
    Keeps P t i s s' := by
  have hrest : ∀ (s₁ : State C V E G A R) (f : TaskFrame C V E), Keeps P t i s s₁ → (if f.ctx.isSome then do
      let s₂ ← Except.ok s₁
      let s₃ ← State.next { s₂.newFrame (.shell false) with
        blocked := Function.update s₂.blocked s₂.fresh (some ⟨s.fresh, false⟩) } s.fresh s₂.fresh
      s₃.start s.fresh else do
      let s₂ ← s₁.attach s.fresh own
      let s₃ ← State.next { s₂.newFrame (.shell false) with
        blocked := Function.update s₂.blocked s₂.fresh (some ⟨s.fresh, false⟩) } s.fresh s₂.fresh
      s₃.start s.fresh) = .ok s' → Keeps P t i s s' := by
    intro s₁ f hset hs
    split at hs
    · simp only [ok_bind, bind_eq_ok] at hs
      obtain ⟨s₃, hnext, hs⟩ := hs
      exact hset.trans (shell (hset.asleep hw) hnext hs)
    · simp only [bind_eq_ok] at hs
      obtain ⟨s₂, hown, s₃, hnext, hs⟩ := hs
      have hctx := hset.trans (attach (fun hP => Nat.ne_of_gt (hw.old hP)) hown)
      exact hctx.trans (shell (hctx.asleep hw) hnext hs)
  cases b with
  | none =>
    obtain ⟨s₁, hby, hs⟩ := bind_eq_ok.mp hs
    obtain ⟨f, -, hs⟩ := bind_eq_ok.mp hs
    obtain rfl := Except.ok.inj hby
    exact hrest _ f (newTask hw c) hs
  | some g =>
    obtain ⟨s₁, hby, hs⟩ := bind_eq_ok.mp hs
    obtain ⟨f, -, hs⟩ := bind_eq_ok.mp hs
    exact hrest s₁ f (newTask_by hw hby) hs

theorem acquired {sh q : Handle} (hw : Asleep P s t) (hne : P → sh ≠ t) (hs : s.acquired sh q = .ok s') :
    Keeps P t i s s' := by
  simp only [State.acquired, bind_eq_ok] at hs
  obtain ⟨o, -, hs⟩ := hs
  have hfree := (freeFrame (i := i) (s := s) hne).congr (u := { s.freeFrame sh with
    blocked := Function.update s.blocked sh none, returned := Function.update s.returned sh (some o) })
    rfl rfl rfl rfl rfl
  exact hfree.trans (destroyTask (hfree.asleep hw) hs)

end Keeps

/-! ## §2 — a coroutine that waits keeps its context. -/

/-- The coroutine at `t` runs in the context `g`. -/
def State.Env (s : State C V E G A R) (t : Handle) (g : G) : Prop := ∃ i, s.ctxAt t = some i ∧ s.Shows i g

variable {a : Sys C V E G A R} {L : Handle → List Handle} {code : C → Instr C V E G A R}

/-- What a signal holds is a task that waits. -/
theorem Layout.of_signal (h : Layout s a L) (ht : t ∈ s.signals) : Waits s t ∧ t < s.fresh ∧ t ∉ s.jobs := by
  have hcount : 0 < s.signals.count t := List.count_pos_iff.mpr ht
  have hone := h.one_right t
  have hx : s.rights t ≠ 0 := by
    simp only [State.rights]
    omega
  have hjob : t ∉ s.jobs := by
    intro hj
    have := List.count_pos_iff.mpr hj
    simp only [State.rights] at hone
    omega
  rcases h.right_holder hx with ⟨th, q, j, g, c, -, -, -, -, -, -, -, -, hj, -⟩ | ⟨r, th, n, i, g, k, callers, ps, -, -, hL, hf, -, -, -⟩
  · exact absurd hj hjob
  · exact ⟨⟨_, k, hf, rfl⟩, h.mem_lt_fresh (r := r) (by simp [hL]), hjob⟩

/-- The root of a `block()` is no task. -/
theorem Layout.blocked_not_task (h : Layout s a L) (hb : s.blocked r ≠ none) (f : TaskFrame C V E) :
    s.frames r ≠ some (.task f) := by
  have hr := h.blocked r hb
  obtain ⟨th, hth⟩ := h.thread_of_mem hr
  have hch := (h.chain r th hth).links
  generalize th.now = now at hch
  generalize th.detached = d at hch
  generalize L r = hs at hch hr
  cases hch with
  | queued _ _ _ hno _ _ => exact absurd hno hb
  | running _ _ hcs _ => exact hcs.root_not_task f
  | waiting _ _ hcs _ => exact hcs.root_not_task f
  | released _ hshell _ _ _ _ => simp [hshell]
  | gone hno => exact absurd hno hb

/-- The continuation of a task does not wait for a signal. -/
theorem Callers.not_waits {d : Bool} {n : Handle} {callers : List (Caller C V E G)} {ps : List Handle}
    (h : Callers s r d t n callers ps) : ¬ Waits s n := by
  rintro ⟨f, k, hf, hp⟩
  cases h with
  | detached hr _ => simp [hr] at hf
  | blocked hr _ => simp [hr] at hf
  | caller hq _ _ =>
    obtain rfl := Frame.task.inj (Option.some.inj (hf.symm.trans hq))
    simp at hp

theorem State.current_frame {f : TaskFrame C V E} {ins : Instr C V E G A R} (hc : s.current code h = some (f, ins)) :
    ∃ c, s.frames h = some (.task f) ∧ f.point = .running c := by
  unfold State.current at hc
  split at hc
  · rename_i f' hf
    split at hc
    · rename_i c hp
      simp only [Option.some.injEq, Prod.mk.injEq] at hc
      obtain ⟨rfl, -⟩ := hc
      exact ⟨c, hf, hp⟩
    · simp at hc
  · simp at hc

/-- Who runs does not wait. -/
theorem Layout.runs_awake (h : Layout s a L) {q : Handle} {f : TaskFrame C V E} {ins : Instr C V E G A R}
    (hc : s.current code q = some (f, ins)) (ht : t ∈ s.signals) : q ≠ t := by
  rintro rfl
  obtain ⟨c, hf, hp⟩ := State.current_frame hc
  obtain ⟨f', k, hf', hp'⟩ := (h.of_signal ht).1
  obtain rfl := Frame.task.inj (Option.some.inj (hf.symm.trans hf'))
  simp [hp] at hp'

/-- Who begins to wait keeps its context. -/
theorem State.ctxAt_waiting {h : Handle} {f : TaskFrame C V E} {ins : Instr C V E G A R}
    (hc : s.current code h = some (f, ins)) (k : Bool → C) (q : Handle) :
    (s.setFrame h (.task { f with point := .waiting k })).ctxAt q = s.ctxAt q := by
  by_cases hq : q = h
  · subst hq
    obtain ⟨c, hf, -⟩ := State.current_frame hc
    simp [State.ctxAt, State.setFrame, hf, Frame.ctx]
  · simp [State.ctxAt, State.setFrame, hq]

/-- What is left of `next_signal` when the step keeps the signals and the frame at `t`. -/
theorem Layout.env_of_keeps (h : Layout s a L) (hk : ∀ i, Keeps (t ∈ s.signals) t i s s') (ht : t ∈ s'.signals) :
    t ∈ s.signals ∧ ∀ g, s'.Env t g → s.Env t g := by
  have ht' : t ∈ s.signals := (hk 0).signals ▸ ht
  refine ⟨ht', ?_⟩
  rintro g ⟨i, hi, hg⟩
  have hctx : s.ctxAt t = some i := by rwa [State.ctxAt, (hk i).frame ht'] at hi
  obtain ⟨r, hr⟩ := h.rights t (by
    have := List.count_pos_iff.mpr ht'
    simp only [State.rights]
    omega)
  exact ⟨i, hctx, (hk i).shows_ (h.held (State.uses_pos.mpr ⟨t, hr, hctx⟩)) g hg⟩

/-- **What one step does to the signals.** A handle gets there by the wait of its own coroutine alone, and while it is
there its coroutine runs in no other context. -/
theorem next_signal {act : Act C G R} (hr : Reachable (next code) State.init s) (hs : next code s act = some s')
    (ht : t ∈ s'.signals) :
    (t ∈ s.signals ∨ ∃ f k, act = .step t ∧ s.current code t = some (f, .wait k)) ∧ ∀ g, s'.Env t g → s.Env t g := by
  obtain ⟨a, L, hL⟩ := Layout.of_reachable hr
  have hw : Asleep (t ∈ s.signals) s t := ⟨fun h => (hL.of_signal h).1, fun h => (hL.of_signal h).2.1⟩
  have hkept : (∀ i, Keeps (t ∈ s.signals) t i s s') →
      (t ∈ s.signals ∨ ∃ f k, act = .step t ∧ s.current code t = some (f, .wait k)) ∧ ∀ g, s'.Env t g → s.Env t g :=
    fun hk => ⟨.inl (hL.env_of_keeps hk ht).1, (hL.env_of_keeps hk ht).2⟩
  -- nor does the one wait that a coroutine goes back to
  have hends : ∀ {h f ins res}, s.current code h = some (f, ins) → s.finish h f res = .ok s' →
      (t ∈ s.signals ∨ ∃ f k, act = .step t ∧ s.current code t = some (f, .wait k)) ∧ ∀ g, s'.Env t g → s.Env t g := by
    intro h f ins res hc hfin
    obtain ⟨r, n, i, th, g, c, callers, ps, hF, -, rfl⟩ := hL.front hc
    refine hkept fun _ => .finish hw (hL.runs_awake hc) ?_ hfin
    rintro n' hn ht' rfl
    obtain rfl := Option.some.inj hn
    exact hF.callers.not_waits (hL.of_signal ht').1
  have hstep := next_eq_some hs
  cases act with
  | block b own c =>
    exact hkept fun _ => .block hw (Option.some.inj hstep)
  | acquire sh =>
    simp only [step] at hstep
    split at hstep
    · rename_i q hb
      refine hkept fun _ => .acquired hw ?_ (Option.some.inj hstep)
      rintro ht' rfl
      obtain ⟨f, k, hf, -⟩ := (hL.of_signal ht').1
      exact hL.blocked_not_task (by simp [hb]) f hf
    · cases hstep
  | detach g c =>
    exact hkept fun _ => (Keeps.newTask hw c).trans (.detach ((Keeps.newTask (i := 0) hw c).asleep hw)
      (Option.some.inj hstep))
  | step h =>
    simp only [step] at hstep
    split at hstep
    · rename_i f v hc
      exact hends hc (Option.some.inj hstep)
    · rename_i f e hc
      exact hends hc (Option.some.inj hstep)
    · rename_i hc
      exact hkept fun _ => .await hw (hL.runs_awake hc) (Option.some.inj hstep)
    · rename_i hc
      exact hkept fun _ => .spawn hw (hL.runs_awake hc) (Option.some.inj hstep)
    · rename_i f k hc
      obtain ⟨x, -, hs'⟩ := bind_eq_ok.mp (Option.some.inj hstep)
      obtain rfl := Except.ok.inj hs'
      refine ⟨?_, ?_⟩
      · rcases List.mem_append.mp ht with ht | ht
        · exact .inl ht
        · obtain rfl := List.mem_singleton.mp ht
          exact .inr ⟨f, k, rfl, hc⟩
      · rintro g ⟨i, hi, hg⟩
        exact ⟨i, (State.ctxAt_waiting hc k t).symm.trans hi, hg⟩
    · cases hstep
  | answer h r =>
    simp only [step] at hstep
    split at hstep
    · rename_i hc
      obtain ⟨x, -, hs'⟩ := bind_eq_ok.mp (Option.some.inj hstep)
      obtain rfl := Except.ok.inj hs'
      exact hkept fun _ => (Keeps.setFrame (hL.runs_awake hc) _).congr rfl rfl rfl rfl rfl
    · cases hstep
  | ready h b =>
    simp only [step] at hstep
    split at hstep
    · rename_i hc
      obtain ⟨x, -, hs'⟩ := bind_eq_ok.mp (Option.some.inj hstep)
      obtain rfl := Except.ok.inj hs'
      exact hkept fun _ => (Keeps.setFrame (hL.runs_awake hc) _).congr rfl rfl rfl rfl rfl
    · cases hstep
  | wake h =>
    obtain ⟨-, hs'⟩ := Option.ite_none_right_eq_some.mp hstep
    obtain ⟨f, -, hs'⟩ := bind_eq_ok.mp (Option.some.inj hs')
    obtain ⟨x, -, hs'⟩ := bind_eq_ok.mp hs'
    obtain rfl := Except.ok.inj hs'
    exact ⟨.inl (List.mem_of_mem_erase ht), fun g hg => hg⟩
  | run h b =>
    obtain ⟨hj, hs'⟩ := Option.ite_none_right_eq_some.mp hstep
    have hjobs : ∀ i, Keeps (t ∈ s.signals) t i s { s with jobs := s.jobs.erase h } :=
      fun _ => (Keeps.refl s).congr rfl rfl rfl rfl rfl
    refine hkept fun i => (hjobs i).trans (.resume ((hjobs i).asleep hw) ?_ (Option.some.inj hs'))
    rintro ht' rfl
    exact (hL.of_signal ht').2.2 hj

/-! ## §3 — the machine with its stop states. -/

/-- The context that the frame at `h` holds, as a value. -/
def State.env (s : State C V E G A R) (h : Handle) : Option G := (s.inner (s.ctxAt h)).toOption.map RcInner.value

theorem State.env_eq_some {g : G} : s.env h = some g ↔ s.Env h g := by
  simp only [State.env, State.Env]
  constructor
  · intro he
    obtain ⟨x, hx, rfl⟩ := Option.map_eq_some_iff.mp he
    cases hc : s.ctxAt h with
    | none => simp [hc, State.inner, Except.toOption] at hx
    | some i =>
      refine ⟨i, rfl, x.refCount, ?_⟩
      cases hi : s.inners i with
      | none => simp [hc, State.inner, hi, Except.toOption] at hx
      | some y =>
        obtain rfl : y = x := by simpa [hc, State.inner, hi, Except.toOption] using hx
        rfl
  · rintro ⟨i, hc, n, hi⟩
    simp [hc, State.inner, hi, Except.toOption]

variable {D : Type}

/-- The runtime and the stop states of its contexts; `dom g` is the one that `g` shares. -/
structure Stops (C V E G A R D : Type) where
  rt : State C V E G A R
  /-- `stop_requested()` -/
  requested : D → Bool
  /-- the stop callbacks that are registered: whose await, and with which stop state -/
  callbacks : List (Handle × D)
  /-- the `request_stop()` that set the flag has returned -/
  returned : D → Bool

namespace Stops

def init : Stops C V E G A R D := ⟨State.init, fun _ => false, [], fun _ => false⟩

inductive Act (C G R D : Type)
  | rt (act : Frames.Act C G R)
  /-- `cancel()` sets the flag -/
  | cancel (d : D)
  /-- `cancel()` runs the callback of the await of `h` -/
  | callback (h : Handle) (d : D)
  /-- `cancel()` returns: no callback is left -/
  | cancelled (d : D)

variable [DecidableEq D] (dom : G → D) (code : C → Instr C V E G A R)

/-- `ctx.stop_requested()` in the coroutine at `h`. -/
def stopRequested (S : Stops C V E G A R D) (h : Handle) : Bool := (S.rt.env h).any fun g => S.requested (dom g)

/-- `AwaiterWrapper` in a context whose stop was requested: `await_suspend` refuses, and `await_resume` says false. -/
def admits (S : Stops C V E G A R D) : Frames.Act C G R → Bool
  | .step h => match S.rt.current code h with
    | some (_, .wait _) => !S.stopRequested dom h
    | _ => true
  | .ready h b => !(S.stopRequested dom h && b)
  | .run h b => !(S.stopRequested dom h && b)
  | _ => true

/-- `_cb`: an await that suspends registers its callback, and takes it back when it is resumed. -/
def registers (S : Stops C V E G A R D) : Frames.Act C G R → List (Handle × D)
  | .step h => match S.rt.current code h, S.rt.env h with
    | some (_, .wait _), some g => (h, dom g) :: S.callbacks
    | _, _ => S.callbacks
  | .run h _ => S.callbacks.filter fun c => c.1 ≠ h
  | _ => S.callbacks

def step (S : Stops C V E G A R D) : Act C G R D → Option (Stops C V E G A R D)
  | .rt act =>
    if S.admits dom code act then
      (next code S.rt act).map fun s => { S with rt := s, callbacks := S.registers dom code act }
    else none
  -- a second `request_stop` finds the flag set, and does nothing
  | .cancel d => if S.requested d then none else some { S with requested := Function.update S.requested d true }
  | .callback h d =>
    if (h, d) ∈ S.callbacks ∧ S.requested d then
      -- `release()` of an await that was released before finds no handle
      if h ∈ S.rt.signals then
        (next code S.rt (.wake h)).map fun s => { S with rt := s, callbacks := S.callbacks.erase (h, d) }
      else some { S with callbacks := S.callbacks.erase (h, d) }
    else none
  | .cancelled d =>
    if S.requested d ∧ ∀ c ∈ S.callbacks, c.2 ≠ d then
      some { S with returned := Function.update S.returned d true }
    else none

variable {dom code} {S S' : Stops C V E G A R D} {d : D}

/-! The whole calls of one await, of the coroutine at `h` in the context `g`: what they do is admitted, and the callback
they have registered is the one that is registered here. -/

section Calls

open AwaiterWrapper (Whole)

omit [DecidableEq D]

variable {v v' : Whole} {g : G}

/-- **An await that suspends** is a step of the coroutine, and registers. -/
theorem whole_await {f : TaskFrame C V E} {k : Bool → C} (henv : S.rt.env h = some g) (hv : v.stop = S.requested (dom g))
    (hcur : S.rt.current code h = some (f, .wait k)) (hs : v.step .await = some v') (hsusp : v'.sig.rest = .suspended) :
    S.admits dom code (.step h) = true ∧ v'.registered = true ∧ (h, dom g) ∈ S.registers dom code (.step h) := by
  obtain ⟨-, ⟨⟩⟩ := Option.ite_none_right_eq_some.mp hs
  obtain ⟨hstop, hreg⟩ := Whole.await_suspended hsusp
  rw [hstop] at hv
  exact ⟨by simp [admits, hcur, stopRequested, henv, ← hv], hreg, by simp [registers, hcur, henv]⟩

/-- **What an await returns** is admitted, resumed or ready, and its callback is gone. -/
theorem whole_resume (henv : S.rt.env h = some g) (hv : v.stop = S.requested (dom g)) (hs : v.step .resume = some v') :
    ∃ b, v'.results = b :: v.results ∧ S.admits dom code (.run h b) = true ∧ S.admits dom code (.ready h b) = true ∧
      v'.registered = false ∧ ∀ c ∈ S.registers dom code (.run h b), c.1 ≠ h := by
  obtain ⟨-, ⟨⟩⟩ := Option.ite_none_right_eq_some.mp hs
  refine ⟨!v.stop, rfl, ?_, ?_, rfl, ?_⟩
  · simp [admits, stopRequested, henv, hv]
  · simp [admits, stopRequested, henv, hv]
  · intro c hc
    simpa using (List.mem_filter.mp hc).2

/-- **A callback that `cancel()` runs** is one of its moves here. -/
theorem whole_callback (hreach : Reachable Whole.step .init v) (hv : v.stop = S.requested (dom g))
    (hreg : v.registered = true → (h, dom g) ∈ S.callbacks) (hs : v.step .callback = some v') :
    (h, dom g) ∈ S.callbacks ∧ S.requested (dom g) = true := by
  obtain ⟨⟨hn, hr⟩, -⟩ := Option.ite_none_right_eq_some.mp hs
  exact ⟨hreg hr, hv.symm.trans (Whole.stop_of_next hreach hn)⟩

end Calls

/-! ## §4 — what a returned `cancel()` leaves behind. -/

/-- Every await that is suspended has its callback registered, and a stop state whose `cancel()` has returned has none. -/
structure Inv (dom : G → D) (S : Stops C V E G A R D) : Prop where
  registered : ∀ t ∈ S.rt.signals, ∀ g, S.rt.Env t g → (t, dom g) ∈ S.callbacks
  stopped : ∀ d, S.returned d → S.requested d
  none_left : ∀ d, S.returned d → ∀ c ∈ S.callbacks, c.2 ≠ d

omit [DecidableEq D] in
theorem mem_registers {act : Frames.Act C G R} {c : Handle × D} (hadm : S.admits dom code act)
    (hc : c ∈ S.registers dom code act) : c ∈ S.callbacks ∨ S.requested c.2 = false := by
  unfold registers at hc
  split at hc
  · rename_i h
    split at hc
    · rename_i f k g hcur henv
      rcases List.mem_cons.mp hc with rfl | hc
      · refine .inr ?_
        simpa [admits, hcur, stopRequested, henv] using hadm
      · exact .inl hc
    · exact .inl hc
  · exact .inl (List.mem_of_mem_filter hc)
  · exact .inl hc

omit [DecidableEq D] in
/-- The runtime's own steps, from a state that it reaches. -/
theorem Inv.rt {s' : State C V E G A R} {act : Frames.Act C G R} (h : Inv dom S)
    (hr : Reachable (next code) State.init S.rt) (hadm : S.admits dom code act) (hs : next code S.rt act = some s') :
    Inv dom { S with rt := s', callbacks := S.registers dom code act } where
  registered := by
    intro t ht g hg
    obtain ⟨hold, henv⟩ := next_signal hr hs ht
    have hold_env : S.rt.Env t g := henv g hg
    rcases hold with hold | ⟨f, k, rfl, hcur⟩
    · have hreg := h.registered t hold g hold_env
      unfold registers
      split
      · split
        · exact List.mem_cons_of_mem _ hreg
        · exact hreg
      · rename_i q b
        refine List.mem_filter.mpr ⟨hreg, ?_⟩
        -- what an executor resumes no signal holds
        obtain ⟨a, L, hL⟩ := Layout.of_reachable hr
        have hjob : q ∈ S.rt.jobs := (Option.ite_none_right_eq_some.mp (next_eq_some hs)).1
        have hne : t ≠ q := by
          rintro rfl
          exact (hL.of_signal hold).2.2 hjob
        simpa using hne
      · exact hreg
    · simp [registers, hcur, State.env_eq_some.mpr hold_env]
  stopped := h.stopped
  none_left := by
    intro d hd c hc
    rcases mem_registers hadm hc with hc | hc
    · exact h.none_left d hd c hc
    · rintro rfl
      simp [h.stopped _ hd] at hc

theorem Inv.step {act : Act C G R D} (h : Inv dom S) (hr : Reachable (next code) State.init S.rt)
    (hs : step dom code S act = some S') : Inv dom S' := by
  cases act with
  | rt act =>
    obtain ⟨hadm, hs⟩ := Option.ite_none_right_eq_some.mp hs
    obtain ⟨s', hs', rfl⟩ := Option.map_eq_some_iff.mp hs
    exact h.rt hr hadm hs'
  | cancel d =>
    obtain ⟨-, hs⟩ := Option.ite_none_left_eq_some.mp hs
    obtain rfl := Option.some.inj hs
    refine ⟨h.registered, fun d' hd' => ?_, h.none_left⟩
    by_cases hdd : d' = d
    · simp [hdd]
    · simpa [hdd] using h.stopped d' hd'
  | callback q d =>
    obtain ⟨-, hs⟩ := Option.ite_none_right_eq_some.mp hs
    have hleft : ∀ d', S.returned d' → ∀ c ∈ S.callbacks.erase (q, d), c.2 ≠ d' :=
      fun d' hd' c hc => h.none_left d' hd' c (List.mem_of_mem_erase hc)
    have hstays : ∀ {t g}, t ∈ S.rt.signals → t ≠ q → S.rt.Env t g → (t, dom g) ∈ S.callbacks.erase (q, d) := by
      intro t g ht hne hg
      refine (List.mem_erase_of_ne ?_).mpr (h.registered t ht g hg)
      simp [hne]
    split at hs
    · obtain ⟨s', hs', rfl⟩ := Option.map_eq_some_iff.mp hs
      refine ⟨fun t ht g hg => ?_, h.stopped, hleft⟩
      obtain ⟨hold, henv⟩ := next_signal hr hs' ht
      rcases hold with hold | ⟨f, k, hact, -⟩
      · refine hstays hold ?_ (henv g hg)
        -- a signal holds a handle once
        rintro rfl
        obtain ⟨a, L, hL⟩ := Layout.of_reachable hr
        obtain ⟨-, hwake⟩ := Option.ite_none_right_eq_some.mp (next_eq_some hs')
        obtain ⟨f, -, hwake⟩ := bind_eq_ok.mp (Option.some.inj hwake)
        obtain ⟨x, -, hwake⟩ := bind_eq_ok.mp hwake
        obtain rfl := Except.ok.inj hwake
        have htwice : 0 < (S.rt.signals.erase t).count t := List.count_pos_iff.mpr ht
        have hone := hL.one_right t
        simp only [List.count_erase_self, State.rights] at htwice hone
        omega
      · simp at hact
    · rename_i hq
      obtain rfl := Option.some.inj hs
      refine ⟨fun t ht g hg => hstays ht ?_ hg, h.stopped, hleft⟩
      rintro rfl
      exact hq ht
  | cancelled d =>
    obtain ⟨⟨hreq, hnone⟩, hs⟩ := Option.ite_none_right_eq_some.mp hs
    obtain rfl := Option.some.inj hs
    refine ⟨h.registered, fun d' hd' => ?_, fun d' hd' => ?_⟩
    · by_cases hdd : d' = d
      · rwa [hdd]
      · exact h.stopped d' (by simpa [hdd] using hd')
    · by_cases hdd : d' = d
      · rwa [hdd]
      · exact h.none_left d' (by simpa [hdd] using hd')

/-- The runtime below takes steps of its own, or none. -/
theorem reachable_rt (h : Reachable (step dom code) init S) : Reachable (next code) State.init S.rt := by
  induction h with
  | refl => exact .refl _
  | @tail S₀ S₁ act _ _ hs ih =>
    cases act with
    | rt act =>
      obtain ⟨-, hs⟩ := Option.ite_none_right_eq_some.mp hs
      obtain ⟨s', hs', rfl⟩ := Option.map_eq_some_iff.mp hs
      exact ih.tail act trivial hs'
    | cancel d =>
      obtain ⟨-, hs⟩ := Option.ite_none_left_eq_some.mp hs
      obtain rfl := Option.some.inj hs
      exact ih
    | callback q d =>
      obtain ⟨-, hs⟩ := Option.ite_none_right_eq_some.mp hs
      split at hs
      · obtain ⟨s', hs', rfl⟩ := Option.map_eq_some_iff.mp hs
        exact ih.tail _ trivial hs'
      · obtain rfl := Option.some.inj hs
        exact ih
    | cancelled d =>
      obtain ⟨-, hs⟩ := Option.ite_none_right_eq_some.mp hs
      obtain rfl := Option.some.inj hs
      exact ih

theorem Inv.of_reachable (h : Reachable (Stops.step dom code) init S) : Inv dom S := by
  induction h with
  | refl => exact ⟨by simp [init, State.init], by simp [init], by simp [init]⟩
  | tail act hr _ hs ih => exact ih.step (reachable_rt hr) hs

end Stops

/-- Every frame of a chain is led to by the task whose continuation is `n`. -/
theorem Callers.reached {q : Bool} {n : Handle} {callers : List (Caller C V E G)} {ps : List Handle}
    (h : Callers s r q t n callers ps) : ∀ p ∈ r :: ps, ReflTransGen (Up s) n p := by
  induction h with
  | detached _ _ => simp [ReflTransGen.refl]
  | blocked _ _ => simp [ReflTransGen.refl]
  | @caller d t p n i g k callers ps hp _ _ ih =>
    have hup : ∀ x ∈ r :: ps, ReflTransGen (Up s) p x := fun x hx => (ih x hx).head ⟨_, hp, rfl⟩
    intro x hx
    simp only [List.mem_cons] at hx hup
    rcases hx with rfl | rfl | hx
    · exact hup _ (.inl rfl)
    · exact .refl
    · exact hup x (.inr hx)

/-- Nobody has anything to do: no coroutine runs, no executor has a function, no `block()` is about to return. -/
structure Idle (s : State C V E G A R) : Prop where
  running : ∀ t f c, s.frames t = some (.task f) → f.point ≠ .running c
  jobs : s.jobs = []
  blocked : ∀ r b, s.blocked r = some b → b.sem = false

/-- In an idle runtime a frame is led to by a coroutine that a signal holds. -/
theorem Layout.sleeper (h : Layout s a L) (hi : Idle s) (ht : s.frames t ≠ none) :
    ∃ u ∈ s.signals, ReflTransGen (Up s) u t ∧ ∃ g, s.Env u g := by
  obtain ⟨r, hr⟩ := h.frames t ht
  obtain ⟨th, hth⟩ := h.thread_of_mem hr
  have hch := (h.chain r th hth).links
  generalize th.now = now at hch
  generalize th.detached = d at hch
  generalize L r = hs at hch hr
  cases hch with
  | queued _ _ _ _ hj _ => simp [hi.jobs] at hj
  | running hf _ _ _ => exact absurd rfl (hi.running _ _ _ hf)
  | @waiting d u n i g k callers ps hf hg hcs ho =>
    refine ⟨u, ?_, ?_, g, i, by simp [State.ctxAt, hf, Frame.ctx], hg⟩
    · have hright := ho u (by simp)
      simp only [State.rights, hi.jobs, List.count_nil] at hright
      exact List.count_pos_iff.mp (by simp at hright; omega)
    · have hreach : ∀ p ∈ r :: ps, ReflTransGen (Up s) u p := fun p hp => (hcs.reached p hp).head ⟨_, hf, rfl⟩
      simp only [List.mem_cons] at hr hreach
      rcases hr with rfl | rfl | hr
      · exact hreach _ (.inl rfl)
      · exact .refl
      · exact hreach t (.inr hr)
  | released _ _ hb _ _ _ => simpa using hi.blocked _ _ hb
  | gone _ => simp at hr

/-- **A cancelled domain drains.** Once `cancel()` has returned, no signal holds a coroutine of the domain, whatever runs
on; and when nobody has anything to do, what is left of the domain waits for a coroutine of another one. -/
theorem cancelled_drains {D : Type} [DecidableEq D] {dom : G → D} {S : Stops C V E G A R D} {d : D}
    (h : Reachable (Stops.step dom code) Stops.init S) (hd : S.returned d) :
    (∀ t ∈ S.rt.signals, ∀ g, S.rt.Env t g → dom g ≠ d) ∧
      (Idle S.rt → ∀ t g, S.rt.Env t g → dom g = d →
        ∃ u ∈ S.rt.signals, ReflTransGen (Up S.rt) u t ∧ ∃ g', S.rt.Env u g' ∧ dom g' ≠ d) := by
  have hinv := Stops.Inv.of_reachable h
  have hsig : ∀ t ∈ S.rt.signals, ∀ g, S.rt.Env t g → dom g ≠ d :=
    fun t ht g hg => hinv.none_left d hd _ (hinv.registered t ht g hg)
  refine ⟨hsig, fun hidle t g hg _ => ?_⟩
  obtain ⟨a, L, hL⟩ := Layout.of_reachable (Stops.reachable_rt h)
  have hframe : S.rt.frames t ≠ none := by
    obtain ⟨i, hi, -⟩ := hg
    intro hnone
    simp [State.ctxAt, hnone] at hi
  obtain ⟨u, hu, hup, g', hg'⟩ := hL.sleeper hidle hframe
  exact ⟨u, hu, hup, g', hg', hsig u hu g' hg'⟩

/-- `0` blocks in the domain 50 and awaits in the domain 90.  The callback of the latter is registered, and 50 is
cancelled: `0` is left, for the task at 4. -/
def drainRun : List (Stops.Act Nat Nat Nat Nat) :=
  [.rt (.block none 50 0), .rt (.step 0), .rt (.step 0), .rt (.answer 4 1), .rt (.step 4), .cancel 50,
    .rt (.run 3 false), .rt (.step 2), .cancelled 50]

theorem sample_drains : ∃ S : Stops Nat Nat Nat Nat Nat Nat Nat, exec (Stops.step id sample) Stops.init drainRun = some S ∧
    (∀ t ∈ S.rt.signals, ∀ g, S.rt.Env t g → id g ≠ 50) ∧
      ∃ u ∈ S.rt.signals, ReflTransGen (Up S.rt) u 0 ∧ ∃ g', S.rt.Env u g' ∧ id g' ≠ 50 := by
  have hs : ∃ S : Stops Nat Nat Nat Nat Nat Nat Nat, exec (Stops.step id sample) Stops.init drainRun = some S ∧
      S.returned 50 = true ∧ Idle S.rt ∧ S.rt.Env 0 50 := by
    refine ⟨_, rfl, rfl, ⟨?_, rfl, ?_⟩, 0, rfl, 1, rfl⟩
    · rintro (_ | _ | _ | _ | _ | t) f c hf <;> cases hf <;> simp
    · rintro (_ | _ | r) b hb <;> cases hb
      rfl
  obtain ⟨S, hs, hd, hidle, henv⟩ := hs
  obtain ⟨hsig, hleft⟩ := cancelled_drains (reachable_of_exec hs) hd
  exact ⟨S, hs, hsig, hleft hidle 0 50 henv rfl⟩

end NetCpp.Coro.Frames
