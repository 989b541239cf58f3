/-
# NetCpp.Coro.FramesRefine — the coroutine runtime refines threads with call stacks.

New chains, first runs and wake-ups, and then every step of `NetCpp.Coro.Frames` together: from a heap that is laid out
as a system of threads no step faults, and it leads to a heap that is laid out as the same system or as the next one
(`Matches.step`).  What is known of systems of threads is thereby known of coroutines.
-/
import NetCpp.Coro.FramesReturn

namespace NetCpp.Coro.Frames

open NetCpp.Lib
open NetCpp.Lib.CallStack (Instr Event Stack Caller Thread Sys errorOf deliver Sound)

variable {C V E G A R : Type} {s s' : State C V E G A R} {a : Sys C V E G A R} {L : Handle → List Handle}
  {r t n : Handle} {th : Thread C V E G A R} {i : Inner} {g : G} {c : C} {callers : List (Caller C V E G)}
  {ps : List Handle}

/-! ## §1 — new chains. -/

theorem Layout.fresh_rights (h : Layout s a L) {x : Handle} (hx : s.fresh ≤ x) : s.rights x = 0 := by
  by_contra hne
  obtain ⟨q, hq⟩ := h.rights x hne
  exact (h.fresh x hx).2 q hq

/-- **A chain begins**: two frames, one behind the other on the heap, and one context that one of them holds. -/
theorem Layout.begins (h : Layout s a L) {ft fd : Frame C V E} {det : Bool}
    (hframes : s'.frames = Function.update (Function.update s.frames s.fresh (some ft)) (s.fresh + 1) (some fd))
    (hfresh : s'.fresh = s.fresh + 1 + 1)
    (hinners : s'.inners = Function.update s.inners s.freshInner (some ⟨g, 1⟩))
    (hfi : s'.freshInner = s.freshInner + 1)
    (hctx : ft.ctx = some s.freshInner ∧ fd.ctx = none ∨ ft.ctx = none ∧ fd.ctx = some s.freshInner)
    (hsig : s'.signals = s.signals) (hjobs : ∀ x, x ≠ s.fresh + 1 → s'.jobs.count x = s.jobs.count x)
    (hb : ∀ q, q ≠ s.fresh + 1 → s'.blocked q = s.blocked q) (hret : s'.returned = s.returned)
    (hlinks : Links s' (s.fresh + 1) det (.running g c []) [s.fresh + 1, s.fresh])
    (alog : List (Nat × Event C G A R)) (aerrors : List E) :
    Layout s' ⟨Function.update a.threads (s.fresh + 1) (some (.begin g c det)), alog, aerrors⟩
      (Function.update L (s.fresh + 1) [s.fresh + 1, s.fresh]) := by
  obtain ⟨hnone, -⟩ := h.fresh (s.fresh + 1) (Nat.le_succ _)
  have hL : L (s.fresh + 1) = [] := h.absent _ hnone
  have huses : ∀ x, s'.uses [s.fresh + 1, s.fresh] x = s.uses (L (s.fresh + 1)) x + if x = s.freshInner then 1 else 0 := by
    intro x
    have ht : s'.ctxAt s.fresh = ft.ctx := by simp [State.ctxAt, hframes]
    have hd : s'.ctxAt (s.fresh + 1) = fd.ctx := by simp [State.ctxAt, hframes]
    rw [hL]
    rcases hctx with ⟨h1, h2⟩ | ⟨h1, h2⟩ <;> simp [State.uses_cons, ht, hd, h1, h2, eq_comm]
  refine h.update (.begin g c det) _ _ ?_ hlinks ?_ ?_ ?_
  · constructor
    · intro x _ hx
      simp only [List.mem_cons, List.not_mem_nil, or_false, not_or] at hx
      simp [hframes, hx.1, hx.2]
    · simp [hL]
    · intro x hx
      right
      rw [hfresh]
      rcases List.mem_pair.mp hx with rfl | rfl
      · exact ⟨Nat.le_succ _, Nat.lt_succ_self _⟩
      · exact ⟨le_rfl, (Nat.lt_succ_self _).trans (Nat.lt_succ_self _)⟩
    · rw [hfresh]
      exact (Nat.le_succ _).trans (Nat.le_succ _)
    · rw [hfi]
      exact Nat.le_succ _
    · rw [hinners]
      exact (h.tally _).make (.inr le_rfl) (h.inner_none le_rfl) g huses
    · intro x hx
      rw [huses, hL] at hx
      rw [hfi]
      by_cases hxi : x = s.freshInner
      · rw [hxi]
        exact Nat.lt_succ_self _
      · simp [hxi] at hx
    · exact hb
    · exact fun _ => by simp
    · exact fun x _ _ => by rw [hsig]
    · intro x _ hx
      simp only [List.mem_cons, not_or] at hx
      exact hjobs x hx.1
  · simp
  · rw [hfresh]
    exact Nat.lt_succ_self _
  · intro q o hq
    rw [hret] at hq
    refine .inl ⟨hq, fun he => ?_⟩
    obtain ⟨th', hth', -⟩ := h.returned q o hq
    simp [he, hnone] at hth'

/-- **`detach`** begins a chain that an executor will start. -/
theorem Layout.detach (h : Layout s a L) (g : G) (c : C) (alog : List (Nat × Event C G A R)) (aerrors : List E) :
    ∃ s', (s.newTask c).detach s.fresh g = .ok s' ∧ s'.log = s.log ∧ s'.errors = s.errors ∧
      (∀ x, x < s.fresh → s'.frames x = s.frames x) ∧ s'.signals = s.signals ∧
      (∀ x, x < s.fresh → s'.jobs.count x = s.jobs.count x) ∧
      (∀ x, x < s.freshInner → s'.inners x = s.inners x) ∧ (∀ x, x < s.fresh → s'.blocked x = s.blocked x) ∧
      Layout s' ⟨Function.update a.threads (s.fresh + 1) (some (.begin g c true)), alog, aerrors⟩
        (Function.update L (s.fresh + 1) [s.fresh + 1, s.fresh]) := by
  have hne : s.fresh ≠ s.fresh + 1 := (Nat.lt_succ_self _).ne
  have hlt : ∀ x, x < s.fresh → x ≠ s.fresh ∧ x ≠ s.fresh + 1 :=
    fun x hx => ⟨hx.ne, (hx.trans (Nat.lt_succ_self _)).ne⟩
  obtain ⟨s', hs'⟩ : ∃ s', s' = { s with
    frames := Function.update (Function.update s.frames s.fresh
      (some (.task ⟨.initial c, none, none, .monostate⟩))) (s.fresh + 1)
      (some (.detach ⟨false, s.fresh, some s.freshInner⟩))
    fresh := s.fresh + 1 + 1
    inners := Function.update s.inners s.freshInner (some ⟨g, 1⟩)
    freshInner := s.freshInner + 1
    jobs := s.jobs ++ [s.fresh + 1] } := ⟨_, rfl⟩
  have hcount : ∀ x, x ≠ s.fresh + 1 → s'.jobs.count x = s.jobs.count x := by
    intro x hx
    simp only [hs', List.count_append]
    rw [List.count_eq_zero_of_not_mem (show x ∉ [s.fresh + 1] by simpa using hx), Nat.add_zero]
  have h0 : s.rights (s.fresh + 1) = 0 := h.fresh_rights (Nat.le_succ _)
  refine ⟨s', ?_, by rw [hs'], by rw [hs'], ?_, by rw [hs'], fun x hx => hcount x (hlt x hx).2, ?_, by simp [hs'], ?_⟩
  · rw [hs']
    simp [State.detach, State.newTask, State.newFrame, State.setFrame, State.makeRc, State.setInner,
      State.assertUnique, State.inner, State.dispatch]
  · intro x hx
    simp [hs', (hlt x hx).1, (hlt x hx).2]
  · intro x hx
    simp [hs', hx.ne]
  · apply h.begins (by rw [hs']) (by rw [hs']) (by rw [hs']) (by rw [hs']) (.inr ⟨rfl, rfl⟩) (by rw [hs']) hcount
      (fun q _ => by rw [hs']) (by rw [hs'])
    refine .queued (j := s.freshInner) (by simp [hs']) (by simp [hs']) ⟨1, by simp [hs']⟩ ?_ (by simp [hs']) ?_
    · rw [hs']
      by_contra hb
      exact (h.fresh _ (Nat.le_succ _)).2 _ (h.blocked _ hb)
    · intro x hx
      rcases List.mem_pair.mp hx with rfl | rfl
      · simp only [State.rights] at h0 ⊢
        simp only [hs', List.count_append, List.count_singleton_self, if_true]
        omega
      · have := h.fresh_rights (x := s.fresh) le_rfl
        simpa [State.rights, hcount _ hne, hs', hne] using this

/-- **`block`** begins a chain that runs at once; its context is the task's own, or an empty one. -/
theorem Layout.block (h : Layout s a L) (b : Option G) (own : G) (c : C) (alog : List (Nat × Event C G A R))
    (aerrors : List E) :
    ∃ s', s.block b own c = .ok s' ∧ s'.log = s.log ∧ s'.errors = s.errors ∧
      Layout s' ⟨Function.update a.threads (s.fresh + 1) (some (.begin (b.getD own) c false)), alog, aerrors⟩
        (Function.update L (s.fresh + 1) [s.fresh + 1, s.fresh]) := by
  have hne : s.fresh ≠ s.fresh + 1 := (Nat.lt_succ_self _).ne
  obtain ⟨s', hs'⟩ : ∃ s', s' = { s with
    frames := Function.update (Function.update s.frames s.fresh
      (some (.task ⟨.running c, some s.freshInner, some (s.fresh + 1), .monostate⟩))) (s.fresh + 1)
      (some (.shell false))
    fresh := s.fresh + 1 + 1
    inners := Function.update s.inners s.freshInner (some ⟨b.getD own, 1⟩)
    freshInner := s.freshInner + 1
    blocked := Function.update s.blocked (s.fresh + 1) (some ⟨s.fresh, false⟩) } := ⟨_, rfl⟩
  refine ⟨s', ?_, by rw [hs'], by rw [hs'], ?_⟩
  · have hnew : (s.newTask c).frames s.fresh = some (.task ⟨.initial c, none, none, .monostate⟩) := by
      simp [State.newTask, State.newFrame, State.setFrame]
    cases b with
    | none =>
      simp only [State.block, ok_bind, State.task_eq hnew, Option.isSome_none, Bool.false_eq_true, if_false]
      rw [State.attach_eq hnew rfl]
      simp only [ok_bind]
      rw [State.next_keeps (f := ⟨.initial c, some s.freshInner, none, .monostate⟩) (i := s.freshInner)
        (p := .shell false)]
      · simp only [ok_bind]
        rw [State.start_eq (f := ⟨.initial c, some s.freshInner, some (s.fresh + 1), .monostate⟩) (c := c)]
        · simp [State.newTask, State.newFrame, State.setFrame, State.makeRc, State.setInner, hs',
            Function.update_comm hne]
        · simp [State.setFrame, State.newFrame, State.newTask, State.makeRc, State.setInner]
        · rfl
      · simp [State.setFrame, State.newFrame, State.newTask, State.makeRc, State.setInner]
      · rfl
      · simp [State.setFrame, State.newFrame, State.newTask, State.makeRc, State.setInner]
    | some g =>
      simp only [State.block]
      rw [State.attach_eq hnew rfl]
      simp only [ok_bind]
      rw [State.task_eq (f := ⟨.initial c, some s.freshInner, none, .monostate⟩)]
      · simp only [ok_bind, Option.isSome_some, if_true]
        rw [State.next_keeps (f := ⟨.initial c, some s.freshInner, none, .monostate⟩) (i := s.freshInner)
          (p := .shell false)]
        · simp only [ok_bind]
          rw [State.start_eq (f := ⟨.initial c, some s.freshInner, some (s.fresh + 1), .monostate⟩) (c := c)]
          · simp [State.newTask, State.newFrame, State.setFrame, State.makeRc, State.setInner, hs',
              Function.update_comm hne]
          · simp [State.setFrame, State.newFrame, State.newTask, State.makeRc, State.setInner]
          · rfl
        · simp [State.setFrame, State.newFrame, State.newTask, State.makeRc, State.setInner]
        · rfl
        · simp [State.setFrame, State.newFrame, State.newTask, State.makeRc, State.setInner]
      · simp [State.setFrame, State.newFrame, State.newTask, State.makeRc, State.setInner]
  · apply h.begins (by rw [hs']) (by rw [hs']) (by rw [hs']) (by rw [hs']) (.inl ⟨rfl, rfl⟩) (by rw [hs'])
      (fun x _ => by rw [hs']) (fun q hq => by simp [hs', hq]) (by rw [hs'])
    refine .running (i := s.freshInner) (n := s.fresh + 1) (by simp [hs']) ⟨1, by simp [hs']⟩
      (.blocked (by simp [hs']) (by simp [hs'])) ?_
    intro x hx
    have hx : s.fresh ≤ x := by
      rcases List.mem_pair.mp hx with rfl | rfl
      · exact Nat.le_succ _
      · exact le_rfl
    simpa [State.rights, hs'] using h.fresh_rights hx

/-! ## §2 — who may resume whom. -/

/-- What a right to resume the frame `x` is for: a detached chain that has not started, or a task that waits. -/
theorem Layout.right_holder (h : Layout s a L) {x : Handle} (hx : s.rights x ≠ 0) :
    (∃ th t j g c, a.threads x = some th ∧ th.now = .running g c [] ∧ th.detached = true ∧ L x = [x, t] ∧
        s.frames x = some (.detach ⟨false, t, some j⟩) ∧
        s.frames t = some (.task ⟨.initial c, none, none, .monostate⟩) ∧ s.Shows j g ∧ s.blocked x = none ∧
        x ∈ s.jobs ∧ OneRight s [x, t] (some x)) ∨
      ∃ r th n i g k callers ps, a.threads r = some th ∧ th.now = .waiting g k callers ∧ L r = r :: x :: ps ∧
        s.frames x = some (.task ⟨.waiting k, some i, some n, .monostate⟩) ∧ s.Shows i g ∧
        Callers s r th.detached x n callers ps ∧ OneRight s (r :: x :: ps) (some x) := by
  obtain ⟨r, hr⟩ := h.rights x hx
  obtain ⟨th, hth⟩ := h.thread_of_mem hr
  have hch := (h.chain r th hth).links
  generalize hnow : th.now = now at hch
  generalize hd : th.detached = d at hch
  generalize hL : L r = hs at hch hr
  -- only one frame of the chain has a right
  have honly : ∀ y, OneRight s hs (some y) → x = y := by
    intro y hy
    by_contra hne
    exact hx (by simpa [hne] using hy x hr)
  have hnone : OneRight s hs none → False := fun hy => hx (by simpa using hy x hr)
  cases hch with
  | @queued t j g c hr' ht hg hb hj ho =>
    obtain rfl := honly r ho
    exact .inl ⟨th, t, j, g, c, hth, hnow, hd, hL, hr', ht, hg, hb, hj, ho⟩
  | @running d t n i g c callers ps _ _ _ ho => exact (hnone ho).elim
  | @waiting d t n i g k callers ps ht hg hcs ho =>
    obtain rfl := honly t ho
    exact .inr ⟨r, th, n, i, g, k, callers, ps, hth, hnow, hL, ht, hg, hd ▸ hcs, ho⟩
  | released _ _ _ _ _ ho => exact (hnone ho).elim
  | gone _ => simp at hr

/-- **No coroutine can be resumed twice.** -/
theorem Layout.one_right (h : Layout s a L) (x : Handle) : s.rights x ≤ 1 := by
  by_cases hx : s.rights x = 0
  · omega
  · rcases h.right_holder hx with
      ⟨th, q, j, g, c, -, -, -, -, -, -, -, -, -, ho⟩ | ⟨r, th, n, i, g, k, callers, ps, -, -, -, -, -, -, ho⟩
    · simp [ho x (by simp)]
    · simp [ho x (by simp)]

/-- The first run of a detached task: its context is the one of the frame that runs it. -/
theorem Layout.start (h : Layout s a L) {j : Inner} (hr : a.threads r = some th) (hnow : th.now = .running g c [])
    (hd : th.detached = true) (hL : L r = [r, t]) (hfr : s.frames r = some (.detach ⟨false, t, some j⟩))
    (hft : s.frames t = some (.task ⟨.initial c, none, none, .monostate⟩)) (hg : s.Shows j g)
    (hb : s.blocked r = none) (hj : r ∈ s.jobs) (ho : OneRight s [r, t] (some r)) (b : Bool) :
    ∃ s', { s with jobs := s.jobs.erase r }.resume r b = .ok s' ∧ s'.log = s.log ∧ s'.errors = s.errors ∧
      Layout s' a L := by
  obtain ⟨m, hm⟩ := hg
  have hrt : r ≠ t := by
    have := (h.chain r th hr).nodup
    rw [hL] at this
    simpa using this
  have huses : ∀ x, s.uses (L r) x = if x = j then 1 else 0 := by
    intro x
    have h1 : s.ctxAt r = some j := by simp [State.ctxAt, hfr, Frame.ctx]
    have h2 : s.ctxAt t = none := by simp [State.ctxAt, hft, Frame.ctx]
    rw [hL]
    simp [State.uses_cons, h1, h2, eq_comm]
  have hheld : 0 < s.uses (L r) j := by simp [huses]
  obtain ⟨s', hs'⟩ : ∃ s', s' = { s with
    frames := Function.update (Function.update s.frames r (some (.detach ⟨true, t, some j⟩))) t
      (some (.task ⟨.running c, some j, some r, .monostate⟩))
    inners := Function.update s.inners j (some ⟨g, m + 1⟩)
    jobs := s.jobs.erase r } := ⟨_, rfl⟩
  have huses' : ∀ x, s'.uses [r, t] x = s.uses (L r) x + if x = j then 1 else 0 := by
    intro x
    have h1 : s'.ctxAt r = some j := by simp [State.ctxAt, hs', hrt, Frame.ctx]
    have h2 : s'.ctxAt t = some j := by simp [State.ctxAt, hs', Frame.ctx]
    rw [huses]
    simp [State.uses_cons, h1, h2, eq_comm]
  refine ⟨s', ?_, by rw [hs'], by rw [hs'], ?_⟩
  · simp only [State.resume, hfr, Bool.false_eq_true, if_false]
    rw [State.next_inherits (f := ⟨.initial c, none, none, .monostate⟩) (p := .detach ⟨true, t, some j⟩) (i := j)
      (x := ⟨g, m⟩)]
    · simp only [ok_bind]
      rw [State.start_eq (f := ⟨.initial c, some j, some r, .monostate⟩) (c := c)]
      · simp [hs', State.setFrame, State.setInner]
      · simp [State.setFrame]
      · rfl
    · simpa [State.setFrame, hrt.symm] using hft
    · rfl
    · simp [State.setFrame]
    · rfl
    · simpa [State.setFrame] using hm
  · have ha : (⟨Function.update a.threads r (some th), a.log, a.errors⟩ : Sys C V E G A R) = a := by
      rw [← hr, Function.update_eq_self]
    rw [← ha, ← Function.update_eq_self r L, hL]
    refine h.update th a.log a.errors ?_ ?_ ?_ ?_ ?_
    · constructor
      · intro x hx _
        simp only [hL, List.mem_cons, List.not_mem_nil, or_false, not_or] at hx
        simp [hs', hx.1, hx.2]
      · exact fun x hx hx' => absurd (hL ▸ hx) hx'
      · exact fun x hx => .inl (by rwa [hL])
      · rw [hs']
      · rw [hs']
      · rw [show s'.inners = Function.update s.inners j (some ⟨g, m + 1⟩) by rw [hs']]
        exact (h.tally r).copy hheld hm huses'
      · intro x hx
        rw [hs']
        refine h.held (r := r) ?_
        rw [huses', huses] at hx
        rw [huses]
        split at hx
        · rw [if_pos ‹_›]
          exact Nat.one_pos
        · simp at hx
      · exact fun q _ => by rw [hs']
      · exact fun _ => by simp
      · exact fun x _ _ => by rw [hs']
      · intro x hx _
        simp only [hL, List.mem_cons, List.not_mem_nil, or_false, not_or] at hx
        simp [hs', List.count_erase_of_ne hx.1]
    · rw [hnow, hd]
      refine .running (i := j) (n := r) (by simp [hs']) ⟨m + 1, by simp [hs']⟩
        (.detached (j := j) (by simp [hs', hrt]) (by simp [hs', hb])) ?_
      intro x hx
      have hx' := ho x hx
      by_cases hxr : x = r
      · subst hxr
        have hpos := List.count_pos_iff.mpr hj
        simp only [State.rights, hs', List.count_erase_self, if_true] at hx' ⊢
        simp only [reduceCtorEq, if_false]
        omega
      · simpa [State.rights, hs', List.count_erase_of_ne hxr, hxr] using hx'
    · simpa using hrt
    · rw [hs']
      exact h.mem_lt_fresh (r := r) (by simp [hL])
    · intro q o hq
      have hq : s.returned q = some o := by rwa [hs'] at hq
      exact .inl ⟨hq, fun he => absurd he (h.not_returned hr (by simp [hnow]) hq)⟩

/-- A signal lets go of the task it holds, and its executor has it. -/
theorem Layout.wake (h : Layout s a L) (ht : t ∈ s.signals) : ∃ f s', s.task t = .ok f ∧
    { s with signals := s.signals.erase t }.dispatch f.ctx t = .ok s' ∧ s'.log = s.log ∧ s'.errors = s.errors ∧
      Layout s' a L := by
  have hpos := List.count_pos_iff.mpr ht
  rcases h.right_holder (x := t) (by unfold State.rights; omega) with
    ⟨-, u, -, -, -, -, -, -, -, -, -, -, -, hj, ho⟩ | ⟨r, th, n, i, g, k, callers, ps, hr, hnow, hL, hf, ⟨m, hm⟩, hcs, ho⟩
  · -- the frame that runs a detached task is held by no signal
    have h1 := ho t (by simp)
    have h2 := List.count_pos_iff.mpr hj
    simp only [State.rights, if_true] at h1
    omega
  · refine ⟨_, { s with signals := s.signals.erase t, jobs := s.jobs ++ [t] }, State.task_eq hf, ?_, ?_, ?_, ?_⟩
    · simp [State.dispatch, State.inner, hm]
    · rfl
    · rfl
    · have hself : s.setFrame t (.task ⟨.waiting k, some i, some n, .monostate⟩) = s := by
        rw [State.setFrame, ← hf, Function.update_eq_self]
      have := h.point t (.task ⟨.waiting k, some i, some n, .monostate⟩) (s.signals.erase t) (s.jobs ++ [t]) s.log
        s.errors th a.log a.errors hr (by simp [hnow]) (by simp [hL]) (by simp [hL]) (by simp [State.ctxAt, hf])
        (fun x hx => List.count_erase_of_ne hx) (fun x hx => by
          rw [List.count_append, List.count_eq_zero_of_not_mem (show x ∉ [t] by simpa using hx), Nat.add_zero]) ?_
      · rw [hself, ← hr, Function.update_eq_self] at this
        exact this
      · rw [hself, hnow, hL]
        refine .waiting (i := i) (n := n) hf ⟨m, hm⟩ ?_ ?_
        · exact hcs.congr rfl rfl (fun p _ => rfl) fun p _ j g' _ hg => hg
        · intro x hx
          have hx' := ho x hx
          by_cases hxt : x = t
          · subst hxt
            simp only [State.rights, if_true, List.count_erase_self, List.count_append,
              List.count_singleton_self] at hx' ⊢
            omega
          · have h0 : List.count x [t] = 0 := List.count_eq_zero_of_not_mem (by simpa using hxt)
            simpa [State.rights, List.count_erase_of_ne hxt, List.count_append, h0] using hx'

/-- A task that has waited goes on. -/
theorem Layout.answered (h : Layout s a L) {n : Handle} {k : Bool → C} (hr : a.threads r = some th)
    (hnow : th.now = .waiting g k callers) (hL : L r = r :: t :: ps)
    (hf : s.frames t = some (.task ⟨.waiting k, some i, some n, .monostate⟩)) (hg : s.Shows i g)
    (hcs : Callers s r th.detached t n callers ps) (ho : OneRight s (r :: t :: ps) (some t)) (hj : t ∈ s.jobs)
    (b : Bool) (trace : List (Event C G A R)) (alog : List (Nat × Event C G A R)) (aerrors : List E) :
    ∃ s', { s with jobs := s.jobs.erase t }.resume t b = .ok s' ∧ s'.log = s.log ++ [.answered b] ∧
      s'.errors = s.errors ∧
      Layout s' ⟨Function.update a.threads r (some { th with trace := trace, now := .running g (k b) callers }), alog,
        aerrors⟩ L := by
  obtain ⟨⟨hrt, -⟩, htps, -⟩ : (r ≠ t ∧ r ∉ ps) ∧ t ∉ ps ∧ ps.Nodup := by
    have := (h.chain r th hr).nodup
    rw [hL] at this
    simpa using this
  refine ⟨{ s.setFrame t (.task ⟨.running (k b), some i, some n, .monostate⟩) with
    signals := s.signals, jobs := s.jobs.erase t, log := s.log ++ [.answered b], errors := s.errors }, ?_, rfl, rfl, ?_⟩
  · simp [State.resume, hf, State.setFrame]
  · apply h.point t _ _ _ _ _ _ _ _ hr (by simp [hnow]) (by simp [hL]) (by simp [hL])
    · simp [State.ctxAt, hf, Frame.ctx]
    · exact fun x _ => rfl
    · exact fun x hx => List.count_erase_of_ne hx
    · rw [hL]
      refine .running (i := i) (n := n) (by simp [State.setFrame]) hg ?_ ?_
      · refine hcs.congr (by simp [State.setFrame, hrt]) rfl (fun p hp => ?_) fun p _ j g' _ hg => hg
        have hpt : p ≠ t := fun he => htps (he ▸ hp)
        simp [State.setFrame, hpt]
      · intro x hx
        have hx' := ho x hx
        by_cases hxt : x = t
        · subst hxt
          have hpos := List.count_pos_iff.mpr hj
          simp only [State.rights, if_true, List.count_erase_self] at hx' ⊢
          simp only [reduceCtorEq, if_false]
          omega
        · simpa [State.rights, State.setFrame, List.count_erase_of_ne hxt, hxt] using hx'

/-- The blocked thread takes the result, and nothing is left of the chain. -/
theorem Layout.acquired (h : Layout s a L) (hb : s.blocked r = some ⟨t, true⟩) :
    ∃ s' o th, s.acquired r t = .ok s' ∧ s'.log = s.log ∧ s'.errors = s.errors ∧ a.threads r = some th ∧
      th.now = .ended o ∧ s'.returned = Function.update s.returned r (some o) ∧
      Layout s' a (Function.update L r []) := by
  have hr : r ∈ L r := h.blocked r (by simp [hb])
  obtain ⟨th, hth⟩ := h.thread_of_mem hr
  have hch := h.chain r th hth
  have hlinks := hch.links
  obtain ⟨i, o, res, hnow, hL, hfr, hft, hres, ho⟩ : ∃ i o res, th.now = .ended o ∧ L r = [r, t] ∧
      s.frames r = some (.shell true) ∧ s.frames t = some (.task ⟨.final, some i, some r, res⟩) ∧
      res.unwrap = .ok o ∧ OneRight s [r, t] none := by
    generalize hnow : th.now = now at hlinks
    generalize hd : th.detached = d at hlinks
    generalize hL : L r = hs at hlinks hr
    have hroot : ∀ d t' n callers ps, Callers s r d t' n callers ps → False := by
      intro d t' n callers ps hcs
      induction hcs with
      | detached _ hb' => simp [hb] at hb'
      | blocked _ hb' => simp [hb] at hb'
      | caller _ _ _ ih => exact ih
    cases hlinks with
    | queued _ _ _ hb' _ _ => simp [hb] at hb'
    | running _ _ hcs _ => exact (hroot _ _ _ _ _ hcs).elim
    | waiting _ _ hcs _ => exact (hroot _ _ _ _ _ hcs).elim
    | @released t' i o res hfr hb' hft hres ho =>
      obtain rfl : t' = t := by simpa [hb] using hb'.symm
      exact ⟨i, o, res, rfl, rfl, hfr, hft, hres, ho⟩
    | gone hb' => simp [hb] at hb'
  have hrt : r ≠ t := by
    have := hch.nodup
    rw [hL] at this
    simpa using this
  have huses : ∀ x, s.uses (L r) x = 0 + if x = i then 1 else 0 := by
    intro x
    rw [hL]
    simp [State.uses_cons, State.ctxAt, hfr, hft, Frame.ctx, eq_comm]
  obtain ⟨x, hx⟩ := (h.tally r).held (j := i) (by simp [huses])
  obtain ⟨s', hs'⟩ : ∃ s', s' = { s with
    frames := Function.update (Function.update s.frames r none) t none
    inners := Function.update s.inners i (State.dropped x)
    blocked := Function.update s.blocked r none
    returned := Function.update s.returned r (some o) } := ⟨_, rfl⟩
  refine ⟨s', o, th, ?_, by rw [hs'], by rw [hs'], hth, hnow, by rw [hs'], ?_⟩
  · simp only [State.acquired, State.awaitResume_eq hft hres, ok_bind]
    rw [State.destroyTask_eq (f := ⟨.final, some i, some r, res⟩) (i := i) (x := x)
      (by simpa [State.freeFrame, hrt.symm] using hft) rfl rfl (by simpa [State.freeFrame] using hx), hs']
    simp [State.freeFrame, State.setInner]
  · have ha : (⟨Function.update a.threads r (some { th with trace := th.trace, now := .ended o }), a.log, a.errors⟩ :
        Sys C V E G A R) = a := by
      rw [← hnow, ← hth, Function.update_eq_self]
    rw [← ha]
    refine h.ends hth hL (by rw [hs']) ?_ (by rw [hs']) (by rw [hs']) ?_ (by rw [hs']) (by rw [hs']) (by rw [hs']) ?_
      th.trace a.log a.errors
    · intro y hy
      simpa [State.rights, hs'] using ho y hy
    · rw [show s'.inners = Function.update s.inners i (State.dropped x) by rw [hs']]
      exact (h.tally r).drop (by simp [huses]) hx huses
    · intro q o' hq
      rw [hs'] at hq
      by_cases hqr : q = r
      · subst hqr
        exact .inr ⟨rfl, by simpa [eq_comm] using hq⟩
      · exact .inl ⟨by simpa [hqr] using hq, hqr⟩

/-- **`co_yield` and `detach(ctx)`** in a task: a chain begins, and the task goes on. -/
theorem Front.spawn (hF : Front s a L r t n i th g c callers ps) (h : Layout s a L) (b : Option G) (child k : C)
    (trace : List (Event C G A R)) (alog : List (Nat × Event C G A R)) (aerrors : List E) :
    ∃ s' L', s.spawn t ⟨.running c, some i, some n, .monostate⟩ b child k = .ok s' ∧
      s'.log = s.log ++ [.spawned (b.getD g) child] ∧ s'.errors = s.errors ∧
      Layout s' ⟨Function.update
          (Function.update a.threads (s.fresh + 1) (some (.begin (b.getD g) child true))) r
          (some { th with trace := trace, now := .running g k callers }), alog, aerrors⟩ L' := by
  obtain ⟨m, hm⟩ := hF.shows_
  have hlt : ∀ x ∈ L r, x < s.fresh := fun x hx => h.mem_lt_fresh hx
  have hmem : ∀ x, x ∈ r :: t :: ps → x < s.fresh := fun x hx => hlt x (by rwa [hF.frames])
  obtain ⟨s', hok, hlog, herr, hframes, hsig, hjobs, hinners, hblocked, hlay⟩ :=
    h.detach (b.getD g) child alog aerrors
  have hrd : r ≠ s.fresh + 1 := ((hmem r (by simp)).trans (Nat.lt_succ_self _)).ne
  have hF' : Front s' ⟨Function.update a.threads (s.fresh + 1) (some (.begin (b.getD g) child true)), alog, aerrors⟩
      (Function.update L (s.fresh + 1) [s.fresh + 1, s.fresh]) r t n i th g c callers ps := by
    constructor
    · simpa [hrd] using hF.thread
    · exact hF.now
    · rw [Function.update_of_ne hrd]
      exact hF.frames
    · exact (hframes t (hmem t (by simp))).trans hF.frame
    · exact ⟨m, (hinners i (h.held hF.held)).trans hm⟩
    · refine hF.callers.congr (hframes r (hmem r (by simp))) (hblocked r (hmem r (by simp)))
        (fun p hp => hframes p (hmem p (by simp [hp]))) ?_
      rintro p hp j g' hj ⟨m', hm'⟩
      refine ⟨m', (hinners j (h.held (r := r) (State.uses_pos.mpr ⟨p, ?_, hj⟩))).trans hm'⟩
      simp [hF.frames, hp]
    · intro x hx
      rw [← hF.right x hx]
      simp [State.rights, hsig, hjobs x (hmem x hx)]
  have hpoint := hF'.point hlay (.running k) s'.signals (s'.log ++ [.spawned (b.getD g) child])
    (.running g k callers) trace alog aerrors (.inl ⟨k, rfl, rfl, rfl⟩)
  refine ⟨_, _, ?_, ?_, ?_, hpoint⟩
  · simp [State.spawn, State.inner_eq hm, hok, State.setFrame]
  · simp [hlog]
  · simpa [State.setFrame] using herr

/-! ## §3 — every step. -/

/-- The heap is laid out as the system `a`, and shows what `a` shows. -/
structure Matches (s : State C V E G A R) (a : Sys C V E G A R) : Prop where
  layout : ∃ L, Layout s a L
  log : s.log = a.log.map Prod.snd
  errors : s.errors = a.errors

variable {code : C → Instr C V E G A R}

/-- The threads of `a` are still there in `a'`, as they were started. -/
def Persists (a a' : Sys C V E G A R) : Prop :=
  ∀ i th, a.threads i = some th → ∃ th', a'.threads i = some th' ∧ th'.env = th.env ∧ th'.start = th.start

/-- What a step comes to: it does not fault, and the heap is laid out as before or as after a step of the threads. -/
def Refines (code : C → Instr C V E G A R) (a : Sys C V E G A R) (res : Except Fault (State C V E G A R)) : Prop :=
  ∃ s' a', res = .ok s' ∧ Matches s' a' ∧ (a' = a ∨ ∃ act, a.step code act = some a')

/-- A move of one thread that spawns nothing. -/
theorem Matches.move (h : Matches s a) (hr : a.threads r = some th) (m : CallStack.Move R) (now : Stack C V E G)
    (ev : List (Event C G A R)) (hm : th.now.move code m = some (now, ev)) (hev : ∀ g c, ev ≠ [.spawned g c])
    {res : Except Fault (State C V E G A R)}
    (hres : ∃ s' L', res = .ok s' ∧ s'.log = s.log ++ ev ∧
      s'.errors = s.errors ++ Thread.died { th with trace := th.trace ++ ev, now := now } ∧
      Layout s' ⟨Function.update a.threads r (some { th with trace := th.trace ++ ev, now := now }),
        a.log ++ ev.map (Prod.mk r),
        a.errors ++ Thread.died { th with trace := th.trace ++ ev, now := now }⟩ L') : Refines code a res := by
  obtain ⟨s', L', hok, hlog, herr, hlay⟩ := hres
  refine ⟨s', _, hok, ⟨⟨L', hlay⟩, ?_, ?_⟩, .inr ⟨.move r m 0, Sys.step_move hr hm hev 0⟩⟩
  · simp [hlog, h.log, Function.comp_def]
  · rw [herr, h.errors]

/-- The next instruction of a running task. -/
theorem Matches.instr (h : Matches s a) (hL : Layout s a L) (hF : Front s a L r t n i th g c callers ps)
    {act : Act C G R} (hact : act = .step t ∨ (∃ x, act = .answer t x) ∨ ∃ b, act = .ready t b)
    {res : Except Fault (State C V E G A R)} (hs : step code s act = some res) : Refines code a res := by
  have hcur : s.current code t = some (⟨.running c, some i, some n, .monostate⟩, code c) := by
    simp [State.current, hF.frame]
  obtain ⟨m, hm⟩ := hF.shows_
  rcases hact with rfl | ⟨x, rfl⟩ | ⟨b, rfl⟩
  · cases hcode : code c with
    | ret v =>
      obtain rfl : s.finish t ⟨.running c, some i, some n, .monostate⟩ (.value v) = res := by
        simpa [step, hcur, hcode] using hs
      refine h.move hF.thread .next (deliver (.ok v) callers) []
        (by simp [hF.now, Stack.move, hcode]) (by simp) ?_
      obtain ⟨s', L', h1, h2, h3, h4⟩ := hF.finish hL (.value v) (.ok v) rfl _ _ _
      exact ⟨s', L', h1, by simpa using h2, h3, h4⟩
    | throw e =>
      obtain rfl : s.finish t ⟨.running c, some i, some n, .monostate⟩ (.exception e) = res := by
        simpa [step, hcur, hcode] using hs
      refine h.move hF.thread .next (deliver (.error e) callers) []
        (by simp [hF.now, Stack.move, hcode]) (by simp) ?_
      obtain ⟨s', L', h1, h2, h3, h4⟩ := hF.finish hL (.exception e) (.error e) rfl _ _ _
      exact ⟨s', L', h1, by simpa using h2, h3, h4⟩
    | act x k => simp [step, hcur, hcode] at hs
    | call b callee k =>
      obtain rfl : s.await t ⟨.running c, some i, some n, .monostate⟩ b callee k = res := by
        simpa [step, hcur, hcode] using hs
      refine h.move hF.thread .next (.running (b.getD g) callee (⟨g, k⟩ :: callers)) []
        (by simp [hF.now, Stack.move, hcode]) (by simp) ?_
      obtain ⟨s', h1, h2, h3, h4⟩ := hF.await hL b callee k _ _ _
      exact ⟨s', _, h1, by simpa using h2, by simpa [Thread.died] using h3, h4⟩
    | wait k =>
      obtain rfl : Except.ok { s.setFrame t (.task ⟨.waiting k, some i, some n, .monostate⟩) with
          signals := s.signals ++ [t] } = res := by
        simpa [step, hcur, hcode, State.inner_eq hm] using hs
      refine h.move hF.thread .next (.waiting g k callers) []
        (by simp [hF.now, Stack.move, hcode]) (by simp) ?_
      exact ⟨_, L, rfl, by simp [State.setFrame], by simp [State.setFrame, Thread.died],
        hF.point hL _ _ _ _ _ _ _ (.inr ⟨k, rfl, rfl, rfl⟩)⟩
    | spawn b child k =>
      obtain rfl : s.spawn t ⟨.running c, some i, some n, .monostate⟩ b child k = res := by
        simpa [step, hcur, hcode] using hs
      obtain ⟨s', L', h1, h2, h3, h4⟩ := hF.spawn hL b child k (th.trace ++ [.spawned (b.getD g) child])
        (a.log ++ [(r, .spawned (b.getD g) child)]) a.errors
      have hr : r < s.fresh := hL.mem_lt_fresh (r := r) (by simp [hF.frames])
      refine ⟨s', _, h1, ⟨⟨L', h4⟩, by simp [h2, h.log], by rw [h3, h.errors]⟩,
        .inr ⟨.move r .next (s.fresh + 1), ?_⟩⟩
      exact Sys.step_spawn hF.thread (by simp [hF.now, Stack.move, hcode]) (by simp)
        (hr.trans (Nat.lt_succ_self _)).ne (hL.fresh _ (Nat.le_succ _)).1
  · cases hcode : code c with
    | act y k =>
      obtain rfl : Except.ok { s.setFrame t (.task ⟨.running (k x), some i, some n, .monostate⟩) with
          log := s.log ++ [.did g y x] } = res := by
        simpa [step, hcur, hcode, State.inner_eq hm] using hs
      refine h.move hF.thread (.answer x) (.running g (k x) callers) [.did g y x]
        (by simp [hF.now, Stack.move, hcode]) (by simp) ?_
      exact ⟨_, L, rfl, rfl, by simp [State.setFrame, Thread.died], hF.point hL _ _ _ _ _ _ _ (.inl ⟨k x, rfl, rfl, rfl⟩)⟩
    | ret v => simp [step, hcur, hcode] at hs
    | throw e => simp [step, hcur, hcode] at hs
    | call b callee k => simp [step, hcur, hcode] at hs
    | wait k => simp [step, hcur, hcode] at hs
    | spawn b child k => simp [step, hcur, hcode] at hs
  · cases hcode : code c with
    | wait k =>
      obtain rfl : Except.ok { s.setFrame t (.task ⟨.running (k b), some i, some n, .monostate⟩) with
          log := s.log ++ [.answered b] } = res := by
        simpa [step, hcur, hcode, State.inner_eq hm] using hs
      refine h.move hF.thread (.there b) (.running g (k b) callers) [.answered b]
        (by simp [hF.now, Stack.move, hcode]) (by simp) ?_
      exact ⟨_, L, rfl, rfl, by simp [State.setFrame, Thread.died], hF.point hL _ _ _ _ _ _ _ (.inl ⟨k b, rfl, rfl, rfl⟩)⟩
    | ret v => simp [step, hcur, hcode] at hs
    | throw e => simp [step, hcur, hcode] at hs
    | act y k => simp [step, hcur, hcode] at hs
    | call b callee k => simp [step, hcur, hcode] at hs
    | spawn b child k => simp [step, hcur, hcode] at hs

/-- **Every step of the runtime** does not fault, and is a step of the threads or none. -/
theorem Matches.step (h : Matches s a) {act : Act C G R} {res : Except Fault (State C V E G A R)}
    (hs : step code s act = some res) : Refines code a res := by
  obtain ⟨L, hL⟩ := h.layout
  have hinstr : ∀ t, act = .step t ∨ (∃ x, act = .answer t x) ∨ (∃ b, act = .ready t b) → Refines code a res := by
    intro t hact
    cases hc : s.current code t with
    | none => rcases hact with rfl | ⟨x, rfl⟩ | ⟨b, rfl⟩ <;> simp [Frames.step, hc] at hs
    | some q =>
      obtain ⟨r, n, i, th, g, c, callers, ps, hF, -, -⟩ := hL.front hc
      exact h.instr hL hF hact hs
  have hnone : a.threads (s.fresh + 1) = none := (hL.fresh _ (Nat.le_succ _)).1
  cases act with
  | step t => exact hinstr t (.inl rfl)
  | answer t x => exact hinstr t (.inr (.inl ⟨x, rfl⟩))
  | ready t b => exact hinstr t (.inr (.inr ⟨b, rfl⟩))
  | block b own c =>
    obtain rfl : s.block b own c = res := by simpa [Frames.step] using hs
    obtain ⟨s', h1, h2, h3, h4⟩ := hL.block b own c a.log a.errors
    exact ⟨s', _, h1, ⟨⟨_, h4⟩, by rw [h2, h.log], by rw [h3, h.errors]⟩,
      .inr ⟨.start (s.fresh + 1) (b.getD own) c false, by simp [Sys.step, hnone]⟩⟩
  | detach g c =>
    obtain rfl : (s.newTask c).detach s.fresh g = res := by simpa [Frames.step] using hs
    obtain ⟨s', h1, h2, h3, -, -, -, -, -, h4⟩ := hL.detach g c a.log a.errors
    exact ⟨s', _, h1, ⟨⟨_, h4⟩, by rw [h2, h.log], by rw [h3, h.errors]⟩,
      .inr ⟨.start (s.fresh + 1) g c true, by simp [Sys.step, hnone]⟩⟩
  | acquire sh =>
    obtain ⟨t, hb, rfl⟩ : ∃ t, s.blocked sh = some ⟨t, true⟩ ∧ s.acquired sh t = res := by
      simp only [Frames.step] at hs
      split at hs
      · exact ⟨_, ‹_›, Option.some.inj hs⟩
      · simp at hs
    obtain ⟨s', o, th, h1, h2, h3, -, -, -, h4⟩ := hL.acquired hb
    exact ⟨s', a, h1, ⟨⟨_, h4⟩, by rw [h2, h.log], by rw [h3, h.errors]⟩, .inl rfl⟩
  | wake t =>
    simp only [Frames.step, Option.ite_none_right_eq_some, Option.some.injEq] at hs
    obtain ⟨ht, rfl⟩ := hs
    obtain ⟨f, s', h0, h1, h2, h3, h4⟩ := hL.wake ht
    refine ⟨s', a, ?_, ⟨⟨L, h4⟩, by rw [h2, h.log], by rw [h3, h.errors]⟩, .inl rfl⟩
    simpa [h0] using h1
  | run t b =>
    simp only [Frames.step, Option.ite_none_right_eq_some, Option.some.injEq] at hs
    obtain ⟨ht, rfl⟩ := hs
    have hpos := List.count_pos_iff.mpr ht
    rcases hL.right_holder (x := t) (by unfold State.rights; omega) with
      ⟨th, u, j, g, c, hr, hnow, hd, hLr, hfr, hft, hg, hb, hj, ho⟩ |
      ⟨r, th, n, i, g, k, callers, ps, hr, hnow, hLr, hf, hg, hcs, ho⟩
    · obtain ⟨s', h1, h2, h3, h4⟩ := hL.start hr hnow hd hLr hfr hft hg hb hj ho b
      exact ⟨s', a, h1, ⟨⟨L, h4⟩, by rw [h2, h.log], by rw [h3, h.errors]⟩, .inl rfl⟩
    · refine h.move hr (.there b) (.running g (k b) callers) [.answered b]
        (by simp [hnow, Stack.move]) (by simp) ?_
      obtain ⟨s', h1, h2, h3, h4⟩ := hL.answered hr hnow hLr hf hg hcs ho ht b _ _ _
      exact ⟨s', L, h1, h2, by simpa [Thread.died] using h3, h4⟩

end NetCpp.Coro.Frames
