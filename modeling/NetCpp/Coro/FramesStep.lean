/-
# NetCpp.Coro.FramesStep — every step of the frames is a move of a call stack, or none.

Each function of the source is evaluated once, on the frames it meets in a chain (`attach_eq`, `next_eq`, …); then each
kind of step is one application of the frame rule.  What remains is bookkeeping for the counts: a context is made,
copied or dropped, and `Tally` says that the counts go along.
-/
import NetCpp.Coro.FramesStack

namespace NetCpp.Coro.Frames

open NetCpp.Lib
open NetCpp.Lib.CallStack (Instr Event Stack Caller Thread Sys)

variable {C V E G A R : Type}

/-! ## §1 — the functions, on the frames they meet. -/

namespace State

variable {s : State C V E G A R} {t h : Handle} {i : Inner} {f : TaskFrame C V E} {x : RcInner G} {g : G}

theorem task_eq (ht : s.frames t = some (.task f)) : s.task t = .ok f := by
  simp [task, ht]

theorem inner_eq (hi : s.inners i = some x) : s.inner (some i) = .ok x := by
  simp [inner, hi]

theorem copyRc_eq (hi : s.inners i = some x) :
    s.copyRc (some i) = .ok (s.setInner i (some { x with refCount := x.refCount + 1 })) := by
  simp [copyRc, inner_eq hi]

/-- What `~Rc` leaves at the address. -/
def dropped (x : RcInner G) : Option (RcInner G) :=
  if x.refCount = 1 then none else some { x with refCount := x.refCount - 1 }

theorem dropRc_eq (hi : s.inners i = some x) : s.dropRc (some i) = .ok (s.setInner i (dropped x)) := by
  by_cases h1 : x.refCount = 1
  · simp [dropRc, inner_eq hi, dropped, h1]
  · simp [dropRc, inner_eq hi, dropped, h1]

theorem attach_eq (ht : s.frames t = some (.task f)) (hc : f.ctx = none) :
    s.attach t g = .ok ((s.makeRc g).setFrame t (.task { f with ctx := some s.freshInner })) := by
  simp [attach, task_eq ht, hc, dropRc, assertUnique, inner, makeRc, setInner, setFrame]

/-- A task without a context gets its continuation's. -/
theorem next_inherits {p : Frame C V E} (ht : s.frames t = some (.task f)) (hc : f.ctx = none)
    (hh : s.frames h = some p) (hp : p.ctx = some i) (hi : s.inners i = some x) :
    s.next t h = .ok ((s.setInner i (some { x with refCount := x.refCount + 1 })).setFrame t
      (.task { f with next := some h, ctx := some i })) := by
  cases p with
  | shell done => simp [Frame.ctx] at hp
  | task q => simp [next, task_eq ht, hh, hc, hp, copyRc_eq hi]
  | detach d => simp [next, task_eq ht, hh, hc, hp, copyRc_eq hi]

theorem next_keeps {p : Frame C V E} (ht : s.frames t = some (.task f)) (hc : f.ctx = some i)
    (hh : s.frames h = some p) : s.next t h = .ok (s.setFrame t (.task { f with next := some h })) := by
  cases p with
  | shell done => simp [next, task_eq ht, hh]
  | task q => simp [next, task_eq ht, hh, hc]
  | detach d => simp [next, task_eq ht, hh, hc]

theorem start_eq {c : C} (ht : s.frames t = some (.task f)) (hp : f.point = .initial c) :
    s.start t = .ok (s.setFrame t (.task { f with point := .running c })) := by
  simp [start, task_eq ht, hp]

theorem awaitResume_eq {o : Except E V} (ht : s.frames t = some (.task f)) (ho : f.result.unwrap = .ok o) :
    s.awaitResume t = .ok o := by
  simp [awaitResume, task_eq ht, ho]

theorem destroyTask_eq (ht : s.frames t = some (.task f)) (hp : f.point = .final) (hc : f.ctx = some i)
    (hi : s.inners i = some x) : s.destroyTask t = .ok ((s.freeFrame t).setInner i (dropped x)) := by
  have hfree : (s.freeFrame t).inners i = some x := hi
  simp [destroyTask, task_eq ht, hp, hc, dropRc_eq hfree]

end State

/-! ## §2 — the counts go along. -/

section Tally

variable {D : Inner → Prop} {m₀ m : Inner → Option (RcInner G)} {u u' : Inner → Nat} {j : Inner} {x : RcInner G}

theorem Tally.congr (h : Tally D m₀ m u) (hu : ∀ i, u' i = u i) : Tally D m₀ m u' := by
  have : u' = u := funext hu
  exact this ▸ h

theorem Tally.make (h : Tally D m₀ m u) (hj : D j) (hm : m j = none) (g : G)
    (hu : ∀ i, u' i = u i + if i = j then 1 else 0) : Tally D m₀ (Function.update m j (some ⟨g, 1⟩)) u' := by
  intro i
  rw [hu i]
  by_cases hij : i = j
  · subst hij
    have h0 : u i = 0 := by
      rcases (h i).1 hj with ⟨-, h0⟩ | ⟨-, x, hx, -⟩
      · exact h0
      · simp [hm] at hx
    exact ⟨fun _ => .inr (by simp [h0]), fun hn => absurd hj hn⟩
  · simpa [hij] using h i

theorem Tally.copy (h : Tally D m₀ m u) (hj : 0 < u j) (hm : m j = some x)
    (hu : ∀ i, u' i = u i + if i = j then 1 else 0) :
    Tally D m₀ (Function.update m j (some { x with refCount := x.refCount + 1 })) u' := by
  intro i
  rw [hu i]
  by_cases hij : i = j
  · subst hij
    refine ⟨fun hD => .inr ⟨by simp, { x with refCount := x.refCount + 1 }, by simp, ?_⟩, fun hn => ?_⟩
    · rcases (h i).1 hD with ⟨hnone, -⟩ | ⟨-, y, hy, hc⟩
      · simp [hm] at hnone
      · obtain rfl : x = y := by simpa [hm] using hy
        simpa using hc
    · have := ((h i).2 hn).2
      omega
  · simpa [hij] using h i

theorem Tally.drop (h : Tally D m₀ m u) (hj : 0 < u j) (hm : m j = some x)
    (hu : ∀ i, u i = u' i + if i = j then 1 else 0) :
    Tally D m₀ (Function.update m j (State.dropped x)) u' := by
  intro i
  have hui := hu i
  by_cases hij : i = j
  · subst hij
    rw [if_pos rfl] at hui
    refine ⟨fun hD => ?_, fun hn => ?_⟩
    · rcases (h i).1 hD with ⟨hnone, -⟩ | ⟨-, y, hy, hc⟩
      · simp [hm] at hnone
      · obtain rfl : x = y := by simpa [hm] using hy
        by_cases h1 : x.refCount = 1
        · exact .inl ⟨by simp [State.dropped, h1], by omega⟩
        · exact .inr ⟨by omega, { x with refCount := x.refCount - 1 }, by simp [State.dropped, h1],
            show x.refCount - 1 = u' i by omega⟩
    · have := ((h i).2 hn).2
      omega
  · rw [if_neg hij, Nat.add_zero] at hui
    rw [← hui, Function.update_of_ne hij]
    exact h i

/-- A context that is held is there. -/
theorem Tally.held (h : Tally D m₀ m u) (hj : 0 < u j) : ∃ x, m j = some x := by
  by_cases hD : D j
  · rcases (h j).1 hD with ⟨-, h0⟩ | ⟨-, x, hx, -⟩
    · omega
    · exact ⟨x, hx⟩
  · have := ((h j).2 hD).2
    omega

end Tally

section

variable {s s' : State C V E G A R} {a : Sys C V E G A R} {L : Handle → List Handle} {r t : Handle}
  {th th' : Thread C V E G A R}

theorem Layout.inner_none (h : Layout s a L) {i : Inner} (hi : s.freshInner ≤ i) : s.inners i = none := by
  by_contra hne
  obtain ⟨q, hq⟩ := h.inners i hne
  have := h.freshInner i hi q
  omega

/-- The counts of one chain, before a step. -/
theorem Layout.tally (h : Layout s a L) (r : Handle) :
    Tally (fun i => 0 < s.uses (L r) i ∨ s.freshInner ≤ i) s.inners s.inners (s.uses (L r)) := by
  intro i
  refine ⟨?_, fun hn => ⟨rfl, ?_⟩⟩
  · rintro (hpos | hge)
    · cases hr : a.threads r with
      | none => simp [h.absent r hr] at hpos
      | some th => exact .inr ⟨hpos, (h.chain r th hr).counts i hpos⟩
    · exact .inl ⟨h.inner_none hge, h.freshInner i hge r⟩
  · push Not at hn
    omega

theorem Layout.held (h : Layout s a L) {i : Inner} (hi : 0 < s.uses (L r) i) : i < s.freshInner := by
  by_contra hge
  have := h.freshInner i (not_lt.mp hge) r
  omega

/-- A thread that has not ended has not returned. -/
theorem Layout.not_returned (h : Layout s a L) (hr : a.threads r = some th) (hnow : ∀ o, th.now ≠ .ended o)
    {q : Handle} {o : Except E V} (hq : s.returned q = some o) : q ≠ r := by
  rintro rfl
  obtain ⟨th', hth', hend⟩ := h.returned q o hq
  obtain rfl : th = th' := by simpa [hr] using hth'
  exact hnow o hend

theorem Layout.mem_ne_fresh (h : Layout s a L) (ht : t ∈ L r) : t ≠ s.fresh := by
  rintro rfl
  exact (h.fresh s.fresh le_rfl).2 r ht

theorem Layout.mem_lt_fresh (h : Layout s a L) (ht : t ∈ L r) : t < s.fresh := by
  by_contra hge
  exact (h.fresh t (not_lt.mp hge)).2 r ht

/-! ## §3 — steps that stay inside the innermost frame. -/

/-- The frames of a chain keep their contexts: nothing is to be counted. -/
theorem Layout.same_contexts (h : Layout s a L)
    (hctx : ∀ x ∈ L r, s'.ctxAt x = s.ctxAt x) (hin : s'.inners = s.inners) (hfi : s'.freshInner = s.freshInner) :
    Tally (fun i => 0 < s.uses (L r) i ∨ s.freshInner ≤ i) s.inners s'.inners (s'.uses (L r)) ∧
      ∀ i, 0 < s'.uses (L r) i → i < s'.freshInner := by
  have huses : ∀ i, s'.uses (L r) i = s.uses (L r) i := by
    intro i
    apply List.countP_congr
    intro x hx
    simp [hctx x hx]
  refine ⟨?_, fun i hi => ?_⟩
  · rw [hin]
    exact (h.tally r).congr huses
  · rw [hfi]
    exact h.held (huses i ▸ hi)

/-- A step that changes where the frame `t` stands, and who has the right to resume it. -/
theorem Layout.point (h : Layout s a L) (t : Handle) (F : Frame C V E) (signals jobs : List Handle)
    (log : List (Event C G A R)) (errors : List E) (th' : Thread C V E G A R) (alog : List (Nat × Event C G A R))
    (aerrors : List E) (hr : a.threads r = some th) (hnow : ∀ o, th.now ≠ .ended o) (hroot : r ∈ L r) (ht : t ∈ L r)
    (hctx : F.ctx = s.ctxAt t) (hsig : ∀ x, x ≠ t → signals.count x = s.signals.count x)
    (hjobs : ∀ x, x ≠ t → jobs.count x = s.jobs.count x)
    (hlinks : Links { s.setFrame t F with signals := signals, jobs := jobs, log := log, errors := errors } r
      th'.detached th'.now (L r)) :
    Layout { s.setFrame t F with signals := signals, jobs := jobs, log := log, errors := errors }
      ⟨Function.update a.threads r (some th'), alog, aerrors⟩ L := by
  have hcx : ∀ x ∈ L r,
      ({ s.setFrame t F with signals := signals, jobs := jobs, log := log, errors := errors } :
        State C V E G A R).ctxAt x = s.ctxAt x := by
    intro x _
    by_cases hxt : x = t
    · subst hxt
      simpa [State.ctxAt, State.setFrame] using hctx
    · simp [State.ctxAt, State.setFrame, hxt]
  obtain ⟨htally, hheld⟩ := h.same_contexts hcx rfl rfl
  have hne : ∀ x, x ∉ L r → x ≠ t := fun x hx he => hx (he ▸ ht)
  have hlocal : Local s { s.setFrame t F with signals := signals, jobs := jobs, log := log, errors := errors } r
      (L r) (L r) := by
    constructor
    · exact fun x hx _ => by simp [State.setFrame, hne x hx]
    · exact fun x hx hx' => absurd hx hx'
    · exact fun x hx => .inl hx
    · exact le_rfl
    · exact le_rfl
    · exact htally
    · exact hheld
    · exact fun q _ => rfl
    · exact fun _ => hroot
    · exact fun x hx _ => hsig x (hne x hx)
    · exact fun x hx _ => hjobs x (hne x hx)
  have := h.update th' alog aerrors hlocal hlinks (h.chain r th hr).nodup (h.mem_lt_fresh hroot)
    fun q o hq => .inl ⟨hq, fun he => absurd he (h.not_returned hr hnow hq)⟩
  rwa [Function.update_eq_self] at this

/-! ## §4 — who is at the front of a chain. -/

theorem Callers.root_not_task {d : Bool} {n : Handle} {callers : List (Caller C V E G)} {ps : List Handle}
    (h : Callers s r d t n callers ps) (f : TaskFrame C V E) : s.frames r ≠ some (.task f) := by
  induction h with
  | detached hr _ => simp [hr]
  | blocked hr _ => simp [hr]
  | caller _ _ _ ih => exact ih

theorem Callers.awaiting {d : Bool} {n p : Handle} {callers : List (Caller C V E G)} {ps : List Handle}
    (h : Callers s r d t n callers ps) (hp : p ∈ ps) :
    ∃ t' k i n', s.frames p = some (.task ⟨.awaiting t' k, some i, some n', .monostate⟩) := by
  induction h with
  | detached _ _ => simp at hp
  | blocked _ _ => simp at hp
  | @caller d t q n i g k callers ps hq _ _ ih =>
    rcases List.mem_cons.mp hp with rfl | hp
    · exact ⟨t, k, i, n, hq⟩
    · exact ih hp

/-- The task `t` runs at the front of the chain with the root `r`. -/
structure Front (s : State C V E G A R) (a : Sys C V E G A R) (L : Handle → List Handle) (r t n : Handle) (i : Inner)
    (th : Thread C V E G A R) (g : G) (c : C) (callers : List (Caller C V E G)) (ps : List Handle) : Prop where
  thread : a.threads r = some th
  now : th.now = .running g c callers
  frames : L r = r :: t :: ps
  frame : s.frames t = some (.task ⟨.running c, some i, some n, .monostate⟩)
  shows_ : s.Shows i g
  callers : Callers s r th.detached t n callers ps
  right : OneRight s (r :: t :: ps) none

theorem Layout.thread_of_mem (h : Layout s a L) {x : Handle} (hx : x ∈ L r) : ∃ th, a.threads r = some th := by
  cases hr : a.threads r with
  | none => simp [h.absent r hr] at hx
  | some th => exact ⟨th, rfl⟩

variable {code : C → Instr C V E G A R}

theorem Layout.front (h : Layout s a L) {f : TaskFrame C V E} {ins : Instr C V E G A R}
    (hc : s.current code t = some (f, ins)) : ∃ r n i th g c callers ps,
      Front s a L r t n i th g c callers ps ∧ code c = ins ∧ f = ⟨.running c, some i, some n, .monostate⟩ := by
  obtain ⟨c, hf, hpt, hins⟩ : ∃ c, s.frames t = some (.task f) ∧ f.point = .running c ∧ code c = ins := by
    unfold State.current at hc
    split at hc
    · rename_i f' hf
      split at hc
      · rename_i c hpt
        simp only [Option.some.injEq, Prod.mk.injEq] at hc
        obtain ⟨rfl, rfl⟩ := hc
        exact ⟨c, hf, hpt, rfl⟩
      · simp at hc
    · simp at hc
  obtain ⟨r, hr⟩ := h.frames t (by simp [hf])
  obtain ⟨th, hth⟩ := h.thread_of_mem hr
  have hch := (h.chain r th hth).links
  generalize hnow : th.now = now at hch
  generalize hd : th.detached = d at hch
  generalize hL : L r = hs at hch hr
  cases hch with
  | @queued t' j g c' hr' ht' _ _ _ _ =>
    rcases List.mem_pair.mp hr with rfl | rfl
    · simp [hf] at hr'
    · obtain rfl := Frame.task.inj (Option.some.inj (hf.symm.trans ht'))
      simp at hpt
  | @running d t' n i g c' callers ps ht' hg hcs ho =>
    rcases List.mem_cons.mp hr with rfl | hr
    · exact absurd hf (hcs.root_not_task f)
    · rcases List.mem_cons.mp hr with rfl | hr
      · obtain rfl := Frame.task.inj (Option.some.inj (hf.symm.trans ht'))
        obtain rfl : c' = c := by simpa using hpt
        exact ⟨r, n, i, th, g, c', callers, ps, ⟨hth, hnow, hL, hf, hg, hd ▸ hcs, ho⟩, hins, rfl⟩
      · obtain ⟨t'', k, i', n', hp⟩ := hcs.awaiting hr
        obtain rfl := Frame.task.inj (Option.some.inj (hf.symm.trans hp))
        simp at hpt
  | @waiting d t' n i g k callers ps ht' hg hcs ho =>
    rcases List.mem_cons.mp hr with rfl | hr
    · exact absurd hf (hcs.root_not_task f)
    · rcases List.mem_cons.mp hr with rfl | hr
      · obtain rfl := Frame.task.inj (Option.some.inj (hf.symm.trans ht'))
        simp at hpt
      · obtain ⟨t'', k', i', n', hp⟩ := hcs.awaiting hr
        obtain rfl := Frame.task.inj (Option.some.inj (hf.symm.trans hp))
        simp at hpt
  | @released t' i o res hr' _ ht' _ _ =>
    rcases List.mem_pair.mp hr with rfl | rfl
    · simp [hf] at hr'
    · obtain rfl := Frame.task.inj (Option.some.inj (hf.symm.trans ht'))
      simp at hpt
  | gone _ => simp at hr

section Front

variable {n : Handle} {i : Inner} {g : G} {c : C} {callers : List (Caller C V E G)} {ps : List Handle}

theorem Front.nodup (hF : Front s a L r t n i th g c callers ps) (h : Layout s a L) : (r :: t :: ps).Nodup :=
  hF.frames ▸ (h.chain r th hF.thread).nodup

theorem Front.not_ended (hF : Front s a L r t n i th g c callers ps) (o : Except E V) : th.now ≠ .ended o := by
  simp [hF.now]

theorem Front.held (hF : Front s a L r t n i th g c callers ps) : 0 < s.uses (L r) i := by
  rw [hF.frames, State.uses_pos]
  exact ⟨t, by simp, by simp [State.ctxAt, hF.frame, Frame.ctx]⟩

/-- The innermost task goes on, or waits. -/
theorem Front.point (hF : Front s a L r t n i th g c callers ps) (h : Layout s a L) (pt : Point C V E)
    (signals : List Handle) (log : List (Event C G A R)) (now : Stack C V E G) (trace : List (Event C G A R))
    (alog : List (Nat × Event C G A R)) (aerrors : List E)
    (hpt : (∃ c', pt = .running c' ∧ signals = s.signals ∧ now = .running g c' callers) ∨
      ∃ k, pt = .waiting k ∧ signals = s.signals ++ [t] ∧ now = .waiting g k callers) :
    Layout { s.setFrame t (.task ⟨pt, some i, some n, .monostate⟩) with signals := signals, log := log }
      ⟨Function.update a.threads r (some { th with trace := trace, now := now }), alog, aerrors⟩ L := by
  obtain ⟨hrt, htps⟩ : r ∉ t :: ps ∧ (t :: ps).Nodup := List.nodup_cons.mp (hF.nodup h)
  have hne : ∀ x, x ∈ r :: ps → x ≠ t := by
    intro x hx he
    subst he
    rcases List.mem_cons.mp hx with rfl | hx
    · exact hrt (by simp)
    · exact (List.nodup_cons.mp htps).1 hx
  have hcs : ∀ s' : State C V E G A R, s'.frames = (s.setFrame t (.task ⟨pt, some i, some n, .monostate⟩)).frames →
      s'.inners = s.inners → s'.blocked = s.blocked → Callers s' r th.detached t n callers ps := by
    intro s' hf hi hb
    apply hF.callers.congr
    · simp [hf, State.setFrame, hne r (by simp)]
    · rw [hb]
    · exact fun p hp => by simp [hf, State.setFrame, hne p (by simp [hp])]
    · exact fun p hp j g' _ ⟨m, hm⟩ => ⟨m, by rw [hi]; exact hm⟩
  apply h.point t (.task ⟨pt, some i, some n, .monostate⟩) signals s.jobs log s.errors _ alog aerrors hF.thread
    hF.not_ended (by simp [hF.frames]) (by simp [hF.frames])
  · simp [State.ctxAt, hF.frame, Frame.ctx]
  · rcases hpt with ⟨c', rfl, rfl, rfl⟩ | ⟨k, rfl, rfl, rfl⟩
    · exact fun x hx => rfl
    · intro x hx
      rw [List.count_append, List.count_eq_zero_of_not_mem (show x ∉ [t] by simpa using hx), Nat.add_zero]
  · exact fun x hx => rfl
  · rw [hF.frames]
    rcases hpt with ⟨c', rfl, rfl, rfl⟩ | ⟨k, rfl, rfl, rfl⟩
    · exact .running (by simp [State.setFrame]) hF.shows_ (hcs _ rfl rfl rfl) hF.right
    · refine .waiting (by simp [State.setFrame]) hF.shows_ (hcs _ rfl rfl rfl) ?_
      intro x hx
      have h0 : s.signals.count x + s.jobs.count x = 0 := by simpa [State.rights] using hF.right x hx
      by_cases hxt : x = t
      · subst hxt
        simp only [State.rights, List.count_append, List.count_singleton_self, if_pos]
        omega
      · simp only [State.rights, List.count_append, Option.some.injEq, if_neg hxt]
        rw [List.count_eq_zero_of_not_mem (show x ∉ [t] by simpa using hxt)]
        omega

end Front

end

end NetCpp.Coro.Frames
