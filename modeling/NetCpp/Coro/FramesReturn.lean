/-
# NetCpp.Coro.FramesReturn — frames come and go: calls, returns, and the ends of chains.

The steps that change which frames a chain has.  A call puts a task in front, with a context of its own or a share of
its caller's; the end of a task takes it away again, and the outcome goes to the caller, to the log of a detached task,
or to the thread in `block()`.
-/
import NetCpp.Coro.FramesStep

namespace NetCpp.Coro.Frames

open NetCpp.Lib
open NetCpp.Lib.CallStack (Instr Event Stack Caller Thread Sys errorOf deliver)

variable {C V E G A R : Type} {s s' : State C V E G A R} {a : Sys C V E G A R} {L : Handle → List Handle}
  {r t n : Handle} {th : Thread C V E G A R} {i : Inner} {g : G} {c : C} {callers : List (Caller C V E G)}
  {ps : List Handle}

/-! ## §1 — a call. -/

/-- A new task in front of `t`, whose context `j` shows `g'`. -/
theorem Front.call (hF : Front s a L r t n i th g c callers ps) (h : Layout s a L) (trace : List (Event C G A R))
    (alog : List (Nat × Event C G A R)) (aerrors : List E) {j : Inner} {g' : G} {callee : C}
    {k : Except E V → C}
    (hframes : s'.frames = Function.update
      (Function.update s.frames t (some (.task ⟨.awaiting s.fresh k, some i, some n, .monostate⟩)))
      s.fresh (some (.task ⟨.running callee, some j, some t, .monostate⟩)))
    (hfresh : s'.fresh = s.fresh + 1) (hfi : s.freshInner ≤ s'.freshInner)
    (htally : ∀ u, (∀ x, u x = s.uses (L r) x + if x = j then 1 else 0) →
      Tally (fun x => 0 < s.uses (L r) x ∨ s.freshInner ≤ x) s.inners s'.inners u)
    (hj : j < s'.freshInner) (hshows : s'.Shows j g') (hkeeps : ∀ x g, 0 < s.uses (L r) x → s.Shows x g → s'.Shows x g)
    (hb : s'.blocked = s.blocked) (hsig : s'.signals = s.signals) (hjobs : s'.jobs = s.jobs)
    (hret : s'.returned = s.returned) :
    Layout s' ⟨Function.update a.threads r
        (some { th with trace := trace, now := .running g' callee (⟨g, k⟩ :: callers) }), alog, aerrors⟩
      (Function.update L r (r :: s.fresh :: t :: ps)) := by
  have hnodup := hF.nodup h
  obtain ⟨hrt, htps, hps⟩ : (r ≠ t ∧ r ∉ ps) ∧ t ∉ ps ∧ ps.Nodup := by simpa using hnodup
  have hne : ∀ x ∈ L r, x ≠ s.fresh := fun x hx => h.mem_ne_fresh hx
  have hmem : ∀ x, x ∈ L r ↔ x = r ∨ x = t ∨ x ∈ ps := by simp [hF.frames]
  have hold : ∀ x, x ≠ t → x ≠ s.fresh → s'.frames x = s.frames x := by
    intro x hxt hxf
    simp [hframes, hxt, hxf]
  have hcx : ∀ x, x ≠ s.fresh → s'.ctxAt x = s.ctxAt x := by
    intro x hxf
    by_cases hxt : x = t
    · subst hxt
      simp [State.ctxAt, hframes, hxf, hF.frame, Frame.ctx]
    · simp [State.ctxAt, hold x hxt hxf]
  have huses : ∀ x, s'.uses (r :: s.fresh :: t :: ps) x = s.uses (L r) x + if x = j then 1 else 0 := by
    intro x
    have hu : s'.uses ps x = s.uses ps x := by
      apply List.countP_congr
      intro y hy
      simp [hcx y (hne y ((hmem y).mpr (.inr (.inr hy))))]
    have hnew : s'.ctxAt s.fresh = some j := by simp [State.ctxAt, hframes, Frame.ctx]
    rw [hF.frames]
    simp only [State.uses_cons, hu, hnew, hcx r (hne r ((hmem r).mpr (.inl rfl))),
      hcx t (hne t ((hmem t).mpr (.inr (.inl rfl)))), Option.some.injEq, eq_comm (a := j)]
    omega
  have hlocal : Local s s' r (L r) (r :: s.fresh :: t :: ps) := by
    constructor
    · intro x hx hx'
      rw [hmem] at hx
      simp only [List.mem_cons, not_or] at hx hx'
      exact hold x hx.2.1 hx'.2.1
    · intro x hx hx'
      rw [hmem] at hx
      simp only [List.mem_cons, not_or] at hx'
      tauto
    · intro x hx
      rw [hmem]
      simp only [List.mem_cons] at hx
      rcases hx with rfl | rfl | rfl | hx
      · simp
      · exact .inr ⟨le_rfl, by rw [hfresh]; exact Nat.lt_succ_self _⟩
      · simp
      · simp [hx]
    · rw [hfresh]
      exact Nat.le_succ _
    · exact hfi
    · exact htally _ huses
    · intro x hx
      rw [huses] at hx
      by_cases hxj : x = j
      · exact hxj ▸ hj
      · rw [if_neg hxj, Nat.add_zero] at hx
        exact lt_of_lt_of_le (h.held hx) hfi
    · exact fun q _ => by rw [hb]
    · exact fun _ => by simp
    · exact fun x _ _ => by rw [hsig]
    · exact fun x _ _ => by rw [hjobs]
  refine h.update _ _ _ hlocal ?_ ?_ ?_ ?_
  · refine .running (by simp [hframes]) hshows (.caller (n := n) (i := i) ?_ ?_ ?_) ?_
    · simp [hframes, hne t ((hmem t).mpr (.inr (.inl rfl)))]
    · exact hkeeps i g hF.held hF.shows_
    · apply hF.callers.congr
      · exact hold r hrt.1 (hne r ((hmem r).mpr (.inl rfl)))
      · rw [hb]
      · exact fun p hp => hold p (fun he => htps (he ▸ hp)) (hne p ((hmem p).mpr (.inr (.inr hp))))
      · intro p hp x g'' hx hg
        exact hkeeps x g'' (State.uses_pos.mpr ⟨p, (hmem p).mpr (.inr (.inr hp)), hx⟩) hg
    · intro x hx
      have hrights : s'.rights x = s.rights x := by simp [State.rights, hsig, hjobs]
      rw [hrights]
      by_cases hxf : x = s.fresh
      · by_contra hne0
        obtain ⟨q, hq⟩ := h.rights x (by simpa using hne0)
        exact h.mem_ne_fresh hq hxf
      · apply hF.right
        simp only [List.mem_cons] at hx ⊢
        tauto
  · have h1 : s.fresh ≠ r := (hne r ((hmem r).mpr (.inl rfl))).symm
    have h2 : s.fresh ≠ t := (hne t ((hmem t).mpr (.inr (.inl rfl)))).symm
    have h3 : s.fresh ∉ ps := fun hp => hne _ ((hmem _).mpr (.inr (.inr hp))) rfl
    simp only [List.nodup_cons, List.mem_cons, not_or]
    exact ⟨⟨h1.symm, hrt⟩, ⟨h2, h3⟩, htps, hps⟩
  · rw [hfresh]
    exact (h.mem_lt_fresh ((hmem r).mpr (.inl rfl))).trans (Nat.lt_succ_self _)
  · exact fun q o hq => .inl ⟨hret ▸ hq, fun he => absurd he (h.not_returned hF.thread hF.not_ended (hret ▸ hq))⟩

/-- **`co_await callee()`** puts a task in front, whose context is its own or the caller's. -/
theorem Front.await (hF : Front s a L r t n i th g c callers ps) (h : Layout s a L) (b : Option G) (callee : C)
    (k : Except E V → C) (trace : List (Event C G A R)) (alog : List (Nat × Event C G A R)) (aerrors : List E) :
    ∃ s', s.await t ⟨.running c, some i, some n, .monostate⟩ b callee k = .ok s' ∧
      s'.log = s.log ∧ s'.errors = s.errors ∧
      Layout s' ⟨Function.update a.threads r
          (some { th with trace := trace, now := .running (b.getD g) callee (⟨g, k⟩ :: callers) }), alog, aerrors⟩
        (Function.update L r (r :: s.fresh :: t :: ps)) := by
  obtain ⟨m, hi⟩ := hF.shows_
  have htf : t ≠ s.fresh := h.mem_ne_fresh (r := r) (by simp [hF.frames])
  have hif : i ≠ s.freshInner := (h.held hF.held).ne
  cases b with
  | none =>
    refine ⟨{ s with
      frames := Function.update
        (Function.update s.frames t (some (.task ⟨.awaiting s.fresh k, some i, some n, .monostate⟩)))
        s.fresh (some (.task ⟨.running callee, some i, some t, .monostate⟩))
      fresh := s.fresh + 1
      inners := Function.update s.inners i (some ⟨g, m + 1⟩) }, ?_, rfl, rfl, ?_⟩
    · simp only [State.await, State.inner_eq hi, ok_bind]
      rw [State.next_inherits (f := ⟨.initial callee, none, none, .monostate⟩) (i := i) (x := ⟨g, m⟩)
        (p := .task ⟨.awaiting s.fresh k, some i, some n, .monostate⟩)]
      · simp only [ok_bind]
        rw [State.start_eq (f := ⟨.initial callee, some i, some t, .monostate⟩) (c := callee)]
        · simp [State.newTask, State.newFrame, State.setFrame, State.setInner, Function.update_comm htf]
        · simp [State.setFrame]
        · rfl
      · simp [State.newTask, State.newFrame, State.setFrame, htf.symm]
      · rfl
      · simp [State.setFrame]
      · rfl
      · simpa [State.newTask, State.newFrame, State.setFrame] using hi
    · apply hF.call h trace alog aerrors (j := i) <;> try rfl
      · exact fun u hu => (h.tally r).copy hF.held hi hu
      · exact h.held hF.held
      · exact ⟨m + 1, by simp⟩
      · rintro x g' hx ⟨m', hm'⟩
        by_cases hxi : x = i
        · subst hxi
          obtain ⟨rfl, rfl⟩ : g = g' ∧ m = m' := by simpa [hi] using hm'
          exact ⟨m + 1, by simp⟩
        · exact ⟨m', by simpa [hxi] using hm'⟩
  | some g' =>
    refine ⟨{ s with
      frames := Function.update
        (Function.update s.frames t (some (.task ⟨.awaiting s.fresh k, some i, some n, .monostate⟩)))
        s.fresh (some (.task ⟨.running callee, some s.freshInner, some t, .monostate⟩))
      fresh := s.fresh + 1
      inners := Function.update s.inners s.freshInner (some ⟨g', 1⟩)
      freshInner := s.freshInner + 1 }, ?_, rfl, rfl, ?_⟩
    · simp only [State.await, State.inner_eq hi, ok_bind]
      rw [State.attach_eq (f := ⟨.initial callee, none, none, .monostate⟩)]
      · simp only [ok_bind]
        rw [State.next_keeps (f := ⟨.initial callee, some s.freshInner, none, .monostate⟩) (i := s.freshInner)
          (p := .task ⟨.awaiting s.fresh k, some i, some n, .monostate⟩)]
        · simp only [ok_bind]
          rw [State.start_eq (f := ⟨.initial callee, some s.freshInner, some t, .monostate⟩) (c := callee)]
          · simp [State.newTask, State.newFrame, State.setFrame, State.setInner, State.makeRc,
              Function.update_comm htf]
          · simp [State.setFrame]
          · rfl
        · simp [State.newTask, State.newFrame, State.setFrame, State.makeRc, State.setInner, htf.symm]
        · rfl
        · simp [State.setFrame]
      · simp [State.newTask, State.newFrame, State.setFrame]
      · rfl
    · apply hF.call h trace alog aerrors (j := s.freshInner) <;> try rfl
      · exact Nat.le_succ _
      · exact fun u hu => (h.tally r).make (.inr le_rfl) (h.inner_none le_rfl) g' hu
      · exact Nat.lt_succ_self _
      · exact ⟨1, by simp⟩
      · rintro x g'' hx ⟨m', hm'⟩
        exact ⟨m', by simpa [(h.held hx).ne] using hm'⟩

/-! ## §2 — the end of a task that was awaited. -/

/-- **A task ends and its caller goes on** with the outcome: the frame goes, and its share of the context. -/
theorem Front.finish_caller {p : Handle} {ip : Inner} {np : Handle} {gp : G} {k : Except E V → C}
    (hF : Front s a L r t p i th g c (⟨gp, k⟩ :: callers) (p :: ps)) (h : Layout s a L)
    (hp : s.frames p = some (.task ⟨.awaiting t k, some ip, some np, .monostate⟩)) (hgp : s.Shows ip gp)
    (hcs : Callers s r th.detached p np callers ps) {res : Result V E} {o : Except E V} (hres : res.unwrap = .ok o)
    (trace : List (Event C G A R)) (alog : List (Nat × Event C G A R)) (aerrors : List E) :
    ∃ s', s.finish t ⟨.running c, some i, some p, .monostate⟩ res = .ok s' ∧ s'.log = s.log ∧
      s'.errors = s.errors ∧
      Layout s' ⟨Function.update a.threads r (some { th with trace := trace, now := .running gp (k o) callers }),
        alog, aerrors⟩ (Function.update L r (r :: p :: ps)) := by
  obtain ⟨⟨hrt, hrp, hrps⟩, ⟨htp, htps⟩, hpps, hps⟩ :
      (r ≠ t ∧ r ≠ p ∧ r ∉ ps) ∧ (t ≠ p ∧ t ∉ ps) ∧ p ∉ ps ∧ ps.Nodup := by
    simpa [not_or] using hF.nodup h
  obtain ⟨m, hi⟩ := hF.shows_
  have hmem : ∀ x, x ∈ L r ↔ x = r ∨ x = t ∨ x = p ∨ x ∈ ps := by simp [hF.frames]
  obtain ⟨s', hs'⟩ : ∃ s', s' = { s with
    frames := Function.update
      (Function.update s.frames p (some (.task ⟨.running (k o), some ip, some np, .monostate⟩))) t none
    inners := Function.update s.inners i (State.dropped ⟨g, m⟩) } := ⟨_, rfl⟩
  have hfr : s'.frames = Function.update
      (Function.update s.frames p (some (.task ⟨.running (k o), some ip, some np, .monostate⟩))) t none := by
    rw [hs']
  have hin : s'.inners = Function.update s.inners i (State.dropped ⟨g, m⟩) := by rw [hs']
  have hold : ∀ x, x ≠ t → x ≠ p → s'.frames x = s.frames x := by
    intro x hxt hxp
    simp [hfr, hxt, hxp]
  have hcx : ∀ x, x ≠ t → s'.ctxAt x = s.ctxAt x := by
    intro x hxt
    by_cases hxp : x = p
    · subst hxp
      simp [State.ctxAt, hfr, hxt, hp, Frame.ctx]
    · simp [State.ctxAt, hold x hxt hxp]
  have huses : ∀ x, s.uses (L r) x = s'.uses (r :: p :: ps) x + if x = i then 1 else 0 := by
    intro x
    have hu : s'.uses ps x = s.uses ps x := by
      apply List.countP_congr
      intro y hy
      simp [hcx y fun he => htps (he ▸ hy)]
    have ht : s.ctxAt t = some i := by simp [State.ctxAt, hF.frame, Frame.ctx]
    rw [hF.frames]
    simp only [State.uses_cons, hu, ht, hcx r hrt, hcx p htp.symm, Option.some.injEq, eq_comm (a := i)]
    omega
  have htally : Tally (fun x => 0 < s.uses (L r) x ∨ s.freshInner ≤ x) s.inners s'.inners
      (s'.uses (r :: p :: ps)) := by
    rw [hin]
    exact (h.tally r).drop hF.held hi huses
  -- a context that is still held shows what it did
  have hshows : ∀ x g', 0 < s'.uses (r :: p :: ps) x → s.Shows x g' → s'.Shows x g' := by
    rintro x g' hx ⟨m', hm'⟩
    obtain ⟨y, hy⟩ := htally.held hx
    by_cases hxi : x = i
    · subst hxi
      obtain ⟨rfl, rfl⟩ : g = g' ∧ m = m' := by simpa [hi] using hm'
      refine ⟨y.refCount, ?_⟩
      rw [hin, Function.update_self, State.dropped] at hy ⊢
      split at hy
      · simp at hy
      · rename_i hne
        rw [if_neg hne]
        obtain rfl := Option.some.inj hy
        rfl
    · exact ⟨m', by simpa [hin, hxi] using hm'⟩
  have hheld : ∀ q x, q ∈ r :: p :: ps → s'.ctxAt q = some x → 0 < s'.uses (r :: p :: ps) x :=
    fun q x hq hx => State.uses_pos.mpr ⟨q, hq, hx⟩
  refine ⟨s', ?_, by rw [hs'], by rw [hs'], ?_⟩
  · simp only [State.finish, State.resume]
    rw [show (s.setFrame t (.task ⟨.final, some i, some p, res⟩)).frames p = some (.task
      ⟨.awaiting t k, some ip, some np, .monostate⟩) by simpa [State.setFrame, htp.symm] using hp]
    simp only
    rw [State.awaitResume_eq (f := ⟨.final, some i, some p, res⟩) (o := o) (by simp [State.setFrame]) hres]
    simp only [ok_bind]
    rw [State.destroyTask_eq (f := ⟨.final, some i, some p, res⟩) (i := i) (x := ⟨g, m⟩)
      (by simp [State.setFrame, htp]) rfl rfl (by simpa [State.setFrame] using hi), hs']
    simp [State.setFrame, State.freeFrame, State.setInner, Function.update_comm htp]
  · refine h.update _ _ _ ?_ ?_ ?_ (h.mem_lt_fresh ((hmem r).mpr (.inl rfl)) |>.trans_le (by rw [hs'])) ?_
    · constructor
      · intro x hx _
        rw [hmem] at hx
        simp only [not_or] at hx
        exact hold x hx.2.1 hx.2.2.1
      · intro x hx hx'
        rw [hmem] at hx
        simp only [List.mem_cons, not_or] at hx'
        obtain rfl : x = t := by tauto
        refine ⟨by simp [hfr], ?_⟩
        have := hF.right x (by simp)
        simpa [State.rights, hs'] using this
      · intro x hx
        rw [hmem]
        simp only [List.mem_cons] at hx
        tauto
      · rw [hs']
      · rw [hs']
      · exact htally
      · intro x hx
        rw [hs']
        exact h.held (r := r) (by have := huses x; omega)
      · exact fun q _ => by rw [hs']
      · exact fun _ => by simp
      · exact fun x _ _ => by rw [hs']
      · exact fun x _ _ => by rw [hs']
    · refine .running (n := np) (i := ip) (by simp [hfr, htp.symm]) ?_ ?_ ?_
      · exact hshows ip gp (hheld p ip (by simp) (by simp [State.ctxAt, hfr, htp.symm, Frame.ctx])) hgp
      · apply hcs.congr
        · exact hold r hrt hrp
        · rw [hs']
        · exact fun q hq => hold q (fun he => htps (he ▸ hq)) fun he => hpps (he ▸ hq)
        · intro q hq x g' hx hg'
          refine hshows x g' (hheld q x (by simp [hq]) ?_) hg'
          rwa [hcx q fun he => htps (he ▸ hq)]
      · intro x hx
        have := hF.right x (by simp only [List.mem_cons] at hx ⊢; tauto)
        simpa [State.rights, hs'] using this
    · simp only [List.nodup_cons, List.mem_cons, not_or]
      exact ⟨⟨hrp, hrps⟩, hpps, hps⟩
    · intro q o' hq
      have hq : s.returned q = some o' := by rwa [hs'] at hq
      exact .inl ⟨hq, fun he => absurd he (h.not_returned hF.thread hF.not_ended hq)⟩

/-! ## §3 — the ends of chains. -/

/-- A chain of two frames goes, and with it all its shares of contexts. -/
theorem Layout.ends (h : Layout s a L) (hr : a.threads r = some th) (hL : L r = [r, t])
    (hframes : s'.frames = Function.update (Function.update s.frames r none) t none)
    (hright : OneRight s' [r, t] none) (hfresh : s'.fresh = s.fresh) (hfi : s'.freshInner = s.freshInner)
    (htally : Tally (fun x => 0 < s.uses (L r) x ∨ s.freshInner ≤ x) s.inners s'.inners fun _ => 0)
    (hb : s'.blocked = Function.update s.blocked r none)
    (hsig : s'.signals = s.signals) (hjobs : s'.jobs = s.jobs)
    {o : Except E V} (hret : ∀ q o', s'.returned q = some o' →
      s.returned q = some o' ∧ q ≠ r ∨ q = r ∧ o' = o) (trace : List (Event C G A R))
    (alog : List (Nat × Event C G A R)) (aerrors : List E) :
    Layout s' ⟨Function.update a.threads r (some { th with trace := trace, now := .ended o }), alog, aerrors⟩
      (Function.update L r []) := by
  refine h.update _ _ _ ?_ (.gone ?_) List.nodup_nil ?_ ?_
  · constructor
    · intro x hx _
      simp only [hL, List.mem_cons, List.not_mem_nil, or_false, not_or] at hx
      simp [hframes, hx.1, hx.2]
    · intro x hx _
      rw [hL] at hx
      refine ⟨?_, by simpa using hright x hx⟩
      rcases List.mem_pair.mp hx with rfl | rfl
      · by_cases hxt : x = t <;> simp [hframes, hxt]
      · simp [hframes]
    · simp
    · exact hfresh.ge
    · exact hfi.ge
    · exact htally.congr fun _ => rfl
    · simp
    · exact fun q hq => by simp [hb, hq]
    · simp [hb]
    · exact fun x _ _ => by rw [hsig]
    · exact fun x _ _ => by rw [hjobs]
  · simp [hb]
  · rw [hfresh]
    exact h.mem_lt_fresh (r := r) (by simp [hL])
  · intro q o' hq
    rcases hret q o' hq with ⟨hold, hne⟩ | ⟨rfl, rfl⟩
    · exact .inl ⟨hold, fun he => absurd he hne⟩
    · exact .inr ⟨rfl, rfl⟩

/-- **A detached task ends**: its exception is logged, and nothing is left of the chain. -/
theorem Front.finish_detached {j : Inner} (hF : Front s a L r t r i th g c [] []) (h : Layout s a L)
    (hr : s.frames r = some (.detach ⟨true, t, some j⟩)) (hb : s.blocked r = none) {res : Result V E}
    {o : Except E V} (hres : res.unwrap = .ok o) (trace : List (Event C G A R))
    (alog : List (Nat × Event C G A R)) (aerrors : List E) :
    ∃ s', s.finish t ⟨.running c, some i, some r, .monostate⟩ res = .ok s' ∧ s'.log = s.log ∧
      s'.errors = s.errors ++ errorOf o ∧
      Layout s' ⟨Function.update a.threads r (some { th with trace := trace, now := .ended o }), alog, aerrors⟩
        (Function.update L r []) := by
  obtain ⟨m, hi⟩ := hF.shows_
  have hrt : r ≠ t := by simpa using hF.nodup h
  have hcr : s.ctxAt r = some j := by simp [State.ctxAt, hr, Frame.ctx]
  have hct : s.ctxAt t = some i := by simp [State.ctxAt, hF.frame, Frame.ctx]
  have huses : ∀ x, s.uses (L r) x = (if x = i then 1 else 0) + if x = j then 1 else 0 := by
    intro x
    rw [hF.frames]
    simp [State.uses_cons, hcr, hct, eq_comm]
  obtain ⟨xj, hj⟩ := (h.tally r).held (j := j) (by rw [huses]; simp)
  have hdrop := (h.tally r).drop (by rw [huses]; simp) hj huses
  obtain ⟨xi, hxi⟩ := hdrop.held (j := i) (by simp)
  have hdrop' : Tally (fun x => 0 < s.uses (L r) x ∨ s.freshInner ≤ x) s.inners
      (Function.update (Function.update s.inners j (State.dropped xj)) i (State.dropped xi)) fun _ => 0 :=
    hdrop.drop (by simp) hxi (by simp)
  refine ⟨{ s with
    frames := Function.update (Function.update s.frames r none) t none
    inners := Function.update (Function.update s.inners j (State.dropped xj)) i (State.dropped xi)
    errors := s.errors ++ errorOf o }, ?_, rfl, rfl, ?_⟩
  · simp only [State.finish, State.resume]
    rw [show (s.setFrame t (.task ⟨.final, some i, some r, res⟩)).frames r = some (.detach ⟨true, t, some j⟩) by
      simpa [State.setFrame, hrt] using hr]
    simp only [if_true]
    rw [State.awaitResume_eq (f := ⟨.final, some i, some r, res⟩) (o := o) (by simp [State.setFrame]) hres]
    simp only [ok_bind]
    rw [State.dropRc_eq (x := xj) (by simpa [State.freeFrame, State.setFrame] using hj)]
    simp only [ok_bind]
    rw [State.destroyTask_eq (f := ⟨.final, some i, some r, res⟩) (i := i) (x := xi)
      (by simp [State.setInner, State.freeFrame, State.setFrame, hrt.symm]) rfl rfl
      (by simpa [State.setInner, State.freeFrame, State.setFrame] using hxi)]
    simp [State.setFrame, State.freeFrame, State.setInner, Function.update_comm hrt]
  · apply h.ends hF.thread hF.frames
    · rfl
    · exact fun x hx => hF.right x hx
    · rfl
    · rfl
    · exact hdrop'
    · rw [← hb, Function.update_eq_self]
    · rfl
    · rfl
    · exact fun q o' hq => .inl ⟨hq, h.not_returned hF.thread hF.not_ended hq⟩

/-- **The task of a blocked thread ends**: the shell releases the semaphore, and the frames stay. -/
theorem Front.finish_blocked (hF : Front s a L r t r i th g c [] []) (h : Layout s a L)
    (hd : th.detached = false) (hr : s.frames r = some (.shell false)) (hb : s.blocked r = some ⟨t, false⟩) {res : Result V E}
    {o : Except E V} (hres : res.unwrap = .ok o) (trace : List (Event C G A R))
    (alog : List (Nat × Event C G A R)) (aerrors : List E) :
    ∃ s', s.finish t ⟨.running c, some i, some r, .monostate⟩ res = .ok s' ∧ s'.log = s.log ∧
      s'.errors = s.errors ∧
      Layout s' ⟨Function.update a.threads r (some { th with trace := trace, now := .ended o }), alog, aerrors⟩ L := by
  have hrt : r ≠ t := by simpa using hF.nodup h
  obtain ⟨s', hs'⟩ : ∃ s', s' = { s with
    frames := Function.update (Function.update s.frames t (some (.task ⟨.final, some i, some r, res⟩))) r
      (some (.shell true))
    blocked := Function.update s.blocked r (some ⟨t, true⟩) } := ⟨_, rfl⟩
  have hcx : ∀ x ∈ L r, s'.ctxAt x = s.ctxAt x := by
    intro x hx
    rw [hF.frames] at hx
    rcases List.mem_pair.mp hx with rfl | rfl
    · simp [State.ctxAt, hs', hr, Frame.ctx]
    · simp [State.ctxAt, hs', hrt.symm, hF.frame, Frame.ctx]
  obtain ⟨htally, hheld⟩ := h.same_contexts hcx (by rw [hs']) (by rw [hs'])
  refine ⟨s', ?_, by rw [hs'], by rw [hs'], ?_⟩
  · simp only [State.finish, State.resume]
    rw [show (s.setFrame t (.task ⟨.final, some i, some r, res⟩)).frames r = some (.shell false) by
      simpa [State.setFrame, hrt] using hr]
    simp [State.setFrame, hb, hs']
  · rw [← Function.update_eq_self r L]
    refine h.update _ _ _ ?_ ?_ (h.chain r th hF.thread).nodup ?_ ?_
    · constructor
      · intro x hx _
        simp only [hF.frames, List.mem_cons, List.not_mem_nil, or_false, not_or] at hx
        simp [hs', hx.1, hx.2]
      · exact fun x hx hx' => absurd hx hx'
      · exact fun x hx => .inl hx
      · rw [hs']
      · rw [hs']
      · exact htally
      · exact hheld
      · exact fun q hq => by simp [hs', hq]
      · exact fun _ => by simp [hF.frames]
      · exact fun x _ _ => by rw [hs']
      · exact fun x _ _ => by rw [hs']
    · rw [hF.frames, hd]
      refine .released (i := i) res (by simp [hs']) (by simp [hs']) (by simp [hs', hrt.symm]) hres ?_
      intro x hx
      simpa [State.rights, hs'] using hF.right x hx
    · rw [hs']
      exact h.mem_lt_fresh (r := r) (by simp [hF.frames])
    · intro q o' hq
      have hq : s.returned q = some o' := by rwa [hs'] at hq
      exact .inl ⟨hq, fun he => absurd he (h.not_returned hF.thread hF.not_ended hq)⟩

/-- **The end of a task**, whoever waits for it. -/
theorem Front.finish (hF : Front s a L r t n i th g c callers ps) (h : Layout s a L) (res : Result V E)
    (o : Except E V) (hres : res.unwrap = .ok o) (trace : List (Event C G A R))
    (alog : List (Nat × Event C G A R)) (aerrors : List E) :
    ∃ s' L', s.finish t ⟨.running c, some i, some n, .monostate⟩ res = .ok s' ∧ s'.log = s.log ∧
      s'.errors = s.errors ++ Thread.died { th with trace := trace, now := deliver o callers } ∧
      Layout s' ⟨Function.update a.threads r (some { th with trace := trace, now := deliver o callers }), alog,
        aerrors⟩ L' := by
  obtain ⟨hth, hnow, hL, hf, hg, hcs, ho⟩ := hF
  obtain ⟨d, hd⟩ : ∃ d, th.detached = d := ⟨_, rfl⟩
  rw [hd] at hcs
  cases hcs with
  | detached hr hb =>
    obtain ⟨s', h1, h2, h3, h4⟩ :=
      Front.finish_detached ⟨hth, hnow, hL, hf, hg, hd ▸ .detached hr hb, ho⟩ h hr hb hres trace alog aerrors
    exact ⟨s', _, h1, h2, by simpa [Thread.died, deliver, hd] using h3, h4⟩
  | blocked hr hb =>
    obtain ⟨s', h1, h2, h3, h4⟩ :=
      Front.finish_blocked ⟨hth, hnow, hL, hf, hg, hd ▸ .blocked hr hb, ho⟩ h hd hr hb hres trace alog aerrors
    exact ⟨s', _, h1, h2, by simpa [Thread.died, deliver, hd] using h3, h4⟩
  | caller hp hgp hcs =>
    obtain ⟨s', h1, h2, h3, h4⟩ :=
      Front.finish_caller ⟨hth, hnow, hL, hf, hg, hd ▸ .caller hp hgp hcs, ho⟩ h hp hgp (hd ▸ hcs) hres trace alog
        aerrors
    exact ⟨s', _, h1, h2, by simpa [Thread.died, deliver] using h3, h4⟩

end NetCpp.Coro.Frames
