/-
# NetCpp.Coro.FramesStack — the frames of a chain are a call stack.

A chain is a task that was detached or blocked on, with everything it awaits.  Its frames hang on the heap by `_next`,
the innermost task first; read along these links they are one thread of `NetCpp.Lib.CallStack`, whose environment is
the context.  `Chain` is that reading, with what it takes to keep it: every frame of a chain has at most one right to
be resumed, and the frames of a chain alone hold the contexts they hold, so that the counts are counts of its frames.

`Layout.update` is the frame rule: a step that touches the frames and contexts of one chain, or new ones, leaves all
other chains as they are.
-/
import NetCpp.Coro.Frames

namespace NetCpp.Coro.Frames

open NetCpp.Lib
open NetCpp.Lib.CallStack (Instr Event Stack Caller Thread Sys)

variable {C V E G A R : Type}

@[simp] theorem ok_bind {α β : Type} (a : α) (f : α → Except Fault β) : (Except.ok a >>= f) = f a := rfl

/-! ## §1 — what is read off a state. -/

namespace State

/-- The context that the frame at `h` holds. -/
def ctxAt (s : State C V E G A R) (h : Handle) : Option Inner := (s.frames h).bind Frame.ctx

/-- How often `h` may still be resumed. -/
def rights (s : State C V E G A R) (h : Handle) : Nat := s.signals.count h + s.jobs.count h

/-- How many of the frames `hs` hold the context `i`. -/
def uses (s : State C V E G A R) (hs : List Handle) (i : Inner) : Nat := hs.countP fun h => s.ctxAt h == some i

def Shows (s : State C V E G A R) (i : Inner) (g : G) : Prop := ∃ n, s.inners i = some ⟨g, n⟩

variable {s s' : State C V E G A R} {h t : Handle} {hs : List Handle} {i : Inner} {g : G}

@[simp] theorem uses_nil : s.uses [] i = 0 := rfl

theorem uses_cons : s.uses (h :: hs) i = s.uses hs i + if s.ctxAt h = some i then 1 else 0 := by
  simp [uses, List.countP_cons]

theorem uses_pos : 0 < s.uses hs i ↔ ∃ h ∈ hs, s.ctxAt h = some i := by
  simp [uses, List.countP_pos_iff]

theorem uses_congr (hf : ∀ h ∈ hs, s'.frames h = s.frames h) : s'.uses hs i = s.uses hs i := by
  apply List.countP_congr
  intro h hh
  simp [ctxAt, hf h hh]

end State

/-! ## §2 — the links of a chain. -/

/-- The callers of the task `t`, whose continuation is `n`, up to the root `r`: their handles are `ps`.  The flag tells
whether the chain is a detached one. -/
inductive Callers (s : State C V E G A R) (r : Handle) :
    Bool → Handle → Handle → List (Caller C V E G) → List Handle → Prop
  | detached {t j} : s.frames r = some (.detach ⟨true, t, some j⟩) → s.blocked r = none → Callers s r true t r [] []
  | blocked {t} : s.frames r = some (.shell false) → s.blocked r = some ⟨t, false⟩ → Callers s r false t r [] []
  | caller {d t p n i g k callers ps} : s.frames p = some (.task ⟨.awaiting t k, some i, some n, .monostate⟩) →
      s.Shows i g → Callers s r d p n callers ps → Callers s r d t p (⟨g, k⟩ :: callers) (p :: ps)

/-- Of the frames `hs` only `x` may be resumed, and only once. -/
def OneRight (s : State C V E G A R) (hs : List Handle) (x : Option Handle) : Prop :=
  ∀ h ∈ hs, s.rights h = if some h = x then 1 else 0

/-- The chain with the root `r` is the stack `st`, and has the frames `hs`. -/
inductive Links (s : State C V E G A R) (r : Handle) : Bool → Stack C V E G → List Handle → Prop
  /-- detached, and not yet started -/
  | queued {t j g c} : s.frames r = some (.detach ⟨false, t, some j⟩) →
      s.frames t = some (.task ⟨.initial c, none, none, .monostate⟩) → s.Shows j g → s.blocked r = none →
      r ∈ s.jobs → OneRight s [r, t] (some r) → Links s r true (.running g c []) [r, t]
  | running {d t n i g c callers ps} : s.frames t = some (.task ⟨.running c, some i, some n, .monostate⟩) →
      s.Shows i g → Callers s r d t n callers ps → OneRight s (r :: t :: ps) none →
      Links s r d (.running g c callers) (r :: t :: ps)
  | waiting {d t n i g k callers ps} : s.frames t = some (.task ⟨.waiting k, some i, some n, .monostate⟩) →
      s.Shows i g → Callers s r d t n callers ps → OneRight s (r :: t :: ps) (some t) →
      Links s r d (.waiting g k callers) (r :: t :: ps)
  /-- blocked on, and the semaphore is released -/
  | released {t i o} (res : Result V E) : s.frames r = some (.shell true) → s.blocked r = some ⟨t, true⟩ →
      s.frames t = some (.task ⟨.final, some i, some r, res⟩) → res.unwrap = .ok o →
      OneRight s [r, t] none → Links s r false (.ended o) [r, t]
  | gone {d o} : s.blocked r = none → Links s r d (.ended o) []

/-- A chain with its counts. -/
structure Chain (s : State C V E G A R) (r : Handle) (d : Bool) (st : Stack C V E G) (hs : List Handle) : Prop where
  links : Links s r d st hs
  nodup : hs.Nodup
  counts : ∀ i, 0 < s.uses hs i → ∃ x, s.inners i = some x ∧ x.refCount = s.uses hs i

/-! ## §3 — frame rules. -/

/-- The two states agree on all that the chain with the root `r` and the frames `hs` is read off. -/
structure Agree (s s' : State C V E G A R) (r : Handle) (hs : List Handle) : Prop where
  frames : ∀ h ∈ hs, s'.frames h = s.frames h
  inners : ∀ i, 0 < s.uses hs i → s'.inners i = s.inners i
  blocked : s'.blocked r = s.blocked r
  signals : ∀ h ∈ hs, s'.signals.count h = s.signals.count h
  jobs : ∀ h ∈ hs, s'.jobs.count h = s.jobs.count h

section Rules

variable {s s' : State C V E G A R} {r t n : Handle} {d : Bool} {hs ps : List Handle} {callers : List (Caller C V E G)}
  {st : Stack C V E G}

theorem Callers.congr (h : Callers s r d t n callers ps) (hr : s'.frames r = s.frames r)
    (hb : s'.blocked r = s.blocked r) (hf : ∀ p ∈ ps, s'.frames p = s.frames p)
    (hi : ∀ p ∈ ps, ∀ i g, s.ctxAt p = some i → s.Shows i g → s'.Shows i g) : Callers s' r d t n callers ps := by
  induction h with
  | detached h hb' => exact .detached (hr.trans h) (hb.trans hb')
  | blocked h hb' => exact .blocked (hr.trans h) (hb.trans hb')
  | @caller d t p n i g k callers ps h hg _ ih =>
    apply Callers.caller
    · exact (hf p (by simp)).trans h
    · exact hi p (by simp) i g (by simp [State.ctxAt, h, Frame.ctx]) hg
    · exact ih (fun q hq => hf q (by simp [hq])) (fun q hq => hi q (by simp [hq]))

theorem Agree.shows (h : Agree s s' r hs) {x : Handle} (hx : x ∈ hs) {i : Inner} {g : G}
    (hi : s.ctxAt x = some i) (hg : s.Shows i g) : s'.Shows i g := by
  obtain ⟨m, hm⟩ := hg
  exact ⟨m, (h.inners i (State.uses_pos.mpr ⟨x, hx, hi⟩)).trans hm⟩

theorem Agree.oneRight (h : Agree s s' r hs) {x : Option Handle} (hx : OneRight s hs x) : OneRight s' hs x := by
  intro y hy
  rw [← hx y hy]
  simp [State.rights, h.signals y hy, h.jobs y hy]

theorem Callers.agree (h : Callers s r d t n callers ps) (ha : Agree s s' r (r :: t :: ps)) :
    Callers s' r d t n callers ps :=
  h.congr (ha.frames r (by simp)) ha.blocked (fun p hp => ha.frames p (by simp [hp]))
    fun p hp _ _ hi hg => ha.shows (by simp [hp]) hi hg

theorem Links.agree (h : Links s r d st hs) (ha : Agree s s' r hs) : Links s' r d st hs := by
  cases h with
  | @queued t j g c hr ht hg hb hj ho =>
    refine .queued ((ha.frames r (by simp)).trans hr) ((ha.frames t (by simp)).trans ht) ?_ (ha.blocked.trans hb) ?_
      (ha.oneRight ho)
    · exact ha.shows (x := r) (by simp) (by simp [State.ctxAt, hr, Frame.ctx]) hg
    · rw [← List.count_pos_iff, ha.jobs r (by simp), List.count_pos_iff]
      exact hj
  | @running d t n i g c callers ps ht hg hc ho =>
    refine .running ((ha.frames t (by simp)).trans ht) ?_ (hc.agree ha) (ha.oneRight ho)
    exact ha.shows (x := t) (by simp) (by simp [State.ctxAt, ht, Frame.ctx]) hg
  | @waiting d t n i g k callers ps ht hg hc ho =>
    refine .waiting ((ha.frames t (by simp)).trans ht) ?_ (hc.agree ha) (ha.oneRight ho)
    exact ha.shows (x := t) (by simp) (by simp [State.ctxAt, ht, Frame.ctx]) hg
  | @released t i o res hr hb ht hres ho =>
    exact .released res ((ha.frames r (by simp)).trans hr) (ha.blocked.trans hb) ((ha.frames t (by simp)).trans ht)
      hres (ha.oneRight ho)
  | gone hb => exact .gone (ha.blocked.trans hb)

theorem Chain.agree (h : Chain s r d st hs) (ha : Agree s s' r hs) : Chain s' r d st hs where
  links := h.links.agree ha
  nodup := h.nodup
  counts i hi := by
    rw [State.uses_congr ha.frames] at hi ⊢
    rw [ha.inners i hi]
    exact h.counts i hi

end Rules

/-! ## §4 — all chains of a heap. -/

/-- **The heap is laid out as the threads of `a`.** `L r` are the frames of the chain with the root `r`. -/
structure Layout (s : State C V E G A R) (a : Sys C V E G A R) (L : Handle → List Handle) : Prop where
  chain : ∀ r th, a.threads r = some th → Chain s r th.detached th.now (L r)
  absent : ∀ r, a.threads r = none → L r = []
  /-- no frame is in two chains -/
  sep : ∀ r r' h, h ∈ L r → h ∈ L r' → r = r'
  /-- no context is held by two chains -/
  confined : ∀ r r' i, 0 < s.uses (L r) i → 0 < s.uses (L r') i → r = r'
  frames : ∀ h, s.frames h ≠ none → ∃ r, h ∈ L r
  inners : ∀ i, s.inners i ≠ none → ∃ r, 0 < s.uses (L r) i
  rights : ∀ h, s.rights h ≠ 0 → ∃ r, h ∈ L r
  blocked : ∀ r, s.blocked r ≠ none → r ∈ L r
  returned : ∀ r o, s.returned r = some o → ∃ th, a.threads r = some th ∧ th.now = .ended o
  fresh : ∀ h, s.fresh ≤ h → a.threads h = none ∧ ∀ r, h ∉ L r
  freshInner : ∀ i, s.freshInner ≤ i → ∀ r, s.uses (L r) i = 0

/-- The counts of the contexts in `D` are those of `u`, and nothing else has changed since `m₀`. -/
def Tally (D : Inner → Prop) (m₀ m : Inner → Option (RcInner G)) (u : Inner → Nat) : Prop :=
  ∀ i, (D i → m i = none ∧ u i = 0 ∨ 0 < u i ∧ ∃ x, m i = some x ∧ x.refCount = u i) ∧
    (¬ D i → m i = m₀ i ∧ u i = 0)

/-- What a step does that concerns the chain `r` alone, whose frames were `hs` and are now `hs'`. -/
structure Local (s s' : State C V E G A R) (r : Handle) (hs hs' : List Handle) : Prop where
  frames : ∀ h, h ∉ hs → h ∉ hs' → s'.frames h = s.frames h
  gone : ∀ h ∈ hs, h ∉ hs' → s'.frames h = none ∧ s'.rights h = 0
  new : ∀ h ∈ hs', h ∈ hs ∨ s.fresh ≤ h ∧ h < s'.fresh
  fresh : s.fresh ≤ s'.fresh
  freshInner : s.freshInner ≤ s'.freshInner
  tally : Tally (fun i => 0 < s.uses hs i ∨ s.freshInner ≤ i) s.inners s'.inners (s'.uses hs')
  held : ∀ i, 0 < s'.uses hs' i → i < s'.freshInner
  blocked : ∀ q, q ≠ r → s'.blocked q = s.blocked q
  root : s'.blocked r ≠ none → r ∈ hs'
  signals : ∀ h, h ∉ hs → h ∉ hs' → s'.signals.count h = s.signals.count h
  jobs : ∀ h, h ∉ hs → h ∉ hs' → s'.jobs.count h = s.jobs.count h

section

variable {s s' : State C V E G A R} {a : Sys C V E G A R} {L : Handle → List Handle} {r : Handle}
  {hs' : List Handle}

theorem Local.counts {hs : List Handle} (h : Local s s' r hs hs') (i : Inner) (hi : 0 < s'.uses hs' i) :
    ∃ x, s'.inners i = some x ∧ x.refCount = s'.uses hs' i := by
  obtain ⟨hown, hother⟩ := h.tally i
  by_cases ho : 0 < s.uses hs i ∨ s.freshInner ≤ i
  · rcases hown ho with ⟨-, h0⟩ | ⟨-, hx⟩
    · omega
    · exact hx
  · have := (hother ho).2
    omega

/-- The other chains see nothing of it. -/
theorem Layout.agree (h : Layout s a L) (hl : Local s s' r (L r) hs') {q : Handle} (hq : q ≠ r) :
    Agree s s' q (L q) := by
  have hout : ∀ x ∈ L q, x ∉ L r ∧ x ∉ hs' := by
    intro x hx
    have hxr : x ∉ L r := fun hx' => hq (h.sep q r x hx hx')
    refine ⟨hxr, fun hx' => ?_⟩
    rcases hl.new x hx' with hx' | ⟨hge, -⟩
    · exact hxr hx'
    · exact (h.fresh x hge).2 q hx
  constructor
  · exact fun x hx => hl.frames x (hout x hx).1 (hout x hx).2
  · intro i hi
    have hr : s.uses (L r) i = 0 := by
      by_contra hne
      exact hq (h.confined q r i hi (by omega))
    refine ((hl.tally i).2 ?_).1
    rintro (hpos | hge)
    · omega
    · have := h.freshInner i hge q
      omega
  · exact hl.blocked q hq
  · exact fun x hx => hl.signals x (hout x hx).1 (hout x hx).2
  · exact fun x hx => hl.jobs x (hout x hx).1 (hout x hx).2

/-- **The frame rule.** A step that concerns one chain, or begins one, keeps the layout. -/
theorem Layout.update (h : Layout s a L) (th : Thread C V E G A R) (log : List (Nat × Event C G A R))
    (errors : List E) (hl : Local s s' r (L r) hs') (hlinks : Links s' r th.detached th.now hs') (hnodup : hs'.Nodup) (hr : r < s'.fresh)
    (hret : ∀ q o, s'.returned q = some o →
      s.returned q = some o ∧ (q = r → th.now = .ended o) ∨ q = r ∧ th.now = .ended o) :
    Layout s' ⟨Function.update a.threads r (some th), log, errors⟩ (Function.update L r hs') := by
  have hne : ∀ q, q ≠ r → Function.update L r hs' q = L q := fun q hq => Function.update_of_ne hq _ _
  have hself : Function.update L r hs' r = hs' := Function.update_self ..
  have huses : ∀ q, q ≠ r → ∀ i, s'.uses (L q) i = s.uses (L q) i := fun q hq i =>
    State.uses_congr (h.agree hl hq).frames
  have hsep : ∀ q x, q ≠ r → x ∈ L q → x ∉ hs' := by
    intro q x hq hx hx'
    rcases hl.new x hx' with hx' | ⟨hge, -⟩
    · exact hq (h.sep q r x hx hx')
    · exact (h.fresh x hge).2 q hx
  have hconf : ∀ q i, q ≠ r → 0 < s.uses (L q) i → s'.uses hs' i = 0 := by
    intro q i hq hi
    have hr : s.uses (L r) i = 0 := by
      by_contra hne
      exact hq (h.confined q r i hi (by omega))
    refine ((hl.tally i).2 ?_).2
    rintro (hpos | hge)
    · omega
    · have := h.freshInner i hge q
      omega
  constructor
  case chain =>
    intro q th' hq
    by_cases hqr : q = r
    · subst hqr
      obtain rfl : th = th' := by simpa using hq
      rw [hself]
      exact ⟨hlinks, hnodup, hl.counts⟩
    · rw [hne q hqr]
      exact (h.chain q th' (by simpa [hqr] using hq)).agree (h.agree hl hqr)
  case absent =>
    intro q hq
    have hqr : q ≠ r := by
      rintro rfl
      simp at hq
    rw [hne q hqr]
    exact h.absent q (by simpa [hqr] using hq)
  case sep =>
    intro q q' x hx hx'
    by_cases hqr : q = r <;> by_cases hqr' : q' = r
    · rw [hqr, hqr']
    · subst hqr
      rw [hself] at hx
      rw [hne q' hqr'] at hx'
      exact absurd hx (hsep q' x hqr' hx')
    · subst hqr'
      rw [hself] at hx'
      rw [hne q hqr] at hx
      exact absurd hx' (hsep q x hqr hx)
    · rw [hne q hqr] at hx
      rw [hne q' hqr'] at hx'
      exact h.sep q q' x hx hx'
  case confined =>
    intro q q' i hi hi'
    by_cases hqr : q = r <;> by_cases hqr' : q' = r
    · rw [hqr, hqr']
    · subst hqr
      rw [hself] at hi
      rw [hne q' hqr', huses q' hqr'] at hi'
      have := hconf q' i hqr' hi'
      omega
    · subst hqr'
      rw [hself] at hi'
      rw [hne q hqr, huses q hqr] at hi
      have := hconf q i hqr hi
      omega
    · rw [hne q hqr, huses q hqr] at hi
      rw [hne q' hqr', huses q' hqr'] at hi'
      exact h.confined q q' i hi hi'
  case frames =>
    intro x hx
    by_cases hx' : x ∈ hs'
    · exact ⟨r, by rwa [hself]⟩
    · have hxr : x ∉ L r := fun hxr => hx (hl.gone x hxr hx').1
      rw [hl.frames x hxr hx'] at hx
      obtain ⟨q, hq⟩ := h.frames x hx
      exact ⟨q, by rwa [hne q (fun he => hxr (he ▸ hq))]⟩
  case inners =>
    intro i hi
    by_cases ho : 0 < s.uses (L r) i ∨ s.freshInner ≤ i
    · rcases (hl.tally i).1 ho with ⟨h0, -⟩ | ⟨hpos, -⟩
      · exact absurd h0 hi
      · exact ⟨r, by rwa [hself]⟩
    · rw [((hl.tally i).2 ho).1] at hi
      obtain ⟨q, hq⟩ := h.inners i hi
      have hqr : q ≠ r := fun hqr => ho (.inl (hqr ▸ hq))
      exact ⟨q, by rwa [hne q hqr, huses q hqr]⟩
  case rights =>
    intro x hx
    by_cases hx' : x ∈ hs'
    · exact ⟨r, by rwa [hself]⟩
    · have hxr : x ∉ L r := fun hxr => hx (hl.gone x hxr hx').2
      obtain ⟨q, hq⟩ := h.rights x (by rwa [State.rights, ← hl.signals x hxr hx', ← hl.jobs x hxr hx'])
      exact ⟨q, by rwa [hne q (fun he => hxr (he ▸ hq))]⟩
  case blocked =>
    intro q hq
    by_cases hqr : q = r
    · subst hqr
      rw [hself]
      exact hl.root hq
    · rw [hne q hqr]
      exact h.blocked q (by rwa [← hl.blocked q hqr])
  case returned =>
    intro q o hq
    rcases hret q o hq with ⟨hold, hr'⟩ | ⟨rfl, ho⟩
    · by_cases hqr : q = r
      · exact ⟨th, by simp [hqr], hr' hqr⟩
      · simpa [hqr] using h.returned q o hold
    · exact ⟨th, by simp, ho⟩
  case fresh =>
    intro x hx
    have hxr : x ≠ r := (lt_of_lt_of_le hr hx).ne'
    obtain ⟨hnone, hout⟩ := h.fresh x (hl.fresh.trans hx)
    refine ⟨by simpa [hxr] using hnone, fun q hq => ?_⟩
    by_cases hqr : q = r
    · subst hqr
      rw [hself] at hq
      rcases hl.new x hq with hq | ⟨-, hlt⟩
      · exact hout q hq
      · exact absurd hlt (not_lt.mpr hx)
    · rw [hne q hqr] at hq
      exact hout q hq
  case freshInner =>
    intro i hi q
    by_cases hqr : q = r
    · subst hqr
      rw [hself]
      by_contra hpos
      exact absurd (hl.held i (Nat.pos_of_ne_zero hpos)) (not_lt.mpr hi)
    · rw [hne q hqr, huses q hqr]
      exact h.freshInner i (hl.freshInner.trans hi) q

end

end NetCpp.Coro.Frames
