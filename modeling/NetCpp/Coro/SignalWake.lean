/-
# NetCpp.Coro.SignalWake — no wake-up of `MPSCSignal` is lost, none is made up.

Without `stop()`, two things are asked of every reachable state: no consumer sleeps although a
`release()` was begun and finished during its await and nobody is inside `release()`, and no more
awaits completed than `release()` calls were made.

Both rest on the ownership discipline of `NetCpp.Coro.Signal`, and that one on `NotOutrun`: if the
executor resumes the coroutine while its `await_suspend` has the second exchange still ahead, that
exchange later hits a word that belongs to the NEXT await and wipes a fresh SIGNALED out of it
(`wakeup_is_lost`).  For runs without that, `WakeInv` carries the two properties.  Its counting part
is a budget: every completed await and every wake-up under way (`tokens`) is paid for by a `release()`
that has made its exchange.
-/
import NetCpp.Coro.Signal

namespace NetCpp.Coro.MPSCSignal

open NetCpp.Lib

variable {n : Nat}

/-! ## §1 — the property. -/

/-- A `release()` begun after await `k` began has returned. -/
def ReleasedSince (s : State n) (k : Await) : Prop := ∃ b ∈ s.finished, k.id < b

/-- **No lost and no made-up wake-up in `s`.** -/
def WakeOk (s : State n) : Prop :=
  (∀ k, .parked k ∈ s.acts → (∀ t, s.prod t = .idle) → ¬ ReleasedSince s k) ∧
    s.completed.length ≤ s.releases

/-- The side condition: no `stop()`, no outrun registration. -/
def WakeSafe (s : State n) (act : Action n) : Prop := NoStop s act ∧ NotOutrun s act

instance (s : State n) (act : Action n) : Decidable (WakeSafe s act) :=
  inferInstanceAs (Decidable (_ ∧ _))

/-! ## §2 — the invariant. -/

/-- A `release()` call that has not made its exchange. -/
def Prod.fresh : Prod → Bool
  | .relExchange _ => true
  | _ => false

/-- A counter that only `stop()` or a stopped word leads to. -/
def Prod.stopping : Prod → Bool
  | .relRestore _ | .stopExchange | .stopCopy | .stopInvoke _ => true
  | _ => false

/-- The stamp of the `release()` a thread is in. -/
def Prod.since : Prod → Option Nat
  | .relExchange b | .relRestore b | .relCopy b | .relStore b _ | .relInvoke b _ => some b
  | _ => none

/-- The activation is inside await `k` and has not published. -/
def Act.before : Act → Option Await
  | .readyLoad k | .readyCas k | .readyLoad2 k | .suspendWrite k | .suspendExchange k => some k
  | _ => none

/-- An unconsumed signal in the word. -/
def Word.signal : Word → Nat
  | .signaled => 1
  | _ => 0

/-- Some thread's next step is its `fn(h)`. -/
def owed (s : State n) : Bool := decide (∃ t, (s.prod t).invokes ≠ none)

/-- The wake-ups under way: the resumption that is running or owed, and the signal in the word. -/
def tokens (w : Word) (owed : Bool) : Act → Nat
  | .resumeLoad _ => 1 + w.signal
  | .suspendRetract _ _ => 1
  | .parked _ => if w = .waiting then 0 else if owed then 1 + w.signal else 1
  | _ => w.signal

structure WakeInv (s : State n) (a : Act) : Prop where
  running : s.word ≠ .stopped ∧ ∀ t, (s.prod t).stopping = false
  stamps : (∀ t b, (s.prod t).since = some b → b ≤ s.awaits) ∧ ∀ b ∈ s.finished, b ≤ s.awaits
  consumed : ∀ k old, a = .suspendRetract k old → old = .signaled
  ready : ∀ k, a = .readyCas k → s.word = .signaled
  pending : ∀ k, a.before = some k → ReleasedSince s k → s.word = .signaled
  asleep : ∀ k, a = .parked k → s.word = .waiting → ¬ ReleasedSince s k
  budget : s.completed.length + tokens s.word (owed s) a + threadCount Prod.fresh s.prod ≤ s.releases

variable {s s' : State n} {a a' : Act} {t : Fin n} {p : Prod} {w : Word}

theorem owed_eq (m : Moves s s' t p w) (hp : p.invokes = none) (ht : (s.prod t).invokes = none) :
    owed s' = owed s := by
  simp only [owed, decide_eq_decide]
  constructor
  · rintro ⟨i, hi⟩
    have hit : i ≠ t := by rintro rfl; exact hi (by rw [m.here]; exact hp)
    exact ⟨i, by rw [← m.there i hit]; exact hi⟩
  · rintro ⟨i, hi⟩
    have hit : i ≠ t := by rintro rfl; exact hi ht
    exact ⟨i, by rw [m.there i hit]; exact hi⟩

/-- A thread's step keeps the invariant when it either leaves word and history alone, or signals, or
acts for an activation that has published. -/
theorem WakeInv.move (h : WakeInv s a) (m : Moves s s' t p w) (hp : p.stopping = false)
    (hw : w ≠ .stopped) (haw : s'.awaits = s.awaits) (hsince : ∀ b, p.since = some b → b ≤ s.awaits)
    (hfin : (s'.finished = s.finished ∧ w = s.word) ∨
      ((∀ b ∈ s'.finished, b ≤ s.awaits) ∧ w ≠ .waiting ∧ (w = .signaled ∨ a.before = none)))
    (hb : s'.completed.length + tokens w (owed s') a + threadCount Prod.fresh s'.prod ≤ s'.releases) :
    WakeInv s' a where
  running := by
    refine ⟨by rw [m.word]; exact hw, fun i => ?_⟩
    by_cases hit : i = t
    · rw [hit, m.here]; exact hp
    · rw [m.there i hit]; exact h.running.2 i
  stamps := by
    refine ⟨fun i b hi => ?_, ?_⟩
    · rw [haw]
      by_cases hit : i = t
      · rw [hit, m.here] at hi; exact hsince b hi
      · rw [m.there i hit] at hi; exact h.stamps.1 i b hi
    · rw [haw]
      rcases hfin with ⟨hf, -⟩ | ⟨hf, -⟩
      · rw [hf]; exact h.stamps.2
      · exact hf
  consumed := h.consumed
  ready k hk := by
    rw [m.word]
    rcases hfin with ⟨-, hs⟩ | ⟨-, -, hs | hs⟩
    · rw [hs]; exact h.ready k hk
    · exact hs
    · rw [hk] at hs; cases hs
  pending k hk hr := by
    rw [m.word]
    rcases hfin with ⟨hf, hs⟩ | ⟨-, -, hs | hs⟩
    · rw [hs]; exact h.pending k hk (by simpa [ReleasedSince, hf] using hr)
    · exact hs
    · rw [hk] at hs; cases hs
  asleep k hk hwait hr := by
    rw [m.word] at hwait
    rcases hfin with ⟨hf, hs⟩ | ⟨-, hne, -⟩
    · exact h.asleep k hk (hs ▸ hwait) (by simpa [ReleasedSince, hf] using hr)
    · exact hne hwait
  budget := by rw [m.word]; exact hb

/-- `fn(h)` turns the debt it is about to pay into a running resumption. -/
theorem WakeInv.wake {k : Await} (h : WakeInv s (.parked k))
    (hb : s.completed.length + (1 + s.word.signal) + threadCount Prod.fresh s.prod ≤ s.releases) :
    WakeInv s (.resumeLoad k) where
  running := h.running
  stamps := h.stamps
  consumed := by simp
  ready := by simp
  pending := by simp [Act.before]
  asleep := by simp
  budget := hb

theorem threadCount_goto (hprod : s'.prod = Function.update s.prod t p) (ht : (s.prod t).fresh = false)
    (hp : p.fresh = false) : threadCount Prod.fresh s'.prod = threadCount Prod.fresh s.prod := by
  have := threadCount_update Prod.fresh s.prod t p
  rw [hprod]
  simpa [ht, hp] using this

/-- The exchange of `release()` takes one call off the fresh ones. -/
theorem threadCount_exchange (s' : State n) (hprod : s'.prod = Function.update s.prod t p)
    (ht : (s.prod t).fresh = true) (hp : p.fresh = false) :
    threadCount Prod.fresh s'.prod + 1 = threadCount Prod.fresh s.prod := by
  have := threadCount_update Prod.fresh s.prod t p
  rw [hprod]
  simpa [ht, hp] using this

/-- With no registration in the word, one more signal is at most one more wake-up under way. -/
theorem tokens_signaled_le (hw : w ≠ .waiting) (o : Bool) :
    tokens .signaled o a ≤ tokens w o a + 1 := by
  have h1 : Word.signaled.signal = 1 := rfl
  cases a <;> cases o <;> simp [tokens, h1, hw]

theorem tokens_parked_le (k : Await) (w : Word) (o : Bool) :
    tokens w o (.parked k) ≤ 1 + w.signal := by
  cases o <;> simp only [tokens] <;> split <;> simp

theorem WakeInv.callStep (h : WakeInv s a) (ho : Owned s a) (ho' : Owned s' a')
    (hs : step s (.callRelease t) = some s') : WakeInv s' a' := by
  simp only [MPSCSignal.step] at hs
  split at hs
  · rename_i hp
    injection hs with hs; subst hs
    obtain rfl := ho.same_act ho' rfl
    have m : Moves s { (s.goto t (.relExchange s.awaits)) with releases := s.releases + 1 } t
        (.relExchange s.awaits) s.word := moves_of rfl rfl rfl
    refine h.move m rfl h.running.1 rfl (by simp [Prod.since]) (.inl ⟨rfl, rfl⟩) ?_
    have hcount := threadCount_update Prod.fresh s.prod t (.relExchange s.awaits)
    have hb := h.budget
    rw [owed_eq m rfl (by rw [hp]; rfl)]
    simp only [hp, Prod.fresh, Bool.toNat_false, Bool.toNat_true, State.goto] at hcount ⊢
    omega
  · cases hs

theorem WakeInv.prodStep (h : WakeInv s a) (ho : Owned s a) (ho' : Owned s' a')
    (hg : NotOutrun s (.prod t)) (hs : prodStep s t = some s') : WakeInv s' a' := by
  have hb := h.budget
  have hstop := h.running.2 t
  have hfinle : ∀ b, (s.prod t).since = some b → ∀ b' ∈ b :: s.finished, b' ≤ s.awaits := by
    intro b hb' b' hmem
    rcases List.mem_cons.mp hmem with rfl | hmem
    · exact h.stamps.1 t _ hb'
    · exact h.stamps.2 b' hmem
  cases hp : s.prod t with
  | idle => simp [MPSCSignal.prodStep, hp] at hs
  | relExchange b =>
      have hfresh : (s.prod t).fresh = true := by rw [hp]; rfl
      have hsince : ∀ b', some b = some b' → b' ≤ s.awaits := fun b' hb' =>
        h.stamps.1 t b' (by rw [hp]; exact hb')
      cases hw : s.word <;> simp only [MPSCSignal.prodStep, hp, hw, Option.some.injEq] at hs <;>
        subst hs <;> obtain rfl := ho.same_act ho' rfl
      · -- nobody waits: the token is in the word from now on
        have m : Moves s { (s.goto t .idle) with word := .signaled, finished := b :: s.finished } t
            .idle .signaled := moves_of rfl rfl rfl
        refine h.move m rfl (by simp) rfl (by simp [Prod.since])
          (.inr ⟨hfinle b (by rw [hp]; rfl), by simp, .inl rfl⟩) ?_
        have hcount := threadCount_exchange (s.goto t .idle) rfl hfresh rfl
        have htok := tokens_signaled_le (a := a') (w := .idle) (by simp) (owed s)
        rw [owed_eq m rfl (by rw [hp]; rfl)]
        rw [hw] at hb
        simp only [State.goto] at hcount ⊢
        omega
      · have m : Moves s { (s.goto t .idle) with word := .signaled, finished := b :: s.finished } t
            .idle .signaled := moves_of rfl rfl rfl
        refine h.move m rfl (by simp) rfl (by simp [Prod.since])
          (.inr ⟨hfinle b (by rw [hp]; rfl), by simp, .inl rfl⟩) ?_
        have hcount := threadCount_exchange (s.goto t .idle) rfl hfresh rfl
        rw [owed_eq m rfl (by rw [hp]; rfl)]
        rw [hw] at hb
        simp only [State.goto] at hcount ⊢
        omega
      · exact absurd hw h.running.1
      · -- the registration is taken: the debt appears, paid by this release()
        have m : Moves s { (s.goto t (.relCopy b)) with word := .signaled } t (.relCopy b)
            .signaled := moves_of rfl rfl rfl
        refine h.move m rfl (by simp) rfl hsince (.inr ⟨h.stamps.2, by simp, .inl rfl⟩) ?_
        have hcount := threadCount_exchange (s.goto t (.relCopy b)) rfl hfresh rfl
        have hnot : owed s = false := by
          simp only [owed, decide_eq_false_iff_not, not_exists, not_not]
          intro i
          cases hi : (s.prod i).invokes with
          | none => rfl
          | some k => exact absurd hw (ho.holder i (holds_of_invokes hi).1).1
        obtain ⟨k, hk⟩ := ho.waiting hw
        rw [owed_eq m rfl (by rw [hp]; rfl), hnot]
        rw [hw, hnot] at hb
        simp only [State.goto] at hcount ⊢
        cases a' <;> simp [Act.slot] at hk <;> simp [tokens] at hb ⊢ <;> omega
  | relRestore b => rw [hp] at hstop; cases hstop
  | relCopy b =>
      cases hc : s.cont <;> simp only [MPSCSignal.prodStep, hp, hc, Option.some.injEq] at hs
      · cases hs
      · rename_i k
        subst hs
        obtain rfl := ho.same_act ho' rfl
        have m : Moves s (s.goto t (.relStore b k)) t (.relStore b k) s.word := moves_of rfl rfl rfl
        refine h.move m rfl h.running.1 rfl ?_ (.inl ⟨rfl, rfl⟩) ?_
        · intro b' hb'; exact h.stamps.1 t b' (by rw [hp]; exact hb')
        · rw [owed_eq m rfl (by rw [hp]; rfl), threadCount_goto rfl (by rw [hp]; rfl) rfl]
          exact hb
  | relStore b k =>
      simp only [MPSCSignal.prodStep, hp, Option.some.injEq] at hs
      subst hs
      obtain rfl := ho.same_act ho' rfl
      have hslot := ho.copied t k (by rw [hp]; rfl)
      have hne := (ho.holder t (by rw [hp]; rfl)).1
      refine h.move (moves_of rfl rfl rfl) rfl (by simp) rfl ?_
        (.inr ⟨h.stamps.2, by simp, .inr ?_⟩) ?_
      · intro b' hb'; exact h.stamps.1 t b' (by rw [hp]; exact hb')
      · cases a' <;> simp [Act.slot] at hslot <;> rfl
      · rw [threadCount_goto (s := s) rfl (by rw [hp]; rfl) rfl]
        simp only [State.goto]
        cases a' <;> simp [Act.slot] at hslot <;> simp [tokens, hne, Word.signal] at hb ⊢ <;>
          (try split at hb) <;> omega
  | relInvoke b k =>
      simp only [MPSCSignal.prodStep, hp, Option.some.injEq] at hs
      subst hs
      have hinv : (s.prod t).invokes = some k := by rw [hp]; rfl
      obtain rfl := ho.parked_of_invokes hinv hg
      obtain rfl : a' = .resumeLoad k := by simpa [ho.acts, invoke] using ho'.acts.symm
      have hne := (ho.holder t (by rw [hp]; rfl)).1
      -- the wake-up that was owed is paid here
      have howed : owed s = true := by
        simp only [owed, decide_eq_true_eq]
        exact ⟨t, by rw [hinv]; simp⟩
      have hbudget : s.completed.length + (1 + s.word.signal) + threadCount Prod.fresh s.prod
          ≤ s.releases := by
        simpa [tokens, hne, howed] using hb
      have hcount : threadCount Prod.fresh (s.goto t .idle).prod = threadCount Prod.fresh s.prod :=
        threadCount_goto rfl (by rw [hp]; rfl) rfl
      refine WakeInv.wake (h.move (moves_of rfl rfl rfl) rfl h.running.1 rfl (by simp [Prod.since])
        (.inr ⟨hfinle b (by rw [hp]; rfl), hne, .inr rfl⟩) ?_) ?_
      · refine Nat.le_trans ?_ hbudget
        simp only [State.goto] at hcount ⊢
        rw [hcount]
        exact Nat.add_le_add_right (Nat.add_le_add_left (tokens_parked_le k _ _) _) _
      · simp only [State.goto] at hcount ⊢
        omega
  | stopExchange => rw [hp] at hstop; cases hstop
  | stopCopy => rw [hp] at hstop; cases hstop
  | stopInvoke k => rw [hp] at hstop; cases hstop

/-- An activation step that leaves threads and history alone. -/
theorem WakeInv.run (h : WakeInv s a) (hprod : s'.prod = s.prod) (hfin : s'.finished = s.finished)
    (hst : s'.word ≠ .stopped) (haw : s.awaits ≤ s'.awaits)
    (hcons : ∀ k old, a' = .suspendRetract k old → old = .signaled)
    (hready : ∀ k, a' = .readyCas k → s'.word = .signaled)
    (hpend : ∀ k, a'.before = some k → ReleasedSince s k → s'.word = .signaled)
    (hsleep : ∀ k, a' = .parked k → s'.word = .waiting → ¬ ReleasedSince s k)
    (hb : s'.completed.length + tokens s'.word (owed s) a' + threadCount Prod.fresh s.prod
      ≤ s'.releases) : WakeInv s' a' where
  running := ⟨hst, by rw [hprod]; exact h.running.2⟩
  stamps := by
    refine ⟨fun t b hb => ?_, fun b hb => ?_⟩
    · exact Nat.le_trans (h.stamps.1 t b (hprod ▸ hb)) haw
    · exact Nat.le_trans (h.stamps.2 b (hfin ▸ hb)) haw
  consumed := hcons
  ready := hready
  pending k hk hr := hpend k hk (by simpa [ReleasedSince, hfin] using hr)
  asleep k hk hw hr := hsleep k hk hw (by simpa [ReleasedSince, hfin] using hr)
  budget := by
    have howed : owed s' = owed s := by simp only [owed, hprod]
    rw [howed, hprod]; exact hb

theorem WakeInv.actStep {i : Nat} (h : WakeInv s a) (ho : Owned s a) (ho' : Owned s' a')
    (hs : step s (.act i) = some s') : WakeInv s' a' := by
  obtain ⟨r, hr, rfl⟩ := act_step ho.acts hs
  have hacts := ho'.acts
  have hb := h.budget
  have hst := h.running.1
  cases a with
  | body =>
      obtain rfl : _ = r := by simpa [MPSCSignal.actStep] using hr
      obtain rfl : a' = .readyLoad ⟨s.awaits, s.stopRet⟩ := by simpa using hacts.symm
      refine h.run rfl rfl hst (by simp) (by simp) (by simp) ?_ (by simp) hb
      -- an await that begins now has seen no release() yet
      rintro k hk ⟨b, hb, hlt⟩
      obtain rfl : (⟨s.awaits, s.stopRet⟩ : Await) = k := by simpa [Act.before] using hk
      exact absurd (h.stamps.2 b hb) (Nat.not_le.mpr hlt)
  | readyLoad k =>
      obtain rfl : _ = r := by simpa [MPSCSignal.actStep] using hr
      by_cases hw : s.word = .signaled
      · obtain rfl : a' = .readyCas k := by simpa [hw] using hacts.symm
        exact h.run rfl rfl hst le_rfl (by simp) (fun _ _ => hw) (fun _ _ _ => hw) (by simp) hb
      · obtain rfl : a' = .readyLoad2 k := by simpa [hw] using hacts.symm
        exact h.run rfl rfl hst le_rfl (by simp) (by simp) (fun j hj => h.pending j hj) (by simp) hb
  | readyCas k =>
      have hw := h.ready k rfl
      obtain rfl : _ = r := by simpa [MPSCSignal.actStep, hw] using hr
      obtain rfl : a' = .resumeLoad k := by simpa using hacts.symm
      refine h.run rfl rfl (by simp) le_rfl (by simp) (by simp) (by simp [Act.before]) (by simp) ?_
      simpa [tokens, hw, Word.signal] using hb
  | readyLoad2 k =>
      obtain rfl : _ = r := by simpa [MPSCSignal.actStep, hst] using hr
      obtain rfl : a' = .suspendWrite k := by simpa using hacts.symm
      exact h.run rfl rfl hst le_rfl (by simp) (by simp) (fun j hj => h.pending j hj) (by simp) hb
  | suspendWrite k =>
      obtain rfl : _ = r := by simpa [MPSCSignal.actStep] using hr
      obtain rfl : a' = .suspendExchange k := by simpa using hacts.symm
      exact h.run rfl rfl hst le_rfl (by simp) (by simp) (fun j hj => h.pending j hj) (by simp) hb
  | suspendExchange k =>
      obtain rfl : _ = r := by simpa [MPSCSignal.actStep] using hr
      have hnw := (ho.free rfl).2
      have hpend := h.pending k rfl
      cases hw : s.word with
      | idle =>
          obtain rfl : a' = .parked k := by simpa [hw] using hacts.symm
          refine h.run rfl rfl (by simp) le_rfl (by simp) (by simp) (by simp [Act.before]) ?_ ?_
          · rintro j hj - hrel
            obtain rfl : k = j := by simpa using hj
            -- a finished release() would have left the word SIGNALED
            rw [hw] at hpend; cases hpend hrel
          · simp only [tokens, if_true]
            omega
      | signaled =>
          obtain rfl : a' = .suspendRetract k .signaled := by simpa [hw] using hacts.symm
          refine h.run rfl rfl (by simp) le_rfl (by simp) (by simp) (by simp [Act.before]) (by simp) ?_
          simpa [tokens, hw, Word.signal] using hb
      | stopped => exact absurd hw hst
      | waiting => exact absurd hw hnw
  | suspendRetract k old =>
      obtain rfl := h.consumed k old rfl
      obtain rfl : _ = r := by simpa [MPSCSignal.actStep] using hr
      by_cases hw : s.word = .waiting
      · obtain rfl : a' = .resumeLoad k := by simpa [hw] using hacts.symm
        refine h.run rfl rfl (by simp [Word.retract]) le_rfl (by simp) (by simp) (by simp [Act.before])
          (by simp) ?_
        simpa [tokens, Word.retract, Word.signal] using hb
      · obtain rfl : a' = .parked k := by simpa [hw] using hacts.symm
        refine h.run rfl rfl (by simp [Word.retract]) le_rfl (by simp) (by simp) (by simp [Act.before])
          (by simp [Word.retract]) ?_
        simpa [tokens, Word.retract, Word.signal] using hb
  | parked k => simp [MPSCSignal.actStep] at hr
  | outrun k old => exact absurd rfl (ho.live k old)
  | resumeLoad k =>
      obtain rfl : _ = r := by simpa [MPSCSignal.actStep] using hr
      obtain rfl : a' = .body := by simpa using hacts.symm
      refine h.run rfl rfl hst le_rfl (by simp) (by simp) (by simp [Act.before]) (by simp) ?_
      simp only [tokens, List.length_cons] at hb ⊢
      omega

/-! ## §3 — runs. -/

/-- The invariant of the runs inside `WakeSafe`. -/
def WakeRunInv (s : State n) : Prop := ∃ a, Owned s a ∧ WakeInv s a

theorem wakeRunInv_init : WakeRunInv (init n) :=
  ⟨.body, owned_init,
    { running := ⟨by simp [init], fun _ => rfl⟩
      stamps := ⟨by simp [init, Prod.since], by simp [init]⟩
      consumed := by simp
      ready := by simp
      pending := by simp [Act.before]
      asleep := by simp
      budget := by
        have : threadCount Prod.fresh (init n).prod = 0 := threadCount_const _ _ rfl
        rw [this]
        simp [init, tokens, Word.signal] }⟩

theorem wakeRunInv_step {act : Action n} (h : WakeRunInv s) (hg : WakeSafe s act)
    (hs : step s act = some s') : WakeRunInv s' := by
  obtain ⟨a, ho, hi⟩ := h
  have hkeep : KeepsWaiting s act := by
    cases act with
    | prod t =>
        intro hre
        have := hi.running.2 t
        cases hp : s.prod t <;> simp_all [Prod.restores, Prod.stopping]
    | callRelease _ | callStop _ | act _ => trivial
  obtain ⟨a', ho'⟩ := ho.step hg.2 hkeep hs
  refine ⟨a', ho', ?_⟩
  cases act with
  | callRelease t => exact hi.callStep ho ho' hs
  | callStop t => exact absurd rfl (hg.1 t)
  | prod t => exact hi.prodStep ho ho' hg.2 hs
  | act i => exact hi.actStep ho ho' hs

theorem wakeOk_of_inv (h : WakeRunInv s) : WakeOk s := by
  obtain ⟨a, ho, hi⟩ := h
  refine ⟨fun k hk hidle => ?_, ?_⟩
  · obtain rfl : a = .parked k := by simpa [ho.acts, eq_comm] using hk
    obtain ⟨-, hw | ⟨t, ht⟩⟩ := ho.slot k rfl
    · exact hi.asleep k rfl hw
    · rw [hidle t] at ht; cases ht
  · have := hi.budget
    omega

/-- **No wake-up is lost and none is made up** along every run without `stop()` in which no
continuation is invoked before the `await_suspend` that registered it has made its last exchange. -/
theorem wake_ok_of_safe_run {n : Nat} {s : State n} (h : Run step WakeSafe (init n) s) : WakeOk s :=
  wakeOk_of_inv (h.invariant (fun _ _ _ hi hg hs => wakeRunInv_step hi hg hs) wakeRunInv_init)

/-- A run inside the side condition: a `release()` between `await_ready` and `await_suspend` is
consumed by the retraction; the next await parks and a second `release()` wakes it. -/
theorem wake_ok_after_two_releases :
    ∃ s : State 1, Run step WakeSafe (init 1) s ∧ WakeOk s ∧ s.releases = 2 ∧
      s.completed = [(⟨1, false⟩, true), (⟨0, false⟩, true)] := by
  obtain ⟨s, hs, h⟩ : ∃ s, exec (guarded step WakeSafe) (init 1)
      [.act 0, .act 0, .act 0, .callRelease 0, .prod 0, .act 0, .act 0, .act 0, .act 0,
        .act 0, .act 0, .act 0, .act 0, .act 0, .callRelease 0, .prod 0, .prod 0, .prod 0, .prod 0,
        .act 0] = some s ∧
      s.releases = 2 ∧ s.completed = [(⟨1, false⟩, true), (⟨0, false⟩, true)] :=
    ⟨_, rfl, by decide⟩
  exact ⟨s, run_of_exec_guarded hs, wake_ok_of_safe_run (run_of_exec_guarded hs), h⟩

/-- **The lost wake-up.** `release()` no. 1 lands between `await_ready` and `await_suspend`, so
`await_suspend` goes for its second exchange; `release()` no. 2 takes WAITING and resumes the coroutine
before that exchange; the coroutine begins its next await; `release()` no. 3 signals it; the second
exchange of the FIRST await wipes that signal; the second await parks.  Nobody is inside `release()`. -/
theorem wakeup_is_lost : ¬ ∀ (n : Nat) (s : State n), Run step NoStop (init n) s → WakeOk s := by
  intro h
  obtain ⟨s, hs, hp, ha, hf⟩ : ∃ s : State 1, exec (guarded step NoStop) (init 1)
      [.act 0, .act 0, .act 0, .callRelease 0, .prod 0, .act 0, .act 0,
        .callRelease 0, .prod 0, .prod 0, .prod 0, .prod 0, .act 1, .act 1, .act 1, .act 1,
        .callRelease 0, .prod 0, .act 0, .act 0, .act 0] = some s ∧
      (∀ t, s.prod t = .idle) ∧ s.acts = [.parked ⟨1, false⟩] ∧ s.finished = [2, 1, 1] :=
    ⟨_, rfl, by decide⟩
  exact (h 1 s (run_of_exec_guarded hs)).1 ⟨1, false⟩ (by simp [ha]) hp ⟨2, by simp [hf], by decide⟩

end NetCpp.Coro.MPSCSignal
