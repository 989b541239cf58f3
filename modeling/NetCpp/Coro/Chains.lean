/-
# NetCpp.Coro.Chains — what holds in every run of the coroutine runtime.

Read off the layout of the heap (`NetCpp.Coro.FramesStack`), which every step keeps: nothing undefined happens, `block()`
returns what its task evaluates to in direct style, a chain has one active point, a context belongs to one chain and its
count is the number of the frames that hold it, and a runtime that has come to rest has freed everything.
-/
import NetCpp.Coro.FramesRefine

namespace NetCpp.Coro.Frames

open NetCpp.Lib
open NetCpp.Lib.CallStack (Instr Event Stack Caller Thread Sys Eval errorOf deliver Sound)
open Relation (ReflTransGen)

variable {C V E G A R : Type} {s s' s₁ s₂ : State C V E G A R} {a a' : Sys C V E G A R}
  {L : Handle → List Handle} {r t n : Handle} {code : C → Instr C V E G A R}

/-! ## §1 — runs. -/

theorem Matches.init : Matches (State.init : State C V E G A R) Sys.init where
  layout := ⟨fun _ => [], by
    constructor <;> simp [Sys.init, State.init, State.rights]⟩
  log := rfl
  errors := rfl

theorem next_eq_some {act : Act C G R} (h : next code s act = some s') : step code s act = some (.ok s') := by
  unfold next at h
  cases hs : step code s act with
  | none => simp [hs] at h
  | some res =>
    cases res with
    | error f => simp [hs, Except.toOption] at h
    | ok s'' =>
      obtain rfl : s'' = s' := by simpa [hs, Except.toOption] using h
      rfl

theorem Persists.refl (a : Sys C V E G A R) : Persists a a := fun _ th h => ⟨th, h, rfl, rfl⟩

theorem Persists.trans {a'' : Sys C V E G A R} (h : Persists a a') (h' : Persists a' a'') : Persists a a'' := by
  intro i th hi
  obtain ⟨th', hi', he, hs⟩ := h i th hi
  obtain ⟨th'', hi'', he', hs'⟩ := h' i th' hi'
  exact ⟨th'', hi'', he'.trans he, hs'.trans hs⟩

/-- A step of the threads starts none anew. -/
theorem Persists.step {act : Sys.Act C G R} (h : a.step code act = some a') : Persists a a' := by
  have hadd : ∀ (b : Sys C V E G A R) i th, b.threads i = none →
      Persists b { b with threads := Function.update b.threads i (some th) } := by
    intro b i th hi j th' hj
    have hji : j ≠ i := by
      rintro rfl
      simp [hi] at hj
    exact ⟨th', by simpa [hji] using hj, rfl, rfl⟩
  cases act with
  | start i g c detached =>
    simp only [Sys.step, Option.ite_none_right_eq_some, Option.isNone_iff_eq_none, Option.some.injEq] at h
    obtain ⟨hi, rfl⟩ := h
    exact hadd a i _ hi
  | move i m new =>
    simp only [Sys.step, Option.bind_eq_bind, Option.bind_eq_some_iff] at h
    obtain ⟨th, hi, ⟨now, ev⟩, -, h⟩ := h
    obtain ⟨b, hb⟩ : ∃ b : Sys C V E G A R, b = ⟨Function.update a.threads i
      (some { th with trace := th.trace ++ ev, now := now }), a.log ++ ev.map (Prod.mk i),
      a.errors ++ Thread.died { th with trace := th.trace ++ ev, now := now }⟩ := ⟨_, rfl⟩
    have hmoved : Persists a b := by
      intro j th' hj
      by_cases hji : j = i
      · subst hji
        obtain rfl : th = th' := by simpa [hi] using hj
        exact ⟨{ th with trace := th.trace ++ ev, now := now }, by simp [hb], rfl, rfl⟩
      · exact ⟨th', by simpa [hb, hji] using hj, rfl, rfl⟩
    rw [← hb] at h
    unfold CallStack.spawned at h
    split at h
    · simp only [Option.ite_none_right_eq_some, Option.isNone_iff_eq_none, Option.some.injEq] at h
      obtain ⟨hnew, rfl⟩ := h
      exact hmoved.trans (hadd b new _ hnew)
    · obtain rfl := Option.some.inj h
      exact hmoved

/-- A run of the frames is a run of the threads, in which the threads of the beginning persist. -/
theorem Matches.run (h : Matches s a) (hr : Reachable (next code) s s') :
    ∃ a', Matches s' a' ∧ Reachable (Sys.step code) a a' ∧ Persists a a' := by
  induction hr with
  | refl => exact ⟨a, h, .refl a, .refl a⟩
  | tail act _ _ hs ih =>
    obtain ⟨a₁, hm, hreach, hper⟩ := ih
    obtain ⟨t, a₂, hok, hm', hstep⟩ := hm.step (next_eq_some hs)
    obtain rfl := Except.ok.inj hok
    rcases hstep with rfl | ⟨aact, haact⟩
    · exact ⟨_, hm', hreach, hper⟩
    · exact ⟨_, hm', hreach.tail aact trivial haact, hper.trans (.step haact)⟩

/-- **The runtime refines threads with call stacks.** Whatever program, whatever order of steps: the heap is laid out as
the threads of some run of the call stack machine, whose events and lost exceptions are the ones that were seen. -/
theorem frames_refine_threads (h : Reachable (next code) State.init s) :
    ∃ a, Reachable (Sys.step code) Sys.init a ∧ (∃ L, Layout s a L) ∧ s.log = a.log.map Prod.snd ∧
      s.errors = a.errors := by
  obtain ⟨a, hm, hreach, -⟩ := Matches.init.run h
  exact ⟨a, hreach, hm.layout, hm.log, hm.errors⟩

theorem Layout.of_reachable (h : Reachable (next code) State.init s) : ∃ a L, Layout s a L := by
  obtain ⟨a, hm, -⟩ := Matches.init.run h
  obtain ⟨L, hL⟩ := hm.layout
  exact ⟨a, L, hL⟩

/-- **`block()` returns what its task evaluates to**, in the context it was given or an empty one, and what the task
has done on the way is in the log, in its order. -/
theorem block_evaluates {b : Option G} {own : G} {c : C} {o : Except E V}
    (h : Reachable (next code) State.init s) (hb : next code s (.block b own c) = some s₁)
    (hr : Reachable (next code) s₁ s₂) (ho : s₂.returned (s.fresh + 1) = some o) :
    ∃ tr, Eval code (b.getD own) c tr o ∧ tr.Sublist s₂.log := by
  obtain ⟨a, hm, hreach, -⟩ := Matches.init.run h
  obtain ⟨L, hL⟩ := hm.layout
  obtain ⟨s', hok, hlog, herr, hlay⟩ := hL.block b own c a.log a.errors
  obtain rfl : s' = s₁ := by simpa [next, step, hok, Except.toOption] using hb
  have hnone : a.threads (s.fresh + 1) = none := (hL.fresh _ (Nat.le_succ _)).1
  have hstart : a.step code (.start (s.fresh + 1) (b.getD own) c false) = some
      ⟨Function.update a.threads (s.fresh + 1) (some (.begin (b.getD own) c false)), a.log, a.errors⟩ := by
    simp [Sys.step, hnone]
  obtain ⟨a₂, hm₂, hreach₂, hper⟩ :=
    Matches.run (a := ⟨Function.update a.threads (s.fresh + 1) (some (.begin (b.getD own) c false)), a.log, a.errors⟩)
      ⟨⟨_, hlay⟩, by rw [hlog, hm.log], by rw [herr, hm.errors]⟩ hr
  obtain ⟨th, hth, henv, hstart'⟩ := hper (s.fresh + 1) (.begin (b.getD own) c false) (by simp)
  obtain ⟨L₂, hL₂⟩ := hm₂.layout
  obtain ⟨th', hth', hend⟩ := hL₂.returned _ o ho
  obtain rfl : th = th' := by simpa [hth] using hth'
  have hsound := (CallStack.sound_of_reachable ((hreach.tail _ trivial hstart).trans hreach₂)).sound _ th hth
  refine ⟨th.trace, ?_, ?_⟩
  · rw [show b.getD own = th.env from henv.symm, show c = th.start from hstart'.symm]
    exact hsound.ended hend
  · rw [hsound.logged, hm₂.log]
    exact List.filter_sublist.map Prod.snd

/-! ## §2 — rest. -/

/-- **A runtime at rest has freed everything.** When no task runs or can be resumed and no thread is inside `block()`,
there is no frame and no context left. -/
theorem rest_is_empty (h : Reachable (next code) State.init s)
    (hrun : ∀ t f c, s.frames t = some (.task f) → f.point ≠ .running c) (hsig : s.signals = []) (hjobs : s.jobs = [])
    (hb : ∀ r, s.blocked r = none) : (∀ t, s.frames t = none) ∧ ∀ i, s.inners i = none := by
  obtain ⟨a, L, hL⟩ := Layout.of_reachable h
  have hempty : ∀ r, L r = [] := by
    intro r
    cases hr : a.threads r with
    | none => exact hL.absent r hr
    | some th =>
      have hlinks := (hL.chain r th hr).links
      generalize th.now = now at hlinks
      generalize th.detached = d at hlinks
      generalize L r = hs at hlinks ⊢
      cases hlinks with
      | queued _ _ _ _ hj _ => simp [hjobs] at hj
      | running ht _ _ _ => exact absurd rfl (hrun _ _ _ ht)
      | @waiting d t n i g k callers ps _ _ _ ho =>
        have := ho t (by simp)
        simp [State.rights, hsig, hjobs] at this
      | released _ _ hb' _ _ _ => simp [hb r] at hb'
      | gone _ => rfl
  constructor
  · intro t
    by_contra hne
    obtain ⟨r, hr⟩ := hL.frames t hne
    simp [hempty r] at hr
  · intro i
    by_contra hne
    obtain ⟨r, hr⟩ := hL.inners i hne
    simp [hempty r] at hr

/-! ## §3 — one active point. -/

/-- The link from a task to its continuation. -/
def Up (s : State C V E G A R) (t n : Handle) : Prop := ∃ f, s.frames t = some (.task f) ∧ f.next = some n

/-- A coroutine that runs, or that may be resumed. -/
def Active (s : State C V E G A R) (t : Handle) : Prop :=
  (∃ f c, s.frames t = some (.task f) ∧ f.point = .running c) ∨ s.rights t ≠ 0

/-- The frame of a detached task, or of a `block()` whose task has not ended. -/
def Root (s : State C V E G A R) (r : Handle) : Prop :=
  (∃ d, s.frames r = some (.detach d)) ∨ s.frames r = some (.shell false)

theorem Callers.up {d : Bool} {callers : List (Caller C V E G)} {ps : List Handle}
    (h : Callers s r d t n callers ps) : ReflTransGen (Up s) n r ∧ ∀ p ∈ ps, ReflTransGen (Up s) p r := by
  induction h with
  | detached _ _ => exact ⟨.refl, by simp⟩
  | blocked _ _ => exact ⟨.refl, by simp⟩
  | @caller d t p n i g k callers ps hp _ _ ih =>
    have hpr : ReflTransGen (Up s) p r := ih.1.head ⟨_, hp, rfl⟩
    refine ⟨hpr, fun q hq => ?_⟩
    rcases List.mem_cons.mp hq with rfl | hq
    · exact hpr
    · exact ih.2 q hq

/-- The frame of a chain that a task leads to belongs to it. -/
theorem Callers.up_mem {d : Bool} {callers : List (Caller C V E G)} {ps : List Handle}
    (h : Callers s r d t n callers ps) : n ∈ r :: ps ∧ ∀ p ∈ ps, ∀ q, Up s p q → q ∈ r :: ps := by
  induction h with
  | detached _ _ => simp
  | blocked _ _ => simp
  | @caller d t p n i g k callers ps hp _ _ ih =>
    refine ⟨by simp, fun q hq q' hup => ?_⟩
    have hsub : ∀ x, x ∈ r :: ps → x ∈ r :: p :: ps := by
      intro x hx
      simp only [List.mem_cons] at hx ⊢
      tauto
    rcases List.mem_cons.mp hq with rfl | hq
    · obtain ⟨f, hf, hn⟩ := hup
      obtain rfl := Frame.task.inj (Option.some.inj (hf.symm.trans hp))
      obtain rfl := Option.some.inj hn
      exact hsub _ ih.1
    · exact hsub q' (ih.2 q hq q' hup)

section Links

variable {d : Bool} {st : Stack C V E G} {hs : List Handle}

theorem Links.up_mem (h : Links s r d st hs) (ht : t ∈ hs) (hup : Up s t n) : n ∈ hs := by
  obtain ⟨f, hf, hn⟩ := hup
  have hfront : ∀ {d t' n' callers ps} {pt : Point C V E} {i : Inner}, Callers (G := G) s r d t' n' callers ps →
      s.frames t' = some (.task ⟨pt, some i, some n', .monostate⟩) → t ∈ r :: t' :: ps → n ∈ r :: t' :: ps := by
    intro d t' n' callers ps pt i hcs ht' hmem
    rcases List.mem_cons.mp hmem with rfl | hmem
    · exact absurd hf (hcs.root_not_task f)
    · have hsub : n ∈ r :: ps → n ∈ r :: t' :: ps := by
        intro hx
        simp only [List.mem_cons] at hx ⊢
        tauto
      rcases List.mem_cons.mp hmem with rfl | hmem
      · obtain rfl := Frame.task.inj (Option.some.inj (hf.symm.trans ht'))
        obtain rfl := Option.some.inj hn
        exact hsub hcs.up_mem.1
      · exact hsub (hcs.up_mem.2 t hmem n ⟨f, hf, hn⟩)
  cases h with
  | queued hr ht' _ _ _ _ =>
    rcases List.mem_pair.mp ht with rfl | rfl
    · simp [hr] at hf
    · obtain rfl := Frame.task.inj (Option.some.inj (hf.symm.trans ht'))
      simp at hn
  | running ht' _ hcs _ => exact hfront hcs ht' ht
  | waiting ht' _ hcs _ => exact hfront hcs ht' ht
  | released _ hr _ ht' _ _ =>
    rcases List.mem_pair.mp ht with rfl | rfl
    · simp [hr] at hf
    · obtain rfl := Frame.task.inj (Option.some.inj (hf.symm.trans ht'))
      obtain rfl := Option.some.inj hn
      simp
  | gone _ => simp at ht

/-- **The active point of a chain**: there is one, it leads to the root, and nobody else in the chain is active. -/
theorem Links.active (h : Links s r d st hs) (hst : ∀ o, st ≠ .ended o) :
    ∃ t ∈ hs, Active s t ∧ ReflTransGen (Up s) t r ∧ ∀ t' ∈ hs, Active s t' → t' = t := by
  -- who has no right to be resumed and is not the task that runs is not active
  have hidle : ∀ {d t' n' callers ps x}, Callers (G := G) s r d t' n' callers ps → OneRight s (r :: t' :: ps) x →
      (∀ y, x = some y → y = t') → ∀ y ∈ r :: t' :: ps, Active s y → y = t' := by
    intro d t' n' callers ps x hcs ho hx y hy hact
    by_contra hne
    rcases hact with ⟨f, c, hf, hpt⟩ | hright
    · rcases List.mem_cons.mp hy with rfl | hy
      · exact hcs.root_not_task f hf
      · rcases List.mem_cons.mp hy with rfl | hy
        · exact hne rfl
        · obtain ⟨u, k, i, n', hp⟩ := hcs.awaiting hy
          obtain rfl := Frame.task.inj (Option.some.inj (hf.symm.trans hp))
          simp at hpt
    · have := ho y hy
      by_cases hyx : some y = x
      · exact hne (hx y hyx.symm)
      · exact hright (by simpa [hyx] using this)
  cases h with
  | @queued t j g c hr ht _ _ hj ho =>
    refine ⟨r, by simp, .inr ?_, .refl, ?_⟩
    · simp [ho r (by simp)]
    · intro y hy hact
      rcases List.mem_pair.mp hy with rfl | rfl
      · rfl
      · rcases hact with ⟨f, c', hf, hpt⟩ | hright
        · obtain rfl := Frame.task.inj (Option.some.inj (hf.symm.trans ht))
          simp at hpt
        · by_contra hne
          exact hright (by simpa [hne] using ho y (by simp))
  | @running d t n i g c callers ps ht _ hcs ho =>
    exact ⟨t, by simp, .inl ⟨_, c, ht, rfl⟩, hcs.up.1.head ⟨_, ht, rfl⟩, hidle hcs ho (by simp)⟩
  | @waiting d t n i g k callers ps ht _ hcs ho =>
    exact ⟨t, by simp, .inr (by simp [ho t (by simp)]), hcs.up.1.head ⟨_, ht, rfl⟩, hidle hcs ho (by simp [eq_comm])⟩
  | released _ _ _ _ _ _ => exact absurd rfl (hst _)
  | gone _ => exact absurd rfl (hst _)

/-- Only the root of a chain is no task; while it is one of the two kinds of `Root` its thread has not ended. -/
theorem Links.root (h : Links s r d st hs) (ht : t ∈ hs) (hroot : Root s t) : t = r ∧ ∀ o, st ≠ .ended o := by
  have htask : ∀ f, s.frames t ≠ some (.task f) := by
    rintro f hf
    rcases hroot with ⟨d, hd⟩ | hd <;> simp [hf] at hd
  have hfront : ∀ {d t' n' callers ps} {f' : TaskFrame C V E}, Callers (G := G) s r d t' n' callers ps →
      s.frames t' = some (.task f') → t ∈ r :: t' :: ps → t = r := by
    intro d t' n' callers ps f' hcs ht' hmem
    rcases List.mem_cons.mp hmem with rfl | hmem
    · rfl
    · rcases List.mem_cons.mp hmem with rfl | hmem
      · exact absurd ht' (htask _)
      · obtain ⟨_, _, _, _, hp⟩ := hcs.awaiting hmem
        exact absurd hp (htask _)
  cases h with
  | queued _ ht' _ _ _ _ =>
    rcases List.mem_pair.mp ht with rfl | rfl
    · exact ⟨rfl, by simp⟩
    · exact absurd ht' (htask _)
  | running ht' _ hcs _ => exact ⟨hfront hcs ht' ht, by simp⟩
  | waiting ht' _ hcs _ => exact ⟨hfront hcs ht' ht, by simp⟩
  | released _ hr _ ht' _ _ =>
    rcases List.mem_pair.mp ht with rfl | rfl
    · rcases hroot with ⟨d, hd⟩ | hd <;> simp [hr] at hd
    · exact absurd ht' (htask _)
  | gone _ => simp at ht

end Links

/-- **A chain has one active point.** Exactly one coroutine of each unfinished chain runs or may be resumed, and along
the continuations it leads to the root. -/
theorem one_active_point (h : Reachable (next code) State.init s) (hroot : Root s r) :
    ∃! t, Active s t ∧ ReflTransGen (Up s) t r := by
  obtain ⟨a, L, hL⟩ := Layout.of_reachable h
  obtain ⟨q, hq⟩ := hL.frames r (by rcases hroot with ⟨d, hd⟩ | hd <;> simp [hd])
  obtain ⟨th, hth⟩ := hL.thread_of_mem hq
  have hlinks := (hL.chain q th hth).links
  obtain ⟨rfl, hend⟩ := hlinks.root hq hroot
  obtain ⟨t, -, hact, hup, huniq⟩ := hlinks.active hend
  refine ⟨t, ⟨hact, hup⟩, ?_⟩
  rintro t' ⟨hact', hup'⟩
  obtain ⟨q, hq'⟩ : ∃ q, t' ∈ L q := by
    rcases hact' with ⟨f, c, hf, -⟩ | hright
    · exact hL.frames t' (by simp [hf])
    · exact hL.rights t' hright
  -- the links stay inside one chain
  have hmem : r ∈ L q := by
    clear huniq hact' hact hup
    induction hup' using ReflTransGen.head_induction_on with
    | refl => exact hq'
    | head hstep _ ih =>
      obtain ⟨th', hth'⟩ := hL.thread_of_mem hq'
      exact ih ((hL.chain q th' hth').links.up_mem hq' hstep)
  obtain rfl := hL.sep _ _ _ hq hmem
  exact huniq t' hq' hact'

/-! ## §4 — contexts. -/

/-- Who holds a context leads to the root. -/
theorem Links.up_of_ctx {d : Bool} {st : Stack C V E G} {hs : List Handle} (h : Links s r d st hs) (ht : t ∈ hs)
    {i : Inner} (hi : s.ctxAt t = some i) : ReflTransGen (Up s) t r := by
  have hfront : ∀ {d t' n' callers ps} {pt : Point C V E} {j : Inner}, Callers (G := G) s r d t' n' callers ps →
      s.frames t' = some (.task ⟨pt, some j, some n', .monostate⟩) → t ∈ r :: t' :: ps → ReflTransGen (Up s) t r := by
    intro d t' n' callers ps pt j hcs ht' hmem
    rcases List.mem_cons.mp hmem with rfl | hmem
    · exact .refl
    · rcases List.mem_cons.mp hmem with rfl | hmem
      · exact hcs.up.1.head ⟨_, ht', rfl⟩
      · exact hcs.up.2 t hmem
  cases h with
  | queued hr ht' _ _ _ _ =>
    rcases List.mem_pair.mp ht with rfl | rfl
    · exact .refl
    · simp [State.ctxAt, ht', Frame.ctx] at hi
  | running ht' _ hcs _ => exact hfront hcs ht' ht
  | waiting ht' _ hcs _ => exact hfront hcs ht' ht
  | released _ _ _ ht' _ _ =>
    rcases List.mem_pair.mp ht with rfl | rfl
    · exact .refl
    · exact .single ⟨_, ht', rfl⟩
  | gone _ => simp at ht

/-- **A context belongs to one chain**, whose frames are all that hold it, and the count, which is not atomic, is the
number of these frames. -/
theorem context_of_one_chain (h : Reachable (next code) State.init s) {i : Inner} (ht : s.ctxAt t = some i) :
    (∃ r, ∀ t', s.ctxAt t' = some i → ReflTransGen (Up s) t' r) ∧
      ∃ x, s.inners i = some x ∧ x.refCount = Set.ncard {t' | s.ctxAt t' = some i} := by
  obtain ⟨a, L, hL⟩ := Layout.of_reachable h
  have hmem : ∀ t', s.ctxAt t' = some i → ∃ r, t' ∈ L r := by
    intro t' ht'
    refine hL.frames t' fun hnone => ?_
    simp [State.ctxAt, hnone] at ht'
  obtain ⟨r, hr⟩ := hmem t ht
  have hpos : 0 < s.uses (L r) i := State.uses_pos.mpr ⟨t, hr, ht⟩
  have hall : ∀ t', s.ctxAt t' = some i → t' ∈ L r := by
    intro t' ht'
    obtain ⟨q, hq⟩ := hmem t' ht'
    obtain rfl := hL.confined q r i (State.uses_pos.mpr ⟨t', hq, ht'⟩) hpos
    exact hq
  obtain ⟨th, hth⟩ := hL.thread_of_mem hr
  have hch := hL.chain r th hth
  refine ⟨⟨r, fun t' ht' => hch.links.up_of_ctx (hall t' ht') ht'⟩, ?_⟩
  obtain ⟨x, hx, hcount⟩ := hch.counts i hpos
  refine ⟨x, hx, hcount.trans ?_⟩
  have hset : {t' | s.ctxAt t' = some i} = ↑((L r).filter fun t' => s.ctxAt t' == some i).toFinset := by
    ext t'
    simp only [Set.mem_ofPred_eq, List.coe_toFinset, List.mem_filter, beq_iff_eq]
    exact ⟨fun ht' => ⟨hall t' ht', ht'⟩, fun ht' => ht'.2⟩
  rw [hset, Set.ncard_coe_finset, List.toFinset_card_of_nodup (hch.nodup.filter _), State.uses,
    List.countP_eq_length_filter]

/-! ## §5 — a program.

`0` detaches `3` and awaits `1`, which acts, waits, and returns or throws. -/

def sample : Nat → Instr Nat Nat Nat Nat Nat Nat
  | 0 => .spawn none 3 5
  | 1 => .act 8 fun _ => 2
  | 2 => .wait fun b => if b then 3 else 4
  | 3 => .ret 7
  | 4 => .throw 6
  | 5 => .call (some 90) 1 fun _ => 3
  | n + 6 => .ret n

def sampleStart : List (Act Nat Nat Nat) := [.step 0, .step 0, .answer 4 1, .step 4]

def sampleEnd : List (Act Nat Nat Nat) :=
  [.wake 4, .run 4 true, .run 3 false, .step 4, .step 2, .step 0, .acquire 1]

/-- A thread blocks on `0`: the inner task waits, and the detached one is still queued. -/
abbrev sampleWaits (s : State Nat Nat Nat Nat Nat Nat) : Prop :=
  exec (next sample) State.init (.block none 50 0 :: sampleStart) = some s

theorem sample_refines : ∃ s, sampleWaits s ∧ ∃ a, Reachable (Sys.step sample) Sys.init a ∧ (∃ L, Layout s a L) ∧
    s.log = a.log.map Prod.snd ∧ s.errors = a.errors := by
  have hs : ∃ s, sampleWaits s := ⟨_, rfl⟩
  obtain ⟨s, hs⟩ := hs
  exact ⟨s, hs, frames_refine_threads (reachable_of_exec hs)⟩

theorem sample_block_evaluates : ∃ tr, Eval sample 50 0 tr (.ok 7) ∧
    tr.Sublist [.spawned 50 3, .did 90 8 1, .answered true] := by
  have hr : ∃ s₁ s₂, next sample State.init (.block none 50 0) = some s₁ ∧
      exec (next sample) s₁ (sampleStart ++ sampleEnd) = some s₂ ∧ s₂.returned 1 = some (.ok 7) ∧
      s₂.log = [.spawned 50 3, .did 90 8 1, .answered true] := ⟨_, _, rfl, rfl, rfl, rfl⟩
  obtain ⟨s₁, s₂, hb, hr, ho, hlog⟩ := hr
  obtain ⟨tr, he, hsub⟩ := block_evaluates (Run.refl _) hb (reachable_of_exec hr) ho
  exact ⟨tr, he, hlog ▸ hsub⟩

theorem sample_rests : ∃ s, exec (next sample) State.init (.block none 50 0 :: (sampleStart ++ sampleEnd)) = some s ∧
    (∀ t, s.frames t = none) ∧ ∀ i, s.inners i = none := by
  have hs : ∃ s, exec (next sample) State.init (.block none 50 0 :: (sampleStart ++ sampleEnd)) = some s ∧
      (∀ t f c, s.frames t = some (.task f) → f.point ≠ .running c) ∧ s.signals = [] ∧ s.jobs = [] ∧
      ∀ r, s.blocked r = none := by
    refine ⟨_, rfl, ?_, rfl, rfl, ?_⟩
    · rintro (_ | _ | _ | _ | _ | t) f c hf <;> exact absurd hf nofun
    · rintro (_ | _ | r) <;> rfl
  obtain ⟨s, hs, hrun, hsig, hjobs, hb⟩ := hs
  exact ⟨s, hs, rest_is_empty (reachable_of_exec hs) hrun hsig hjobs hb⟩

theorem sample_active : ∃ s, sampleWaits s ∧ ∃! t, Active s t ∧ ReflTransGen (Up s) t 1 := by
  have hs : ∃ s, sampleWaits s ∧ Root s 1 := ⟨_, rfl, .inr rfl⟩
  obtain ⟨s, hs, hr⟩ := hs
  exact ⟨s, hs, one_active_point (reachable_of_exec hs) hr⟩

theorem sample_context : ∃ s, sampleWaits s ∧ (∃ r, ∀ t', s.ctxAt t' = some 2 → ReflTransGen (Up s) t' r) ∧
    ∃ x, s.inners 2 = some x ∧ x.refCount = Set.ncard {t' | s.ctxAt t' = some 2} := by
  have hs : ∃ s, sampleWaits s ∧ s.ctxAt 4 = some 2 := ⟨_, rfl, rfl⟩
  obtain ⟨s, hs, ht⟩ := hs
  exact ⟨s, hs, context_of_one_chain (reachable_of_exec hs) ht⟩

end NetCpp.Coro.Frames
