/-
# NetCpp.Coro.ChannelClose — what `close()` may drop.

A consumer that gets `nullopt` from a closed channel takes it for the end.  `push` tests `_closed` FIRST and stores
the tail several steps later; a `close()` between the two wakes the consumer into an empty ring, and the item is
accepted afterwards, for nobody (`item_accepted_after_close`).  `Unhurried` excludes that overlap, and the one with
the two loads of a spuriously woken `await_resume`; then nothing accepted is dropped.
-/
import NetCpp.Coro.ChannelFifo

namespace NetCpp.Coro.SPSCChannel

open NetCpp.Lib

variable {V : Type} {bits n : Nat}

/-! ## §1 — the side condition. -/

/-- Inside `push`, past the test of `_closed` and before the store of the tail. -/
def Party.inFlight : Party V → Bool
  | .pushTail _ | .pushHead _ _ | .pushConstruct _ _ | .pushStore _ _ => true
  | _ => false

/-- The activation found the ring empty and is about to read `_closed` and return `nullopt`. -/
def Act.decided : Act V → Bool
  | .resumeClosed _ => true
  | _ => false

/-- The activation's next step loads the tail and finds it at the head it has. -/
def Act.findsEmpty (tail : Nat) : Act V → Bool
  | .resumeTail _ head => head == tail
  | _ => false

/-- The party's next step sets `_closed`. -/
def Party.sets : Party V → Bool
  | .closeStore => true
  | _ => false

/-- **Nobody is hurried.** The step is neither an `await_resume` that finds the ring of a closed channel empty while
a `push` is in flight, nor a `close()` that sets the flag between the two loads of an `await_resume` while an item
has come in or is in flight. -/
def Unhurried (s : State V n) : Action V n → Prop
  | .act i => ∀ a ∈ s.acts[i]?, a.findsEmpty s.tailCtl = true → s.closed = true →
      ∀ t, (s.party t).inFlight = false
  | .party t => (s.party t).sets = true → s.acts.any Act.decided = true →
      s.headCtl = s.tailCtl ∧ ∀ u, (s.party u).inFlight = false
  | _ => True

instance (s : State V n) (act : Action V n) : Decidable (Unhurried s act) :=
  match act with
  | .act i => inferInstanceAs (Decidable (∀ a ∈ s.acts[i]?, _))
  | .party t => inferInstanceAs (Decidable ((s.party t).sets = true → _))
  | .callPush _ | .callClose _ => inferInstanceAs (Decidable True)

/-- Everything accepted is delivered, and nothing more will be accepted. -/
structure Drained (s : State V n) : Prop where
  closed : s.closed = true
  empty : s.popped.length = s.pushed.length
  calm : ∀ t, (s.party t).inFlight = false

/-- An activation about to return `nullopt` from a closed channel, and one that has, stand on a drained one. -/
structure Closing (bits : Nat) (s : State V n) : Prop where
  fifo : Fifo bits s
  decided : s.acts.any Act.decided = true → s.closed = true → Drained s
  ended : (none, true) ∈ s.results → Drained s

variable {s s' : State V n} {a : Act V} {t : Fin (n + 1)} {p : Party V} {i f k : Nat}

theorem Fifo.empty_iff (h : Fifo bits s) : s.headCtl = s.tailCtl ↔ s.popped.length = s.pushed.length := by
  rw [h.head, h.tail]
  exact ringIdx_eq_iff h.order.1 h.order.2

/-- A closed channel stays drained when a party moves without setting out on a `push`. -/
theorem Drained.party (h : Drained s) (hs : s'.party = Function.update s.party t p) (hp : p.inFlight = false)
    (hcl : s'.closed = true) (hpop : s'.popped = s.popped) (hpush : s'.pushed = s.pushed) : Drained s' where
  closed := hcl
  empty := by rw [hpop, hpush]; exact h.empty
  calm u := by
    rw [hs]
    by_cases hut : u = t
    · subst hut; simpa using hp
    · rw [Function.update_of_ne hut]; exact h.calm u

theorem any_decided_resume (f : Nat) (as : List (Act V)) :
    (resume f as).any Act.decided = as.any Act.decided := by
  fun_induction resume f as with
  | case1 => rfl
  | case2 as => simp [Act.decided]
  | case3 j as hj ih => simp [Act.decided, ih]
  | case4 q as => simp [Act.decided]
  | case5 j q as hj ih => simp [Act.decided, ih]
  | case6 b as _ _ ih => simp [ih]

/-- **A drained channel accepts nothing more**: a party's step keeps it drained. -/
theorem Drained.partyStep (h : Drained s) (hs : partyStep bits s t = some s') :
    Drained s' ∧ s'.pushed = s.pushed := by
  have hcalm := h.calm t
  cases hp : s.party t with
  | idle => simp [SPSCChannel.partyStep, hp] at hs
  | pushClosed v =>
      simp only [SPSCChannel.partyStep, hp, h.closed, if_true, Option.some.injEq] at hs
      subst hs
      exact ⟨h.party rfl rfl h.closed rfl rfl, rfl⟩
  | pushTail v | pushHead v i | pushConstruct v i | pushStore v i =>
      rw [hp] at hcalm
      cases hcalm
  | pushExchange | closeExchange =>
      simp only [SPSCChannel.partyStep, hp, takeCallback, Option.some.injEq] at hs
      subst hs
      split <;> exact ⟨h.party rfl rfl h.closed rfl rfl, rfl⟩
  | closeStore =>
      simp only [SPSCChannel.partyStep, hp, Option.some.injEq] at hs
      subst hs
      exact ⟨h.party rfl rfl rfl rfl rfl, rfl⟩
  | callTail f c | callResume f c =>
      simp only [SPSCChannel.partyStep, hp, Option.some.injEq] at hs
      subst hs
      exact ⟨h.party rfl rfl h.closed rfl rfl, rfl⟩

/-! ## §2 — what a step of the consumer can do. -/

/-- **The consumer's steps**: they publish nothing and close nothing; only `await_resume` makes results, and it is
decided where the tail it loads is the head. -/
structure Consumes (s : State V n) (a : Act V) (r : State V n × List (Act V)) : Prop where
  closed : r.1.closed = s.closed
  party : r.1.party = s.party
  pushed : r.1.pushed = s.pushed
  popped : s.popped <+: r.1.popped
  results : ∀ b, (none, b) ∈ r.1.results → (none, b) ∈ s.results ∨ (a.decided = true ∧ b = s.closed)
  decided : r.2.any Act.decided = true → ∃ k, a = .resumeTail k s.tailCtl

theorem consumes {r : State V n × List (Act V)} (hr : actStep bits s a = some r) : Consumes s a r := by
  cases a with
  | parked k => simp [SPSCChannel.actStep] at hr
  | suspend k q o =>
      cases q <;> obtain rfl : _ = r := by simpa [SPSCChannel.actStep] using hr
      all_goals
        refine ⟨rfl, rfl, rfl, List.prefix_refl _, fun b hb => .inl hb, ?_⟩
        simp only [suspended]
        repeat' split
        all_goals simp [Act.decided]
  | resumeTail k head =>
      obtain rfl : _ = r := by simpa [SPSCChannel.actStep] using hr
      refine ⟨rfl, rfl, rfl, List.prefix_refl _, fun b hb => .inl hb, ?_⟩
      by_cases hh : head = s.tailCtl
      · subst hh
        exact fun _ => ⟨k, rfl⟩
      · simp [hh, Act.decided]
  | resumeMove k head =>
      obtain ⟨v, -, rfl⟩ := Option.map_eq_some_iff.mp hr
      exact ⟨rfl, rfl, rfl, List.prefix_refl _, fun b hb => .inl hb, by simp [Act.decided]⟩
  | resumeStore k head v =>
      obtain rfl : _ = r := by simpa [SPSCChannel.actStep] using hr
      refine ⟨rfl, rfl, rfl, List.prefix_append _ _, fun b hb => .inl ?_, by simp [Act.decided]⟩
      simpa using hb
  | resumeClosed k =>
      obtain rfl : _ = r := by simpa [SPSCChannel.actStep] using hr
      refine ⟨rfl, rfl, rfl, List.prefix_refl _, fun b hb => ?_, by simp [Act.decided]⟩
      rcases List.mem_cons.mp hb with hb | hb
      · exact .inr ⟨rfl, by simpa using hb⟩
      · exact .inl hb
  | readyHead k | readyTail k head | readyClosed k =>
      obtain rfl : _ = r := by simpa [SPSCChannel.actStep] using hr
      refine ⟨rfl, rfl, rfl, List.prefix_refl _, fun b hb => .inl hb, ?_⟩
      split <;> simp [Act.decided]
  | body | suspendStore k | resumeHead k =>
      obtain rfl : _ = r := by simpa [SPSCChannel.actStep] using hr
      exact ⟨rfl, rfl, rfl, List.prefix_refl _, fun b hb => .inl hb, by simp [Act.decided]⟩

/-- The consumer finds nothing in a drained channel. -/
theorem Drained.consumes (h : Drained s) (hf : Fifo bits s') {r : State V n × List (Act V)} {as : List (Act V)}
    (hc : Consumes s a r) (hs : s' = { r.1 with acts := as }) : Drained s' := by
  subst hs
  refine ⟨hc.closed.trans h.closed, ?_, fun t => ?_⟩
  · have hle := hf.order.1
    have hge := hc.popped.length_le
    have hempty := h.empty
    show r.1.popped.length = r.1.pushed.length
    have hle' : r.1.popped.length ≤ r.1.pushed.length := hle
    rw [hc.pushed] at hle' ⊢
    omega
  · show (r.1.party t).inFlight = false
    rw [hc.party]; exact h.calm t

/-! ## §3 — whole runs. -/

/-- **A drained channel stays drained**, whatever happens. -/
theorem Drained.step {act : Action V n} (h : Drained s) (hf : Fifo bits s) (hs : step bits s act = some s') :
    Drained s' ∧ s'.pushed = s.pushed := by
  have hf' := hf.step hs
  cases act with
  | callPush v =>
      simp only [SPSCChannel.step] at hs
      split at hs
      · obtain rfl := Option.some.inj hs
        exact ⟨h.party rfl rfl h.closed rfl rfl, rfl⟩
      · cases hs
  | callClose t =>
      simp only [SPSCChannel.step] at hs
      split at hs
      · obtain rfl := Option.some.inj hs
        exact ⟨h.party rfl rfl h.closed rfl rfl, rfl⟩
      · cases hs
  | party t => exact h.partyStep hs
  | act i =>
      obtain ⟨a, pre, post, r, -, -, hr, hs'⟩ := act_split hs
      have hc := SPSCChannel.consumes hr
      refine ⟨h.consumes hf' hc hs', ?_⟩
      rw [hs']
      exact hc.pushed

/-- A party's step makes no result and decides nothing; the flag is set by `close()`. -/
theorem party_facts (hs : partyStep bits s t = some s') :
    s'.results = s.results ∧ s'.acts.any Act.decided = s.acts.any Act.decided ∧
      (s'.closed = true → s.closed = true ∨ s.party t = .closeStore) := by
  cases hp : s.party t with
  | idle => simp [SPSCChannel.partyStep, hp] at hs
  | pushExchange | closeExchange =>
      simp only [SPSCChannel.partyStep, hp, takeCallback, Option.some.injEq] at hs
      subst hs
      split <;> exact ⟨rfl, rfl, .inl⟩
  | closeStore =>
      simp only [SPSCChannel.partyStep, hp, Option.some.injEq] at hs
      subst hs
      exact ⟨rfl, rfl, fun _ => .inr rfl⟩
  | callResume f c =>
      simp only [SPSCChannel.partyStep, hp, Option.some.injEq] at hs
      subst hs
      exact ⟨rfl, any_decided_resume f s.acts, .inl⟩
  | pushClosed v | pushTail v | pushHead v j | pushConstruct v j | pushStore v j | callTail f c =>
      simp only [SPSCChannel.partyStep, hp, Option.some.injEq] at hs
      subst hs
      exact ⟨rfl, rfl, .inl⟩

theorem Closing.partyStep (h : Closing bits s) (hg : Unhurried s (.party t))
    (hs : step bits s (.party t) = some s') : Closing bits s' := by
  obtain ⟨hres, hdec, hcl⟩ := party_facts hs
  have hkeep : Drained s → Drained s' := fun hd => (hd.step h.fifo hs).1
  refine ⟨h.fifo.step hs, fun hd hc => ?_, fun hm => ?_⟩
  · rw [hdec] at hd
    rcases hcl hc with hc | hp
    · exact hkeep (h.decided hd hc)
    · -- the flag is set under a decided activation: the ring is still empty then
      obtain ⟨hempty, hcalm⟩ := hg (by rw [hp]; rfl) hd
      have hs' : SPSCChannel.partyStep bits s t = some s' := hs
      simp only [SPSCChannel.partyStep, hp, Option.some.injEq] at hs'
      subst hs'
      refine ⟨rfl, h.fifo.empty_iff.mp hempty, fun u => ?_⟩
      show (Function.update s.party t .closeExchange u).inFlight = false
      by_cases hut : u = t
      · subst hut; simp [Party.inFlight]
      · rw [Function.update_of_ne hut]; exact hcalm u
  · rw [hres] at hm
    exact hkeep (h.ended hm)

theorem Closing.actStep (h : Closing bits s) (hg : Unhurried s (.act i)) (hs : step bits s (.act i) = some s') :
    Closing bits s' := by
  have hf' := h.fifo.step hs
  have hkeep : Drained s → Drained s' := fun hd => (hd.step h.fifo hs).1
  obtain ⟨a, pre, post, r, hi, hacts, hr, rfl⟩ := act_split hs
  have hc := SPSCChannel.consumes hr
  refine ⟨hf', fun hd hcl => hkeep ?_, fun hm => hkeep ?_⟩
  · have hcl' : s.closed = true := hc.closed.symm.trans hcl
    have hd' : (pre ++ r.2 ++ post).any Act.decided = true := hd
    rw [List.any_append, List.any_append, Bool.or_eq_true, Bool.or_eq_true] at hd'
    rcases hd' with (hd' | hd') | hd'
    · exact h.decided (by rw [hacts]; simp only [List.any_append, hd', Bool.true_or]) hcl'
    · obtain ⟨k, rfl⟩ := hc.decided hd'
      have hplaced : s.tailCtl = s.headCtl := h.fifo.acts (.resumeTail k s.tailCtl) (by rw [hacts]; simp)
      exact ⟨hcl', h.fifo.empty_iff.mp hplaced.symm, hg _ hi (by simp [Act.findsEmpty]) hcl'⟩
    · exact h.decided (by rw [hacts]; simp [hd']) hcl'
  · rcases hc.results true hm with hm | ⟨hdec, hcl⟩
    · exact h.ended hm
    · exact h.decided (by rw [hacts]; simp [hdec]) hcl.symm

theorem Closing.step {act : Action V n} (h : Closing bits s) (hg : Unhurried s act) (hs : step bits s act = some s') :
    Closing bits s' := by
  cases act with
  | party t => exact h.partyStep hg hs
  | act i => exact h.actStep hg hs
  | callPush v =>
      have hkeep : Drained s → Drained s' := fun hd => (hd.step h.fifo hs).1
      have hf' := h.fifo.step hs
      simp only [SPSCChannel.step] at hs
      split at hs
      · obtain rfl := Option.some.inj hs
        exact ⟨hf', fun hd hc => hkeep (h.decided hd hc), fun hm => hkeep (h.ended hm)⟩
      · cases hs
  | callClose t =>
      have hkeep : Drained s → Drained s' := fun hd => (hd.step h.fifo hs).1
      have hf' := h.fifo.step hs
      simp only [SPSCChannel.step] at hs
      split at hs
      · obtain rfl := Option.some.inj hs
        exact ⟨hf', fun hd hc => hkeep (h.decided hd hc), fun hm => hkeep (h.ended hm)⟩
      · cases hs

theorem closing_init : Closing bits (init V n) :=
  ⟨fifo_init, by simp [init, Act.decided], by simp [init]⟩

/-- What holds from the end on: the channel stays drained, and what was accepted stays the same. -/
structure Ended (bits : Nat) (s u : State V n) : Prop where
  fifo : Fifo bits u
  drained : Drained u
  pushed : u.pushed = s.pushed

theorem Ended.step {u u' : State V n} {act : Action V n} (h : Ended bits s u) (hs : step bits u act = some u') :
    Ended bits s u' := by
  obtain ⟨hd, hp⟩ := h.drained.step h.fifo hs
  exact ⟨h.fifo.step hs, hd, hp.trans h.pushed⟩

/-- **Closing drops nothing that was accepted**, in a run that hurries nobody: once the consumer has received
`nullopt` from a closed channel, all that was accepted then or is accepted in any continuation has already been
delivered to it. -/
theorem closing_drops_nothing (V : Type) (bits n : Nat) (s s' : State V n)
    (h : Run (step bits) Unhurried (init V n) s) (hend : (none, true) ∈ s.results)
    (h' : Run (step bits) Unhurried s s') : s'.pushed = s.popped := by
  have hinv : Closing bits s := h.invariant (fun _ _ _ hi hg hs => hi.step hg hs) closing_init
  have hd := hinv.ended hend
  have hall : s.popped = s.pushed := hinv.fifo.fifo.eq_of_length hd.empty
  have hlater : Ended bits s s' := h'.invariant (fun _ _ _ hi _ hs => hi.step hs) ⟨hinv.fifo, hd, rfl⟩
  rw [hlater.pushed, hall]

/-- After the end, another `push` is refused. -/
theorem closing_drops_nothing_pushThenClose :
    ∃ s s', Run (step 1) Unhurried (init Nat 1) s ∧ (none, true) ∈ s.results ∧ Run (step 1) Unhurried s s' ∧
      s'.pushed = s.popped ∧ s.popped = [7] := by
  obtain ⟨s, s', hs, hs', hend, hpop⟩ : ∃ s s', exec (guarded (step 1) Unhurried) (init Nat 1) (pushThenClose 0 1) = some s ∧
      exec (guarded (step 1) Unhurried) s [.callPush 8, .party 0] = some s' ∧ (none, true) ∈ s.results ∧
      s.popped = [7] := ⟨_, _, rfl, rfl, by decide, by decide⟩
  have hrun := run_of_exec_guarded hs
  have hrun' := run_of_exec_guarded hs'
  exact ⟨s, s', hrun, hend, hrun', closing_drops_nothing Nat 1 1 s s' hrun hend hrun', hpop⟩

/-- `push` tests the flag; then comes a whole `close()`, and the consumer is told the end. -/
def closeInsidePush (p c : Fin (n + 1)) : List (Action Nat n) :=
  List.flatten [[.callPush 7, .party p, .callClose c, .party c, .party c], List.replicate 7 (.act 0)]

/-- **An item is accepted after the end was reported.** -/
theorem item_accepted_after_close :
    ¬ ∀ (bits n : Nat) (s s' : State Nat n), Reachable (step bits) (init Nat n) s → (none, true) ∈ s.results →
      Reachable (step bits) s s' → s'.pushed = s.popped := by
  intro h
  obtain ⟨s, s', hs, hs', hend, hpush, hpop⟩ : ∃ s s', exec (step 1) (init Nat 1) (closeInsidePush 0 1) = some s ∧
      exec (step 1) s [.party 0, .party 0, .party 0, .party 0] = some s' ∧ (none, true) ∈ s.results ∧
      s'.pushed = [7] ∧ s.popped = [] := ⟨_, _, rfl, rfl, by decide, by decide, by decide⟩
  have := h 1 1 s s' (reachable_of_exec hs) hend (reachable_of_exec hs')
  rw [hpush, hpop] at this
  cases this

end NetCpp.Coro.SPSCChannel
