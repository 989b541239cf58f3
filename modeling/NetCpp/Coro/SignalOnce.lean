/-
# NetCpp.Coro.SignalOnce — `MPSCSignal` resumes each suspension at most once, and only real ones.

The word says only that SOMEBODY waits; whose registration it is, which thread took it and what became of it is kept
in a ghost beside the state.

The one way to break it: `fn(h)` runs under an `await_suspend` that still has its second exchange to do, the coroutine
registers again, and that exchange finds the WAITING of the NEXT registration.  The old call then returns `false`
although its continuation was invoked (`old_exchange_returns_false`).  In a run without such a step the property holds,
and in a run with one it fails.
-/
import NetCpp.Coro.Signal

namespace NetCpp.Coro.MPSCSignal

open NetCpp.Lib

variable {n : Nat}

/-! ## §1 — the ghost. -/

structure Ghost (n : Nat) where
  /-- the registration that put WAITING in the word last -/
  published : Option Await
  /-- whose WAITING each thread's exchange took away last -/
  took : Fin n → Option Await
  /-- the pairs copied out, each with the registration whose WAITING the copying thread had taken -/
  copies : List (Await × Option Await)
  /-- the registrations whose continuation was invoked -/
  invoked : List Await
  /-- the registrations whose `await_suspend` returned `false` -/
  refused : List Await

def ghost (n : Nat) : Ghost n := ⟨none, fun _ => none, [], [], []⟩

def observeProd (s : State n) (t : Fin n) (g : Ghost n) : Ghost n :=
  match s.prod t with
  | .relExchange _ | .stopExchange =>
      if s.word = .waiting then { g with took := Function.update g.took t g.published } else g
  | .relCopy _ | .stopCopy => { g with copies := (s.cont.toList.map fun k => (k, g.took t)) ++ g.copies }
  | .relInvoke _ k | .stopInvoke k => { g with invoked := k :: g.invoked }
  | .idle | .relRestore _ | .relStore _ _ => g

def observeAct (s : State n) (g : Ghost n) : Act → Ghost n
  | .suspendExchange k => { g with published := some k }
  | .suspendRetract k _ | .outrun k _ => if s.word = .waiting then { g with refused := k :: g.refused } else g
  | _ => g

def observe (s : State n) (act : Action n) (g : Ghost n) : Ghost n :=
  match act with
  | .prod t => observeProd s t g
  | .act i => (s.acts[i]?.map (observeAct s g)).getD g
  | .callRelease _ | .callStop _ => g

/-- **Each registration is resumed at most once and only if it suspended**, and every pair copied out is that of the
registration whose WAITING was taken. -/
structure Exclusive (g : Ghost n) : Prop where
  once : g.invoked.Nodup
  real : ∀ k ∈ g.invoked, k ∉ g.refused
  pair : ∀ c ∈ g.copies, c.2 = some c.1

/-- An `await_suspend` call whose coroutine was resumed under it. -/
def Act.Left (a : Act) : Prop := ∃ k old, a = .outrun k old

/-- **The registration is not stolen.** The step is not the second exchange of an `await_suspend` call, taken on WAITING
after that call's own continuation was invoked. -/
def NotStolen (s : State n) : Action n → Prop
  | .act i => (∃ a ∈ s.acts[i]?, a.Left) → s.word ≠ .waiting
  | _ => True

def Act.isLeft : Act → Bool
  | .outrun _ _ => true
  | _ => false

theorem Act.isLeft_iff (a : Act) : a.isLeft = true ↔ a.Left := by
  cases a <;> simp [Act.isLeft, Act.Left]

instance (a : Act) : Decidable a.Left := decidable_of_iff _ a.isLeft_iff

instance (s : State n) (act : Action n) : Decidable (NotStolen s act) :=
  match act with
  | .act i => inferInstanceAs (Decidable ((∃ a ∈ s.acts[i]?, a.Left) → _))
  | .callRelease _ | .callStop _ | .prod _ => inferInstanceAs (Decidable True)

/-! ## §2 — the invariant. -/

/-- The await an activation performs and has not been resumed from. -/
def Act.opens : Act → Option Await
  | .readyLoad k | .readyCas k | .readyLoad2 k | .suspendWrite k | .suspendExchange k
  | .suspendRetract k _ | .parked k => some k
  | .body | .outrun _ _ | .resumeLoad _ => none

/-- The await whose pair is in the fields. -/
def Act.written : Act → Option Await
  | .suspendExchange k | .suspendRetract k _ | .parked k => some k
  | _ => none

/-- **Ownership with leftovers.** One live activation among calls that were outrun; at most one thread holds a
continuation, that of the live activation's registration. -/
structure Shared (s : State n) (g : Ghost n) (a : Act) : Prop where
  acts : Sole Act.Left a s.acts
  live : ¬ a.Left
  unique : OnlyOne (fun p : Prod => p.holds = true) s.prod
  holder : ∀ t, (s.prod t).holds = true → s.word ≠ .waiting ∧ ∃ k, a.slot = some k ∧ g.took t = some k
  copied : ∀ t k, (s.prod t).copied = some k → a.slot = some k
  cont : ∀ k, a.written = some k → s.cont = some k
  waiting : s.word = .waiting → ∃ k, a.slot = some k ∧ g.published = some k

/-- What is recorded of the registrations so far. -/
structure Recorded (s : State n) (g : Ghost n) (a : Act) : Prop where
  fresh : ∀ k, k ∈ g.invoked ∨ k ∈ g.refused → k.id < s.awaits
  unused : ∀ k, a.opens = some k → k.id < s.awaits ∧ k ∉ g.invoked ∧ k ∉ g.refused
  left : ∀ k old, .outrun k old ∈ s.acts → k ∈ g.invoked
  exclusive : Exclusive g

variable {s s' : State n} {g g' : Ghost n} {a a' : Act} {t : Fin n} {p : Prod} {w : Word} {i : Nat} {k : Await}

theorem opens_of_slot (h : a.slot = some k) : a.opens = some k := by
  cases a with
  | suspendRetract j old => exact h
  | parked j => exact h
  | _ => cases h

theorem written_of_slot (h : a.slot = some k) : a.written = some k := by
  cases a with
  | suspendRetract j old => exact h
  | parked j => exact h
  | _ => cases h

/-! ## §3 — the threads' steps. -/

/-- A thread moves outside the holding region. -/
theorem Shared.outside (h : Shared s g a) (m : Moves s s' t p w) (ha : s'.acts = s.acts)
    (hp : (s.prod t).holds = false) (hp' : p.holds = false) (hw : w = s.word ∨ w ≠ .waiting) : Shared s' g a := by
  have hsame : ∀ u, (s'.prod u).holds = true → s'.prod u = s.prod u := by
    intro u hu
    apply m.there u
    rintro rfl
    rw [m.here, hp'] at hu; cases hu
  refine ⟨ha ▸ h.acts, h.live, ?_, ?_, ?_, fun k hk => m.cont.trans (h.cont k hk), ?_⟩
  · intro u v hu hv
    exact h.unique u v (hsame u hu ▸ hu) (hsame v hv ▸ hv)
  · intro u hu
    obtain ⟨hne, hk⟩ := h.holder u (hsame u hu ▸ hu)
    refine ⟨?_, hk⟩
    rw [m.word]
    rcases hw with rfl | hw
    · exact hne
    · exact hw
  · intro u k hu
    exact h.copied u k (hsame u (holds_of_copied hu) ▸ hu)
  · intro hwait
    rw [m.word] at hwait
    rcases hw with rfl | hw
    · exact h.waiting hwait
    · exact absurd hwait hw

/-- The exchange that takes WAITING away: the thread is the only holder, and it took the live registration's. -/
theorem Shared.take (h : Shared s g a) (m : Moves s s' t p w) (ha : s'.acts = s.acts) (hwait : s.word = .waiting)
    (hc : p.copied = none) (hw : w ≠ .waiting) :
    Shared s' { g with took := Function.update g.took t g.published } a := by
  have hnone : ∀ u, (s.prod u).holds = false := by
    intro u
    by_contra hu
    exact (h.holder u (by simpa using hu)).1 hwait
  have honly : ∀ u, (s'.prod u).holds = true → u = t := by
    intro u hu
    by_contra hut
    rw [m.there u hut, hnone u] at hu; cases hu
  obtain ⟨k, hk, hpub⟩ := h.waiting hwait
  refine ⟨ha ▸ h.acts, h.live, ?_, ?_, ?_, fun k hk => m.cont.trans (h.cont k hk), ?_⟩
  · intro u v hu hv
    rw [honly u hu, honly v hv]
  · intro u hu
    obtain rfl := honly u hu
    refine ⟨by rw [m.word]; exact hw, k, hk, ?_⟩
    show Function.update g.took u g.published u = some k
    rw [Function.update_self]; exact hpub
  · intro u j hu
    obtain rfl := honly u (holds_of_copied hu)
    rw [m.here, hc] at hu; cases hu
  · intro hwait'
    rw [m.word] at hwait'
    exact absurd hwait' hw

/-- The holder moves on towards its `fn(h)`. -/
theorem Shared.inside (h : Shared s g a) (m : Moves s s' t p w) (ha : s'.acts = s.acts) (hg : g'.took = g.took)
    (hp : (s.prod t).holds = true) (hc : ∀ k, p.copied = some k → a.slot = some k)
    (hw : w ≠ .waiting) : Shared s' g' a := by
  have hother : ∀ u, (s'.prod u).holds = true → u = t := by
    intro u hu
    by_contra hut
    rw [m.there u hut] at hu
    exact hut (h.unique u t hu hp)
  refine ⟨ha ▸ h.acts, h.live, ?_, ?_, ?_, fun k hk => m.cont.trans (h.cont k hk), ?_⟩
  · intro u v hu hv
    rw [hother u hu, hother v hv]
  · intro u hu
    obtain rfl := hother u hu
    obtain ⟨-, hk⟩ := h.holder u hp
    exact ⟨by rw [m.word]; exact hw, by rw [hg]; exact hk⟩
  · intro u k hu
    obtain rfl := hother u (holds_of_copied hu)
    exact hc k (m.here ▸ hu)
  · intro hwait
    rw [m.word] at hwait
    exact absurd hwait hw

theorem invoke_leftovers (l r : List Act) (hl : ∀ b ∈ l, b.Left) : invoke k (l ++ r) = l ++ invoke k r := by
  induction l with
  | nil => rfl
  | cons b l ih =>
      obtain ⟨j, old, rfl⟩ := hl b List.mem_cons_self
      have := ih fun c hc => hl c (List.mem_cons_of_mem _ hc)
      simp [invoke, this]

/-- `fn(h)` on the registration of the live activation: it runs on; a call that is not done becomes a leftover. -/
theorem sole_invoke {as : List Act} (h : Sole Act.Left a as) (hk : a.slot = some k) :
    Sole Act.Left (.resumeLoad k) (invoke k as) ∧
      ∀ j old, .outrun j old ∈ invoke k as → j = k ∨ .outrun j old ∈ as := by
  obtain ⟨l, r, rfl, hp⟩ := h
  rw [invoke_leftovers l _ fun b hb => hp b (List.mem_append_left r hb)]
  cases a with
  | suspendRetract j old =>
      obtain rfl : j = k := by simpa [Act.slot] using hk
      have he : invoke j (.suspendRetract j old :: r) = .outrun j old :: .resumeLoad j :: r := by
        simp [invoke]
      rw [he]
      refine ⟨sole_behind hp ⟨j, old, rfl⟩ _, fun i o hi => ?_⟩
      simp only [List.mem_append, List.mem_cons] at hi ⊢
      rcases hi with hi | hi | hi | hi
      · exact .inr (.inl hi)
      · exact .inl (by injection hi)
      · cases hi
      · exact .inr (.inr (.inr hi))
  | parked j =>
      obtain rfl : j = k := by simpa [Act.slot] using hk
      have he : invoke j (.parked j :: r) = .resumeLoad j :: r := by simp [invoke]
      rw [he]
      refine ⟨⟨l, r, rfl, hp⟩, fun i o hi => .inr ?_⟩
      simpa using hi
  | _ => cases hk

/-- The holder's `fn(h)`. -/
theorem Shared.invoke (h : Shared s g a) (hp : (s.prod t).invokes = some k) (m : Moves s s' t .idle s.word)
    (ha : s'.acts = MPSCSignal.invoke k s.acts) : Shared s' g' (.resumeLoad k) := by
  obtain ⟨hh, hcp⟩ := holds_of_invokes hp
  have hslot := h.copied t k hcp
  have hnone : ∀ u, (s'.prod u).holds = false := by
    intro u
    by_cases hut : u = t
    · subst hut; rw [m.here]; rfl
    · rw [m.there u hut]
      by_contra hu
      exact hut (h.unique u t (by simpa using hu) hh)
  refine ⟨ha ▸ (sole_invoke h.acts hslot).1, ?_, ?_, ?_, ?_, ?_, ?_⟩
  · rintro ⟨j, old, hj⟩; cases hj
  · intro u v hu; rw [hnone u] at hu; cases hu
  · intro u hu; rw [hnone u] at hu; cases hu
  · intro u j hu
    have := holds_of_copied hu
    rw [hnone u] at this; cases this
  · intro j hj; cases hj
  · intro hwait
    rw [m.word] at hwait
    exact absurd hwait (h.holder t hh).1

/-- A step that invokes nothing and returns from no `await_suspend`. -/
theorem Recorded.same (h : Recorded s g a) (hi : g'.invoked = g.invoked) (hr : g'.refused = g.refused)
    (hc : ∀ c ∈ g'.copies, c ∈ g.copies ∨ c.2 = some c.1) (haw : s.awaits ≤ s'.awaits)
    (hopen : ∀ k, a'.opens = some k → a.opens = some k ∨ k.id = s.awaits ∧ s.awaits < s'.awaits)
    (hleft : ∀ k old, .outrun k old ∈ s'.acts → .outrun k old ∈ s.acts) : Recorded s' g' a' := by
  refine ⟨?_, ?_, ?_, ?_⟩
  · intro k hk
    rw [hi, hr] at hk
    exact Nat.lt_of_lt_of_le (h.fresh k hk) haw
  · intro k hk
    rw [hi, hr]
    rcases hopen k hk with hk | ⟨hid, hlt⟩
    · obtain ⟨hlt, hun⟩ := h.unused k hk
      exact ⟨Nat.lt_of_lt_of_le hlt haw, hun⟩
    · refine ⟨by omega, fun hmem => ?_, fun hmem => ?_⟩
      · exact absurd (h.fresh k (.inl hmem)) (by omega)
      · exact absurd (h.fresh k (.inr hmem)) (by omega)
  · intro k old hk
    rw [hi]; exact h.left k old (hleft k old hk)
  · refine ⟨by rw [hi]; exact h.exclusive.once, ?_, ?_⟩
    · rw [hi, hr]; exact h.exclusive.real
    · intro c hmem
      rcases hc c hmem with hc | hc
      · exact h.exclusive.pair c hc
      · exact hc

/-- `fn(h)` for a registration that was not invoked before and did not return `false`. -/
theorem Recorded.invoke (h : Recorded s g a) (hk : a.opens = some k) (haw : s'.awaits = s.awaits)
    (hleft : ∀ j old, .outrun j old ∈ s'.acts → j = k ∨ .outrun j old ∈ s.acts) :
    Recorded s' { g with invoked := k :: g.invoked } (.resumeLoad k) := by
  obtain ⟨hlt, hinv, href⟩ := h.unused k hk
  refine ⟨?_, by simp [Act.opens], ?_, ?_⟩
  · intro j hj
    rw [haw]
    rcases hj with hj | hj
    · rcases List.mem_cons.mp hj with rfl | hj
      · exact hlt
      · exact h.fresh j (.inl hj)
    · exact h.fresh j (.inr hj)
  · intro j old hj
    rcases hleft j old hj with rfl | hj
    · exact List.mem_cons_self
    · exact List.mem_cons_of_mem _ (h.left j old hj)
  · refine ⟨List.nodup_cons.mpr ⟨hinv, h.exclusive.once⟩, fun j hj => ?_, h.exclusive.pair⟩
    rcases List.mem_cons.mp hj with rfl | hj
    · exact href
    · exact h.exclusive.real j hj

/-- The second exchange of the live registration returns `false`: nobody has invoked it. -/
theorem Recorded.refuse (h : Recorded s g a) (hk : a.opens = some k) (haw : s'.awaits = s.awaits)
    (hleft : ∀ j old, .outrun j old ∈ s'.acts → .outrun j old ∈ s.acts) :
    Recorded s' { g with refused := k :: g.refused } (.resumeLoad k) := by
  obtain ⟨hlt, hinv, href⟩ := h.unused k hk
  refine ⟨?_, by simp [Act.opens], fun j old hj => h.left j old (hleft j old hj), ?_⟩
  · intro j hj
    rw [haw]
    rcases hj with hj | hj
    · exact h.fresh j (.inl hj)
    · rcases List.mem_cons.mp hj with rfl | hj
      · exact hlt
      · exact h.fresh j (.inr hj)
  · refine ⟨h.exclusive.once, fun j hj hmem => ?_, h.exclusive.pair⟩
    rcases List.mem_cons.mp hmem with rfl | hmem
    · exact hinv hj
    · exact h.exclusive.real j hj hmem

/-- A thread's step that leaves the activations alone and records at most a copy. -/
theorem Recorded.thread (h : Recorded s g a) (ha : s'.acts = s.acts) (haw : s'.awaits = s.awaits)
    (hi : g'.invoked = g.invoked) (hr : g'.refused = g.refused)
    (hc : ∀ c ∈ g'.copies, c ∈ g.copies ∨ c.2 = some c.1) : Recorded s' g' a :=
  h.same hi hr hc haw.ge (fun _ hk => .inl hk) (fun _ _ hj => ha ▸ hj)

/-- The pair a holder copies out is that of the registration whose WAITING it took. -/
theorem Shared.cont_of_holder (h : Shared s g a) (hp : (s.prod t).holds = true) :
    ∃ k, s.cont = some k ∧ a.slot = some k ∧ g.took t = some k := by
  obtain ⟨-, k, hk, htook⟩ := h.holder t hp
  exact ⟨k, h.cont k (written_of_slot hk), hk, htook⟩

theorem Shared.prodStep (h : Shared s g a) (hr : Recorded s g a) (hs : prodStep s t = some s') :
    ∃ a', Shared s' (observeProd s t g) a' ∧ Recorded s' (observeProd s t g) a' := by
  cases hp : s.prod t with
  | idle => simp [MPSCSignal.prodStep, hp] at hs
  | relExchange b | stopExchange =>
      have hobs : observeProd s t g =
          if s.word = .waiting then { g with took := Function.update g.took t g.published } else g := by
        simp [observeProd, hp]
      rw [hobs]
      cases hw : s.word <;> simp only [MPSCSignal.prodStep, hp, hw, Option.some.injEq] at hs <;> subst hs
      case waiting =>
        exact ⟨a, h.take (moves_of rfl rfl rfl) rfl hw rfl (by simp),
          hr.thread rfl rfl rfl rfl fun c hc => .inl hc⟩
      all_goals
        exact ⟨a, h.outside (moves_of rfl rfl rfl) rfl (by rw [hp]; rfl) rfl (.inr (by simp)),
          hr.thread rfl rfl rfl rfl fun c hc => .inl hc⟩
  | relRestore b =>
      simp only [MPSCSignal.prodStep, hp, Option.some.injEq] at hs
      subst hs
      simp only [observeProd, hp]
      exact ⟨a, h.outside (moves_of rfl rfl rfl) rfl (by rw [hp]; rfl) rfl (.inr (by simp)),
        hr.thread rfl rfl rfl rfl fun c hc => .inl hc⟩
  | relCopy b | stopCopy =>
      have hhold : (s.prod t).holds = true := by rw [hp]; rfl
      obtain ⟨k, hc, hslot, htook⟩ := h.cont_of_holder hhold
      simp only [MPSCSignal.prodStep, hp, hc, Option.some.injEq] at hs
      subst hs
      simp only [observeProd, hp, hc, htook]
      refine ⟨a, h.inside (moves_of rfl rfl rfl) rfl rfl hhold ?_ (h.holder t hhold).1,
        hr.thread rfl rfl rfl rfl fun c hmem => ?_⟩
      · intro j hj
        obtain rfl : k = j := by simpa [Prod.copied] using hj
        exact hslot
      · rcases List.mem_append.mp hmem with hmem | hmem
        · obtain rfl : c = (k, some k) := by simpa using hmem
          exact .inr rfl
        · exact .inl hmem
  | relStore b k =>
      simp only [MPSCSignal.prodStep, hp, Option.some.injEq] at hs
      subst hs
      simp only [observeProd, hp]
      refine ⟨a, h.inside (moves_of rfl rfl rfl) rfl rfl (by rw [hp]; rfl) ?_ (by simp),
        hr.thread rfl rfl rfl rfl fun c hc => .inl hc⟩
      intro j hj
      exact h.copied t j (by rw [hp]; exact hj)
  | relInvoke b k | stopInvoke k =>
      simp only [MPSCSignal.prodStep, hp, Option.some.injEq] at hs
      subst hs
      simp only [observeProd, hp]
      have hinv : (s.prod t).invokes = some k := by rw [hp]; rfl
      have hslot := h.copied t k (holds_of_invokes hinv).2
      exact ⟨.resumeLoad k, h.invoke hinv (moves_of rfl rfl rfl) rfl,
        hr.invoke (opens_of_slot hslot) rfl (sole_invoke h.acts hslot).2⟩

/-! ## §4 — the activations' steps. -/

/-- With nothing published, nobody holds anything and the word is not WAITING. -/
theorem Shared.free (h : Shared s g a) (ha : a.slot = none) :
    (∀ t, (s.prod t).holds = false) ∧ s.word ≠ .waiting := by
  refine ⟨fun t => ?_, fun hw => ?_⟩
  · by_contra hh
    obtain ⟨-, k, hk, -⟩ := h.holder t (by simpa using hh)
    rw [ha] at hk; cases hk
  · obtain ⟨k, hk, -⟩ := h.waiting hw
    rw [ha] at hk; cases hk

/-- The live activation moves while nobody holds anything. -/
theorem Shared.alone (hnone : ∀ t, (s.prod t).holds = false) (hacts : Sole Act.Left a' s'.acts) (hlive : ¬ a'.Left)
    (hprod : s'.prod = s.prod) (hcont : ∀ k, a'.written = some k → s'.cont = some k)
    (hw : s'.word = .waiting → ∃ k, a'.slot = some k ∧ g.published = some k) : Shared s' g a' := by
  refine ⟨hacts, hlive, ?_, ?_, ?_, hcont, hw⟩
  · intro u v hu; rw [hprod, hnone u] at hu; cases hu
  · intro u hu; rw [hprod, hnone u] at hu; cases hu
  · intro u j hu
    have := holds_of_copied hu
    rw [hprod, hnone u] at this; cases this

/-- With nothing published before and nothing in the word after. -/
theorem Shared.running (h : Shared s g a) (ha : a.slot = none) (hacts : Sole Act.Left a' s'.acts) (hlive : ¬ a'.Left)
    (hprod : s'.prod = s.prod) (hcont : ∀ k, a'.written = some k → s'.cont = some k)
    (hw : s'.word ≠ .waiting) : Shared s' g a' :=
  .alone (h.free ha).1 hacts hlive hprod hcont fun hwait => absurd hwait hw

/-- The second exchange finds WAITING gone: the call returns `true`. -/
theorem Shared.parks {old : Word} (h : Shared s g (.suspendRetract k old)) (hacts : Sole Act.Left (.parked k) s'.acts)
    (hprod : s'.prod = s.prod) (hc : s'.cont = s.cont) (hw : s'.word ≠ .waiting) : Shared s' g (.parked k) := by
  refine ⟨hacts, ?_, by rw [hprod]; exact h.unique, ?_, ?_, ?_, fun hw' => absurd hw' hw⟩
  · rintro ⟨j, o, hj⟩; cases hj
  · intro u hu
    exact ⟨hw, (h.holder u (hprod ▸ hu)).2⟩
  · intro u j hu
    exact h.copied u j (hprod ▸ hu)
  · intro j hj
    exact hc.trans (h.cont j hj)

/-- A leftover's second exchange that does not find WAITING changes nothing that anybody relies on. -/
theorem Shared.leftover (h : Shared s g a) (hacts : Sole Act.Left a s'.acts) (hprod : s'.prod = s.prod)
    (hc : s'.cont = s.cont) (hw : s'.word ≠ .waiting) : Shared s' g a := by
  refine ⟨hacts, h.live, by rw [hprod]; exact h.unique, ?_, ?_, ?_, fun hw' => absurd hw' hw⟩
  · intro u hu
    exact ⟨hw, (h.holder u (hprod ▸ hu)).2⟩
  · intro u j hu
    exact h.copied u j (hprod ▸ hu)
  · intro j hj
    exact hc.trans (h.cont j hj)

/-- The live activation moves on without having been resumed. -/
theorem Recorded.forward (h : Recorded s g a) (hacts : s'.acts = s.acts.take i ++ [a'] ++ s.acts.drop (i + 1))
    (hlive : ¬ a'.Left) (haw : s'.awaits = s.awaits) (hi : g'.invoked = g.invoked) (hr : g'.refused = g.refused)
    (hc : g'.copies = g.copies) (hopen : ∀ k, a'.opens = some k → a.opens = some k) : Recorded s' g' a' := by
  refine h.same hi hr (fun c hmem => .inl (hc ▸ hmem)) haw.ge (fun k hk => .inl (hopen k hk)) ?_
  intro k old hk
  rw [hacts] at hk
  rcases mem_of_mem_splice hk with hmem | hmem
  · exact absurd ⟨k, old, (List.mem_singleton.mp hmem).symm⟩ hlive
  · exact hmem

/-- What one step of the live activation keeps. -/
theorem Shared.liveStep (h : Shared s g a) (hr : Recorded s g a) {r : State n × List Act}
    (hstep : actStep s a = some r) (hs : s' = { r.1 with acts := s.acts.take i ++ r.2 ++ s.acts.drop (i + 1) })
    (hsole : ∀ a', Sole Act.Left a' (s.acts.take i ++ [a'] ++ s.acts.drop (i + 1))) :
    ∃ a', Shared s' (observeAct s g a) a' ∧ Recorded s' (observeAct s g a) a' := by
  have hfree := h.free
  cases a with
  | body =>
      obtain rfl : _ = r := by simpa [MPSCSignal.actStep] using hstep
      subst hs
      refine ⟨.readyLoad ⟨s.awaits, s.stopRet⟩, h.running rfl (hsole _) (by rintro ⟨j, o, hj⟩; cases hj) rfl
        (by simp [Act.written]) (hfree rfl).2, hr.same rfl rfl (fun c hc => .inl hc) (Nat.le_succ _) ?_ ?_⟩
      · intro k hk
        obtain rfl : _ = k := by simpa [Act.opens] using hk
        exact .inr ⟨rfl, Nat.lt_succ_self _⟩
      · intro k old hk
        simpa using mem_of_mem_splice hk
  | readyLoad k | readyLoad2 k =>
      obtain rfl : _ = r := by simpa [MPSCSignal.actStep] using hstep
      subst hs
      refine ⟨_, h.running rfl (hsole _) ?_ rfl ?_ (hfree rfl).2, hr.forward rfl ?_ rfl rfl rfl rfl ?_⟩
      all_goals split <;> simp [Act.Left, Act.written, Act.opens]
  | readyCas k =>
      obtain rfl : _ = r := by simpa [MPSCSignal.actStep] using hstep
      subst hs
      refine ⟨.resumeLoad k, h.running rfl (hsole _) (by rintro ⟨j, o, hj⟩; cases hj) ?_ (by simp [Act.written]) ?_,
        hr.forward rfl (by rintro ⟨j, o, hj⟩; cases hj) ?_ rfl rfl rfl (by simp [Act.opens])⟩
      · dsimp only; split <;> rfl
      · dsimp only
        split
        · simp
        · exact (hfree rfl).2
      · dsimp only; split <;> rfl
  | suspendWrite k =>
      obtain rfl : _ = r := by simpa [MPSCSignal.actStep] using hstep
      subst hs
      refine ⟨.suspendExchange k, h.running rfl (hsole _) (by rintro ⟨j, o, hj⟩; cases hj) rfl ?_ (hfree rfl).2,
        hr.forward rfl (by rintro ⟨j, o, hj⟩; cases hj) rfl rfl rfl rfl fun j hj => hj⟩
      intro j hj
      exact hj
  | suspendExchange k =>
      obtain rfl : _ = r := by simpa [MPSCSignal.actStep] using hstep
      subst hs
      have hcont := h.cont k rfl
      refine ⟨_, .alone (hfree rfl).1 (hsole _) ?_ rfl ?_ fun _ => ⟨k, ?_, rfl⟩,
        hr.forward rfl ?_ rfl rfl rfl rfl ?_⟩
      all_goals split <;> simp [Act.Left, Act.written, Act.opens, Act.slot, hcont]
  | suspendRetract k old =>
      obtain rfl : _ = r := by simpa [MPSCSignal.actStep] using hstep
      subst hs
      by_cases hgot : s.word = .waiting
      · -- the registration is still in the word, so no producer has it
        have hnone : ∀ t, (s.prod t).holds = false := by
          intro t
          by_contra ht
          exact (h.holder t (by simpa using ht)).1 hgot
        simp only [observeAct, hgot, if_true]
        refine ⟨.resumeLoad k, .alone hnone (hsole _) (by rintro ⟨j, o, hj⟩; cases hj) rfl (by simp [Act.written])
          fun hw => absurd hw (word_retract_ne old), hr.refuse rfl rfl ?_⟩
        intro j o hj
        simpa using mem_of_mem_splice hj
      · simp only [observeAct, hgot, if_false]
        exact ⟨.parked k, h.parks (hsole _) rfl rfl (word_retract_ne old),
          hr.forward rfl (by rintro ⟨j, o, hj⟩; cases hj) rfl rfl rfl rfl fun j hj => hj⟩
  | parked k => simp [MPSCSignal.actStep] at hstep
  | outrun k old => exact absurd ⟨k, old, rfl⟩ h.live
  | resumeLoad k =>
      obtain rfl : _ = r := by simpa [MPSCSignal.actStep] using hstep
      subst hs
      exact ⟨.body, h.running rfl (hsole _) (by rintro ⟨j, o, hj⟩; cases hj) rfl (by simp [Act.written]) (hfree rfl).2,
        hr.forward rfl (by rintro ⟨j, o, hj⟩; cases hj) rfl rfl rfl rfl (by simp [Act.opens])⟩

/-- What a leftover's step keeps. -/
theorem Shared.leftStep (h : Shared s g a) (hr : Recorded s g a) {b : Act} (hb : b.Left) (hw : s.word ≠ .waiting)
    {r : State n × List Act} (hstep : actStep s b = some r)
    (hs : s' = { r.1 with acts := s.acts.take i ++ r.2 ++ s.acts.drop (i + 1) })
    (hsole : ∀ ys, (∀ y ∈ ys, y.Left) → Sole Act.Left a (s.acts.take i ++ ys ++ s.acts.drop (i + 1))) :
    Shared s' (observeAct s g b) a ∧ Recorded s' (observeAct s g b) a := by
  obtain ⟨k, old, rfl⟩ := hb
  obtain rfl : _ = r := by simpa [MPSCSignal.actStep, hw] using hstep
  subst hs
  simp only [observeAct, hw, if_false]
  refine ⟨h.leftover (hsole [] (by simp)) rfl rfl (word_retract_ne old), ?_⟩
  refine hr.same rfl rfl (fun c hc => .inl hc) le_rfl (fun _ hk => .inl hk) fun j o hj => ?_
  simpa using mem_of_mem_splice hj

/-! ## §5 — whole runs. -/

/-- What a run without a stolen registration keeps. -/
def Once (s : State n × Ghost n) : Prop := ∃ a, Shared s.1 s.2 a ∧ Recorded s.1 s.2 a

theorem act_parts (hs : step s (.act i) = some s') :
    ∃ b r, s.acts[i]? = some b ∧ actStep s b = some r ∧
      s' = { r.1 with acts := s.acts.take i ++ r.2 ++ s.acts.drop (i + 1) } := by
  simp only [step] at hs
  split at hs
  · cases hs
  · rename_i b hb
    obtain ⟨r, hr, rfl⟩ := Option.map_eq_some_iff.mp hs
    exact ⟨b, r, hb, hr, rfl⟩

theorem Shared.step {act : Action n} (h : Shared s g a) (hr : Recorded s g a) (hg : NotStolen s act)
    (hs : step s act = some s') : ∃ a', Shared s' (observe s act g) a' ∧ Recorded s' (observe s act g) a' := by
  cases act with
  | callRelease t | callStop t =>
      simp only [MPSCSignal.step] at hs
      split at hs
      · rename_i hp
        obtain rfl := Option.some.inj hs
        exact ⟨a, h.outside (moves_of rfl rfl rfl) rfl (by rw [hp]; rfl) rfl (.inl rfl),
          hr.thread rfl rfl rfl rfl fun c hc => .inl hc⟩
      · cases hs
  | prod t => exact h.prodStep hr hs
  | act i =>
      obtain ⟨b, r, hb, hstep, hs⟩ := act_parts hs
      have hobs : observe s (.act i) g = observeAct s g b := by simp [observe, hb]
      rw [hobs]
      rcases h.acts.splice hb with ⟨rfl, hsole⟩ | ⟨hleft, hsole⟩
      · exact h.liveStep hr hstep hs hsole
      · exact ⟨a, h.leftStep hr hleft (hg ⟨b, hb, hleft⟩) hstep hs hsole⟩

theorem Once.step {s s' : State n × Ghost n} {act : Action n} (h : Once s) (hg : NotStolen s.1 act)
    (hs : observed step observe s act = some s') : Once s' := by
  obtain ⟨hs, hobs⟩ := observed_eq_some hs
  obtain ⟨a, h, hr⟩ := h
  have := h.step hr hg hs
  rw [← hobs] at this
  exact this

theorem once_init : Once (init n, ghost n) := by
  refine ⟨.body, ?_, ?_⟩
  · refine ⟨⟨[], [], rfl, by simp⟩, ?_, ?_, ?_, ?_, ?_, ?_⟩
    · rintro ⟨j, o, hj⟩; cases hj
    · intro u v hu; cases hu
    · intro u hu; cases hu
    · intro u k hu; cases hu
    · intro k hk; cases hk
    · intro hw; cases hw
  · refine ⟨by simp [ghost], by simp [Act.opens], by simp [init], List.nodup_nil, ?_, ?_⟩
    · intro k hk; cases hk
    · intro c hc; cases hc

/-- **A stolen registration shows at once**: the call that steals it was invoked, and returns `false`. -/
theorem Once.stolen {s s' : State n × Ghost n} {act : Action n} (h : Once s) (hg : ¬ NotStolen s.1 act)
    (hs : observed MPSCSignal.step observe s act = some s') : ¬ Exclusive s'.2 := by
  obtain ⟨-, hobs⟩ := observed_eq_some hs
  obtain ⟨a, -, hr⟩ := h
  cases act with
  | act i =>
      simp only [NotStolen, Classical.not_imp, not_not] at hg
      obtain ⟨⟨b, hb, k, old, rfl⟩, hw⟩ := hg
      have hmem : .outrun k old ∈ s.1.acts := List.mem_of_getElem? hb
      have he : s'.2 = { s.2 with refused := k :: s.2.refused } := by
        rw [hobs]
        simp [observe, Option.mem_def.mp hb, observeAct, hw]
      intro hex
      rw [he] at hex
      exact hex.real k (hr.left k old hmem) List.mem_cons_self
  | callRelease t | callStop t | prod t => exact absurd trivial hg

/-- The record only grows. -/
theorem observe_grows (s : State n) (act : Action n) (g : Ghost n) :
    g.invoked <:+ (observe s act g).invoked ∧ g.refused <:+ (observe s act g).refused ∧
      g.copies <:+ (observe s act g).copies := by
  have hself : g.invoked <:+ g.invoked ∧ g.refused <:+ g.refused ∧ g.copies <:+ g.copies :=
    ⟨List.suffix_rfl, List.suffix_rfl, List.suffix_rfl⟩
  cases act with
  | callRelease t | callStop t => exact hself
  | prod t =>
      simp only [observe, observeProd]
      split
      · split <;> exact hself
      · split <;> exact hself
      · exact ⟨List.suffix_rfl, List.suffix_rfl, List.suffix_append _ _⟩
      · exact ⟨List.suffix_rfl, List.suffix_rfl, List.suffix_append _ _⟩
      · exact ⟨List.suffix_cons _ _, List.suffix_rfl, List.suffix_rfl⟩
      · exact ⟨List.suffix_cons _ _, List.suffix_rfl, List.suffix_rfl⟩
      all_goals exact hself
  | act i =>
      cases hb : s.acts[i]? with
      | none => simp [observe, hb]
      | some b =>
          have he : observe s (.act i) g = observeAct s g b := by simp [observe, hb]
          rw [he]
          cases b with
          | suspendRetract k old | outrun k old =>
              simp only [observeAct]
              split
              · exact ⟨List.suffix_rfl, List.suffix_cons _ _, List.suffix_rfl⟩
              · exact hself
          | _ => exact hself

theorem Exclusive.of_observe {act : Action n} (h : Exclusive (observe s act g)) : Exclusive g := by
  obtain ⟨hi, hr, hc⟩ := observe_grows s act g
  refine ⟨h.once.sublist hi.sublist, fun k hk hmem => ?_, fun c hmem => h.pair c (hc.subset hmem)⟩
  exact h.real k (hi.subset hk) (hr.subset hmem)

/-- **Each registration is resumed at most once and only if it suspended**, in exactly the runs in which no registration
is stolen. -/
theorem exclusive_iff_not_stolen (n : Nat) (s : State n × Ghost n)
    (h : Reachable (observed step observe) (init n, ghost n) s) :
    Exclusive s.2 ↔ Run (observed step observe) (fun s act => NotStolen s.1 act) (init n, ghost n) s := by
  have honce : ∀ {s}, Run (observed step observe) (fun s act => NotStolen s.1 act) (init n, ghost n) s → Once s :=
    fun hrun => hrun.invariant (fun _ _ _ ho hg hs => ho.step hg hs) once_init
  constructor
  · intro hex
    -- Along the run: the record of the last state contains that of every earlier one.
    induction h with
    | refl => exact .refl _
    | tail act _ _ hs ih =>
        have hobs := (observed_eq_some hs).2
        have hrun := ih (by rw [hobs] at hex; exact hex.of_observe)
        refine hrun.tail act ?_ hs
        by_contra hg
        exact (honce hrun).stolen hg hs hex
  · intro hrun
    obtain ⟨a, -, hr⟩ := honce hrun
    exact hr.exclusive

/-- A `release()` that lands before the registration and one that takes it; the coroutine is resumed under the running
`await_suspend`, whose second exchange finds IDLE. -/
def outrunHarmless (t : Fin n) : List (Action n) :=
  List.flatten [List.replicate 4 (.act 0), [.callRelease t, .prod t, .act 0, .callRelease t],
    List.replicate 4 (.prod t), [.act 0], List.replicate 6 (.act 0)]

theorem exclusive_of_outrunHarmless :
    ∃ s, Reachable (observed step observe) (init 1, ghost 1) s ∧ s.2.invoked = [⟨0, false⟩] ∧
      s.1.acts = [.parked ⟨1, false⟩] ∧ Exclusive s.2 := by
  obtain ⟨s, hs, h⟩ : ∃ s, exec (guarded (observed step observe) fun s act => NotStolen s.1 act)
      (init 1, ghost 1) (outrunHarmless 0) = some s ∧ s.2.invoked = [⟨0, false⟩] ∧ s.1.acts = [.parked ⟨1, false⟩] :=
    ⟨_, rfl, by decide, by decide⟩
  have hrun := run_of_exec_guarded hs
  exact ⟨s, hrun.reachable, h.1, h.2, (exclusive_iff_not_stolen 1 s hrun.reachable).mpr hrun⟩

/-- The same, but the coroutine awaits again before the second exchange, which finds the WAITING of that await. -/
def outrunSteals (t : Fin n) : List (Action n) :=
  List.flatten [List.replicate 4 (.act 0), [.callRelease t, .prod t, .act 0, .callRelease t],
    List.replicate 4 (.prod t), List.replicate 6 (.act 1), [.act 0]]

theorem old_exchange_returns_false :
    ¬ ∀ (n : Nat) (s : State n × Ghost n), Reachable (observed step observe) (init n, ghost n) s → Exclusive s.2 := by
  intro h
  obtain ⟨s, hs, hi, hr⟩ : ∃ s, exec (observed step observe) (init 1, ghost 1) (outrunSteals 0) = some s ∧
      ⟨0, false⟩ ∈ s.2.invoked ∧ ⟨0, false⟩ ∈ s.2.refused := ⟨_, rfl, by decide, by decide⟩
  exact (h 1 s (reachable_of_exec hs)).real _ hi hr

end NetCpp.Coro.MPSCSignal
