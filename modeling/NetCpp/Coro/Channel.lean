/-
# NetCpp.Coro.Channel — `SPSCChannel` as an interleaving of its atomic steps.

`include/xsl/coro/channel/spsc.h`: a ring of `2 ^ bits` slots (`_size_mask = 2 ^ bits - 1`), the two
`Snapshot`s with their own index and a cached copy of the other side's, one slot `_callback` for the
wake-up of a suspended consumer and the sticky flag `_closed`.  Party `0` is the producer: it may call
`push`; every party may call `close`.  Each atomic load, store and exchange, the construction and the
move-out of an item, and the two halves of a callback (refresh `_head._local`, resume) are ONE step.

As in `NetCpp.Coro.Signal`, resuming the coroutine does not wait for the `await_suspend` call that
registered it: the consumer is a list of activations, and an `await_suspend` call whose coroutine was
resumed under it stays behind with its `outrun` mark set.  It still executes its remaining steps; if it
then returns `false`, the coroutine runs a second time from the same point.

`awaits`, `pushed`, `popped`, `results` and `closeCalled` are history.
-/
import NetCpp.Lib.Transition
import NetCpp.Lib.Ring

namespace NetCpp.Coro.SPSCChannel

open NetCpp.Lib

/-! ## §1 — program counters and state. -/

variable {V : Type} {bits n : Nat}

/-- Where a party is inside `push` or `close`.  `f` is the callback object it has taken. -/
inductive Party (V : Type)
  | idle
  | pushClosed (v : V)
  | pushTail (v : V)
  | pushHead (v : V) (tail : Nat)
  | pushConstruct (v : V) (tail : Nat)
  | pushStore (v : V) (tail : Nat)
  | pushExchange
  | closeStore
  | closeExchange
  | callTail (f : Nat) (closing : Bool)
  | callResume (f : Nat) (closing : Bool)
  deriving DecidableEq, Repr

/-- Where an `await_suspend` call is after it stored its callback. -/
inductive Susp
  | head
  | tail (head : Nat)
  | closed (tail : Nat)
  | exchange (tail : Nat)
  | sync (tail : Nat)
  deriving DecidableEq, Repr

/-- Where an activation of the coroutine is; `k` numbers its awaits. -/
inductive Act (V : Type)
  | body
  | readyHead (k : Nat)
  | readyTail (k head : Nat)
  | readyClosed (k : Nat)
  | suspendStore (k : Nat)
  | suspend (k : Nat) (p : Susp) (outrun : Bool)
  | parked (k : Nat)
  | resumeHead (k : Nat)
  | resumeTail (k head : Nat)
  | resumeMove (k head : Nat)
  | resumeStore (k head : Nat) (v : V)
  | resumeClosed (k : Nat)
  deriving DecidableEq, Repr

structure State (V : Type) (n : Nat) where
  /-- `_head._ctl` and the consumer's copy `_head._local` of the tail -/
  headCtl : Nat
  headLocal : Nat
  /-- `_tail._ctl` and the producer's copy `_tail._local` of the head -/
  tailCtl : Nat
  tailLocal : Nat
  /-- the buffer: `none` is a slot without a live item -/
  slots : Nat → Option V
  /-- `_callback`: the await that registered it, `none` for `nullptr` -/
  callback : Option Nat
  closed : Bool
  party : Fin (n + 1) → Party V
  acts : List (Act V)
  /-- awaits begun -/
  awaits : Nat
  /-- items published, oldest first -/
  pushed : List V
  /-- items delivered, oldest first -/
  popped : List V
  /-- what each `await_resume` returned, newest first, with `_closed` as it then was -/
  results : List (Option V × Bool)
  /-- some `close()` was called -/
  closeCalled : Bool

def init (V : Type) (n : Nat) : State V n where
  headCtl := 0
  headLocal := 0
  tailCtl := 0
  tailLocal := 0
  slots := fun _ => none
  callback := none
  closed := false
  party := fun _ => .idle
  acts := [.body]
  awaits := 0
  pushed := []
  popped := []
  results := []
  closeCalled := false

/-! ## §2 — the steps. -/

def State.goto (s : State V n) (t : Fin (n + 1)) (p : Party V) : State V n :=
  { s with party := Function.update s.party t p }

/-- Resume the coroutine from await `f`. -/
def resume (f : Nat) : List (Act V) → List (Act V)
  | [] => [.resumeHead f]
  | .parked j :: as => if j = f then .resumeHead f :: as else .parked j :: resume f as
  | .suspend j p false :: as =>
      if j = f then .suspend f p true :: .resumeHead f :: as else .suspend j p false :: resume f as
  | a :: as => a :: resume f as

/-- The exchange of `push` and `close`: take the callback, or return. -/
def takeCallback (s : State V n) (t : Fin (n + 1)) (closing : Bool) : State V n :=
  match s.callback with
  | some f => { (s.goto t (.callTail f closing)) with callback := none }
  | none => s.goto t .idle

def partyStep (bits : Nat) (s : State V n) (t : Fin (n + 1)) : Option (State V n) :=
  match s.party t with
  | .idle => none
  -- push
  | .pushClosed v => some (s.goto t (if s.closed then .idle else .pushTail v))
  | .pushTail v =>
      some (s.goto t (if ringNext bits s.tailCtl ≠ s.tailLocal then .pushConstruct v s.tailCtl
        else .pushHead v s.tailCtl))
  | .pushHead v tail =>
      some { (s.goto t (if ringNext bits tail ≠ s.headCtl then .pushConstruct v tail else .idle)) with
        tailLocal := s.headCtl }
  | .pushConstruct v tail =>
      some { (s.goto t (.pushStore v tail)) with slots := Function.update s.slots tail (some v) }
  | .pushStore v tail =>
      some { (s.goto t .pushExchange) with
        tailCtl := ringNext bits tail, pushed := s.pushed ++ [v] }
  | .pushExchange => some (takeCallback s t false)
  -- close
  | .closeStore => some { (s.goto t .closeExchange) with closed := true }
  | .closeExchange => some (takeCallback s t true)
  -- (*func)()
  | .callTail f c => some { (s.goto t (.callResume f c)) with headLocal := s.tailCtl }
  | .callResume f _ => some { (s.goto t .idle) with acts := resume f s.acts }

/-- What becomes of an activation whose `await_suspend` returns `true`. -/
def suspended (k : Nat) (outrun : Bool) : List (Act V) :=
  if outrun then [] else [.parked k]

def actStep (bits : Nat) (s : State V n) : Act V → Option (State V n × List (Act V))
  | .body => some ({ s with awaits := s.awaits + 1 }, [.readyHead s.awaits])
  -- await_ready
  | .readyHead k =>
      some (s, [if s.headCtl = s.headLocal then .readyTail k s.headCtl else .resumeHead k])
  | .readyTail k head =>
      some ({ s with headLocal := s.tailCtl },
        [if head = s.tailCtl then .readyClosed k else .resumeHead k])
  | .readyClosed k => some (s, [if s.closed then .resumeHead k else .suspendStore k])
  -- await_suspend
  | .suspendStore k => some ({ s with callback := some k }, [.suspend k .head false])
  | .suspend k .head o => some (s, [.suspend k (.tail s.headCtl) o])
  | .suspend k (.tail head) o =>
      some (s, [.suspend k (if head ≠ s.tailCtl then .exchange s.tailCtl else .closed s.tailCtl) o])
  | .suspend k (.closed tail) o =>
      some (s, if s.closed then [.suspend k (.exchange tail) o] else suspended k o)
  | .suspend k (.exchange tail) o =>
      some ({ s with callback := none },
        if s.callback.isSome then [.suspend k (.sync tail) o] else suspended k o)
  | .suspend k (.sync tail) _ => some ({ s with headLocal := tail }, [.resumeHead k])
  | .parked _ => none
  -- await_resume
  | .resumeHead k => some (s, [.resumeTail k s.headCtl])
  | .resumeTail k head =>
      some (s, [if head ≠ s.tailCtl then .resumeMove k head else .resumeClosed k])
  | .resumeMove k head =>
      (s.slots head).map fun v =>
        ({ s with slots := Function.update s.slots head none }, [.resumeStore k head v])
  | .resumeStore _ head v =>
      some ({ s with headCtl := ringNext bits head, popped := s.popped ++ [v],
                     results := (some v, s.closed) :: s.results }, [.body])
  | .resumeClosed _ => some ({ s with results := (none, s.closed) :: s.results }, [.body])

inductive Action (V : Type) (n : Nat)
  | callPush (v : V)
  | callClose (t : Fin (n + 1))
  | party (t : Fin (n + 1))
  | act (i : Nat)
  deriving DecidableEq

def step (bits : Nat) (s : State V n) : Action V n → Option (State V n)
  | .callPush v =>
      match s.party 0 with
      | .idle => some (s.goto 0 (.pushClosed v))
      | _ => none
  | .callClose t =>
      match s.party t with
      | .idle => some { (s.goto t .closeStore) with closeCalled := true }
      | _ => none
  | .party t => partyStep bits s t
  | .act i =>
      match s.acts[i]? with
      | none => none
      | some a =>
          (actStep bits s a).map fun r =>
            { r.1 with acts := s.acts.take i ++ r.2 ++ s.acts.drop (i + 1) }

/-! ## §3 — who owns the callback. -/

/-- The callback object a party has taken out of the slot and not yet run to its end. -/
def Party.taken : Party V → Option Nat
  | .callTail f _ | .callResume f _ => some f
  | _ => none

/-- The callback whose resumption is the party's next step. -/
def Party.resumes : Party V → Option Nat
  | .callResume f _ => some f
  | _ => none

/-- The await an activation has registered and neither taken back nor been resumed from. -/
def Act.slot : Act V → Option Nat
  | .suspend _ (.sync _) _ => none
  | .suspend k _ _ | .parked k => some k
  | _ => none

/-- The await whose `await_suspend` call is still executing. -/
def Act.registering : Act V → Option Nat
  | .suspend k _ false => some k
  | _ => none

/-- **The registration is not outrun.** The step does not resume a coroutine whose `await_suspend` call
is still executing. -/
def NotOutrun (s : State V n) : Action V n → Prop
  | .party t => (s.party t).resumes ≠ none → ∀ a ∈ s.acts, a.registering ≠ (s.party t).resumes
  | _ => True

instance (s : State V n) (act : Action V n) : Decidable (NotOutrun s act) :=
  match act with
  | .party _ => inferInstanceAs (Decidable (_ → ∀ a ∈ s.acts, _))
  | .callPush _ | .callClose _ | .act _ => inferInstanceAs (Decidable True)

/-- An `await_suspend` call whose coroutine was resumed under it, and which has taken no callback back. -/
def Act.Left : Act V → Prop
  | .suspend _ (.sync _) _ => False
  | .suspend _ _ outrun => outrun = true
  | _ => False

/-- The next step is the exchange of such a call. -/
def Act.steals : Act V → Bool
  | .suspend _ (.exchange _) outrun => outrun
  | _ => false

/-- **The callback is not stolen.** The step is not the exchange of an `await_suspend` call whose coroutine was resumed
under it, taken while a callback is in the slot. -/
def NotStolen (s : State V n) : Action V n → Prop
  | .act i => ∀ a ∈ s.acts[i]?, a.steals = true → s.callback = none
  | _ => True

instance (s : State V n) (act : Action V n) : Decidable (NotStolen s act) :=
  match act with
  | .act i => inferInstanceAs (Decidable (∀ a ∈ s.acts[i]?, _))
  | .callPush _ | .callClose _ | .party _ => inferInstanceAs (Decidable True)

/-- **Exclusive ownership of the callback, with leftovers.** One live activation among calls that were outrun; the
registered callback is its own; at most one party has taken it, and then the slot is empty; until it resumes or takes the
callback back, the callback is in the slot or with a party. -/
structure Shared (s : State V n) (a : Act V) : Prop where
  acts : Sole Act.Left a s.acts
  live : ∀ k p, a ≠ .suspend k p true
  unique : OnlyOne (fun p : Party V => p.taken ≠ none) s.party
  holder : ∀ t f, (s.party t).taken = some f → a.slot = some f ∧ s.callback = none
  registered : ∀ f, s.callback = some f → a.slot = some f
  slot : ∀ k, a.slot = some k → s.callback = some k ∨ ∃ t, (s.party t).taken = some k

/-- **Exclusive ownership of the callback.** One activation; the registered callback is its own; at
most one party has taken it, and then the slot is empty; until it resumes or takes the callback back,
the callback is in the slot or with a party. -/
structure Owned (s : State V n) (a : Act V) : Prop where
  acts : s.acts = [a]
  live : ∀ k p, a ≠ .suspend k p true
  unique : OnlyOne (fun p : Party V => p.taken ≠ none) s.party
  holder : ∀ t f, (s.party t).taken = some f → a.slot = some f ∧ s.callback = none
  registered : ∀ f, s.callback = some f → a.slot = some f
  slot : ∀ k, a.slot = some k → s.callback = some k ∨ ∃ t, (s.party t).taken = some k

variable {s s' : State V n} {a a' b : Act V} {t : Fin (n + 1)} {p : Party V} {i f k : Nat}

theorem Act.left_iff : a.Left ↔ ∃ k q, a = .suspend k q true ∧ ∀ tail, q ≠ .sync tail := by
  cases a with
  | suspend k q o => cases q <;> cases o <;> simp [Act.Left]
  | _ => simp [Act.Left]

theorem Act.steals_iff : a.steals = true ↔ ∃ k tail, a = .suspend k (.exchange tail) true := by
  cases a with
  | suspend k q o => cases q <;> simp [Act.steals]
  | _ => simp [Act.steals]

theorem Owned.shared (h : Owned s a) : Shared s a where
  acts := ⟨[], [], h.acts, by simp⟩
  live := h.live
  unique := h.unique
  holder := h.holder
  registered := h.registered
  slot := h.slot

/-- Ownership without leftovers. -/
theorem Shared.owned (h : Shared s a) (hno : ∀ b ∈ s.acts, ¬ b.Left) : Owned s a := by
  obtain ⟨l, r, he, hleft⟩ := h.acts
  have hnil : l ++ r = [] := by
    apply List.eq_nil_iff_forall_not_mem.mpr
    intro b hb
    refine hno b ?_ (hleft b hb)
    rw [he]
    rcases List.mem_append.mp hb with hb | hb
    · exact List.mem_append_left _ hb
    · exact List.mem_append_right _ (List.mem_cons_of_mem _ hb)
  obtain ⟨rfl, rfl⟩ := List.append_eq_nil_iff.mp hnil
  exact ⟨he, h.live, h.unique, h.holder, h.registered, h.slot⟩

theorem taken_of_resumes (h : p.resumes = some f) : p.taken = some f := by
  cases p <;> simp_all [Party.resumes, Party.taken]

/-- With nothing registered, the slot is empty and no party has a callback. -/
theorem Shared.free (h : Shared s a) (ha : a.slot = none) :
    s.callback = none ∧ ∀ t, (s.party t).taken = none := by
  constructor
  · cases hc : s.callback with
    | none => rfl
    | some f => have := h.registered f hc; rw [ha] at this; cases this
  · intro t
    cases ht : (s.party t).taken with
    | none => rfl
    | some f => have := (h.holder t f ht).1; rw [ha] at this; cases this

/-- With the callback in the slot, no party has one. -/
theorem Shared.nobody (h : Shared s a) (hf : s.callback = some f) (t : Fin (n + 1)) : (s.party t).taken = none := by
  cases ht : (s.party t).taken with
  | none => rfl
  | some j => have := (h.holder t j ht).2; rw [hf] at this; cases this

/-! ## §4 — the parties' steps keep it. -/

/-- A party moves and has afterwards the callback it had before, if any. -/
theorem Shared.inside (h : Shared s a) (hs : s'.party = Function.update s.party t p)
    (hc : s'.callback = s.callback) (ha : s'.acts = s.acts) (hp : p.taken = (s.party t).taken) :
    Shared s' a := by
  have key : ∀ i, (s'.party i).taken = (s.party i).taken := by
    intro i
    rw [hs]
    by_cases hit : i = t
    · subst hit; simp [hp]
    · simp [hit]
  refine ⟨ha ▸ h.acts, h.live, ?_, ?_, ?_, ?_⟩
  · intro i j hi hj
    exact h.unique i j (by simpa [key] using hi) (by simpa [key] using hj)
  · intro i f hi
    rw [hc]; exact h.holder i f (key i ▸ hi)
  · intro f hf
    exact h.registered f (hc ▸ hf)
  · intro k hk
    rcases h.slot k hk with hcb | ⟨i, hi⟩
    · exact .inl (hc.trans hcb)
    · exact .inr ⟨i, (key i).trans hi⟩

/-- A party whose exchange finds a callback becomes its only holder; one that finds none returns. -/
theorem Shared.take (h : Shared s a) (c : Bool) (ht : (s.party t).taken = none) :
    Shared (takeCallback s t c) a := by
  unfold takeCallback
  split
  · rename_i f hf
    have hslot := h.registered f hf
    have hnone := h.nobody hf
    have hother : ∀ i j, (Function.update s.party t (.callTail f c) i).taken = some j → i = t ∧ j = f := by
      intro i j hi
      by_cases hit : i = t
      · subst hit
        simp [Party.taken] at hi
        exact ⟨rfl, hi.symm⟩
      · rw [Function.update_of_ne hit, hnone i] at hi; cases hi
    refine ⟨h.acts, h.live, ?_, ?_, by simp, ?_⟩
    · intro i j hi hj
      obtain ⟨x, hx⟩ := Option.ne_none_iff_exists'.mp hi
      obtain ⟨y, hy⟩ := Option.ne_none_iff_exists'.mp hj
      rw [(hother i x hx).1, (hother j y hy).1]
    · intro i j hi
      obtain ⟨-, rfl⟩ := hother i j hi
      exact ⟨hslot, rfl⟩
    · intro k hk
      obtain rfl : f = k := by rw [hslot] at hk; simpa using hk
      exact .inr ⟨t, by simp [State.goto, Party.taken]⟩
  · exact h.inside rfl rfl rfl (by rw [ht]; rfl)

theorem resume_leftovers (l r : List (Act V)) (hl : ∀ b ∈ l, b.Left) : resume f (l ++ r) = l ++ resume f r := by
  induction l with
  | nil => rfl
  | cons b l ih =>
      obtain ⟨k, q, rfl, -⟩ := Act.left_iff.mp (hl b List.mem_cons_self)
      have := ih fun c hc => hl c (List.mem_cons_of_mem _ hc)
      simp [resume, this]

/-- The callback of the live activation resumes it; a call that is not done becomes a leftover. -/
theorem sole_resume {as : List (Act V)} (h : Sole Act.Left a as) (hlive : ∀ k p, a ≠ .suspend k p true)
    (hk : a.slot = some f) :
    Sole Act.Left (.resumeHead f) (resume f as) ∧
      ∀ k q, .suspend k q true ∈ resume f as → k = f ∨ .suspend k q true ∈ as := by
  obtain ⟨l, r, rfl, hp⟩ := h
  rw [resume_leftovers l _ fun b hb => hp b (List.mem_append_left r hb)]
  cases a with
  | suspend j q o =>
      obtain rfl : o = false := by
        cases o
        · rfl
        · exact absurd rfl (hlive j q)
      have hq : ∀ tail, q ≠ .sync tail := by
        rintro tail rfl
        cases hk
      obtain rfl : j = f := by
        cases q with
        | sync tail => cases hk
        | head | tail i | closed i | exchange i => simpa [Act.slot] using hk
      have he : resume j (.suspend j q false :: r) = .suspend j q true :: .resumeHead j :: r := by simp [resume]
      rw [he]
      refine ⟨sole_behind hp (Act.left_iff.mpr ⟨j, q, rfl, hq⟩) _, fun i o hi => ?_⟩
      simp only [List.mem_append, List.mem_cons] at hi ⊢
      rcases hi with hi | hi | hi | hi
      · exact .inr (.inl hi)
      · exact .inl (by injection hi)
      · cases hi
      · exact .inr (.inr (.inr hi))
  | parked j =>
      obtain rfl : j = f := by simpa [Act.slot] using hk
      have he : resume j (.parked j :: r) = .resumeHead j :: r := by simp [resume]
      rw [he]
      refine ⟨⟨l, r, rfl, hp⟩, fun k q hi => .inr ?_⟩
      simpa using hi
  | _ => cases hk

theorem Shared.resumed (h : Shared s a) (hp : (s.party t).resumes = some f)
    (hs : s'.party = Function.update s.party t .idle) (hc : s'.callback = s.callback)
    (ha : s'.acts = resume f s.acts) : Shared s' (.resumeHead f) := by
  have ht := taken_of_resumes hp
  have hnone : ∀ i, (s'.party i).taken = none := by
    intro i
    rw [hs]
    by_cases hit : i = t
    · subst hit; simp [Party.taken]
    · rw [Function.update_of_ne hit]
      by_contra hi
      exact hit (h.unique i t hi (by simp [ht]))
  have hsole := (sole_resume h.acts h.live (h.holder t f ht).1).1
  refine ⟨ha ▸ hsole, by simp, ?_, ?_, ?_, by simp [Act.slot]⟩
  · intro i j hi; exact absurd (hnone i) hi
  · intro i j hi; rw [hnone i] at hi; cases hi
  · intro j hj
    rw [hc, (h.holder t f ht).2] at hj; cases hj

theorem Shared.partyStep (h : Shared s a) (hs : partyStep bits s t = some s') : ∃ a', Shared s' a' := by
  cases hp : s.party t with
  | idle => simp [SPSCChannel.partyStep, hp] at hs
  | pushClosed v | pushTail v | pushHead v tail =>
      simp only [SPSCChannel.partyStep, hp, Option.some.injEq] at hs
      subst hs
      exact ⟨a, h.inside rfl rfl rfl (by rw [hp]; split <;> rfl)⟩
  | pushConstruct v tail | pushStore v tail | closeStore | callTail f c =>
      simp only [SPSCChannel.partyStep, hp, Option.some.injEq] at hs
      subst hs
      exact ⟨a, h.inside rfl rfl rfl (by rw [hp]; rfl)⟩
  | pushExchange | closeExchange =>
      simp only [SPSCChannel.partyStep, hp, Option.some.injEq] at hs
      subst hs
      exact ⟨a, h.take _ (by rw [hp]; rfl)⟩
  | callResume f c =>
      simp only [SPSCChannel.partyStep, hp, Option.some.injEq] at hs
      subst hs
      exact ⟨_, h.resumed (by rw [hp]; rfl) rfl rfl rfl⟩

/-- A party's step leaves the activations alone or resumes one. -/
theorem party_acts (hs : SPSCChannel.partyStep bits s t = some s') :
    s'.acts = s.acts ∨ ∃ f, (s.party t).resumes = some f ∧ s'.acts = resume f s.acts := by
  cases hp : s.party t with
  | idle => simp [SPSCChannel.partyStep, hp] at hs
  | callResume f c =>
      simp only [SPSCChannel.partyStep, hp, Option.some.injEq] at hs
      subst hs
      exact .inr ⟨f, rfl, rfl⟩
  | pushExchange | closeExchange =>
      simp only [SPSCChannel.partyStep, hp, takeCallback, Option.some.injEq] at hs
      subst hs
      left
      split <;> rfl
  | _ =>
      simp only [SPSCChannel.partyStep, hp, Option.some.injEq] at hs
      subst hs
      exact .inl rfl

/-! ## §5 — the activations' steps keep it. -/

/-- The live activation moves without touching the callback slot. -/
theorem Shared.running (h : Shared s a) (hacts : Sole Act.Left a' s'.acts) (hp : s'.party = s.party)
    (hc : s'.callback = s.callback) (hslot : a'.slot = a.slot)
    (hlive : ∀ k p, a' ≠ .suspend k p true) : Shared s' a' := by
  refine ⟨hacts, hlive, by rw [hp]; exact h.unique, ?_, ?_, ?_⟩
  · intro i f hi
    rw [hslot, hc]; exact h.holder i f (hp ▸ hi)
  · intro f hf
    rw [hslot]; exact h.registered f (hc ▸ hf)
  · intro k hk
    rw [hslot] at hk
    rw [hc, hp]; exact h.slot k hk

theorem Shared.register (h : Shared s a) (ha : a.slot = none) (hacts : Sole Act.Left (.suspend k .head false) s'.acts)
    (hp : s'.party = s.party) (hc : s'.callback = some k) : Shared s' (.suspend k .head false) := by
  obtain ⟨-, hnone⟩ := h.free ha
  refine ⟨hacts, by simp, by rw [hp]; exact h.unique, ?_, ?_, ?_⟩
  · intro i f hi; rw [hp, hnone i] at hi; cases hi
  · intro f hf; rw [hc] at hf; exact hf
  · intro j hj
    obtain rfl : k = j := by simpa [Act.slot] using hj
    exact .inl hc

/-- The retracting exchange: with the callback in hand the call returns `false`, without it parks. -/
theorem Shared.retract {tail : Nat} (h : Shared s (.suspend k (.exchange tail) false))
    (hacts : Sole Act.Left (if s.callback.isSome then .suspend k (.sync tail) false else .parked k) s'.acts)
    (hp : s'.party = s.party) (hc : s'.callback = none) :
    Shared s' (if s.callback.isSome then .suspend k (.sync tail) false else .parked k) := by
  cases hcb : s.callback with
  | some f =>
      have hnone := h.nobody hcb
      refine ⟨by simpa [hcb] using hacts, by simp, by rw [hp]; exact h.unique, ?_, by simp [hc], by simp [Act.slot]⟩
      intro i j hi; rw [hp, hnone i] at hi; cases hi
  | none =>
      refine ⟨by simpa [hcb] using hacts, by simp, by rw [hp]; exact h.unique, ?_, by simp [hc], ?_⟩
      · intro i j hi
        exact ⟨(h.holder i j (hp ▸ hi)).1, hc⟩
      · intro j hj
        obtain rfl : k = j := by simpa [Act.slot] using hj
        rcases h.slot k rfl with h' | h'
        · rw [hcb] at h'; cases h'
        · exact .inr (by rw [hp]; exact h')

theorem act_parts (hs : step bits s (.act i) = some s') :
    ∃ b r, s.acts[i]? = some b ∧ actStep bits s b = some r ∧
      s' = { r.1 with acts := s.acts.take i ++ r.2 ++ s.acts.drop (i + 1) } := by
  simp only [step] at hs
  split at hs
  · cases hs
  · rename_i b hb
    obtain ⟨r, hr, rfl⟩ := Option.map_eq_some_iff.mp hs
    exact ⟨b, r, hb, hr, rfl⟩

/-- What one step of the live activation keeps. -/
theorem Shared.liveStep (h : Shared s a) {r : State V n × List (Act V)} (hr : actStep bits s a = some r)
    (hs : s' = { r.1 with acts := s.acts.take i ++ r.2 ++ s.acts.drop (i + 1) })
    (hsole : ∀ a', Sole Act.Left a' (s.acts.take i ++ [a'] ++ s.acts.drop (i + 1))) : ∃ a', Shared s' a' := by
  have hlive := h.live
  cases a with
  | parked k => simp [SPSCChannel.actStep] at hr
  | suspendStore k =>
      obtain rfl : _ = r := by simpa [SPSCChannel.actStep] using hr
      subst hs
      exact ⟨_, h.register rfl (hsole _) rfl rfl⟩
  | suspend k p o =>
      obtain rfl : o = false := by
        cases o
        · rfl
        · exact absurd rfl (hlive k p)
      cases p with
      | exchange tail =>
          obtain rfl : _ = r := by simpa [SPSCChannel.actStep, suspended] using hr
          subst hs
          refine ⟨_, h.retract ?_ rfl rfl⟩
          dsimp only
          split <;> exact hsole _
      | closed tail =>
          obtain rfl : _ = r := by simpa [SPSCChannel.actStep, suspended] using hr
          subst hs
          by_cases hcl : s.closed = true
          · exact ⟨.suspend k (.exchange tail) false, h.running (by simpa [hcl] using hsole _) rfl rfl rfl (by simp)⟩
          · exact ⟨.parked k, h.running (by simpa [hcl] using hsole _) rfl rfl rfl (by simp)⟩
      | head | sync tail =>
          obtain rfl : _ = r := by simpa [SPSCChannel.actStep] using hr
          subst hs
          exact ⟨_, h.running (hsole _) rfl rfl rfl (by simp)⟩
      | tail head =>
          obtain rfl : _ = r := by simpa [SPSCChannel.actStep] using hr
          subst hs
          exact ⟨_, h.running (hsole _) rfl rfl (by split <;> rfl) (by simp)⟩
  | resumeMove k head =>
      simp only [SPSCChannel.actStep, Option.map_eq_some_iff] at hr
      obtain ⟨v, -, rfl⟩ := hr
      subst hs
      exact ⟨_, h.running (hsole _) rfl rfl rfl (by simp)⟩
  | readyHead k | readyTail k head | readyClosed k | resumeTail k head =>
      obtain rfl : _ = r := by simpa [SPSCChannel.actStep] using hr
      subst hs
      exact ⟨_, h.running (hsole _) rfl rfl (by split <;> rfl) (by intro j p; split <;> simp)⟩
  | body | resumeHead k | resumeStore k head v | resumeClosed k =>
      obtain rfl : _ = r := by simpa [SPSCChannel.actStep] using hr
      subst hs
      exact ⟨_, h.running (hsole _) rfl rfl rfl (by simp)⟩

/-- **A leftover that steals nothing** does nothing that anybody sees. -/
theorem left_step {r : State V n × List (Act V)} (hb : b.Left) (hr : actStep bits s b = some r)
    (hst : b.steals = true → s.callback = none) :
    r.1 = s ∧ (∀ c ∈ r.2, c.Left) ∧ ∀ k q, .suspend k q true ∈ r.2 → ∃ q', b = .suspend k q' true := by
  obtain ⟨k, q, rfl, hq⟩ := Act.left_iff.mp hb
  cases q with
  | sync tail => exact absurd rfl (hq tail)
  | head =>
      obtain rfl : _ = r := by simpa [actStep] using hr
      exact ⟨rfl, by simp [Act.Left], by simp⟩
  | tail head =>
      obtain rfl : _ = r := by simpa [actStep] using hr
      refine ⟨rfl, ?_, by simp⟩
      intro c hc
      obtain rfl := List.mem_singleton.mp hc
      split <;> simp [Act.Left]
  | closed tail =>
      obtain rfl : _ = r := by simpa [actStep, suspended] using hr
      refine ⟨rfl, ?_, ?_⟩
      · intro c hc
        split at hc
        · obtain rfl := List.mem_singleton.mp hc
          simp [Act.Left]
        · cases hc
      · intro j q' hj
        split at hj
        · obtain ⟨rfl, -⟩ : j = k ∧ _ := by simpa using hj
          exact ⟨_, rfl⟩
        · cases hj
  | exchange tail =>
      have hc := hst rfl
      obtain rfl : _ = r := by simpa [actStep, suspended, hc] using hr
      refine ⟨?_, by simp, by simp⟩
      rw [← hc]

/-- **Ownership is kept by every step** that does not steal a callback. -/
theorem Shared.step {act : Action V n} (h : Shared s a) (hg : NotStolen s act) (hs : step bits s act = some s') :
    ∃ a', Shared s' a' := by
  cases act with
  | callPush v | callClose t =>
      simp only [SPSCChannel.step] at hs
      split at hs
      · rename_i hp
        injection hs with hs; subst hs
        exact ⟨a, h.inside rfl rfl rfl (by rw [hp]; rfl)⟩
      · cases hs
  | party t => exact h.partyStep hs
  | act i =>
      obtain ⟨b, r, hb, hr, hs⟩ := act_parts hs
      rcases h.acts.splice hb with ⟨rfl, hsole⟩ | ⟨hleft, hsole⟩
      · exact h.liveStep hr hs hsole
      · obtain ⟨h1, h2, -⟩ := left_step hleft hr (hg b hb)
        subst hs
        exact ⟨a, h.running (hsole _ h2) (by rw [h1]) (by rw [h1]) rfl h.live⟩

/-! ## §6 — runs without leftovers. -/

/-- A callback about to resume, its registration not outrun, is that of a parked activation. -/
theorem Owned.parked_of_resumes (h : Owned s a) (hp : (s.party t).resumes = some f)
    (hg : NotOutrun s (.party t)) : a = .parked f := by
  have hslot := (h.holder t f (taken_of_resumes hp)).1
  have hreg : a.registering ≠ some f := by
    simp only [NotOutrun, hp, h.acts] at hg
    exact hg (by simp) a (by simp)
  have hlive := h.live
  cases a with
  | suspend k p o =>
      cases o with
      | true => exact absurd rfl (hlive k p)
      | false => cases p <;> simp_all [Act.slot, Act.registering]
  | parked k => simp_all [Act.slot]
  | _ => simp_all [Act.slot]

theorem act_step (h : s.acts = [a]) (hs : step bits s (.act i) = some s') :
    i = 0 ∧ ∃ r, actStep bits s a = some r ∧ s' = { r.1 with acts := r.2 } := by
  obtain ⟨b, r, hb, hr, rfl⟩ := act_parts hs
  cases i with
  | zero =>
      rw [h] at hb
      obtain rfl : a = b := by simpa using hb
      exact ⟨rfl, r, hr, by simp [h]⟩
  | succ i => simp [h] at hb

/-- A running `await_suspend` goes on as it is; only a resumption makes a leftover. -/
theorem no_left_of_actStep {r : State V n × List (Act V)} (hlive : ∀ k p, a ≠ .suspend k p true)
    (hr : actStep bits s a = some r) : ∀ b ∈ r.2, ¬ b.Left := by
  cases a with
  | parked k => simp [actStep] at hr
  | suspend k q o =>
      obtain rfl : o = false := by
        cases o
        · rfl
        · exact absurd rfl (hlive k q)
      cases q <;> obtain rfl : _ = r := by simpa [actStep, suspended] using hr
      all_goals grind [Act.Left]
  | resumeMove k head =>
      obtain ⟨v, -, rfl⟩ := Option.map_eq_some_iff.mp hr
      simp [Act.Left]
  | readyHead k | readyTail k head | readyClosed k | resumeTail k head =>
      obtain rfl : _ = r := by simpa [actStep] using hr
      intro b hb
      obtain rfl := List.mem_singleton.mp hb
      split <;> simp [Act.Left]
  | body | suspendStore k | resumeHead k | resumeStore k head v | resumeClosed k =>
      obtain rfl : _ = r := by simpa [actStep] using hr
      simp [Act.Left]

/-- **Ownership is kept by every step** that does not outrun a registration. -/
theorem Owned.step {act : Action V n} (h : Owned s a) (hg : NotOutrun s act)
    (hs : step bits s act = some s') : ∃ a', Owned s' a' := by
  have hacts := h.acts
  have hlive := h.live
  have hleft : ¬ a.Left := by
    rw [Act.left_iff]
    rintro ⟨k, q, he, -⟩
    exact hlive k q he
  have hst : NotStolen s act := by
    cases act with
    | act i =>
        intro b hb hsteal
        have hmem := List.mem_of_getElem? (Option.mem_def.mp hb)
        rw [hacts] at hmem
        obtain rfl := List.mem_singleton.mp hmem
        obtain ⟨k, tail, he⟩ := Act.steals_iff.mp hsteal
        exact absurd he (hlive k _)
    | _ => trivial
  obtain ⟨a', h'⟩ := h.shared.step hst hs
  refine ⟨a', h'.owned ?_⟩
  cases act with
  | callPush v | callClose t =>
      simp only [SPSCChannel.step] at hs
      split at hs
      · injection hs with hs; subst hs
        show ∀ b ∈ s.acts, ¬ b.Left
        simpa [hacts] using hleft
      · cases hs
  | party t =>
      rcases party_acts hs with he | ⟨f, hf, he⟩
      · simpa [he, hacts] using hleft
      · obtain rfl := h.parked_of_resumes hf hg
        simp [he, hacts, resume, Act.Left]
  | act i =>
      obtain ⟨-, r, hr, rfl⟩ := act_step hacts hs
      exact no_left_of_actStep hlive hr

theorem owned_init : Owned (init V n) .body where
  acts := rfl
  live := by simp
  unique := by intro i j hi; exact absurd rfl hi
  holder := by intro i f hi; cases hi
  registered := by intro f hf; cases hf
  slot := by intro k hk; cases hk

end NetCpp.Coro.SPSCChannel
