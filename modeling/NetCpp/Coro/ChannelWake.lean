/-
# NetCpp.Coro.ChannelWake — no wake-up is lost, and every callback is one party's.

`await_suspend` stores its callback and looks at the ring AGAIN; `push` stores the tail and `close` the flag, and
both then look for the callback.  Whoever comes second sees the other (`Act.Watched`).

A log beside the state tells what happened to each callback object.  The one way to break it: a resumption under a
running `await_suspend` lets that call go on, and its exchange takes the callback of the NEXT registration
(`old_callback_exchange_loses_wakeup`).
-/
import NetCpp.Coro.ChannelRing

namespace NetCpp.Coro.SPSCChannel

open NetCpp.Lib

variable {V : Type} {bits n : Nat}

/-! ## §1 — what happens to a callback. -/

/-- A callback object leaves the slot or is run.  Objects are numbered like the awaits that made them. -/
inductive Event
  /-- a `push` or `close` took it out of the slot -/
  | taken (f : Nat)
  /-- the `push` or `close` that took it invoked it -/
  | invoked (f : Nat)
  /-- the `await_suspend` call of await `k` took it out, deletes it and returns `false` -/
  | discarded (f k : Nat)
  deriving DecidableEq, Repr

def Event.about : Event → Nat
  | .taken f | .invoked f | .discarded f _ => f

/-- The events of a party's step and of an activation's. -/
def partyEvents (s : State V n) : Party V → List Event
  | .pushExchange | .closeExchange => s.callback.toList.map .taken
  | .callResume f _ => [.invoked f]
  | _ => []

def actEvents (s : State V n) : Act V → List Event
  | .suspend k (.exchange _) _ => s.callback.toList.map (.discarded · k)
  | _ => []

def events (s : State V n) : Action V n → List Event
  | .party t => partyEvents s (s.party t)
  | .act i => (s.acts[i]?.map (actEvents s)).getD []
  | _ => []

/-- What the log tells of one callback object. -/
def history (f : Nat) (log : List Event) : List Event := log.filter fun e => e.about = f

/-- **A callback is one party's.** It is still in the slot or was never made; or a `push` or `close` took it and is on
its way to invoke it, or has invoked it; or the `await_suspend` that registered it discarded it. -/
def OneOwner (s : State V n) (log : List Event) (f : Nat) : Prop :=
  history f log = [] ∨ (history f log = [.taken f] ∧ ∃ t, (s.party t).taken = some f) ∨
    history f log = [.taken f, .invoked f] ∨ history f log = [.discarded f f]

/-- The consumer sleeps with work to do and nobody about to wake it. -/
def Lost (s : State V n) : Prop :=
  (∃ k, .parked k ∈ s.acts) ∧ (∀ t, s.party t = .idle) ∧ (s.headCtl ≠ s.tailCtl ∨ s.closed = true)

theorem history_append (f : Nat) (log log' : List Event) :
    history f (log ++ log') = history f log ++ history f log' := List.filter_append _ _

/-! ## §2 — the second look. -/

/-- The party's next step looks for a callback. -/
def Party.looks : Party V → Bool
  | .pushExchange | .closeExchange => true
  | _ => false

def Pending (s : State V n) : Prop := ∃ t, (s.party t).looks = true

/-- What a registering activation knows while its callback is in the slot. -/
def Act.Watched (s : State V n) : Act V → Prop
  | .suspend _ (.tail h) _ => h = s.headCtl
  | .suspend _ (.closed _) _ => s.callback ≠ none → s.headCtl = s.tailCtl ∨ Pending s
  | .parked _ => s.callback ≠ none → (s.headCtl = s.tailCtl ∧ s.closed = false) ∨ Pending s
  | _ => True

/-- The await whose callback is not yet made. -/
def Act.begins : Act V → Option Nat
  | .readyHead k | .readyTail k _ | .readyClosed k | .suspendStore k => some k
  | _ => none

/-- A callback that is made, or about to be, and has left the slot for nobody. -/
def Unused (s : State V n) (log : List Event) (f : Nat) : Prop := f < s.awaits ∧ history f log = []

/-- The `await_suspend` call of await `k` is still executing although its coroutine was resumed. -/
def Outrun (s : State V n) (k : Nat) : Prop := ∃ q, .suspend k q true ∈ s.acts

/-- The log agrees with the state. -/
structure Told (s : State V n) (a : Act V) (log : List Event) : Prop where
  owner : ∀ f, OneOwner s log f
  held : ∀ t f, (s.party t).taken = some f → history f log = [.taken f]
  slot : ∀ f, s.callback = some f → Unused s log f
  begun : ∀ k, a.begins = some k → Unused s log k
  left : ∀ k, Outrun s k → history k log = [.taken k, .invoked k]
  fresh : ∀ f, s.awaits ≤ f → history f log = []

variable {s s' : State V n} {a a' : Act V} {t : Fin (n + 1)} {p : Party V} {i f k : Nat} {log : List Event}

/-- A party moves; the ring grows only under a party that is about to look. -/
theorem Act.Watched.party (h : a.Watched s) (hhead : s'.headCtl = s.headCtl)
    (hcb : s'.callback ≠ none → s.callback ≠ none)
    (hlook : s'.callback ≠ none → Pending s' ∨ (s'.tailCtl = s.tailCtl ∧ s'.closed = s.closed ∧ (Pending s → Pending s'))) :
    a.Watched s' := by
  cases a with
  | suspend k q o =>
      cases q with
      | tail j => exact Eq.trans h hhead.symm
      | closed j =>
          intro hne
          rcases hlook hne with hp | ⟨ht, -, hp⟩
          · exact .inr hp
          · rcases h (hcb hne) with he | hpend
            · exact .inl (by rw [hhead, ht]; exact he)
            · exact .inr (hp hpend)
      | head | exchange j | sync j => trivial
  | parked k =>
      intro hne
      rcases hlook hne with hp | ⟨ht, hc, hp⟩
      · exact .inr hp
      · rcases h (hcb hne) with ⟨he, ho⟩ | hpend
        · exact .inl ⟨by rw [hhead, ht]; exact he, by rw [hc]; exact ho⟩
        · exact .inr (hp hpend)
  | _ => trivial

/-- A step without events; what it puts in the slot, or begins, is unused. -/
theorem Told.quiet (h : Told s a log) (hp : ∀ t, (s'.party t).taken = (s.party t).taken)
    (haw : s.awaits ≤ s'.awaits) (hleft : ∀ k, Outrun s' k → Outrun s k)
    (hslot : ∀ f, s'.callback = some f → Unused s' log f)
    (hbeg : ∀ k, a'.begins = some k → Unused s' log k) : Told s' a' log := by
  refine ⟨fun f => ?_, fun t f ht => h.held t f (hp t ▸ ht), hslot, hbeg, fun k hk => h.left k (hleft k hk),
    fun f hf => h.fresh f (haw.trans hf)⟩
  rcases h.owner f with hf | ⟨hf, t, ht⟩ | hf
  · exact .inl hf
  · exact .inr (.inl ⟨hf, t, (hp t).trans ht⟩)
  · exact .inr (.inr hf)

theorem Unused.le (h : Unused s log f) (haw : s.awaits ≤ s'.awaits) : Unused s' log f :=
  ⟨Nat.lt_of_lt_of_le h.1 haw, h.2⟩

theorem history_append_of_ne {e : Event} (h : e.about ≠ f) : history f (log ++ [e]) = history f log := by
  rw [history_append]
  simp [history, h]

theorem history_append_about (e : Event) : history e.about (log ++ [e]) = history e.about log ++ [e] := by
  rw [history_append]
  simp [history]

/-- A step with an event: nobody has another callback, and nothing is left in the slot. -/
theorem Told.event (h : Told s a log) (e : Event) (hlt : e.about < s.awaits) (haw : s'.awaits = s.awaits)
    (honly : ∀ t f, (s.party t).taken = some f → f = e.about)
    (hheld : ∀ t f, (s'.party t).taken = some f → f = e.about ∧ history f log ++ [e] = [.taken f])
    (hnew : ¬ Outrun s e.about)
    (hleft : ∀ k, Outrun s' k → Outrun s k ∨ (k = e.about ∧ history k log ++ [e] = [.taken k, .invoked k]))
    (howner : OneOwner s' (log ++ [e]) e.about) (hcb : s'.callback = none) (hbeg : a'.begins = none) :
    Told s' a' (log ++ [e]) := by
  refine ⟨fun f => ?_, fun t f ht => ?_, by simp [hcb], by simp [hbeg], fun k hk => ?_, fun f hf => ?_⟩
  · by_cases hf : f = e.about
    · exact hf ▸ howner
    · have hsame : history f (log ++ [e]) = history f log := history_append_of_ne (Ne.symm hf)
      unfold OneOwner
      rw [hsame]
      rcases h.owner f with hn | ⟨-, t, ht⟩ | hn
      · exact .inl hn
      · exact absurd (honly t f ht) hf
      · exact .inr (.inr hn)
  · obtain ⟨rfl, hh⟩ := hheld t f ht
    rw [history_append_about]; exact hh
  · rcases hleft k hk with hk | ⟨rfl, hh⟩
    · have hne : e.about ≠ k := by
        rintro rfl
        exact hnew hk
      rw [history_append_of_ne hne]; exact h.left k hk
    · rw [history_append_about]; exact hh
  · rw [haw] at hf
    rw [history_append_of_ne (by omega)]
    exact h.fresh f hf

/-- A callback that was not invoked is not that of an outrun call. -/
theorem Told.not_outrun (h : Told s a log) (hf : history f log ≠ [.taken f, .invoked f]) : ¬ Outrun s f :=
  fun hk => hf (h.left f hk)

/-! ## §3 — what a step keeps. -/

theorem Pending.update (h : Pending s) (hs : s'.party = Function.update s.party t p)
    (hl : (s.party t).looks = false) : Pending s' := by
  obtain ⟨u, hu⟩ := h
  have hut : u ≠ t := by
    rintro rfl
    rw [hl] at hu; cases hu
  exact ⟨u, by rw [hs, Function.update_of_ne hut]; exact hu⟩

/-- A party that is not at its exchange moves; if it publishes an item or closes, it is at its exchange next. -/
theorem Told.outside (h : Told s a log) (w : a.Watched s) (hs : s'.party = Function.update s.party t p)
    (hp : p.taken = (s.party t).taken) (hl : (s.party t).looks = false) (hcb : s'.callback = s.callback)
    (haw : s'.awaits = s.awaits) (ha : s'.acts = s.acts) (hhead : s'.headCtl = s.headCtl)
    (hgrow : p.looks = true ∨ (s'.tailCtl = s.tailCtl ∧ s'.closed = s.closed)) :
    a.Watched s' ∧ Told s' a log := by
  refine ⟨w.party hhead (fun hc => hcb ▸ hc) (fun _ => ?_), h.quiet ?_ haw.ge ?_ ?_ ?_⟩
  · rcases hgrow with hnext | ⟨ht, hc⟩
    · exact .inl ⟨t, by rw [hs, Function.update_self]; exact hnext⟩
    · exact .inr ⟨ht, hc, fun hpend => hpend.update hs hl⟩
  · intro u
    rw [hs]
    by_cases hut : u = t
    · subst hut; rw [Function.update_self]; exact hp
    · rw [Function.update_of_ne hut]
  · rintro k ⟨q, hq⟩
    exact ⟨q, ha ▸ hq⟩
  · intro f hf
    exact (h.slot f (hcb ▸ hf)).le haw.ge
  · intro k hk
    exact (h.begun k hk).le haw.ge

theorem Act.begins_of_slot (h : a.slot = some f) : a.begins = none := by
  cases a with
  | suspend k q o => rfl
  | parked k => rfl
  | _ => cases h

theorem taken_update {c : Bool} {u : Fin (n + 1)} {j : Nat} (hnone : ∀ u, (s.party u).taken = none)
    (hj : (Function.update s.party t (.callTail f c) u).taken = some j) : j = f := by
  by_cases hut : u = t
  · subst hut
    simpa [Party.taken] using hj.symm
  · rw [Function.update_of_ne hut, hnone u] at hj; cases hj

/-- **The exchange of `push` and `close`**: it takes the callback, or finds that there is none to take. -/
theorem Told.take (h : Told s a log) (o : Shared s a) (w : a.Watched s) (c : Bool)
    (ht : (s.party t).taken = none) :
    a.Watched (takeCallback s t c) ∧
      Told (takeCallback s t c) a (log ++ s.callback.toList.map .taken) := by
  cases hf : s.callback with
  | none =>
      have hstep : takeCallback s t c = s.goto t .idle := by simp [takeCallback, hf]
      rw [hstep]
      refine ⟨w.party rfl (fun hc => hc) (fun hc => absurd hf hc), ?_⟩
      simp only [Option.toList_none, List.map_nil, List.append_nil]
      refine h.quiet (fun u => ?_) le_rfl (fun _ hk => hk) h.slot h.begun
      by_cases hut : u = t
      · subst hut
        rw [ht]
        simp [State.goto, Party.taken]
      · simp [State.goto, hut]
  | some f =>
      have hstep : takeCallback s t c = { (s.goto t (.callTail f c)) with callback := none } := by
        simp [takeCallback, hf]
      have hnone := o.nobody hf
      obtain ⟨hlt, hfresh⟩ := h.slot f hf
      rw [hstep]
      refine ⟨w.party rfl (fun hc => absurd rfl hc) (fun hc => absurd rfl hc), ?_⟩
      refine h.event (.taken f) hlt rfl ?_ ?_ (h.not_outrun (by simp [Event.about, hfresh])) (fun _ hk => .inl hk) ?_ rfl
        (Act.begins_of_slot (o.registered f hf))
      · intro u j hj
        rw [hnone u] at hj; cases hj
      · intro u j hj
        obtain rfl := taken_update hnone hj
        exact ⟨rfl, by rw [hfresh]; rfl⟩
      · refine .inr (.inl ⟨?_, t, ?_⟩)
        · rw [history_append_about]
          show history f log ++ [.taken f] = _
          rw [hfresh]; rfl
        · show (Function.update s.party t (.callTail f c) t).taken = some f
          rw [Function.update_self]; rfl

/-- **The invocation**: the coroutine runs, and its callback is done with. -/
theorem Told.invoke (h : Told s a log) (o : Shared s a) {c : Bool} (hp : s.party t = .callResume f c) :
    Told { (s.goto t .idle) with acts := resume f s.acts } (.resumeHead f) (log ++ [.invoked f]) := by
  have ht : (s.party t).taken = some f := by rw [hp]; rfl
  have hslot := (o.holder t f ht).1
  have hheld := h.held t f ht
  have hothers : ∀ u j, (Function.update s.party t .idle u).taken ≠ some j := by
    intro u j hj
    by_cases hut : u = t
    · subst hut
      simp [Party.taken] at hj
    · rw [Function.update_of_ne hut] at hj
      exact hut (o.unique u t (by simp [hj]) (by simp [ht]))
  have hlt : f < s.awaits := by
    by_contra hge
    have := h.fresh f (by omega)
    rw [hheld] at this; cases this
  refine h.event (.invoked f) hlt rfl ?_ ?_ (h.not_outrun (by simp [Event.about, hheld])) ?_ ?_ (o.holder t f ht).2 rfl
  · intro u j hj
    have := (o.holder u j hj).1
    rw [hslot] at this
    exact (Option.some.inj this).symm
  · intro u j hj
    exact absurd hj (hothers u j)
  · rintro k ⟨q, hq⟩
    rcases (sole_resume o.acts o.live hslot).2 k q hq with rfl | hmem
    · exact .inr ⟨rfl, by rw [hheld]; rfl⟩
    · exact .inl ⟨q, hmem⟩
  · refine .inr (.inr (.inl ?_))
    rw [history_append_about]
    show history f log ++ [.invoked f] = _
    rw [hheld]; rfl

/-- What a step leaves behind: a live activation that is watched, and a log that agrees. -/
def Leaves (s' : State V n) (log : List Event) : Prop :=
  ∃ a', a' ∈ s'.acts ∧ ¬ a'.Left ∧ a'.Watched s' ∧ Told s' a' log

theorem Shared.mem (o : Shared s a) : a ∈ s.acts := by
  obtain ⟨l, r, he, -⟩ := o.acts
  rw [he]; simp

theorem Shared.not_left (o : Shared s a) : ¬ a.Left := by
  rw [Act.left_iff]
  rintro ⟨k, q, he, -⟩
  exact o.live k q he

theorem Told.partyStep (h : Told s a log) (o : Shared s a) (w : a.Watched s) (hs : partyStep bits s t = some s') :
    Leaves s' (log ++ partyEvents s (s.party t)) := by
  cases hp : s.party t with
  | idle => simp [SPSCChannel.partyStep, hp] at hs
  | pushClosed v | pushTail v | pushHead v tail =>
      simp only [SPSCChannel.partyStep, hp, Option.some.injEq] at hs
      subst hs
      simp only [partyEvents, List.append_nil]
      exact ⟨a, o.mem, o.not_left, h.outside w rfl (by rw [hp]; split <;> rfl) (by rw [hp]; rfl) rfl rfl rfl rfl
        (.inr ⟨rfl, rfl⟩)⟩
  | pushConstruct v tail | callTail f c =>
      simp only [SPSCChannel.partyStep, hp, Option.some.injEq] at hs
      subst hs
      simp only [partyEvents, List.append_nil]
      exact ⟨a, o.mem, o.not_left, h.outside w rfl (by rw [hp]; rfl) (by rw [hp]; rfl) rfl rfl rfl rfl
        (.inr ⟨rfl, rfl⟩)⟩
  | pushStore v tail | closeStore =>
      simp only [SPSCChannel.partyStep, hp, Option.some.injEq] at hs
      subst hs
      simp only [partyEvents, List.append_nil]
      exact ⟨a, o.mem, o.not_left, h.outside w rfl (by rw [hp]; rfl) (by rw [hp]; rfl) rfl rfl rfl rfl (.inl rfl)⟩
  | pushExchange | closeExchange =>
      simp only [SPSCChannel.partyStep, hp, Option.some.injEq] at hs
      subst hs
      refine ⟨a, ?_, o.not_left, h.take o w _ (by rw [hp]; rfl)⟩
      rw [takeCallback]
      split <;> exact o.mem
  | callResume f c =>
      simp only [SPSCChannel.partyStep, hp, Option.some.injEq] at hs
      subst hs
      have hslot := (o.holder t f (by rw [hp]; rfl)).1
      obtain ⟨l, r, he, -⟩ := (sole_resume o.acts o.live hslot).1
      refine ⟨.resumeHead f, ?_, by simp [Act.Left], trivial, h.invoke o hp⟩
      show Act.resumeHead f ∈ resume f s.acts
      rw [he]; simp

/-- A step of the live activation without events. -/
theorem Told.running (h : Told s a log) (hparty : s'.party = s.party) (haw : s'.awaits = s.awaits)
    (hcb : s'.callback = s.callback) (hleft : ∀ k, Outrun s' k → Outrun s k)
    (hbeg : ∀ k, a'.begins = some k → a.begins = some k) : Told s' a' log := by
  refine h.quiet (fun t => by rw [hparty]) haw.ge hleft (fun f hf => ?_) (fun k hk => ?_)
  · exact (h.slot f (hcb ▸ hf)).le haw.ge
  · exact (h.begun k (hbeg k hk)).le haw.ge

/-- **The retracting exchange**: it takes the callback it registered itself, or finds it taken. -/
theorem Told.retract {tail : Nat} (h : Told s (.suspend k (.exchange tail) false) log)
    (o : Shared s (.suspend k (.exchange tail) false)) (hparty : s'.party = s.party) (haw : s'.awaits = s.awaits)
    (hcb : s'.callback = none) (hleft : ∀ k, Outrun s' k → Outrun s k) (hbeg : a'.begins = none) :
    Told s' a' (log ++ s.callback.toList.map (.discarded · k)) := by
  cases hf : s.callback with
  | none =>
      simp only [Option.toList_none, List.map_nil, List.append_nil]
      exact h.quiet (fun t => by rw [hparty]) haw.ge hleft (by simp [hcb]) (by simp [hbeg])
  | some f =>
      obtain rfl : k = f := by simpa [Act.slot] using o.registered f hf
      obtain ⟨hlt, hfresh⟩ := h.slot k hf
      have hnone := o.nobody hf
      refine h.event (.discarded k k) hlt haw ?_ ?_ (h.not_outrun (by simp [Event.about, hfresh]))
        (fun j hj => .inl (hleft j hj)) ?_ hcb hbeg
      · intro u j hj
        rw [hnone u] at hj; cases hj
      · intro u j hj
        rw [hparty, hnone u] at hj; cases hj
      · refine .inr (.inr (.inr ?_))
        rw [history_append_about]
        show history k log ++ [.discarded k k] = _
        rw [hfresh]; rfl

theorem mem_splice {as : List (Act V)} : a' ∈ as.take i ++ [a'] ++ as.drop (i + 1) := by simp

/-- The live activation's step makes no leftover. -/
theorem outrun_of_splice (hacts : s'.acts = s.acts.take i ++ [a'] ++ s.acts.drop (i + 1))
    (hlive : ∀ k p, a' ≠ .suspend k p true) (k : Nat) (h : Outrun s' k) : Outrun s k := by
  obtain ⟨q, hq⟩ := h
  rw [hacts] at hq
  rcases mem_of_mem_splice hq with hmem | hmem
  · exact absurd (List.mem_singleton.mp hmem).symm (hlive k q)
  · exact ⟨q, hmem⟩

theorem Told.liveStep (h : Told s a log) (o : Shared s a) (w : a.Watched s) {r : State V n × List (Act V)}
    (hr : actStep bits s a = some r) (hs : s' = { r.1 with acts := s.acts.take i ++ r.2 ++ s.acts.drop (i + 1) }) :
    Leaves s' (log ++ actEvents s a) := by
  have hlive := o.live
  cases a with
  | parked k => simp [SPSCChannel.actStep] at hr
  | body =>
      obtain rfl : _ = r := by simpa [SPSCChannel.actStep] using hr
      subst hs
      simp only [actEvents, List.append_nil]
      refine ⟨.readyHead s.awaits, mem_splice, id, trivial,
        h.quiet (fun _ => rfl) (Nat.le_succ _) (outrun_of_splice rfl (by simp)) ?_ ?_⟩
      · intro f hf
        exact (h.slot f hf).le (Nat.le_succ _)
      · intro k hk
        -- the await that begins has no event yet
        obtain rfl : s.awaits = k := by simpa [Act.begins] using hk
        exact ⟨Nat.lt_succ_self _, h.fresh _ le_rfl⟩
  | suspendStore k =>
      obtain rfl : _ = r := by simpa [SPSCChannel.actStep] using hr
      subst hs
      simp only [actEvents, List.append_nil]
      refine ⟨.suspend k .head false, mem_splice, by simp [Act.Left], trivial,
        h.quiet (fun _ => rfl) le_rfl (outrun_of_splice rfl (by simp)) ?_ (by simp [Act.begins])⟩
      intro f hf
      obtain rfl : k = f := by simpa using hf
      exact h.begun k rfl
  | suspend k q out =>
      obtain rfl : out = false := by
        cases out
        · rfl
        · exact absurd rfl (hlive k q)
      cases q with
      | head =>
          obtain rfl : _ = r := by simpa [SPSCChannel.actStep] using hr
          subst hs
          simp only [actEvents, List.append_nil]
          exact ⟨_, mem_splice, by simp [Act.Left], rfl,
            h.running rfl rfl rfl (outrun_of_splice rfl (by simp)) (by simp [Act.begins])⟩
      | tail head =>
          obtain rfl : _ = r := by simpa [SPSCChannel.actStep] using hr
          subst hs
          simp only [actEvents, List.append_nil]
          refine ⟨_, mem_splice, ?_, ?_, h.running rfl rfl rfl (outrun_of_splice rfl (by simp)) (by simp [Act.begins])⟩
          · split <;> simp [Act.Left]
          · -- the tail it read is the head it has: the ring was empty, and the watch stays
            by_cases hh : head = s.tailCtl
            · simp only [hh]
              exact fun _ => .inl (Eq.trans (Eq.symm w) hh)
            · simp only [hh]
              trivial
      | closed tail =>
          obtain rfl : _ = r := by simpa [SPSCChannel.actStep, suspended] using hr
          subst hs
          simp only [actEvents, List.append_nil]
          by_cases hcl : s.closed = true
          · simp only [hcl, if_true]
            exact ⟨_, mem_splice, by simp [Act.Left], trivial,
              h.running rfl rfl rfl (outrun_of_splice rfl (by simp)) (by simp [Act.begins])⟩
          · simp only [hcl, Bool.false_eq_true, if_false]
            refine ⟨_, mem_splice, id, fun hne => ?_,
              h.running rfl rfl rfl (outrun_of_splice rfl (by simp)) (by simp [Act.begins])⟩
            rcases w hne with he | hp
            · exact .inl ⟨he, rfl⟩
            · exact .inr hp
      | exchange tail =>
          obtain rfl : _ = r := by simpa [SPSCChannel.actStep, suspended] using hr
          subst hs
          simp only [actEvents]
          -- taking the callback back, or finding that a party has it
          by_cases hc : s.callback.isSome = true
          · simp only [hc, if_true]
            exact ⟨_, mem_splice, by simp [Act.Left], trivial,
              h.retract o rfl rfl rfl (outrun_of_splice rfl (by simp)) rfl⟩
          · simp only [hc, Bool.false_eq_true, if_false]
            exact ⟨.parked k, mem_splice, id, fun hne => absurd rfl hne,
              h.retract o rfl rfl rfl (outrun_of_splice rfl (by simp)) rfl⟩
      | sync tail =>
          obtain rfl : _ = r := by simpa [SPSCChannel.actStep] using hr
          subst hs
          simp only [actEvents, List.append_nil]
          exact ⟨_, mem_splice, id, trivial,
            h.running rfl rfl rfl (outrun_of_splice rfl (by simp)) (by simp [Act.begins])⟩
  | readyHead k | readyTail k head | readyClosed k =>
      obtain rfl : _ = r := by simpa [SPSCChannel.actStep] using hr
      subst hs
      simp only [actEvents, List.append_nil]
      refine ⟨_, mem_splice, ?_, ?_, h.running rfl rfl rfl (outrun_of_splice rfl ?_) ?_⟩
      · split <;> exact id
      · split <;> trivial
      · intro j q
        split <;> simp
      · intro j hj
        split at hj <;> first | exact hj | cases hj
  | resumeTail k head =>
      obtain rfl : _ = r := by simpa [SPSCChannel.actStep] using hr
      subst hs
      simp only [actEvents, List.append_nil]
      refine ⟨_, mem_splice, ?_, ?_, h.running rfl rfl rfl (outrun_of_splice rfl ?_) ?_⟩
      · split <;> exact id
      · split <;> trivial
      · intro j q
        split <;> simp
      · intro j hj
        split at hj <;> cases hj
  | resumeMove k head =>
      obtain ⟨v, -, rfl⟩ := Option.map_eq_some_iff.mp hr
      subst hs
      simp only [actEvents, List.append_nil]
      exact ⟨_, mem_splice, id, trivial,
        h.running rfl rfl rfl (outrun_of_splice rfl (by simp)) (by simp [Act.begins])⟩
  | resumeHead k | resumeStore k head v | resumeClosed k =>
      obtain rfl : _ = r := by simpa [SPSCChannel.actStep] using hr
      subst hs
      simp only [actEvents, List.append_nil]
      exact ⟨_, mem_splice, id, trivial,
        h.running rfl rfl rfl (outrun_of_splice rfl (by simp)) (by simp [Act.begins])⟩

/-- A leftover that steals nothing moves. -/
theorem Told.leftStep {b : Act V} (h : Told s a log) (o : Shared s a) (w : a.Watched s) (hb : b.Left)
    (hmem : s.acts[i]? = some b) (hst : NotStolen s (.act i)) {r : State V n × List (Act V)}
    (hr : actStep bits s b = some r) (hs : s' = { r.1 with acts := s.acts.take i ++ r.2 ++ s.acts.drop (i + 1) })
    (hsole : ∀ ys, (∀ y ∈ ys, y.Left) → Sole Act.Left a (s.acts.take i ++ ys ++ s.acts.drop (i + 1))) :
    Leaves s' (log ++ actEvents s b) := by
  have hcb : b.steals = true → s.callback = none := hst b hmem
  obtain ⟨h1, h2, h3⟩ := left_step hb hr hcb
  have hev : actEvents s b = [] := by
    obtain ⟨k, q, rfl, -⟩ := Act.left_iff.mp hb
    cases q with
    | exchange tail => simp [actEvents, hcb rfl]
    | head | tail j | closed j | sync j => rfl
  obtain ⟨l, r', he, -⟩ := hsole r.2 h2
  subst hs
  rw [hev, List.append_nil, h1]
  refine ⟨a, ?_, o.not_left, w.party rfl id fun _ => .inr ⟨rfl, rfl, id⟩, h.running rfl rfl rfl ?_ fun _ hk => hk⟩
  · show a ∈ s.acts.take i ++ r.2 ++ s.acts.drop (i + 1)
    rw [he]; simp
  · rintro k ⟨q, hq⟩
    rcases mem_of_mem_splice hq with hnew | hold
    · obtain ⟨q', rfl⟩ := h3 k q hnew
      exact ⟨q', List.mem_of_getElem? hmem⟩
    · exact ⟨q, hold⟩

theorem Told.step {act : Action V n} (h : Told s a log) (o : Shared s a) (w : a.Watched s) (hg : NotStolen s act)
    (hs : step bits s act = some s') : Leaves s' (log ++ events s act) := by
  cases act with
  | callPush v | callClose t =>
      simp only [SPSCChannel.step] at hs
      split at hs
      · rename_i hp
        obtain rfl := Option.some.inj hs
        simp only [events, List.append_nil]
        exact ⟨a, o.mem, o.not_left, h.outside w rfl (by rw [hp]; rfl) (by rw [hp]; rfl) rfl rfl rfl rfl
          (.inr ⟨rfl, rfl⟩)⟩
      · cases hs
  | party t => exact h.partyStep o w hs
  | act i =>
      obtain ⟨b, r, hb, hr, hs⟩ := act_parts hs
      have he : events s (.act i) = actEvents s b := by simp [events, hb]
      rw [he]
      rcases o.acts.splice hb with ⟨rfl, -⟩ | ⟨hleft, hsole⟩
      · exact h.liveStep o w hr hs
      · exact h.leftStep o w hleft hb hg hr hs hsole

/-! ## §4 — whole runs. -/

/-- What a run that steals no callback keeps. -/
def Waking (s : State V n × List Event) : Prop := ∃ a, Shared s.1 a ∧ a.Watched s.1 ∧ Told s.1 a s.2

theorem Waking.step {s s' : State V n × List Event} {act : Action V n} (h : Waking s) (hg : NotStolen s.1 act)
    (hs : logged (step bits) events s act = some s') : Waking s' := by
  obtain ⟨hs, hlog⟩ := logged_eq_some hs
  obtain ⟨a, o, w, h⟩ := h
  obtain ⟨a', o'⟩ := o.step hg hs
  obtain ⟨b, hmem, hlive, w', h'⟩ := h.step o w hg hs
  obtain rfl := (o'.acts.eq_or hmem).resolve_right hlive
  exact ⟨b, o', w', hlog ▸ h'⟩

theorem waking_init : Waking (init V n, []) := by
  refine ⟨.body, owned_init.shared, trivial, fun f => .inl rfl, ?_, ?_, ?_, ?_, fun f _ => rfl⟩
  · intro t f ht; cases ht
  · intro f hf; cases hf
  · intro k hk; cases hk
  · rintro k ⟨q, hq⟩
    cases List.mem_singleton.mp hq

/-- A parked coroutine's callback is in the slot or with a party; in the slot, the coroutine is watched. -/
theorem Waking.not_lost {s : State V n × List Event} (h : Waking s) : ¬ Lost s.1 := by
  rintro ⟨⟨k, hk⟩, hidle, hwork⟩
  obtain ⟨a, o, w, -⟩ := h
  obtain rfl := (o.acts.eq_or hk).resolve_right id
  rcases o.slot k rfl with hc | ⟨t, ht⟩
  · rcases w (by simp [hc]) with ⟨he, ho⟩ | ⟨t, ht⟩
    · rcases hwork with hne | hcl
      · exact hne he
      · rw [ho] at hcl; cases hcl
    · rw [hidle t] at ht; cases ht
  · rw [hidle t] at ht; cases ht

/-- Whoever discards a callback registered it. -/
def OwnDiscards (log : List Event) : Prop := ∀ f k, .discarded f k ∈ log → k = f

theorem ownDiscards_of_oneOwner (h : ∀ f, OneOwner s log f) : OwnDiscards log := by
  intro f k hmem
  have hh : .discarded f k ∈ history f log := List.mem_filter.mpr ⟨hmem, by simp [Event.about]⟩
  rcases h f with he | ⟨he, -⟩ | he | he
  · rw [he] at hh; cases hh
  · rw [he] at hh
    cases List.mem_singleton.mp hh
  · rw [he] at hh
    simp at hh
  · rw [he] at hh
    simpa using hh

/-- **A stolen callback shows in the log**: it is not the callback of the call that discards it. -/
theorem Waking.stolen {s s' : State V n × List Event} {act : Action V n} (h : Waking s) (hg : ¬ NotStolen s.1 act)
    (hs : logged (SPSCChannel.step bits) events s act = some s') : ¬ OwnDiscards s'.2 := by
  obtain ⟨-, hlog⟩ := logged_eq_some hs
  obtain ⟨a, -, -, ht⟩ := h
  cases act with
  | act i =>
      simp only [NotStolen, not_forall] at hg
      obtain ⟨b, hb, hsteal, hne⟩ := hg
      obtain ⟨k, tail, rfl⟩ := Act.steals_iff.mp hsteal
      have hk := Option.mem_def.mp hb
      obtain ⟨f, hf⟩ := Option.ne_none_iff_exists'.mp hne
      have hev : events s.1 (.act i) = [.discarded f k] := by simp [events, hk, actEvents, hf]
      intro hown
      have hkf : k = f := hown f k (by rw [hlog, hev]; simp)
      have hleft := ht.left k ⟨_, List.mem_of_getElem? hk⟩
      have hunused := (ht.slot f hf).2
      rw [hkf, hunused] at hleft
      cases hleft
  | callPush v | callClose t | party t => exact absurd trivial hg

/-- **No wake-up is lost and every callback is one party's**, in exactly the runs in which no callback is stolen. -/
theorem no_wakeup_lost_iff_not_stolen (bits n : Nat) (s : State V n × List Event)
    (h : Reachable (logged (step bits) events) (init V n, []) s) :
    (¬ Lost s.1 ∧ ∀ f, OneOwner s.1 s.2 f) ↔
      Run (logged (step bits) events) (fun s act => NotStolen s.1 act) (init V n, []) s := by
  have hwaking : ∀ {s}, Run (logged (step bits) events) (fun s act => NotStolen s.1 act) (init V n, []) s → Waking s :=
    fun hrun => hrun.invariant (fun _ _ _ hw hg hs => hw.step hg hs) waking_init
  constructor
  · rintro ⟨-, hone⟩
    have hown := ownDiscards_of_oneOwner hone
    clear hone
    -- Along the run: a log without foreign discards has none in its earlier parts.
    induction h with
    | refl => exact .refl _
    | tail act _ _ hs ih =>
        have hlog := (logged_eq_some hs).2
        have hrun := ih fun f k hmem => hown f k (by rw [hlog]; exact List.mem_append_left _ hmem)
        refine hrun.tail act ?_ hs
        by_contra hg
        exact Waking.stolen (hwaking hrun) hg hs hown
  · intro hrun
    have hw := hwaking hrun
    obtain ⟨a, -, -, ht⟩ := id hw
    exact ⟨hw.not_lost, ht.owner⟩

/-- A `push` resumes the coroutine under its running `await_suspend`, whose exchange finds the slot empty; the coroutine
takes the item and parks; then a close. -/
def outrunThenClose (p c : Fin (n + 1)) : List (Action Nat n) :=
  List.flatten [List.replicate 5 (.act 0), [.callPush 7], List.replicate 7 (.party p), List.replicate 3 (.act 0),
    List.replicate 12 (.act 0), [.callClose c], List.replicate 4 (.party c)]

theorem no_wakeup_lost_outrunThenClose :
    ∃ s, Reachable (logged (step 1) events) (init Nat 1, []) s ∧
      s.2 = [.taken 0, .invoked 0, .taken 1, .invoked 1] ∧ ¬ Lost s.1 ∧ ∀ f, OneOwner s.1 s.2 f := by
  obtain ⟨s, hs, h⟩ : ∃ s, exec (guarded (logged (step 1) events) fun s act => NotStolen s.1 act)
      (init Nat 1, []) (outrunThenClose 0 1) = some s ∧ s.2 = [.taken 0, .invoked 0, .taken 1, .invoked 1] :=
    ⟨_, rfl, by decide⟩
  have hrun := run_of_exec_guarded hs
  exact ⟨s, hrun.reachable, h, (no_wakeup_lost_iff_not_stolen 1 1 s hrun.reachable).mpr hrun⟩

/-- A `push` resumes the coroutine under its running `await_suspend`; the coroutine takes the item and awaits again;
then the old call's exchange takes the NEW callback.  The next item wakes nobody. -/
def outrunExchange (p : Fin (n + 1)) : List (Action Nat n) :=
  List.flatten [List.replicate 5 (.act 0), [.callPush 7], List.replicate 7 (.party p), List.replicate 2 (.act 0),
    List.replicate 9 (.act 1), [.act 0], List.replicate 3 (.act 1), [.callPush 8], List.replicate 6 (.party p)]

theorem old_callback_exchange_loses_wakeup :
    ¬ ∀ (bits n : Nat) (s : State Nat n × List Event),
      Reachable (logged (step bits) events) (init Nat n, []) s → ¬ Lost s.1 ∧ ∀ f, OneOwner s.1 s.2 f := by
  intro h
  obtain ⟨s, hs, hmem, hidle, hne⟩ : ∃ s, exec (logged (step 1) events) (init Nat 0, []) (outrunExchange 0) = some s ∧
      .parked 1 ∈ s.1.acts ∧ (∀ t, s.1.party t = .idle) ∧ s.1.headCtl ≠ s.1.tailCtl :=
    ⟨_, rfl, by decide, by decide, by decide⟩
  exact (h 1 0 s (reachable_of_exec hs)).1 ⟨⟨1, hmem⟩, hidle, .inl hne⟩

end NetCpp.Coro.SPSCChannel
