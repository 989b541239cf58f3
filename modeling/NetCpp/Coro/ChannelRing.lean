/-
# NetCpp.Coro.ChannelRing — the ring of `SPSCChannel`, and when a wake-up is never spurious.

`await_resume` asserts that a consumer that wakes up to an empty ring sits on a closed channel.  What
carries this is the relation between FOUR indices (the two `_ctl`s and the two cached copies), read
through the absolute counters `popped.length` and `pushed.length`:

* `Seen s i` — the index `i` is some tail the consumer may still rely on,
* `SeenNew s i` — and it is one item ahead of the head, or the channel is closed.

`push` publishes its item and takes the callback LATER.  A producer stalled between the two may take a
callback that the consumer registered after having consumed that very item (`wakeup_is_spurious`).
`NotStale` excludes that registration, `NotOutrun` a resumption under a running `await_suspend`.
-/
import NetCpp.Coro.Channel

namespace NetCpp.Coro.SPSCChannel

open NetCpp.Lib

variable {V : Type} {bits n : Nat}

/-! ## §1 — the property and its side condition. -/

/-- **No spurious wake-up in `s`.** `nullopt` was returned only on a closed channel, the channel is
closed only by a `close()`, and an activation that enters `await_resume` finds an item or a closed
channel. -/
def NoSpurious (s : State V n) : Prop :=
  (∀ r ∈ s.results, r.1 = none → r.2 = true) ∧ (s.closed = true → s.closeCalled = true) ∧
    ∀ k, .resumeHead k ∈ s.acts → s.headCtl ≠ s.tailCtl ∨ s.closed = true

/-- The party has published its item and not yet looked for a callback. -/
def Party.stalled : Party V → Bool
  | .pushExchange => true
  | _ => false

/-- The activation's next step stores its callback. -/
def Act.registers : Act V → Bool
  | .suspendStore _ => true
  | _ => false

/-- **The registration is not stale.** The step does not store a callback on an empty open channel
while a `push` stands between publishing its (already consumed) item and taking the callback. -/
def NotStale (s : State V n) : Action V n → Prop
  | .act i => ∀ a ∈ s.acts[i]?, a.registers = true → (∃ t, (s.party t).stalled = true) →
      s.headCtl ≠ s.tailCtl ∨ s.closed = true
  | _ => True

instance (s : State V n) (act : Action V n) : Decidable (NotStale s act) :=
  match act with
  | .act i => inferInstanceAs (Decidable (∀ a ∈ s.acts[i]?, _))
  | .callPush _ | .callClose _ | .party _ => inferInstanceAs (Decidable True)

def ChannelSafe (s : State V n) (act : Action V n) : Prop := NotOutrun s act ∧ NotStale s act

instance (s : State V n) (act : Action V n) : Decidable (ChannelSafe s act) :=
  inferInstanceAs (Decidable (_ ∧ _))

/-! ## §2 — indices through counters. -/

/-- An item is in the ring, or the channel is closed. -/
def Avail (s : State V n) : Prop := s.closed = true ∨ s.popped.length < s.pushed.length

/-- `i` is a tail that lies between head and tail. -/
def Seen (bits : Nat) (s : State V n) (i : Nat) : Prop :=
  s.closed = true ∨ ∃ l, i = ringIdx bits l ∧ s.popped.length ≤ l ∧ l ≤ s.pushed.length

/-- `i` is a tail strictly ahead of the head. -/
def SeenNew (bits : Nat) (s : State V n) (i : Nat) : Prop :=
  s.closed = true ∨ ∃ l, i = ringIdx bits l ∧ s.popped.length < l ∧ l ≤ s.pushed.length

/-- Against the producer's copy of the head there is a free slot beyond the tail. -/
def Room (bits : Nat) (s : State V n) : Prop :=
  ∃ c ≤ s.popped.length, s.tailLocal = ringIdx bits c ∧ s.pushed.length + 1 < c + 2 ^ bits

/-- Inside `push`, before the callback is taken. -/
def Party.pushing : Party V → Bool
  | .pushClosed _ | .pushTail _ | .pushHead _ _ | .pushConstruct _ _ | .pushStore _ _
  | .pushExchange => true
  | _ => false

/-- What a party may rely on at its program counter. -/
def Party.Ok (bits : Nat) (s : State V n) : Party V → Prop
  | .pushHead _ i => i = s.tailCtl
  | .pushConstruct _ i | .pushStore _ i =>
      i = s.tailCtl ∧ Room bits s
  | .pushExchange => s.callback ≠ none → Avail s
  | .closeStore => s.closeCalled = true
  | .closeExchange => s.closed = true
  | .callTail _ _ => Avail s
  | .callResume _ _ => SeenNew bits s s.headLocal
  | _ => True

/-- What the consumer may rely on at its program counter. -/
def Act.Ok (bits : Nat) (s : State V n) : Act V → Prop
  | .readyTail _ h | .suspend _ (.tail h) _ => Seen bits s s.headLocal ∧ h = s.headCtl
  | .suspend _ (.exchange i) _ | .suspend _ (.sync i) _ =>
      Seen bits s s.headLocal ∧ SeenNew bits s i
  | .resumeHead _ => SeenNew bits s s.headLocal
  | .resumeTail _ h => SeenNew bits s s.headLocal ∧ h = s.headCtl
  | .resumeMove _ h | .resumeStore _ h _ =>
      SeenNew bits s s.headLocal ∧ h = s.headCtl ∧ s.popped.length < s.pushed.length
  | .resumeClosed _ => s.closed = true
  | _ => Seen bits s s.headLocal

/-- The ring invariant. -/
structure RingInv (bits : Nat) (s : State V n) (a : Act V) : Prop where
  head : s.headCtl = ringIdx bits s.popped.length
  tail : s.tailCtl = ringIdx bits s.pushed.length
  order : s.popped.length ≤ s.pushed.length ∧ s.pushed.length < s.popped.length + 2 ^ bits
  cached : ∃ h ≤ s.popped.length, s.tailLocal = ringIdx bits h ∧ s.pushed.length < h + 2 ^ bits
  single : ∀ t, t ≠ 0 → (s.party t).pushing = false
  parties : ∀ t, (s.party t).Ok bits s
  act : a.Ok bits s
  results : ∀ r ∈ s.results, r.1 = none → r.2 = true
  closing : s.closed = true → s.closeCalled = true

variable {s s' : State V n} {a a' : Act V} {t : Fin (n + 1)} {p : Party V} {i : Nat}

theorem SeenNew.seen (h : SeenNew bits s i) : Seen bits s i := by
  rcases h with h | ⟨l, hi, h1, h2⟩
  · exact .inl h
  · exact .inr ⟨l, hi, h1.le, h2⟩

theorem SeenNew.avail (h : SeenNew bits s i) : Avail s := by
  rcases h with h | ⟨l, -, h1, h2⟩
  · exact .inl h
  · exact .inr (Nat.lt_of_lt_of_le h1 h2)

theorem RingInv.head_eq_tail_iff (h : RingInv bits s a) :
    s.headCtl = s.tailCtl ↔ s.popped.length = s.pushed.length := by
  rw [h.head, h.tail]
  exact ringIdx_eq_iff h.order.1 h.order.2

theorem RingInv.lt_of_ne (h : RingInv bits s a) (hne : s.headCtl ≠ s.tailCtl) :
    s.popped.length < s.pushed.length := by
  have := h.order.1
  have hne' : s.popped.length ≠ s.pushed.length := fun he => hne (h.head_eq_tail_iff.mpr he)
  omega

theorem RingInv.seen_tail (h : RingInv bits s a) : Seen bits s s.tailCtl :=
  .inr ⟨_, h.tail, h.order.1, le_rfl⟩

theorem RingInv.seenNew_tail (h : RingInv bits s a) (ha : Avail s) : SeenNew bits s s.tailCtl := by
  rcases ha with hc | hlt
  · exact .inl hc
  · exact .inr ⟨_, h.tail, hlt, le_rfl⟩

/-- The consumer's own step leaves the head where it is; the ring only grows and only closes. -/
structure Grows (s s' : State V n) : Prop where
  popped : s'.popped.length = s.popped.length
  pushed : s.pushed.length ≤ s'.pushed.length
  closed : s.closed = true → s'.closed = true

theorem Grows.avail (g : Grows s s') (h : Avail s) : Avail s' := by
  rcases h with h | h
  · exact .inl (g.closed h)
  · exact .inr (by have := g.pushed; have := g.popped; omega)

theorem Grows.seen (g : Grows s s') (h : Seen bits s i) : Seen bits s' i := by
  rcases h with h | ⟨l, hi, h1, h2⟩
  · exact .inl (g.closed h)
  · exact .inr ⟨l, hi, by rw [g.popped]; exact h1, h2.trans g.pushed⟩

theorem Grows.seenNew (g : Grows s s') (h : SeenNew bits s i) : SeenNew bits s' i := by
  rcases h with h | ⟨l, hi, h1, h2⟩
  · exact .inl (g.closed h)
  · exact .inr ⟨l, hi, by rw [g.popped]; exact h1, h2.trans g.pushed⟩

/-- A party that stays where it is keeps what it relies on while the ring grows. -/
theorem Party.Ok.grows (h : p.Ok bits s) (g : Grows s s')
    (hidx : p.pushing = true → s'.tailCtl = s.tailCtl ∧ s'.pushed.length = s.pushed.length ∧
      s'.tailLocal = s.tailLocal)
    (hcb : p.stalled = true → s'.callback ≠ none → s.callback ≠ none ∨ Avail s')
    (hloc : p.resumes ≠ none → s'.headLocal = s.headLocal)
    (hcall : s.closeCalled = true → s'.closeCalled = true) : p.Ok bits s' := by
  cases p with
  | idle | pushClosed v | pushTail v => trivial
  | pushHead v j => exact Eq.trans h (hidx rfl).1.symm
  | pushConstruct v j | pushStore v j =>
      obtain ⟨h1, h2, h3⟩ := hidx rfl
      refine ⟨Eq.trans h.1 h1.symm, ?_⟩
      unfold Room
      rw [h2, h3, g.popped]; exact h.2
  | pushExchange =>
      intro hne
      rcases hcb rfl hne with h' | h'
      · exact g.avail (h h')
      · exact h'
  | closeStore => exact hcall h
  | closeExchange => exact g.closed h
  | callTail f c => exact g.avail h
  | callResume f c =>
      have : s'.headLocal = s.headLocal := hloc (by simp [Party.resumes])
      simp only [Party.Ok, this]
      exact g.seenNew h

/-- The consumer keeps what it relies on while the ring grows. -/
theorem Act.Ok.grows (h : a.Ok bits s) (g : Grows s s') (hh : s'.headCtl = s.headCtl)
    (hl : s'.headLocal = s.headLocal) : a.Ok bits s' := by
  cases a with
  | readyTail k j => exact ⟨by rw [hl]; exact g.seen h.1, h.2.trans hh.symm⟩
  | suspend k q o =>
      cases q with
      | tail j => exact ⟨by rw [hl]; exact g.seen h.1, h.2.trans hh.symm⟩
      | exchange j | sync j => exact ⟨by rw [hl]; exact g.seen h.1, g.seenNew h.2⟩
      | head | closed j => simp only [Act.Ok, hl]; exact g.seen h
  | resumeHead k => simp only [Act.Ok, hl]; exact g.seenNew h
  | resumeTail k j => exact ⟨by rw [hl]; exact g.seenNew h.1, h.2.trans hh.symm⟩
  | resumeMove k j | resumeStore k j v =>
      refine ⟨by rw [hl]; exact g.seenNew h.1, h.2.1.trans hh.symm, ?_⟩
      have := g.pushed
      have := g.popped
      have := h.2.2
      omega
  | resumeClosed k => exact g.closed h
  | body | readyHead k | readyClosed k | suspendStore k | parked k =>
      simp only [Act.Ok, hl]; exact g.seen h

/-! ## §3 — steps of the parties. -/

theorem RingInv.producer (h : RingInv bits s a) (ht : (s.party t).pushing = true) : t = 0 := by
  by_contra hne
  rw [h.single t hne] at ht; cases ht

/-- A party moves and the indices stay; it may refresh its copy of the head, empty the callback slot
or close the channel. -/
theorem RingInv.quiet (h : RingInv bits s a) (hs : s'.party = Function.update s.party t p)
    (hring : s'.headCtl = s.headCtl ∧ s'.tailCtl = s.tailCtl ∧ s'.pushed = s.pushed ∧
      s'.popped = s.popped ∧ s'.headLocal = s.headLocal)
    (hloc : s'.tailLocal = s.tailLocal ∨ (s'.tailLocal = s.headCtl ∧ t = 0))
    (hcb : s'.callback ≠ none → s.callback ≠ none) (hcl : s.closed = true → s'.closed = true)
    (hcall : s.closeCalled = true → s'.closeCalled = true)
    (hclosing : s'.closed = true → s'.closeCalled = true) (hres : s'.results = s.results)
    (hpush : t ≠ 0 → p.pushing = false) (hp : p.Ok bits s') : RingInv bits s' a := by
  obtain ⟨r1, r2, r3, r4, r5⟩ := hring
  have g : Grows s s' := ⟨by rw [r4], by rw [r3], hcl⟩
  refine ⟨by rw [r1, r4]; exact h.head, by rw [r2, r3]; exact h.tail, by rw [r3, r4]; exact h.order,
    ?_, ?_, ?_, h.act.grows g r1 r5, by rw [hres]; exact h.results, hclosing⟩
  · rw [r3, r4]
    rcases hloc with hl | ⟨hl, -⟩
    · rw [hl]; exact h.cached
    · exact ⟨_, le_rfl, hl.trans h.head, h.order.2⟩
  · intro i hi
    rw [hs]
    by_cases hit : i = t
    · subst hit; simpa using hpush hi
    · simpa [hit] using h.single i hi
  · intro i
    rw [hs]
    by_cases hit : i = t
    · subst hit; simpa using hp
    · rw [Function.update_of_ne hit]
      refine (h.parties i).grows g (fun hpi => ⟨r2, by rw [r3], ?_⟩) (fun _ hne => .inl (hcb hne))
        (fun _ => r5) hcall
      rcases hloc with hl | ⟨-, rfl⟩
      · exact hl
      · exact absurd (h.producer hpi) hit

/-- `n_tail != ep._local` against the cached copy. -/
theorem RingInv.room_of_cached (h : RingInv bits s a)
    (hne : ringNext bits s.tailCtl ≠ s.tailLocal) : Room bits s := by
  obtain ⟨c, hc, hloc, hlt⟩ := h.cached
  refine ⟨c, hc, hloc, ?_⟩
  rw [h.tail, ringNext_ringIdx, hloc] at hne
  have : s.pushed.length + 1 ≠ c + 2 ^ bits := by
    intro he
    rw [he, ringIdx_add_size] at hne
    exact hne rfl
  omega

/-- `n_tail != ep._local` against the head just loaded. -/
theorem RingInv.room_of_head (h : RingInv bits s a)
    (hne : ringNext bits s.tailCtl ≠ s.headCtl) :
    s.pushed.length + 1 < s.popped.length + 2 ^ bits := by
  rw [h.tail, ringNext_ringIdx, h.head] at hne
  have : s.pushed.length + 1 ≠ s.popped.length + 2 ^ bits := by
    intro he
    rw [he, ringIdx_add_size] at hne
    exact hne rfl
  have := h.order.2
  omega

/-- Publishing an item. -/
theorem RingInv.publish {v : V} {tail : Nat} (h : RingInv bits s a)
    (hp : s.party t = .pushStore v tail) :
    RingInv bits { (s.goto t .pushExchange) with
      tailCtl := ringNext bits tail, pushed := s.pushed ++ [v] } a := by
  have hok := h.parties t
  rw [hp] at hok
  obtain ⟨rfl, c, hc, hloc, hroom⟩ : tail = s.tailCtl ∧ Room bits s := hok
  have ht0 : t = 0 := h.producer (by rw [hp]; rfl)
  have g : Grows s { (s.goto t .pushExchange) with
      tailCtl := ringNext bits s.tailCtl, pushed := s.pushed ++ [v] } := ⟨rfl, by simp, id⟩
  refine ⟨h.head, ?_, ?_, ⟨c, hc, hloc, by simpa using hroom⟩, ?_, ?_, h.act.grows g rfl rfl,
    h.results, h.closing⟩
  · simp [h.tail, ringNext_ringIdx]
  · simp only [List.length_append, List.length_singleton]
    have := h.order.1
    exact ⟨Nat.le_succ_of_le this, Nat.lt_of_lt_of_le hroom (Nat.add_le_add_right hc _)⟩
  · intro i hi
    simpa [State.goto, ht0, hi] using h.single i hi
  · intro i
    by_cases hit : i = t
    · subst hit
      simp only [State.goto, Function.update_self, Party.Ok]
      intro _
      exact .inr (by simpa using Nat.lt_succ_of_le h.order.1)
    · simp only [State.goto, Function.update_of_ne hit]
      refine (h.parties i).grows g (fun hpush => ?_) (fun _ hne => .inl hne) (fun _ => rfl) id
      exact absurd (h.producer hpush) (ht0 ▸ hit)

/-- An activation whose callback is out keeps what it relies on when the callback refreshes its copy of
the tail. -/
theorem Act.Ok.refresh (h : a.Ok bits s) (g : Grows s s') (hh : s'.headCtl = s.headCtl)
    (hslot : a.slot ≠ none) (hseen : Seen bits s' s'.headLocal) : a.Ok bits s' := by
  cases a with
  | suspend k q o =>
      cases q with
      | tail j => exact ⟨hseen, h.2.trans hh.symm⟩
      | exchange j => exact ⟨hseen, g.seenNew h.2⟩
      | head | closed j => exact hseen
      | sync j => exact absurd rfl hslot
  | parked k => exact hseen
  | _ => exact absurd rfl hslot

/-- `storage->_head._local = storage->_tail._ctl` inside the callback. -/
theorem RingInv.refresh {f : Nat} {c : Bool} (h : RingInv bits s a) (o : Owned s a)
    (hp : s.party t = .callTail f c) :
    RingInv bits { (s.goto t (.callResume f c)) with headLocal := s.tailCtl } a := by
  have hok := h.parties t
  rw [hp] at hok
  have htaken : (s.party t).taken = some f := by rw [hp]; rfl
  have g : Grows s { (s.goto t (.callResume f c)) with headLocal := s.tailCtl } := ⟨rfl, le_rfl, id⟩
  have hslot : a.slot ≠ none := by rw [(o.holder t f htaken).1]; simp
  refine ⟨h.head, h.tail, h.order, h.cached, ?_, ?_, h.act.refresh g rfl hslot (g.seen h.seen_tail),
    h.results, h.closing⟩
  · intro i hi
    by_cases hit : i = t
    · subst hit; simp [State.goto, Party.pushing]
    · simpa [State.goto, hit] using h.single i hi
  · intro i
    by_cases hit : i = t
    · subst hit
      simp only [State.goto, Function.update_self, Party.Ok]
      exact g.seenNew (h.seenNew_tail hok)
    · simp only [State.goto, Function.update_of_ne hit]
      refine (h.parties i).grows g (fun _ => ⟨rfl, rfl, rfl⟩) (fun _ hne => .inl hne) (fun hres => ?_) id
      -- ONE party at most holds the callback, and that is `t`
      obtain ⟨j, hj⟩ := Option.ne_none_iff_exists'.mp hres
      exact absurd (o.unique i t (by simp [taken_of_resumes hj]) (by simp [htaken])) hit

/-- The exchange of `push` and `close`. -/
theorem RingInv.take {c : Bool} (h : RingInv bits s a) (ht : s.callback ≠ none → Avail s) :
    RingInv bits (takeCallback s t c) a := by
  unfold takeCallback
  split
  · rename_i f hf
    exact h.quiet rfl ⟨rfl, rfl, rfl, rfl, rfl⟩ (.inl rfl) (by simp) id id h.closing rfl (fun _ => rfl)
      (ht (by simp [hf]))
  · exact h.quiet rfl ⟨rfl, rfl, rfl, rfl, rfl⟩ (.inl rfl) id id id h.closing rfl (fun _ => rfl) trivial

theorem RingInv.partyStep (h : RingInv bits s a) (o : Owned s a) (hg : NotOutrun s (.party t))
    (hs : partyStep bits s t = some s') : ∃ a', s'.acts = [a'] ∧ RingInv bits s' a' := by
  have hok := h.parties t
  have hpush : ∀ q, (s.party t).pushing = true → t ≠ 0 → Party.pushing (V := V) q = false :=
    fun q hq ht => absurd (h.producer hq) ht
  cases hp : s.party t with
  | idle => simp [SPSCChannel.partyStep, hp] at hs
  | pushClosed v =>
      simp only [SPSCChannel.partyStep, hp, Option.some.injEq] at hs
      subst hs
      refine ⟨a, o.acts, h.quiet rfl ⟨rfl, rfl, rfl, rfl, rfl⟩ (.inl rfl) id id id h.closing rfl
        (hpush _ (by rw [hp]; rfl)) ?_⟩
      split <;> trivial
  | pushTail v =>
      simp only [SPSCChannel.partyStep, hp, Option.some.injEq] at hs
      subst hs
      refine ⟨a, o.acts, h.quiet rfl ⟨rfl, rfl, rfl, rfl, rfl⟩ (.inl rfl) id id id h.closing rfl
        (hpush _ (by rw [hp]; rfl)) ?_⟩
      split
      · rename_i hne
        exact ⟨rfl, h.room_of_cached hne⟩
      · rfl
  | pushHead v tail =>
      simp only [SPSCChannel.partyStep, hp, Option.some.injEq] at hs
      subst hs
      rw [hp] at hok
      obtain rfl : tail = s.tailCtl := hok
      refine ⟨a, o.acts, h.quiet rfl ⟨rfl, rfl, rfl, rfl, rfl⟩
        (.inr ⟨rfl, h.producer (by rw [hp]; rfl)⟩) id id id h.closing rfl (hpush _ (by rw [hp]; rfl)) ?_⟩
      split
      · rename_i hne
        exact ⟨rfl, _, le_rfl, h.head, h.room_of_head hne⟩
      · trivial
  | pushConstruct v tail =>
      simp only [SPSCChannel.partyStep, hp, Option.some.injEq] at hs
      subst hs
      rw [hp] at hok
      exact ⟨a, o.acts, h.quiet rfl ⟨rfl, rfl, rfl, rfl, rfl⟩ (.inl rfl) id id id h.closing rfl
        (hpush _ (by rw [hp]; rfl)) hok⟩
  | pushStore v tail =>
      simp only [SPSCChannel.partyStep, hp, Option.some.injEq] at hs
      subst hs
      exact ⟨a, o.acts, h.publish hp⟩
  | pushExchange =>
      simp only [SPSCChannel.partyStep, hp, Option.some.injEq] at hs
      subst hs
      rw [hp] at hok
      exact ⟨a, by rw [← o.acts]; unfold takeCallback; split <;> rfl, h.take hok⟩
  | closeStore =>
      simp only [SPSCChannel.partyStep, hp, Option.some.injEq] at hs
      subst hs
      rw [hp] at hok
      exact ⟨a, o.acts, h.quiet rfl ⟨rfl, rfl, rfl, rfl, rfl⟩ (.inl rfl) id (fun _ => rfl) id
        (fun _ => hok) rfl (fun _ => rfl) rfl⟩
  | closeExchange =>
      simp only [SPSCChannel.partyStep, hp, Option.some.injEq] at hs
      subst hs
      rw [hp] at hok
      exact ⟨a, by rw [← o.acts]; unfold takeCallback; split <;> rfl, h.take fun _ => .inl hok⟩
  | callTail f c =>
      simp only [SPSCChannel.partyStep, hp, Option.some.injEq] at hs
      subst hs
      exact ⟨a, o.acts, h.refresh o hp⟩
  | callResume f c =>
      simp only [SPSCChannel.partyStep, hp, Option.some.injEq] at hs
      subst hs
      obtain rfl := o.parked_of_resumes (by rw [hp]; rfl) hg
      rw [hp] at hok
      have h' : RingInv bits { (s.goto t .idle) with acts := resume f s.acts } (.parked f) :=
        h.quiet rfl ⟨rfl, rfl, rfl, rfl, rfl⟩ (.inl rfl) id id id h.closing rfl (fun _ => rfl) trivial
      exact ⟨.resumeHead f, by simp [o.acts, resume], { h' with act := hok }⟩

/-! ## §4 — steps of the consumer. -/

/-- The consumer moves and the indices stay; it may refresh its copy of the tail while no callback of
its own is out, and register while no `push` is stalled on an empty ring. -/
theorem RingInv.consumer (h : RingInv bits s a) (o : Owned s a) (hparty : s'.party = s.party)
    (hring : s'.headCtl = s.headCtl ∧ s'.tailCtl = s.tailCtl ∧ s'.pushed = s.pushed ∧
      s'.popped = s.popped ∧ s'.tailLocal = s.tailLocal)
    (hflags : s'.closed = s.closed ∧ s'.closeCalled = s.closeCalled)
    (hloc : s'.headLocal = s.headLocal ∨ a.slot = none)
    (hcb : s'.callback ≠ none → s.callback ≠ none ∨ ∀ t, (s.party t).stalled = true → Avail s)
    (hres : ∀ r ∈ s'.results, r.1 = none → r.2 = true) (hact : a'.Ok bits s') :
    RingInv bits s' a' := by
  obtain ⟨r1, r2, r3, r4, r5⟩ := hring
  have g : Grows s s' := ⟨by rw [r4], by rw [r3], by rw [hflags.1]; exact id⟩
  refine ⟨by rw [r1, r4]; exact h.head, by rw [r2, r3]; exact h.tail, by rw [r3, r4]; exact h.order,
    by rw [r3, r4, r5]; exact h.cached, by rw [hparty]; exact h.single, ?_, hact, hres,
    by rw [hflags.1, hflags.2]; exact h.closing⟩
  intro t
  rw [hparty]
  refine (h.parties t).grows g (fun _ => ⟨r2, by rw [r3], r5⟩) (fun hst hne => ?_) (fun hr => ?_)
    (by rw [hflags.2]; exact id)
  · rcases hcb hne with hc | hc
    · exact .inl hc
    · exact .inr (g.avail (hc t hst))
  · rcases hloc with hl | hl
    · exact hl
    · obtain ⟨j, hj⟩ := Option.ne_none_iff_exists'.mp hr
      have := (o.shared.free hl).2 t
      rw [taken_of_resumes hj] at this; cases this

/-- Giving the slot back: the head moves on, past an item. -/
theorem RingInv.advance {k head : Nat} {v : V} {r : Option V × Bool}
    (h : RingInv bits s (.resumeStore k head v)) (o : Owned s (.resumeStore k head v))
    (hr : r.1 ≠ none) :
    RingInv bits { s with
      headCtl := ringNext bits head, popped := s.popped ++ [v], results := r :: s.results,
      acts := [.body] } .body := by
  obtain ⟨hnew, rfl, hlt⟩ := h.act
  obtain ⟨hcb, hfree⟩ := o.shared.free rfl
  refine ⟨?_, h.tail, ?_, ?_, h.single, ?_, ?_, ?_, h.closing⟩
  · simp [h.head, ringNext_ringIdx]
  · have := h.order.2
    simp only [List.length_append, List.length_singleton]
    omega
  · obtain ⟨c, hc, hrest⟩ := h.cached
    exact ⟨c, by simp; omega, hrest⟩
  · intro t
    have hok := h.parties t
    have ht := hfree t
    show (s.party t).Ok bits _
    cases hp : s.party t with
    | pushConstruct v j | pushStore v j =>
        rw [hp] at hok
        obtain ⟨hj, c, hc, hrest⟩ := hok
        exact ⟨hj, c, by simp; omega, hrest⟩
    | pushExchange => exact fun hne => absurd hcb hne
    | callTail f c | callResume f c => rw [hp] at ht; cases ht
    | idle | pushClosed v | pushTail v => trivial
    | pushHead v j | closeStore | closeExchange => rw [hp] at hok; exact hok
  · rcases hnew with hc | ⟨l, hl, h1, h2⟩
    · exact .inl hc
    · exact .inr ⟨l, hl, by simp; omega, h2⟩
  · intro q hq
    rcases List.mem_cons.mp hq with rfl | hq
    · exact fun hn => absurd hn hr
    · exact h.results q hq

/-- A copy of the tail other than the head lies ahead of it. -/
theorem RingInv.seenNew_of_ne (h : RingInv bits s a) (hs : Seen bits s i) (hne : s.headCtl ≠ i) :
    SeenNew bits s i := by
  rcases hs with hc | ⟨l, rfl, h1, h2⟩
  · exact .inl hc
  · have : s.popped.length ≠ l := by rintro rfl; exact hne h.head
    exact .inr ⟨l, rfl, by omega, h2⟩

/-- A consumer that relies on a new item and finds the ring empty sits on a closed channel. -/
theorem RingInv.closed_of_empty (h : RingInv bits s a) (hs : SeenNew bits s i)
    (he : s.headCtl = s.tailCtl) : s.closed = true := by
  have := h.head_eq_tail_iff.mp he
  rcases hs with hc | ⟨l, -, h1, h2⟩
  · exact hc
  · omega

theorem RingInv.actStep {j : Nat} (h : RingInv bits s a) (o : Owned s a)
    (hg : NotStale s (.act j)) (hs : step bits s (.act j) = some s') :
    ∃ a', s'.acts = [a'] ∧ RingInv bits s' a' := by
  obtain ⟨rfl, r, hr, rfl⟩ := act_step o.acts hs
  have hok := h.act
  have ring : ∀ {a' : Act V} {s' : State V n}, s' = { s with
      headLocal := s'.headLocal, callback := s'.callback, awaits := s'.awaits, slots := s'.slots,
      acts := s'.acts } → (s'.headLocal = s.headLocal ∨ a.slot = none) →
      (s'.callback ≠ none → s.callback ≠ none ∨ ∀ t, (s.party t).stalled = true → Avail s) →
      a'.Ok bits s' → RingInv bits s' a' := by
    intro a' s' he hl hc ha
    rw [he] at ha ⊢
    exact h.consumer o rfl ⟨rfl, rfl, rfl, rfl, rfl⟩ ⟨rfl, rfl⟩ hl hc h.results ha
  cases a with
  | parked k => simp [SPSCChannel.actStep] at hr
  | body =>
      obtain rfl : _ = r := by simpa [SPSCChannel.actStep] using hr
      exact ⟨_, rfl, ring rfl (.inl rfl) .inl hok⟩
  | readyHead k =>
      obtain rfl : _ = r := by simpa [SPSCChannel.actStep] using hr
      refine ⟨_, rfl, ring rfl (.inl rfl) .inl ?_⟩
      split
      · exact ⟨hok, rfl⟩
      · rename_i hne
        exact h.seenNew_of_ne hok hne
  | readyTail k head =>
      obtain rfl : _ = r := by simpa [SPSCChannel.actStep] using hr
      refine ⟨_, rfl, ring rfl (.inr rfl) .inl ?_⟩
      split
      · exact h.seen_tail
      · rename_i hne
        exact h.seenNew_of_ne h.seen_tail (hok.2 ▸ hne)
  | readyClosed k =>
      obtain rfl : _ = r := by simpa [SPSCChannel.actStep] using hr
      refine ⟨_, rfl, ring rfl (.inl rfl) .inl ?_⟩
      split
      · rename_i hc
        exact .inl hc
      · exact hok
  | suspendStore k =>
      obtain rfl : _ = r := by simpa [SPSCChannel.actStep] using hr
      refine ⟨_, rfl, ring rfl (.inl rfl) (fun _ => .inr fun t ht => ?_) hok⟩
      -- the registration is not stale: the stalled `push` announces an item still in the ring
      rcases hg (.suspendStore k) (by simp [o.acts]) rfl ⟨t, ht⟩ with hne | hc
      · exact .inr (h.lt_of_ne hne)
      · exact .inl hc
  | suspend k p b =>
      obtain rfl : b = false := by
        cases b
        · rfl
        · exact absurd rfl (o.live k p)
      cases p with
      | head =>
          obtain rfl : _ = r := by simpa [SPSCChannel.actStep] using hr
          exact ⟨_, rfl, ring rfl (.inl rfl) .inl ⟨hok, rfl⟩⟩
      | tail head =>
          obtain rfl : _ = r := by simpa [SPSCChannel.actStep] using hr
          refine ⟨_, rfl, ring rfl (.inl rfl) .inl ?_⟩
          split
          · exact hok.1
          · rename_i hne
            exact ⟨hok.1, h.seenNew_of_ne h.seen_tail (hok.2 ▸ hne)⟩
      | closed tail =>
          obtain rfl : _ = r := by simpa [SPSCChannel.actStep, suspended] using hr
          by_cases hc : s.closed = true
          · exact ⟨.suspend k (.exchange tail) false, by simp [hc],
              ring rfl (.inl rfl) .inl ⟨hok, .inl hc⟩⟩
          · exact ⟨.parked k, by simp [hc], ring rfl (.inl rfl) .inl hok⟩
      | exchange tail =>
          obtain rfl : _ = r := by simpa [SPSCChannel.actStep, suspended] using hr
          by_cases hc : s.callback.isSome = true
          · exact ⟨.suspend k (.sync tail) false, by simp [hc], ring rfl (.inl rfl) (by simp) hok⟩
          · exact ⟨.parked k, by simp [hc], ring rfl (.inl rfl) (by simp) hok.1⟩
      | sync tail =>
          obtain rfl : _ = r := by simpa [SPSCChannel.actStep] using hr
          exact ⟨_, rfl, ring rfl (.inr rfl) .inl hok.2⟩
  | resumeHead k =>
      obtain rfl : _ = r := by simpa [SPSCChannel.actStep] using hr
      exact ⟨_, rfl, ring rfl (.inl rfl) .inl ⟨hok, rfl⟩⟩
  | resumeTail k head =>
      obtain rfl : _ = r := by simpa [SPSCChannel.actStep] using hr
      refine ⟨_, rfl, ring rfl (.inl rfl) .inl ?_⟩
      split
      · rename_i he
        exact h.closed_of_empty hok.1 (hok.2 ▸ he)
      · rename_i hne
        exact ⟨hok.1, hok.2, h.lt_of_ne (hok.2 ▸ hne)⟩
  | resumeMove k head =>
      simp only [SPSCChannel.actStep, Option.map_eq_some_iff] at hr
      obtain ⟨v, -, rfl⟩ := hr
      exact ⟨_, rfl, ring rfl (.inl rfl) .inl hok⟩
  | resumeStore k head v =>
      obtain rfl : _ = r := by simpa [SPSCChannel.actStep] using hr
      exact ⟨.body, rfl, h.advance o (by simp)⟩
  | resumeClosed k =>
      obtain rfl : _ = r := by simpa [SPSCChannel.actStep] using hr
      have hc : s.closed = true := hok
      refine ⟨_, rfl, h.consumer o rfl ⟨rfl, rfl, rfl, rfl, rfl⟩ ⟨rfl, rfl⟩ (.inl rfl) .inl ?_ (.inl hc)⟩
      intro q hq
      rcases List.mem_cons.mp hq with rfl | hq
      · exact fun _ => hc
      · exact h.results q hq

/-! ## §5 — whole runs. -/

/-- What every state of a safe run satisfies. -/
def Safe (bits : Nat) (s : State V n) : Prop := ∃ a, Owned s a ∧ RingInv bits s a

theorem Safe.intro (ho : ∃ a, Owned s a) (hr : ∃ a, s.acts = [a] ∧ RingInv bits s a) : Safe bits s := by
  obtain ⟨a, ho⟩ := ho
  obtain ⟨a', ha', hr⟩ := hr
  obtain rfl : a' = a := by simpa [ho.acts] using ha'.symm
  exact ⟨a', ho, hr⟩

theorem Safe.step {act : Action V n} (h : Safe bits s) (hg : ChannelSafe s act)
    (hs : step bits s act = some s') : Safe bits s' := by
  obtain ⟨a, o, h⟩ := h
  refine .intro (o.step hg.1 hs) ?_
  cases act with
  | callPush v =>
      simp only [SPSCChannel.step] at hs
      split at hs
      · injection hs with hs; subst hs
        exact ⟨a, o.acts, h.quiet rfl ⟨rfl, rfl, rfl, rfl, rfl⟩ (.inl rfl) id id id h.closing rfl
          (fun h0 => absurd rfl h0) trivial⟩
      · cases hs
  | callClose t =>
      simp only [SPSCChannel.step] at hs
      split at hs
      · injection hs with hs; subst hs
        exact ⟨a, o.acts, h.quiet rfl ⟨rfl, rfl, rfl, rfl, rfl⟩ (.inl rfl) id id (fun _ => rfl)
          (fun _ => rfl) rfl (fun _ => rfl) rfl⟩
      · cases hs
  | party t => exact h.partyStep o hg.1 hs
  | act j => exact h.actStep o hg.2 hs

theorem safe_init : Safe bits (init V n) := by
  refine ⟨.body, owned_init, ?_⟩
  exact {
    head := (Nat.zero_mod _).symm
    tail := (Nat.zero_mod _).symm
    order := ⟨le_rfl, by simp [init]⟩
    cached := ⟨0, le_rfl, (Nat.zero_mod _).symm, by simp [init]⟩
    single := fun _ _ => rfl
    parties := fun _ => trivial
    act := .inr ⟨0, (Nat.zero_mod _).symm, le_rfl, le_rfl⟩
    results := by simp [init]
    closing := by simp [init] }

theorem Safe.noSpurious (h : Safe bits s) : NoSpurious s := by
  obtain ⟨a, o, h⟩ := h
  refine ⟨h.results, h.closing, ?_⟩
  intro k hk
  obtain rfl : Act.resumeHead k = a := by simpa [o.acts] using hk
  have hnew : SeenNew bits s s.headLocal := h.act
  by_cases he : s.headCtl = s.tailCtl
  · exact .inr (h.closed_of_empty hnew he)
  · exact .inl he

/-- **No wake-up is spurious** in a run that outruns no registration and makes no stale one. -/
theorem no_spurious_wakeup_of_safe_run (bits n : Nat) (s : State V n)
    (h : Run (step bits) ChannelSafe (init V n) s) : NoSpurious s :=
  (h.invariant (fun _ _ _ hinv hg hs => hinv.step hg hs) safe_init : Safe bits s).noSpurious

/-- One item pushed under a parked consumer, which it wakes, and then a close. -/
def pushThenClose (p c : Fin (n + 1)) : List (Action Nat n) :=
  List.flatten [List.replicate 8 (.act 0), [.callPush 7], List.replicate 7 (.party p), List.replicate 12 (.act 0),
    [.callClose c], List.replicate 4 (.party c), List.replicate 3 (.act 0)]

theorem no_spurious_wakeup_of_pushThenClose :
    ∃ s, Run (step 1) ChannelSafe (init Nat 1) s ∧ s.results = [(none, true), (some 7, false)] ∧
      NoSpurious s := by
  obtain ⟨s, hs, h⟩ : ∃ s, exec (guarded (step 1) ChannelSafe) (init Nat 1) (pushThenClose 0 1) = some s ∧
      s.results = [(none, true), (some 7, false)] := ⟨_, rfl, by decide⟩
  have hrun := run_of_exec_guarded hs
  exact ⟨s, hrun, h, no_spurious_wakeup_of_safe_run 1 1 s hrun⟩

/-- A `push` stalls before its exchange; the consumer takes the item, awaits again and parks; then the
exchange takes the NEW callback and resumes the consumer on an empty open ring. -/
def stalledPush (p : Fin (n + 1)) : List (Action Nat n) :=
  List.flatten [[.callPush 7], List.replicate 4 (.party p), List.replicate 15 (.act 0), List.replicate 3 (.party p),
    List.replicate 3 (.act 0)]

theorem wakeup_is_spurious :
    ¬ ∀ (bits n : Nat) (s : State Nat n), Reachable (step bits) (init Nat n) s → NoSpurious s := by
  intro h
  obtain ⟨s, hs, hres⟩ : ∃ s, exec (step 1) (init Nat 0) (stalledPush 0) = some s ∧
      (none, false) ∈ s.results := ⟨_, rfl, by decide⟩
  have := (h 1 0 s (reachable_of_exec hs)).1 _ hres rfl
  cases this

end NetCpp.Coro.SPSCChannel
