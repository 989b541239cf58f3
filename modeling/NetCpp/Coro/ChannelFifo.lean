/-
# NetCpp.Coro.ChannelFifo — `SPSCChannel` delivers what was pushed, in order.

No side condition on the schedule: the right to run the consumer is a TOKEN.  An activation that runs has it;
`suspendStore` puts it into the callback slot, an exchange takes it out, a resumption makes it a running activation
again.  There is always exactly one, so at most one activation is inside `await_resume`, even where a resumption has
outrun an `await_suspend` call (`tokens_eq_one`).

`pushed` lists the items whose `push` has stored the tail: from there on the call can only return `true`.
-/
import NetCpp.Coro.ChannelRing
import NetCpp.Wheel.Bit

namespace NetCpp.Coro.SPSCChannel

open NetCpp.Lib NetCpp.Wheel

variable {V : Type} {bits n : Nat}

/-! ## §1 — the token. -/

/-- The activation runs: it is not inside a registration that somebody else may take. -/
def Act.running : Act V → Bool
  | .suspend _ (.sync _) _ => true
  | .suspend _ _ _ | .parked _ => false
  | _ => true

/-- The right to run the consumer, wherever it is. -/
def tokens (s : State V n) : Nat :=
  s.acts.countP Act.running + s.callback.toList.length + threadCount (fun p => p.taken.isSome) s.party

variable {s s' : State V n} {a a' : Act V} {t : Fin (n + 1)} {p : Party V} {i f k : Nat} {as : List (Act V)}

/-- A resumption makes one activation more run. -/
theorem countP_resume (f : Nat) (as : List (Act V)) :
    (resume f as).countP Act.running = as.countP Act.running + 1 := by
  fun_induction resume f as with
  | case1 => rfl
  | case2 as => simp [List.countP_cons, Act.running]
  | case3 j as hj ih => simp [Act.running, ih]
  | case4 q as => cases q <;> simp [List.countP_cons, Act.running]
  | case5 j q as hj ih => simp [List.countP_cons, ih]; omega
  | case6 b as _ _ ih => simp [List.countP_cons, ih]; omega

/-- What a resumption makes of the list: it adds an activation in `await_resume`, and marks a call it has outrun. -/
theorem mem_resume (h : a ∈ resume f as) : a ∈ as ∨ a = .resumeHead f ∨ ∃ q, a = .suspend f q true := by
  fun_induction resume f as with
  | case1 => exact .inr (.inl (by simpa using h))
  | case2 as => grind
  | case3 j as hj ih => grind
  | case4 q as => grind
  | case5 j q as hj ih => grind
  | case6 b as _ _ ih => grind

/-! ## §2 — the invariant. -/

/-- Where a party stands in the ring. -/
def Party.Placed (bits : Nat) (s : State V n) : Party V → Prop
  | .pushHead _ i => i = s.tailCtl
  | .pushConstruct _ i | .pushStore _ i => i = s.tailCtl ∧ Room bits s
  | _ => True

/-- Where an activation stands in the ring. -/
def Act.Placed (s : State V n) : Act V → Prop
  | .resumeTail _ h => h = s.headCtl
  | .resumeMove _ h => h = s.headCtl ∧ s.popped.length < s.pushed.length
  | .resumeStore _ h v => h = s.headCtl ∧ s.pushed[s.popped.length]? = some v
  | _ => True

/-- The item built and not yet published. -/
def Party.built : Party V → Option V
  | .pushStore v _ => some v
  | _ => none

/-- The activation has moved its item out and not yet given the slot back. -/
def Act.emptied : Act V → Bool
  | .resumeStore _ _ _ => true
  | _ => false

/-- What the slot of the absolute counter `j` holds. -/
def content (s : State V n) (j : Nat) : Option V :=
  match s.pushed[j]? with
  | some v => if s.acts.any Act.emptied ∧ j = s.popped.length then none else some v
  | none => if j = s.pushed.length then (s.party ⟨0, n.succ_pos⟩).built else none

structure Fifo (bits : Nat) (s : State V n) : Prop where
  head : s.headCtl = ringIdx bits s.popped.length
  tail : s.tailCtl = ringIdx bits s.pushed.length
  order : s.popped.length ≤ s.pushed.length ∧ s.pushed.length < s.popped.length + 2 ^ bits
  cached : ∃ h ≤ s.popped.length, s.tailLocal = ringIdx bits h ∧ s.pushed.length < h + 2 ^ bits
  fifo : s.popped <+: s.pushed
  returned : s.results.reverse.filterMap (·.1) = s.popped
  single : ∀ t, t ≠ 0 → (s.party t).pushing = false
  parties : ∀ t, (s.party t).Placed bits s
  acts : ∀ a ∈ s.acts, a.Placed s
  token : tokens s = 1
  slots : RingShows bits s.slots s.popped.length (content s)

theorem Party.placed_of_not_pushing (h : p.pushing = false) : p.Placed bits s := by
  cases p <;> simp_all [Party.pushing, Party.Placed]

theorem Act.placed_of_not_running (h : a.running = false) : a.Placed s := by
  cases a <;> simp_all [Act.running, Act.Placed]

theorem Party.Placed.congr (h : p.Placed bits s) (ht : s'.tailCtl = s.tailCtl) (hl : s'.tailLocal = s.tailLocal)
    (hpush : s'.pushed = s.pushed) (hpop : s.popped.length ≤ s'.popped.length) : p.Placed bits s' := by
  cases p with
  | pushHead v i => exact Eq.trans h ht.symm
  | pushConstruct v i | pushStore v i =>
      obtain ⟨hi, c, hc, hloc, hlt⟩ := h
      exact ⟨hi.trans ht.symm, c, hc.trans hpop, hl.trans hloc, by rw [hpush]; exact hlt⟩
  | _ => trivial

theorem Act.Placed.congr (h : a.Placed s) (hh : s'.headCtl = s.headCtl) (hpop : s'.popped = s.popped)
    (hpush : s.pushed <+: s'.pushed) : a.Placed s' := by
  cases a with
  | resumeTail k i => exact Eq.trans h hh.symm
  | resumeMove k i =>
      refine ⟨h.1.trans hh.symm, ?_⟩
      rw [hpop]
      exact Nat.lt_of_lt_of_le h.2 hpush.length_le
  | resumeStore k i v =>
      refine ⟨h.1.trans hh.symm, ?_⟩
      obtain ⟨u, hu⟩ := hpush
      rw [hpop, ← hu, List.getElem?_append_left (List.getElem?_eq_some_iff.mp h.2).1]
      exact h.2
  | _ => trivial

/-- The ring is left alone. -/
structure SameRing (s s' : State V n) : Prop where
  headCtl : s'.headCtl = s.headCtl
  tailCtl : s'.tailCtl = s.tailCtl
  pushed : s'.pushed = s.pushed
  popped : s'.popped = s.popped
  slots : s'.slots = s.slots

/-- **A step that leaves the ring alone** keeps the invariant when it keeps the token. -/
theorem Fifo.frame (h : Fifo bits s) (hr : SameRing s s')
    (hloc : s'.tailLocal = s.tailLocal ∨ s'.tailLocal = s.headCtl)
    (hret : s'.results.reverse.filterMap (·.1) = s.popped) (hsingle : ∀ t, t ≠ 0 → (s'.party t).pushing = false)
    (hparties : ∀ t, (s'.party t).Placed bits s') (hbuilt : (s'.party 0).built = (s.party 0).built)
    (hacts : ∀ a ∈ s'.acts, a.Placed s') (hemptied : s'.acts.any Act.emptied = s.acts.any Act.emptied)
    (htoken : tokens s' = 1) : Fifo bits s' where
  head := by rw [hr.headCtl, hr.popped]; exact h.head
  tail := by rw [hr.tailCtl, hr.pushed]; exact h.tail
  order := by rw [hr.popped, hr.pushed]; exact h.order
  cached := by
    rw [hr.popped, hr.pushed]
    rcases hloc with hl | hl
    · rw [hl]; exact h.cached
    · exact ⟨_, Nat.le_refl _, hl.trans h.head, h.order.2⟩
  fifo := by rw [hr.popped, hr.pushed]; exact h.fifo
  returned := hret.trans hr.popped.symm
  single := hsingle
  parties := hparties
  acts := hacts
  token := htoken
  slots := by
    rw [hr.slots, hr.popped]
    apply h.slots.congr
    intro j _ _
    simp only [content, Fin.zero_eta, hr.pushed, hr.popped, hemptied, hbuilt]

/-! ## §3 — steps of the parties. -/

theorem Fifo.producer (h : Fifo bits s) (ht : (s.party t).pushing = true) : t = 0 := by
  by_contra hne
  rw [h.single t hne] at ht; cases ht

/-- A party's step keeps the number of tokens when it keeps what it takes and gives. -/
theorem tokens_of_party (h : tokens s = 1) (hs : s'.party = Function.update s.party t p)
    (hbal : s'.acts.countP Act.running + s'.callback.toList.length + (p.taken.isSome).toNat =
      s.acts.countP Act.running + s.callback.toList.length + ((s.party t).taken.isSome).toNat) : tokens s' = 1 := by
  have hcount : threadCount (fun p => p.taken.isSome) s'.party + ((s.party t).taken.isSome).toNat =
      threadCount (fun p => p.taken.isSome) s.party + (p.taken.isSome).toNat := by
    rw [hs]; exact threadCount_update _ _ _ _
  unfold tokens at *
  omega

/-- A party moves and leaves the ring alone; it may refresh its copy of the head. -/
theorem Fifo.partyQuiet (h : Fifo bits s) (hs : s'.party = Function.update s.party t p) (hr : SameRing s s')
    (hloc : s'.tailLocal = s.tailLocal ∨ (s'.tailLocal = s.headCtl ∧ t = 0)) (hres : s'.results = s.results)
    (hacts : s'.acts = s.acts) (hpush : t ≠ 0 → p.pushing = false) (hold : (s.party t).built = none)
    (hnew : p.built = none) (hp : p.Placed bits s')
    (htoken : s'.callback.toList.length + (p.taken.isSome).toNat =
      s.callback.toList.length + ((s.party t).taken.isSome).toNat) : Fifo bits s' := by
  have hparty : ∀ u, u ≠ t → s'.party u = s.party u := fun u hu => by rw [hs, Function.update_of_ne hu]
  have hhere : s'.party t = p := by rw [hs, Function.update_self]
  refine h.frame hr (hloc.imp id And.left) (by rw [hres]; exact h.returned) ?_ ?_ ?_ ?_ (by rw [hacts]) ?_
  · intro u hu
    by_cases hut : u = t
    · subst hut; rw [hhere]; exact hpush hu
    · rw [hparty u hut]; exact h.single u hu
  · intro u
    by_cases hut : u = t
    · subst hut; rw [hhere]; exact hp
    · rw [hparty u hut]
      rcases hloc with hl | ⟨-, rfl⟩
      · exact (h.parties u).congr hr.tailCtl hl hr.pushed (by rw [hr.popped])
      · exact Party.placed_of_not_pushing (h.single u hut)
  · by_cases h0 : 0 = t
    · subst h0; rw [hhere, hnew, hold]
    · rw [hparty 0 h0]
  · intro a ha
    rw [hacts] at ha
    exact (h.acts a ha).congr hr.headCtl hr.popped (by rw [hr.pushed])
  · apply tokens_of_party h.token hs
    rw [hacts]
    omega

/-- `n_tail != ep._local` against a copy of the head. -/
theorem Fifo.room (h : Fifo bits s) {l c : Nat} (hc : c ≤ s.popped.length) (hl : l = ringIdx bits c)
    (hlt : s.pushed.length < c + 2 ^ bits) (hne : ringNext bits s.tailCtl ≠ l) :
    ∃ c ≤ s.popped.length, l = ringIdx bits c ∧ s.pushed.length + 1 < c + 2 ^ bits := by
  refine ⟨c, hc, hl, ?_⟩
  rw [h.tail, ringNext_ringIdx] at hne
  have : s.pushed.length + 1 ≠ c + 2 ^ bits := by
    intro he
    rw [he, ringIdx_add_size, ← hl] at hne
    exact hne rfl
  omega

/-- The construction. -/
theorem Fifo.construct (h : Fifo bits s) {v : V} (hp : s.party t = .pushConstruct v i) :
    Fifo bits { (s.goto t (.pushStore v i)) with slots := Function.update s.slots i (some v) } := by
  obtain rfl : t = 0 := h.producer (by rw [hp]; rfl)
  have hok := h.parties 0
  rw [hp] at hok
  obtain ⟨rfl, hroom⟩ : i = s.tailCtl ∧ Room bits s := hok
  obtain ⟨c, hc, hloc, hlt⟩ := hroom
  have hothers : ∀ u, u ≠ 0 → (s.goto 0 (.pushStore v s.tailCtl)).party u = s.party u :=
    fun u hu => Function.update_of_ne hu _ _
  refine ⟨h.head, h.tail, h.order, h.cached, h.fifo, h.returned, ?_, ?_, ?_, ?_, ?_⟩
  · intro u hu
    exact (congrArg Party.pushing (hothers u hu)).trans (h.single u hu)
  · intro u
    by_cases hu : u = 0
    · subst hu
      show (Function.update s.party 0 (.pushStore v s.tailCtl) 0).Placed bits _
      rw [Function.update_self]
      exact ⟨rfl, c, hc, hloc, hlt⟩
    · apply Party.placed_of_not_pushing
      exact (congrArg Party.pushing (hothers u hu)).trans (h.single u hu)
  · intro a ha
    exact (h.acts a ha).congr rfl rfl (List.prefix_refl _)
  · apply tokens_of_party h.token rfl
    rw [hp]
    rfl
  · have horder := h.order
    show RingShows bits (Function.update s.slots s.tailCtl (some v)) s.popped.length _
    rw [h.tail]
    apply (h.slots.update horder.1 horder.2 (some v)).congr
    intro j _ _
    by_cases hj : j = s.pushed.length
    · subst hj
      simp [content, State.goto, Party.built]
    · simp [content, hj, State.goto]

/-- The store of the tail. -/
theorem Fifo.publish (h : Fifo bits s) {v : V} (hp : s.party t = .pushStore v i) :
    Fifo bits { (s.goto t .pushExchange) with tailCtl := ringNext bits i, pushed := s.pushed ++ [v] } := by
  obtain rfl : t = 0 := h.producer (by rw [hp]; rfl)
  have hok := h.parties 0
  rw [hp] at hok
  obtain ⟨rfl, c, hc, hloc, hlt⟩ : i = s.tailCtl ∧ Room bits s := hok
  have horder := h.order
  have hlen : (s.pushed ++ [v]).length = s.pushed.length + 1 := by simp
  have hothers : ∀ u, u ≠ 0 → (s.goto 0 .pushExchange).party u = s.party u :=
    fun u hu => Function.update_of_ne hu _ _
  have hsingle : ∀ u, u ≠ 0 → ((s.goto 0 .pushExchange).party u).pushing = false :=
    fun u hu => (congrArg Party.pushing (hothers u hu)).trans (h.single u hu)
  have hnew : s.popped.length ≤ s.pushed.length + 1 ∧ s.pushed.length + 1 < s.popped.length + 2 ^ bits := by omega
  refine ⟨h.head, ?_, by rw [hlen]; exact hnew, ⟨c, hc, hloc, by rw [hlen]; exact hlt⟩, ?_, h.returned, hsingle,
    ?_, ?_, ?_, ?_⟩
  · show ringNext bits s.tailCtl = _
    rw [hlen, h.tail, ringNext_ringIdx]
  · exact h.fifo.trans (List.prefix_append _ _)
  · intro u
    by_cases hu : u = 0
    · subst hu
      show (Function.update s.party 0 .pushExchange 0).Placed bits _
      rw [Function.update_self]
      trivial
    · exact Party.placed_of_not_pushing (hsingle u hu)
  · intro a ha
    exact (h.acts a ha).congr rfl rfl (List.prefix_append _ _)
  · apply tokens_of_party h.token rfl
    rw [hp]
    rfl
  · apply h.slots.congr
    intro j hj _
    -- the new item stands where the producer had built it
    rcases Nat.lt_trichotomy j s.pushed.length with hlt' | rfl | hgt
    · simp only [content, List.getElem?_append_left hlt', List.getElem?_eq_getElem hlt', State.goto]
      rfl
    · have hn : s.pushed[s.pushed.length]? = none := List.getElem?_eq_none (Nat.le_refl _)
      have hfull : ¬ (s.acts.any Act.emptied = true ∧ s.pushed.length = s.popped.length) := by
        rintro ⟨he, heq⟩
        obtain ⟨a, ha, hempt⟩ := List.any_eq_true.mp he
        have hpl := h.acts a ha
        cases a <;> simp_all [Act.emptied, Act.Placed]
      simp only [content, Fin.zero_eta, hn, if_true, hp, Party.built, List.getElem?_concat_length, State.goto]
      exact (if_neg hfull).symm
    · have h1 : s.pushed[j]? = none := List.getElem?_eq_none (Nat.le_of_lt hgt)
      have h2 : (s.pushed ++ [v])[j]? = none := List.getElem?_eq_none (by rw [hlen]; omega)
      simp only [content, Fin.zero_eta, h1, h2, hlen, if_neg (show j ≠ s.pushed.length by omega), State.goto, Function.update_self,
        Party.built]
      exact (ite_self _).symm

/-- The exchange of the callback, and the resumption. -/
theorem Fifo.take (h : Fifo bits s) (c : Bool) (hp : (s.party t).taken = none) (hb : (s.party t).built = none) :
    Fifo bits (takeCallback s t c) := by
  unfold takeCallback
  split
  · rename_i f hf
    refine h.partyQuiet rfl ⟨rfl, rfl, rfl, rfl, rfl⟩ (.inl rfl) rfl rfl (fun _ => rfl) hb rfl trivial ?_
    rw [hp, hf]
    rfl
  · exact h.partyQuiet rfl ⟨rfl, rfl, rfl, rfl, rfl⟩ (.inl rfl) rfl rfl (fun _ => rfl) hb rfl trivial (by rw [hp]; rfl)

theorem any_emptied_resume (f : Nat) (as : List (Act V)) :
    (resume f as).any Act.emptied = as.any Act.emptied := by
  fun_induction resume f as with
  | case1 => rfl
  | case2 as => simp [Act.emptied]
  | case3 j as hj ih => simp [Act.emptied, ih]
  | case4 q as => simp [Act.emptied]
  | case5 j q as hj ih => simp [Act.emptied, ih]
  | case6 b as _ _ ih => simp [ih]

theorem Fifo.resumed (h : Fifo bits s) {c : Bool} (hp : s.party t = .callResume f c) :
    Fifo bits { (s.goto t .idle) with acts := resume f s.acts } := by
  have hothers : ∀ u, u ≠ t → (s.goto t .idle).party u = s.party u := fun u hu => Function.update_of_ne hu _ _
  have hhere : (s.goto t .idle).party t = .idle := Function.update_self _ _ _
  refine h.frame ⟨rfl, rfl, rfl, rfl, rfl⟩ (.inl rfl) h.returned ?_ ?_ ?_ ?_ (any_emptied_resume f s.acts) ?_
  · intro u hu
    by_cases hut : u = t
    · subst hut; exact congrArg Party.pushing hhere
    · exact (congrArg Party.pushing (hothers u hut)).trans (h.single u hu)
  · intro u
    show ((s.goto t .idle).party u).Placed bits _
    by_cases hut : u = t
    · subst hut; rw [hhere]; trivial
    · rw [hothers u hut]
      exact (h.parties u).congr rfl rfl rfl (Nat.le_refl _)
  · show ((s.goto t .idle).party 0).built = _
    by_cases h0 : 0 = t
    · subst h0; rw [hhere, hp]; rfl
    · rw [hothers 0 h0]
  · intro a ha
    rcases mem_resume ha with ha | rfl | ⟨q, rfl⟩
    · exact (h.acts a ha).congr rfl rfl (List.prefix_refl _)
    · trivial
    · trivial
  · apply tokens_of_party h.token rfl
    rw [hp]
    show (resume f s.acts).countP Act.running + _ + 0 = _ + _ + 1
    rw [countP_resume]
    show _ + 1 + s.callback.toList.length + 0 = _
    omega

theorem Fifo.partyStep (h : Fifo bits s) (hs : partyStep bits s t = some s') : Fifo bits s' := by
  cases hp : s.party t with
  | idle => simp [SPSCChannel.partyStep, hp] at hs
  | pushClosed v =>
      obtain rfl : t = 0 := h.producer (by rw [hp]; rfl)
      simp only [SPSCChannel.partyStep, hp, Option.some.injEq] at hs
      subst hs
      refine h.partyQuiet rfl ⟨rfl, rfl, rfl, rfl, rfl⟩ (.inl rfl) rfl rfl (fun h0 => absurd rfl h0) (by rw [hp]; rfl)
        ?_ ?_ ?_
      · split <;> rfl
      · split <;> trivial
      · rw [hp]; split <;> rfl
  | pushTail v =>
      obtain rfl : t = 0 := h.producer (by rw [hp]; rfl)
      simp only [SPSCChannel.partyStep, hp, Option.some.injEq] at hs
      subst hs
      refine h.partyQuiet rfl ⟨rfl, rfl, rfl, rfl, rfl⟩ (.inl rfl) rfl rfl (fun h0 => absurd rfl h0) (by rw [hp]; rfl)
        ?_ ?_ ?_
      · split <;> rfl
      · split
        · rename_i hne
          -- the copy of the head is old, and the ring has only emptied since
          obtain ⟨c, hc, hloc, hlt⟩ := h.cached
          exact ⟨rfl, h.room hc hloc hlt hne⟩
        · rfl
      · rw [hp]; split <;> rfl
  | pushHead v i =>
      obtain rfl : t = 0 := h.producer (by rw [hp]; rfl)
      have hok := h.parties 0
      rw [hp] at hok
      obtain rfl : i = s.tailCtl := hok
      simp only [SPSCChannel.partyStep, hp, Option.some.injEq] at hs
      subst hs
      refine h.partyQuiet rfl ⟨rfl, rfl, rfl, rfl, rfl⟩ (.inr ⟨rfl, rfl⟩) rfl rfl (fun h0 => absurd rfl h0)
        (by rw [hp]; rfl) ?_ ?_ ?_
      · split <;> rfl
      · split
        · rename_i hne
          exact ⟨rfl, h.room (Nat.le_refl _) h.head h.order.2 hne⟩
        · trivial
      · rw [hp]; split <;> rfl
  | pushConstruct v i =>
      simp only [SPSCChannel.partyStep, hp, Option.some.injEq] at hs
      subst hs
      exact h.construct hp
  | pushStore v i =>
      simp only [SPSCChannel.partyStep, hp, Option.some.injEq] at hs
      subst hs
      exact h.publish hp
  | pushExchange | closeExchange =>
      simp only [SPSCChannel.partyStep, hp, Option.some.injEq] at hs
      subst hs
      exact h.take _ (by rw [hp]; rfl) (by rw [hp]; rfl)
  | closeStore =>
      simp only [SPSCChannel.partyStep, hp, Option.some.injEq] at hs
      subst hs
      exact h.partyQuiet rfl ⟨rfl, rfl, rfl, rfl, rfl⟩ (.inl rfl) rfl rfl (fun _ => rfl) (by rw [hp]; rfl) rfl trivial
        (by rw [hp]; rfl)
  | callTail f c =>
      simp only [SPSCChannel.partyStep, hp, Option.some.injEq] at hs
      subst hs
      exact h.partyQuiet rfl ⟨rfl, rfl, rfl, rfl, rfl⟩ (.inl rfl) rfl rfl (fun _ => rfl) (by rw [hp]; rfl) rfl trivial
        (by rw [hp]; rfl)
  | callResume f c =>
      simp only [SPSCChannel.partyStep, hp, Option.some.injEq] at hs
      subst hs
      exact h.resumed hp

/-! ## §4 — steps of the consumer. -/

/-- The activation that steps, and those before and behind it. -/
theorem act_split (hs : step bits s (.act i) = some s') :
    ∃ a pre post r, s.acts[i]? = some a ∧ s.acts = pre ++ a :: post ∧ actStep bits s a = some r ∧
      s' = { r.1 with acts := pre ++ r.2 ++ post } := by
  obtain ⟨a, r, ha, hr, rfl⟩ := act_parts hs
  obtain ⟨hi, rfl⟩ := List.getElem?_eq_some_iff.mp ha
  refine ⟨s.acts[i], s.acts.take i, s.acts.drop (i + 1), r, ha, ?_, hr, rfl⟩
  rw [List.getElem_cons_drop, List.take_append_drop]

/-- **While an activation runs, nobody else has the token.** -/
theorem Fifo.alone (h : Fifo bits s) {pre post : List (Act V)} (hs : s.acts = pre ++ a :: post)
    (ha : a.running = true) :
    s.callback = none ∧ (∀ t, (s.party t).taken = none) ∧ ∀ b, b ∈ pre ∨ b ∈ post → b.running = false := by
  have htok := h.token
  unfold tokens at htok
  rw [hs, List.countP_append, List.countP_cons_of_pos ha] at htok
  refine ⟨?_, ?_, ?_⟩
  · cases hc : s.callback with
    | none => rfl
    | some f => rw [hc] at htok; simp at htok; omega
  · intro t
    have h0 : threadCount (fun p => p.taken.isSome) s.party = 0 := by omega
    unfold threadCount at h0
    rw [Finset.card_eq_zero, Finset.filter_eq_empty_iff] at h0
    simpa using h0 (Finset.mem_univ t)
  · intro b hb
    have hpre : pre.countP Act.running = 0 := by omega
    have hpost : post.countP Act.running = 0 := by omega
    rw [List.countP_eq_zero] at hpre hpost
    rcases hb with hb | hb
    · simpa using hpre b hb
    · simpa using hpost b hb

/-- An activation moves and leaves the ring alone. -/
theorem Fifo.actQuiet (h : Fifo bits s) {pre post : List (Act V)} (as : List (Act V)) (hs : s.acts = pre ++ a :: post)
    (hr : SameRing s s') (hloc : s'.tailLocal = s.tailLocal) (hparty : s'.party = s.party)
    (hret : s'.results.reverse.filterMap (·.1) = s.popped) (hacts : s'.acts = pre ++ as ++ post)
    (hplaced : ∀ b ∈ as, b.Placed s') (hold : a.emptied = false) (hnew : as.any Act.emptied = false)
    (htoken : as.countP Act.running + s'.callback.toList.length = (a.running).toNat + s.callback.toList.length) :
    Fifo bits s' := by
  refine h.frame hr (.inl hloc) hret (by rw [hparty]; exact h.single) ?_ (by rw [hparty]) ?_ ?_ ?_
  · intro t
    rw [hparty]
    exact (h.parties t).congr hr.tailCtl hloc hr.pushed (by rw [hr.popped])
  · intro b hb
    rw [hacts] at hb
    have hkeep : ∀ b, b ∈ pre ∨ b ∈ post → b.Placed s' := by
      intro b hb
      apply (h.acts b _).congr hr.headCtl hr.popped (by rw [hr.pushed])
      rw [hs]
      rcases hb with hb | hb <;> simp [hb]
    rcases List.mem_append.mp hb with hb | hb
    · rcases List.mem_append.mp hb with hb | hb
      · exact hkeep b (.inl hb)
      · exact hplaced b hb
    · exact hkeep b (.inr hb)
  · rw [hacts, hs]
    simp [hold, hnew]
  · have htok := h.token
    unfold tokens at *
    rw [hacts, hparty]
    rw [hs] at htok
    simp only [List.countP_append, List.countP_cons] at *
    have hcond : (if a.running = true then 1 else 0) = (a.running).toNat := by
      cases a.running <;> rfl
    omega

/-- The other activations are inside registrations: they have no place in the ring and hold no item. -/
theorem Fifo.others (h : Fifo bits s) {pre post : List (Act V)} (hs : s.acts = pre ++ a :: post)
    (ha : a.running = true) (b : Act V) (hb : b ∈ pre ++ post) : b.running = false ∧ b.emptied = false := by
  have hrun := (h.alone hs ha).2.2 b (List.mem_append.mp hb)
  refine ⟨hrun, ?_⟩
  cases b <;> simp_all [Act.running, Act.emptied]

/-- The slot at the head holds the oldest item until it is moved out. -/
theorem Fifo.item_at (h : Fifo bits s) (ha : Act.resumeMove k i ∈ s.acts) :
    ∃ v, s.pushed[s.popped.length]? = some v ∧ s.slots i = some v := by
  obtain ⟨rfl, hlt⟩ := h.acts _ ha
  have hget := List.getElem?_eq_getElem hlt
  obtain ⟨pre, post, hs⟩ := List.append_of_mem ha
  have hno : ¬ s.acts.any Act.emptied = true := by
    rw [List.any_eq_true]
    rintro ⟨b, hb, he⟩
    rw [hs, List.mem_append, List.mem_cons] at hb
    rcases hb with hb | rfl | hb
    · rw [(h.others hs rfl b (List.mem_append.mpr (.inl hb))).2] at he; cases he
    · cases he
    · rw [(h.others hs rfl b (List.mem_append.mpr (.inr hb))).2] at he; cases he
  refine ⟨s.pushed[s.popped.length], hget, ?_⟩
  rw [h.head, h.slots _ (Nat.le_refl _) (Nat.lt_add_of_pos_right (Nat.two_pow_pos bits))]
  simp only [content, hget]
  rw [if_neg fun hh => hno hh.1]

/-- The move-out. -/
theorem Fifo.moveOut (h : Fifo bits s) {pre post : List (Act V)} {v : V} (hs : s.acts = pre ++ .resumeMove k i :: post)
    (hv : s.slots i = some v) :
    Fifo bits { s with slots := Function.update s.slots i none, acts := pre ++ [.resumeStore k i v] ++ post } := by
  obtain ⟨w, hw, hslot⟩ := h.item_at (show Act.resumeMove k i ∈ s.acts by rw [hs]; simp)
  obtain rfl : v = w := by simpa using hv.symm.trans hslot
  obtain ⟨rfl, hlt⟩ := h.acts (.resumeMove k i) (by rw [hs]; simp)
  have hothers := h.others hs rfl
  refine ⟨h.head, h.tail, h.order, h.cached, h.fifo, h.returned, h.single, ?_, ?_, ?_, ?_⟩
  · intro t
    exact (h.parties t).congr rfl rfl rfl (Nat.le_refl _)
  · intro b hb
    rw [List.append_assoc, List.mem_append, List.mem_append] at hb
    rcases hb with hb | hb | hb
    · exact Act.placed_of_not_running (hothers b (List.mem_append.mpr (.inl hb))).1
    · obtain rfl := List.mem_singleton.mp hb
      exact ⟨rfl, hw⟩
    · exact Act.placed_of_not_running (hothers b (List.mem_append.mpr (.inr hb))).1
  · have htok := h.token
    unfold tokens at *
    rw [hs] at htok
    simpa [List.countP_append, List.countP_cons, Act.running, Nat.add_assoc] using htok
  · show RingShows bits (Function.update s.slots s.headCtl none) s.popped.length _
    rw [h.head]
    apply (h.slots.update (Nat.le_refl _) (Nat.lt_add_of_pos_right (Nat.two_pow_pos bits)) none).congr
    intro j _ _
    by_cases hj : j = s.popped.length
    · subst hj
      simp [content, hw, Act.emptied]
    · simp [content, hj]

/-- The store of the head: the slot is given back, and the item is delivered. -/
theorem Fifo.giveBack (h : Fifo bits s) {pre post : List (Act V)} {v : V}
    (hs : s.acts = pre ++ .resumeStore k i v :: post) :
    Fifo bits { s with
      headCtl := ringNext bits i, popped := s.popped ++ [v], results := (some v, s.closed) :: s.results,
      acts := pre ++ [.body] ++ post } := by
  obtain ⟨rfl, hv⟩ := h.acts (.resumeStore k i v) (by rw [hs]; simp)
  have hlt : s.popped.length < s.pushed.length := (List.getElem?_eq_some_iff.mp hv).1
  have hlen : (s.popped ++ [v]).length = s.popped.length + 1 := by simp
  have hothers := h.others hs rfl
  have horder := h.order
  have hnew : s.popped.length + 1 ≤ s.pushed.length ∧ s.pushed.length < s.popped.length + 1 + 2 ^ bits := by omega
  refine ⟨?_, h.tail, by rw [hlen]; exact hnew, ?_, ?_, ?_, h.single, ?_, ?_, ?_, ?_⟩
  · show ringNext bits s.headCtl = _
    rw [hlen, h.head, ringNext_ringIdx]
  · obtain ⟨c, hc, hl, hclt⟩ := h.cached
    exact ⟨c, by rw [hlen]; omega, hl, hclt⟩
  · obtain ⟨u, hu⟩ := h.fifo
    rw [← hu, List.getElem?_append_right (Nat.le_refl _), Nat.sub_self] at hv
    cases u with
    | nil => cases hv
    | cons w u =>
        obtain rfl : w = v := by simpa using hv
        exact ⟨u, by rw [← hu]; simp⟩
  · have hret := h.returned
    show ((some v, s.closed) :: s.results).reverse.filterMap (·.1) = s.popped ++ [v]
    rw [List.reverse_cons, List.filterMap_append, hret]
    rfl
  · intro t
    exact (h.parties t).congr rfl rfl rfl (by rw [hlen]; exact Nat.le_succ _)
  · intro b hb
    rw [List.append_assoc, List.mem_append, List.mem_append] at hb
    rcases hb with hb | hb | hb
    · exact Act.placed_of_not_running (hothers b (List.mem_append.mpr (.inl hb))).1
    · obtain rfl := List.mem_singleton.mp hb
      trivial
    · exact Act.placed_of_not_running (hothers b (List.mem_append.mpr (.inr hb))).1
  · have htok := h.token
    unfold tokens at *
    rw [hs] at htok
    simpa [List.countP_append, List.countP_cons, Act.running, Nat.add_assoc] using htok
  · have hempty : (pre ++ [Act.body] ++ post).any Act.emptied = false := by
      rw [List.append_assoc, List.any_append, List.any_append]
      simp only [Bool.or_eq_false_iff, List.any_eq_false]
      refine ⟨fun b hb => ?_, by simp [Act.emptied], fun b hb => ?_⟩
      · simp [(hothers b (List.mem_append.mpr (.inl hb))).2]
      · simp [(hothers b (List.mem_append.mpr (.inr hb))).2]
    have hfull : s.acts.any Act.emptied = true := by
      rw [hs]; simp [Act.emptied]
    show RingShows bits s.slots (s.popped ++ [v]).length _
    rw [hlen]
    apply h.slots.advance
    · intro j hj hjlt
      have hne : ¬ (s.acts.any Act.emptied = true ∧ j = s.popped.length) := fun h' => by omega
      simp only [content, hempty, if_neg hne]
      simp
    · -- the emptied slot is the one beyond the last item
      have hnone : s.pushed[s.popped.length + 2 ^ bits]? = none := List.getElem?_eq_none (by omega)
      simp only [content, hv, hfull, hnone]
      rw [if_pos ⟨trivial, trivial⟩, if_neg (by omega)]

theorem Fifo.actStep (h : Fifo bits s) (hs : step bits s (.act i) = some s') : Fifo bits s' := by
  obtain ⟨a, pre, post, r, -, hacts, hr, rfl⟩ := act_split hs
  have hplaced := h.acts a (by rw [hacts]; simp)
  -- the steps that touch neither the ring nor the callback
  have quiet : ∀ {s' : State V n} (as : List (Act V)), s' = { s with
      headLocal := s'.headLocal, awaits := s'.awaits, acts := pre ++ as ++ post } →
      (∀ b ∈ as, b.Placed s') → a.emptied = false → as.any Act.emptied = false →
      as.countP Act.running = (a.running).toNat → Fifo bits s' := by
    intro s' as he hpl hold hnew hrun
    rw [he] at hpl ⊢
    exact h.actQuiet as hacts ⟨rfl, rfl, rfl, rfl, rfl⟩ rfl rfl h.returned rfl hpl hold hnew (by rw [hrun])
  cases a with
  | parked k => simp [SPSCChannel.actStep] at hr
  | body =>
      obtain rfl : _ = r := by simpa [SPSCChannel.actStep] using hr
      refine quiet _ rfl ?_ rfl rfl rfl
      intro b hb
      obtain rfl := List.mem_singleton.mp hb
      trivial
  | readyHead k | readyTail k head | readyClosed k =>
      obtain rfl : _ = r := by simpa [SPSCChannel.actStep] using hr
      refine quiet _ rfl ?_ rfl (by split <;> rfl) (by split <;> rfl)
      intro b hb
      obtain rfl := List.mem_singleton.mp hb
      split <;> trivial
  | suspendStore k =>
      obtain rfl : _ = r := by simpa [SPSCChannel.actStep] using hr
      -- the token goes from the activation into the slot
      have hnone := (h.alone hacts rfl).1
      refine h.actQuiet _ hacts ⟨rfl, rfl, rfl, rfl, rfl⟩ rfl rfl h.returned rfl ?_ rfl rfl ?_
      · intro b hb
        obtain rfl := List.mem_singleton.mp hb
        trivial
      · rw [hnone]; rfl
  | suspend k p o =>
      have hsusp : ∀ (s' : State V n), (∀ b ∈ suspended k o, b.Placed s') ∧ (suspended (V := V) k o).any Act.emptied = false ∧
          (suspended (V := V) k o).countP Act.running = 0 := by
        intro s'
        cases o <;> simp [suspended, Act.Placed, Act.emptied, Act.running]
      cases p with
      | head | sync tail =>
          obtain rfl : _ = r := by simpa [SPSCChannel.actStep] using hr
          refine quiet _ rfl ?_ rfl rfl rfl
          intro b hb
          obtain rfl := List.mem_singleton.mp hb
          trivial
      | tail head =>
          obtain rfl : _ = r := by simpa [SPSCChannel.actStep] using hr
          refine quiet _ rfl ?_ rfl rfl (by split <;> rfl)
          intro b hb
          obtain rfl := List.mem_singleton.mp hb
          trivial
      | closed tail =>
          obtain rfl : _ = r := by simpa [SPSCChannel.actStep] using hr
          by_cases hc : s.closed = true
          · refine quiet [.suspend k (.exchange tail) o] (by simp [hc]) ?_ rfl rfl rfl
            intro b hb
            obtain rfl := List.mem_singleton.mp hb
            trivial
          · exact quiet (suspended k o) (by simp [hc]) (hsusp _).1 rfl (hsusp s).2.1 (hsusp s).2.2
      | exchange tail =>
          obtain rfl : _ = r := by simpa [SPSCChannel.actStep] using hr
          -- the exchange: the token comes back, or a party has it already
          cases hc : s.callback with
          | some f =>
              refine h.actQuiet [.suspend k (.sync tail) o] hacts ⟨rfl, rfl, rfl, rfl, rfl⟩ rfl rfl h.returned
                (by simp) ?_ rfl rfl (by rw [hc]; rfl)
              intro b hb
              obtain rfl := List.mem_singleton.mp hb
              trivial
          | none =>
              exact h.actQuiet (suspended k o) hacts ⟨rfl, rfl, rfl, rfl, rfl⟩ rfl rfl h.returned
                (by simp) (hsusp _).1 rfl (hsusp s).2.1 (by rw [(hsusp s).2.2, hc]; rfl)
  | resumeHead k =>
      obtain rfl : _ = r := by simpa [SPSCChannel.actStep] using hr
      refine quiet _ rfl ?_ rfl rfl rfl
      intro b hb
      obtain rfl := List.mem_singleton.mp hb
      rfl
  | resumeTail k head =>
      obtain rfl : head = s.headCtl := hplaced
      obtain rfl : _ = r := by simpa [SPSCChannel.actStep] using hr
      refine quiet _ rfl ?_ rfl (by split <;> rfl) (by split <;> rfl)
      intro b hb
      obtain rfl := List.mem_singleton.mp hb
      split
      · trivial
      · rename_i hne
        refine ⟨rfl, ?_⟩
        have := h.order.1
        -- distinct indices, so there is an item between them
        have hne' : s.popped.length ≠ s.pushed.length := by
          intro he
          rw [h.head, h.tail, he] at hne
          exact hne rfl
        show s.popped.length < s.pushed.length
        omega
  | resumeMove k head =>
      simp only [SPSCChannel.actStep, Option.map_eq_some_iff] at hr
      obtain ⟨v, hv, rfl⟩ := hr
      exact h.moveOut hacts hv
  | resumeStore k head v =>
      obtain rfl : _ = r := by simpa [SPSCChannel.actStep] using hr
      exact h.giveBack hacts
  | resumeClosed k =>
      obtain rfl : _ = r := by simpa [SPSCChannel.actStep] using hr
      refine h.actQuiet _ hacts ⟨rfl, rfl, rfl, rfl, rfl⟩ rfl rfl ?_ rfl ?_ rfl rfl rfl
      · have hret := h.returned
        show ((none, s.closed) :: s.results).reverse.filterMap (·.1) = s.popped
        rw [List.reverse_cons, List.filterMap_append, hret]
        exact List.append_nil _
      · intro b hb
        obtain rfl := List.mem_singleton.mp hb
        trivial

/-! ## §5 — whole runs. -/

theorem Fifo.step {act : Action V n} (h : Fifo bits s) (hs : step bits s act = some s') : Fifo bits s' := by
  cases act with
  | callPush v =>
      simp only [SPSCChannel.step] at hs
      split at hs
      · rename_i hp
        obtain rfl := Option.some.inj hs
        exact h.partyQuiet rfl ⟨rfl, rfl, rfl, rfl, rfl⟩ (.inl rfl) rfl rfl (fun h0 => absurd rfl h0) (by rw [hp]; rfl)
          rfl trivial (by rw [hp]; rfl)
      · cases hs
  | callClose t =>
      simp only [SPSCChannel.step] at hs
      split at hs
      · rename_i hp
        obtain rfl := Option.some.inj hs
        exact h.partyQuiet rfl ⟨rfl, rfl, rfl, rfl, rfl⟩ (.inl rfl) rfl rfl (fun _ => rfl) (by rw [hp]; rfl) rfl trivial
          (by rw [hp]; rfl)
      · cases hs
  | party t => exact h.partyStep hs
  | act i => exact h.actStep hs

theorem fifo_init : Fifo bits (init V n) := by
  exact {
    head := (Nat.zero_mod _).symm
    tail := (Nat.zero_mod _).symm
    order := ⟨Nat.le_refl 0, by simp [init]⟩
    cached := ⟨0, Nat.le_refl 0, (Nat.zero_mod _).symm, by simp [init]⟩
    fifo := List.prefix_refl []
    returned := rfl
    single := fun _ _ => rfl
    parties := fun _ => trivial
    acts := fun a ha => by obtain rfl := List.mem_singleton.mp ha; trivial
    token := by
      show 1 + 0 + threadCount _ (fun _ => Party.idle) = 1
      rw [threadCount_const _ _ rfl]
    slots := fun j _ _ => (ite_self _).symm }

/-- Inside `push`, with the item not yet published. -/
def Party.unpublished : Party V → Bool
  | .pushClosed _ | .pushTail _ | .pushHead _ _ | .pushConstruct _ _ | .pushStore _ _ => true
  | _ => false

/-- A `push` that returns without publishing found the channel closed, or the ring full. -/
theorem Fifo.refused (h : Fifo bits s) (hp : (s.party t).unpublished = true)
    (hs : SPSCChannel.partyStep bits s t = some s') (hidle : s'.party t = .idle) : s.closed = true ∨ s.pushed.length + 1 = s.popped.length + 2 ^ bits := by
  cases hpc : s.party t with
  | pushClosed v =>
      simp only [SPSCChannel.partyStep, hpc, Option.some.injEq] at hs
      subst hs
      simp only [State.goto, Function.update_self] at hidle
      by_cases hc : s.closed = true
      · exact .inl hc
      · rw [if_neg hc] at hidle; cases hidle
  | pushTail v =>
      simp only [SPSCChannel.partyStep, hpc, Option.some.injEq] at hs
      subst hs
      simp only [State.goto, Function.update_self] at hidle
      split at hidle <;> cases hidle
  | pushHead v i =>
      have hok := h.parties t
      rw [hpc] at hok
      obtain rfl : i = s.tailCtl := hok
      simp only [SPSCChannel.partyStep, hpc, Option.some.injEq] at hs
      subst hs
      simp only [State.goto, Function.update_self] at hidle
      split at hidle
      · cases hidle
      · rename_i heq
        right
        rw [not_not, h.tail, ringNext_ringIdx, h.head, ← ringIdx_add_size bits s.popped.length] at heq
        have horder := h.order
        exact (ringIdx_eq_iff (by omega) (by have := Nat.two_pow_pos bits; omega)).mp heq
  | pushConstruct v i | pushStore v i =>
      simp only [SPSCChannel.partyStep, hpc, Option.some.injEq] at hs
      subst hs
      simp only [State.goto, Function.update_self] at hidle
      cases hidle
  | _ => rw [hpc] at hp; cases hp

end NetCpp.Coro.SPSCChannel
