/-
# NetCpp.Sync.Spsc — the bounded queue `sync::spsc`, whose `pop` gives the slot back BEFORE emptying it.

`include/xsl/sync/spsc.h`.  One producer in `push`, one consumer in `pop`; each atomic load and store, the
construction of an item, its move-out and its destruction are one step.  `pop` stores the new head first and moves
the item out afterwards, so a `push` may see the slot as free while its item is still there.  What keeps the two
apart is the slot that the full test leaves unused: against the head it has seen, `push` stops ONE slot early, and
that is the slot still being emptied.

`accepted`, `claimed` and `popped` are history: the items whose `push` stored the tail (and returns `true`), the
head stores made, and the items `pop` returned.
-/
import NetCpp.Lib.Transition
import NetCpp.Lib.Ring
import NetCpp.Wheel.Bit

namespace NetCpp.Sync.Spsc

open NetCpp.Lib NetCpp.Wheel

/-! ## §1 — the state and the steps. -/

variable {V : Type}

/-- A slot: no object, an item, or what is left of an item after the move. -/
inductive Cell (V : Type)
  | raw
  | item (v : V)
  | husk
  deriving DecidableEq, Repr

/-- Where the producer is inside `push`. -/
inductive Prod (V : Type)
  | idle
  | loadTail (v : V)
  | loadHead (v : V) (tail : Nat)
  | construct (v : V) (tail : Nat)
  | store (v : V) (tail : Nat)
  deriving DecidableEq, Repr

/-- Where the consumer is inside `pop`. -/
inductive Cons (V : Type)
  | idle
  | loadHead
  | loadTail (head : Nat)
  | store (head : Nat)
  | moveOut (head : Nat)
  | destroy (head : Nat) (v : V)
  deriving DecidableEq, Repr

structure State (V : Type) where
  /-- `_head._ctl` and the consumer's copy `_head._local` of the tail -/
  headCtl : Nat
  headLocal : Nat
  /-- `_tail._ctl` and the producer's copy `_tail._local` of the head -/
  tailCtl : Nat
  tailLocal : Nat
  slots : Nat → Cell V
  prod : Prod V
  cons : Cons V
  accepted : List V
  claimed : Nat
  popped : List V

def init (V : Type) : State V where
  headCtl := 0
  headLocal := 0
  tailCtl := 0
  tailLocal := 0
  slots := fun _ => .raw
  prod := .idle
  cons := .idle
  accepted := []
  claimed := 0
  popped := []

/-- `(i + 1) & _size_mask`. -/
def next (size i : Nat) : Nat := (i + 1) &&& sizeMask size

def prodStep (size : Nat) (s : State V) : Option (State V) :=
  match s.prod with
  | .idle => none
  | .loadTail v =>
      some { s with prod := if next size s.tailCtl ≠ s.tailLocal then .construct v s.tailCtl else .loadHead v s.tailCtl }
  | .loadHead v tail =>
      some { s with
        tailLocal := s.headCtl
        prod := if next size tail ≠ s.headCtl then .construct v tail else .idle }
  | .construct v tail => some { s with slots := Function.update s.slots tail (.item v), prod := .store v tail }
  | .store v tail => some { s with tailCtl := next size tail, accepted := s.accepted ++ [v], prod := .idle }

def consStep (size : Nat) (s : State V) : Option (State V) :=
  match s.cons with
  | .idle => none
  | .loadHead =>
      some { s with cons := if s.headCtl = s.headLocal then .loadTail s.headCtl else .store s.headCtl }
  | .loadTail head =>
      some { s with headLocal := s.tailCtl, cons := if head = s.tailCtl then .idle else .store head }
  -- first, update the head pointer
  | .store head => some { s with headCtl := next size head, claimed := s.claimed + 1, cons := .moveOut head }
  | .moveOut head =>
      match s.slots head with
      | .item v => some { s with slots := Function.update s.slots head .husk, cons := .destroy head v }
      | _ => none
  | .destroy head v =>
      some { s with slots := Function.update s.slots head .raw, popped := s.popped ++ [v], cons := .idle }

inductive Action (V : Type)
  | callPush (v : V)
  | callPop
  | prod
  | cons
  deriving DecidableEq

def step (size : Nat) (s : State V) : Action V → Option (State V)
  | .callPush v =>
      match s.prod with
      | .idle => some { s with prod := .loadTail v }
      | _ => none
  | .callPop =>
      match s.cons with
      | .idle => some { s with cons := .loadHead }
      | _ => none
  | .prod => prodStep size s
  | .cons => consStep size s

/-! ## §2 — the invariant.

Indices through the absolute counters `claimed` and `accepted.length`; slots from `popped.length` on. -/

/-- Against the producer's copy of the head there is a free slot beyond the tail. -/
def Room (bits : Nat) (s : State V) : Prop :=
  ∃ h ≤ s.claimed, s.tailLocal = ringIdx bits h ∧ s.accepted.length + 1 < h + 2 ^ bits

/-- What the producer may rely on. -/
def Prod.Ok (bits : Nat) (s : State V) : Prod V → Prop
  | .idle | .loadTail _ => True
  | .loadHead _ i => i = s.tailCtl
  | .construct _ i | .store _ i => i = s.tailCtl ∧ Room bits s

/-- What the consumer may rely on: between the store of the head and the destruction it owns the slot before it. -/
def Cons.Ok (bits : Nat) (s : State V) : Cons V → Prop
  | .idle | .loadHead => s.claimed = s.popped.length
  | .loadTail i => s.claimed = s.popped.length ∧ i = s.headCtl
  | .store i =>
      s.claimed = s.popped.length ∧ i = s.headCtl ∧
        ∃ l, s.headLocal = ringIdx bits l ∧ s.claimed < l ∧ l ≤ s.accepted.length
  | .moveOut i => s.claimed = s.popped.length + 1 ∧ i = ringIdx bits s.popped.length
  | .destroy i v =>
      s.claimed = s.popped.length + 1 ∧ i = ringIdx bits s.popped.length ∧ s.accepted[s.popped.length]? = some v

/-- The item built and not yet published. -/
def Prod.built : Prod V → Cell V
  | .store v _ => .item v
  | _ => .raw

/-- The consumer has moved the item out and not yet destroyed what is left. -/
def Cons.gutted : Cons V → Bool
  | .destroy _ _ => true
  | _ => false

/-- What the slot of the absolute counter `j` holds. -/
def content (s : State V) (j : Nat) : Cell V :=
  match s.accepted[j]? with
  | some v => if s.cons.gutted ∧ j = s.popped.length then .husk else .item v
  | none => if j = s.accepted.length then s.prod.built else .raw

structure Inv (bits : Nat) (s : State V) : Prop where
  head : s.headCtl = ringIdx bits s.claimed
  tail : s.tailCtl = ringIdx bits s.accepted.length
  order : s.claimed ≤ s.accepted.length ∧ s.accepted.length < s.claimed + 2 ^ bits
  seen : ∃ l, s.headLocal = ringIdx bits l ∧ s.claimed ≤ l ∧ l ≤ s.accepted.length
  cached : ∃ h ≤ s.claimed, s.tailLocal = ringIdx bits h ∧ s.accepted.length < h + 2 ^ bits
  fifo : s.popped <+: s.accepted
  prod : s.prod.Ok bits s
  cons : s.cons.Ok bits s
  slots : RingShows bits s.slots s.popped.length (content s)

variable {bits size : Nat} {s s' : State V}

theorem next_ringIdx (hsize : size < 2 ^ 64) (a : Nat) :
    next size (ringIdx (ringBits size) a) = ringIdx (ringBits size) (a + 1) := by
  rw [next, sizeMask_eq hsize]
  exact ringNext_ringIdx _ _

/-- The consumer owns at most the one slot before the head. -/
theorem Inv.claimed_le (h : Inv bits s) : s.popped.length ≤ s.claimed ∧ s.claimed ≤ s.popped.length + 1 := by
  have := h.cons
  cases hc : s.cons <;> rw [hc] at this
  · have : s.claimed = s.popped.length := this
    omega
  · have : s.claimed = s.popped.length := this
    omega
  · have := this.1
    omega
  · have := this.1
    omega
  · have := this.1
    omega
  · have := this.1
    omega

/-- **The slot `push` constructs into is not the one still being emptied.** -/
theorem Inv.room (h : Inv bits s) (hroom : Room bits s) :
    s.popped.length ≤ s.accepted.length ∧ s.accepted.length < s.popped.length + 2 ^ bits := by
  obtain ⟨a, ha, -, hlt⟩ := hroom
  have := h.claimed_le
  have := h.order.1
  omega

/-- The producer moves, and may refresh its copy of the head. -/
theorem Inv.prodQuiet (h : Inv bits s) {p : Prod V} {l : Nat} (hloc : l = s.tailLocal ∨ l = s.headCtl)
    (hold : s.prod.built = .raw) (hnew : p.built = .raw) (hok : p.Ok bits { s with tailLocal := l, prod := p }) :
    Inv bits { s with tailLocal := l, prod := p } where
  head := h.head
  tail := h.tail
  order := h.order
  seen := h.seen
  cached := by
    rcases hloc with rfl | rfl
    · exact h.cached
    · exact ⟨s.claimed, Nat.le_refl _, h.head, h.order.2⟩
  fifo := h.fifo
  prod := hok
  cons := by
    have := h.cons
    cases hc : s.cons <;> rw [hc] at this <;> exact this
  slots := by
    apply h.slots.congr
    intro j _ _
    simp only [content, hold, hnew]

/-- `n_tail != ep._local` against a copy of the head. -/
theorem room_of_ne {l c : Nat} (hc : c ≤ s.claimed) (hl : l = ringIdx bits c)
    (hlt : s.accepted.length < c + 2 ^ bits) (hne : ringIdx bits (s.accepted.length + 1) ≠ l) (p : Prod V) :
    Room bits { s with tailLocal := l, prod := p } := by
  refine ⟨c, hc, hl, ?_⟩
  have : s.accepted.length + 1 ≠ c + 2 ^ bits := by
    intro he
    rw [he, ringIdx_add_size, ← hl] at hne
    exact hne rfl
  show s.accepted.length + 1 < c + 2 ^ bits
  omega

/-- The construction. -/
theorem Inv.construct (h : Inv bits s) {v : V} {i : Nat} (hp : s.prod = .construct v i) :
    Inv bits { s with slots := Function.update s.slots i (.item v), prod := .store v i } := by
  have hok := h.prod
  rw [hp] at hok
  obtain ⟨rfl, hroom⟩ : i = s.tailCtl ∧ Room bits s := hok
  obtain ⟨hle, hlt⟩ := h.room hroom
  refine ⟨h.head, h.tail, h.order, h.seen, h.cached, h.fifo, ⟨rfl, hroom⟩, ?_, ?_⟩
  · have := h.cons
    cases hc : s.cons <;> rw [hc] at this <;> exact this
  · rw [h.tail]
    apply (h.slots.update hle hlt (.item v)).congr
    intro j _ _
    by_cases hj : j = s.accepted.length
    · subst hj
      simp [content, Prod.built]
    · simp only [Function.update_of_ne hj, content, hj, if_false]

/-- The store of the tail. -/
theorem Inv.publish (h : Inv bits s) {v : V} {i : Nat} (hp : s.prod = .store v i) :
    Inv bits { s with tailCtl := ringIdx bits (s.accepted.length + 1), accepted := s.accepted ++ [v], prod := .idle } := by
  have hok := h.prod
  rw [hp] at hok
  obtain ⟨-, c, hc, hloc, hlt⟩ : i = s.tailCtl ∧ Room bits s := hok
  have horder := h.order
  have hle := h.claimed_le
  have hlen : (s.accepted ++ [v]).length = s.accepted.length + 1 := by simp
  refine ⟨h.head, by rw [hlen], ?_, ?_, ⟨c, hc, hloc, by rw [hlen]; exact hlt⟩, ?_, trivial, ?_, ?_⟩
  · rw [hlen]
    show s.claimed ≤ _ ∧ _ < s.claimed + _
    omega
  · obtain ⟨l, hl, h1, h2⟩ := h.seen
    exact ⟨l, hl, h1, by rw [hlen]; omega⟩
  · exact h.fifo.trans (List.prefix_append _ _)
  · have hcons := h.cons
    cases hcs : s.cons with
    | store j =>
        rw [hcs] at hcons
        obtain ⟨h1, h2, l, hl, hlt1, hlt2⟩ := hcons
        exact ⟨h1, h2, l, hl, hlt1, by rw [hlen]; omega⟩
    | destroy j w =>
        rw [hcs] at hcons
        refine ⟨hcons.1, hcons.2.1, ?_⟩
        show (s.accepted ++ [v])[s.popped.length]? = some w
        rw [List.getElem?_append_left (by have := hcons.1; omega)]
        exact hcons.2.2
    | idle | loadHead | loadTail j | moveOut j => rw [hcs] at hcons; exact hcons
  · apply h.slots.congr
    intro j _ _
    -- the new item stands where the producer had built it
    rcases Nat.lt_trichotomy j s.accepted.length with hj | rfl | hj
    · simp only [content, List.getElem?_append_left hj, List.getElem?_eq_getElem hj]
    · have hne : s.accepted.length = s.popped.length → ¬ s.cons.gutted = true := by
        intro he hg
        have hcons := h.cons
        cases hcs : s.cons <;> rw [hcs] at hg hcons
        case destroy =>
          have := hcons.1
          omega
        all_goals cases hg
      have hn : s.accepted[s.accepted.length]? = none := List.getElem?_eq_none (Nat.le_refl _)
      simp only [content, hn, if_true, hp, Prod.built, List.getElem?_concat_length]
      rw [if_neg]
      rintro ⟨hg, he⟩
      exact hne he hg
    · have h1 : s.accepted[j]? = none := List.getElem?_eq_none (Nat.le_of_lt hj)
      have h2 : (s.accepted ++ [v])[j]? = none := List.getElem?_eq_none (by rw [hlen]; omega)
      simp only [content, h1, h2, hlen, if_neg (show j ≠ s.accepted.length by omega)]
      exact (ite_self _).symm

theorem Inv.prodStep (h : Inv (ringBits size) s) (hsize : size < 2 ^ 64) (hs : prodStep size s = some s') :
    Inv (ringBits size) s' := by
  cases hp : s.prod with
  | idle => simp [Spsc.prodStep, hp] at hs
  | loadTail v =>
      simp only [Spsc.prodStep, hp, Option.some.injEq] at hs
      subst hs
      apply h.prodQuiet (l := s.tailLocal) (.inl rfl) (by rw [hp]; rfl)
      · split <;> rfl
      · split
        · rename_i hne
          rw [h.tail, next_ringIdx hsize] at hne
          obtain ⟨c, hc, hloc, hlt⟩ := h.cached
          exact ⟨rfl, room_of_ne hc hloc hlt hne _⟩
        · rfl
  | loadHead v i =>
      have hok := h.prod
      rw [hp] at hok
      obtain rfl : i = s.tailCtl := hok
      simp only [Spsc.prodStep, hp, Option.some.injEq] at hs
      subst hs
      apply h.prodQuiet (l := s.headCtl) (.inr rfl) (by rw [hp]; rfl)
      · split <;> rfl
      · split
        · rename_i hne
          rw [h.tail, next_ringIdx hsize] at hne
          exact ⟨rfl, room_of_ne (Nat.le_refl _) h.head h.order.2 hne _⟩
        · trivial
  | construct v i =>
      simp only [Spsc.prodStep, hp, Option.some.injEq] at hs
      subst hs
      exact h.construct hp
  | store v i =>
      have hok := h.prod
      rw [hp] at hok
      obtain rfl : i = s.tailCtl := hok.1
      simp only [Spsc.prodStep, hp, Option.some.injEq] at hs
      subst hs
      rw [h.tail, next_ringIdx hsize]
      exact h.publish hp

/-! ## §4 — steps of the consumer. -/

theorem Prod.Ok.congr {p : Prod V} (h : p.Ok bits s) (htail : s'.tailCtl = s.tailCtl)
    (hloc : s'.tailLocal = s.tailLocal) (hacc : s'.accepted = s.accepted) (hcl : s.claimed ≤ s'.claimed) :
    p.Ok bits s' := by
  cases p with
  | idle | loadTail v => trivial
  | loadHead v i => exact Eq.trans h htail.symm
  | construct v i | store v i =>
      obtain ⟨hi, c, hc, hl, hlt⟩ := h
      exact ⟨hi.trans htail.symm, c, hc.trans hcl, hloc.trans hl, by rw [hacc]; exact hlt⟩

/-- The consumer moves, and may refresh its copy of the tail. -/
theorem Inv.consQuiet (h : Inv bits s) {c : Cons V} {l : Nat} (hloc : l = s.headLocal ∨ l = s.tailCtl)
    (hold : s.cons.gutted = false) (hnew : c.gutted = false) (hok : c.Ok bits { s with headLocal := l, cons := c }) :
    Inv bits { s with headLocal := l, cons := c } where
  head := h.head
  tail := h.tail
  order := h.order
  seen := by
    rcases hloc with rfl | rfl
    · exact h.seen
    · exact ⟨s.accepted.length, h.tail, h.order.1, Nat.le_refl _⟩
  cached := h.cached
  fifo := h.fifo
  prod := h.prod.congr rfl rfl rfl (Nat.le_refl _)
  cons := hok
  slots := by
    apply h.slots.congr
    intro j _ _
    simp only [content, hold, hnew]

/-- A copy of the tail other than the head announces an item. -/
theorem Inv.ahead_of_ne (h : Inv bits s) {l : Nat} (hl : ∃ b, l = ringIdx bits b ∧ s.claimed ≤ b ∧ b ≤ s.accepted.length)
    (hne : s.headCtl ≠ l) : ∃ b, l = ringIdx bits b ∧ s.claimed < b ∧ b ≤ s.accepted.length := by
  obtain ⟨b, rfl, h1, h2⟩ := hl
  have : s.claimed ≠ b := by
    rintro rfl
    exact hne h.head
  exact ⟨b, rfl, by omega, h2⟩

/-- The early store of the head. -/
theorem Inv.claim (h : Inv bits s) {i : Nat} (hc : s.cons = .store i) :
    Inv bits { s with headCtl := ringIdx bits (s.claimed + 1), claimed := s.claimed + 1, cons := .moveOut i } := by
  have hok := h.cons
  rw [hc] at hok
  obtain ⟨hcl, rfl, l, hl, hlt, hle⟩ := hok
  have horder := h.order
  have horder' : s.claimed + 1 ≤ s.accepted.length ∧ s.accepted.length < s.claimed + 1 + 2 ^ bits := by omega
  refine ⟨rfl, h.tail, horder', ⟨l, hl, hlt, hle⟩, ?_, h.fifo, ?_, ?_, ?_⟩
  · obtain ⟨c, hcc, hloc, hlt'⟩ := h.cached
    exact ⟨c, Nat.le_succ_of_le hcc, hloc, hlt'⟩
  · exact h.prod.congr rfl rfl rfl (Nat.le_succ _)
  · exact ⟨by show s.claimed + 1 = _; rw [hcl], by rw [h.head, hcl]⟩
  · apply h.slots.congr
    intro j _ _
    simp only [content, hc, Cons.gutted]
    rfl

/-- The slot the consumer owns holds its item until the move. -/
theorem Inv.item_at (h : Inv bits s) {i : Nat} (hc : s.cons = .moveOut i) :
    ∃ v, s.accepted[s.popped.length]? = some v ∧ s.slots i = .item v := by
  have hok := h.cons
  rw [hc] at hok
  obtain ⟨hcl, rfl⟩ := hok
  have hlt : s.popped.length < s.accepted.length := by
    have := h.order.1
    omega
  have hget := List.getElem?_eq_getElem hlt
  refine ⟨s.accepted[s.popped.length], hget, ?_⟩
  rw [h.slots s.popped.length (Nat.le_refl _) (Nat.lt_add_of_pos_right (Nat.two_pow_pos bits))]
  simp [content, hget, hc, Cons.gutted]

/-- The move-out. -/
theorem Inv.moveOut (h : Inv bits s) {i : Nat} {v : V} (hc : s.cons = .moveOut i) (hv : s.slots i = .item v) :
    Inv bits { s with slots := Function.update s.slots i .husk, cons := .destroy i v } := by
  obtain ⟨w, hw, hslot⟩ := h.item_at hc
  obtain rfl : v = w := by simpa using hv.symm.trans hslot
  have hok := h.cons
  rw [hc] at hok
  obtain ⟨hcl, rfl⟩ := hok
  refine ⟨h.head, h.tail, h.order, h.seen, h.cached, h.fifo, h.prod.congr rfl rfl rfl (Nat.le_refl _),
    ⟨hcl, rfl, hw⟩, ?_⟩
  apply (h.slots.update (Nat.le_refl _) (Nat.lt_add_of_pos_right (Nat.two_pow_pos bits)) .husk).congr
  intro j _ _
  by_cases hj : j = s.popped.length
  · subst hj
    simp [content, hw, Cons.gutted]
  · simp [content, hj]

/-- The destruction: the slot is empty and leaves the window at the front. -/
theorem Inv.destroy (h : Inv bits s) {i : Nat} {v : V} (hc : s.cons = .destroy i v) :
    Inv bits { s with slots := Function.update s.slots i .raw, popped := s.popped ++ [v], cons := .idle } := by
  have hok := h.cons
  rw [hc] at hok
  obtain ⟨hcl, rfl, hv⟩ := hok
  have hlt : s.popped.length < s.accepted.length := (List.getElem?_eq_some_iff.mp hv).1
  have hfull := h.order.2
  refine ⟨h.head, h.tail, h.order, h.seen, h.cached, ?_, h.prod.congr rfl rfl rfl (Nat.le_refl _), ?_, ?_⟩
  · obtain ⟨t, ht⟩ := h.fifo
    rw [← ht] at hv ⊢
    rw [List.getElem?_append_right (Nat.le_refl _), Nat.sub_self] at hv
    cases t with
    | nil => cases hv
    | cons w t =>
        obtain rfl : w = v := by simpa using hv
        exact ⟨t, by simp⟩
  · show s.claimed = (s.popped ++ [v]).length
    rw [hcl]; simp
  · have hraw := h.slots.update (Nat.le_refl _) (Nat.lt_add_of_pos_right (Nat.two_pow_pos bits)) .raw
    show RingShows bits _ (s.popped ++ [v]).length _
    rw [show (s.popped ++ [v]).length = s.popped.length + 1 by simp]
    apply hraw.advance
    · intro j hj hjlt
      rw [Function.update_of_ne (Nat.ne_of_gt hj)]
      simp only [content, if_neg (show ¬ (s.cons.gutted = true ∧ j = s.popped.length) from fun h' => by omega)]
      simp [Cons.gutted]
    · -- beyond the last item there is nothing, and a `push` that stands there has not built yet
      rw [Function.update_self]
      have hnone : s.accepted[s.popped.length + 2 ^ bits]? = none := List.getElem?_eq_none (by omega)
      simp only [content, hnone]
      split
      · rename_i hj
        cases hp : s.prod with
        | store w t =>
            have hprod := h.prod
            rw [hp] at hprod
            have := h.room hprod.2
            omega
        | idle | loadTail w | loadHead w t | construct w t => rfl
      · rfl

theorem Inv.consStep (h : Inv (ringBits size) s) (hsize : size < 2 ^ 64) (hs : consStep size s = some s') :
    Inv (ringBits size) s' := by
  have hok := h.cons
  cases hc : s.cons with
  | idle => simp [Spsc.consStep, hc] at hs
  | loadHead =>
      rw [hc] at hok
      simp only [Spsc.consStep, hc, Option.some.injEq] at hs
      subst hs
      apply h.consQuiet (l := s.headLocal) (.inl rfl) (by rw [hc]; rfl)
      · split <;> rfl
      · split
        · exact ⟨hok, rfl⟩
        · rename_i hne
          exact ⟨hok, rfl, h.ahead_of_ne h.seen hne⟩
  | loadTail i =>
      rw [hc] at hok
      obtain ⟨hcl, rfl⟩ := hok
      simp only [Spsc.consStep, hc, Option.some.injEq] at hs
      subst hs
      apply h.consQuiet (l := s.tailCtl) (.inr rfl) (by rw [hc]; rfl)
      · split <;> rfl
      · split
        · exact hcl
        · rename_i hne
          exact ⟨hcl, rfl, h.ahead_of_ne ⟨_, h.tail, h.order.1, Nat.le_refl _⟩ hne⟩
  | store i =>
      rw [hc] at hok
      simp only [Spsc.consStep, hc, Option.some.injEq] at hs
      subst hs
      rw [show i = ringIdx (ringBits size) s.claimed from hok.2.1.trans h.head, next_ringIdx hsize, ← h.head,
        ← hok.2.1]
      exact h.claim hc
  | moveOut i =>
      obtain ⟨v, -, hslot⟩ := h.item_at hc
      simp only [Spsc.consStep, hc, hslot, Option.some.injEq] at hs
      subst hs
      exact h.moveOut hc hslot
  | destroy i v =>
      simp only [Spsc.consStep, hc, Option.some.injEq] at hs
      subst hs
      exact h.destroy hc

/-! ## §5 — whole runs. -/

theorem Inv.step {act : Action V} (h : Inv (ringBits size) s) (hsize : size < 2 ^ 64)
    (hs : step size s act = some s') : Inv (ringBits size) s' := by
  cases act with
  | callPush v =>
      simp only [Spsc.step] at hs
      split at hs
      · rename_i hp
        obtain rfl := Option.some.inj hs
        exact h.prodQuiet (l := s.tailLocal) (.inl rfl) (by rw [hp]; rfl) rfl trivial
      · cases hs
  | callPop =>
      simp only [Spsc.step] at hs
      split at hs
      · rename_i hc
        obtain rfl := Option.some.inj hs
        have hok := h.cons
        rw [hc] at hok
        exact h.consQuiet (l := s.headLocal) (.inl rfl) (by rw [hc]; rfl) rfl hok
      · cases hs
  | prod => exact h.prodStep hsize hs
  | cons => exact h.consStep hsize hs

end NetCpp.Sync.Spsc
