/-
# NetCpp.Compose.Capacity — how many items the ring buffers hold.

`sync::spsc` and `SPSCChannel` size their buffers by `ceil2pow2(size + 1)` and index them through the mask one below.
Both `push`es test the same three indices.  `push` here is that call on its own, on every unsigned type: no consumer
moves the head under it.  From an empty ring it accepts as many items as the mask says, and then none.

The producer's copy of the head may be stale in an empty ring.  It names a slot the tail has not reached yet, so the
tail runs into it, and the copy is refreshed, before the ring is full (`Filled`).  Both machines, run through their
producer alone, do what `push` does.
-/
import NetCpp.Sync.Spsc
import NetCpp.Coro.ChannelFifo

namespace NetCpp.Capacity

open NetCpp.Lib NetCpp.Wheel

variable {V : Type}

/-! ## §1 — `push` without interleavings. -/

/-- The two snapshots as `push` reads and writes them, and the buffer. -/
structure Ring (V : Type) where
  headCtl : Nat
  tailCtl : Nat
  /-- `_tail._local`, the producer's copy of the head -/
  tailLocal : Nat
  buffer : Nat → Option V

/-- `(tail + 1) & _size_mask`. -/
def nTail (T : Unsigned) (mask tail : Nat) : Nat := ((tail + 1) % 2 ^ T.bits) &&& mask

/-- The construction and the store of the tail. -/
def Ring.publish (r : Ring V) (n_tail : Nat) (v : V) : Ring V :=
  { r with buffer := Function.update r.buffer r.tailCtl (some v), tailCtl := n_tail }

/-- `push`: the ring afterwards, and what the call returns. -/
def push (T : Unsigned) (mask : Nat) (r : Ring V) (v : V) : Ring V × Bool :=
  let n_tail := nTail T mask r.tailCtl
  if n_tail ≠ r.tailLocal then (r.publish n_tail v, true)
  else if n_tail ≠ r.headCtl then ({ r with tailLocal := r.headCtl }.publish n_tail v, true)
  else ({ r with tailLocal := r.headCtl }, false)

/-- Consecutive pushes, and what each of them returns. -/
def pushes (T : Unsigned) (mask : Nat) : Ring V → List V → Ring V × List Bool
  | r, [] => (r, [])
  | r, v :: vs =>
      let p := push T mask r v
      let q := pushes T mask p.1 vs
      (q.1, p.2 :: q.2)

/-- An empty ring.  Nothing is said of the copy of the head but that it is an index. -/
structure Ring.Empty (mask : Nat) (r : Ring V) : Prop where
  head : r.headCtl = r.tailCtl
  tail : r.tailCtl ≤ mask
  seen : r.tailLocal ≤ mask

/-! ## §2 — what `push` keeps.

`items` were pushed since the ring was empty at the absolute counter `base`. -/

/-- The copy of the head lies ahead of the tail, at most a whole ring from `base`: there it is the head itself. -/
structure Filled (bits base : Nat) (items : List V) (r : Ring V) : Prop where
  few : items.length < 2 ^ bits
  head : r.headCtl = ringIdx bits base
  tail : r.tailCtl = ringIdx bits (base + items.length)
  seen : ∃ d, items.length < d ∧ d ≤ 2 ^ bits ∧ r.tailLocal = ringIdx bits (base + d)
  held : ∀ k v, items[k]? = some v → r.buffer (ringIdx bits (base + k)) = some v

variable {T : Unsigned} {bits base mask : Nat} {items : List V} {r : Ring V} {v : V}

theorem nTail_eq_mod (hbits : bits ≤ T.bits) (i : Nat) : nTail T (2 ^ bits - 1) i = (i + 1) % 2 ^ bits := by
  rw [nTail, Nat.and_two_pow_sub_one_eq_mod]
  exact Nat.mod_mod_of_dvd _ (Nat.pow_dvd_pow 2 hbits)

theorem nTail_ringIdx (hbits : bits ≤ T.bits) (a : Nat) :
    nTail T (2 ^ bits - 1) (ringIdx bits a) = ringIdx bits (a + 1) := by
  rw [nTail_eq_mod hbits, ringIdx, Nat.mod_add_mod]
  rfl

/-- Less than a whole ring apart, distinct counters have distinct slots. -/
theorem ringIdx_ne {a b : Nat} (hab : a < b) (hlt : b < a + 2 ^ bits) : ringIdx bits a ≠ ringIdx bits b := by
  intro he
  exact Nat.ne_of_lt hab ((ringIdx_eq_iff (Nat.le_of_lt hab) hlt).mp he)

/-- A ring whose head and tail stand at one counter, with a copy of the head less than a whole ring behind. -/
theorem Filled.of_cached {h : Nat} (hhead : r.headCtl = ringIdx bits base) (htail : r.tailCtl = ringIdx bits base)
    (hle : h ≤ base) (hloc : r.tailLocal = ringIdx bits h) (hlt : base < h + 2 ^ bits) : Filled bits base [] r where
  few := Nat.two_pow_pos bits
  head := hhead
  tail := htail
  seen := by
    refine ⟨h + 2 ^ bits - base, ?_, ?_, ?_⟩
    · rw [List.length_nil]
      omega
    · omega
    · rw [show base + (h + 2 ^ bits - base) = h + 2 ^ bits by omega, ringIdx_add_size]
      exact hloc
  held := by
    intro k v hk
    cases hk

/-- A copy of the head beyond the tail is one of the round before. -/
theorem Ring.Empty.filled (h : r.Empty (2 ^ bits - 1)) : ∃ base, Filled bits base [] r := by
  have hpos := Nat.two_pow_pos bits
  have hidx : ∀ i ≤ 2 ^ bits - 1, i = ringIdx bits i := fun i hi => (Nat.mod_eq_of_lt (by omega)).symm
  have htail := hidx _ h.tail
  have hloc := hidx _ h.seen
  have hle := h.tail
  have hseen := h.seen
  by_cases hlt : r.tailCtl < r.tailLocal
  · have hround := (ringIdx_add_size bits r.tailCtl).symm
    exact ⟨r.tailCtl + 2 ^ bits, .of_cached (h.head.trans (htail.trans hround)) (htail.trans hround) (by omega) hloc
      (by omega)⟩
  · exact ⟨r.tailCtl, .of_cached (h.head.trans htail) htail (by omega) hloc (by omega)⟩

/-- A new copy of the head, still ahead of the tail. -/
theorem Filled.look (h : Filled bits base items r) : Filled bits base items { r with tailLocal := r.headCtl } where
  few := h.few
  head := h.head
  tail := h.tail
  seen := ⟨2 ^ bits, h.few, Nat.le_refl _, by rw [ringIdx_add_size]; exact h.head⟩
  held := h.held

/-- One more item, below the copy of the head. -/
theorem Filled.publish (h : Filled bits base items r) (hne : ringIdx bits (base + (items.length + 1)) ≠ r.tailLocal)
    (v : V) : Filled bits base (items ++ [v]) (r.publish (ringIdx bits (base + (items.length + 1))) v) := by
  obtain ⟨d, hd, hle, hloc⟩ := h.seen
  have hlt : items.length + 1 < d := by
    have : d ≠ items.length + 1 := by
      rintro rfl
      exact hne hloc.symm
    omega
  have hlen : (items ++ [v]).length = items.length + 1 := List.length_append
  refine ⟨?_, h.head, ?_, ?_, ?_⟩
  · omega
  · rw [hlen]
    rfl
  · exact ⟨d, by omega, hle, hloc⟩
  · intro k w hk
    show Function.update r.buffer r.tailCtl (some v) (ringIdx bits (base + k)) = some w
    rw [h.tail]
    have hk' : k < items.length + 1 := hlen ▸ (List.getElem?_eq_some_iff.mp hk).1
    by_cases hlast : k = items.length
    · subst hlast
      rw [List.getElem?_concat_length] at hk
      rw [Function.update_self]
      exact hk
    · rw [Function.update_of_ne (ringIdx_ne (by omega) (by omega))]
      apply h.held
      rwa [List.getElem?_append_left (by omega)] at hk

/-- **One push.** It is accepted exactly when the ring holds fewer items than the mask says. -/
theorem Filled.push (h : Filled bits base items r) (hbits : bits ≤ T.bits) (v : V) :
    (items.length < 2 ^ bits - 1 → (push T (2 ^ bits - 1) r v).2 = true ∧
      Filled bits base (items ++ [v]) (push T (2 ^ bits - 1) r v).1) ∧
    (2 ^ bits - 1 ≤ items.length → (push T (2 ^ bits - 1) r v).2 = false ∧
      Filled bits base items (push T (2 ^ bits - 1) r v).1) := by
  have hn : nTail T (2 ^ bits - 1) r.tailCtl = ringIdx bits (base + (items.length + 1)) := by
    rw [h.tail, nTail_ringIdx hbits]
    rfl
  have hfew := h.few
  rw [Capacity.push, hn]
  constructor
  · intro hroom
    by_cases hloc : ringIdx bits (base + (items.length + 1)) = r.tailLocal
    · -- the tail has run into a stale copy
      have hhead : ringIdx bits (base + (items.length + 1)) ≠ r.headCtl := by
        rw [h.head]
        exact (ringIdx_ne (by omega) (by omega)).symm
      rw [if_neg (not_not_intro hloc), if_pos hhead]
      exact ⟨rfl, h.look.publish hhead v⟩
    · rw [if_pos hloc]
      exact ⟨rfl, h.publish hloc v⟩
  · intro hfull
    -- a whole ring from `base`: the copy can only be the head itself
    have hwhole : ringIdx bits (base + (items.length + 1)) = ringIdx bits base := by
      rw [show base + (items.length + 1) = base + 2 ^ bits by omega, ringIdx_add_size]
    obtain ⟨d, hd, hle, hloc⟩ := h.seen
    obtain rfl : d = items.length + 1 := by omega
    rw [if_neg (not_not_intro hloc.symm), if_neg (not_not_intro (hwhole.trans h.head.symm))]
    exact ⟨rfl, h.look⟩

/-- **Consecutive pushes.** As many as there is room for are accepted, then none; the ring holds the accepted ones. -/
theorem Filled.pushes (hbits : bits ≤ T.bits) : ∀ {vs items : List V} {r : Ring V}, Filled bits base items r →
    (pushes T (2 ^ bits - 1) r vs).2 = List.replicate (min vs.length (2 ^ bits - 1 - items.length)) true ++
        List.replicate (vs.length - (2 ^ bits - 1 - items.length)) false ∧
      Filled bits base (items ++ vs.take (2 ^ bits - 1 - items.length)) (pushes T (2 ^ bits - 1) r vs).1 := by
  intro vs
  induction vs with
  | nil =>
    intro items r h
    rw [List.take_nil, List.append_nil]
    exact ⟨by simp [Capacity.pushes], h⟩
  | cons v vs ih =>
    intro items r h
    by_cases hroom : items.length < 2 ^ bits - 1
    · obtain ⟨hok, h'⟩ := (h.push hbits v).1 hroom
      obtain ⟨hres, hfill⟩ := ih h'
      have hlen : 2 ^ bits - 1 - items.length = 2 ^ bits - 1 - (items ++ [v]).length + 1 := by
        rw [List.length_append, List.length_singleton]
        omega
      rw [Capacity.pushes, hok, hres, hlen, List.take_succ_cons, List.length_cons, Nat.add_min_add_right,
        Nat.add_sub_add_right, List.replicate_succ, List.cons_append]
      rw [List.append_assoc, List.singleton_append] at hfill
      exact ⟨rfl, hfill⟩
    · obtain ⟨hok, h'⟩ := (h.push hbits v).2 (by omega)
      obtain ⟨hres, hfill⟩ := ih h'
      have hlen : 2 ^ bits - 1 - items.length = 0 := by omega
      rw [hlen] at hres hfill ⊢
      rw [Capacity.pushes, hok, hres]
      refine ⟨by simp [List.replicate_succ], ?_⟩
      rw [List.take_zero] at hfill ⊢
      exact hfill

/-! ## §3 — the sizes. -/

/-- **`ceil2pow2` sizes the rings.** On every unsigned type and up to half of its range it is the least power of two not
below its argument; the mask it leads to holds the requested size, steps around the ring, and is the number of pushes an
empty ring accepts. -/
theorem ceil2pow2_sizes_rings (V : Type) (T : Unsigned) (fuel : Nat) (hfuel : T.k < fuel) :
    (∀ n, 1 ≤ n → n ≤ 2 ^ (T.bits - 1) →
      ∃ p, T.ceil2pow2 fuel n = some p ∧ IsLeast {p | (∃ j, p = 2 ^ j) ∧ n ≤ p} p) ∧
    ∀ size < 2 ^ (T.bits - 1), ∃ mask, T.sizeMask fuel size = some mask ∧ size ≤ mask ∧
      (∀ i ≤ mask, nTail T mask i = (i + 1) % (mask + 1)) ∧
      ∀ (r : Ring V) (vs : List V), r.Empty mask →
        (pushes T mask r vs).2 = List.replicate (min vs.length mask) true ++ List.replicate (vs.length - mask) false := by
  constructor
  · intro n h1 hn
    exact ⟨_, Unsigned.ceil2pow2_eq hfuel h1 hn, Unsigned.isLeast_two_pow h1⟩
  · intro size hsize
    have hbits : ringBits size ≤ T.bits := by
      have hle : ringBits size ≤ T.bits - 1 := Nat.size_le.mpr hsize
      omega
    have hmask : 2 ^ ringBits size - 1 + 1 = 2 ^ ringBits size := Nat.sub_add_cancel (Nat.two_pow_pos _)
    refine ⟨_, Unsigned.sizeMask_eq hfuel hsize, ?_, ?_, ?_⟩
    · have : size < 2 ^ ringBits size := Nat.lt_size_self size
      omega
    · intro i _
      rw [nTail_eq_mod hbits, hmask]
    · intro r vs hr
      obtain ⟨base, hfill⟩ := hr.filled
      exact (hfill.pushes hbits).1

/-- Room for five on a `std::size_t`: a ring of eight slots, empty at index 3 with a copy of the head that says 6. -/
theorem ceil2pow2_sizes_rings_five :
    (∃ p, sizeT.ceil2pow2 7 5 = some p ∧ IsLeast {p | (∃ j, p = 2 ^ j) ∧ 5 ≤ p} p) ∧
    ∃ mask, sizeT.sizeMask 7 5 = some mask ∧ 5 ≤ mask ∧ nTail sizeT mask 7 = 8 % (mask + 1) ∧
      (pushes sizeT mask ⟨3, 3, 6, fun _ => none⟩ [0, 1, 2, 3, 4, 5, 6, 7, 8]).2 =
        [true, true, true, true, true, true, true, false, false] := by
  obtain ⟨hceil, hring⟩ := ceil2pow2_sizes_rings Nat sizeT 7 (by decide)
  obtain ⟨mask, hmask, hle, hnext, hpush⟩ := hring 5 (by decide)
  obtain rfl : 7 = mask := Option.some.inj ((show sizeT.sizeMask 7 5 = some 7 by decide).symm.trans hmask)
  exact ⟨hceil 5 (by decide) (by decide), 7, hmask, hle, hnext 7 (by decide),
    hpush ⟨3, 3, 6, fun _ => none⟩ _ ⟨rfl, by decide, by decide⟩⟩

/-! ## §4 — the machines.

`push` above is the `push` of `sync::spsc` and of `SPSCChannel` as their machines take it apart, when only the producer
moves. -/

/-- How a machine calls `push` and runs its producer, and the ring it shows. -/
structure Producer (σ α V : Type) where
  step : σ → α → Option σ
  call : V → α
  tick : α
  /-- the producer is outside every call -/
  Idle : σ → Prop
  ring : σ → Ring V
  accepted : σ → List V

namespace Producer

variable {σ α : Type}

/-- One call, run to its end, is `push`. -/
def Refines (P : Producer σ α V) (T : Unsigned) (mask : Nat) : Prop :=
  ∀ s v, P.Idle s → ∃ n t, exec P.step s (P.call v :: List.replicate n P.tick) = some t ∧ P.Idle t ∧
    P.ring t = (Capacity.push T mask (P.ring s) v).1 ∧
    P.accepted t = P.accepted s ++ if (Capacity.push T mask (P.ring s) v).2 then [v] else []

end Producer

/-- The masks of the machines on `std::size_t`. -/
theorem nTail_sizeMask {size : Nat} (hsize : size < 2 ^ 64) (i : Nat) :
    nTail sizeT (sizeMask size) i = ringNext (ringBits size) i := by
  have hbits : ringBits size ≤ sizeT.bits := Nat.size_le.mpr hsize
  rw [sizeMask_eq hsize, nTail_eq_mod hbits, ringNext, Nat.and_two_pow_sub_one_eq_mod]

/-! ### `sync::spsc` -/

section Spsc

open Sync.Spsc

variable {size : Nat}

/-- The live item of a slot. -/
def slotItem : Cell V → Option V
  | .item v => some v
  | _ => none

/-- The producer of `sync::spsc`. -/
def spscProducer (V : Type) (size : Nat) : Producer (Sync.Spsc.State V) (Sync.Spsc.Action V) V where
  step := Sync.Spsc.step size
  call := .callPush
  tick := .prod
  Idle := fun s => s.prod = .idle
  ring := fun s => ⟨s.headCtl, s.tailCtl, s.tailLocal, fun i => slotItem (s.slots i)⟩
  accepted := fun s => s.accepted

theorem slotItem_update (slots : Nat → Cell V) (i : Nat) (v : V) :
    (fun j => slotItem (Function.update slots i (.item v) j)) =
      Function.update (fun j => slotItem (slots j)) i (some v) := by
  funext j
  by_cases hj : j = i
  · subst hj
    simp [slotItem]
  · simp [hj]

/-- `TxTraits::push`, under the mask that `Storage` computes. -/
theorem spsc_refines (hsize : size < 2 ^ 64) (hmask : sizeT.sizeMask 7 size = some mask) :
    (spscProducer V size).Refines sizeT mask := by
  obtain rfl : sizeMask size = mask := Option.some.inj ((Unsigned.sizeMask_sizeT size).symm.trans hmask)
  intro s v hidle
  have hn : next size s.tailCtl = nTail sizeT (sizeMask size) s.tailCtl := by
    rw [nTail_sizeMask hsize, next, sizeMask_eq hsize, ringNext]
  have hp : s.prod = .idle := hidle
  by_cases hloc : next size s.tailCtl = s.tailLocal
  · by_cases hhead : next size s.tailCtl = s.headCtl
    · -- load the tail, load the head, refuse
      refine ⟨2, { s with tailLocal := s.headCtl, prod := .idle }, ?_, rfl, ?_, ?_⟩
      · simp [spscProducer, exec, Sync.Spsc.step, prodStep, hp, hloc, ← hhead]
      · simp [spscProducer, push, ← hn, hloc, ← hhead]
      · simp [spscProducer, push, ← hn, hloc, ← hhead]
    · -- load the head, and find the copy stale
      have hstale : s.tailLocal ≠ s.headCtl := hloc ▸ hhead
      refine ⟨4, { s with
          tailLocal := s.headCtl, slots := Function.update s.slots s.tailCtl (.item v), tailCtl := next size s.tailCtl,
          accepted := s.accepted ++ [v], prod := .idle }, ?_, rfl, ?_, ?_⟩
      · simp [spscProducer, exec, Sync.Spsc.step, prodStep, hp, hloc, hstale]
      · simp [spscProducer, push, ← hn, hloc, hstale, Ring.publish, slotItem_update]
      · simp [spscProducer, push, ← hn, hloc, hstale]
  · refine ⟨3, { s with
        slots := Function.update s.slots s.tailCtl (.item v), tailCtl := next size s.tailCtl,
        accepted := s.accepted ++ [v], prod := .idle }, ?_, rfl, ?_, ?_⟩
    · simp [spscProducer, exec, Sync.Spsc.step, prodStep, hp, hloc]
    · simp [spscProducer, push, ← hn, hloc, Ring.publish, slotItem_update]
    · simp [spscProducer, push, ← hn, hloc]

end Spsc

/-! ### `SPSCChannel` -/

section Channel

open Coro.SPSCChannel

variable {size n : Nat}

/-- The producer of an open `SPSCChannel` that no consumer waits for. -/
def channelProducer (V : Type) (bits n : Nat) : Producer (Coro.SPSCChannel.State V n) (Coro.SPSCChannel.Action V n) V where
  step := Coro.SPSCChannel.step bits
  call := .callPush
  tick := .party ⟨0, n.succ_pos⟩
  Idle := fun s => s.party ⟨0, n.succ_pos⟩ = .idle ∧ s.closed = false ∧ s.callback = none
  ring := fun s => ⟨s.headCtl, s.tailCtl, s.tailLocal, s.slots⟩
  accepted := fun s => s.pushed

/-- `ChannelTraits::push`, under the mask that `SPSCChannelStorage` computes. -/
theorem channel_refines (hsize : size < 2 ^ 64) (hmask : sizeT.sizeMask 7 size = some mask) :
    (channelProducer V (ringBits size) n).Refines sizeT mask := by
  obtain rfl : sizeMask size = mask := Option.some.inj ((Unsigned.sizeMask_sizeT size).symm.trans hmask)
  intro s v hidle
  have hn : ringNext (ringBits size) s.tailCtl = nTail sizeT (sizeMask size) s.tailCtl := (nTail_sizeMask hsize _).symm
  obtain ⟨hp, hclosed, hcb⟩ : s.party 0 = .idle ∧ s.closed = false ∧ s.callback = none := hidle
  by_cases hloc : ringNext (ringBits size) s.tailCtl = s.tailLocal
  · by_cases hhead : ringNext (ringBits size) s.tailCtl = s.headCtl
    · refine ⟨3, { s with tailLocal := s.headCtl }, ?_, ⟨hp, hclosed, hcb⟩, ?_, ?_⟩
      · simp [channelProducer, exec, Coro.SPSCChannel.step, partyStep, State.goto, hp, hclosed, hloc, ← hhead]
      · simp [channelProducer, push, ← hn, hloc, ← hhead]
      · simp [channelProducer, push, ← hn, hloc, ← hhead]
    · have hstale : s.tailLocal ≠ s.headCtl := hloc ▸ hhead
      refine ⟨6, { s with
          tailLocal := s.headCtl, slots := Function.update s.slots s.tailCtl (some v),
          tailCtl := ringNext (ringBits size) s.tailCtl, pushed := s.pushed ++ [v] }, ?_, ⟨hp, hclosed, hcb⟩, ?_, ?_⟩
      · simp [channelProducer, exec, Coro.SPSCChannel.step, partyStep, State.goto, takeCallback, hp, hclosed, hcb, hloc,
          hstale]
      · simp [channelProducer, push, ← hn, hloc, hstale, Ring.publish]
      · simp [channelProducer, push, ← hn, hloc, hstale]
  · refine ⟨5, { s with
        slots := Function.update s.slots s.tailCtl (some v), tailCtl := ringNext (ringBits size) s.tailCtl,
        pushed := s.pushed ++ [v] }, ?_, ⟨hp, hclosed, hcb⟩, ?_, ?_⟩
    · simp [channelProducer, exec, Coro.SPSCChannel.step, partyStep, State.goto, takeCallback, hp, hclosed, hcb, hloc]
    · simp [channelProducer, push, ← hn, hloc, Ring.publish]
    · simp [channelProducer, push, ← hn, hloc]

end Channel

end NetCpp.Capacity
