/-
# NetCpp.Dns.Overloads — the two overloads of `decompress` on one object.

`include/xsl/net/dns/utils.h` and `src/net/dns/utils.cpp`.  A `DnDecompressor` keeps its buffer from call to call: a
call sets `buf_end` to zero and copies label after label over what earlier names have left.  `withBuf` is a pass of
`NetCpp.Dns.Decompress` with this buffer.  What the loop calls the text so far is what `dn()` shows, whatever stood in
the buffer before (`Walks.withBuf`), so that the name an object shows depends on the message alone.

The overloads are two copies of one loop that count differently: one cuts the bytes off the span before it looks at
them, the other adds them up.  Both walk the same `Route`, and `overloads_agree` compares what they come back with.
-/
import NetCpp.Dns.Decompress
import NetCpp.Lib.Memory

namespace NetCpp.Dns

open NetCpp.Lib

/-! ## §1 — the object. -/

/-- `base` is the message, which the passes are given. -/
structure DnDecompressor where
  buf : Block
  bufEnd : Nat

/-- `dn()` -/
def DnDecompressor.dn (o : DnDecompressor) : Bytes := slice o.buf 0 o.bufEnd

/-- `needed()` -/
def DnDecompressor.needed (o : DnDecompressor) : Nat := o.bufEnd

/-- A label and its dot are copied to `buf + buf_end`. -/
def DnDecompressor.copy (o : DnDecompressor) (bs : Bytes) : DnDecompressor :=
  ⟨write o.buf o.bufEnd bs, o.bufEnd + bs.length⟩

/-- A pass with the buffer: what the text grows by is what the pass has copied. -/
def withBuf (body : Cursor → Next Cursor Outcome) (s : Cursor × DnDecompressor) :
    Next (Cursor × DnDecompressor) (Outcome × DnDecompressor) :=
  match body s.1 with
  | .go c => .go (c, s.2.copy (c.dn.drop s.1.dn.length))
  | .stop r => .stop (r, s.2)

/-- **A call** on the object `o` for the name at `start`: it comes back with `ec` and leaves the object `o'`; `size` is
what the span has lost, or what is returned. -/
def Call (body : Cursor → Next Cursor Outcome) (start : Nat) (o : DnDecompressor) (ec : Option Errc) (size : Nat)
    (o' : DnDecompressor) : Prop :=
  ∃ c, Halts (withBuf body) (enter start, { o with bufEnd := 0 }) (.returned ec c, o') ∧ c.taken = size

theorem DnDecompressor.dn_copy (o : DnDecompressor) (bs : Bytes) : (o.copy bs).dn = o.dn ++ bs := by
  have happend := slice_write_append o.buf 0 o.bufEnd bs
  rw [Nat.zero_add] at happend
  exact happend

theorem DnDecompressor.dn_reset (o : DnDecompressor) : ({ o with bufEnd := 0 } : DnDecompressor).dn = [] :=
  slice_zero o.buf 0

/-- What `needed()` tells is the size of the name. -/
theorem DnDecompressor.needed_eq (o : DnDecompressor) : o.needed = o.dn.length := by
  rw [dn, length_slice, needed]

/-! ## §2 — a loop with its buffer. -/

section Walks

variable {msg : Bytes} {debug : Bool} {body : Cursor → Next Cursor Outcome} {Inv : Cursor → Prop} {c c' : Cursor}

/-- A pass that goes on has kept the text and added to it. -/
theorem Walks.go (w : Walks msg debug body Inv) (hi : Inv c) (h : body c = .go c') : Inv c' ∧ c.dn <+: c'.dn := by
  cases hs : sign msg c.pc c.ptr with
  | none =>
    obtain ⟨f, hf⟩ := w.outside c hs
    rw [hf] at h
    cases h
  | some g =>
    cases g with
    | finish =>
      rw [w.finish c hi hs] at h
      cases h
    | reserved =>
      rw [w.reserved c hi hs] at h
      cases h
    | label l =>
      by_cases hok : (debug = true → c.ptr < 0x4000) ∧ c.dn.length + l.length < nameLimit
      · obtain ⟨d, hgo, hd, hdn⟩ := w.label c l hi hs hok.1 hok.2
        obtain rfl : d = c' := by
          rw [hgo] at h
          exact Next.go.inj h
        refine ⟨hd, ?_⟩
        rw [hdn, List.append_assoc]
        exact List.prefix_append _ _
      · obtain ⟨f, hf⟩ := w.refused c l hi hs hok
        rw [hf] at h
        cases h
    | pointer dest =>
      obtain ⟨d, hgo, hd, hdn⟩ := w.pointer c dest hi hs
      obtain rfl : d = c' := by
        rw [hgo] at h
        exact Next.go.inj h
      refine ⟨hd, ?_⟩
      rw [hdn]

/-- A pass that returns adds nothing to the text. -/
theorem Walks.returned {ec : Option Errc} (w : Walks msg debug body Inv) (hi : Inv c)
    (h : body c = .stop (.returned ec c')) : c'.dn = c.dn := by
  cases hs : sign msg c.pc c.ptr with
  | none =>
    obtain ⟨f, hf⟩ := w.outside c hs
    rw [hf] at h
    cases h
  | some g =>
    cases g with
    | finish =>
      rw [w.finish c hi hs] at h
      cases h
      rfl
    | reserved =>
      rw [w.reserved c hi hs] at h
      cases h
      rfl
    | label l =>
      by_cases hok : (debug = true → c.ptr < 0x4000) ∧ c.dn.length + l.length < nameLimit
      · obtain ⟨d, hgo, -, -⟩ := w.label c l hi hs hok.1 hok.2
        rw [hgo] at h
        cases h
      · obtain ⟨f, hf⟩ := w.refused c l hi hs hok
        rw [hf] at h
        cases h
    | pointer dest =>
      obtain ⟨d, hgo, -, -⟩ := w.pointer c dest hi hs
      rw [hgo] at h
      cases h

/-- **The buffer shows the text**: a loop that returns does so with its buffer, and `dn()` is what it has read. -/
theorem Walks.withBuf (w : Walks msg debug body Inv) {ec : Option Errc} {n : Nat} {o : DnDecompressor} (hi : Inv c)
    (hdn : o.dn = c.dn) (h : loop body n c = some (.returned ec c')) :
    ∃ o', loop (withBuf body) n (c, o) = some (.returned ec c', o') ∧ o'.dn = c'.dn := by
  induction n generalizing c o with
  | zero => cases h
  | succ n ih =>
    rw [loop] at h
    cases hb : body c with
    | stop r =>
      rw [hb] at h
      obtain rfl : r = .returned ec c' := Option.some.inj h
      refine ⟨o, by simp [loop, Dns.withBuf, hb], ?_⟩
      rw [hdn, w.returned hi hb]
    | go d =>
      rw [hb] at h
      obtain ⟨hd, hgrown⟩ := w.go hi hb
      obtain ⟨more, hmore⟩ := hgrown
      have hcopy : (o.copy (d.dn.drop c.dn.length)).dn = d.dn := by
        rw [o.dn_copy, hdn, ← hmore, List.drop_left]
      obtain ⟨o', hloop, ho'⟩ := ih hd hcopy h
      exact ⟨o', by simpa [loop, Dns.withBuf, hb] using hloop, ho'⟩

/-- The buffer has no say in what the loop does. -/
theorem loop_of_withBuf {ec : Option Errc} {n : Nat} {o o' : DnDecompressor}
    (h : loop (Dns.withBuf body) n (c, o) = some (.returned ec c', o')) : loop body n c = some (.returned ec c') := by
  induction n generalizing c o with
  | zero => cases h
  | succ n ih =>
    rw [loop, Dns.withBuf] at h
    rw [loop]
    cases hb : body c with
    | stop r =>
      rw [hb] at h
      exact congrArg some (Prod.mk.inj (Option.some.inj h)).1
    | go d =>
      rw [hb] at h
      exact ih h

/-- A call that comes back has walked a route. -/
theorem Walks.route_of_call (w : Walks msg debug body Inv) {start size : Nat} {o o' : DnDecompressor} {ec : Option Errc}
    (hi : Inv (enter start)) (h : Call body start o ec size o') :
    ∃ used text, Route msg debug .own start used text ec ∧ text.length ≤ nameLimit := by
  obtain ⟨c, ⟨n, hn⟩, -⟩ := h
  obtain ⟨used, text, hroute, hfit⟩ := w.route n (enter start) hi (Nat.zero_le _) (loop_of_withBuf hn)
  exact ⟨used, text, hroute, by simpa [enter] using hfit⟩

/-- A call for a name that a route lays out. -/
theorem Walks.call (w : Walks msg debug body Inv) {start used : Nat} {text : Bytes} {ec : Option Errc}
    (o : DnDecompressor) (hi : Inv (enter start)) (h : Route msg debug .own start used text ec)
    (hfit : text.length ≤ nameLimit) : ∃ o', Call body start o ec used o' ∧ o'.dn = text := by
  obtain ⟨c, ⟨n, hn⟩, hdn, htaken⟩ := w.halts h (enter start) hi rfl rfl (by simpa [enter] using hfit)
  obtain ⟨o', hloop, ho'⟩ := w.withBuf hi o.dn_reset hn
  refine ⟨o', ⟨c, ⟨n, hloop⟩, ?_⟩, ?_⟩
  · simpa [enter] using htaken
  · simpa [enter, hdn] using ho'

end Walks

/-! ## §3 — the overloads. -/

/-- A call has one outcome. -/
theorem Call.unique {body : Cursor → Next Cursor Outcome} {start size size' : Nat} {o o₁ o₂ : DnDecompressor}
    {ec ec' : Option Errc} (h : Call body start o ec size o₁) (h' : Call body start o ec' size' o₂) :
    ec = ec' ∧ size = size' ∧ o₁ = o₂ := by
  obtain ⟨c, ⟨n, hn⟩, rfl⟩ := h
  obtain ⟨c', ⟨m, hm⟩, rfl⟩ := h'
  have hn' := loop_mono (le_max_left n m) hn
  rw [loop_mono (le_max_right n m) hm] at hn'
  obtain ⟨⟨rfl, rfl⟩, rfl⟩ : (ec' = ec ∧ c' = c) ∧ o₂ = o₁ := by simpa using hn'
  exact ⟨rfl, rfl, rfl⟩

/-- **Decoding at `start` stays inside the message**, ends after finitely many pointers and needs at most 255 bytes. -/
def Decodable (msg : Bytes) (debug : Bool) (start : Nat) : Prop :=
  ∃ used text ec, Route msg debug .own start used text ec ∧ text.length ≤ nameLimit

/-- Each overload is called on an object of its own.  Where decoding is possible both come back, and neither does where
the other does not; when they do, it is with the same error or with none, and then they show the same name and the span
has lost as many bytes as the other one returns. -/
structure OverloadsAgree (msg : Bytes) (debug : Bool) (start : Nat) (o₁ o₂ : DnDecompressor) : Prop where
  decodes : Decodable msg debug start → ∃ ec size o, Call (spanBody msg debug start) start o₁ ec size o
  both : (∃ ec size o, Call (spanBody msg debug start) start o₁ ec size o) ↔
    ∃ ec size o, Call (ptrBody msg debug) start o₂ ec size o
  same : ∀ ec₁ ec₂ size₁ size₂ o o', Call (spanBody msg debug start) start o₁ ec₁ size₁ o →
    Call (ptrBody msg debug) start o₂ ec₂ size₂ o' →
    ec₁ = ec₂ ∧ (ec₁ = none → o.dn = o'.dn ∧ o.needed = o'.needed ∧ size₁ = size₂)

/-- **The two overloads agree**, whatever names the objects have decoded before. -/
theorem overloads_agree (msg : Bytes) (debug : Bool) (start : Nat) (o₁ o₂ : DnDecompressor) :
    OverloadsAgree msg debug start o₁ o₂ := by
  have hwspan := walks_spanBody msg debug start
  have hwptr := walks_ptrBody msg debug
  constructor
  · rintro ⟨used, text, ec, hroute, hfit⟩
    obtain ⟨o, hcall, -⟩ := hwspan.call o₁ (fun _ => rfl) hroute hfit
    exact ⟨_, _, _, hcall⟩
  · constructor
    · rintro ⟨ec, size, o, hcall⟩
      obtain ⟨used, text, hroute, hfit⟩ := hwspan.route_of_call (fun _ => rfl) hcall
      obtain ⟨o', hcall', -⟩ := hwptr.call o₂ trivial hroute hfit
      exact ⟨_, _, _, hcall'⟩
    · rintro ⟨ec, size, o, hcall⟩
      obtain ⟨used, text, hroute, hfit⟩ := hwptr.route_of_call trivial hcall
      obtain ⟨o', hcall', -⟩ := hwspan.call o₁ (fun _ => rfl) hroute hfit
      exact ⟨_, _, _, hcall'⟩
  · intro ec₁ ec₂ size₁ size₂ o o' h₁ h₂
    -- the route of the one is walked by both
    obtain ⟨used, text, hroute, hfit⟩ := hwspan.route_of_call (fun _ => rfl) h₁
    obtain ⟨p, hspan, hp⟩ := hwspan.call o₁ (fun _ => rfl) hroute hfit
    obtain ⟨q, hptr, hq⟩ := hwptr.call o₂ trivial hroute hfit
    obtain ⟨-, rfl, rfl⟩ := h₁.unique hspan
    obtain ⟨rfl, rfl, rfl⟩ := h₂.unique hptr
    refine ⟨rfl, fun _ => ⟨hp.trans hq.symm, ?_, rfl⟩⟩
    rw [DnDecompressor.needed_eq, DnDecompressor.needed_eq, hp, hq]

end NetCpp.Dns
