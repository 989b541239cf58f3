/-
# NetCpp.Dns.Decompress — `DnDecompressor` on hostile input.

`src/net/dns/utils.cpp`.  A message is a list of bytes and a pointer into it is an offset; reading a
byte that is not there, writing index 255 of `buf`, cutting more off `src` than it has, and a failed
`assert` (debug builds) are FAULTS.  Each overload of `decompress` together with the `prepare_rest` it
ends in is ONE loop (`NetCpp.Lib.Loop`) over three program points:

* `own`  — the loop of `decompress` itself, over the name's own bytes,
* `head` — the head of the outer loop of `prepare_rest`,
* `jump` — the head of its inner `while`, after a pointer was followed there.

The difference between `head` and `jump` is visible: at `head` a zero byte ends the name, at `jump` it is
taken for an EMPTY LABEL, and the walk goes on behind it.

`Route` is the walk that the bytes of a message lay out, with the text it spells; it knows nothing of
buffers, spans and loops.  `decompress_total_iff`: decoding is total exactly where a route of at most
255 bytes of text starts.
-/
import NetCpp.Lib.Loop
import NetCpp.Lib.Fallible

namespace NetCpp.Dns

open NetCpp.Lib

/-- The `errc`s of this component. -/
inductive Errc
  | illegalByteSequence
  | invalidArgument
  deriving DecidableEq, Repr

/-- `size_limits::name`. -/
def nameLimit : Nat := 255

/-- `size_limits::label`. -/
def labelLimit : Nat := 63

/-! ## §1 — bytes. -/

/-- `b & 0xc0`. -/
def high (b : UInt8) : UInt8 := b &&& 0xc0

/-- `(b0 & 0x3f) << 8 | b1`. -/
def target (b0 b1 : UInt8) : Nat := (b0.toNat &&& 0x3f) <<< 8 ||| b1.toNat

theorem high_eq_zero_iff (b : UInt8) : high b = 0 ↔ b.toNat < 64 := by
  have key : ∀ n : Fin 256, high (UInt8.ofNat n) = 0 ↔ n.val < 64 := by decide +kernel
  simpa using key ⟨b.toNat, b.toNat_lt⟩

/-- The bytes `[i, i + n)`, when they are all there. -/
def readN (msg : Bytes) (i n : Nat) : Option Bytes :=
  if i + n ≤ msg.length then some ((msg.drop i).take n) else none

theorem readN_eq_some {msg bs : Bytes} {i n : Nat} (h : readN msg i n = some bs) :
    i + n ≤ msg.length ∧ bs = (msg.drop i).take n ∧ bs.length = n := by
  unfold readN at h
  split at h
  · rename_i hle
    obtain rfl : _ = bs := by simpa using h
    exact ⟨hle, rfl, by simp; omega⟩
  · cases h

/-! ## §2 — the loops. -/

inductive Pc
  | own
  | head
  | jump
  deriving DecidableEq, Repr

/-- `ptr`, the text in `buf[0, buf_end)`, and the bytes taken from `src` (or counted in `size`). -/
structure Cursor where
  pc : Pc
  ptr : Nat
  dn : Bytes
  taken : Nat
  deriving DecidableEq, Repr

inductive Outcome
  /-- returned, with an error code or without -/
  | returned (ec : Option Errc) (c : Cursor)
  | fault (f : Fault)
  deriving DecidableEq, Repr

section

variable (msg : Bytes) (debug : Bool)

/-- `assert(ptr - base < 0x4000)`, `memcpy(buf + buf_end, ptr + 1, *ptr)` and the dot behind it. -/
def copyLabel (ptr len : Nat) (dn : Bytes) : Except Fault Bytes :=
  if debug && decide (0x4000 ≤ ptr) then .error .assertion
  else
    match readN msg (ptr + 1) len with
    | none => .error .read
    | some label => if dn.length + len < nameLimit then .ok (dn ++ label ++ [46]) else .error .write

/-- `ptr = base + ((ptr[0] & 0x3f) << 8 | ptr[1])`. -/
def follow (ptr : Nat) (b : UInt8) : Except Fault Nat :=
  match msg[ptr + 1]? with
  | none => .error .read
  | some b1 => .ok (target b b1)

/-- One pass of `prepare_rest`, from the head of either of its loops. -/
def restBody (c : Cursor) : Next Cursor Outcome :=
  match msg[c.ptr]? with
  | none => .stop (.fault .read)
  | some b =>
      if b = 0 ∧ c.pc ≠ .jump then .stop (.returned none c)
      else if high b ≠ 0 then
        if high b ≠ 0xc0 then .stop (.returned (some .illegalByteSequence) c)
        else
          match follow msg c.ptr b with
          | .error f => .stop (.fault f)
          | .ok ptr => .go { c with pc := .jump, ptr := ptr }
      else
        match copyLabel msg debug c.ptr b.toNat c.dn with
        | .error f => .stop (.fault f)
        | .ok dn => .go { c with pc := .head, ptr := c.ptr + b.toNat + 1, dn := dn }

/-- `decompress(const byte *)`: `taken` is `size`. -/
def ptrBody (c : Cursor) : Next Cursor Outcome :=
  match c.pc with
  | .own =>
      match msg[c.ptr]? with
      | none => .stop (.fault .read)
      | some b =>
          if b = 0 then .stop (.returned none { c with taken := c.taken + 1 })
          else if high b ≠ 0 then
            if high b ≠ 0xc0 then .stop (.returned (some .illegalByteSequence) { c with taken := c.taken + 1 })
            else
              match follow msg c.ptr b with
              | .error f => .stop (.fault f)
              | .ok ptr => .go { c with pc := .head, ptr := ptr, taken := c.taken + 2 }
          else
            match copyLabel msg debug c.ptr b.toNat c.dn with
            | .error f => .stop (.fault f)
            | .ok dn =>
                .go { c with ptr := c.ptr + b.toNat + 1, dn := dn, taken := c.taken + 1 + b.toNat }
  | _ => restBody msg debug c

/-- `src = src.subspan(n)`, where `src` reaches from `start` to the end of the message. -/
def subspan (start n : Nat) (c : Cursor) : Except Fault Cursor :=
  if start + c.taken + n ≤ msg.length then .ok { c with taken := c.taken + n } else .error .subspan

/-- `decompress(std::span<const byte> &)`: `taken` is what `src` has lost. -/
def spanBody (start : Nat) (c : Cursor) : Next Cursor Outcome :=
  match c.pc with
  | .own =>
      match subspan msg start 1 c with
      | .error f => .stop (.fault f)
      | .ok c =>
          match msg[c.ptr]? with
          | none => .stop (.fault .read)
          | some b =>
              if b = 0 then .stop (.returned none c)
              else if high b ≠ 0 then
                if high b ≠ 0xc0 then .stop (.returned (some .illegalByteSequence) c)
                else
                  match follow msg c.ptr b with
                  | .error f => .stop (.fault f)
                  | .ok ptr =>
                      match subspan msg start 1 c with
                      | .error f => .stop (.fault f)
                      | .ok c => .go { c with pc := .head, ptr := ptr }
              else
                match copyLabel msg debug c.ptr b.toNat c.dn with
                | .error f => .stop (.fault f)
                | .ok dn =>
                    match subspan msg start b.toNat c with
                    | .error f => .stop (.fault f)
                    | .ok c => .go { c with ptr := c.ptr + b.toNat + 1, dn := dn }
  | _ => restBody msg debug c

end

/-- `buf_end = 0; ptr = src`. -/
def enter (start : Nat) : Cursor := ⟨.own, start, [], 0⟩

/-! ## §3 — the walk a message lays out. -/

/-- What stands at a place of the walk. -/
inductive Sign
  | finish
  | reserved
  | label (text : Bytes)
  | pointer (dest : Nat)
  deriving DecidableEq, Repr

/-- Read the sign at `pos`; `none` when a byte of it lies outside the message. -/
def sign (msg : Bytes) (pc : Pc) (pos : Nat) : Option Sign :=
  msg[pos]?.bind fun b =>
    if b = 0 ∧ pc ≠ .jump then some .finish
    else if high b ≠ 0 then
      if high b ≠ 0xc0 then some .reserved else msg[pos + 1]?.map fun b1 => .pointer (target b b1)
    else (readN msg (pos + 1) b.toNat).map .label

def Pc.afterLabel : Pc → Pc
  | .own => .own
  | _ => .head

def Pc.afterPointer : Pc → Pc
  | .own => .head
  | _ => .jump

/-- Only the name's own bytes count as consumed. -/
def Pc.counted (pc : Pc) (n : Nat) : Nat := if pc = .own then n else 0

/-- **A finite walk inside the message** from `pos`: labels lead past themselves, pointers to their
target; it ends in a zero byte or in a reserved one.  `used` is the length of the part it has in the
name's own bytes, `text` what its labels spell, each followed by a dot. -/
inductive Route (msg : Bytes) (debug : Bool) : Pc → Nat → Nat → Bytes → Option Errc → Prop
  | finish {pc : Pc} {pos : Nat} : sign msg pc pos = some .finish →
      Route msg debug pc pos (pc.counted 1) [] none
  | reserved {pc : Pc} {pos : Nat} : sign msg pc pos = some .reserved →
      Route msg debug pc pos (pc.counted 1) [] (some .illegalByteSequence)
  | label {pc : Pc} {pos used : Nat} {l text : Bytes} {ec : Option Errc} :
      sign msg pc pos = some (.label l) → (debug = true → pos < 0x4000) →
      Route msg debug pc.afterLabel (pos + l.length + 1) used text ec →
      Route msg debug pc pos (pc.counted (1 + l.length) + used) (l ++ [46] ++ text) ec
  | pointer {pc : Pc} {pos dest used : Nat} {text : Bytes} {ec : Option Errc} :
      sign msg pc pos = some (.pointer dest) → Route msg debug pc.afterPointer dest used text ec →
      Route msg debug pc pos (pc.counted 2 + used) text ec

/-! ## §4 — the loops walk the route. -/

/-- **What one pass does with each sign**, for either overload; `Inv` is what the pass needs of the
cursor and keeps. -/
structure Walks (msg : Bytes) (debug : Bool) (body : Cursor → Next Cursor Outcome)
    (Inv : Cursor → Prop) : Prop where
  outside : ∀ c, sign msg c.pc c.ptr = none → ∃ f, body c = .stop (.fault f)
  finish : ∀ c, Inv c → sign msg c.pc c.ptr = some .finish →
    body c = .stop (.returned none { c with taken := c.taken + c.pc.counted 1 })
  reserved : ∀ c, Inv c → sign msg c.pc c.ptr = some .reserved →
    body c = .stop (.returned (some .illegalByteSequence) { c with taken := c.taken + c.pc.counted 1 })
  label : ∀ c l, Inv c → sign msg c.pc c.ptr = some (.label l) → (debug = true → c.ptr < 0x4000) →
    c.dn.length + l.length < nameLimit →
    ∃ c', body c = .go c' ∧ Inv c' ∧
      c' = ⟨c.pc.afterLabel, c.ptr + l.length + 1, c.dn ++ l ++ [46], c.taken + c.pc.counted (1 + l.length)⟩
  refused : ∀ c l, Inv c → sign msg c.pc c.ptr = some (.label l) →
    ¬ ((debug = true → c.ptr < 0x4000) ∧ c.dn.length + l.length < nameLimit) →
    ∃ f, body c = .stop (.fault f)
  pointer : ∀ c dest, Inv c → sign msg c.pc c.ptr = some (.pointer dest) →
    ∃ c', body c = .go c' ∧ Inv c' ∧ c' = ⟨c.pc.afterPointer, dest, c.dn, c.taken + c.pc.counted 2⟩

section Walks

variable {msg : Bytes} {debug : Bool} {body : Cursor → Next Cursor Outcome} {Inv : Cursor → Prop}

/-- A route that fits the buffer is walked to its end. -/
theorem Walks.halts (w : Walks msg debug body Inv) {pc : Pc} {pos used : Nat} {text : Bytes}
    {ec : Option Errc} (h : Route msg debug pc pos used text ec) :
    ∀ c, Inv c → c.pc = pc → c.ptr = pos → c.dn.length + text.length ≤ nameLimit →
      ∃ c', Halts body c (.returned ec c') ∧ c'.dn = c.dn ++ text ∧ c'.taken = c.taken + used := by
  induction h with
  | finish hs =>
      rintro c hi rfl rfl -
      exact ⟨_, .stop (w.finish c hi hs), by simp, rfl⟩
  | reserved hs =>
      rintro c hi rfl rfl -
      exact ⟨_, .stop (w.reserved c hi hs), by simp, rfl⟩
  | label hs hd _ ih =>
      rintro c hi rfl rfl hfit
      simp only [List.length_append, List.length_singleton] at hfit
      obtain ⟨c1, hgo, hi1, rfl⟩ := w.label c _ hi hs hd (by omega)
      obtain ⟨c', hc', hdn, htaken⟩ := ih _ hi1 rfl rfl (by simp; omega)
      exact ⟨c', hc'.go hgo, by simpa using hdn, by simpa [Nat.add_assoc] using htaken⟩
  | pointer hs _ ih =>
      rintro c hi rfl rfl hfit
      obtain ⟨c1, hgo, hi1, rfl⟩ := w.pointer c _ hi hs
      obtain ⟨c', hc', hdn, htaken⟩ := ih _ hi1 rfl rfl hfit
      exact ⟨c', hc'.go hgo, hdn, by simpa [Nat.add_assoc] using htaken⟩

/-- A loop that returns has walked a route that fits the buffer. -/
theorem Walks.route (w : Walks msg debug body Inv) {ec : Option Errc} {c' : Cursor} :
    ∀ (n : Nat) (c : Cursor), Inv c → c.dn.length ≤ nameLimit →
      loop body n c = some (.returned ec c') →
      ∃ used text, Route msg debug c.pc c.ptr used text ec ∧ c.dn.length + text.length ≤ nameLimit := by
  intro n
  induction n with
  | zero => intro c _ _ h; cases h
  | succ n ih =>
      intro c hi hdn h
      simp only [loop] at h
      cases hs : sign msg c.pc c.ptr with
      | none =>
          obtain ⟨f, hf⟩ := w.outside c hs
          rw [hf] at h; cases h
      | some g =>
          cases g with
          | finish =>
              rw [w.finish c hi hs] at h
              cases h
              exact ⟨_, [], .finish hs, by simpa using hdn⟩
          | reserved =>
              rw [w.reserved c hi hs] at h
              cases h
              exact ⟨_, [], .reserved hs, by simpa using hdn⟩
          | label l =>
              by_cases hok : (debug = true → c.ptr < 0x4000) ∧ c.dn.length + l.length < nameLimit
              · obtain ⟨c1, hgo, hi1, rfl⟩ := w.label c l hi hs hok.1 hok.2
                rw [hgo] at h
                obtain ⟨used, text, hr, hfit⟩ := ih _ hi1 (by simp; omega) h
                exact ⟨_, _, .label hs hok.1 hr, by simp at hfit ⊢; omega⟩
              · obtain ⟨f, hf⟩ := w.refused c l hi hs hok
                rw [hf] at h; cases h
          | pointer dest =>
              obtain ⟨c1, hgo, hi1, rfl⟩ := w.pointer c dest hi hs
              rw [hgo] at h
              obtain ⟨used, text, hr, hfit⟩ := ih _ hi1 hdn h
              exact ⟨_, text, .pointer hs hr, hfit⟩

end Walks

section Signs

variable {msg l : Bytes} {pc : Pc} {pos dest : Nat}

theorem high_zero : high 0 = 0 := by decide

theorem ne_zero_of_high {b : UInt8} (h : high b ≠ 0) : b ≠ 0 := by
  rintro rfl; exact h high_zero

theorem sign_none (h : sign msg pc pos = none) :
    msg[pos]? = none ∨ ∃ b, msg[pos]? = some b ∧
      ((high b = 0xc0 ∧ msg[pos + 1]? = none) ∨
        (¬ (b = 0 ∧ pc ≠ .jump) ∧ high b = 0 ∧ readN msg (pos + 1) b.toNat = none)) := by
  unfold sign at h
  cases hb : msg[pos]? with
  | none => exact .inl rfl
  | some b =>
      refine .inr ⟨b, rfl, ?_⟩
      simp only [hb, Option.bind_some] at h
      split at h
      · cases h
      · rename_i h0
        split at h
        · split at h
          · cases h
          · rename_i hp
            exact .inl ⟨by simpa using hp, by simpa using h⟩
        · rename_i hz
          exact .inr ⟨h0, by simpa using hz, by simpa using h⟩

theorem sign_some {g : Sign} (h : sign msg pc pos = some g) :
    ∃ b, msg[pos]? = some b ∧
      match g with
      | .finish => b = 0 ∧ pc ≠ .jump
      | .reserved => high b ≠ 0 ∧ high b ≠ 0xc0
      | .pointer dest => high b = 0xc0 ∧ ∃ b1, msg[pos + 1]? = some b1 ∧ dest = target b b1
      | .label l => ¬ (b = 0 ∧ pc ≠ .jump) ∧ high b = 0 ∧ readN msg (pos + 1) b.toNat = some l := by
  unfold sign at h
  obtain ⟨b, hb, h⟩ := Option.bind_eq_some_iff.mp h
  refine ⟨b, hb, ?_⟩
  split at h
  · rename_i h0
    obtain rfl : _ = g := by simpa using h
    exact h0
  · rename_i h0
    split at h
    · rename_i hz
      split at h
      · rename_i hp
        obtain rfl : _ = g := by simpa using h
        exact ⟨hz, hp⟩
      · rename_i hp
        obtain ⟨b1, hb1, rfl⟩ := Option.map_eq_some_iff.mp h
        exact ⟨by simpa using hp, b1, hb1, rfl⟩
    · rename_i hz
      obtain ⟨l, hl, rfl⟩ := Option.map_eq_some_iff.mp h
      exact ⟨h0, by simpa using hz, hl⟩

end Signs

/-- What `copyLabel` does with a label that is there. -/
theorem copyLabel_of_read {msg l dn : Bytes} {debug : Bool} {ptr len : Nat}
    (h : readN msg (ptr + 1) len = some l) :
    copyLabel msg debug ptr len dn =
      if debug && decide (0x4000 ≤ ptr) then .error .assertion
      else if dn.length + l.length < nameLimit then .ok (dn ++ l ++ [46]) else .error .write := by
  simp only [copyLabel, h, (readN_eq_some h).2.2]

theorem copyLabel_ok {msg l dn : Bytes} {debug : Bool} {ptr len : Nat}
    (h : readN msg (ptr + 1) len = some l) (hd : debug = true → ptr < 0x4000)
    (hfit : dn.length + l.length < nameLimit) :
    copyLabel msg debug ptr len dn = .ok (dn ++ l ++ [46]) := by
  have : (debug && decide (0x4000 ≤ ptr)) = false := by
    cases debug
    · rfl
    · simpa using hd rfl
  rw [copyLabel_of_read h, this, if_neg (by simp), if_pos hfit]

theorem copyLabel_fault {msg l dn : Bytes} {debug : Bool} {ptr len : Nat}
    (h : readN msg (ptr + 1) len = some l)
    (hno : ¬ ((debug = true → ptr < 0x4000) ∧ dn.length + l.length < nameLimit)) :
    ∃ f, copyLabel msg debug ptr len dn = .error f := by
  rw [copyLabel_of_read h]
  by_cases hd : (debug && decide (0x4000 ≤ ptr)) = true
  · exact ⟨_, if_pos hd⟩
  · refine ⟨.write, ?_⟩
    rw [if_neg hd, if_neg]
    intro hfit
    refine hno ⟨fun hdebug => ?_, hfit⟩
    simpa [hdebug] using hd

section Overloads

variable (msg : Bytes) (debug : Bool)

/-- `prepare_rest` walks. -/
theorem walks_restBody : Walks msg debug (restBody msg debug) (fun c => c.pc ≠ .own) where
  outside c hs := by
    rcases sign_none hs with hb | ⟨b, hb, ⟨hp, hb1⟩ | ⟨h0, hz, hr⟩⟩
    · exact ⟨_, by simp only [restBody, hb]; rfl⟩
    · have hne : b ≠ 0 := ne_zero_of_high (by rw [hp]; decide)
      exact ⟨.read, by simp [restBody, hb, hp, hne, follow, hb1]⟩
    · by_cases hd : (debug && decide (0x4000 ≤ c.ptr)) = true
      · exact ⟨.assertion, by simp only [restBody, hb, h0, hz, copyLabel, hd]; simp⟩
      · exact ⟨.read, by simp only [restBody, hb, h0, hz, copyLabel, hd, hr]; simp⟩
  finish c hi hs := by
    obtain ⟨b, hb, rfl, hj⟩ := sign_some hs
    simp [restBody, hb, hj, Pc.counted, hi]
  reserved c hi hs := by
    obtain ⟨b, hb, hz, hp⟩ := sign_some hs
    simp [restBody, hb, ne_zero_of_high hz, hz, hp, Pc.counted, hi]
  label c l hi hs hd hfit := by
    obtain ⟨b, hb, h0, hz, hr⟩ := sign_some hs
    have hlen := (readN_eq_some hr).2.2
    have hpc : c.pc.afterLabel = .head := by cases hc : c.pc <;> simp_all [Pc.afterLabel]
    refine ⟨_, ?_, ?_, rfl⟩
    · simp only [restBody, hb, h0, hz, copyLabel_ok hr hd hfit, hpc, Pc.counted, hi, hlen]
      simp
    · simp [hpc]
  refused c l hi hs hno := by
    obtain ⟨b, hb, h0, hz, hr⟩ := sign_some hs
    obtain ⟨f, hf⟩ := copyLabel_fault hr hno
    exact ⟨f, by simp only [restBody, hb, h0, hz, hf]; simp⟩
  pointer c dest hi hs := by
    obtain ⟨b, hb, hp, b1, hb1, rfl⟩ := sign_some hs
    have hne : b ≠ 0 := ne_zero_of_high (by rw [hp]; decide)
    have hpc : c.pc.afterPointer = .jump := by cases hc : c.pc <;> simp_all [Pc.afterPointer]
    refine ⟨_, ?_, ?_, rfl⟩
    · simp [restBody, hb, hp, hne, follow, hb1, hpc, Pc.counted, hi]
    · simp [hpc]

/-- A loop that is `prepare_rest` outside `own` walks when it does so at `own`. -/
theorem walks_of_own {body : Cursor → Next Cursor Outcome} {Inv : Cursor → Prop}
    (hrest : ∀ c, c.pc ≠ .own → body c = restBody msg debug c)
    (hinv : ∀ c, c.pc ≠ .own → Inv c)
    (outside : ∀ c, c.pc = .own → sign msg c.pc c.ptr = none → ∃ f, body c = .stop (.fault f))
    (finish : ∀ c, Inv c → c.pc = .own → msg[c.ptr]? = some 0 →
      body c = .stop (.returned none { c with taken := c.taken + 1 }))
    (reserved : ∀ c b, Inv c → c.pc = .own → msg[c.ptr]? = some b → high b ≠ 0 → high b ≠ 0xc0 →
      body c = .stop (.returned (some .illegalByteSequence) { c with taken := c.taken + 1 }))
    (label : ∀ c b l, Inv c → c.pc = .own → msg[c.ptr]? = some b → b ≠ 0 → high b = 0 →
      readN msg (c.ptr + 1) b.toNat = some l →
      (∀ dn, copyLabel msg debug c.ptr b.toNat c.dn = .ok dn →
        body c = .go ⟨.own, c.ptr + l.length + 1, dn, c.taken + (1 + l.length)⟩ ∧
          Inv ⟨.own, c.ptr + l.length + 1, dn, c.taken + (1 + l.length)⟩) ∧
      ∀ f, copyLabel msg debug c.ptr b.toNat c.dn = .error f → body c = .stop (.fault f))
    (pointer : ∀ c b b1, Inv c → c.pc = .own → msg[c.ptr]? = some b → high b = 0xc0 →
      msg[c.ptr + 1]? = some b1 → body c = .go ⟨.head, target b b1, c.dn, c.taken + 2⟩) :
    Walks msg debug body Inv where
  outside c hs := by
    by_cases hc : c.pc = .own
    · exact outside c hc hs
    · rw [hrest c hc]; exact (walks_restBody msg debug).outside c hs
  finish c hi hs := by
    by_cases hc : c.pc = .own
    · obtain ⟨b, hb, rfl, -⟩ := sign_some hs
      simpa [Pc.counted, hc] using finish c hi hc hb
    · rw [hrest c hc]; exact (walks_restBody msg debug).finish c hc hs
  reserved c hi hs := by
    by_cases hc : c.pc = .own
    · obtain ⟨b, hb, hz, hp⟩ := sign_some hs
      simpa [Pc.counted, hc] using reserved c b hi hc hb hz hp
    · rw [hrest c hc]; exact (walks_restBody msg debug).reserved c hc hs
  label c l hi hs hd hfit := by
    by_cases hc : c.pc = .own
    · obtain ⟨b, hb, h0, hz, hr⟩ := sign_some hs
      have hne : b ≠ 0 := fun hb0 => h0 ⟨hb0, by simp [hc]⟩
      obtain ⟨hgo, hi'⟩ := (label c b l hi hc hb hne hz hr).1 _ (copyLabel_ok hr hd hfit)
      exact ⟨_, hgo, hi', by simp [hc, Pc.afterLabel, Pc.counted]⟩
    · obtain ⟨c', hgo, hc', he⟩ := (walks_restBody msg debug).label c l hc hs hd hfit
      exact ⟨c', by rw [hrest c hc]; exact hgo, hinv c' hc', he⟩
  refused c l hi hs hno := by
    by_cases hc : c.pc = .own
    · obtain ⟨b, hb, h0, hz, hr⟩ := sign_some hs
      have hne : b ≠ 0 := fun hb0 => h0 ⟨hb0, by simp [hc]⟩
      obtain ⟨f, hf⟩ := copyLabel_fault hr hno
      exact ⟨f, (label c b l hi hc hb hne hz hr).2 f hf⟩
    · rw [hrest c hc]; exact (walks_restBody msg debug).refused c l hc hs hno
  pointer c dest hi hs := by
    by_cases hc : c.pc = .own
    · obtain ⟨b, hb, hp, b1, hb1, rfl⟩ := sign_some hs
      exact ⟨_, pointer c b b1 hi hc hb hp hb1, hinv _ (by simp), by simp [hc, Pc.afterPointer, Pc.counted]⟩
    · obtain ⟨c', hgo, hc', he⟩ := (walks_restBody msg debug).pointer c dest hc hs
      exact ⟨c', by rw [hrest c hc]; exact hgo, hinv c' hc', he⟩

theorem walks_ptrBody : Walks msg debug (ptrBody msg debug) (fun _ => True) := by
  refine walks_of_own msg debug ?_ ?_ ?_ ?_ ?_ ?_ ?_
  · intro c hc
    unfold ptrBody
    split
    · contradiction
    · rfl
  · intro c _; trivial
  · intro c hc hs
    rcases sign_none hs with hb | ⟨b, hb, ⟨hp, hb1⟩ | ⟨h0, hz, hr⟩⟩
    · exact ⟨.read, by simp [ptrBody, hc, hb]⟩
    · have hne : b ≠ 0 := ne_zero_of_high (by rw [hp]; decide)
      exact ⟨.read, by simp [ptrBody, hc, hb, hp, hne, follow, hb1]⟩
    · have hne : b ≠ 0 := fun hb0 => h0 ⟨hb0, by simp [hc]⟩
      by_cases hd : (debug && decide (0x4000 ≤ c.ptr)) = true
      · exact ⟨.assertion, by simp only [ptrBody, hc, hb, hne, hz, copyLabel, hd]; simp⟩
      · exact ⟨.read, by simp only [ptrBody, hc, hb, hne, hz, copyLabel, hd, hr]; simp⟩
  · intro c _ hc hb
    simp [ptrBody, hc, hb]
  · intro c b _ hc hb hz hp
    simp [ptrBody, hc, hb, ne_zero_of_high hz, hz, hp]
  · intro c b l _ hc hb hne hz hr
    have hlen := (readN_eq_some hr).2.2
    refine ⟨fun dn hdn => ⟨?_, trivial⟩, fun f hf => ?_⟩
    · simp [ptrBody, hc, hb, hne, hz, hdn, hlen, Nat.add_assoc]
    · simp [ptrBody, hc, hb, hne, hz, hf]
  · intro c b b1 _ hc hb hp hb1
    have hne : b ≠ 0 := ne_zero_of_high (by rw [hp]; decide)
    simp [ptrBody, hc, hb, hp, hne, follow, hb1]

/-- In the name's own bytes, `src` begins at `ptr`. -/
def SpanInv (start : Nat) (c : Cursor) : Prop := c.pc = .own → start + c.taken = c.ptr

theorem lt_of_getElem? {b : UInt8} {i : Nat} (h : msg[i]? = some b) : i < msg.length := by
  obtain ⟨hi, -⟩ := List.getElem?_eq_some_iff.mp h
  exact hi

theorem subspan_ok {start n : Nat} {c : Cursor} (h : start + c.taken + n ≤ msg.length) :
    subspan msg start n c = .ok { c with taken := c.taken + n } := if_pos h

theorem walks_spanBody (start : Nat) : Walks msg debug (spanBody msg debug start) (SpanInv start) := by
  -- cutting one byte off `src` never fails where `*ptr` is in the message
  have hsub : ∀ c : Cursor, SpanInv start c → c.pc = .own → ∀ b, msg[c.ptr]? = some b →
      subspan msg start 1 c = .ok { c with taken := c.taken + 1 } := by
    intro c hi hc b hb
    have := hi hc
    have := lt_of_getElem? msg hb
    exact subspan_ok msg (by omega)
  refine walks_of_own msg debug ?_ ?_ ?_ ?_ ?_ ?_ ?_
  · intro c hc
    unfold spanBody
    split
    · contradiction
    · rfl
  · intro c hc ho; exact absurd ho hc
  · intro c hc hs
    by_cases h1 : start + c.taken + 1 ≤ msg.length
    · have h1 := subspan_ok msg h1
      rcases sign_none hs with hb | ⟨b, hb, ⟨hp, hb1⟩ | ⟨h0, hz, hr⟩⟩
      · exact ⟨.read, by simp [spanBody, hc, h1, hb]⟩
      · have hne : b ≠ 0 := ne_zero_of_high (by rw [hp]; decide)
        exact ⟨.read, by simp [spanBody, hc, h1, hb, hp, hne, follow, hb1]⟩
      · have hne : b ≠ 0 := fun hb0 => h0 ⟨hb0, by simp [hc]⟩
        by_cases hd : (debug && decide (0x4000 ≤ c.ptr)) = true
        · exact ⟨.assertion, by simp only [spanBody, hc, h1, hb, hne, hz, copyLabel, hd]; simp⟩
        · exact ⟨.read, by simp only [spanBody, hc, h1, hb, hne, hz, copyLabel, hd, hr]; simp⟩
    · exact ⟨.subspan, by simp [spanBody, hc, subspan, h1]⟩
  · intro c hi hc hb
    simp [spanBody, hc, hsub c hi hc _ hb, hb]
  · intro c b hi hc hb hz hp
    simp [spanBody, hc, hsub c hi hc _ hb, hb, ne_zero_of_high hz, hz, hp]
  · intro c b l hi hc hb hne hz hr
    obtain ⟨hle, -, hlen⟩ := readN_eq_some hr
    have hpos := hi hc
    have hsub2 : subspan msg start b.toNat { c with taken := c.taken + 1 } =
        .ok { c with taken := c.taken + 1 + b.toNat } := subspan_ok msg (by simp; omega)
    refine ⟨fun dn hdn => ⟨?_, fun _ => ?_⟩, fun f hf => ?_⟩
    · rw [hc] at hsub2
      simp [spanBody, hc, hsub c hi hc _ hb, hb, hne, hz, hdn, hsub2, hlen, Nat.add_assoc]
    · simp only; omega
    · simp [spanBody, hc, hsub c hi hc _ hb, hb, hne, hz, hf]
  · intro c b b1 hi hc hb hp hb1
    have hne : b ≠ 0 := ne_zero_of_high (by rw [hp]; decide)
    have hpos := hi hc
    have hlt := lt_of_getElem? msg hb1
    have hsub2 : subspan msg start 1 { c with taken := c.taken + 1 } =
        .ok { c with taken := c.taken + 2 } := subspan_ok msg (by simp; omega)
    rw [hc] at hsub2
    simp [spanBody, hc, hsub c hi hc _ hb, hb, hp, hne, follow, hb1, hsub2]

end Overloads

/-! ## §5 — totality. -/

/-- **Decoding at `start` is total**: both overloads stop after finitely many passes and return. -/
def DecodesTotally (msg : Bytes) (debug : Bool) (start : Nat) : Prop :=
  (∃ ec c, Halts (spanBody msg debug start) (enter start) (.returned ec c)) ∧
    ∃ ec c, Halts (ptrBody msg debug) (enter start) (.returned ec c)

/-- **Decoding is total exactly where a finite walk inside the message starts** whose labels spell, with
a dot each, at most 255 bytes. -/
theorem decompress_total_iff (msg : Bytes) (debug : Bool) (start : Nat) :
    DecodesTotally msg debug start ↔
      ∃ used text ec, Route msg debug .own start used text ec ∧ text.length ≤ nameLimit := by
  constructor
  · rintro ⟨-, ec, c, n, hn⟩
    obtain ⟨used, text, hr, hfit⟩ := (walks_ptrBody msg debug).route n (enter start) trivial
      (Nat.zero_le _) hn
    exact ⟨used, text, ec, hr, by simpa [enter] using hfit⟩
  · rintro ⟨used, text, ec, hr, hfit⟩
    have hfit' : (enter start).dn.length + text.length ≤ nameLimit := by simpa [enter] using hfit
    obtain ⟨c, hc, -⟩ := (walks_spanBody msg debug start).halts hr (enter start) (fun _ => rfl) rfl rfl
      hfit'
    obtain ⟨c', hc', -⟩ := (walks_ptrBody msg debug).halts hr (enter start) trivial rfl rfl hfit'
    exact ⟨⟨ec, c, hc⟩, ⟨ec, c', hc'⟩⟩

/-- **The pointer to itself.** `c0 00` at the start of a message is followed for ever. -/
theorem decompress_not_total :
    ¬ ∀ (msg : Bytes) (debug : Bool) (start : Nat), start < msg.length →
      DecodesTotally msg debug start := by
  intro h
  obtain ⟨-, ec, c, hc⟩ := h [0xc0, 0] true 0 (by decide)
  refine not_halts_of_invariant (fun c => c.ptr = 0) ?_ rfl _ hc
  rintro ⟨pc, ptr, dn, taken⟩ rfl
  cases pc <;> exact ⟨_, rfl, rfl⟩

end NetCpp.Dns
