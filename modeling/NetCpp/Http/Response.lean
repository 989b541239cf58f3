/-
# NetCpp.Http.Response — how a response is sent.

`ResponseBuilder` of `include/xsl/asio/http/response.h`.  The head is rendered into a buffer of 1024 bytes in the
coroutine frame, or into a string when it does not fit: the SAME bytes either way (`headIn_eq`).  A string body goes out
with the head, in one `writev` when the device has it.

A device takes some of the bytes of a write and reports success or an error; success means all of them.
-/
import NetCpp.Http.Render

namespace NetCpp.Http

open NetCpp.Lib

/-! ## §1 — sending. -/

/-- What a device does with the writes of one response. -/
structure Device where
  /-- whether it has `writev` -/
  vectored : Bool
  /-- how many bytes of the `i`-th write go out, and whether it reports success -/
  accept : Nat → Bytes → Nat × Bool
  full : ∀ i data, (accept i data).2 = true → (accept i data).1 = data.length

/-- `awd->write(data)`: the bytes that went out, and success. -/
def Device.write (awd : Device) (i : Nat) (data : Bytes) : Bytes × Bool :=
  (data.take (awd.accept i data).1, (awd.accept i data).2)

theorem Device.write_of_ok {awd : Device} {i : Nat} {data : Bytes} (h : (awd.write i data).2 = true) :
    (awd.write i data).1 = data := by
  show data.take _ = data
  rw [awd.full i data h, List.take_length]

/-- A body that writes itself. -/
abbrev Stream := Device → Bytes × Bool

structure ResponseBuilder where
  part : ResponsePart
  body : Option Stream := none
  rawBody : Bytes := []

namespace ResponseBuilder

def setHeader (key value : Bytes) (r : ResponseBuilder) : ResponseBuilder :=
  { r with part := { r.part with headers := r.part.headers.emplace key value } }

/-- `head` in `sendto`, with what the frame's buffer holds before: rendered there, else into a string. -/
def headIn (frame : Block) (r : ResponseBuilder) : Except Fault Bytes := do
  let rendered ← r.part.renderInto 1024 frame
  if rendered.2 = [] then r.part.toString else return rendered.2

/-- What the buffer holds before makes no difference (`headIn_eq`). -/
def head (r : ResponseBuilder) : Except Fault Bytes := r.headIn fun _ => 0

/-- `sendto`: the bytes that went out, and success. -/
def sendto (r : ResponseBuilder) (awd : Device) : Except Fault (Bytes × Bool) := do
  let head ← r.head
  if r.rawBody ≠ [] then
    if awd.vectored then return awd.write 0 (head ++ r.rawBody)
    let res := awd.write 0 head
    if !res.2 then return res
    let bodyRes := awd.write 1 r.rawBody
    return (res.1 ++ bodyRes.1, bodyRes.2)
  let res := awd.write 0 head
  if !res.2 then return res
  match r.body with
  | none => return res
  | some body =>
      let bodyRes := body awd
      return (res.1 ++ bodyRes.1, bodyRes.2)

/-- **The frame's buffer makes no difference**: the head sent is `to_string()`. -/
theorem headIn_eq (frame : Block) (r : ResponseBuilder) : r.headIn frame = r.part.toString := by
  obtain ⟨head, rendered, hhead, hrender, -, -⟩ := r.part.renderInto_spec 1024 frame
  rw [headIn, hrender, hhead]
  show (if (if head.length ≤ 1024 then head else []) = [] then Except.ok head else _) = _
  by_cases hfit : head.length ≤ 1024
  · rw [if_pos hfit]
    split <;> rfl
  · rw [if_neg hfit, if_pos rfl]

theorem head_eq (r : ResponseBuilder) : r.head = r.part.toString := r.headIn_eq _

/-- **What a response without a self-writing body sends**: its head and its string body, when the device
reports success. -/
theorem sendto_ok {r : ResponseBuilder} {awd : Device} {sent : Bytes × Bool} (hbody : r.body = none)
    (hsend : r.sendto awd = .ok sent) (hok : sent.2 = true) :
    ∃ head, r.part.toString = .ok head ∧ sent.1 = head ++ r.rawBody := by
  obtain ⟨head, hhead⟩ := r.part.exists_toString
  refine ⟨head, hhead, ?_⟩
  simp only [sendto, head_eq, hhead, hbody, pure, Except.pure, bind, Except.bind] at hsend
  by_cases hraw : r.rawBody = []
  · simp only [hraw, ne_eq, not_true_eq_false, if_false] at hsend
    have hs : sent = awd.write 0 head := by
      split at hsend <;> exact (Except.ok.inj hsend).symm
    rw [hs] at hok ⊢
    rw [Device.write_of_ok hok, hraw, List.append_nil]
  · simp only [ne_eq, hraw, not_false_eq_true, if_true] at hsend
    split at hsend
    · obtain rfl := Except.ok.inj hsend
      exact Device.write_of_ok hok
    · split at hsend
      · rename_i hfail
        obtain rfl := Except.ok.inj hsend
        simp [hok] at hfail
      · rename_i hfail
        obtain rfl := Except.ok.inj hsend
        show _ ++ _ = _
        rw [Device.write_of_ok (by simpa using hfail), Device.write_of_ok hok]

end ResponseBuilder

/-! ## §2 — the head goes out. -/

namespace ResponseBuilder

/-- What goes out in one write with the head. -/
def along (r : ResponseBuilder) (awd : Device) : Bytes := if awd.vectored then r.rawBody else []

/-- **The head is sent.**  The first write is of the head and what goes along: what went out begins with what the device
takes of it, is no more when the device reports an error there, and has all of the head when it reports none. -/
structure SendsHead (awd : Device) (head along : Bytes) (sent : Bytes × Bool) : Prop where
  first : (awd.write 0 (head ++ along)).1 <+: sent.1
  stops : (awd.write 0 (head ++ along)).2 = false → sent = awd.write 0 (head ++ along)
  whole : (awd.write 0 (head ++ along)).2 = true → head <+: sent.1

/-- Nothing follows the first write. -/
theorem sendsHead_write (awd : Device) (head along : Bytes) : SendsHead awd head along (awd.write 0 (head ++ along)) where
  first := List.prefix_refl _
  stops _ := rfl
  whole hok := by
    rw [Device.write_of_ok hok]
    exact List.prefix_append head along

/-- The body follows a head that went out whole. -/
theorem sendsHead_body {awd : Device} {head : Bytes} (hok : (awd.write 0 head).2 = true) (body : Bytes × Bool) :
    SendsHead awd head [] ((awd.write 0 head).1 ++ body.1, body.2) where
  first := by
    rw [List.append_nil]
    exact List.prefix_append _ _
  stops hno := by
    rw [List.append_nil, hok] at hno
    cases hno
  whole _ := by
    rw [Device.write_of_ok hok]
    exact List.prefix_append head body.1

/-- **`sendto` sends `to_string` as its head.** -/
theorem sendto_head (r : ResponseBuilder) (awd : Device) :
    ∃ head sent, r.part.toString = .ok head ∧ r.sendto awd = .ok sent ∧ SendsHead awd head (r.along awd) sent := by
  obtain ⟨head, hhead⟩ := r.part.exists_toString
  have halone : SendsHead awd head [] (awd.write 0 head) := by
    have h := sendsHead_write awd head []
    rwa [List.append_nil] at h
  refine ⟨head, ?_⟩
  simp only [sendto, head_eq, hhead, pure, Except.pure, bind, Except.bind, true_and, along]
  by_cases hraw : r.rawBody = []
  · simp only [hraw, ne_eq, not_true_eq_false, if_false, ite_self]
    by_cases hok : (awd.write 0 head).2 = true
    · cases hbody : r.body with
      | none => exact ⟨_, by simp [hok], halone⟩
      | some body => exact ⟨_, by simp [hok], sendsHead_body hok (body awd)⟩
    · exact ⟨awd.write 0 head, by simp [hok], halone⟩
  · cases hvec : awd.vectored with
    | true => exact ⟨_, by simp [hraw], sendsHead_write awd head r.rawBody⟩
    | false =>
      by_cases hok : (awd.write 0 head).2 = true
      · exact ⟨_, by simp [hraw, hok], sendsHead_body hok (awd.write 1 r.rawBody)⟩
      · exact ⟨awd.write 0 head, by simp [hraw, hok], halone⟩

/-- **The renderer without allocation agrees with the plain one**, for every part, capacity and buffer; hence `sendto`
sends `to_string` as its head, whatever is in the frame's buffer. -/
theorem renderHead_agrees :
    (∀ (part : ResponsePart) (cap : Nat) (buf : Block), ∃ head r, part.toString = .ok head ∧
      part.renderInto cap buf = .ok (r, if head.length ≤ cap then head else []) ∧
      (∀ c ∈ r.copies, c.1 + c.2 ≤ cap) ∧ ∀ i, cap ≤ i → r.buf i = buf i) ∧
    ∀ (r : ResponseBuilder) (frame : Block) (awd : Device), ∃ head sent, r.part.toString = .ok head ∧
      r.headIn frame = .ok head ∧ r.sendto awd = .ok sent ∧ SendsHead awd head (r.along awd) sent := by
  refine ⟨fun part cap buf => part.renderInto_spec cap buf, ?_⟩
  intro r frame awd
  obtain ⟨head, sent, hhead, hsend, hsends⟩ := r.sendto_head awd
  exact ⟨head, sent, hhead, (r.headIn_eq frame).trans hhead, hsend, hsends⟩

end ResponseBuilder

end NetCpp.Http
