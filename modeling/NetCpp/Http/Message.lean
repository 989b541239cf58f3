/-
# NetCpp.Http.Message — `Message::read`: the block chain, and one head from any delivery.

`include/xsl/asio/http/common.h`.  The read buffer is a chain of blocks; the bytes that were delivered and not
consumed are the WINDOW of the active block.  `compact` moves the window to the front of the chain at the start
of a read, `rotate` carries it into the next block when the active one is full, `fill` asks the reader for more.
The views handed out for a head point into the blocks, so a block that has some must not be written over:
`Settled` says that a view lies before the window, and every step keeps what settled views show.

A block has an identity that survives the `swap` of the entry compaction.
-/
import NetCpp.Http.Line

namespace NetCpp.Http

open NetCpp.Lib

/-! ## §1 — the reader and the chain. -/

/-- A stream and how it is delivered: how many bytes, or which error, the `i`-th call answers. -/
structure Reader where
  data : Bytes
  answer : Nat → Nat → Except Errc Nat
  calls : Nat

/-- `reader->read(dst, size)`. -/
def Reader.read (r : Reader) (size : Nat) : Except Errc Bytes × Reader :=
  match r.answer r.calls size with
  | .error ec => (.error ec, { r with calls := r.calls + 1 })
  | .ok n =>
      let n := min n (min size r.data.length)
      (.ok (r.data.take n), { r with data := r.data.drop n, calls := r.calls + 1 })

/-- Every call delivers between one byte and what was asked for. -/
def Reader.Live (r : Reader) : Prop := ∀ i size, 0 < size → ∃ n, r.answer i size = .ok n ∧ 1 ≤ n ∧ n ≤ size

/-- A `Request`: the blocks by their identity, the chain, the window, and the parsed fields. -/
structure Request where
  heap : Nat → Block
  buffer : List Nat
  winBlock : Nat
  winBegin : Nat
  winEnd : Nat
  rest : MessageRestView
  line : RequestLine

namespace Request

def init (A : Alloc) : Request where
  heap := fun _ _ => 0
  buffer := [0]
  winBlock := 0
  winBegin := 0
  winEnd := 0
  rest := .init
  line := .init A

/-- The identity of `buffer[win_block]`. -/
def active (req : Request) : Nat := req.buffer.getD req.winBlock 0

def window (req : Request) : View := .block req.active req.winBegin (req.winEnd - req.winBegin)

/-- What the window shows. -/
def windowBytes (req : Request) : Bytes := slice (req.heap req.active) req.winBegin (req.winEnd - req.winBegin)

/-- What a view shows in the memory of the request. -/
def deref (req : Request) : View → Option Bytes := View.deref req.heap req.line.raw

def setBlock (heap : Nat → Block) (id : Nat) (b : Block) : Nat → Block := fun i => if i = id then b else heap i

/-- The entry compaction: the window to the front of its block, and that block to the front of the chain. -/
def compact (req : Request) : Request :=
  let leftover := req.winEnd - req.winBegin
  { req with
    heap :=
      if 0 < leftover ∧ req.winBegin ≠ 0 then
        setBlock req.heap req.active (write (req.heap req.active) 0 req.windowBytes)
      else req.heap
    buffer :=
      if req.winBlock ≠ 0 then (req.buffer.set 0 req.active).set req.winBlock (req.buffer.getD 0 0) else req.buffer
    winBlock := 0
    winBegin := 0
    winEnd := leftover }

/-- `rotate`: the window into the next block, a new one when there is none. -/
def rotate (req : Request) : Except Errc Request :=
  let tail := req.winEnd - req.winBegin
  if tail = HTTP_BUFFER_BLOCK_SIZE then .error .illegalByteSequence
  else
    let buffer := if req.winBlock + 1 = req.buffer.length then req.buffer ++ [req.buffer.length] else req.buffer
    let heap := if req.winBlock + 1 = req.buffer.length then setBlock req.heap req.buffer.length fun _ => 0 else req.heap
    let next := buffer.getD (req.winBlock + 1) 0
    .ok { req with
      heap := setBlock heap next (write (heap next) 0 req.windowBytes)
      buffer := buffer
      winBlock := req.winBlock + 1
      winBegin := 0
      winEnd := tail }

/-- The bytes of a read, behind the window. -/
def receive (data : Bytes) (req : Request) : Request :=
  { req with
    heap := setBlock req.heap req.active (write (req.heap req.active) req.winEnd data)
    winEnd := req.winEnd + data.length }

/-- `fill` after the rotation: one call of the reader. -/
def fetch (req : Request) (r : Reader) : Option Errc × Request × Reader :=
  match r.read (HTTP_BUFFER_BLOCK_SIZE - req.winEnd) with
  | (.error ec, r) => (some ec, req, r)
  | (.ok data, r) => if data = [] then (some .notConnected, req, r) else (none, req.receive data, r)

def fill (req : Request) (r : Reader) : Option Errc × Request × Reader :=
  if req.winEnd = HTTP_BUFFER_BLOCK_SIZE then
    match req.rotate with
    | .error ec => (some ec, req, r)
    | .ok req => req.fetch r
  else req.fetch r

/-- `win_begin += len`. -/
def advance (len : Nat) (req : Request) : Request := { req with winBegin := req.winBegin + len }

/-- One of the two loops of `read`: parse the window, and fill it until the part is complete. -/
def headLoop (parse : Request → Request × Nat × Option Errc) :
    Nat → Request → Reader → Option (Option Errc × Request × Reader)
  | 0, _, _ => none
  | n + 1, req, r =>
      match parse req with
      | (req, len, none) => some (none, req.advance len, r)
      | (req, len, some .resourceUnavailableTryAgain) =>
          match fill (req.advance len) r with
          | (some ec, req, r) => some (some ec, req, r)
          | (none, req, r) => headLoop parse n req r
      | (req, _, some ec) => some (some ec, req, r)

def parseLine (A : Alloc) (req : Request) : Request × Nat × Option Errc :=
  match req.line.parse A req.window req.windowBytes with
  | (line, len, ec) => ({ req with line := line }, len, ec)

def parseRest (req : Request) : Request × Nat × Option Errc :=
  match req.rest.parse req.deref req.window req.windowBytes with
  | (rest, len, ec) => ({ req with rest := rest }, len, ec)

/-- `read`: the error code, the request and the reader.  Every turn of a loop delivers a byte, so the number of
bytes that are left bounds the turns. -/
def read (A : Alloc) (req : Request) (r : Reader) : Option (Option Errc × Request × Reader) :=
  let req := req.compact
  match headLoop (parseLine A) (r.data.length + 1) { req with rest := req.rest.clear } r with
  | some (none, req, r) => headLoop parseRest (r.data.length + 1) req r
  | res => res

/-! ## §2 — the invariant of the chain, and settled views. -/

structure WF (req : Request) : Prop where
  nodup : req.buffer.Nodup
  fresh : ∀ id ∈ req.buffer, id < req.buffer.length
  block_lt : req.winBlock < req.buffer.length
  begin_le : req.winBegin ≤ req.winEnd
  end_le : req.winEnd ≤ HTTP_BUFFER_BLOCK_SIZE

/-- A view that lies before the window: in an earlier block of the chain, or before `win_begin`. -/
def Settled (req : Request) : View → Prop
  | .text _ | .raw _ _ _ => True
  | .block id off len =>
      len = 0 ∨ ∃ i, i ≤ req.winBlock ∧ req.buffer[i]? = some id ∧ (i = req.winBlock → off + len ≤ req.winBegin)

/-- `req'` shows what `req` showed: same fields, and settled views stay as they are. -/
structure Keeps (req req' : Request) : Prop where
  line : req'.line = req.line
  rest : req'.rest = req.rest
  views : ∀ v, req.Settled v → req'.deref v = req.deref v ∧ req'.Settled v

theorem Keeps.trans {a b c : Request} (h1 : Keeps a b) (h2 : Keeps b c) : Keeps a c where
  line := h2.line.trans h1.line
  rest := h2.rest.trans h1.rest
  views v hv := ⟨(h2.views v (h1.views v hv).2).1.trans (h1.views v hv).1, (h2.views v (h1.views v hv).2).2⟩

variable {req : Request}

theorem wf_init (A : Alloc) : (init A).WF := by
  constructor <;> simp [init]

theorem WF.active_eq (h : req.WF) : req.buffer[req.winBlock]? = some req.active := by
  rw [active, List.getD_eq_getElem?_getD, List.getElem?_eq_getElem h.block_lt]; rfl

theorem length_windowBytes (req : Request) : req.windowBytes.length = req.winEnd - req.winBegin := by
  simp [windowBytes]

/-- A settled view of the active block lies before the window. -/
theorem Settled.before {off len : Nat} (h : req.WF) (hv : req.Settled (.block req.active off len)) :
    len = 0 ∨ off + len ≤ req.winBegin := by
  rcases hv with h0 | ⟨i, -, hi, hle⟩
  · exact .inl h0
  · right
    apply hle
    have hlt : i < req.buffer.length := (List.getElem?_eq_some_iff.mp hi).1
    exact (List.getElem?_inj hlt h.nodup).mp (hi.trans h.active_eq.symm)

theorem setBlock_self (heap : Nat → Block) (id : Nat) (b : Block) : setBlock heap id b id = b := if_pos rfl

theorem setBlock_of_ne {heap : Nat → Block} {id i : Nat} {b : Block} (h : i ≠ id) : setBlock heap id b i = heap i :=
  if_neg h

/-! ## §3 — the steps. -/

theorem wf_advance (h : req.WF) {len : Nat} (hlen : len ≤ req.windowBytes.length) : (req.advance len).WF := by
  rw [length_windowBytes] at hlen
  have := h.begin_le
  exact ⟨h.nodup, h.fresh, h.block_lt, show req.winBegin + len ≤ req.winEnd by omega, h.end_le⟩

theorem windowBytes_advance (req : Request) {len : Nat} (hlen : len ≤ req.windowBytes.length) :
    (req.advance len).windowBytes = req.windowBytes.drop len := by
  rw [length_windowBytes] at hlen
  show slice (req.heap req.active) (req.winBegin + len) (req.winEnd - (req.winBegin + len)) = _
  rw [windowBytes, ← take_drop_slice (req.heap req.active) req.winBegin (req.winEnd - req.winBegin) len _ (by omega)]
  apply List.take_of_length_le
  simp
  omega

theorem settled_advance {v : View} (h : req.Settled v) (len : Nat) : (req.advance len).Settled v := by
  cases v with
  | text b => trivial
  | raw g o l => trivial
  | block id off n =>
      rcases h with h0 | ⟨i, hi, hid, hle⟩
      · exact .inl h0
      · exact .inr ⟨i, hi, hid, fun he => Nat.le_add_right_of_le (hle he)⟩

/-- **Delivered bytes prolong the window.** -/
theorem receive_spec (h : req.WF) {data : Bytes} (hlen : req.winEnd + data.length ≤ HTTP_BUFFER_BLOCK_SIZE) :
    (req.receive data).WF ∧ (req.receive data).windowBytes = req.windowBytes ++ data ∧ Keeps req (req.receive data) := by
  have hbegin := h.begin_le
  refine ⟨⟨h.nodup, h.fresh, h.block_lt, Nat.le_add_right_of_le hbegin, hlen⟩, ?_, rfl, rfl, ?_⟩
  · show slice (setBlock req.heap req.active _ req.active) req.winBegin (req.winEnd + data.length - req.winBegin) = _
    rw [setBlock_self, show req.winEnd + data.length - req.winBegin = (req.winEnd - req.winBegin) + data.length by omega]
    have := slice_write_append (req.heap req.active) req.winBegin (req.winEnd - req.winBegin) data
    rwa [show req.winBegin + (req.winEnd - req.winBegin) = req.winEnd by omega] at this
  · intro v hv
    refine ⟨?_, hv⟩
    cases v with
    | text b => rfl
    | raw g o l => rfl
    | block id off n =>
        show some (slice (setBlock req.heap req.active _ id) off n) = some (slice (req.heap id) off n)
        by_cases hid : id = req.active
        · subst hid
          rw [setBlock_self]
          rcases Settled.before h hv with rfl | hle
          · rfl
          · rw [slice_write_of_disjoint (.inl (by omega))]
        · rw [setBlock_of_ne hid]

/-- **The window is carried into the next block**, and nothing that was handed out is touched: the next block has
no settled views. -/
theorem rotate_spec (h : req.WF) (hlt : req.windowBytes.length < HTTP_BUFFER_BLOCK_SIZE) :
    ∃ req', req.rotate = .ok req' ∧ req'.WF ∧ req'.windowBytes = req.windowBytes ∧
      req'.winEnd = req.windowBytes.length ∧ Keeps req req' := by
  have hlen := length_windowBytes req
  have hblock := h.block_lt
  unfold rotate
  rw [if_neg (by omega)]
  refine ⟨_, rfl, ?_⟩
  -- the chain with the next block in it
  set buffer := if req.winBlock + 1 = req.buffer.length then req.buffer ++ [req.buffer.length] else req.buffer with hb
  set heap := if req.winBlock + 1 = req.buffer.length then setBlock req.heap req.buffer.length fun _ => 0 else req.heap
    with hh
  have hfresh : req.buffer.length ∉ req.buffer := fun hm => absurd (h.fresh _ hm) (Nat.lt_irrefl _)
  have hnodup : buffer.Nodup := by
    rw [hb]
    split
    · exact List.nodup_append.mpr ⟨h.nodup, by simp, by rintro a ha b hb' rfl; simp at hb'; exact hfresh (hb' ▸ ha)⟩
    · exact h.nodup
  have hlt' : req.winBlock + 1 < buffer.length := by
    rw [hb]
    split
    · simp; omega
    · omega
  have hids : ∀ id ∈ buffer, id < buffer.length := by
    rw [hb]
    split
    · intro id hid
      rcases List.mem_append.mp hid with hid | hid
      · have := h.fresh id hid
        simp; omega
      · simp at hid; simp; omega
    · exact h.fresh
  have hold : ∀ i, i ≤ req.winBlock → buffer[i]? = req.buffer[i]? := by
    intro i hi
    rw [hb]
    split
    · rw [List.getElem?_append_left (by omega)]
    · rfl
  -- a block of the chain is not touched by the new one
  have hheap : ∀ id ∈ req.buffer, heap id = req.heap id := by
    intro id hid
    rw [hh]
    split
    · exact setBlock_of_ne fun he => hfresh (he ▸ hid)
    · rfl
  have hnext : buffer[req.winBlock + 1]? = some (buffer.getD (req.winBlock + 1) 0) := by
    rw [List.getD_eq_getElem?_getD, List.getElem?_eq_getElem hlt']; rfl
  refine ⟨⟨hnodup, hids, hlt', Nat.zero_le _, ?_⟩, ?_, hlen.symm, rfl, rfl, ?_⟩
  · show req.winEnd - req.winBegin ≤ _
    omega
  · show slice (setBlock heap _ _ _) 0 (req.winEnd - req.winBegin - 0) = _
    rw [active, setBlock_self, Nat.sub_zero, ← hlen, slice_write_self]
  · intro v hv
    cases v with
    | text b => exact ⟨rfl, trivial⟩
    | raw g o l => exact ⟨rfl, trivial⟩
    | block id off n =>
        rcases hv with rfl | ⟨i, hi, hid, -⟩
        · exact ⟨rfl, .inl rfl⟩
        · have hid' : buffer[i]? = some id := (hold i hi).trans hid
          -- a settled view lies in an earlier block, and the bytes are copied into the next
          have hne : id ≠ buffer.getD (req.winBlock + 1) 0 := by
            rintro rfl
            have hil : i < buffer.length := by omega
            have := (List.getElem?_inj hil hnodup).mp (hid'.trans hnext.symm)
            omega
          refine ⟨?_, .inr ⟨i, Nat.le_succ_of_le hi, hid', fun he => ?_⟩⟩
          · show some (slice (setBlock heap _ _ id) off n) = some (slice (req.heap id) off n)
            rw [setBlock_of_ne hne, hheap id (List.mem_of_getElem? hid)]
          · exact absurd (show i = req.winBlock + 1 from he) (by omega)

theorem fetch_spec (h : req.WF) {r : Reader} (hlive : r.Live) (hroom : req.winEnd < HTTP_BUFFER_BLOCK_SIZE)
    (hdata : r.data ≠ []) :
    ∃ req' r', req.fetch r = (none, req', r') ∧ req'.WF ∧ r'.Live ∧ r'.data.length < r.data.length ∧
      req'.windowBytes ++ r'.data = req.windowBytes ++ r.data ∧ Keeps req req' := by
  obtain ⟨n, hn, h1, h2⟩ := hlive r.calls (HTTP_BUFFER_BLOCK_SIZE - req.winEnd) (by omega)
  have hpos : 0 < r.data.length := List.length_pos_of_ne_nil hdata
  set k := min n (min (HTTP_BUFFER_BLOCK_SIZE - req.winEnd) r.data.length) with hk
  have hread : r.read (HTTP_BUFFER_BLOCK_SIZE - req.winEnd) =
      (.ok (r.data.take k), { r with data := r.data.drop k, calls := r.calls + 1 }) := by
    rw [Reader.read, hn]
  have hk0 : 0 < k := Nat.lt_min.mpr ⟨h1, Nat.lt_min.mpr ⟨by omega, hpos⟩⟩
  have hne : r.data.take k ≠ [] := by
    rw [ne_eq, List.take_eq_nil_iff]
    rintro (h0 | h0)
    · omega
    · exact hdata h0
  have hfit : req.winEnd + (r.data.take k).length ≤ HTTP_BUFFER_BLOCK_SIZE := by simp; omega
  obtain ⟨hwf, hwin, hkeep⟩ := receive_spec h hfit
  refine ⟨req.receive (r.data.take k), { r with data := r.data.drop k, calls := r.calls + 1 }, ?_, hwf, hlive, ?_, ?_,
    hkeep⟩
  · rw [fetch, hread]
    simp only [if_neg hne]
  · show (r.data.drop k).length < _
    simp
    omega
  · rw [hwin]
    show req.windowBytes ++ r.data.take k ++ r.data.drop k = _
    rw [List.append_assoc, List.take_append_drop]

/-- **`fill` moves bytes from the stream into the window**, when the window is no whole block and the stream is
not at its end. -/
theorem fill_spec (h : req.WF) {r : Reader} (hlive : r.Live) (hlt : req.windowBytes.length < HTTP_BUFFER_BLOCK_SIZE)
    (hdata : r.data ≠ []) :
    ∃ req' r', req.fill r = (none, req', r') ∧ req'.WF ∧ r'.Live ∧ r'.data.length < r.data.length ∧
      req'.windowBytes ++ r'.data = req.windowBytes ++ r.data ∧ Keeps req req' := by
  unfold fill
  by_cases hfull : req.winEnd = HTTP_BUFFER_BLOCK_SIZE
  · obtain ⟨req1, hrot, hwf1, hwin1, hend1, hkeep1⟩ := rotate_spec h hlt
    obtain ⟨req', r', hf, hwf, hl, hlen, hbytes, hkeep⟩ := fetch_spec hwf1 hlive (by omega) hdata
    refine ⟨req', r', ?_, hwf, hl, hlen, ?_, hkeep1.trans hkeep⟩
    · rw [if_pos hfull, hrot]; exact hf
    · rw [hbytes, hwin1]
  · rw [if_neg hfull]
    exact fetch_spec h hlive (Nat.lt_of_le_of_ne h.end_le hfull) hdata

/-- **The entry compaction keeps the window.** -/
theorem compact_spec (h : req.WF) : req.compact.WF ∧ req.compact.windowBytes = req.windowBytes := by
  have hbegin := h.begin_le
  have hend := h.end_le
  have hblock := h.block_lt
  have hact := h.active_eq
  -- the block of the window is now the first of the chain
  have hfirst : req.compact.active = req.active := by
    show (if req.winBlock ≠ 0 then (req.buffer.set 0 req.active).set req.winBlock (req.buffer.getD 0 0)
      else req.buffer).getD 0 0 = req.active
    rw [List.getD_eq_getElem?_getD]
    split
    · rename_i hne
      rw [List.getElem?_set_ne hne, List.getElem?_set_self (by omega)]; rfl
    · rename_i hz
      obtain hz : req.winBlock = 0 := not_not.mp hz
      rw [hz] at hact
      rw [hact]; rfl
  have hperm : req.compact.buffer.Perm req.buffer := by
    show (if req.winBlock ≠ 0 then (req.buffer.set 0 req.active).set req.winBlock (req.buffer.getD 0 0)
      else req.buffer).Perm req.buffer
    split
    · rename_i hne
      have h0 : 0 < req.buffer.length := by omega
      have ha : req.active = req.buffer.get ⟨req.winBlock, hblock⟩ := by
        have := hact
        rw [List.getElem?_eq_getElem hblock] at this
        exact (Option.some.inj this).symm
      have hg : req.buffer.getD 0 0 = req.buffer.get ⟨0, h0⟩ := by
        rw [List.getD_eq_getElem?_getD, List.getElem?_eq_getElem h0]; rfl
      rw [ha, hg]
      exact List.set_set_perm h0 hblock
    · exact List.Perm.refl _
  constructor
  · refine ⟨hperm.nodup_iff.mpr h.nodup, ?_, ?_, Nat.zero_le _, ?_⟩
    · intro id hid
      rw [hperm.length_eq]
      exact h.fresh id (hperm.subset hid)
    · rw [hperm.length_eq]
      show 0 < _
      omega
    · show req.winEnd - req.winBegin ≤ _
      omega
  · rw [windowBytes, hfirst]
    show slice ((if 0 < req.winEnd - req.winBegin ∧ req.winBegin ≠ 0 then _ else req.heap) req.active) 0
      (req.winEnd - req.winBegin - 0) = _
    rw [Nat.sub_zero]
    split
    · rw [setBlock_self, ← length_windowBytes, slice_write_self]
    · rename_i hno
      by_cases hz : req.winEnd - req.winBegin = 0
      · rw [windowBytes, hz]; rfl
      · have hb0 : req.winBegin = 0 := by
          by_contra hne
          exact hno ⟨by omega, hne⟩
        rw [windowBytes, hb0]

end Request

end NetCpp.Http
