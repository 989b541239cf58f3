/-
# NetCpp.Io.Buffer — `io::Buffer` and its overload for readers.

`include/xsl/io/buf.h` and `include/xsl/asio/buf.h`.  A buffer is a chain of blocks of `BlockSize` bytes, with an
offset into the last one.  `write(data, size)` fills the last block, goes through whole blocks, and puts the rest
behind the offset: behind the offset of the block it came from, which nothing has set to 0 in between.  The overload
for readers sets it.

A copy that leaves its block is `none` here.  A buffer that has once gone wrong shows more bytes than were written,
and it does so for ever (`length_le_writes`).
-/
import NetCpp.Lib.Memory

namespace NetCpp.Io

open NetCpp.Lib

/-! ## §1 — the buffer. -/

/-- `_buffers` as its last block and those before it. -/
structure Buffer (blockSize : Nat) where
  full : List Block
  back : Block
  currentSize : Nat

namespace Buffer

variable {blockSize : Nat}

def init : Buffer blockSize := ⟨[], fun _ => 0, 0⟩

/-- `_buffers.emplace_back`. -/
def emplaceBack (b : Buffer blockSize) : Buffer blockSize :=
  { b with full := b.full ++ [b.back], back := fun _ => 0 }

/-- `copy_n` to the last block, from `off` on. -/
def copyN (data : Bytes) (off : Nat) (b : Buffer blockSize) : Option (Buffer blockSize) :=
  if off + data.length ≤ blockSize then some { b with back := Lib.write b.back off data } else none

/-- The first phase of `write`: what is left of the data. -/
def fillBlock (data : Bytes) (b : Buffer blockSize) : Option (Bytes × Buffer blockSize) :=
  if b.currentSize + data.length > blockSize then
    -- behind the block the number of bytes to copy wraps around
    if b.currentSize > blockSize then none
    else
      (b.copyN (data.take (blockSize - b.currentSize)) b.currentSize).map fun b' =>
        (data.drop (blockSize - b.currentSize), b'.emplaceBack)
  else some (data, b)

/-- The loop of `write` over whole blocks; `none` when it is not done after `n` turns. -/
def wholeBlocks : Nat → Bytes → Buffer blockSize → Option (Bytes × Buffer blockSize)
  | 0, data, b => if data.length ≥ blockSize then none else some (data, b)
  | n + 1, data, b =>
    if data.length ≥ blockSize then
      (b.copyN (data.take blockSize) 0).bind fun b' => wholeBlocks n (data.drop blockSize) b'.emplaceBack
    else some (data, b)

/-- The last phase. -/
def putRest (data : Bytes) (b : Buffer blockSize) : Option (Nat × Buffer blockSize) :=
  (b.copyN data b.currentSize).map fun b' =>
    (b'.currentSize + data.length, { b' with currentSize := b'.currentSize + data.length })

/-- `write(data, size)`, with the size it returns. -/
def write (data : Bytes) (b : Buffer blockSize) : Option (Nat × Buffer blockSize) := do
  let filled ← b.fillBlock data
  let whole ← wholeBlocks data.length filled.1 filled.2
  putRest whole.1 whole.2

/-- Writes one after another. -/
def writes (ws : List Bytes) (b : Buffer blockSize) : Option (Buffer blockSize) :=
  ws.foldlM (fun b data => (b.write data).map Prod.snd) b

/-- `asio::Buffer::write(reader)`: a reader gives the bytes it has read, at most as many as there is room for, or
fails. -/
def writeFrom (reader : Nat → Option Bytes) (b : Buffer blockSize) : Option (Buffer blockSize) :=
  let b := if b.currentSize = blockSize then { b.emplaceBack with currentSize := 0 } else b
  match reader (blockSize - b.currentSize) with
  | none => some b
  | some data => (b.copyN data b.currentSize).map fun b' => { b' with currentSize := b.currentSize + data.length }

/-- The blocks but the last. -/
def fullText (b : Buffer blockSize) : Bytes := b.full.flatMap (slice · 0 blockSize)

/-- What the buffer holds. -/
def contents (b : Buffer blockSize) : Bytes := b.fullText ++ slice b.back 0 b.currentSize

/-- **The writes are appended**: every copy stays in its block, the offset too, and the buffer holds all data. -/
def Appended (blockSize : Nat) (ws : List Bytes) : Prop :=
  ∃ b : Buffer blockSize, init.writes ws = some b ∧ b.currentSize ≤ blockSize ∧ b.contents = ws.flatten

/-- The write starts a block, or ends in the block it starts in. -/
def Stays (data : Bytes) (b : Buffer blockSize) : Prop := b.currentSize = 0 ∨ b.currentSize + data.length ≤ blockSize

/-- Every write of the run does. -/
def AllStay : List Bytes → Buffer blockSize → Prop
  | [], _ => True
  | data :: rest, b => Stays data b ∧ ∀ n b', b.write data = some (n, b') → AllStay rest b'

/-! ## §2 — the phases. -/

variable {b b' : Buffer blockSize} {data : Bytes}

theorem contents_eq (b : Buffer blockSize) : b.contents = chainText blockSize b.full b.back b.currentSize := rfl

theorem fullText_eq (b : Buffer blockSize) : b.fullText = chainText blockSize b.full b.back 0 :=
  (chainText_zero blockSize b.full b.back).symm

theorem contents_of_start (h : b.currentSize = 0) : b.contents = b.fullText := by
  rw [contents_eq, h, fullText_eq]

theorem copyN_eq {off : Nat} (h : off + data.length ≤ blockSize) :
    b.copyN data off = some { b with back := Lib.write b.back off data } := if_pos h

/-- **A write past the edge** fills the block first. -/
theorem fillBlock_of_past (hsize : b.currentSize ≤ blockSize) (h : b.currentSize + data.length > blockSize) :
    ∃ b₁, b.fillBlock data = some (data.drop (blockSize - b.currentSize), b₁) ∧ b₁.currentSize = b.currentSize ∧
      b₁.fullText = b.contents ++ data.take (blockSize - b.currentSize) := by
  have hlen : b.currentSize + (data.take (blockSize - b.currentSize)).length = blockSize := by
    rw [List.length_take]
    omega
  refine ⟨{ b with back := Lib.write b.back b.currentSize (data.take (blockSize - b.currentSize)) }.emplaceBack, ?_, rfl, ?_⟩
  · rw [fillBlock, if_pos h, if_neg (Nat.not_lt.mpr hsize), copyN_eq hlen.le]
    rfl
  · rw [fullText_eq]
    exact chainText_fill hlen _

/-- **The loop** takes whole blocks from the data, and keeps the offset. -/
theorem wholeBlocks_spec (hpos : 0 < blockSize) {n : Nat} (hn : data.length ≤ n) (b : Buffer blockSize) :
    ∃ whole rest b', wholeBlocks n data b = some (rest, b') ∧ data = whole ++ rest ∧ rest.length < blockSize ∧
      b'.currentSize = b.currentSize ∧ b'.fullText = b.fullText ++ whole := by
  induction n generalizing data b with
  | zero =>
    have hlt : data.length < blockSize := by omega
    exact ⟨[], data, b, if_neg (Nat.not_le.mpr hlt), rfl, hlt, rfl, by simp⟩
  | succ n ih =>
    rw [wholeBlocks]
    by_cases hge : data.length ≥ blockSize
    · have hlen : (data.take blockSize).length = blockSize := by
        rw [List.length_take]
        omega
      have hdrop : (data.drop blockSize).length ≤ n := by
        rw [List.length_drop]
        omega
      obtain ⟨whole, rest, b', hloop, hcut, hrest, hoff, htext⟩ :=
        ih hdrop { b with back := Lib.write b.back 0 (data.take blockSize) }.emplaceBack
      refine ⟨data.take blockSize ++ whole, rest, b', ?_, ?_, hrest, hoff, ?_⟩
      · rw [if_pos hge, copyN_eq (by rw [Nat.zero_add]; exact hlen.le)]
        exact hloop
      · rw [List.append_assoc, ← hcut, List.take_append_drop]
      · have hturn : ({ b with back := Lib.write b.back 0 (data.take blockSize) } : Buffer blockSize).emplaceBack.fullText =
            b.fullText ++ data.take blockSize := by
          rw [fullText_eq, fullText_eq]
          exact chainText_fill ((Nat.zero_add _).trans hlen) _
        rw [htext, hturn, List.append_assoc]
    · rw [if_neg hge]
      exact ⟨[], data, b, rfl, rfl, Nat.lt_of_not_le hge, rfl, by simp⟩

/-- **The rest** goes behind the offset, when there is room. -/
theorem putRest_eq (data : Bytes) (h : b.currentSize + data.length ≤ blockSize) :
    ∃ b', b.putRest data = some (b'.currentSize, b') ∧ b'.currentSize = b.currentSize + data.length ∧
      b'.contents = b.contents ++ data := by
  refine ⟨{ b with back := Lib.write b.back b.currentSize data, currentSize := b.currentSize + data.length }, ?_, rfl, ?_⟩
  · rw [putRest, copyN_eq h]
    rfl
  · exact chainText_write blockSize b.full b.back b.currentSize data

theorem room_of_putRest {n : Nat} (h : b.putRest data = some (n, b')) : b.currentSize + data.length ≤ blockSize := by
  unfold putRest copyN at h
  by_contra hno
  rw [if_neg hno] at h
  cases h

/-- The phases one behind another. -/
theorem write_eq {data' rest : Bytes} {b₁ b₂ : Buffer blockSize} (hfill : b.fillBlock data = some (data', b₁))
    (hloop : wholeBlocks data.length data' b₁ = some (rest, b₂)) : b.write data = b₂.putRest rest := by
  rw [write, hfill, Option.bind_eq_bind, Option.bind_some, hloop]
  rfl

/-! ## §3 — one write. -/

/-- **A write that stays** is appended. -/
theorem write_of_stays (hpos : 0 < blockSize) (hsize : b.currentSize ≤ blockSize) (h : Stays data b) :
    ∃ b', b.write data = some (b'.currentSize, b') ∧ b'.currentSize ≤ blockSize ∧ b'.contents = b.contents ++ data := by
  by_cases hpast : b.currentSize + data.length > blockSize
  · -- from the start of a block to behind its end
    have hstart : b.currentSize = 0 := by
      rcases h with h | h
      · exact h
      · omega
    obtain ⟨b₁, hfill, hoff₁, htext₁⟩ := fillBlock_of_past hsize hpast
    have hlen : (data.drop (blockSize - b.currentSize)).length ≤ data.length := by
      rw [List.length_drop]
      omega
    obtain ⟨whole, rest, b₂, hloop, hcut, hrest, hoff₂, htext₂⟩ := wholeBlocks_spec hpos hlen b₁
    have hoff : b₂.currentSize = 0 := by rw [hoff₂, hoff₁, hstart]
    obtain ⟨b₃, hput, hoff₃, htext₃⟩ := putRest_eq (b := b₂) rest (by omega)
    refine ⟨b₃, ?_, by omega, ?_⟩
    · rw [write_eq hfill hloop]
      exact hput
    · rw [htext₃, contents_of_start hoff, htext₂, htext₁, List.append_assoc, List.append_assoc, ← hcut,
        List.take_append_drop]
  · have hfill : b.fillBlock data = some (data, b) := if_neg hpast
    obtain ⟨whole, rest, b₂, hloop, hcut, hrest, hoff₂, htext₂⟩ := wholeBlocks_spec hpos le_rfl b
    rw [write_eq hfill hloop]
    by_cases hstart : b.currentSize = 0
    · obtain ⟨b₃, hput, hoff₃, htext₃⟩ := putRest_eq (b := b₂) rest (by omega)
      refine ⟨b₃, hput, by omega, ?_⟩
      rw [htext₃, contents_of_start (hoff₂.trans hstart), htext₂, contents_of_start hstart, List.append_assoc, ← hcut]
    · -- less than a block: the loop does nothing
      have hlt : ¬ data.length ≥ blockSize := by omega
      have hsame : wholeBlocks data.length data b = some (data, b) := by
        cases hn : data.length with
        | zero => exact if_neg hlt
        | succ n => exact if_neg hlt
      obtain ⟨rfl, rfl⟩ := Prod.mk.inj (Option.some.inj (hloop.symm.trans hsame))
      obtain ⟨b₃, hput, hoff₃, htext₃⟩ := putRest_eq (b := b₂) rest (by omega)
      exact ⟨b₃, hput, by omega, htext₃⟩

/-- **Any other write** that keeps its copies in their blocks leaves more bytes than there were. -/
theorem length_of_not_stays {n : Nat} (hpos : 0 < blockSize) (hsize : b.currentSize ≤ blockSize)
    (h : ¬ Stays data b) (hwrite : b.write data = some (n, b')) :
    b'.currentSize ≤ blockSize ∧ b.contents.length + data.length < b'.contents.length := by
  obtain ⟨hstart, hpast⟩ := not_or.mp h
  obtain ⟨b₁, hfill, hoff₁, htext₁⟩ := fillBlock_of_past hsize (Nat.lt_of_not_le hpast)
  have hlen : (data.drop (blockSize - b.currentSize)).length ≤ data.length := by
    rw [List.length_drop]
    omega
  obtain ⟨whole, rest, b₂, hloop, hcut, hrest, hoff₂, htext₂⟩ := wholeBlocks_spec hpos hlen b₁
  rw [write_eq hfill hloop] at hwrite
  have hroom := room_of_putRest hwrite
  obtain ⟨b₃, hput, hoff₃, htext₃⟩ := putRest_eq rest hroom
  obtain ⟨-, rfl⟩ := Prod.mk.inj (Option.some.inj (hput.symm.trans hwrite))
  refine ⟨by omega, ?_⟩
  have hdata := congrArg List.length hcut
  have hbefore : b₂.contents.length = b.contents.length + (data.take (blockSize - b.currentSize)).length +
      whole.length + b.currentSize := by
    rw [contents, htext₂, htext₁, hoff₂, hoff₁]
    simp only [List.length_append, length_slice]
  rw [htext₃, List.length_append, hbefore]
  rw [List.length_drop, List.length_append] at hdata
  rw [List.length_take]
  omega

/-- The overload for readers, in every state. -/
theorem writeFrom_spec {reader : Nat → Option Bytes} (hpos : 0 < blockSize) (hsize : b.currentSize ≤ blockSize)
    (hreader : ∀ n data, reader n = some data → data.length ≤ n) :
    ∃ b' read, b.writeFrom reader = some b' ∧ b'.currentSize ≤ blockSize ∧ b'.contents = b.contents ++ read := by
  have hnext : ∃ b₁ : Buffer blockSize, b₁.currentSize ≤ blockSize ∧ b₁.contents = b.contents ∧
      (if b.currentSize = blockSize then { b.emplaceBack with currentSize := 0 } else b) = b₁ := by
    by_cases hfull : b.currentSize = blockSize
    · refine ⟨{ b.emplaceBack with currentSize := 0 }, hpos.le, ?_, if_pos hfull⟩
      rw [contents_eq b, hfull]
      exact chainText_next blockSize b.full b.back _
    · exact ⟨b, hsize, rfl, if_neg hfull⟩
  obtain ⟨b₁, hsize₁, htext₁, hnext⟩ := hnext
  rw [writeFrom, hnext]
  cases hread : reader (blockSize - b₁.currentSize) with
  | none => exact ⟨b₁, [], rfl, hsize₁, by rw [htext₁, List.append_nil]⟩
  | some data =>
    have hlen := hreader _ _ hread
    have hroom : b₁.currentSize + data.length ≤ blockSize := by omega
    refine ⟨{ b₁ with
      back := Lib.write b₁.back b₁.currentSize data, currentSize := b₁.currentSize + data.length }, data, ?_, hroom, ?_⟩
    · simp only [copyN_eq hroom, Option.map_some]
    · rw [← htext₁]
      exact chainText_write blockSize b₁.full b₁.back b₁.currentSize data

/-! ## §4 — the run. -/

theorem writes_cons (data : Bytes) (ws : List Bytes) (b : Buffer blockSize) :
    b.writes (data :: ws) = (b.write data).bind fun r => r.2.writes ws := by
  rw [writes, List.foldlM_cons]
  cases b.write data <;> rfl

/-- **Writes that stay** are appended one after another. -/
theorem writes_of_stay (hpos : 0 < blockSize) (ws : List Bytes) (hsize : b.currentSize ≤ blockSize)
    (h : AllStay ws b) :
    ∃ b', b.writes ws = some b' ∧ b'.currentSize ≤ blockSize ∧ b'.contents = b.contents ++ ws.flatten := by
  induction ws generalizing b with
  | nil => exact ⟨b, rfl, hsize, by simp⟩
  | cons data ws ih =>
    obtain ⟨hstays, hrest⟩ := h
    obtain ⟨b₁, hwrite, hsize₁, htext₁⟩ := write_of_stays hpos hsize hstays
    obtain ⟨b', hwrites, hsize', htext'⟩ := ih hsize₁ (hrest _ _ hwrite)
    refine ⟨b', ?_, hsize', ?_⟩
    · rw [writes_cons, hwrite]
      exact hwrites
    · rw [htext', htext₁, List.flatten_cons, List.append_assoc]

/-- A write leaves no less than what was written, and no more when it stays. -/
theorem length_of_write {n : Nat} (hpos : 0 < blockSize) (hsize : b.currentSize ≤ blockSize)
    (hwrite : b.write data = some (n, b')) :
    b'.currentSize ≤ blockSize ∧ b.contents.length + data.length ≤ b'.contents.length ∧
      (b'.contents.length = b.contents.length + data.length → Stays data b) := by
  by_cases hstays : Stays data b
  · obtain ⟨b₁, hwrite₁, hsize₁, htext₁⟩ := write_of_stays hpos hsize hstays
    obtain ⟨-, rfl⟩ := Prod.mk.inj (Option.some.inj (hwrite₁.symm.trans hwrite))
    exact ⟨hsize₁, by rw [htext₁, List.length_append], fun _ => hstays⟩
  · obtain ⟨hsize', hlt⟩ := length_of_not_stays hpos hsize hstays hwrite
    exact ⟨hsize', hlt.le, fun heq => absurd heq (by omega)⟩

/-- The length never falls behind what was written. -/
theorem length_le_writes (hpos : 0 < blockSize) (ws : List Bytes) (hsize : b.currentSize ≤ blockSize)
    (h : b.writes ws = some b') : b.contents.length + ws.flatten.length ≤ b'.contents.length := by
  induction ws generalizing b with
  | nil =>
    obtain rfl := Option.some.inj h
    simp
  | cons data ws ih =>
    rw [writes_cons] at h
    obtain ⟨⟨n, b₁⟩, hwrite, hrest⟩ := Option.bind_eq_some_iff.mp h
    obtain ⟨hsize₁, hle, -⟩ := length_of_write hpos hsize hwrite
    have hle' := ih hsize₁ hrest
    rw [List.flatten_cons, List.length_append]
    omega

/-- **Writes that leave as many bytes as were written** stay. -/
theorem stay_of_length (hpos : 0 < blockSize) (ws : List Bytes) (hsize : b.currentSize ≤ blockSize)
    (h : b.writes ws = some b') (hlen : b'.contents.length = b.contents.length + ws.flatten.length) : AllStay ws b := by
  induction ws generalizing b with
  | nil => trivial
  | cons data ws ih =>
    rw [writes_cons] at h
    obtain ⟨⟨n, b₁⟩, hwrite, hrest⟩ := Option.bind_eq_some_iff.mp h
    obtain ⟨hsize₁, hle, hstays⟩ := length_of_write hpos hsize hwrite
    have hle' := length_le_writes hpos ws hsize₁ hrest
    rw [List.flatten_cons, List.length_append] at hlen
    constructor
    · apply hstays
      omega
    · intro n' b₁' hwrite'
      obtain ⟨-, rfl⟩ := Prod.mk.inj (Option.some.inj (hwrite.symm.trans hwrite'))
      apply ih hsize₁ hrest
      omega

/-- **`write` appends** exactly in the runs in which every write starts a block or ends in the block it starts in. -/
theorem appended_iff (hpos : 0 < blockSize) (ws : List Bytes) :
    Appended blockSize ws ↔ AllStay ws (init : Buffer blockSize) := by
  have hsize : (init : Buffer blockSize).currentSize ≤ blockSize := Nat.zero_le _
  have hinit : (init : Buffer blockSize).contents = [] := rfl
  constructor
  · rintro ⟨b, hwrites, -, htext⟩
    apply stay_of_length hpos ws hsize hwrites
    rw [htext, hinit, List.length_nil, Nat.zero_add]
  · intro h
    obtain ⟨b, hwrites, hle, htext⟩ := writes_of_stay hpos ws hsize h
    refine ⟨b, hwrites, hle, ?_⟩
    rw [htext, hinit, List.nil_append]

/-- Two writes that fill a block. -/
theorem appended_block : Appended 4 [[1, 2], [3, 4]] :=
  (appended_iff (by decide) [[1, 2], [3, 4]]).mpr
    ⟨Or.inl rfl, fun n b' h => by
      obtain ⟨-, rfl⟩ := Prod.mk.inj (Option.some.inj h)
      exact ⟨Or.inr (by decide), fun _ _ _ => trivial⟩⟩

/-- **The second write goes behind the offset of the first block**: the byte in front of it is shown as data, and
two bytes more are copied past the end of the block. -/
theorem write_keeps_offset :
    ¬ Appended 4 [[1], [2, 3, 4, 5]] ∧
      (init.writes [[1], [2, 3, 4, 5]] : Option (Buffer 4)).map contents = some [1, 2, 3, 4, 0, 5] ∧
      (init.writes [[1, 2, 3], [4, 5, 6, 7]] : Option (Buffer 4)).isNone := by
  have hcontents : (init.writes [[1], [2, 3, 4, 5]] : Option (Buffer 4)).map contents =
      some [1, 2, 3, 4, 0, 5] := by
    decide
  refine ⟨?_, hcontents, by decide⟩
  rintro ⟨b, hwrites, -, htext⟩
  rw [hwrites, Option.map_some, htext, Option.some.injEq] at hcontents
  revert hcontents
  decide

end Buffer

end NetCpp.Io
