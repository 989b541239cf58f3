/-
# NetCpp.Io.SendFile — `send_file`: how its loop ends, and what it then reports.

`include/xsl/asio/io.h`.  The loop keeps no count of its own: the kernel moves `offset` on, and the range is done when
`offset` meets `end`.  Both are `off_t`, computed from the `std::size_t`s of the hint with the wrap of 64 bits; what
`offset` has moved is the size that is returned.

`Moved` is the invariant: `offset` stands `sent` bytes behind the hint's, and `sent` is at most the size asked for.
A call that comes back with `0` is where the loop goes wrong.  The file has ended before the range: the loop is left
as if all was sent.  Nothing was asked for: that is reported as an error.  `Announced` says of a send that it meets
neither, and `sendFile_reports_iff` that exactly these sends report what they did.
-/
import NetCpp.Lib.Bytes

namespace NetCpp.Io

open NetCpp.Lib

/-! ## §1 — the loop. -/

/-- `io::WriteFileHint` -/
structure WriteFileHint where
  path : Bytes
  offset : BitVec 64
  size : BitVec 64

/-- What a call of `::sendfile` comes to: bytes sent, `EAGAIN` with what the signal then says, or an error. -/
inductive Sendfile
  | sent (n : Nat)
  | again (signalled : Bool)
  | failed (errno : Nat)
  deriving DecidableEq

inductive FileError
  | noMessage
  | notConnected
  | errno (n : Nat)
  deriving DecidableEq

/-- `io::Result` -/
structure FileResult where
  size : BitVec 64
  ec : Option FileError
  deriving DecidableEq

/-- The variable of the loop.  `sent` is a history variable: the bytes the kernel has sent. -/
structure FileSending where
  offset : BitVec 64
  sent : Nat := 0
  deriving DecidableEq

section Hint

variable (hint : WriteFileHint)

/-- `end` -/
def WriteFileHint.last : BitVec 64 := hint.size + hint.offset

/-- `io::Result(offset - hint.offset, ec)` -/
def FileSending.result (s : FileSending) (ec : Option FileError) : FileResult := ⟨s.offset - hint.offset, ec⟩

/-- `::sendfile` has sent `n` bytes and moved `offset`. -/
def FileSending.move (n : Nat) (s : FileSending) : FileSending := ⟨s.offset + BitVec.ofNat 64 n, s.sent + n⟩

/-- The loop over the answers; `none` when it still waits for one. -/
def fileLoop : List Sendfile → FileSending → FileSending × Option FileResult
  | [], s => (s, none)
  | .sent n :: rest, s =>
    if n = 0 then
      if s.offset ≠ hint.last then (s, some (s.result hint none))
      else (s, some (s.result hint (some .noMessage)))
    else if (s.move n).offset ≠ hint.last then fileLoop rest (s.move n)
    else (s.move n, some ((s.move n).result hint none))
  | .again signalled :: rest, s =>
    -- `co_await sig`
    if signalled = false then (s, some (s.result hint (some .notConnected)))
    else if s.offset ≠ hint.last then fileLoop rest s
    else (s, some (s.result hint none))
  | .failed errno :: _, s => (s, some (s.result hint (some (.errno errno))))

/-- `send_file`; `opening` is the `errno` of an `open` that fails. -/
def sendFile (opening : Option Nat) (answers : List Sendfile) : FileSending × Option FileResult :=
  match opening with
  | some errno => (⟨hint.offset, 0⟩, some ⟨0, some (.errno errno)⟩)
  | none => fileLoop hint answers ⟨hint.offset, 0⟩

/-- **A kernel** sends at most what it is asked for. -/
def AtMostAsked : List Sendfile → FileSending → Prop
  | [], _ => True
  | .sent n :: rest, s => n ≤ (hint.last - s.offset).toNat ∧ AtMostAsked rest (s.move n)
  | .again _ :: rest, s => AtMostAsked rest s
  | .failed _ :: _, _ => True

end Hint

/-- How often the kernel sends something. -/
def sends : List Sendfile → Nat
  | [] => 0
  | .sent _ :: rest => sends rest + 1
  | .again _ :: rest | .failed _ :: rest => sends rest

/-- **The file ends before the range**: with `left` bytes still to send, a call comes back with nothing, and no error
and no stop has ended the send before. -/
def ShortFile : Nat → List Sendfile → Prop
  | _, [] => False
  | left, .sent n :: rest => n = 0 ∨ n < left ∧ ShortFile (left - n) rest
  | left, .again signalled :: rest => signalled = true ∧ ShortFile left rest
  | _, .failed _ :: _ => False

/-- The range is in the file, as far as the send gets; an empty one only when the file is there and its one call has to
wait. -/
def Announced (hint : WriteFileHint) (opening : Option Nat) (answers : List Sendfile) : Prop :=
  if hint.size = 0 then opening = none ∧ answers.head? = some (.again true)
  else opening = none → ¬ ShortFile hint.size.toNat answers

/-- No error exactly when all that was asked for is sent, and the size is what was sent. -/
def Reports (hint : WriteFileHint) (out : FileSending × Option FileResult) : Prop :=
  ∀ res, out.2 = some res → (res.ec = none ↔ out.1.sent = hint.size.toNat) ∧ res.size.toNat = out.1.sent

/-! ## §2 — the place in the file. -/

variable {hint : WriteFileHint} {s : FileSending}

/-- **The place**: `sent` bytes behind the start of the range, and inside it. -/
structure Moved (hint : WriteFileHint) (s : FileSending) : Prop where
  offset_eq : s.offset = hint.offset + BitVec.ofNat 64 s.sent
  sent_le : s.sent ≤ hint.size.toNat

theorem moved_start (hint : WriteFileHint) : Moved hint ⟨hint.offset, 0⟩ where
  offset_eq := by simp
  sent_le := Nat.zero_le _

/-- The size returned is the number of bytes sent. -/
theorem Moved.size (h : Moved hint s) (ec : Option FileError) : (s.result hint ec).size.toNat = s.sent := by
  have hle := h.sent_le
  have hlt := hint.size.isLt
  rw [FileSending.result, h.offset_eq, BitVec.add_comm, BitVec.add_sub_cancel, BitVec.toNat_ofNat]
  exact Nat.mod_eq_of_lt (by omega)

/-- What a call is asked for is what is left. -/
theorem Moved.left (h : Moved hint s) : (hint.last - s.offset).toNat = hint.size.toNat - s.sent := by
  have hle := h.sent_le
  have hlt := hint.size.isLt
  have hsub : hint.last - s.offset = hint.size - BitVec.ofNat 64 s.sent := by
    rw [h.offset_eq, WriteFileHint.last]
    bv_omega
  rw [hsub, BitVec.toNat_sub_of_le, BitVec.toNat_ofNat, Nat.mod_eq_of_lt (by omega)]
  rw [BitVec.le_def, BitVec.toNat_ofNat, Nat.mod_eq_of_lt (by omega)]
  exact hle

/-- The range is done when `offset` meets `end`. -/
theorem Moved.done_iff (h : Moved hint s) : s.offset = hint.last ↔ s.sent = hint.size.toNat := by
  have hleft := h.left
  have hle := h.sent_le
  constructor
  · intro hmet
    rw [hmet, BitVec.sub_self, BitVec.toNat_ofNat, Nat.zero_mod] at hleft
    omega
  · intro hall
    rw [hall, Nat.sub_self] at hleft
    have hzero : hint.last - s.offset = 0#64 := BitVec.eq_of_toNat_eq (by simpa using hleft)
    bv_omega

theorem Moved.move (h : Moved hint s) {n : Nat} (hn : n ≤ (hint.last - s.offset).toNat) : Moved hint (s.move n) := by
  have hleft := h.left
  have hle := h.sent_le
  constructor
  · rw [FileSending.move, h.offset_eq, BitVec.ofNat_add, BitVec.add_assoc]
  · rw [FileSending.move]
    simp only
    omega

/-! ## §3 — how the send ends. -/

/-- What the loop comes to from a place where something is left. -/
structure FileRun (hint : WriteFileHint) (answers : List Sendfile) (s : FileSending)
    (out : FileSending × Option FileResult) : Prop where
  size : ∀ res, out.2 = some res → res.size.toNat = out.1.sent
  short : ∀ res, out.2 = some res →
    ((res.ec = none ↔ out.1.sent = hint.size.toNat) ↔ ¬ ShortFile (hint.size.toNat - s.sent) answers)
  waits : out.2 = none → s.sent + sends answers ≤ out.1.sent ∧ out.1.sent < hint.size.toNat

/-- The loop has come back. -/
theorem fileRun_done {answers : List Sendfile} {s₀ : FileSending} {ec : Option FileError} (h : Moved hint s)
    (hshort : (ec = none ↔ s.sent = hint.size.toNat) ↔ ¬ ShortFile (hint.size.toNat - s₀.sent) answers) :
    FileRun hint answers s₀ (s, some (s.result hint ec)) where
  size res hres := by
    rw [← Option.some.inj hres]
    exact h.size ec
  short res hres := by
    rw [← Option.some.inj hres]
    exact hshort
  waits hnone := by cases hnone

/-- **The loop**, as long as something is left. -/
theorem fileLoop_run (answers : List Sendfile) (h : Moved hint s) (hless : s.sent < hint.size.toNat)
    (hkernel : AtMostAsked hint answers s) : FileRun hint answers s (fileLoop hint answers s) := by
  induction answers generalizing s with
  | nil =>
    rw [fileLoop]
    constructor
    · intro res hres
      cases hres
    · intro res hres
      cases hres
    · intro _
      exact ⟨le_rfl, hless⟩
  | cons answer rest ih =>
    have hleft := h.left
    have hopen : s.offset ≠ hint.last := fun hmet => hless.ne (h.done_iff.mp hmet)
    cases answer with
    | sent n =>
      obtain ⟨hn, hrest⟩ := hkernel
      rw [fileLoop]
      by_cases hzero : n = 0
      · -- the end of the file: left as if all was sent
        rw [if_pos hzero, if_pos hopen]
        apply fileRun_done h
        rw [ShortFile]
        simp [hzero, hless.ne]
      · rw [if_neg hzero]
        have hmoved := h.move hn
        have hsent : (s.move n).sent = s.sent + n := rfl
        by_cases hmore : (s.move n).offset ≠ hint.last
        · -- a partial count: on from the new place
          rw [if_pos hmore]
          have hle := hmoved.sent_le
          have hlt : (s.move n).sent < hint.size.toNat := lt_of_le_of_ne hle fun hall => hmore (hmoved.done_iff.mpr hall)
          have hrun := ih hmoved hlt hrest
          constructor
          · exact hrun.size
          · intro res hres
            rw [hrun.short res hres, ShortFile, hsent, Nat.sub_add_eq]
            have : n < hint.size.toNat - s.sent := by omega
            simp [hzero, this]
          · intro hnone
            obtain ⟨hcount, hend⟩ := hrun.waits hnone
            rw [sends]
            exact ⟨by omega, hend⟩
        · rw [if_neg hmore]
          have hall := hmoved.done_iff.mp (not_not.mp hmore)
          apply fileRun_done hmoved
          rw [ShortFile]
          have : ¬ n < hint.size.toNat - s.sent := by omega
          simp [hzero, hall, this]
    | again signalled =>
      rw [fileLoop]
      cases signalled with
      | false =>
        rw [if_pos rfl]
        apply fileRun_done h
        simp [ShortFile, hless.ne]
      | true =>
        -- the same call again
        rw [if_neg (by decide), if_pos hopen]
        have hrun := ih h hless hkernel
        constructor
        · exact hrun.size
        · intro res hres
          rw [hrun.short res hres, ShortFile]
          simp
        · exact hrun.waits
    | failed errno =>
      rw [fileLoop]
      apply fileRun_done h
      simp [ShortFile, hless.ne]

/-- **The send comes back** before the kernel has sent something more often than there are bytes. -/
theorem sendFile_ends (opening : Option Nat) (answers : List Sendfile) (hsize : hint.size ≠ 0)
    (hkernel : AtMostAsked hint answers ⟨hint.offset, 0⟩) (hwaits : (sendFile hint opening answers).2 = none) :
    sends answers < hint.size.toNat := by
  cases opening with
  | some errno => cases hwaits
  | none =>
    have hpos : 0 < hint.size.toNat := Nat.pos_of_ne_zero fun h0 => hsize (BitVec.eq_of_toNat_eq h0)
    obtain ⟨hcount, hless⟩ := (fileLoop_run answers (moved_start hint) hpos hkernel).waits hwaits
    simp only at hcount
    omega

/-- Nothing to send: the first answer ends the loop, and only a wait ends it without an error. -/
theorem fileLoop_empty (hsize : hint.size = 0) {answer : Sendfile} {rest : List Sendfile}
    (hkernel : AtMostAsked hint (answer :: rest) ⟨hint.offset, 0⟩) :
    ∃ ec, fileLoop hint (answer :: rest) ⟨hint.offset, 0⟩ = (⟨hint.offset, 0⟩, some ⟨0, ec⟩) ∧
      (ec = none ↔ answer = .again true) := by
  have hlast : hint.last = hint.offset := by
    rw [WriteFileHint.last, hsize]
    exact BitVec.zero_add _
  have hzero : ∀ ec, FileSending.result hint ⟨hint.offset, 0⟩ ec = ⟨0, ec⟩ := by
    intro ec
    rw [FileSending.result, BitVec.sub_self]
    rfl
  cases answer with
  | sent n =>
    obtain rfl : n = 0 := by
      have hn := hkernel.1
      rw [hlast, BitVec.sub_self] at hn
      exact Nat.le_zero.mp hn
    rw [fileLoop, if_pos rfl, if_neg (not_not.mpr hlast.symm), hzero]
    exact ⟨_, rfl, by simp⟩
  | again signalled =>
    cases signalled with
    | false =>
      rw [fileLoop, if_pos rfl, hzero]
      exact ⟨_, rfl, by simp⟩
    | true =>
      rw [fileLoop, if_neg (by decide), if_neg (not_not.mpr hlast.symm), hzero]
      exact ⟨_, rfl, by simp⟩
  | failed errno =>
    rw [fileLoop, hzero]
    exact ⟨_, rfl, by simp⟩

/-- **What a send reports is what it did** exactly when it does not come upon the end of the file inside its range; a
send of an empty range only when the file is there and its one call has to wait. -/
theorem sendFile_reports_iff (opening : Option Nat) (answers : List Sendfile)
    (hkernel : AtMostAsked hint answers ⟨hint.offset, 0⟩) (hback : (sendFile hint opening answers).2 ≠ none) :
    Reports hint (sendFile hint opening answers) ↔ Announced hint opening answers := by
  obtain ⟨res, hres⟩ := Option.ne_none_iff_exists'.mp hback
  have hone : Reports hint (sendFile hint opening answers) ↔
      (res.ec = none ↔ (sendFile hint opening answers).1.sent = hint.size.toNat) ∧
        res.size.toNat = (sendFile hint opening answers).1.sent := by
    constructor
    · intro h
      exact h res hres
    · intro h res' hres'
      rw [hres] at hres'
      rw [← Option.some.inj hres']
      exact h
  rw [hone, Announced]
  cases opening with
  | some errno =>
    -- the file cannot be opened: an error, and nothing is sent
    obtain rfl : ⟨0, some (.errno errno)⟩ = res := Option.some.inj hres
    by_cases hsize : hint.size = 0
    · simp [sendFile, hsize]
    · have hne : ¬ 0 = hint.size.toNat := fun h0 => hsize (BitVec.eq_of_toNat_eq h0.symm)
      rw [if_neg hsize]
      simp [sendFile, hne]
  | none =>
    rw [sendFile] at hres ⊢
    by_cases hsize : hint.size = 0
    · rw [if_pos hsize]
      cases answers with
      | nil => cases hres
      | cons answer rest =>
        obtain ⟨ec, hloop, hec⟩ := fileLoop_empty hsize hkernel
        rw [hloop] at hres ⊢
        obtain rfl : ⟨0, ec⟩ = res := Option.some.inj hres
        simp [hsize, hec]
    · have hpos : 0 < hint.size.toNat := Nat.pos_of_ne_zero fun h0 => hsize (BitVec.eq_of_toNat_eq h0)
      have hrun := fileLoop_run answers (moved_start hint) hpos hkernel
      rw [if_neg hsize, hrun.short res hres, Nat.sub_zero]
      constructor
      · intro h _
        exact h.1
      · intro h
        exact ⟨h rfl, hrun.size res hres⟩

def tenBytes : WriteFileHint := ⟨[47, 102], 0, 10⟩

/-- Ten bytes in two parts, with a wait between them. -/
theorem sendFile_reports_two_parts : Reports tenBytes (sendFile tenBytes none [.sent 4, .again true, .sent 6]) :=
  (sendFile_reports_iff none [.sent 4, .again true, .sent 6] ⟨by decide, by decide, trivial⟩ (by decide)).mpr
    (by simp [Announced, ShortFile, tenBytes])

/-- **A file that is shorter than announced**: three of ten bytes, and no error. -/
theorem sendFile_fails_to_report :
    ¬ ∀ (hint : WriteFileHint) (opening : Option Nat) (answers : List Sendfile),
      AtMostAsked hint answers ⟨hint.offset, 0⟩ → Reports hint (sendFile hint opening answers) := by
  intro h
  have hthree := h tenBytes none [.sent 3, .sent 0] ⟨by decide, by decide, trivial⟩ ⟨3, none⟩ (by decide)
  exact absurd (hthree.1.mp rfl) (by decide)

end NetCpp.Io
