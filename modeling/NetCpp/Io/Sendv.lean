/-
# NetCpp.Io.Sendv — `sendv` against a kernel that takes any part of what it is offered.

`include/xsl/asio/io.h`.  The loop keeps a position in the list of chunks: `idx`, and `offset` into that chunk.  Each
turn offers the kernel what stands behind the position, as `iovec`s without the empty ones, and moves the position
behind what the kernel has taken; chunks may be empty anywhere, so it may move over several of them.

`Placed` is the invariant: the position stands where `written` bytes end, and the kernel has accepted just these.  The
answers of the kernel are a list, one for each call of `::writev`; the loop has not come back yet when the list is used
up.
-/
import NetCpp.Lib.Bytes

namespace NetCpp.Io

open NetCpp.Lib

/-! ## §1 — the loop. -/

def writevMaxChunks : Nat := 8

inductive SendError
  | invalidArgument
  | notConnected
  | errno (n : Nat)
  deriving DecidableEq

/-- What a call of `::writev` comes to: bytes taken, `EAGAIN` with what the signal then says, or an error. -/
inductive Writev
  | wrote (w : Nat)
  | again (signalled : Bool)
  | failed (errno : Nat)
  deriving DecidableEq

/-- `io::Result` -/
structure SendResult where
  size : Nat
  ec : Option SendError
  deriving DecidableEq

/-- The variables of the loop.  `accepted` is a history variable: the bytes the kernel has taken, call by call. -/
structure Sending where
  written : Nat := 0
  idx : Nat := 0
  offset : Nat := 0
  accepted : List Bytes := []

section Chunks

variable (chunks : List Bytes)

def total : Nat := (chunks.map List.length).sum

/-- The `iovec`s of a turn: the chunks from `idx` on, the first one from `offset` on, the empty ones skipped. -/
def iovecs (s : Sending) : List Bytes :=
  match chunks.drop s.idx with
  | [] => []
  | c :: rest => (c.drop s.offset :: rest).filter (· ≠ [])

/-- The inner loop over the chunks that are written. -/
def normalise : List Bytes → Nat → Nat → Nat × Nat
  | [], idx, offset => (idx, offset)
  | c :: rest, idx, offset =>
    if offset ≥ c.length then normalise rest (idx + 1) (offset - c.length) else (idx, offset)

/-- The kernel has taken `w` bytes. -/
def advance (w : Nat) (s : Sending) : Sending where
  written := s.written + w
  idx := (normalise (chunks.drop s.idx) s.idx (s.offset + w)).1
  offset := (normalise (chunks.drop s.idx) s.idx (s.offset + w)).2
  accepted := s.accepted ++ [(iovecs chunks s).flatten.take w]

/-- The loop over the answers; `none` when it still waits for one. -/
def sendLoop : List Writev → Sending → Sending × Option SendResult
  | [], s => (s, if iovecs chunks s = [] then some ⟨s.written, none⟩ else none)
  | answer :: rest, s =>
    if iovecs chunks s = [] then (s, some ⟨s.written, none⟩)
    else
      match answer with
      | .wrote w =>
        -- no progress
        if w = 0 then (s, some ⟨s.written, none⟩)
        else if (advance chunks w s).written < total chunks then sendLoop rest (advance chunks w s)
        else (advance chunks w s, some ⟨(advance chunks w s).written, none⟩)
      | .again signalled =>
        -- `co_await sig`
        if signalled = false then (s, some ⟨s.written, some .notConnected⟩)
        else if s.written < total chunks then sendLoop rest s
        else (s, some ⟨s.written, none⟩)
      | .failed errno => (s, some ⟨s.written, some (.errno errno)⟩)

def sendv (answers : List Writev) : Sending × Option SendResult :=
  if chunks.length > writevMaxChunks then ({}, some ⟨0, some .invalidArgument⟩)
  else if total chunks = 0 then ({}, some ⟨0, none⟩)
  else sendLoop chunks answers {}

/-- **A kernel** takes at least a byte and at most what it is offered, or answers with an error. -/
def Honest : List Writev → Sending → Prop
  | [], _ => True
  | .wrote w :: rest, s =>
    iovecs chunks s ≠ [] → 1 ≤ w ∧ w ≤ (iovecs chunks s).flatten.length ∧ Honest rest (advance chunks w s)
  | .again signalled :: rest, s => signalled = true → Honest rest s
  | .failed _ :: _, _ => True

end Chunks

/-- How often the kernel takes bytes. -/
def writes : List Writev → Nat
  | [] => 0
  | .wrote _ :: rest => writes rest + 1
  | .again _ :: rest | .failed _ :: rest => writes rest

/-- Where an error comes from: the kernel, or a signal that was stopped. -/
def EndedBy (answers : List Writev) (e : SendError) : Prop :=
  (∃ n, e = .errno n ∧ .failed n ∈ answers) ∨ e = .notConnected ∧ .again false ∈ answers

/-- **Exactly once, in order**: the kernel accepts a prefix of the chunks; the loop ends with all of them unless an
error or a stopped signal ends it, and the size it returns is what was accepted.  It does not take more writes than
there are bytes. -/
structure SentOnce (chunks : List Bytes) (answers : List Writev) (out : Sending × Option SendResult) : Prop where
  inOrder : out.1.accepted.flatten <+: chunks.flatten
  written : out.1.written = out.1.accepted.flatten.length
  size : ∀ res, out.2 = some res → res.size = out.1.accepted.flatten.length
  all : ∀ res, out.2 = some res → res.ec = none → out.1.written = total chunks
  error : ∀ res e, out.2 = some res → res.ec = some e → EndedBy answers e
  ends : out.2 = none → writes answers < total chunks

/-! ## §2 — one turn. -/

variable {chunks : List Bytes} {s : Sending}

theorem total_eq (chunks : List Bytes) : total chunks = chunks.flatten.length := by
  rw [total, List.length_flatten]

/-- **The position** stands behind the bytes that were accepted. -/
structure Placed (chunks : List Bytes) (s : Sending) : Prop where
  idx_le : s.idx ≤ chunks.length
  offset_le : s.offset ≤ (chunks.getD s.idx []).length
  written_eq : (chunks.take s.idx).flatten.length + s.offset = s.written
  accepted_eq : s.accepted.flatten = chunks.flatten.take s.written

theorem placed_start (chunks : List Bytes) : Placed chunks {} where
  idx_le := Nat.zero_le _
  offset_le := Nat.zero_le _
  written_eq := rfl
  accepted_eq := rfl

/-- The chunks before the position and those behind it. -/
theorem flatten_cut (chunks : List Bytes) (n : Nat) :
    chunks.flatten = (chunks.take n).flatten ++ (chunks.drop n).flatten := by
  rw [← List.flatten_append, List.take_append_drop]

/-- The offset is in the first chunk behind `idx`. -/
theorem Placed.offset_le_head (h : Placed chunks s) : s.offset ≤ ((chunks.drop s.idx).headD []).length := by
  have hoffset := h.offset_le
  rwa [List.getD_eq_getElem?_getD, ← List.head?_drop, ← List.headD_eq_head?_getD] at hoffset

/-- **What is offered** is what is not yet written. -/
theorem flatten_iovecs (h : Placed chunks s) : (iovecs chunks s).flatten = chunks.flatten.drop s.written := by
  have hoffset := h.offset_le_head
  rw [flatten_cut chunks s.idx, ← h.written_eq, ← List.drop_drop, List.drop_left, iovecs]
  cases hrest : chunks.drop s.idx with
  | nil => simp
  | cons c rest =>
    rw [hrest, List.headD_cons] at hoffset
    rw [List.flatten_filter_ne_nil, List.flatten_cons, List.flatten_cons, List.drop_append_of_le_length hoffset]

theorem written_le (h : Placed chunks s) : s.written ≤ total chunks := by
  have hoffset := h.offset_le_head
  rw [total_eq, flatten_cut chunks s.idx, List.length_append, ← h.written_eq]
  cases hrest : chunks.drop s.idx with
  | nil =>
    rw [hrest, List.headD_nil, List.length_nil] at hoffset
    omega
  | cons c rest =>
    rw [hrest, List.headD_cons] at hoffset
    rw [List.flatten_cons, List.length_append]
    omega

/-- Nothing is offered when everything is written. -/
theorem iovecs_eq_nil_iff (h : Placed chunks s) : iovecs chunks s = [] ↔ s.written = total chunks := by
  have hle := written_le h
  have hflat := flatten_iovecs h
  rw [total_eq] at *
  constructor
  · intro hnil
    rw [hnil, List.flatten_nil] at hflat
    have := List.drop_eq_nil_iff.mp hflat.symm
    omega
  · intro hall
    rw [hall, List.drop_length, List.flatten_eq_nil_iff] at hflat
    rw [List.eq_nil_iff_forall_not_mem]
    intro v hv
    have hne : v ≠ [] := by
      unfold iovecs at hv
      split at hv
      · cases hv
      · simpa using (List.mem_filter.mp hv).2
    exact hne (hflat v hv)

/-- **The inner loop** keeps the place, and ends inside a chunk or behind the last. -/
theorem normalise_spec (l : List Bytes) (idx offset : Nat) (h : offset ≤ l.flatten.length) :
    ∃ k ≤ l.length, (normalise l idx offset).1 = idx + k ∧
      (l.take k).flatten.length + (normalise l idx offset).2 = offset ∧
      (normalise l idx offset).2 ≤ (l.getD k []).length := by
  induction l generalizing idx offset with
  | nil => exact ⟨0, le_rfl, rfl, by simp [normalise], h⟩
  | cons c rest ih =>
    rw [normalise]
    by_cases hover : offset ≥ c.length
    · -- the chunk is written, maybe an empty one
      rw [if_pos hover]
      rw [List.flatten_cons, List.length_append] at h
      obtain ⟨k, hk, hidx, hplace, hle⟩ := ih (idx + 1) (offset - c.length) (by omega)
      refine ⟨k + 1, ?_, by omega, ?_, hle⟩
      · rw [List.length_cons]
        omega
      · rw [List.take_succ_cons, List.flatten_cons, List.length_append]
        omega
    · rw [if_neg hover]
      refine ⟨0, Nat.zero_le _, rfl, by simp, ?_⟩
      exact (Nat.lt_of_not_le hover).le

/-- **A write** keeps the position. -/
theorem Placed.advance (h : Placed chunks s) {w : Nat} (hw : w ≤ (iovecs chunks s).flatten.length) :
    Placed chunks (advance chunks w s) := by
  have hflat := flatten_iovecs h
  have hroom : s.offset + w ≤ (chunks.drop s.idx).flatten.length := by
    have hlen := congrArg List.length (flatten_cut chunks s.idx)
    have hplace := h.written_eq
    rw [List.length_append] at hlen
    rw [hflat, List.length_drop] at hw
    have hle := written_le h
    rw [total_eq] at hle
    omega
  obtain ⟨k, hk, hidx, hplace, hle⟩ := normalise_spec (chunks.drop s.idx) s.idx (s.offset + w) hroom
  have hwritten := h.written_eq
  have hidx_le := h.idx_le
  rw [List.length_drop] at hk
  constructor
  · rw [Io.advance, hidx]
    simp only
    omega
  · rw [Io.advance, hidx]
    simpa [List.getD_eq_getElem?_getD, List.getElem?_drop] using hle
  · rw [Io.advance, hidx]
    rw [List.take_add, List.flatten_append, List.length_append]
    simp only
    omega
  · rw [Io.advance]
    simp only
    rw [List.flatten_append, List.flatten_singleton, h.accepted_eq, hflat, List.take_add]

/-! ## §3 — the loop. -/

/-- What the loop comes to from a state in which something is left. -/
structure Run (chunks : List Bytes) (answers : List Writev) (s : Sending) (out : Sending × Option SendResult) : Prop where
  placed : Placed chunks out.1
  size : ∀ res, out.2 = some res → res.size = out.1.written
  all : ∀ res, out.2 = some res → res.ec = none → out.1.written = total chunks
  error : ∀ res e, out.2 = some res → res.ec = some e → EndedBy answers e
  waits : out.2 = none → s.written + writes answers ≤ out.1.written ∧ out.1.written < total chunks

theorem EndedBy.cons {answers : List Writev} {e : SendError} (h : EndedBy answers e) (answer : Writev) :
    EndedBy (answer :: answers) e := by
  rcases h with ⟨n, he, hmem⟩ | ⟨he, hmem⟩
  · exact Or.inl ⟨n, he, List.mem_cons_of_mem _ hmem⟩
  · exact Or.inr ⟨he, List.mem_cons_of_mem _ hmem⟩

/-- The loop has come back. -/
theorem run_done (h : Placed chunks s) (answers : List Writev) {s₀ : Sending} {ec : Option SendError}
    (hall : ec = none → s.written = total chunks) (herror : ∀ e, ec = some e → EndedBy answers e) :
    Run chunks answers s₀ (s, some ⟨s.written, ec⟩) where
  placed := h
  size res hres := by rw [← Option.some.inj hres]
  all res hres hec := by
    rw [← Option.some.inj hres] at hec
    exact hall hec
  error res e hres hec := by
    rw [← Option.some.inj hres] at hec
    exact herror e hec
  waits hnone := by cases hnone

/-- **The loop** keeps the position, and ends as it should. -/
theorem sendLoop_run (answers : List Writev) (h : Placed chunks s) (hless : s.written < total chunks)
    (hkernel : Honest chunks answers s) : Run chunks answers s (sendLoop chunks answers s) := by
  induction answers generalizing s with
  | nil =>
    have hoffer : iovecs chunks s ≠ [] := fun hnil => hless.ne ((iovecs_eq_nil_iff h).mp hnil)
    rw [sendLoop, if_neg hoffer]
    refine ⟨h, ?_, ?_, ?_, fun _ => ⟨le_rfl, hless⟩⟩
    · intro res hres
      cases hres
    · intro res hres
      cases hres
    · intro res e hres
      cases hres
  | cons answer rest ih =>
    have hoffer : iovecs chunks s ≠ [] := fun hnil => hless.ne ((iovecs_eq_nil_iff h).mp hnil)
    cases answer with
    | wrote w =>
      rw [sendLoop, if_neg hoffer]
      obtain ⟨hpos, hle, hrest⟩ := hkernel hoffer
      have hplaced := h.advance hle
      have hzero : w ≠ 0 := by omega
      rw [if_neg hzero]
      by_cases hmore : (advance chunks w s).written < total chunks
      · -- a partial write: on from the new position
        rw [if_pos hmore]
        have hrun := ih hplaced hmore hrest
        refine ⟨hrun.placed, hrun.size, hrun.all, fun res e hres hec => (hrun.error res e hres hec).cons _, ?_⟩
        intro hnone
        obtain ⟨hcount, hlt⟩ := hrun.waits hnone
        have hw : (advance chunks w s).written = s.written + w := rfl
        rw [writes]
        exact ⟨by omega, hlt⟩
      · rw [if_neg hmore]
        have hend := written_le hplaced
        exact run_done hplaced _ (fun _ => by omega) fun e he => by cases he
    | again signalled =>
      rw [sendLoop, if_neg hoffer]
      cases signalled with
      | false => exact run_done h _ (fun he => by cases he) fun e he => Or.inr ⟨(Option.some.inj he).symm, by simp⟩
      | true =>
        -- the same turn again
        rw [if_neg (by decide), if_pos hless]
        have hrun := ih h hless (hkernel rfl)
        exact ⟨hrun.placed, hrun.size, hrun.all, fun res e hres hec => (hrun.error res e hres hec).cons _, hrun.waits⟩
    | failed errno =>
      rw [sendLoop, if_neg hoffer]
      exact run_done h _ (fun he => by cases he) fun e he => Or.inl ⟨errno, (Option.some.inj he).symm, by simp⟩

/-- **The chunks are written exactly once, in order.** -/
theorem sendv_once (chunks : List Bytes) (answers : List Writev) (hn : chunks.length ≤ writevMaxChunks)
    (hkernel : Honest chunks answers {}) : SentOnce chunks answers (sendv chunks answers) := by
  have hrun : Run chunks answers {} (sendv chunks answers) := by
    rw [sendv, if_neg (Nat.not_lt.mpr hn)]
    by_cases hzero : total chunks = 0
    · rw [if_pos hzero]
      exact run_done (placed_start chunks) _ (fun _ => hzero.symm) fun e he => by cases he
    · rw [if_neg hzero]
      exact sendLoop_run answers (placed_start chunks) (Nat.pos_of_ne_zero hzero) hkernel
  have hlen : (sendv chunks answers).1.accepted.flatten.length = (sendv chunks answers).1.written := by
    have hle := written_le hrun.placed
    rw [total_eq] at hle
    rw [hrun.placed.accepted_eq, List.length_take]
    omega
  constructor
  · rw [hrun.placed.accepted_eq]
    exact List.take_prefix _ _
  · exact hlen.symm
  · intro res hres
    rw [hlen]
    exact hrun.size res hres
  · exact hrun.all
  · exact hrun.error
  · intro hnone
    obtain ⟨hcount, hlt⟩ := hrun.waits hnone
    exact Nat.lt_of_le_of_lt (by omega) hlt

/-- Three chunks, the middle one empty, in two writes with a wait between them. -/
theorem sendv_once_three : SentOnce [[1, 2], [], [3]] [.wrote 1, .again true, .wrote 2]
    (sendv [[1, 2], [], [3]] [.wrote 1, .again true, .wrote 2]) :=
  sendv_once [[1, 2], [], [3]] [.wrote 1, .again true, .wrote 2] (by decide)
    fun _ => ⟨by decide, by decide, fun _ _ => ⟨by decide, by decide, trivial⟩⟩

end NetCpp.Io
