/-
# NetCpp.Http.Appends — any calls of `append`, and what `write` sends.

`include/xsl/asio/http/request.h`.  `append_spec` says that a piece of at most a block is stored.  Here the pieces are
of any length: one that would end behind the next block makes the loop of `append` copy the same block for ever, so
the call does not return, whatever the bound on its turns.  `stores_iff` says of any calls that this is all that can
go wrong.

`write` appends the last `CRLF` for good, where `to_string` puts it behind the text it shows.
-/
import NetCpp.Http.Builder

namespace NetCpp.Http.RequestPartBuilder

open NetCpp.Lib

/-! ## §1 — the calls, and `write`. -/

/-- A call of one of the two `append`. -/
inductive Call
  | char (c : UInt8)
  | str (s : Bytes)

namespace Call

def text : Call → Bytes
  | char c => [c]
  | str s => s

def run (turns : Nat) : Call → RequestPartBuilder → Option RequestPartBuilder
  | char c, b => some (b.appendChar c)
  | str s, b => b.append turns s

end Call

/-- The builder after the calls; `none` when one of them is not done after `turns` turns. -/
def runCalls (turns : Nat) (calls : List Call) (b : RequestPartBuilder) : Option RequestPartBuilder :=
  calls.foldlM (fun b c => c.run turns b) b

/-- The pieces `write` hands to the device: the full blocks, and the last one up to the offset. -/
def blocks (b : RequestPartBuilder) : List Bytes :=
  b.full.map (slice · 0 HTTP_BUFFER_BLOCK_SIZE) ++ if b.offset > 0 then [slice b.back 0 b.offset] else []

/-- The writes of the pieces, up to the first that fails; `awd` answers with an error or none. -/
def sendBlocks {E : Type} (awd : List Bytes → Bytes → Option E) : List Bytes → List Bytes → List Bytes × Option E
  | sent, [] => (sent, none)
  | sent, block :: rest =>
    match awd sent block with
    | some e => (sent, some e)
    | none => sendBlocks awd (sent ++ [block]) rest

/-- `write`: the builder, which always has a block, the pieces that were sent, and the error. -/
def writeTo {E : Type} (turns : Nat) (awd : List Bytes → Bytes → Option E) (b : RequestPartBuilder) :
    Option (RequestPartBuilder × List Bytes × Option E) :=
  (b.append turns CRLF).map fun b => (b, sendBlocks awd [] b.blocks)

/-- **What the calls are for**: all of them return, `to_string` shows their texts, and `write` to a device without
errors sends what `to_string` showed. -/
def Stores (calls : List Call) : Prop :=
  ∃ turns b, runCalls turns calls init = some b ∧ b.toString = calls.flatMap Call.text ++ CRLF ∧
    ∀ (E : Type) (awd : List Bytes → Bytes → Option E), (∀ sent block, awd sent block = none) →
      ∃ b' sent, b.writeTo turns awd = some (b', sent, none) ∧ sent.flatten = b.toString

/-- No call begins with `n` bytes in front of it and ends behind the next block. -/
def Short : Nat → List Call → Prop
  | _, [] => True
  | n, c :: rest => n % HTTP_BUFFER_BLOCK_SIZE + c.text.length ≤ 2 * HTTP_BUFFER_BLOCK_SIZE ∧ Short (n + c.text.length) rest

/-! ## §2 — one call. -/

variable {b : RequestPartBuilder}

theorem length_written (b : RequestPartBuilder) :
    b.written.length = HTTP_BUFFER_BLOCK_SIZE * b.full.length + b.offset := by
  rw [written_eq, length_chainText]

/-- A call begins in its block where the text ends. -/
theorem checkAppend_offset (h : b.offset ≤ HTTP_BUFFER_BLOCK_SIZE) :
    b.checkAppend.offset = b.written.length % HTTP_BUFFER_BLOCK_SIZE := by
  obtain ⟨hroom, htext⟩ := checkAppend_spec h
  rw [← htext, length_written, Nat.mul_add_mod, Nat.mod_eq_of_lt hroom]

/-- The loop does not shorten the rest. -/
theorem spill_eq_none {data : Bytes} (h : data.length > HTTP_BUFFER_BLOCK_SIZE) (turns : Nat) (b : RequestPartBuilder) :
    spill data turns b = none := by
  induction turns generalizing b with
  | zero => exact if_pos h
  | succ n ih =>
    rw [spill, if_pos h]
    exact ih _

/-- **A string that would end behind the next block** is never stored. -/
theorem append_eq_none {str : Bytes} (h : b.checkAppend.offset + str.length > 2 * HTTP_BUFFER_BLOCK_SIZE)
    (hoff : b.offset ≤ HTTP_BUFFER_BLOCK_SIZE) (turns : Nat) : b.append turns str = none := by
  have hroom := (checkAppend_spec hoff).1
  have hnil : str ≠ [] := by
    rintro rfl
    simp only [List.length_nil] at h
    omega
  have hfit : ¬ b.checkAppend.offset + str.length ≤ HTTP_BUFFER_BLOCK_SIZE := by omega
  have hlong : (str.drop (HTTP_BUFFER_BLOCK_SIZE - b.checkAppend.offset)).length > HTTP_BUFFER_BLOCK_SIZE := by
    rw [List.length_drop]
    omega
  simp only [append, if_neg hnil, if_neg hfit, spill_eq_none hlong]

/-- **One call**: it stores its text, or there is no bound on its turns. -/
theorem run_call (c : Call) (turns : Nat) (hoff : b.offset ≤ HTTP_BUFFER_BLOCK_SIZE) :
    (b.written.length % HTTP_BUFFER_BLOCK_SIZE + c.text.length ≤ 2 * HTTP_BUFFER_BLOCK_SIZE ∧
      ∃ b', c.run turns b = some b' ∧ b'.offset ≤ HTTP_BUFFER_BLOCK_SIZE ∧ b'.written = b.written ++ c.text) ∨
    (¬ b.written.length % HTTP_BUFFER_BLOCK_SIZE + c.text.length ≤ 2 * HTTP_BUFFER_BLOCK_SIZE ∧
      c.run turns b = none) := by
  rw [← checkAppend_offset hoff]
  cases c with
  | char x =>
    have hroom := (checkAppend_spec hoff).1
    have hone : (Call.char x).text.length = 1 := rfl
    obtain ⟨hoff', htext⟩ := appendChar_spec x hoff
    exact Or.inl ⟨by omega, _, rfl, hoff', htext⟩
  | str s =>
    by_cases hshort : b.checkAppend.offset + s.length ≤ 2 * HTTP_BUFFER_BLOCK_SIZE
    · exact Or.inl ⟨hshort, append_of_short turns s hoff hshort⟩
    · exact Or.inr ⟨hshort, append_eq_none (Nat.lt_of_not_le hshort) hoff turns⟩

/-! ## §3 — the run. -/

/-- **Calls that are short** are stored one behind another. -/
theorem runCalls_of_short (turns : Nat) (calls : List Call) (hoff : b.offset ≤ HTTP_BUFFER_BLOCK_SIZE)
    (h : Short b.written.length calls) :
    ∃ b', runCalls turns calls b = some b' ∧ b'.offset ≤ HTTP_BUFFER_BLOCK_SIZE ∧
      b'.written = b.written ++ calls.flatMap Call.text := by
  induction calls generalizing b with
  | nil => exact ⟨b, rfl, hoff, by simp⟩
  | cons c calls ih =>
    obtain ⟨hc, hrest⟩ := h
    rcases run_call c turns hoff with ⟨-, b₁, hrun, hoff₁, htext⟩ | ⟨hlong, -⟩
    · have hlen : b₁.written.length = b.written.length + c.text.length := by rw [htext, List.length_append]
      rw [← hlen] at hrest
      obtain ⟨b', hrun', hoff', htext'⟩ := ih hoff₁ hrest
      refine ⟨b', ?_, hoff', ?_⟩
      · rw [runCalls, List.foldlM_cons, hrun]
        exact hrun'
      · rw [htext', htext, List.flatMap_cons, List.append_assoc]
    · exact absurd hc hlong

/-- **Calls that return** are short. -/
theorem short_of_runCalls {turns : Nat} {calls : List Call} {b' : RequestPartBuilder}
    (hoff : b.offset ≤ HTTP_BUFFER_BLOCK_SIZE) (h : runCalls turns calls b = some b') : Short b.written.length calls := by
  induction calls generalizing b with
  | nil => trivial
  | cons c calls ih =>
    rw [runCalls, List.foldlM_cons] at h
    rcases run_call c turns hoff with ⟨hc, b₁, hrun, hoff₁, htext⟩ | ⟨-, hrun⟩
    · rw [hrun] at h
      refine ⟨hc, ?_⟩
      have hlen : b₁.written.length = b.written.length + c.text.length := by rw [htext, List.length_append]
      rw [← hlen]
      exact ih hoff₁ h
    · rw [hrun] at h
      cases h

theorem flatten_blocks (b : RequestPartBuilder) : b.blocks.flatten = b.written := by
  rw [blocks, written, List.flatten_append, List.flatMap_def]
  by_cases h : b.offset > 0
  · -- the last block has something in it
    rw [if_pos h, if_pos h, List.flatten_singleton]
  · rw [if_neg h, if_neg h, List.flatten_nil]

/-- Without an error all pieces are sent. -/
theorem sendBlocks_of_ok {E : Type} {awd : List Bytes → Bytes → Option E} (h : ∀ sent block, awd sent block = none)
    (sent pieces : List Bytes) : sendBlocks awd sent pieces = (sent ++ pieces, none) := by
  induction pieces generalizing sent with
  | nil => rw [sendBlocks, List.append_nil]
  | cons block rest ih =>
    rw [sendBlocks, h]
    simp only [ih, List.append_assoc, List.singleton_append]

/-- **`write` sends what `to_string` shows.** -/
theorem writeTo_spec {E : Type} {awd : List Bytes → Bytes → Option E} (h : ∀ sent block, awd sent block = none)
    (turns : Nat) (hoff : b.offset ≤ HTTP_BUFFER_BLOCK_SIZE) :
    ∃ b' sent, b.writeTo turns awd = some (b', sent, none) ∧ sent.flatten = b.toString := by
  obtain ⟨b', happend, -, htext⟩ := append_spec turns CRLF hoff (by decide)
  refine ⟨b', b'.blocks, ?_, ?_⟩
  · rw [writeTo, happend, Option.map_some, sendBlocks_of_ok h, List.nil_append]
  · rw [flatten_blocks, htext, toString]

/-- **The text is stored** exactly when no string reaches behind the block after the one it begins in. -/
theorem stores_iff (calls : List Call) : Stores calls ↔ Short 0 calls := by
  have hinit : init.offset ≤ HTTP_BUFFER_BLOCK_SIZE := Nat.zero_le _
  constructor
  · rintro ⟨turns, b, hrun, -, -⟩
    exact short_of_runCalls hinit hrun
  · intro h
    obtain ⟨b, hrun, hoff, htext⟩ := runCalls_of_short (b := init) 0 calls hinit h
    refine ⟨0, b, hrun, ?_, ?_⟩
    · rw [toString, htext]
      rfl
    · intro E awd hok
      exact writeTo_spec hok 0 hoff

/-- **A string of two blocks and a byte** never returns. -/
theorem long_string_never_returns :
    (∀ turns, init.append turns (List.replicate 8193 97) = none) ∧ ¬ Stores [.str (List.replicate 8193 97)] := by
  have hnone : ∀ turns, init.append turns (List.replicate 8193 97) = none := by
    apply append_eq_none
    · rw [List.length_replicate]
      decide
    · exact Nat.zero_le _
  refine ⟨hnone, ?_⟩
  rintro ⟨turns, b, hrun, -⟩
  rw [runCalls, List.foldlM_cons, Call.run, hnone] at hrun
  cases hrun

end NetCpp.Http.RequestPartBuilder
