/-
# NetCpp.Http.Growth — the read buffer of a connection stays bounded.

The calls of `read` on one object as a sequence of atomic steps, with the states BETWEEN the two loops, the
rotation and the reader's answer in it.  A rotation carries an unfinished line into the next block, so a block is
only partly new data, and a single rotation may bring as little as one new byte.  Two consecutive ones cannot:
the line that was carried into a block must end in it before the next rotation, so that a block's own part and
the tail it was begun with together pay for half of it.  `Carried` is this account.
-/
import NetCpp.Http.Read
import NetCpp.Http.StatusLine

namespace NetCpp.Http

open NetCpp.Lib

/-! ## §1 — heads of at most `H` bytes. -/

/-- Every head of the stream, complete or cut off, has at most `H` bytes; `c` bytes of the first one are already
behind.  A head goes on line by line up to the empty one. -/
inductive HeadsWithin (H : Nat) : Nat → Bytes → Prop
  | cut {c : Nat} {s : Bytes} : ¬ CRLF <:+: s → c + s.length ≤ H → HeadsWithin H c s
  | line {c : Nat} {l s : Bytes} : l ≠ [] → ¬ CRLF <:+: l → HeadsWithin H (c + l.length + 2) s →
      HeadsWithin H c (l ++ CRLF ++ s)
  | done {c : Nat} {s : Bytes} : c + 2 ≤ H → HeadsWithin H 0 s → HeadsWithin H c (CRLF ++ s)

namespace HeadsWithin

variable {H c : Nat} {s l w : Bytes}

theorem le (h : HeadsWithin H c s) : c ≤ H := by
  induction h with
  | cut _ hle => omega
  | line _ _ _ ih => omega
  | done hle _ _ => omega

/-- Less of the head behind. -/
theorem mono {c' : Nat} (h : HeadsWithin H c s) (hle : c' ≤ c) : HeadsWithin H c' s := by
  induction h generalizing c' with
  | cut hno hlen => exact .cut hno (by omega)
  | line hne hno _ ih => exact .line hne hno (ih (by omega))
  | done hlen hs _ => exact .done (by omega) hs

/-- **A line further.** -/
theorem tail (h : HeadsWithin H c (l ++ CRLF ++ s)) (hne : l ≠ []) (hl : ¬ CRLF <:+: l) :
    HeadsWithin H (c + l.length + 2) s := by
  generalize hs : l ++ CRLF ++ s = t at h
  cases h with
  | cut hno _ => exact absurd ⟨l, s, hs⟩ hno
  | line _ hl' ht =>
      obtain ⟨rfl, rfl⟩ := crlf_unique hl hl' hs
      exact ht
  | @done _ s' _ _ =>
      have hs' : l ++ CRLF ++ s = [] ++ CRLF ++ s' := by simpa using hs
      exact absurd (crlf_unique hl (by decide) hs').1 hne

/-- **The next head.** -/
theorem next (h : HeadsWithin H c (CRLF ++ s)) : HeadsWithin H 0 s := by
  generalize hs : CRLF ++ s = t at h
  cases h with
  | cut hno _ => exact absurd ⟨[], s, hs⟩ hno
  | line hne hl' ht =>
      have := crlf_unique (l := []) (by decide) hl' (by simpa using hs)
      exact absurd this.1.symm hne
  | done _ ht =>
      rw [List.append_cancel_left hs]
      exact ht

/-- An unfinished line belongs to the head. -/
theorem part_le {r : Bytes} (h : HeadsWithin H c (w ++ r)) (hw : ¬ CRLF <:+: w) : c + w.length ≤ H := by
  have hshort : ∀ {l s : Bytes}, w ++ r = l ++ CRLF ++ s → w.length < l.length + 2 := by
    intro l s he
    by_contra hge
    obtain ⟨w', rfl, -⟩ := exists_of_append_eq he (by simp [CRLF]; omega)
    exact hw ⟨l, w', rfl⟩
  generalize hs : w ++ r = t at h
  cases h with
  | cut _ hle =>
      rw [← hs, List.length_append] at hle
      omega
  | line _ _ ht =>
      have h1 := hshort hs
      have h2 := ht.le
      omega
  | done hle _ =>
      have h1 := hshort (l := []) hs
      simp at h1
      omega

/-- Complete lines, each with its `CRLF`. -/
def joined (ls : List Bytes) : Bytes := ls.flatMap fun l => l ++ CRLF

theorem lines : ∀ {ls : List Bytes} {c : Nat}, (∀ l ∈ ls, l ≠ [] ∧ ¬ CRLF <:+: l) → HeadsWithin H c (joined ls ++ s) →
    HeadsWithin H (c + (joined ls).length) s := by
  intro ls
  induction ls with
  | nil =>
      intro c _ h
      exact h
  | cons l ls ih =>
      intro c hls h
      obtain ⟨hl, hrest⟩ := List.forall_mem_cons.mp hls
      rw [joined, List.flatMap_cons, List.append_assoc] at h
      have := ih hrest (h.tail hl.1 hl.2)
      have hlen : (joined (l :: ls)).length = l.length + 2 + (joined ls).length := by
        simp [joined, CRLF]
        omega
      rw [hlen]
      rwa [show c + (l.length + 2 + (joined ls).length) = c + l.length + 2 + (joined ls).length by omega]

/-- Lines before the rest of a head. -/
theorem of_joined {H : Nat} {s : Bytes} : ∀ {ls : List Bytes} {c : Nat}, (∀ l ∈ ls, l ≠ [] ∧ ¬ CRLF <:+: l) →
    HeadsWithin H (c + (joined ls).length) s → HeadsWithin H c (joined ls ++ s)
  | [], c, _, h => h
  | l :: ls, c, hls, h => by
      obtain ⟨hl, hrest⟩ := List.forall_mem_cons.mp hls
      have hlen : c + (joined (l :: ls)).length = c + l.length + 2 + (joined ls).length := by
        simp [joined, CRLF]
        omega
      rw [hlen] at h
      have hs := of_joined hrest h
      rw [joined, List.flatMap_cons, List.append_assoc]
      exact .line hl.1 hl.2 hs

end HeadsWithin

/-! ## §2 — what the parsers do with a window of any bytes. -/

namespace MessageRestView

variable {d : View → Option Bytes} {view : View} {bytes : Bytes}

/-- **`parse` on any bytes**: it takes complete lines, then the empty line if that is next; or it stops before a line
that is not complete, or at one it rejects. -/
theorem parseGo_any : ∀ (n pos : Nat) (rest : MessageRestView), bytes.length < pos + n →
    ∃ ls w rest', bytes.drop pos = HeadsWithin.joined ls ++ w ∧ (∀ l ∈ ls, l ≠ [] ∧ ¬ CRLF <:+: l) ∧
      ((∃ post, w = CRLF ++ post ∧
          parseGo d view bytes n pos rest = (rest', pos + (HeadsWithin.joined ls).length + 2, none)) ∨
        (¬ CRLF <:+: w ∧ parseGo d view bytes n pos rest =
          (rest', pos + (HeadsWithin.joined ls).length, some .resourceUnavailableTryAgain)) ∨
        ∃ q, parseGo d view bytes n pos rest = (rest', q, some .illegalByteSequence)) := by
  intro n
  induction n with
  | zero =>
      intro pos rest hn
      refine ⟨[], [], rest, ?_, by simp, .inr (.inl ⟨by decide, rfl⟩)⟩
      rw [List.drop_of_length_le (by omega)]
      rfl
  | succ n ih =>
      intro pos rest hn
      by_cases hlt : pos < bytes.length
      · cases hstop : findText bytes CRLF pos with
        | none =>
            refine ⟨[], bytes.drop pos, rest, rfl, by simp, .inr (.inl ⟨not_infix_of_findText hstop, ?_⟩)⟩
            rw [parseGo, if_pos hlt, hstop]
            rfl
        | some stop =>
            obtain ⟨l, post, hdrop, hl, hlen⟩ := exists_of_findText hstop
            have hsplit : bytes = bytes.take pos ++ (l ++ CRLF ++ post) := by
              rw [← hdrop, List.take_append_drop]
            have hpos : (bytes.take pos).length = pos := List.length_take_of_le hlt.le
            by_cases hempty : l = []
            · -- the empty line
              subst hempty
              have hend := @parseGo_end d view bytes (bytes.take pos) post n rest hsplit
              rw [hpos] at hend
              exact ⟨[], CRLF ++ post, _, hdrop, by simp, .inl ⟨post, rfl, hend⟩⟩
            rcases cut_at 58 l with hcolon | ⟨key, value, hkey, rfl⟩
            · -- no colon before the end of the line
              refine ⟨[], bytes.drop pos, rest, rfl, by simp, .inr (.inr ⟨pos, ?_⟩)⟩
              have hne : ¬ stop = pos := by
                have := List.length_pos_of_ne_nil hempty
                omega
              rw [parseGo, if_pos hlt, hstop]
              simp only [if_neg hne]
              cases hb : findByte bytes 58 pos with
              | none => rfl
              | some colon =>
                  have hout : stop < colon := hlen ▸ findByte_behind hdrop hcolon (by decide) hb
                  simp only [if_pos hout]
            · -- a header line: the pass goes on behind it
              have hstep := @parseGo_line d view bytes (bytes.take pos) n rest key value hkey hl post hsplit
              rw [hpos] at hstep
              have hadd : pos + (key ++ 58 :: value ++ CRLF).length = stop + 2 := by
                rw [← hlen, List.length_append]
                rfl
              rw [hadd] at hstep
              obtain ⟨ls, w, rest', hw, hls, hres⟩ := ih (stop + 2) _ (by omega)
              have hdrop' : bytes.drop (stop + 2) = post := by
                have := congrArg (List.drop (key ++ 58 :: value ++ CRLF).length) hdrop
                rw [List.drop_drop, List.drop_left, hadd] at this
                exact this
              have hjoin : pos + (HeadsWithin.joined ((key ++ 58 :: value) :: ls)).length =
                  stop + 2 + (HeadsWithin.joined ls).length := by
                rw [HeadsWithin.joined, List.flatMap_cons, List.length_append, ← Nat.add_assoc, hadd]
                rfl
              refine ⟨(key ++ 58 :: value) :: ls, w, rest', ?_, ?_, ?_⟩
              · rw [hdrop, ← hdrop', hw]
                simp [HeadsWithin.joined]
              · exact List.forall_mem_cons.mpr ⟨⟨hempty, hl⟩, hls⟩
              · rw [hstep, hjoin]
                exact hres
      · refine ⟨[], [], rest, ?_, by simp, .inr (.inl ⟨by decide, ?_⟩)⟩
        · rw [List.drop_of_length_le (by omega)]
          rfl
        · rw [parseGo, if_neg hlt]
          rfl

end MessageRestView

/-- A first line of at least one byte, taken with its `CRLF`, or nothing taken. -/
def TakesLine (bytes : Bytes) (len : Nat) : Option Errc → Prop
  | none => ∃ l post, bytes = l ++ CRLF ++ post ∧ l ≠ [] ∧ ¬ CRLF <:+: l ∧ len = l.length + 2
  | some _ => len = 0

/-- A line with a space in it. -/
theorem takesLine_of_findByte {bytes : Bytes} {stop sp : Nat} (hstop : findText bytes CRLF 0 = some stop)
    (hsp : findByte (substr bytes 0 stop) 32 0 = some sp) : TakesLine bytes (stop + 2) none := by
  obtain ⟨l, post, hb, hl, hlen⟩ := exists_of_findText hstop
  rw [List.drop_zero] at hb
  refine ⟨l, post, hb, ?_, hl, by omega⟩
  rintro rfl
  have h0 : stop = 0 := by simpa using hlen.symm
  rw [h0] at hsp
  simp [substr, findByte] at hsp

theorem RequestLine.parse_any (A : Alloc) (view : View) (bytes : Bytes) (line : RequestLine) :
    TakesLine bytes (line.parse A view bytes).2.1 (line.parse A view bytes).2.2 := by
  unfold RequestLine.parse
  cases hstop : findText bytes CRLF 0 with
  | none => simp only [TakesLine]
  | some stop =>
      cases hsp : findByte (substr bytes 0 stop) 32 0 with
      | none => simp only [hsp, TakesLine]
      | some sp =>
          simp only [hsp]
          split
          · rfl
          · split
            · rfl
            · split
              · exact takesLine_of_findByte hstop hsp
              · rfl

theorem StatusLineView.parse_any (view : View) (bytes : Bytes) (self : StatusLineView) :
    TakesLine bytes (self.parse view bytes).2.1 (self.parse view bytes).2.2 := by
  unfold StatusLineView.parse
  cases hstop : findText bytes CRLF 0 with
  | none => simp only [TakesLine]
  | some stop =>
      cases hsp : findByte (substr bytes 0 stop) 32 0 with
      | none => simp only [hsp, TakesLine]
      | some sp =>
          simp only [hsp]
          split
          · rfl
          · split
            · rfl
            · split
              · rfl
              · exact takesLine_of_findByte hstop hsp

namespace Request

/-- The two classes of messages, by what their `line` parses. -/
inductive Kind
  | request
  | response
deriving DecidableEq

/-- `self.line.parse(window())`.  The fields of a status line are not kept: no step reads them. -/
def Kind.parse (A : Alloc) : Kind → Request → Request × Nat × Option Errc
  | .request, req => parseLine A req
  | .response, req => (req, (StatusLineView.init.parse req.window req.windowBytes).2)

/-- The parsers write to their own fields and leave the chain alone. -/
structure SameChain (req req' : Request) : Prop where
  heap : req'.heap = req.heap
  buffer : req'.buffer = req.buffer
  block : req'.winBlock = req.winBlock
  start : req'.winBegin = req.winBegin
  stop : req'.winEnd = req.winEnd

variable {req req' : Request}

theorem SameChain.windowBytes (h : SameChain req req') : req'.windowBytes = req.windowBytes := by
  rw [Request.windowBytes, Request.windowBytes, active, active, h.heap, h.buffer, h.block, h.start, h.stop]

theorem SameChain.wf (h : SameChain req req') (hwf : req.WF) : req'.WF where
  nodup := by rw [h.buffer]; exact hwf.nodup
  fresh := by rw [h.buffer]; exact hwf.fresh
  block_lt := by rw [h.buffer, h.block]; exact hwf.block_lt
  begin_le := by rw [h.start, h.stop]; exact hwf.begin_le
  end_le := by rw [h.stop]; exact hwf.end_le

theorem Kind.parse_spec (A : Alloc) (k : Kind) (req : Request) :
    SameChain req (k.parse A req).1 ∧ TakesLine req.windowBytes (k.parse A req).2.1 (k.parse A req).2.2 := by
  cases k with
  | request =>
      refine ⟨⟨rfl, rfl, rfl, rfl, rfl⟩, ?_⟩
      exact RequestLine.parse_any A req.window req.windowBytes req.line
  | response =>
      refine ⟨⟨rfl, rfl, rfl, rfl, rfl⟩, ?_⟩
      exact StatusLineView.parse_any req.window req.windowBytes .init

theorem parseRest_spec (req : Request) :
    ∃ ls w, req.windowBytes = HeadsWithin.joined ls ++ w ∧ (∀ l ∈ ls, l ≠ [] ∧ ¬ CRLF <:+: l) ∧
      SameChain req (parseRest req).1 ∧
      ((∃ post, w = CRLF ++ post ∧ (parseRest req).2 = ((HeadsWithin.joined ls).length + 2, none)) ∨
        (¬ CRLF <:+: w ∧ (parseRest req).2 = ((HeadsWithin.joined ls).length, some .resourceUnavailableTryAgain)) ∨
        (parseRest req).2.2 = some .illegalByteSequence) := by
  obtain ⟨ls, w, rest', hw, hls, hres⟩ :=
    @MessageRestView.parseGo_any req.deref req.window req.windowBytes
      (req.windowBytes.length + 1) 0 req.rest (by omega)
  rw [List.drop_zero] at hw
  simp only [Nat.zero_add] at hres
  refine ⟨ls, w, hw, hls, ⟨rfl, rfl, rfl, rfl, rfl⟩, ?_⟩
  simp only [parseRest, MessageRestView.parse]
  rcases hres with ⟨post, rfl, hgo⟩ | ⟨hno, hgo⟩ | ⟨q, hgo⟩
  · exact .inl ⟨post, rfl, by rw [hgo]⟩
  · exact .inr (.inl ⟨hno, by rw [hgo]⟩)
  · exact .inr (.inr (by rw [hgo]))

/-- **The reader's answer only moves bytes** from the stream behind the window. -/
theorem fetch_keeps {r : Reader} (hwf : req.WF) (req' : Request) (r' : Reader) {ec : Option Errc}
    (h : req.fetch r = (ec, req', r')) :
    req'.WF ∧ req'.windowBytes ++ r'.data = req.windowBytes ++ r.data ∧ req'.buffer = req.buffer ∧
      req'.winBlock = req.winBlock ∧ req'.winBegin = req.winBegin ∧ req.windowBytes <+: req'.windowBytes := by
  have hend := hwf.end_le
  unfold fetch Reader.read at h
  cases hans : r.answer r.calls (HTTP_BUFFER_BLOCK_SIZE - req.winEnd) with
  | error e =>
      simp only [hans] at h
      cases h
      exact ⟨hwf, rfl, rfl, rfl, rfl, List.prefix_rfl⟩
  | ok n =>
      simp only [hans] at h
      set k := min n (min (HTTP_BUFFER_BLOCK_SIZE - req.winEnd) r.data.length) with hk
      by_cases hd : r.data.take k = []
      · rw [if_pos hd] at h
        cases h
        refine ⟨hwf, ?_, rfl, rfl, rfl, List.prefix_rfl⟩
        rw [List.append_cancel_left_eq, ← List.nil_append (r.data.drop k), ← hd, List.take_append_drop]
      · rw [if_neg hd] at h
        cases h
        have hlen : req.winEnd + (r.data.take k).length ≤ HTTP_BUFFER_BLOCK_SIZE := by
          simp only [List.length_take]
          omega
        obtain ⟨hwf', hwin, -⟩ := receive_spec hwf hlen
        refine ⟨hwf', ?_, rfl, rfl, rfl, ?_⟩
        · rw [hwin, List.append_assoc, List.take_append_drop]
        · rw [hwin]
          exact List.prefix_append _ _

/-- A rotation moves on by one block, and makes the chain longer only at its end. -/
theorem rotate_chain (h : req.rotate = .ok req') :
    req.winEnd - req.winBegin ≠ HTTP_BUFFER_BLOCK_SIZE ∧ req'.winBlock = req.winBlock + 1 ∧ req'.winBegin = 0 ∧
      req'.buffer.length ≤ max req.buffer.length (req.winBlock + 2) := by
  unfold rotate at h
  by_cases htail : req.winEnd - req.winBegin = HTTP_BUFFER_BLOCK_SIZE
  · rw [if_pos htail] at h
    cases h
  · rw [if_neg htail] at h
    obtain rfl := (Except.ok.inj h).symm
    refine ⟨htail, rfl, rfl, ?_⟩
    show (if req.winBlock + 1 = req.buffer.length then req.buffer ++ [req.buffer.length] else req.buffer).length ≤ _
    split
    · simp
      omega
    · exact Nat.le_max_left _ _

/-! ## §3 — what the blocks of the chain have paid for. -/

/-- `c` bytes of the head are consumed, and the active block was begun with an unfinished line of `t` bytes.  What
was consumed before this block is `c - win_begin`: every earlier block paid for half a block (`filled`), except
that the last one may owe a part of the tail that was carried over (`paid`), until the line of that tail ends. -/
structure Carried (H c t : Nat) (req : Request) (data : Bytes) : Prop where
  heads : HeadsWithin H c (req.windowBytes ++ data)
  filled : HTTP_BUFFER_BLOCK_SIZE / 2 * req.winBlock + req.winBegin ≤ c + HTTP_BUFFER_BLOCK_SIZE / 2
  paid : HTTP_BUFFER_BLOCK_SIZE / 2 * req.winBlock + req.winBegin ≤ c + t
  tail : t ≤ req.winBegin ∨
    req.winBegin = 0 ∧ t ≤ req.windowBytes.length ∧ ¬ CRLF <:+: req.windowBytes.take t

namespace Carried

variable {H c t : Nat} {data : Bytes}

theorem same (h : Carried H c t req data) (hs : SameChain req req') : Carried H c t req' data where
  heads := by rw [hs.windowBytes]; exact h.heads
  filled := by rw [hs.block, hs.start]; exact h.filled
  paid := by rw [hs.block, hs.start]; exact h.paid
  tail := by rw [hs.windowBytes, hs.start]; exact h.tail

/-- **Complete lines are consumed.**  The first of them is the one that was carried over. -/
theorem advance (h : Carried H c t req data) {ls : List Bytes} {w : Bytes}
    (hw : req.windowBytes = HeadsWithin.joined ls ++ w) (hls : ∀ l ∈ ls, l ≠ [] ∧ ¬ CRLF <:+: l) :
    Carried H (c + (HeadsWithin.joined ls).length) t (req.advance (HeadsWithin.joined ls).length) data := by
  have hwin : (req.advance (HeadsWithin.joined ls).length).windowBytes = w := by
    rw [windowBytes_advance req (by rw [hw]; simp), hw, List.drop_left]
  have hbegin : (req.advance (HeadsWithin.joined ls).length).winBegin =
      req.winBegin + (HeadsWithin.joined ls).length := rfl
  have hblock : (req.advance (HeadsWithin.joined ls).length).winBlock = req.winBlock := rfl
  have hfilled := h.filled
  have hpaid := h.paid
  constructor
  · rw [hwin]
    apply HeadsWithin.lines hls
    rw [← List.append_assoc, ← hw]
    exact h.heads
  · rw [hblock, hbegin]
    omega
  · rw [hblock, hbegin]
    omega
  · rcases h.tail with hle | ⟨h0, hlen, hno⟩
    · left
      rw [hbegin]
      omega
    · cases ls with
      | nil =>
          right
          rw [hbegin, hwin]
          rw [hw] at hlen hno
          exact ⟨h0, hlen, hno⟩
      | cons l ls =>
          left
          rw [hbegin]
          by_contra hlt
          apply hno
          -- a whole line in front of the end of the tail
          have hpre : HeadsWithin.joined (l :: ls) <+: req.windowBytes.take t := by
            rw [List.prefix_take_iff, hw]
            exact ⟨List.prefix_append _ _, by omega⟩
          refine List.IsInfix.trans ?_ hpre.isInfix
          exact ⟨l, HeadsWithin.joined ls, by simp [HeadsWithin.joined]⟩

/-- **A rotation is paid for**, and the line it carries over is the next tail. -/
theorem rotate (h : Carried H c t req data) (hwf : req.WF) (hfull : req.winEnd = HTTP_BUFFER_BLOCK_SIZE)
    (hno : ¬ CRLF <:+: req.windowBytes) (hrot : req.rotate = .ok req') :
    Carried H c req.windowBytes.length req' data ∧ HTTP_BUFFER_BLOCK_SIZE / 2 * (req.winBlock + 1) ≤ H := by
  obtain ⟨htail, hblock, hbegin, -⟩ := rotate_chain hrot
  have hlen := length_windowBytes req
  have hbe := hwf.begin_le
  have hsize : HTTP_BUFFER_BLOCK_SIZE = 4096 := rfl
  obtain ⟨req1, hrot1, -, hwin, -⟩ := rotate_spec hwf (by omega)
  obtain rfl : req1 = req' := by
    rw [hrot1] at hrot
    exact Except.ok.inj hrot
  have hfilled := h.filled
  have hpaid := h.paid
  have hmore := h.heads.part_le hno
  have hnext : HTTP_BUFFER_BLOCK_SIZE / 2 * (req.winBlock + 1) =
      HTTP_BUFFER_BLOCK_SIZE / 2 * req.winBlock + HTTP_BUFFER_BLOCK_SIZE / 2 := Nat.mul_succ _ _
  -- the active block cannot be full of one line, so the tail it was begun with is behind
  have hbehind : t ≤ req.winBegin := by
    rcases h.tail with hle | ⟨h0, -, -⟩
    · exact hle
    · omega
  refine ⟨⟨?_, ?_, ?_, .inr ⟨hbegin, ?_, ?_⟩⟩, ?_⟩
  · rw [hwin]
    exact h.heads
  · rw [hblock, hbegin]
    omega
  · rw [hblock, hbegin]
    omega
  · rw [hwin]
  · rw [hwin, List.take_length]
    exact hno
  · omega

theorem fetch {r r' : Reader} {ec : Option Errc} (h : Carried H c t req r.data) (hwf : req.WF)
    (hf : req.fetch r = (ec, req', r')) : Carried H c t req' r'.data := by
  obtain ⟨-, hbytes, -, hblock, hbegin, hpre⟩ := fetch_keeps hwf _ _ hf
  refine ⟨by rw [hbytes]; exact h.heads, by rw [hblock, hbegin]; exact h.filled, by rw [hblock, hbegin]; exact h.paid, ?_⟩
  rw [hbegin]
  rcases h.tail with hle | ⟨h0, hlen, hno⟩
  · exact .inl hle
  · refine .inr ⟨h0, hlen.trans hpre.length_le, ?_⟩
    obtain ⟨u, hu⟩ := hpre
    rw [← hu, List.take_append_of_le_length hlen]
    exact hno

end Carried

/-! ## §4 — the calls of `read`, step by step. -/

/-- The two loops. -/
inductive Part
  | line
  | rest
deriving DecidableEq

/-- Where a call is: outside, before a `parse`, before a `fill`, or with the block rotated and the reader to ask. -/
inductive Phase
  | idle
  | parse (p : Part)
  | fill (p : Part)
  | fetch (p : Part)
deriving DecidableEq

structure State where
  req : Request
  r : Reader
  phase : Phase

def Part.parse (A : Alloc) (k : Kind) : Part → Request → Request × Nat × Option Errc
  | .line => k.parse A
  | .rest => parseRest

/-- Behind a part: the other part, or the end of the call. -/
def Part.next : Part → Phase
  | .line => .parse .rest
  | .rest => .idle

/-- One step.  A call that has returned is followed by the next one. -/
def step (A : Alloc) (k : Kind) (s : State) : State :=
  match s.phase with
  | .idle => { s with req := { s.req.compact with rest := s.req.compact.rest.clear }, phase := .parse .line }
  | .parse p =>
      match p.parse A k s.req with
      | (req, len, none) => { s with req := req.advance len, phase := p.next }
      | (req, len, some .resourceUnavailableTryAgain) => { s with req := req.advance len, phase := .fill p }
      | (req, _, some _) => { s with req := req, phase := .idle }
  | .fill p =>
      if s.req.winEnd = HTTP_BUFFER_BLOCK_SIZE then
        match s.req.rotate with
        | .error _ => { s with phase := .idle }
        | .ok req => { s with req := req, phase := .fetch p }
      else { s with phase := .fetch p }
  | .fetch p =>
      match s.req.fetch s.r with
      | (none, req, r) => ⟨req, r, .parse p⟩
      | (some _, req, r) => ⟨req, r, .idle⟩

/-- `n` steps of the calls on a fresh object. -/
def after (A : Alloc) (k : Kind) (r : Reader) (n : Nat) : State := (step A k)^[n] ⟨init A, r, .idle⟩

section Calls

variable {A : Alloc} {k : Kind} {p : Part} {r r' : Reader} {ec : Option Errc} {len : Nat}

theorem step_parse_none (h : p.parse A k req = (req', len, none)) :
    step A k ⟨req, r, .parse p⟩ = ⟨req'.advance len, r, p.next⟩ := by
  simp only [step, h]

theorem step_parse_again (h : p.parse A k req = (req', len, some .resourceUnavailableTryAgain)) :
    step A k ⟨req, r, .parse p⟩ = ⟨req'.advance len, r, .fill p⟩ := by
  simp only [step, h]

theorem step_parse_error {e : Errc} (h : p.parse A k req = (req', len, some e)) (he : e ≠ .resourceUnavailableTryAgain) :
    step A k ⟨req, r, .parse p⟩ = ⟨req', r, .idle⟩ := by
  simp only [step, h]

theorem step_fetch (h : req.fetch r = (ec, req', r')) :
    step A k ⟨req, r, .fetch p⟩ = ⟨req', r', if ec = none then .parse p else .idle⟩ := by
  simp only [step, h]
  cases ec with
  | none => rfl
  | some e => rfl

/-- `fill` is a rotation, when it is due, and a call of the reader. -/
theorem fill_eq_iterate (A : Alloc) (k : Kind) (p : Part) (h : req.fill r = (ec, req', r')) :
    ∃ m, (step A k)^[m] ⟨req, r, .fill p⟩ = ⟨req', r', if ec = none then .parse p else .idle⟩ := by
  unfold fill at h
  by_cases hfull : req.winEnd = HTTP_BUFFER_BLOCK_SIZE
  · rw [if_pos hfull] at h
    cases hrot : req.rotate with
    | error e =>
        simp only [hrot] at h
        cases h
        refine ⟨1, ?_⟩
        simp only [Function.iterate_one, step, if_pos hfull, hrot]
        rfl
    | ok req1 =>
        simp only [hrot] at h
        refine ⟨2, ?_⟩
        have h1 : step A k ⟨req, r, .fill p⟩ = ⟨req1, r, .fetch p⟩ := by
          simp only [step, if_pos hfull, hrot]
        rw [Function.iterate_succ_apply, Function.iterate_one, h1, step_fetch h]
  · rw [if_neg hfull] at h
    refine ⟨2, ?_⟩
    have h1 : step A k ⟨req, r, .fill p⟩ = ⟨req, r, .fetch p⟩ := by
      simp only [step, if_neg hfull]
    rw [Function.iterate_succ_apply, Function.iterate_one, h1, step_fetch h]

/-- **A loop of `read` is a stretch of steps.** -/
theorem headLoop_eq_iterate (A : Alloc) (k : Kind) (p : Part) :
    ∀ (n : Nat) {req req' : Request} {r r' : Reader} {ec : Option Errc},
      headLoop (p.parse A k) n req r = some (ec, req', r') →
      ∃ m, (step A k)^[m] ⟨req, r, .parse p⟩ = ⟨req', r', if ec = none then p.next else .idle⟩ := by
  intro n
  induction n with
  | zero =>
      intro req req' r r' ec h
      cases h
  | succ n ih =>
      intro req req' r r' ec h
      rw [headLoop] at h
      rcases hp : p.parse A k req with ⟨req1, len, _ | e⟩
      · simp only [hp] at h
        cases h
        exact ⟨1, step_parse_none hp⟩
      · by_cases he : e = .resourceUnavailableTryAgain
        · subst he
          simp only [hp] at h
          rcases hf : fill (req1.advance len) r with ⟨_ | e2, req2, r2⟩
          · simp only [hf] at h
            obtain ⟨m1, h1⟩ := fill_eq_iterate A k p hf
            obtain ⟨m2, h2⟩ := ih h
            refine ⟨m2 + m1 + 1, ?_⟩
            rw [Function.iterate_succ_apply, step_parse_again hp, Function.iterate_add_apply, h1]
            exact h2
          · simp only [hf] at h
            cases h
            obtain ⟨m1, h1⟩ := fill_eq_iterate A k p hf
            refine ⟨m1 + 1, ?_⟩
            rw [Function.iterate_succ_apply, step_parse_again hp]
            exact h1
        · simp only [hp] at h
          cases h
          exact ⟨1, step_parse_error hp he⟩

/-- **Every call of `read` is a stretch of steps** from one idle state to the next. -/
theorem read_eq_iterate (A : Alloc) (h : read A req r = some (ec, req', r')) :
    ∃ m, (step A .request)^[m] ⟨req, r, .idle⟩ = ⟨req', r', .idle⟩ := by
  simp only [read] at h
  set req0 : Request := { req.compact with rest := req.compact.rest.clear } with hreq0
  have h0 : step A .request ⟨req, r, .idle⟩ = ⟨req0, r, .parse .line⟩ := rfl
  rcases hl : headLoop (parseLine A) (r.data.length + 1) req0 r with _ | ⟨_ | e, req1, r1⟩
  · simp only [hl] at h
    cases h
  · simp only [hl] at h
    obtain ⟨m1, h1⟩ := headLoop_eq_iterate A .request .line _ hl
    obtain ⟨m2, h2⟩ := headLoop_eq_iterate A .request .rest _ h
    refine ⟨m2 + m1 + 1, ?_⟩
    rw [Function.iterate_succ_apply, h0, Function.iterate_add_apply, h1]
    refine h2.trans ?_
    simp [Part.next]
  · simp only [hl] at h
    cases h
    obtain ⟨m1, h1⟩ := headLoop_eq_iterate A .request .line _ hl
    refine ⟨m1 + 1, ?_⟩
    rw [Function.iterate_succ_apply, h0]
    exact h1

end Calls

/-! ## §5 — the invariant, and the bound. -/

/-- The request line is read at the front of the chain; behind it the account of `Carried` holds. -/
def Part.Inv (H : Nat) (req : Request) (data : Bytes) : Part → Prop
  | .line => req.winBlock = 0 ∧ req.winBegin = 0 ∧ HeadsWithin H 0 (req.windowBytes ++ data)
  | .rest => ∃ c t, Carried H c t req data

def Phase.Inv (H : Nat) (req : Request) (data : Bytes) : Phase → Prop
  | .idle => ∃ c, HeadsWithin H c (req.windowBytes ++ data)
  | .parse p => p.Inv H req data
  | .fill p => p.Inv H req data ∧ (p = .rest → ¬ CRLF <:+: req.windowBytes)
  | .fetch p => p.Inv H req data ∧ req.winEnd < HTTP_BUFFER_BLOCK_SIZE

structure Inv (H : Nat) (s : State) : Prop where
  wf : s.req.WF
  blocks : s.req.buffer.length ≤ 2 + H / (HTTP_BUFFER_BLOCK_SIZE / 2)
  phase : s.phase.Inv H s.req s.r.data

variable {H : Nat} {A : Alloc} {k : Kind} {data : Bytes} {p : Part} {r : Reader}

theorem Part.Inv.heads (h : p.Inv H req data) : ∃ c, HeadsWithin H c (req.windowBytes ++ data) := by
  cases p with
  | line => exact ⟨0, h.2.2⟩
  | rest =>
      obtain ⟨c, t, hc⟩ := h
      exact ⟨c, hc.heads⟩

theorem Part.Inv.same (h : p.Inv H req data) (hs : SameChain req req') : p.Inv H req' data := by
  cases p with
  | line =>
      refine ⟨hs.block.trans h.1, hs.start.trans h.2.1, ?_⟩
      rw [hs.windowBytes]
      exact h.2.2
  | rest =>
      obtain ⟨c, t, hc⟩ := h
      exact ⟨c, t, hc.same hs⟩

theorem Part.Inv.fetch {r' : Reader} {ec : Option Errc} (h : p.Inv H req r.data) (hwf : req.WF)
    (hf : req.fetch r = (ec, req', r')) : p.Inv H req' r'.data := by
  cases p with
  | line =>
      obtain ⟨-, hbytes, -, hblock, hbegin, -⟩ := fetch_keeps hwf _ _ hf
      refine ⟨hblock.trans h.1, hbegin.trans h.2.1, ?_⟩
      rw [hbytes]
      exact h.2.2
  | rest =>
      obtain ⟨c, t, hc⟩ := h
      exact ⟨c, t, hc.fetch hwf hf⟩

/-- **The window is parsed.** -/
theorem inv_parse (h : Inv H ⟨req, r, .parse p⟩) : Inv H (step A k ⟨req, r, .parse p⟩) := by
  have hwf := h.wf
  have hblocks := h.blocks
  cases p with
  | line =>
      obtain ⟨h0, hb0, hheads⟩ : req.winBlock = 0 ∧ req.winBegin = 0 ∧ HeadsWithin H 0 (req.windowBytes ++ r.data) :=
        h.phase
      obtain ⟨hsame, htakes⟩ := Kind.parse_spec A k req
      rcases hp : k.parse A req with ⟨req1, len, _ | e⟩
      · -- the account is opened with the line
        rw [hp] at hsame htakes
        obtain ⟨l, post, hw, hne, hl, rfl⟩ := htakes
        have hw1 : req1.windowBytes = (l ++ CRLF) ++ post := hsame.windowBytes.trans hw
        have hlen : l.length + 2 = (l ++ CRLF).length := by simp [CRLF]
        have hle : (l ++ CRLF).length ≤ req1.windowBytes.length := by
          rw [hw1]
          simp
        have hstep : step A k ⟨req, r, .parse .line⟩ = ⟨req1.advance (l.length + 2), r, .parse .rest⟩ :=
          step_parse_none (p := .line) hp
        rw [hstep, hlen]
        have hbegin : (req1.advance (l ++ CRLF).length).winBegin = req1.winBegin + (l ++ CRLF).length := rfl
        have hblock : (req1.advance (l ++ CRLF).length).winBlock = req1.winBlock := rfl
        refine ⟨wf_advance (hsame.wf hwf) hle, ?_, (l ++ CRLF).length, 0, ?_, ?_, ?_, ?_⟩
        · exact hsame.buffer ▸ hblocks
        · rw [windowBytes_advance req1 hle, hw1, List.drop_left]
          rw [hw, List.append_assoc] at hheads
          have := hheads.tail hne hl
          rwa [Nat.zero_add, hlen] at this
        · rw [hblock, hbegin, hsame.block, hsame.start, h0, hb0]
          omega
        · rw [hblock, hbegin, hsame.block, hsame.start, h0, hb0]
          omega
        · exact .inl (Nat.zero_le _)
      · rw [hp] at hsame htakes
        obtain rfl : len = 0 := htakes
        have hinv : Part.Inv H req1 r.data .line := Part.Inv.same (p := .line) ⟨h0, hb0, hheads⟩ hsame
        -- nothing was taken: the account stays closed
        by_cases he : e = .resourceUnavailableTryAgain
        · subst he
          have hstep : step A k ⟨req, r, .parse .line⟩ = ⟨req1.advance 0, r, .fill .line⟩ :=
            step_parse_again (p := .line) hp
          rw [hstep]
          exact ⟨hsame.wf hwf, hsame.buffer ▸ hblocks, hinv, by simp⟩
        · have hstep : step A k ⟨req, r, .parse .line⟩ = ⟨req1, r, .idle⟩ := step_parse_error (p := .line) hp he
          rw [hstep]
          exact ⟨hsame.wf hwf, hsame.buffer ▸ hblocks, hinv.heads⟩
  | rest =>
      obtain ⟨c, t, hc⟩ : ∃ c t, Carried H c t req r.data := h.phase
      obtain ⟨ls, w, hw, hls, hsame, hres⟩ := parseRest_spec req
      rcases hp : parseRest req with ⟨req1, len, ec⟩
      rw [hp] at hsame hres
      have hw1 : req1.windowBytes = HeadsWithin.joined ls ++ w := hsame.windowBytes.trans hw
      have hadv := (hc.same hsame).advance hw1 hls
      rcases hres with ⟨post, rfl, he⟩ | ⟨hno, he⟩ | he
      · -- the empty line: the head is done
        obtain ⟨rfl, rfl⟩ := Prod.mk.inj he
        have hle : (HeadsWithin.joined ls).length + 2 ≤ req1.windowBytes.length := by
          rw [hw1]
          simp [CRLF]
        have hstep : step A k ⟨req, r, .parse .rest⟩ = ⟨req1.advance ((HeadsWithin.joined ls).length + 2), r, .idle⟩ :=
          step_parse_none (p := .rest) hp
        rw [hstep]
        refine ⟨wf_advance (hsame.wf hwf) hle, hsame.buffer ▸ hblocks, 0, ?_⟩
        have hheads := hadv.heads
        rw [windowBytes_advance req1 (by omega), hw1, List.drop_left, List.append_assoc] at hheads
        rw [windowBytes_advance req1 hle, hw1, ← List.drop_drop, List.drop_left]
        exact hheads.next
      · -- no line end in what is left: the whole lines are charged, and more is read
        obtain ⟨rfl, rfl⟩ := Prod.mk.inj he
        have hle : (HeadsWithin.joined ls).length ≤ req1.windowBytes.length := by
          rw [hw1]
          simp
        have hstep : step A k ⟨req, r, .parse .rest⟩ = ⟨req1.advance (HeadsWithin.joined ls).length, r, .fill .rest⟩ :=
          step_parse_again (p := .rest) hp
        rw [hstep]
        refine ⟨wf_advance (hsame.wf hwf) hle, hsame.buffer ▸ hblocks, ⟨_, t, hadv⟩, fun _ => ?_⟩
        rw [windowBytes_advance req1 hle, hw1, List.drop_left]
        exact hno
      · obtain rfl : ec = some .illegalByteSequence := he
        have hstep : step A k ⟨req, r, .parse .rest⟩ = ⟨req1, r, .idle⟩ :=
          step_parse_error (p := .rest) hp (by decide)
        rw [hstep]
        exact ⟨hsame.wf hwf, hsame.buffer ▸ hblocks, c, (hc.same hsame).heads⟩

/-- **The chain grows only by a rotation that is paid for.** -/
theorem inv_fill (h : Inv H ⟨req, r, .fill p⟩) : Inv H (step A k ⟨req, r, .fill p⟩) := by
  have hwf : req.WF := h.wf
  have hblocks : req.buffer.length ≤ 2 + H / (HTTP_BUFFER_BLOCK_SIZE / 2) := h.blocks
  obtain ⟨hp, hno⟩ : p.Inv H req r.data ∧ (p = .rest → ¬ CRLF <:+: req.windowBytes) := h.phase
  by_cases hfull : req.winEnd = HTTP_BUFFER_BLOCK_SIZE
  · rcases hrot : req.rotate with e | req1
    · have hstep : step A k ⟨req, r, .fill p⟩ = ⟨req, r, .idle⟩ := by
        simp only [step, if_pos hfull, hrot]
      rw [hstep]
      exact ⟨hwf, hblocks, hp.heads⟩
    · have hstep : step A k ⟨req, r, .fill p⟩ = ⟨req1, r, .fetch p⟩ := by
        simp only [step, if_pos hfull, hrot]
      rw [hstep]
      obtain ⟨htail, -, -, hgrow⟩ := rotate_chain hrot
      have hlen := length_windowBytes req
      have hlt : req.windowBytes.length < HTTP_BUFFER_BLOCK_SIZE := by
        have := hwf.end_le
        omega
      obtain ⟨req2, hrot2, hwf1, -, hend, -⟩ := rotate_spec hwf hlt
      obtain rfl : req2 = req1 := by
        rw [hrot2] at hrot
        exact Except.ok.inj hrot
      cases p with
      | line =>
          -- at the front of the chain a full block is one line
          have hb0 : req.winBegin = 0 := hp.2.1
          omega
      | rest =>
          obtain ⟨c, t, hc⟩ := hp
          obtain ⟨hc', hpaid⟩ := hc.rotate hwf hfull (hno rfl) hrot
          have hdiv : req.winBlock + 1 ≤ H / (HTTP_BUFFER_BLOCK_SIZE / 2) := by
            rw [Nat.le_div_iff_mul_le (by decide), Nat.mul_comm]
            exact hpaid
          refine ⟨hwf1, ?_, ⟨c, _, hc'⟩, ?_⟩
          · show req2.buffer.length ≤ _
            omega
          · show req2.winEnd < _
            omega
  · have hstep : step A k ⟨req, r, .fill p⟩ = ⟨req, r, .fetch p⟩ := by
      simp only [step, if_neg hfull]
    rw [hstep]
    exact ⟨hwf, hblocks, hp, Nat.lt_of_le_of_ne hwf.end_le hfull⟩

theorem inv_fetch (h : Inv H ⟨req, r, .fetch p⟩) : Inv H (step A k ⟨req, r, .fetch p⟩) := by
  have hp : p.Inv H req r.data := h.phase.1
  rcases hf : req.fetch r with ⟨ec, req1, r1⟩
  obtain ⟨hwf1, -, hbuf, -⟩ := fetch_keeps h.wf _ _ hf
  have hp1 := hp.fetch h.wf hf
  rw [step_fetch hf]
  refine ⟨hwf1, hbuf ▸ h.blocks, ?_⟩
  cases ec with
  | none => exact hp1
  | some e => exact hp1.heads

/-- The entry compaction opens the next call at the front of the chain. -/
theorem inv_idle (h : Inv H ⟨req, r, .idle⟩) : Inv H (step A k ⟨req, r, .idle⟩) := by
  obtain ⟨hwf, hwin⟩ := compact_spec h.wf
  obtain ⟨c, hc⟩ := h.phase
  have hsame : SameChain req.compact { req.compact with rest := req.compact.rest.clear } := ⟨rfl, rfl, rfl, rfl, rfl⟩
  refine ⟨hsame.wf hwf, ?_, rfl, rfl, ?_⟩
  · show req.compact.buffer.length ≤ _
    have hlen : req.compact.buffer.length = req.buffer.length := by
      show (if req.winBlock ≠ 0 then (req.buffer.set 0 req.active).set req.winBlock (req.buffer.getD 0 0)
        else req.buffer).length = _
      split
      · simp
      · rfl
    rw [hlen]
    exact h.blocks
  · show HeadsWithin H 0 ({ req.compact with rest := req.compact.rest.clear }.windowBytes ++ r.data)
    rw [hsame.windowBytes, hwin]
    exact hc.mono (Nat.zero_le c)

theorem inv_step {s : State} (h : Inv H s) : Inv H (step A k s) := by
  rcases s with ⟨req, r, phase⟩
  cases phase with
  | idle => exact inv_idle h
  | parse p => exact inv_parse h
  | fill p => exact inv_fill h
  | fetch p => exact inv_fetch h

theorem inv_after (A : Alloc) (k : Kind) {r : Reader} (hr : HeadsWithin H 0 r.data) (n : Nat) :
    Inv H (after A k r n) := by
  induction n with
  | zero =>
      refine ⟨wf_init A, ?_, 0, hr⟩
      exact Nat.le_add_right_of_le (show 1 ≤ 2 by decide)
  | succ n ih =>
      rw [after, Function.iterate_succ_apply']
      exact inv_step ih

/-- **The read buffer of a connection stays bounded.**  For every stream whose heads have at most `H` bytes and every
delivery of it, in every state of every sequence of calls: the chain has at most `2 + H / 2048` blocks, the window
lies in its block and the block in the chain, and whenever the reader is asked, it is asked for at least one byte. -/
theorem buffer_bounded (A : Alloc) (k : Kind) (H : Nat) (r : Reader) (hr : HeadsWithin H 0 r.data) (n : Nat) :
    (after A k r n).req.buffer.length ≤ 2 + H / 2048 ∧
      (after A k r n).req.winBegin ≤ (after A k r n).req.winEnd ∧
      (after A k r n).req.winEnd ≤ HTTP_BUFFER_BLOCK_SIZE ∧
      (after A k r n).req.winBlock < (after A k r n).req.buffer.length ∧
      ∀ p, (after A k r n).phase = .fetch p → 1 ≤ HTTP_BUFFER_BLOCK_SIZE - (after A k r n).req.winEnd := by
  obtain ⟨hwf, hblocks, hphase⟩ := inv_after A k hr n
  refine ⟨hblocks, hwf.begin_le, hwf.end_le, hwf.block_lt, ?_⟩
  intro p hp
  rw [hp] at hphase
  have := hphase.2
  omega

/-- A header line of a thousand bytes. -/
def wideLine : Bytes := text "a:" ++ List.replicate 996 120

/-- A head of five such lines, delivered as fast as it is asked for.  The fifth begins in the first block and ends in
the second. -/
def wide : Reader :=
  ⟨text "GET / HTTP/1.1" ++ CRLF ++ (HeadsWithin.joined (List.replicate 5 wideLine) ++ (CRLF ++ [])), fun _ size => .ok size, 0⟩

theorem length_wideLines : (HeadsWithin.joined (List.replicate 5 wideLine)).length = 5000 := by
  have hwide : wideLine.length = 998 := by
    rw [wideLine, List.length_append, List.length_replicate]
    rfl
  simp [HeadsWithin.joined, hwide, CRLF]

theorem headsWithin_wide : HeadsWithin 5018 0 wide.data := by
  have hline : ∀ l ∈ List.replicate 5 wideLine, l ≠ [] ∧ ¬ CRLF <:+: l := by
    intro l hl
    obtain rfl := List.eq_of_mem_replicate hl
    refine ⟨by decide, not_crlf_of_not_mem ?_⟩
    rw [wideLine, List.mem_append, List.mem_replicate]
    decide
  refine .line (by decide) (by decide) (.of_joined hline ?_)
  rw [length_wideLines]
  exact .done (by decide) (.cut (by decide) (by decide))

/-- The head is longer than a block, and it is in the second one that its fifth line ends. -/
theorem buffer_bounded_wide :
    HTTP_BUFFER_BLOCK_SIZE < wide.data.length ∧
      (after libstdcpp .request wide 8).req.buffer.length ≤ 2 + 5018 / 2048 ∧
      (after libstdcpp .request wide 8).req.winEnd ≤ HTTP_BUFFER_BLOCK_SIZE ∧
      (after libstdcpp .response wide 8).req.buffer.length ≤ 2 + 5018 / 2048 := by
  have hlong : wide.data.length = 16 + (5000 + 2) := by
    rw [wide, List.length_append, List.length_append, List.length_append, length_wideLines]
    rfl
  obtain ⟨hblocks, -, hend, -⟩ := buffer_bounded libstdcpp .request 5018 wide headsWithin_wide 8
  refine ⟨?_, hblocks, hend, (buffer_bounded libstdcpp .response 5018 wide headsWithin_wide 8).1⟩
  rw [hlong]
  decide

end Request

end NetCpp.Http
