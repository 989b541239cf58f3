/-
# NetCpp.Http.Head — the parsers of a request head, and the views they hand out.

`include/xsl/net/http/request/line.h` and `include/xsl/net/http/msg.h`.  Nothing is copied: a field is a VIEW
into a block of the read buffer, into `_raw` (a percent-decoded field), or of a literal.  What a view shows
depends on the memory at the time it is read.  A view into `_raw` DANGLES once `_raw` was given new storage:
the storage has a generation.

`Alloc` is the growth policy of `std::string`, of which only `capacity() >= n` after `reserve(n)` is promised.
-/
import NetCpp.Http.Target
import NetCpp.Lib.AssocMap
import NetCpp.Lib.Memory

namespace NetCpp.Http

open NetCpp.Lib

inductive Errc
  | illegalByteSequence
  | resourceUnavailableTryAgain
  | notConnected
  | other (code : Nat)
deriving DecidableEq, Repr

/-! ## §1 — views. -/

/-- The growth policy of `std::string`. -/
structure Alloc where
  /-- the capacity of a new string -/
  initial : Nat
  /-- the capacity chosen when `n` is asked for over capacity `c` -/
  grow : Nat → Nat → Nat
  enough : ∀ c n, n ≤ grow c n

/-- The growth policy of libstdc++. -/
def libstdcpp : Alloc := ⟨15, fun c n => max n (2 * c), fun _ _ => Nat.le_max_left _ _⟩

/-- `_raw`, with the generation of its storage. -/
structure RawString where
  contents : Bytes
  capacity : Nat
  gen : Nat

def RawString.reserve (A : Alloc) (n : Nat) (raw : RawString) : RawString :=
  if n ≤ raw.capacity then raw else { raw with capacity := A.grow raw.capacity n, gen := raw.gen + 1 }

/-- A `string_view`. -/
inductive View
  | text (bytes : Bytes)
  | block (id off len : Nat)
  | raw (gen off len : Nat)
deriving DecidableEq, Repr

namespace View

def size : View → Nat
  | text bytes => bytes.length
  | block _ _ len | raw _ _ len => len

/-- `substr(i, n)`. -/
def sub (i n : Nat) : View → View
  | text bytes => text (substr bytes i n)
  | block id off len => block id (off + i) (min n (len - i))
  | raw gen off len => raw gen (off + i) (min n (len - i))

/-- What a view shows; `none` when it dangles. -/
def deref (heap : Nat → Block) (rs : RawString) : View → Option Bytes
  | text bytes => some bytes
  | block id off len => some (slice (heap id) off len)
  | raw gen off len => if gen = rs.gen then some (substr rs.contents off len) else none

/-- A part of a view shows a part of what it shows. -/
theorem deref_sub (heap : Nat → Block) (rs : RawString) (id off len i n : Nat) :
    deref heap rs ((block id off len).sub i n) = some (substr (slice (heap id) off len) i n) := by
  show some (slice (heap id) (off + i) (min n (len - i))) = _
  by_cases hi : i ≤ len
  · rw [substr, ← take_drop_slice _ off len i (min n (len - i)) (by omega)]
    congr 1
    rw [List.take_eq_take_iff]
    simp
  · have hdrop : (slice (heap id) off len).drop i = [] := List.drop_eq_nil_of_le (by simp; omega)
    rw [substr, hdrop, show min n (len - i) = 0 by omega, List.take_nil]
    rfl

end View

/-! ## §2 — `RequestLine::parse`. -/

structure RequestLine where
  raw : RawString
  method : Method
  scheme : View
  host : View
  port : View
  path : View
  query : View
  version : View

/-- A new `RequestLine`. -/
def RequestLine.init (A : Alloc) : RequestLine where
  raw := ⟨[], A.initial, 0⟩
  method := .unknown
  scheme := .text []
  host := .text []
  port := .text []
  path := .text (text "/")
  query := .text []
  version := .text []

namespace RequestLine

/-- `PERCENT_DECODE` on a part of the target: `percent_decode` into `_raw`, and the view of the field. -/
def percentDecode (A : Alloc) (tv : View) (target : Bytes) (span : Span) (line : RequestLine) :
    RequestLine × Except Errc View :=
  let field := substr target span.1 (span.2 - span.1)
  let raw := line.raw.reserve A (line.raw.contents.length + field.length)
  match percentDecodeGo field.length field [] with
  | (out, none) => ({ line with raw := { raw with contents := raw.contents ++ out } }, .error .illegalByteSequence)
  | (out, some rest) =>
      if out = [] then ({ line with raw := raw }, .ok (tv.sub span.1 (span.2 - span.1)))
      else
        ({ line with raw := { raw with contents := raw.contents ++ (out ++ rest) } },
          .ok (.raw raw.gen raw.contents.length (out ++ rest).length))

/-- The path and then the query; `slash` is what the absolute form does to an empty path. -/
def setPathQuery (A : Alloc) (tv : View) (target : Bytes) (path query : Span) (slash : Bool) (line : RequestLine) :
    RequestLine × Option Errc :=
  match line.percentDecode A tv target path with
  | (line, .error ec) => (line, some ec)
  | (line, .ok v) =>
      let line := { line with path := if slash && v.size == 0 then .text (text "/") else v }
      match line.percentDecode A tv target query with
      | (line, .error ec) => (line, some ec)
      | (line, .ok v) => ({ line with query := v }, none)

/-- What `parse` does with the target. -/
def setTarget (A : Alloc) (tv : View) (target : Bytes) (line : RequestLine) : RequestLine × Option Errc :=
  let part (s : Span) : View := tv.sub s.1 (s.2 - s.1)
  match matchTarget target with
  | some (.origin path query) => line.setPathQuery A tv target path query false
  | some (.absolute scheme host port path query) =>
      { line with scheme := part scheme, host := part host, port := part port }.setPathQuery A tv target path query true
  | some (.authority host port) => ({ line with host := part host, port := part port }, none)
  | some .asterisk => ({ line with path := .text (text "*") }, none)
  | none => (line, none)

/-- `parse` on a view that shows `bytes`: the bytes consumed and the error code. -/
def parse (A : Alloc) (view : View) (bytes : Bytes) (line : RequestLine) : RequestLine × Nat × Option Errc :=
  match findText bytes CRLF 0 with
  | none => (line, 0, some .resourceUnavailableTryAgain)
  | some stop =>
      let text := substr bytes 0 stop
      match findByte text 32 0 with
      | none => (line, 0, some .illegalByteSequence)
      | some sp1 =>
          match findByte text 32 (sp1 + 1) with
          | none => (line, 0, some .illegalByteSequence)
          | some sp2 =>
              let line := { line with method := .fromStringView (substr text 0 sp1) }
              match line.setTarget A (view.sub (sp1 + 1) (sp2 - sp1 - 1)) (substr text (sp1 + 1) (sp2 - sp1 - 1)) with
              | (line, some ec) => (line, 0, some ec)
              | (line, none) =>
                  if isVersion (text.drop (sp2 + 1)) then
                    ({ line with version := view.sub (sp2 + 1) (stop - (sp2 + 1)) }, stop + 2, none)
                  else (line, 0, some .illegalByteSequence)

end RequestLine

/-! ## §3 — `MessageRestView::parse`. -/

structure MessageRestView where
  headers : List (View × View)
  contentPart : View

namespace MessageRestView

def init : MessageRestView := ⟨[], .text []⟩

def clear (rest : MessageRestView) : MessageRestView := { rest with headers := [] }

/-- `headers[key] = value`: keys are compared by what they show, and an old entry keeps its key. -/
def assign (deref : View → Option Bytes) (key : View) (shown : Bytes) (value : View) :
    List (View × View) → List (View × View)
  | [] => [(key, value)]
  | (k, v) :: m => if deref k = some shown then (k, value) :: m else (k, v) :: assign deref key shown value m

/-- The loop of `parse` from `pos` on. -/
def parseGo (deref : View → Option Bytes) (view : View) (bytes : Bytes) :
    Nat → Nat → MessageRestView → MessageRestView × Nat × Option Errc
  | 0, pos, rest => (rest, pos, some .resourceUnavailableTryAgain)
  | n + 1, pos, rest =>
      if pos < bytes.length then
        match findText bytes CRLF pos with
        | none => (rest, pos, some .resourceUnavailableTryAgain)
        | some stop =>
            if stop = pos then
              ({ rest with contentPart := view.sub (pos + 2) (bytes.length - (pos + 2)) }, pos + 2, none)
            else
              match findByte bytes 58 pos with
              | none => (rest, pos, some .illegalByteSequence)
              | some colon =>
                  if stop < colon then (rest, pos, some .illegalByteSequence)
                  else
                    match findNot bytes 32 (colon + 1) with
                    | none => (rest, pos, some .resourceUnavailableTryAgain)
                    | some vstart =>
                        match findText bytes CRLF vstart with
                        | none => (rest, pos, some .resourceUnavailableTryAgain)
                        | some vend =>
                            parseGo deref view bytes n (vend + 2)
                              { rest with
                                headers := assign deref (view.sub pos (colon - pos)) (substr bytes pos (colon - pos))
                                  (view.sub vstart (vend - vstart)) rest.headers }
      else (rest, pos, some .resourceUnavailableTryAgain)

def parse (deref : View → Option Bytes) (view : View) (bytes : Bytes) (rest : MessageRestView) :
    MessageRestView × Nat × Option Errc :=
  parseGo deref view bytes (bytes.length + 1) 0 rest

end MessageRestView

/-! ## §4 — header lines. -/

def HTTP_BUFFER_BLOCK_SIZE : Nat := 4096

/-- A header line that fits in a block: a key up to the first colon, and the rest of the line. -/
structure HeaderLine where
  key : Bytes
  value : Bytes
  colon : 58 ∉ key
  crlf : ¬ CRLF <:+: key ++ 58 :: value
  fits : key.length + value.length + 3 ≤ HTTP_BUFFER_BLOCK_SIZE

namespace HeaderLine

def line (h : HeaderLine) : Bytes := h.key ++ 58 :: h.value

def bytes (h : HeaderLine) : Bytes := h.line ++ CRLF

/-- The value without its leading spaces. -/
def trimmed (h : HeaderLine) : Bytes := h.value.dropWhile (· == 32)

/-- How many spaces lead the value. -/
def spaces (h : HeaderLine) : Nat := (h.value.takeWhile (· == 32)).length

theorem length_bytes (h : HeaderLine) : h.bytes.length = h.key.length + h.value.length + 3 := by
  simp [bytes, line, CRLF]; omega

theorem value_eq (h : HeaderLine) : h.value = h.value.takeWhile (· == 32) ++ h.trimmed :=
  (List.takeWhile_append_dropWhile).symm

theorem spaces_add_trimmed (h : HeaderLine) : h.spaces + h.trimmed.length = h.value.length := by
  rw [spaces, trimmed, ← List.length_append, List.takeWhile_append_dropWhile]

/-- The header map with one line more: the last value of a key is kept. -/
def addTo (m : List (Bytes × Bytes)) (h : HeaderLine) : List (Bytes × Bytes) :=
  alter h.key [] (fun _ => h.trimmed) m

end HeaderLine

/-- The header map of a list of lines. -/
def headerMap (hs : List HeaderLine) : List (Bytes × Bytes) := hs.foldl HeaderLine.addTo []

/-- What the entries of a header map show, with a property of all views in it. -/
def Shows (d : View → Option Bytes) (P : View → Prop) (headers : List (View × View)) (m : List (Bytes × Bytes)) : Prop :=
  List.Forall₂ (fun e f => d e.1 = some f.1 ∧ d e.2 = some f.2 ∧ P e.1 ∧ P e.2) headers m

theorem Shows.mono {d d' : View → Option Bytes} {P P' : View → Prop} {headers : List (View × View)}
    {m : List (Bytes × Bytes)} (h : Shows d P headers m) (hv : ∀ v, P v → d' v = d v ∧ P' v) :
    Shows d' P' headers m := by
  apply List.Forall₂.imp _ h
  rintro ⟨k, v⟩ ⟨a, b⟩ ⟨h1, h2, h3, h4⟩
  exact ⟨(hv k h3).1.trans h1, (hv v h4).1.trans h2, (hv k h3).2, (hv v h4).2⟩

theorem Shows.map_deref {d : View → Option Bytes} {P : View → Prop} {headers : List (View × View)}
    {m : List (Bytes × Bytes)} (h : Shows d P headers m) :
    headers.map (fun e => (d e.1, d e.2)) = m.map fun e => (some e.1, some e.2) := by
  induction h with
  | nil => rfl
  | cons hef _ ih => rw [List.map_cons, List.map_cons, ih, hef.1, hef.2.1]

theorem Shows.assign {d : View → Option Bytes} {P : View → Prop} {headers : List (View × View)}
    {m : List (Bytes × Bytes)} {key value : View} {kb vb : Bytes} (h : Shows d P headers m)
    (hk : d key = some kb) (hv : d value = some vb) (hPk : P key) (hPv : P value) :
    Shows d P (MessageRestView.assign d key kb value headers) (alter kb [] (fun _ => vb) m) := by
  induction h with
  | nil => exact .cons ⟨hk, hv, hPk, hPv⟩ .nil
  | @cons e f headers m hef htail ih =>
      obtain ⟨k, v⟩ := e
      obtain ⟨a, b⟩ := f
      obtain ⟨h1, h2, h3, h4⟩ := hef
      have h1' : d k = some a := h1
      unfold MessageRestView.assign alter
      by_cases hak : a = kb
      · rw [if_pos (by rw [h1', hak]), if_pos (by simpa using hak)]
        exact .cons ⟨h1, hv, h3, hPv⟩ htail
      · rw [if_neg (by rw [h1']; simpa using hak), if_neg (by simpa using hak)]
        exact .cons ⟨h1, h2, h3, h4⟩ ih

namespace MessageRestView

variable {d : View → Option Bytes} {view : View} {bytes pre w : Bytes} {n : Nat} {rest : MessageRestView}

/-- **One complete header line**, of any length. -/
theorem parseGo_line {key value : Bytes} (hkey : 58 ∉ key) (hcrlf : ¬ CRLF <:+: key ++ 58 :: value) (post : Bytes)
    (hb : bytes = pre ++ (key ++ 58 :: value ++ CRLF ++ post)) :
    parseGo d view bytes (n + 1) pre.length rest =
      parseGo d view bytes n (pre.length + (key ++ 58 :: value ++ CRLF).length)
        { rest with
          headers := assign d (view.sub pre.length key.length) key
            (view.sub (pre.length + key.length + 1 + (value.takeWhile (· == 32)).length)
              (value.dropWhile (· == 32)).length) rest.headers } := by
  have hsplit : value = value.takeWhile (· == 32) ++ value.dropWhile (· == 32) := List.takeWhile_append_dropWhile.symm
  set spaces := value.takeWhile (· == 32) with hspaces
  set trimmed := value.dropWhile (· == 32) with htrimmed
  have hlen : value.length = spaces.length + trimmed.length := by rw [hsplit, List.length_append]
  have hstop : findText bytes CRLF pre.length = some (pre.length + (key ++ 58 :: value).length) := by
    rw [hb]; exact findText_line pre post hcrlf
  have hcolon : findByte bytes 58 pre.length = some (pre.length + key.length) := by
    have : bytes = pre ++ key ++ 58 :: (value ++ CRLF ++ post) := by rw [hb]; simp
    rw [this]; exact findByte_of_append pre _ hkey
  -- behind the spaces stands the value, or the `\r` of an empty one
  have hvstart : findNot bytes 32 (pre.length + key.length + 1) =
      some (pre.length + key.length + 1 + spaces.length) := by
    obtain ⟨b, t, hbt, hb32⟩ : ∃ b t, trimmed ++ CRLF ++ post = b :: t ∧ b ≠ 32 := by
      cases ht : trimmed with
      | nil => exact ⟨13, 10 :: post, rfl, by decide⟩
      | cons b t =>
          refine ⟨b, t ++ CRLF ++ post, by simp, ?_⟩
          have := List.head?_dropWhile_not (· == 32) value
          rw [← htrimmed, ht] at this
          simpa using this
    have : bytes = (pre ++ key ++ [58]) ++ (spaces ++ b :: t) := by
      rw [hb, ← hbt]
      conv_lhs => rw [hsplit]
      simp
    rw [this]
    have hall : ∀ x ∈ spaces, x = 32 := fun x hx => by
      simpa using List.all_eq_true.mp List.all_takeWhile x hx
    have hf := findNot_of_append (pre ++ key ++ [58]) t hall hb32
    simpa [Nat.add_assoc] using hf
  -- searched from behind the spaces, the end of the line is the same
  have hvend : findText bytes CRLF (pre.length + key.length + 1 + spaces.length) =
      some (pre.length + (key ++ 58 :: value).length) := by
    have hno : ¬ CRLF <:+: trimmed := by
      intro hin
      apply hcrlf
      refine hin.trans ?_
      rw [hsplit]
      exact ⟨key ++ 58 :: spaces, [], by simp⟩
    have hb' : bytes = (pre ++ key ++ 58 :: spaces) ++ (trimmed ++ CRLF ++ post) := by
      rw [hb]
      conv_lhs => rw [hsplit]
      simp
    have hpre : (pre ++ key ++ 58 :: spaces).length = pre.length + key.length + 1 + spaces.length := by simp; omega
    rw [hb', ← hpre, findText_line _ post hno, hpre]
    congr 1
    simp
    omega
  have hlt : pre.length < bytes.length := by
    rw [hb, List.length_append, List.length_append, List.length_append, List.length_append, List.length_cons]
    omega
  have hshown : substr bytes pre.length (pre.length + key.length - pre.length) = key := by
    rw [hb, substr, List.drop_left, Nat.add_sub_cancel_left, List.append_assoc, List.append_assoc, List.take_left]
  have hkl : pre.length + key.length - pre.length = key.length := by omega
  have hvalue : pre.length + (key ++ 58 :: value).length - (pre.length + key.length + 1 + spaces.length) =
      trimmed.length := by simp; omega
  have hnext : pre.length + (key ++ 58 :: value).length + 2 = pre.length + (key ++ 58 :: value ++ CRLF).length := by
    simp [CRLF]; omega
  rw [hkl] at hshown
  rw [parseGo, if_pos hlt, hstop]
  simp only [hcolon, hvstart, hvend, hkl, hshown, hvalue, hnext]
  rw [if_neg (by simp), if_neg (by simp)]

theorem parseGo_header (h : HeaderLine) (post : Bytes) (hb : bytes = pre ++ (h.bytes ++ post)) :
    parseGo d view bytes (n + 1) pre.length rest =
      parseGo d view bytes n (pre.length + h.bytes.length)
        { rest with
          headers := assign d (view.sub pre.length h.key.length) h.key
            (view.sub (pre.length + h.key.length + 1 + h.spaces) h.trimmed.length) rest.headers } :=
  parseGo_line h.colon h.crlf post hb

/-- A line of which only a proper beginning is there. -/
theorem parseGo_incomplete {l : Bytes} (hl : ¬ CRLF <:+: l) (hw : w <+: l ++ CRLF) (hlt : w.length < l.length + 2)
    (hb : bytes = pre ++ w) :
    parseGo d view bytes (n + 1) pre.length rest = (rest, pre.length, some .resourceUnavailableTryAgain) := by
  have hnone : findText bytes CRLF pre.length = none := by
    apply findText_of_not_infix
    rw [hb, List.drop_left]
    exact not_infix_of_proper hl hw hlt
  rw [parseGo, hnone]
  split <;> rfl

theorem parseGo_end (hb : bytes = pre ++ (CRLF ++ w)) :
    parseGo d view bytes (n + 1) pre.length rest =
      ({ rest with contentPart := view.sub (pre.length + 2) (bytes.length - (pre.length + 2)) }, pre.length + 2, none) := by
  have hstop : findText bytes CRLF pre.length = some pre.length := by
    have := findText_line pre w (l := []) (by decide)
    rw [hb]; simpa using this
  have hlt : pre.length < bytes.length := by rw [hb]; simp [CRLF]
  rw [parseGo, if_pos hlt, hstop]
  simp

/-- **`parse` on the window**: it takes the header lines that are complete, and the empty line when it is there;
else it stops at the beginning of the line that is not, which is shorter than a block, and more is to come. -/
theorem parseGo_spec {P : Nat → View → Prop}
    (hsub : ∀ i n, i + n ≤ bytes.length → d (view.sub i n) = some (substr bytes i n))
    (hP : ∀ i n b, i + n ≤ b → b ≤ bytes.length → P b (view.sub i n)) (hmono : ∀ v b b', b ≤ b' → P b v → P b' v)
    {r tail : Bytes} :
    ∀ (hs : List HeaderLine) (n : Nat) (pre w : Bytes) (rest : MessageRestView) (m : List (Bytes × Bytes)),
      bytes = pre ++ w → w.length < n → w ++ r = hs.flatMap HeaderLine.bytes ++ (CRLF ++ tail) →
      Shows d (P pre.length) rest.headers m →
      ∃ done todo headers, hs = done ++ todo ∧
        Shows d (P (pre.length + (done.flatMap HeaderLine.bytes).length)) headers (done.foldl HeaderLine.addTo m) ∧
        ((todo = [] ∧ ∃ w' part, w = done.flatMap HeaderLine.bytes ++ (CRLF ++ w') ∧
            parseGo d view bytes n pre.length rest =
              (⟨headers, part⟩, pre.length + (done.flatMap HeaderLine.bytes).length + 2, none)) ∨
          ∃ w', w = done.flatMap HeaderLine.bytes ++ w' ∧ w'.length < HTTP_BUFFER_BLOCK_SIZE ∧ r ≠ [] ∧
            parseGo d view bytes n pre.length rest =
              (⟨headers, rest.contentPart⟩, pre.length + (done.flatMap HeaderLine.bytes).length,
                some .resourceUnavailableTryAgain)) := by
  intro hs
  induction hs with
  | nil =>
      intro n pre w rest m hb hn hw hshows
      obtain ⟨n, rfl⟩ : ∃ j, n = j + 1 := ⟨n - 1, by omega⟩
      refine ⟨[], [], rest.headers, rfl, by simpa using hshows, ?_⟩
      rw [List.flatMap_nil, List.nil_append] at hw
      by_cases hlen : w.length < 2
      · right
        refine ⟨w, rfl, by simp [HTTP_BUFFER_BLOCK_SIZE]; omega, ?_, ?_⟩
        · rintro rfl
          have := congrArg List.length hw
          simp [CRLF] at this
          omega
        · -- only a beginning of the empty line is there
          have hpre : w <+: [] ++ CRLF := prefix_of_append_eq hw (by simp [CRLF]; omega)
          rw [parseGo_incomplete (by decide) hpre (by simpa using hlen) hb]
          simp
      · left
        obtain ⟨w', rfl, -⟩ := exists_of_append_eq hw (by simp [CRLF]; omega)
        refine ⟨rfl, w', view.sub (pre.length + 2) (bytes.length - (pre.length + 2)), rfl, ?_⟩
        rw [parseGo_end hb]; simp
  | cons h hs ih =>
      intro n pre w rest m hb hn hw hshows
      obtain ⟨n, rfl⟩ : ∃ j, n = j + 1 := ⟨n - 1, by omega⟩
      have hlen := h.length_bytes
      have hbytes : h.bytes.length = h.line.length + 2 := by simp [HeaderLine.bytes, CRLF]
      rw [List.flatMap_cons, List.append_assoc] at hw
      by_cases hfull : h.bytes.length ≤ w.length
      · -- the line is complete: its views lie in the part consumed
        obtain ⟨w1, rfl, hw1⟩ := exists_of_append_eq hw hfull
        have hb' : bytes = (pre ++ h.bytes) ++ w1 := by rw [hb]; simp
        have htotal : bytes.length = pre.length + h.bytes.length + w1.length := by rw [hb]; simp; omega
        have hsum := h.spaces_add_trimmed
        have hkey : substr bytes pre.length h.key.length = h.key := by
          rw [hb, substr, List.drop_left, HeaderLine.bytes, HeaderLine.line, List.append_assoc, List.append_assoc,
            List.take_left]
        have hvalue : substr bytes (pre.length + h.key.length + 1 + h.spaces) h.trimmed.length = h.trimmed := by
          have hsplit : bytes = (pre ++ h.key ++ 58 :: h.value.takeWhile (· == 32)) ++ (h.trimmed ++ (CRLF ++ w1)) := by
            rw [hb, HeaderLine.bytes, HeaderLine.line]
            conv_lhs => rw [h.value_eq]
            simp
          have hpre : (pre ++ h.key ++ 58 :: h.value.takeWhile (· == 32)).length =
              pre.length + h.key.length + 1 + h.spaces := by simp [HeaderLine.spaces]; omega
          rw [hsplit, substr, List.drop_left' hpre, List.take_left]
        have hd1 := hsub pre.length h.key.length (by omega)
        have hd2 := hsub (pre.length + h.key.length + 1 + h.spaces) h.trimmed.length (by omega)
        rw [hkey] at hd1
        rw [hvalue] at hd2
        have hshows' := Shows.assign (hshows.mono fun v hv => ⟨rfl, hmono v _ (pre ++ h.bytes).length (by simp) hv⟩)
          hd1 hd2 (hP _ _ _ (by simp; omega) (by simp; omega)) (hP _ _ _ (by simp; omega) (by simp; omega))
        obtain ⟨done, todo, headers, hsplit, hsh, hres⟩ := ih n (pre ++ h.bytes) w1
          { rest with
            headers := assign d (view.sub pre.length h.key.length) h.key
              (view.sub (pre.length + h.key.length + 1 + h.spaces) h.trimmed.length) rest.headers }
          _ hb' (by simp at hn; omega) hw1 hshows'
        rw [parseGo_header h w1 hb]
        have hpos : (pre ++ h.bytes).length = pre.length + h.bytes.length := by simp
        rw [hpos] at hsh hres
        have hflat : pre.length + ((h :: done).flatMap HeaderLine.bytes).length =
            pre.length + h.bytes.length + (done.flatMap HeaderLine.bytes).length := by simp; omega
        refine ⟨h :: done, todo, headers, by rw [hsplit]; rfl, ?_, ?_⟩
        · rw [hflat]; exact hsh
        · rw [hflat]
          rcases hres with ⟨ht, w', part, hw', hgo⟩ | ⟨w', hw', hlt, hr, hgo⟩
          · exact .inl ⟨ht, w', part, by rw [hw']; simp, hgo⟩
          · exact .inr ⟨w', by rw [hw']; simp, hlt, hr, hgo⟩
      · -- the window ends inside the line: nothing of it is consumed
        refine ⟨[], h :: hs, rest.headers, rfl, by simpa using hshows, .inr ⟨w, rfl, ?_, ?_, ?_⟩⟩
        · have := h.fits; omega
        · rintro rfl
          have := congrArg List.length hw
          simp at this
          omega
        · have hpre : w <+: h.line ++ CRLF := prefix_of_append_eq hw (Nat.le_of_not_le hfull)
          have hcrlf : ¬ CRLF <:+: h.line := h.crlf
          rw [parseGo_incomplete hcrlf hpre (by omega) hb]
          simp

end MessageRestView

/-! ## §5 — printed header lines.

The writers of both directions print a header as `key: value`; what they print is text of its own. -/

/-- A header that its printed line can be read back from. -/
structure Printable (e : Bytes × Bytes) : Prop where
  colon : 58 ∉ e.1
  key : ¬ CRLF <:+: e.1
  value : ¬ CRLF <:+: e.2
  start : e.2.head? ≠ some 32

instance (e : Bytes × Bytes) : Decidable (Printable e) :=
  decidable_of_iff (58 ∉ e.1 ∧ ¬ CRLF <:+: e.1 ∧ ¬ CRLF <:+: e.2 ∧ e.2.head? ≠ some 32)
    ⟨fun h => ⟨h.1, h.2.1, h.2.2.1, h.2.2.2⟩, fun h => ⟨h.colon, h.key, h.value, h.start⟩⟩

/-- The line of a header. -/
def printed (e : Bytes × Bytes) : Bytes := e.1 ++ text ": " ++ e.2 ++ CRLF

theorem printed_eq (e : Bytes × Bytes) : printed e = e.1 ++ 58 :: (32 :: e.2) ++ CRLF := by
  rw [printed, show text ": " = [58, 32] by decide]
  simp

theorem Printable.crlf_line {e : Bytes × Bytes} (h : Printable e) : ¬ CRLF <:+: e.1 ++ 58 :: (32 :: e.2) := by
  have hsep : ¬ CRLF <:+: 58 :: (32 :: e.2) := by
    rw [List.infix_cons_iff, List.infix_cons_iff]
    rintro (hp | hp | hp)
    · exact absurd hp (by simp [CRLF, List.cons_prefix_cons])
    · exact absurd hp (by simp [CRLF, List.cons_prefix_cons])
    · exact h.value hp
  exact not_infix_append h.key (by simp) hsep

/-- The value is what is left of its leading spaces. -/
theorem Printable.dropWhile_eq {e : Bytes × Bytes} (h : Printable e) :
    (32 :: e.2).takeWhile (· == 32) = [32] ∧ (32 :: e.2).dropWhile (· == 32) = e.2 := by
  have hstart := h.start
  cases hv : e.2 with
  | nil => simp
  | cons b t =>
      have hb : (b == 32) = false := by simpa [hv] using hstart
      simp [hb]

theorem length_le_printed (es : List (Bytes × Bytes)) : es.length ≤ (es.flatMap printed).length := by
  induction es with
  | nil => simp
  | cons e es ih =>
      rw [List.flatMap_cons, printed_eq, List.length_append, List.length_append, List.length_append]
      simp only [List.length_cons]
      omega

/-- A map that entries with new keys are put into, one after the other, gets them all. -/
theorem foldl_alter_of_nodup : ∀ (es m : List (Bytes × Bytes)), ((m ++ es).map Prod.fst).Nodup →
    es.foldl (fun m e => alter e.1 [] (fun _ => e.2) m) m = m ++ es
  | [], m, _ => by simp
  | e :: es, m, h => by
      have hnew : e.1 ∉ m.map Prod.fst := by
        intro hmem
        rw [List.map_append, List.nodup_append] at h
        exact h.2.2 e.1 hmem e.1 (by simp) rfl
      rw [List.foldl_cons, alter_of_not_mem hnew, foldl_alter_of_nodup es (m ++ [e]) (by simpa using h)]
      simp

namespace MessageRestView

/-- **Printed headers are read back**, up to the empty line behind them. -/
theorem parseGo_printed {d : View → Option Bytes} (hd : ∀ b, d (.text b) = some b) {bytes : Bytes} :
    ∀ (es : List (Bytes × Bytes)) (n : Nat) (pre : Bytes) (rest : MessageRestView) (m : List (Bytes × Bytes)),
      bytes = pre ++ (es.flatMap printed ++ CRLF) → es.length < n → (∀ e ∈ es, Printable e) →
      Shows d (fun _ => True) rest.headers m →
      ∃ headers, parseGo d (.text bytes) bytes n pre.length rest = (⟨headers, .text []⟩, bytes.length, none) ∧
        Shows d (fun _ => True) headers (es.foldl (fun m e => alter e.1 [] (fun _ => e.2) m) m)
  | [], n, pre, rest, m, hb, hn, _, hshows => by
      obtain ⟨n, rfl⟩ : ∃ j, n = j + 1 := ⟨n - 1, by simp at hn; omega⟩
      have hend : bytes.length = pre.length + 2 := by rw [hb]; simp [CRLF]
      refine ⟨rest.headers, ?_, hshows⟩
      rw [parseGo_end (w := []) (by rw [hb]; simp), ← hend, Nat.sub_self]
      show ({ rest with contentPart := .text (substr bytes bytes.length 0) }, bytes.length, none) = _
      rw [substr, List.take_zero]
  | e :: es, n, pre, rest, m, hb, hn, hall, hshows => by
      obtain ⟨n, rfl⟩ : ∃ j, n = j + 1 := ⟨n - 1, by omega⟩
      have hp := hall e (by simp)
      obtain ⟨hspaces, htrim⟩ := hp.dropWhile_eq
      have hb1 : bytes = pre ++ (e.1 ++ 58 :: (32 :: e.2) ++ CRLF ++ (es.flatMap printed ++ CRLF)) := by
        rw [hb, List.flatMap_cons, printed_eq, List.append_assoc]
      have hb2 : bytes = (pre ++ (e.1 ++ 58 :: (32 :: e.2) ++ CRLF)) ++ (es.flatMap printed ++ CRLF) := by
        rw [hb1]; simp
      have hkey : substr bytes pre.length e.1.length = e.1 := by
        rw [hb1, substr, List.drop_left, List.append_assoc, List.append_assoc, List.take_left]
      have hvalue : substr bytes (pre.length + e.1.length + 1 + 1) e.2.length = e.2 := by
        have hsplit : bytes = (pre ++ e.1 ++ [58, 32]) ++ (e.2 ++ (CRLF ++ (es.flatMap printed ++ CRLF))) := by
          rw [hb1]; simp
        rw [hsplit, substr, List.drop_left' (by simp; omega), List.take_left]
      have hstep := @parseGo_line d (.text bytes) bytes pre n rest e.1 (32 :: e.2) hp.colon hp.crlf_line _ hb1
      rw [hspaces, htrim] at hstep
      set rest' : MessageRestView :=
        { rest with
          headers := assign d ((View.text bytes).sub pre.length e.1.length) e.1
            ((View.text bytes).sub (pre.length + e.1.length + 1 + 1) e.2.length) rest.headers } with hrest'
      have hshows' : Shows d (fun _ => True) rest'.headers (alter e.1 [] (fun _ => e.2) m) := by
        apply hshows.assign _ _ trivial trivial
        · rw [View.sub, hkey]; exact hd _
        · rw [View.sub, hvalue]; exact hd _
      obtain ⟨headers, hgo, hsh⟩ := parseGo_printed hd es n (pre ++ (e.1 ++ 58 :: (32 :: e.2) ++ CRLF)) rest' _ hb2
        (by simpa using hn) (fun e' he' => hall e' (by simp [he'])) hshows'
      refine ⟨headers, ?_, hsh⟩
      rw [List.length_append] at hgo
      rw [hstep]
      exact hgo

/-- **A printed header block is read back**: all of it is consumed, and every header is there. -/
theorem parse_printed (heap : Nat → Block) (rs : RawString) {es : List (Bytes × Bytes)} (hall : ∀ e ∈ es, Printable e)
    (hnodup : (es.map Prod.fst).Nodup) :
    ∃ headers, parse (View.deref heap rs) (.text (es.flatMap printed ++ CRLF)) (es.flatMap printed ++ CRLF) .init =
        (⟨headers, .text []⟩, (es.flatMap printed ++ CRLF).length, none) ∧
      headers.map (fun e => (View.deref heap rs e.1, View.deref heap rs e.2)) = es.map fun e => (some e.1, some e.2) := by
  have hlen := length_le_printed es
  obtain ⟨headers, hgo, hsh⟩ := parseGo_printed (d := View.deref heap rs) (fun _ => rfl) es
    ((es.flatMap printed ++ CRLF).length + 1) [] .init [] rfl (by rw [List.length_append]; omega) hall .nil
  rw [foldl_alter_of_nodup es [] (by simpa using hnodup)] at hsh
  exact ⟨headers, hgo, hsh.map_deref⟩

end MessageRestView

end NetCpp.Http
