/-
# NetCpp.Http.Builder — `RequestPartBuilder`, and its requests read back by the server's parser.

`include/xsl/asio/http/request.h` and `src/asio/http/request.cpp`.  The text grows over a chain of blocks: a piece
goes behind the offset, or is cut at the edge of the block.  `append_spec` is the one place where the chain is
looked at: a piece of at most a block is appended to the text, WHEREVER it begins.

The loop of `append` for a rest longer than a block does not shorten the rest, so it does not end: `spill` has a
bound on its turns and `none` behind it.  No piece of at most a block gets there.
-/
import NetCpp.Http.Line

namespace NetCpp.Http

open NetCpp.Lib

/-! ## §1 — the builder. -/

/-- `_raw` as its last block and those before it. -/
structure RequestPartBuilder where
  full : List Block
  back : Block
  offset : Nat

namespace RequestPartBuilder

def init : RequestPartBuilder := ⟨[], fun _ => 0, 0⟩

/-- `_raw.emplace_back`. -/
def emplaceBack (b : RequestPartBuilder) : RequestPartBuilder :=
  { b with full := b.full ++ [b.back], back := fun _ => 0 }

def checkAppend (b : RequestPartBuilder) : RequestPartBuilder :=
  if b.offset = HTTP_BUFFER_BLOCK_SIZE then { b.emplaceBack with offset := 0 } else b

/-- `append(char)`. -/
def appendChar (c : UInt8) (b : RequestPartBuilder) : RequestPartBuilder :=
  let b := b.checkAppend
  { b with back := write b.back b.offset [c], offset := b.offset + 1 }

/-- The loop over whole blocks in `append`. -/
def spill (data : Bytes) : Nat → RequestPartBuilder → Option RequestPartBuilder
  | 0, b => if data.length > HTTP_BUFFER_BLOCK_SIZE then none else some b
  | n + 1, b =>
      if data.length > HTTP_BUFFER_BLOCK_SIZE then
        spill data n { b with back := write b.back 0 (data.take HTTP_BUFFER_BLOCK_SIZE) }.emplaceBack
      else some b

/-- `append(string_view)`, with a bound on the turns of its loop. -/
def append (turns : Nat) (str : Bytes) (b : RequestPartBuilder) : Option RequestPartBuilder :=
  if str = [] then some b
  else
    let b := b.checkAppend
    if b.offset + str.length ≤ HTTP_BUFFER_BLOCK_SIZE then
      some { b with back := write b.back b.offset str, offset := b.offset + str.length }
    else
      let remaining := HTTP_BUFFER_BLOCK_SIZE - b.offset
      let b := { b with back := write b.back b.offset (str.take remaining) }.emplaceBack
      let data := str.drop remaining
      match spill data turns b with
      | none => none
      | some b => if data = [] then some b else some { b with back := write b.back 0 data, offset := data.length }

def setMethod (turns : Nat) (method : Method) (b : RequestPartBuilder) : Option RequestPartBuilder :=
  b.append turns method.toStringView

def setTarget (turns : Nat) (target : Bytes) (b : RequestPartBuilder) : Option RequestPartBuilder :=
  (b.appendChar 32).append turns target

def setVersion (turns : Nat) (version : Version) (b : RequestPartBuilder) : Option RequestPartBuilder := do
  let b ← (b.appendChar 32).append turns version.toStringView
  b.append turns CRLF

def addHeader (turns : Nat) (key value : Bytes) (b : RequestPartBuilder) : Option RequestPartBuilder := do
  let b ← b.append turns key
  let b ← b.append turns (text ": ")
  let b ← b.append turns value
  b.append turns CRLF

/-- The calls in the order the class asks for. -/
def build (turns : Nat) (method : Method) (target : Bytes) (version : Version) (headers : List (Bytes × Bytes)) :
    Option RequestPartBuilder := do
  let b ← init.setMethod turns method
  let b ← b.setTarget turns target
  let b ← b.setVersion turns version
  headers.foldlM (fun b e => b.addHeader turns e.1 e.2) b

/-- The blocks, the last one up to the offset. -/
def written (b : RequestPartBuilder) : Bytes :=
  b.full.flatMap (slice · 0 HTTP_BUFFER_BLOCK_SIZE) ++ if b.offset > 0 then slice b.back 0 b.offset else []

def toString (b : RequestPartBuilder) : Bytes := b.written ++ CRLF

/-! ## §2 — a piece is appended, wherever the block ends. -/

variable {b : RequestPartBuilder}

theorem written_eq (b : RequestPartBuilder) : b.written = chainText HTTP_BUFFER_BLOCK_SIZE b.full b.back b.offset := by
  rw [written, chainText]
  by_cases h : b.offset = 0
  · rw [h]; rfl
  · rw [if_pos (by omega)]

/-- There is room behind the offset after the check, and the text is the same. -/
theorem checkAppend_spec (h : b.offset ≤ HTTP_BUFFER_BLOCK_SIZE) :
    b.checkAppend.offset < HTTP_BUFFER_BLOCK_SIZE ∧ b.checkAppend.written = b.written := by
  unfold checkAppend
  by_cases hfull : b.offset = HTTP_BUFFER_BLOCK_SIZE
  · rw [if_pos hfull]
    refine ⟨show 0 < HTTP_BUFFER_BLOCK_SIZE by decide, ?_⟩
    rw [written_eq, written_eq b, hfull]
    exact chainText_next HTTP_BUFFER_BLOCK_SIZE b.full b.back _
  · rw [if_neg hfull]
    exact ⟨by omega, rfl⟩

/-- A write behind the offset prolongs the text. -/
theorem written_write (data : Bytes) :
    written { b with back := write b.back b.offset data, offset := b.offset + data.length } = b.written ++ data := by
  rw [written_eq, written_eq b]
  exact chainText_write HTTP_BUFFER_BLOCK_SIZE b.full b.back b.offset data

/-- **A piece that ends in this block or the next is appended to the text.** -/
theorem append_of_short (turns : Nat) (str : Bytes) (hoff : b.offset ≤ HTTP_BUFFER_BLOCK_SIZE)
    (hstr : b.checkAppend.offset + str.length ≤ 2 * HTTP_BUFFER_BLOCK_SIZE) :
    ∃ b', b.append turns str = some b' ∧ b'.offset ≤ HTTP_BUFFER_BLOCK_SIZE ∧ b'.written = b.written ++ str := by
  unfold append
  by_cases hnil : str = []
  · exact ⟨b, by rw [if_pos hnil], hoff, by rw [hnil, List.append_nil]⟩
  · rw [if_neg hnil]
    obtain ⟨hroom, htext⟩ := checkAppend_spec hoff
    set c := b.checkAppend with hc
    by_cases hfit : c.offset + str.length ≤ HTTP_BUFFER_BLOCK_SIZE
    · refine ⟨_, if_pos hfit, hfit, ?_⟩
      rw [written_write, htext]
    · -- the piece is cut at the edge: the first part fills the block, the rest opens the next one
      have hlen : (str.drop (HTTP_BUFFER_BLOCK_SIZE - c.offset)).length ≤ HTTP_BUFFER_BLOCK_SIZE := by simp; omega
      have hne : str.drop (HTTP_BUFFER_BLOCK_SIZE - c.offset) ≠ [] := by
        intro h0
        have := congrArg List.length h0
        simp at this
        omega
      have hspill : ∀ d : RequestPartBuilder,
          spill (str.drop (HTTP_BUFFER_BLOCK_SIZE - c.offset)) turns d = some d := by
        intro d
        cases turns with
        | zero => exact if_neg (by omega)
        | succ n => exact if_neg (by omega)
      have htake : c.offset + (str.take (HTTP_BUFFER_BLOCK_SIZE - c.offset)).length = HTTP_BUFFER_BLOCK_SIZE := by
        simp; omega
      simp only [if_neg hfit, hspill, if_neg hne]
      refine ⟨_, rfl, hlen, ?_⟩
      have hrest := chainText_write HTTP_BUFFER_BLOCK_SIZE
        (c.full ++ [write c.back c.offset (str.take (HTTP_BUFFER_BLOCK_SIZE - c.offset))]) (fun _ => 0) 0
        (str.drop (HTTP_BUFFER_BLOCK_SIZE - c.offset))
      rw [Nat.zero_add, chainText_fill htake] at hrest
      calc _ = chainText HTTP_BUFFER_BLOCK_SIZE c.full c.back c.offset ++
            str.take (HTTP_BUFFER_BLOCK_SIZE - c.offset) ++ str.drop (HTTP_BUFFER_BLOCK_SIZE - c.offset) := by
              rw [written_eq]
              exact hrest
        _ = c.written ++ str := by rw [written_eq c, List.append_assoc, List.take_append_drop]
        _ = b.written ++ str := by rw [htext]

/-- **A piece of at most a block is appended to the text**, wherever it begins. -/
theorem append_spec (turns : Nat) (str : Bytes) (hoff : b.offset ≤ HTTP_BUFFER_BLOCK_SIZE)
    (hstr : str.length ≤ HTTP_BUFFER_BLOCK_SIZE) :
    ∃ b', b.append turns str = some b' ∧ b'.offset ≤ HTTP_BUFFER_BLOCK_SIZE ∧ b'.written = b.written ++ str := by
  have hroom := (checkAppend_spec hoff).1
  exact append_of_short turns str hoff (by omega)

theorem appendChar_spec (c : UInt8) (hoff : b.offset ≤ HTTP_BUFFER_BLOCK_SIZE) :
    (b.appendChar c).offset ≤ HTTP_BUFFER_BLOCK_SIZE ∧ (b.appendChar c).written = b.written ++ [c] := by
  obtain ⟨hroom, htext⟩ := checkAppend_spec hoff
  refine ⟨hroom, ?_⟩
  have := written_write (b := b.checkAppend) [c]
  rw [htext] at this
  exact this

/-- A header is appended as its printed line. -/
theorem addHeader_spec (turns : Nat) {e : Bytes × Bytes} (hoff : b.offset ≤ HTTP_BUFFER_BLOCK_SIZE)
    (hkey : e.1.length ≤ HTTP_BUFFER_BLOCK_SIZE) (hvalue : e.2.length ≤ HTTP_BUFFER_BLOCK_SIZE) :
    ∃ b', b.addHeader turns e.1 e.2 = some b' ∧ b'.offset ≤ HTTP_BUFFER_BLOCK_SIZE ∧
      b'.written = b.written ++ printed e := by
  obtain ⟨b1, h1, hoff1, ht1⟩ := append_spec turns e.1 hoff hkey
  obtain ⟨b2, h2, hoff2, ht2⟩ := append_spec turns (text ": ") hoff1 (by decide)
  obtain ⟨b3, h3, hoff3, ht3⟩ := append_spec turns e.2 hoff2 hvalue
  obtain ⟨b4, h4, hoff4, ht4⟩ := append_spec turns CRLF hoff3 (by decide)
  refine ⟨b4, ?_, hoff4, ?_⟩
  · simp [addHeader, h1, h2, h3, h4]
  · rw [ht4, ht3, ht2, ht1, printed]
    simp

theorem addHeaders_spec (turns : Nat) : ∀ (headers : List (Bytes × Bytes)) {b : RequestPartBuilder},
    b.offset ≤ HTTP_BUFFER_BLOCK_SIZE →
    (∀ e ∈ headers, e.1.length ≤ HTTP_BUFFER_BLOCK_SIZE ∧ e.2.length ≤ HTTP_BUFFER_BLOCK_SIZE) →
    ∃ b', headers.foldlM (fun b e => b.addHeader turns e.1 e.2) b = some b' ∧
      b'.written = b.written ++ headers.flatMap printed
  | [], b, _, _ => ⟨b, rfl, by simp⟩
  | e :: headers, b, hoff, hlen => by
      obtain ⟨b1, h1, hoff1, ht1⟩ := addHeader_spec turns hoff (hlen e (by simp)).1 (hlen e (by simp)).2
      obtain ⟨b2, h2, ht2⟩ := addHeaders_spec turns headers hoff1 fun e' he' => hlen e' (by simp [he'])
      refine ⟨b2, ?_, ?_⟩
      · rw [List.foldlM_cons, h1]
        exact h2
      · rw [ht2, ht1, List.flatMap_cons, List.append_assoc]

/-- **The text of a built request** is its lines, for every alignment with the blocks. -/
theorem build_spec (turns : Nat) (method : Method) {target : Bytes} (version : Version) {headers : List (Bytes × Bytes)}
    (htarget : target.length ≤ HTTP_BUFFER_BLOCK_SIZE)
    (hheaders : ∀ e ∈ headers, e.1.length ≤ HTTP_BUFFER_BLOCK_SIZE ∧ e.2.length ≤ HTTP_BUFFER_BLOCK_SIZE) :
    ∃ b, build turns method target version headers = some b ∧
      b.toString = method.toStringView ++ 32 :: (target ++ 32 :: version.toStringView) ++ CRLF ++
        (headers.flatMap printed ++ CRLF) := by
  have hm : method.toStringView.length ≤ HTTP_BUFFER_BLOCK_SIZE := by cases method <;> decide
  have hv : version.toStringView.length ≤ HTTP_BUFFER_BLOCK_SIZE := by cases version <;> decide
  obtain ⟨b1, h1, hoff1, ht1⟩ := append_spec (b := init) turns _ (Nat.zero_le _) hm
  obtain ⟨hoff2, ht2⟩ := appendChar_spec 32 hoff1
  obtain ⟨b3, h3, hoff3, ht3⟩ := append_spec turns target hoff2 htarget
  obtain ⟨hoff4, ht4⟩ := appendChar_spec 32 hoff3
  obtain ⟨b5, h5, hoff5, ht5⟩ := append_spec turns _ hoff4 hv
  obtain ⟨b6, h6, hoff6, ht6⟩ := append_spec turns CRLF hoff5 (by decide)
  obtain ⟨b7, h7, ht7⟩ := addHeaders_spec turns headers hoff6 hheaders
  refine ⟨b7, ?_, ?_⟩
  · simp [build, setMethod, setTarget, setVersion, h1, h3, h5, h6, h7]
  · have hinit : init.written = [] := rfl
    rw [toString, ht7, ht6, ht5, ht4, ht3, ht2, ht1, hinit]
    simp

/-! ## §3 — the round trip. -/

/-- The path and the query of a target: what stands before and behind its first `?`. -/
def targetPath (target : Bytes) : Bytes := target.takeWhile (· != 63)

def targetQuery (target : Bytes) : Option Bytes :=
  match target.dropWhile (· != 63) with
  | [] => none
  | _ :: query => some query

/-- A target that begins with a slash is a path of segments and maybe a query. -/
theorem target_eq {target : Bytes} (hslash : target.head? = some 47) (hfrag : 35 ∉ target) :
    pathOf (segments (targetPath target)) = targetPath target ∧ PathSegs (segments (targetPath target)) ∧
      target = targetPath target ++ queryPart (targetQuery target) ∧
      ∀ q, targetQuery target = some q → 35 ∉ q := by
  have hsplit : targetPath target ++ target.dropWhile (· != 63) = target := List.takeWhile_append_dropWhile
  have hpath : (targetPath target).head? = some 47 := by
    obtain ⟨t, rfl⟩ : ∃ t, target = 47 :: t := by
      cases target with
      | nil => cases hslash
      | cons b t => exact ⟨t, by rw [show b = 47 by simpa using hslash]⟩
    simp [targetPath]
  have hpathOf := pathOf_segments hpath
  refine ⟨hpathOf, ?_, ?_, ?_⟩
  · intro s hs x hx
    have hmem : x ∈ targetPath target := by
      rw [← hpathOf, pathOf, List.mem_flatMap]
      exact ⟨s, hs, by simp [hx]⟩
    refine ⟨?_, ?_, ?_⟩
    · rintro rfl
      exact plain_segments _ s hs hx
    · rintro rfl
      simpa using List.all_eq_true.mp List.all_takeWhile _ hmem
    · rintro rfl
      exact hfrag (by rw [← hsplit]; exact List.mem_append_left _ hmem)
  · conv_lhs => rw [← hsplit]
    congr 1
    unfold targetQuery
    cases hd : target.dropWhile (· != 63) with
    | nil => rfl
    | cons b q =>
        have hb := List.head?_dropWhile_not (· != 63) target
        rw [hd] at hb
        obtain rfl : b = 63 := by simpa using hb
        rfl
  · intro q hq hmem
    unfold targetQuery at hq
    cases hd : target.dropWhile (· != 63) with
    | nil => rw [hd] at hq; cases hq
    | cons b t =>
        rw [hd] at hq
        obtain rfl : t = q := by simpa using hq
        apply hfrag
        rw [← hsplit, hd]
        simp [hmem]

/-- **The request line of a plain target** is parsed into its method, path, query and version. -/
theorem parse_requestLine (A : Alloc) (method : Method) {target bytes post : Bytes} {version : Version}
    (hslash : target.head? = some 47) (htarget : 35 ∉ target ∧ 37 ∉ target ∧ 32 ∉ target ∧ ¬ CRLF <:+: target)
    (hversion : version = .http10 ∨ version = .http11 ∨ version = .http20)
    (hb : bytes = method.toStringView ++ 32 :: (target ++ 32 :: version.toStringView) ++ CRLF ++ post) :
    ∃ raw, (RequestLine.init A).parse A (.text bytes) bytes =
      ({ RequestLine.init A with
          raw := raw
          method := .fromStringView method.toStringView
          path := .text (targetPath target)
          query := .text ((targetQuery target).getD [])
          version := .text version.toStringView },
        (method.toStringView ++ 32 :: (target ++ 32 :: version.toStringView)).length + 2, none) := by
  obtain ⟨hfrag, hperc, hspace, hcrlf⟩ := htarget
  obtain ⟨hpath, hsegs, hsplit, hquery⟩ := target_eq hslash hfrag
  obtain ⟨hver, hvspace, hvcr⟩ := version_spec hversion
  have hmspace : 32 ∉ method.toStringView ∧ 13 ∉ method.toStringView := by cases method <;> decide
  have hline := not_crlf_fields (not_crlf_of_not_mem hmspace.2) hcrlf (not_crlf_of_not_mem hvcr)
  -- the target is recognised as an origin form, its path and query as parts of it
  have hform : matchTarget target =
      some (.origin (0, (targetPath target).length) (querySpan (targetPath target).length (targetQuery target))) := by
    have := matchTarget_origin _ hsegs (targetQuery target) hquery
    rwa [hpath, ← hsplit] at this
  have htv : (View.text bytes).sub (method.toStringView.length + 1) target.length = .text target := by
    rw [View.sub, substr, hb, List.append_assoc, List.append_assoc, ← List.drop_drop, List.drop_left,
      List.cons_append, List.drop_one, List.tail_cons, List.append_assoc, List.take_left]
  have hvv : (View.text bytes).sub (method.toStringView.length + target.length + 2) version.toStringView.length =
      .text version.toStringView := by
    rw [View.sub, substr, hb, show method.toStringView ++ 32 :: (target ++ 32 :: version.toStringView) ++ CRLF ++
      post = (method.toStringView ++ 32 :: (target ++ [32])) ++ (version.toStringView ++ (CRLF ++ post)) by simp,
      List.drop_left' (by simp; omega), List.take_left]
  have hpv : substr target 0 ((targetPath target).length - 0) = targetPath target := by
    have := fieldAt_path (targetPath target) (targetQuery target)
    rwa [← hsplit] at this
  have hqv : fieldAt target (querySpan (targetPath target).length (targetQuery target)) =
      (targetQuery target).getD [] := by
    have := fieldAt_query (targetPath target) (targetQuery target)
    rwa [← hsplit] at this
  obtain ⟨raw, hset⟩ := setTarget_plain A (.text target) { RequestLine.init A with
    method := .fromStringView method.toStringView } hform hperc
  refine ⟨raw, ?_⟩
  rw [RequestLine.parse_of_line hmspace.1 hspace hver hline hb, htv, hvv, hset]
  simp only [View.sub, hpv]
  rw [show substr target _ _ = _ from hqv]

/-- **Client requests round-trip through the server's parser.**  The two parsers accept the text of a built request,
consume it exactly, and give back the method, the path, the query, the version and the headers, for every alignment
of the pieces with the blocks. -/
theorem build_roundtrip (A : Alloc) (heap : Nat → Block) (turns : Nat) (method : Method) (target : Bytes)
    (version : Version) (headers : List (Bytes × Bytes)) (hslash : target.head? = some 47)
    (htarget : 35 ∉ target ∧ 37 ∉ target ∧ 32 ∉ target ∧ ¬ CRLF <:+: target)
    (hversion : version = .http10 ∨ version = .http11 ∨ version = .http20)
    (hnodup : (headers.map Prod.fst).Nodup) (hprint : ∀ e ∈ headers, Printable e)
    (hlen : target.length ≤ HTTP_BUFFER_BLOCK_SIZE ∧
      ∀ e ∈ headers, e.1.length ≤ HTTP_BUFFER_BLOCK_SIZE ∧ e.2.length ≤ HTTP_BUFFER_BLOCK_SIZE) :
    ∃ b line n fields, build turns method target version headers = some b ∧
      (RequestLine.init A).parse A (.text b.toString) b.toString = (line, n, none) ∧
      MessageRestView.parse (View.deref heap line.raw) (.text (b.toString.drop n)) (b.toString.drop n) .init =
        (⟨fields, .text []⟩, b.toString.length - n, none) ∧
      line.method = method ∧
      View.deref heap line.raw line.path = some (targetPath target) ∧
      View.deref heap line.raw line.query = some ((targetQuery target).getD []) ∧
      View.deref heap line.raw line.version = some version.toStringView ∧
      fields.map (fun e => (View.deref heap line.raw e.1, View.deref heap line.raw e.2)) =
        headers.map fun e => (some e.1, some e.2) := by
  obtain ⟨b, hbuild, htext⟩ := build_spec turns method version hlen.1 hlen.2
  obtain ⟨raw, hparse⟩ := parse_requestLine A method hslash htarget hversion htext
  have hdrop : b.toString.drop ((method.toStringView ++ 32 :: (target ++ 32 :: version.toStringView)).length + 2) =
      headers.flatMap printed ++ CRLF := by
    rw [htext]
    exact List.drop_left' (by rw [List.length_append]; rfl)
  obtain ⟨fields, hrest, hshown⟩ := MessageRestView.parse_printed heap raw hprint hnodup
  refine ⟨b, _, _, fields, hbuild, hparse, ?_, Method.fromStringView_toStringView method, rfl, rfl, rfl, hshown⟩
  rw [← List.length_drop, hdrop]
  exact hrest

/-- `POST /a?b` with one header, into memory that grows as asked. -/
theorem build_roundtrip_post :
    ∃ b line n fields, build 0 .post (text "/a?b") .http11 [(text "Host", text "x")] = some b ∧
      (RequestLine.init ⟨15, fun _ n => n, fun _ n => Nat.le_refl n⟩).parse ⟨15, fun _ n => n, fun _ n => Nat.le_refl n⟩
        (.text b.toString) b.toString = (line, n, none) ∧
      MessageRestView.parse (View.deref (fun _ _ => 0) line.raw) (.text (b.toString.drop n)) (b.toString.drop n) .init =
        (⟨fields, .text []⟩, b.toString.length - n, none) ∧
      line.method = .post ∧
      View.deref (fun _ _ => 0) line.raw line.path = some (text "/a") ∧
      View.deref (fun _ _ => 0) line.raw line.query = some (text "b") ∧
      View.deref (fun _ _ => 0) line.raw line.version = some (text "HTTP/1.1") ∧
      fields.map (fun e => (View.deref (fun _ _ => 0) line.raw e.1, View.deref (fun _ _ => 0) line.raw e.2)) =
        [(some (text "Host"), some (text "x"))] :=
  build_roundtrip _ (fun _ _ => 0) 0 .post (text "/a?b") .http11 [(text "Host", text "x")] (by decide)
    (by decide) (by decide) (by decide) (by decide) (by decide)

end RequestPartBuilder

end NetCpp.Http
