/-
# NetCpp.Http.ResponseRead — the client's side of `Message::read`.

`include/xsl/asio/http/response.h` with `common.h`.  A `Response` is a `Message` whose `line` is a `StatusLineView`,
and `read` is the same function on it: its chain and its headers are those of a `Request`, and the request line of
that `Request` is touched by nothing here.

`NetCpp.Http.Read` decodes request heads however they are delivered; this is the same for response heads, and for
the heads that `to_string` prints.  What is delivered behind the head stays in the window: it is the body.
-/
import NetCpp.Http.Read
import NetCpp.Http.StatusLine

namespace NetCpp.Http

open NetCpp.Lib

/-! ## §1 — `read` on a `Response`. -/

/-- A `Response`: the chain and the headers of its `Message`, and the status line. -/
structure Response where
  msg : Request
  line : StatusLineView

namespace Response

def init (A : Alloc) : Response := ⟨.init A, .init⟩

/-- What a view shows in the memory of the response. -/
def deref (resp : Response) : View → Option Bytes := resp.msg.deref

/-- `self.line.parse(window())`. -/
def parseLine (resp : Response) : Response × Nat × Option Errc :=
  match resp.line.parse resp.msg.window resp.msg.windowBytes with
  | (line, len, ec) => ({ resp with line := line }, len, ec)

/-- The loop of the status line. -/
def lineLoop : Nat → Response → Reader → Option (Option Errc × Response × Reader)
  | 0, _, _ => none
  | n + 1, resp, r =>
      match parseLine resp with
      | (resp, len, none) => some (none, { resp with msg := resp.msg.advance len }, r)
      | (resp, len, some .resourceUnavailableTryAgain) =>
          match (resp.msg.advance len).fill r with
          | (some ec, msg, r) => some (some ec, { resp with msg := msg }, r)
          | (none, msg, r) => lineLoop n { resp with msg := msg } r
      | (resp, _, some ec) => some (some ec, resp, r)

/-- `read`: the error code, the response and the reader. -/
def read (resp : Response) (r : Reader) : Option (Option Errc × Response × Reader) :=
  let msg := resp.msg.compact
  match lineLoop (r.data.length + 1) { resp with msg := { msg with rest := msg.rest.clear } } r with
  | some (none, resp, r) =>
      (Request.headLoop Request.parseRest (r.data.length + 1) resp.msg r).map fun (ec, msg, r) =>
        (ec, { resp with msg := msg }, r)
  | res => res

end Response

/-! ## §2 — a response head. -/

/-- A head that is accepted: a status line with two spaces, a version and a code that is known, and header lines;
every line fits in a block. -/
structure ReplyHead where
  version : Bytes
  status : Bytes
  message : Bytes
  headers : List HeaderLine
  version_ok : isVersion version = true
  version_space : 32 ∉ version
  status_space : 32 ∉ status
  known : Status.fromStringView status ≠ .unknown
  crlf : ¬ CRLF <:+: version ++ 32 :: (status ++ 32 :: message)
  fits : version.length + status.length + message.length + 4 ≤ HTTP_BUFFER_BLOCK_SIZE

namespace ReplyHead

def line (h : ReplyHead) : Bytes := h.version ++ 32 :: (h.status ++ 32 :: h.message)

/-- The header lines and the empty line. -/
def tail (h : ReplyHead) : Bytes := h.headers.flatMap HeaderLine.bytes ++ CRLF

def bytes (h : ReplyHead) : Bytes := h.line ++ CRLF ++ h.tail

theorem length_line (h : ReplyHead) :
    h.line.length = h.version.length + h.status.length + h.message.length + 2 := by
  simp [line]; omega

end ReplyHead

/-- The fields of a status line in memory `d`, with a property of both views. -/
structure StatusShows (d : View → Option Bytes) (P : View → Prop) (line : StatusLineView) (h : ReplyHead) : Prop where
  version : d line.version = some h.version ∧ P line.version
  status : line.statusCode = .fromStringView h.status
  message : d line.statusMessage = some h.message ∧ P line.statusMessage

theorem StatusShows.mono {d d' : View → Option Bytes} {P P' : View → Prop} {line : StatusLineView} {h : ReplyHead}
    (hs : StatusShows d P line h) (hv : ∀ v, P v → d' v = d v ∧ P' v) : StatusShows d' P' line h where
  version := ⟨(hv _ hs.version.2).1.trans hs.version.1, (hv _ hs.version.2).2⟩
  status := hs.status
  message := ⟨(hv _ hs.message.2).1.trans hs.message.1, (hv _ hs.message.2).2⟩

namespace Response

variable {resp : Response} {r : Reader}

section Turn

variable {n len : Nat} {resp1 : Response} {msg2 : Request} {r2 : Reader}

theorem lineLoop_done (hparse : parseLine resp = (resp1, len, none)) :
    lineLoop (n + 1) resp r = some (none, { resp1 with msg := resp1.msg.advance len }, r) := by
  rw [lineLoop, hparse]

theorem lineLoop_again (hparse : parseLine resp = (resp1, len, some .resourceUnavailableTryAgain))
    (hfill : (resp1.msg.advance len).fill r = (none, msg2, r2)) :
    lineLoop (n + 1) resp r = lineLoop n { resp1 with msg := msg2 } r2 := by
  rw [lineLoop, hparse]
  simp only [hfill]

end Turn

/-- A window that begins with the status line: it is consumed, and its views lie in what is consumed. -/
theorem parseLine_complete (h : ReplyHead) {w : Bytes} (hwf : resp.msg.WF)
    (hw : resp.msg.windowBytes = h.line ++ CRLF ++ w) :
    ∃ line, parseLine resp = ({ resp with line := line }, h.line.length + 2, none) ∧
      StatusShows resp.deref (resp.msg.advance (h.line.length + 2)).Settled line h := by
  have hlen := h.length_line
  have hshown : ∀ i n, resp.deref (resp.msg.window.sub i n) = some (substr resp.msg.windowBytes i n) :=
    Request.deref_window_sub resp.msg
  refine ⟨⟨resp.msg.window.sub 0 h.version.length, .fromStringView h.status,
    resp.msg.window.sub (h.version.length + h.status.length + 2) h.message.length⟩, ?_, ?_⟩
  · rw [parseLine, StatusLineView.parse_of_line h.version_space h.status_space h.version_ok h.known h.crlf hw]
    rfl
  · constructor
    · refine ⟨?_, Request.settled_window_sub hwf (by omega)⟩
      rw [hshown, hw, substr, List.drop_zero, ReplyHead.line, List.append_assoc, List.append_assoc, List.take_left]
    · rfl
    · refine ⟨?_, Request.settled_window_sub hwf (by omega)⟩
      rw [hshown, hw, substr, ReplyHead.line, show h.version ++ 32 :: (h.status ++ 32 :: h.message) =
        (h.version ++ 32 :: h.status ++ [32]) ++ h.message by simp, List.append_assoc, List.append_assoc,
        List.drop_left' (by simp; omega), List.take_left]

/-- **The status line**, however it is delivered. -/
theorem lineLoop_spec (h : ReplyHead) : ∀ (n : Nat) {resp : Response} {r : Reader} {post : Bytes}, resp.msg.WF → r.Live →
    resp.msg.windowBytes ++ r.data = h.line ++ CRLF ++ post → r.data.length < n →
    ∃ resp' r', lineLoop n resp r = some (none, resp', r') ∧ resp'.msg.WF ∧ r'.Live ∧
      resp'.msg.windowBytes ++ r'.data = post ∧ resp'.msg.rest = resp.msg.rest ∧
      StatusShows resp'.deref resp'.msg.Settled resp'.line h := by
  intro n
  induction n with
  | zero =>
      intro resp r post _ _ _ hn
      exact absurd hn (Nat.not_lt_zero _)
  | succ n ih =>
      intro resp r post hwf hlive hbytes hn
      have hfits := h.fits
      have hline := h.length_line
      by_cases hfull : (h.line ++ CRLF).length ≤ resp.msg.windowBytes.length
      · -- complete
        obtain ⟨w, hw, hpost⟩ := exists_of_append_eq hbytes hfull
        have hadv : h.line.length + 2 ≤ resp.msg.windowBytes.length := by
          simpa [CRLF] using hfull
        obtain ⟨line, hparse, hshows⟩ := parseLine_complete h hwf hw
        refine ⟨_, r, lineLoop_done hparse, Request.wf_advance hwf hadv, hlive, ?_, rfl, hshows⟩
        have hdrop := Request.windowBytes_advance resp.msg hadv
        rw [hw, List.drop_left' (by simp [CRLF])] at hdrop
        show (resp.msg.advance (h.line.length + 2)).windowBytes ++ r.data = post
        rw [hdrop]; exact hpost
      · -- more is to come
        have hlt : resp.msg.windowBytes.length < h.line.length + 2 := by simpa [CRLF] using hfull
        have hpre : resp.msg.windowBytes <+: h.line ++ CRLF := prefix_of_append_eq hbytes (Nat.le_of_not_le hfull)
        have hcrlf : ¬ CRLF <:+: h.line := h.crlf
        have hnone : findText resp.msg.windowBytes CRLF 0 = none :=
          findText_of_not_infix (by simpa using not_infix_of_proper hcrlf hpre hlt)
        have hparse : parseLine resp = (resp, 0, some .resourceUnavailableTryAgain) := by
          rw [parseLine, StatusLineView.parse, hnone]
        have hdata : r.data ≠ [] := by
          intro h0
          have := congrArg List.length hbytes
          rw [h0] at this
          simp [CRLF] at this
          omega
        obtain ⟨msg1, r1, hfill, hwf1, hlive1, hlt1, hbytes1, hk1⟩ := Request.fill_spec hwf hlive (by omega) hdata
        obtain ⟨resp', r', hloop, hwf', hlive', hpost, hrest, hshows⟩ :=
          @ih { resp with msg := msg1 } r1 post hwf1 hlive1 (hbytes1.trans hbytes) (by omega)
        exact ⟨resp', r', (lineLoop_again hparse hfill).trans hloop, hwf', hlive', hpost, hrest.trans hk1.rest, hshows⟩

/-! ## §3 — one call. -/

/-- **One response head**: `read` succeeds, the fields show the head and what stands behind it is left. -/
theorem read_spec (h : ReplyHead) {post : Bytes} (hwf : resp.msg.WF) (hlive : r.Live)
    (hbytes : resp.msg.windowBytes ++ r.data = h.bytes ++ post) :
    ∃ resp' r', read resp r = some (none, resp', r') ∧ resp'.msg.WF ∧ r'.Live ∧
      resp'.msg.windowBytes ++ r'.data = post ∧ StatusShows resp'.deref resp'.msg.Settled resp'.line h ∧
      Shows resp'.deref resp'.msg.Settled resp'.msg.rest.headers (headerMap h.headers) := by
  obtain ⟨hwf0, hwin0⟩ := Request.compact_spec hwf
  set resp0 : Response := { resp with msg := { resp.msg.compact with rest := resp.msg.compact.rest.clear } } with hresp0
  have hwf0' : resp0.msg.WF := ⟨hwf0.nodup, hwf0.fresh, hwf0.block_lt, hwf0.begin_le, hwf0.end_le⟩
  have hbytes0 : resp0.msg.windowBytes ++ r.data = h.line ++ CRLF ++ (h.tail ++ post) := by
    show resp.msg.compact.windowBytes ++ r.data = _
    rw [hwin0, hbytes, ReplyHead.bytes, List.append_assoc]
  obtain ⟨resp1, r1, hloop1, hwf1, hlive1, hbytes1, hrest1, hshows1⟩ :=
    lineLoop_spec h (r.data.length + 1) hwf0' hlive hbytes0 (Nat.lt_succ_self _)
  have hbytes1' : resp1.msg.windowBytes ++ r1.data = h.headers.flatMap HeaderLine.bytes ++ (CRLF ++ post) := by
    rw [hbytes1, ReplyHead.tail, List.append_assoc]
  have hempty : Shows resp1.msg.deref resp1.msg.Settled resp1.msg.rest.headers [] := by
    rw [hrest1]; exact .nil
  obtain ⟨msg2, r2, hloop2, hwf2, hlive2, hbytes2, -, hviews2, hshows2⟩ :=
    Request.restLoop_spec (r1.data.length + 1) hwf1 hlive1 hbytes1' hempty (Nat.lt_succ_self _)
  refine ⟨{ resp1 with msg := msg2 }, r2, ?_, hwf2, hlive2, hbytes2, hshows1.mono hviews2, hshows2⟩
  rw [read]
  simp only [← hresp0, hloop1, hloop2, Option.map_some]

end Response

/-! ## §4 — the heads that are printed. -/

/-- A part whose head a client can read: a version and a code that are known, a message in one line, headers that
are read back, and no line longer than a block. -/
structure ResponsePart.Readable (part : ResponsePart) : Prop where
  version : part.version = .http10 ∨ part.version = .http11 ∨ part.version = .http20
  status : part.statusCode ∈ Status.declared
  message : ¬ CRLF <:+: part.statusMessage
  message_fits : part.statusMessage.length + 15 ≤ HTTP_BUFFER_BLOCK_SIZE
  headers : ∀ e ∈ part.headers.entries, Printable e ∧ e.1.length + e.2.length + 4 ≤ HTTP_BUFFER_BLOCK_SIZE

/-- The printed line of a header, as a header line. -/
def HeaderLine.ofHeader (e : Header) (h : Printable e) (hfits : e.1.length + e.2.length + 4 ≤ HTTP_BUFFER_BLOCK_SIZE) :
    HeaderLine where
  key := e.1
  value := 32 :: e.2
  colon := h.colon
  crlf := h.crlf_line
  fits := by rw [List.length_cons]; omega

/-- **Printed headers are header lines**, and their map has the headers. -/
theorem exists_headerLines : ∀ (es : List Header),
    (∀ e ∈ es, Printable e ∧ e.1.length + e.2.length + 4 ≤ HTTP_BUFFER_BLOCK_SIZE) →
    ∃ hs : List HeaderLine, hs.flatMap HeaderLine.bytes = es.flatMap printed ∧
      ∀ m, hs.foldl HeaderLine.addTo m = es.foldl (fun m e => alter e.1 [] (fun _ => e.2) m) m
  | [], _ => ⟨[], rfl, fun _ => rfl⟩
  | e :: es, hall => by
      obtain ⟨hp, hfits⟩ := hall e (by simp)
      obtain ⟨hs, hbytes, hmap⟩ := exists_headerLines es fun e' he' => hall e' (by simp [he'])
      have htrim : (HeaderLine.ofHeader e hp hfits).trimmed = e.2 := hp.dropWhile_eq.2
      refine ⟨.ofHeader e hp hfits :: hs, ?_, fun m => ?_⟩
      · rw [List.flatMap_cons, List.flatMap_cons, hbytes, printed_eq]
        rfl
      · rw [List.foldl_cons, List.foldl_cons, hmap, HeaderLine.addTo, htrim]
        rfl

theorem exists_headerLines_of_nodup {es : List Header}
    (hall : ∀ e ∈ es, Printable e ∧ e.1.length + e.2.length + 4 ≤ HTTP_BUFFER_BLOCK_SIZE) (hnodup : (es.map Prod.fst).Nodup) :
    ∃ hs : List HeaderLine, hs.flatMap HeaderLine.bytes = es.flatMap printed ∧ headerMap hs = es := by
  obtain ⟨hs, hbytes, hmap⟩ := exists_headerLines es hall
  refine ⟨hs, hbytes, ?_⟩
  rw [headerMap, hmap, foldl_alter_of_nodup es [] (by simpa using hnodup), List.nil_append]

namespace ResponsePart

variable {part : ResponsePart}

theorem Readable.printedHeaders (h : part.Readable) :
    ∀ e ∈ part.printedHeaders, Printable e ∧ e.1.length + e.2.length + 4 ≤ HTTP_BUFFER_BLOCK_SIZE := by
  intro e he
  refine ⟨printable_printedHeaders (fun e he => (h.headers e he).1) e he, ?_⟩
  rcases List.mem_append.mp he with he | he
  · exact (h.headers e he).2
  · split at he
    · cases he
    · obtain rfl := List.mem_singleton.mp he
      decide

/-- A code is known by three digits. -/
theorem length_of_known {status : Bytes} (h : Status.fromStringView status ≠ .unknown) : status.length = 3 := by
  match status, h with
  | [_, _, _], _ => rfl

/-- **A readable part prints a head**, whose fields are those of the part. -/
theorem Readable.exists_head (h : part.Readable) :
    ∃ head : ReplyHead, part.toString = .ok head.bytes ∧ head.version = part.version.toStringView ∧
      .fromStringView head.status = part.statusCode ∧ head.message = part.statusMessage ∧
      headerMap head.headers = part.printedHeaders := by
  obtain ⟨status, hstr, hread, hknown, hspace, hcr⟩ := Status.fromStringView_toStringView h.status
  obtain ⟨hver, hvspace, hvcr⟩ := version_spec h.version
  obtain ⟨hs, hbytes, hmap⟩ := exists_headerLines_of_nodup h.printedHeaders part.nodup_printedHeaders
  have hknown' : Status.fromStringView status ≠ .unknown := by rw [hread]; exact hknown
  have hvlen : part.version.toStringView.length = 8 := by
    rcases h.version with hv | hv | hv <;> rw [hv] <;> decide
  refine ⟨⟨part.version.toStringView, status, part.statusMessage, hs, hver, hvspace, hspace, hknown',
    not_crlf_fields (not_crlf_of_not_mem hvcr) (not_crlf_of_not_mem hcr) h.message, ?_⟩, ?_, rfl, hread, rfl, hmap⟩
  · have := h.message_fits
    rw [hvlen, length_of_known hknown']
    omega
  · rw [toString_eq part hstr, ← hbytes]
    rfl

end ResponsePart

/-- What the fields of a response show, when it was read from the head of this part. -/
structure ReadsBack (resp : Response) (part : ResponsePart) : Prop where
  version : resp.deref resp.line.version = some part.version.toStringView
  status : resp.line.statusCode = part.statusCode
  message : resp.deref resp.line.statusMessage = some part.statusMessage
  headers : resp.msg.rest.headers.map (fun e => (resp.deref e.1, resp.deref e.2)) =
    part.printedHeaders.map fun e => (some e.1, some e.2)

namespace ResponsePart

variable {part : ResponsePart}

/-- `read` on a stream that begins with the head of a part gives the fields of the part, and leaves what stands behind
the head. -/
theorem Readable.read (h : part.Readable) {head : Bytes} (hhead : part.toString = .ok head) {resp : Response} {r : Reader}
    {post : Bytes} (hwf : resp.msg.WF) (hlive : r.Live) (hbytes : resp.msg.windowBytes ++ r.data = head ++ post) :
    ∃ resp' r', resp.read r = some (none, resp', r') ∧ resp'.msg.WF ∧ r'.Live ∧
      resp'.msg.windowBytes ++ r'.data = post ∧ ReadsBack resp' part := by
  obtain ⟨h', hstr, hversion, hstatus, hmessage, hmap⟩ := h.exists_head
  obtain rfl := Except.ok.inj (hhead.symm.trans hstr)
  obtain ⟨resp', r', hread, hwf', hlive', hpost, hline, hshows⟩ := Response.read_spec h' hwf hlive hbytes
  refine ⟨resp', r', hread, hwf', hlive', hpost, ?_, ?_, ?_, ?_⟩
  · rw [hline.version.1, hversion]
  · rw [hline.status, hstatus]
  · rw [hline.message.1, hmessage]
  · rw [← hmap]
    exact hshows.map_deref

/-- **What a server prints a client reads**, however it is delivered and whatever the object read before. -/
theorem Readable.round_trip (h : part.Readable) :
    ∃ head, part.toString = .ok head ∧
      ∀ (resp : Response) (r : Reader) (post : Bytes), resp.msg.WF → r.Live →
        resp.msg.windowBytes ++ r.data = head ++ post →
        ∃ resp' r', resp.read r = some (none, resp', r') ∧ resp'.msg.WF ∧ r'.Live ∧
          resp'.msg.windowBytes ++ r'.data = post ∧ ReadsBack resp' part := by
  obtain ⟨head, hhead⟩ := part.exists_toString
  exact ⟨head, hhead, fun _ _ _ hwf hlive hbytes => h.read hhead hwf hlive hbytes⟩

theorem readable_missing : missing.Readable where
  version := .inr (.inl rfl)
  status := by decide
  message := by decide
  message_fits := by decide
  headers := by decide

/-- The head of a `404` and a body, byte by byte. -/
theorem read_missing : ∃ head resp' r', missing.toString = .ok head ∧
    (Response.init libstdcpp).read ⟨head ++ text "gone", fun _ _ => .ok 1, 0⟩ = some (none, resp', r') ∧
      resp'.msg.windowBytes ++ r'.data = text "gone" ∧ ReadsBack resp' missing := by
  obtain ⟨head, hhead, hback⟩ := Readable.round_trip readable_missing
  obtain ⟨resp', r', hread, -, -, hpost, hfields⟩ :=
    hback (.init libstdcpp) ⟨head ++ text "gone", fun _ _ => .ok 1, 0⟩ (text "gone") (Request.wf_init _)
      (fun _ size h => ⟨1, rfl, Nat.le_refl 1, h⟩) rfl
  exact ⟨head, resp', r', hhead, hread, hpost, hfields⟩

end ResponsePart

end NetCpp.Http
