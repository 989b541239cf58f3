/-
# NetCpp.Http.StatusLine — `StatusLineView::parse`, and response heads read back.

`include/xsl/asio/http/response.h` is the client's side of `NetCpp.Http.Response`: what `to_string` printed is
found again by searches for `CRLF`, spaces and colons that know nothing of the printer.  They agree because no
piece contains the separator that ends it: the status message may have spaces, a header value may have colons.
-/
import NetCpp.Http.Head
import NetCpp.Http.Response

namespace NetCpp.Http

open NetCpp.Lib

/-! ## §1 — the parser. -/

structure StatusLineView where
  version : View
  statusCode : Status
  statusMessage : View

namespace StatusLineView

def init : StatusLineView := ⟨.text [], .unknown, .text []⟩

/-- `parse` on a view that shows `bytes`: the bytes consumed and the error code. -/
def parse (view : View) (bytes : Bytes) (self : StatusLineView) : StatusLineView × Nat × Option Errc :=
  match findText bytes CRLF 0 with
  | none => (self, 0, some .resourceUnavailableTryAgain)
  | some stop =>
      let line := substr bytes 0 stop
      match findByte line 32 0 with
      | none => (self, 0, some .illegalByteSequence)
      | some sp1 =>
          match findByte line 32 (sp1 + 1) with
          | none => (self, 0, some .illegalByteSequence)
          | some sp2 =>
              if !isVersion (substr line 0 sp1) then (self, 0, some .illegalByteSequence)
              else
                let self := { self with
                  version := view.sub 0 sp1
                  statusCode := .fromStringView (substr line (sp1 + 1) (sp2 - sp1 - 1)) }
                if self.statusCode = .unknown then (self, 0, some .illegalByteSequence)
                else ({ self with statusMessage := view.sub (sp2 + 1) (stop - (sp2 + 1)) }, stop + 2, none)

/-- **A complete status line** of a version, a code and any message is consumed with its `CRLF`. -/
theorem parse_of_line {view : View} {bytes version status message post : Bytes} {self : StatusLineView}
    (hversion : 32 ∉ version) (hstatus : 32 ∉ status) (hver : isVersion version = true)
    (hknown : Status.fromStringView status ≠ .unknown)
    (hcrlf : ¬ CRLF <:+: version ++ 32 :: (status ++ 32 :: message))
    (hb : bytes = version ++ 32 :: (status ++ 32 :: message) ++ CRLF ++ post) :
    self.parse view bytes =
      (⟨view.sub 0 version.length, .fromStringView status,
          view.sub (version.length + status.length + 2) message.length⟩,
        (version ++ 32 :: (status ++ 32 :: message)).length + 2, none) := by
  have hf := threeFields hversion hstatus hcrlf hb
  have hlen : (version ++ 32 :: (status ++ 32 :: message)).length =
      version.length + status.length + message.length + 2 := by simp; omega
  have hn1 : version.length + 1 + status.length - version.length - 1 = status.length := by omega
  have hn2 : version.length + 1 + status.length + 1 = version.length + status.length + 2 := by omega
  have hn3 : (version ++ 32 :: (status ++ 32 :: message)).length - (version.length + status.length + 2) =
      message.length := by omega
  rw [parse, hf.stop]
  simp only [hf.line, hf.space1, hf.space2, hn1, hf.first, hf.second, hver, Bool.not_true, if_neg hknown, hn2, hn3]
  rfl

end StatusLineView

/-! ## §2 — what a part prints. -/

namespace ResponsePart

/-- The headers that are printed: those of the part, and `Server` when it is not among them. -/
def printedHeaders (part : ResponsePart) : List Header :=
  part.headers.entries ++ if part.headers.contains (text "Server") then [] else [(text "Server", API_VERSION)]

/-- The status line with this text of the code. -/
def statusLine (part : ResponsePart) (status : Bytes) : Bytes :=
  part.version.toStringView ++ 32 :: (status ++ 32 :: part.statusMessage)

/-- **The head is a status line, header lines and an empty line.** -/
theorem toString_eq (part : ResponsePart) {status : Bytes} (h : part.statusCode.toStringView = .ok status) :
    part.toString = .ok (part.statusLine status ++ CRLF ++ (part.printedHeaders.flatMap printed ++ CRLF)) := by
  have hspace : text " " = [32] := by decide
  have hserver : text "Server: " = text "Server" ++ text ": " := by decide
  have hentries : ∀ es : List Header,
      (es.flatMap fun e => [e.1, text ": ", e.2, CRLF]).flatten = es.flatMap printed := by
    intro es
    induction es with
    | nil => rfl
    | cons e es ih => simp [printed, ih]
  rw [toString, pieces, h]
  show Except.ok _ = Except.ok _
  congr 1
  by_cases hc : part.headers.contains (text "Server") = true
  · simp [hc, hspace, hentries, printedHeaders, statusLine]
  · simp [hc, hspace, hentries, printedHeaders, statusLine, hserver, printed]

theorem nodup_printedHeaders (part : ResponsePart) : (part.printedHeaders.map Prod.fst).Nodup := by
  have hn : (part.headers.entries.map Prod.fst).Nodup := part.headers.nodup
  rw [printedHeaders]
  split
  · rw [List.append_nil]; exact hn
  · rename_i hc
    rw [List.map_append, List.nodup_append]
    refine ⟨hn, by simp, ?_⟩
    rintro a ha b hb rfl
    have hb' : a = text "Server" := by simpa using hb
    exact SmallHeaderMap.not_mem_of_not_contains hc (hb' ▸ ha)

theorem printable_printedHeaders {part : ResponsePart} (h : ∀ e ∈ part.headers.entries, Printable e) :
    ∀ e ∈ part.printedHeaders, Printable e := by
  intro e he
  rcases List.mem_append.mp he with he | he
  · exact h e he
  · split at he
    · cases he
    · obtain rfl := List.mem_singleton.mp he
      decide +kernel

/-! ## §3 — the round trip. -/

/-- The reason phrases are lines. -/
theorem not_crlf_toReasonPhrase {s : Status} {str : Bytes} (h : s.toReasonPhrase = .ok str) : ¬ CRLF <:+: str := by
  have hall : ∀ str ∈ HTTP_REASON_PHRASES, 13 ∉ str := by decide +kernel
  apply not_crlf_of_not_mem
  apply hall
  rw [Status.toReasonPhrase, Status.entry] at h
  split at h
  · rename_i heq
    obtain rfl := Except.ok.inj h
    exact List.mem_of_getElem? heq
  · cases h

/-- **Response heads round-trip.**  What `to_string` prints of a part is read back by the two parsers: the status
line is consumed exactly and gives the version, the code and the message; the rest is consumed exactly and gives
the headers of the part, with `Server` when it was absent. -/
theorem toString_roundtrip (part : ResponsePart) (heap : Nat → Block) (rs : RawString)
    (hversion : part.version = .http10 ∨ part.version = .http11 ∨ part.version = .http20)
    (hstatus : part.statusCode ∈ Status.declared)
    (hmessage : part.statusCode.toReasonPhrase = .ok part.statusMessage ∨ ¬ CRLF <:+: part.statusMessage)
    (hheaders : ∀ e ∈ part.headers.entries, Printable e) :
    ∃ head status rest, part.toString = .ok head ∧ part.statusCode.toStringView = .ok status ∧
      head = part.statusLine status ++ CRLF ++ rest ∧
      StatusLineView.parse (.text head) head .init =
        (⟨.text part.version.toStringView, part.statusCode, .text part.statusMessage⟩,
          (part.statusLine status ++ CRLF).length, none) ∧
      ∃ headers, MessageRestView.parse (View.deref heap rs) (.text rest) rest .init =
          (⟨headers, .text []⟩, rest.length, none) ∧
        headers.map (fun e => (View.deref heap rs e.1, View.deref heap rs e.2)) =
          (part.headers.entries ++
              if part.headers.contains (text "Server") then [] else [(text "Server", API_VERSION)]).map
            fun e => (some e.1, some e.2) := by
  obtain ⟨status, hstr, hread, hknown, hspace, hcr⟩ := Status.fromStringView_toStringView hstatus
  obtain ⟨hver, hvspace, hvcr⟩ := version_spec hversion
  have hmsg : ¬ CRLF <:+: part.statusMessage := by
    rcases hmessage with h | h
    · exact not_crlf_toReasonPhrase h
    · exact h
  have hcrlf := not_crlf_fields (not_crlf_of_not_mem hvcr) (not_crlf_of_not_mem hcr) hmsg
  refine ⟨_, status, part.printedHeaders.flatMap printed ++ CRLF, part.toString_eq hstr, hstr, rfl, ?_, ?_⟩
  · have hb : part.statusLine status ++ CRLF ++ (part.printedHeaders.flatMap printed ++ CRLF) =
        part.version.toStringView ++ 32 :: (status ++ 32 :: part.statusMessage) ++ CRLF ++
          (part.printedHeaders.flatMap printed ++ CRLF) := rfl
    rw [StatusLineView.parse_of_line hvspace hspace hver (by rw [hread]; exact hknown) hcrlf hb, hread]
    have hv : (View.text (part.statusLine status ++ CRLF ++ (part.printedHeaders.flatMap printed ++ CRLF))).sub 0
        part.version.toStringView.length = .text part.version.toStringView := by
      rw [View.sub, substr, List.drop_zero, statusLine, List.append_assoc, List.append_assoc, List.take_left]
    have hm : (View.text (part.statusLine status ++ CRLF ++ (part.printedHeaders.flatMap printed ++ CRLF))).sub
        (part.version.toStringView.length + status.length + 2) part.statusMessage.length =
        .text part.statusMessage := by
      rw [View.sub, substr, statusLine, show part.version.toStringView ++ 32 :: (status ++ 32 :: part.statusMessage) =
        (part.version.toStringView ++ 32 :: status ++ [32]) ++ part.statusMessage by simp, List.append_assoc,
        List.append_assoc, List.drop_left' (by simp; omega), List.take_left]
    have hlen : (part.statusLine status ++ CRLF).length = (part.statusLine status).length + 2 := List.length_append
    rw [hv, hm, hlen]
    rfl
  · exact MessageRestView.parse_printed heap rs (printable_printedHeaders hheaders) part.nodup_printedHeaders

/-- A `404` with one header. -/
def missing : ResponsePart where
  statusCode := .notFound
  statusMessage := text "Not Found"
  version := .http11
  headers := SmallHeaderMap.empty.emplace (text "Content-Length") (text "0")

theorem toString_roundtrip_missing :
    ∃ head status rest, missing.toString = .ok head ∧ missing.statusCode.toStringView = .ok status ∧
      head = missing.statusLine status ++ CRLF ++ rest ∧
      StatusLineView.parse (.text head) head .init =
        (⟨.text missing.version.toStringView, missing.statusCode, .text missing.statusMessage⟩,
          (missing.statusLine status ++ CRLF).length, none) ∧
      ∃ headers, MessageRestView.parse (View.deref (fun _ _ => 0) ⟨[], 0, 0⟩) (.text rest) rest .init =
          (⟨headers, .text []⟩, rest.length, none) ∧
        headers.map (fun e => (View.deref (fun _ _ => 0) ⟨[], 0, 0⟩ e.1, View.deref (fun _ _ => 0) ⟨[], 0, 0⟩ e.2)) =
          (missing.headers.entries ++
              if missing.headers.contains (text "Server") then [] else [(text "Server", API_VERSION)]).map
            fun e => (some e.1, some e.2) :=
  toString_roundtrip missing _ _ (.inr (.inl rfl)) (by decide) (.inl (by decide)) (by decide)

end ResponsePart

end NetCpp.Http
