/-
# NetCpp.Http.Session — the loop of `imm_serve_connection` on the bytes of a connection.

`include/xsl/asio/http/conn.h` with `common.h`.  `NetCpp.Http.Connection` has the loop on requests that are given to
it; here `read` is called on ONE `Request` object and one stream, cut up by the network in any way, and the service
is whatever it answers to what the fields of the object show.

The stream is a row of complete heads and maybe a part of one more: the peer may leave in the middle of a request.
`serve_stream` says that the loop does to the bytes what it should do to the requests.  A part of a head is never
served, and nothing behind a request with `Connection: close` is.
-/
import NetCpp.Http.Read
import NetCpp.Http.Serve

namespace NetCpp.Http

open NetCpp.Lib

/-! ## §1 — the loop. -/

/-- What the fields of a request show. -/
structure RequestFields where
  method : Method
  path : Bytes
  query : Bytes
  version : Bytes
  headers : List Header
deriving DecidableEq

/-- `req.get_header("Connection") == "close"`. -/
def RequestFields.isClose (req : RequestFields) : Bool := req.headers.lookup (text "Connection") == some (text "close")

namespace Request

/-- The header map, its views dereferenced; `none` when one of them dangles. -/
def fieldHeaders (req : Request) : Option (List Header) :=
  req.rest.headers.mapM fun e => do return (← req.deref e.1, ← req.deref e.2)

/-- The fields that a service reads. -/
def fields (req : Request) : Option RequestFields := do
  let path ← req.deref req.line.path
  let query ← req.deref req.line.query
  let version ← req.deref req.line.version
  let headers ← req.fieldHeaders
  return ⟨req.line.method, path, query, version, headers⟩

end Request

/-- Why the loop is left. -/
inductive StreamEnd
  | notConnected
  | failed (ec : Errc)
  /-- the request had `Connection: close` -/
  | closed
  /-- a failed assertion in the service: the program ends -/
  | fault (f : Fault)
  /-- a field of the request is read whose view dangles -/
  | dangling
deriving DecidableEq

section Loop

variable (service : RequestFields → Except Fault ResponseBuilder)

/-- One pass, from the request to the end of the send. -/
def passFor (awd : Device) (req : RequestFields) : Except Fault Pass := do
  let resp ← service req
  let resp := if req.isClose then resp.setHeader (text "Connection") (text "close") else resp
  let res ← resp.sendto awd
  return ⟨resp, res.1, res.2, !req.isClose⟩

/-- `imm_serve_connection`: the passes, and why it ends.  `awd k` is what the device does with the `k`-th response. -/
def serveStream (A : Alloc) : Nat → (Nat → Device) → Request → Reader → Option (List Pass × StreamEnd)
  | 0, _, _, _ => none
  | n + 1, awd, req, r =>
      match req.read A r with
      | none => none
      | some (some .notConnected, _, _) => some ([], .notConnected)
      | some (some ec, _, _) => some ([], .failed ec)
      | some (none, req, r) =>
          match req.fields with
          | none => some ([], .dangling)
          | some fields =>
              match passFor service (awd 0) fields with
              | .error f => some ([], .fault f)
              | .ok pass =>
                  if pass.goesOn then
                    (serveStream A n (fun k => awd (k + 1)) req r).map fun res => (pass :: res.1, res.2)
                  else some ([pass], .closed)

/-- What the loop is for: every request is answered once, in order, up to the first that closes the connection. -/
def serveAll : (Nat → Device) → List RequestFields → List Pass × StreamEnd
  | _, [] => ([], .notConnected)
  | awd, req :: reqs =>
      match passFor service (awd 0) req with
      | .error f => ([], .fault f)
      | .ok pass =>
          if pass.goesOn then
            let res := serveAll (fun k => awd (k + 1)) reqs
            (pass :: res.1, res.2)
          else ([pass], .closed)

end Loop

namespace Request

variable {A : Alloc} {req : Request} {r : Reader}

/-! ## §2 — a head that is cut off. -/

theorem fetch_empty (hlive : r.Live) (hroom : req.winEnd < HTTP_BUFFER_BLOCK_SIZE) (hdata : r.data = []) :
    ∃ r', req.fetch r = (some .notConnected, req, r') := by
  obtain ⟨n, hn, -, -⟩ := hlive r.calls (HTTP_BUFFER_BLOCK_SIZE - req.winEnd) (by omega)
  refine ⟨{ r with data := [], calls := r.calls + 1 }, ?_⟩
  rw [fetch, Reader.read, hn]
  simp [hdata]

/-- At the end of the stream `fill` reports that the peer is gone. -/
theorem fill_empty (hwf : req.WF) (hlive : r.Live) (hlt : req.windowBytes.length < HTTP_BUFFER_BLOCK_SIZE)
    (hdata : r.data = []) : ∃ req' r', req.fill r = (some .notConnected, req', r') := by
  unfold fill
  by_cases hfull : req.winEnd = HTTP_BUFFER_BLOCK_SIZE
  · obtain ⟨req1, hrot, -, -, hend1, -⟩ := rotate_spec hwf hlt
    obtain ⟨r', hf⟩ : ∃ r', req1.fetch r = (some .notConnected, req1, r') := fetch_empty hlive (by omega) hdata
    exact ⟨req1, r', by rw [if_pos hfull, hrot]; exact hf⟩
  · obtain ⟨r', hf⟩ : ∃ r', req.fetch r = (some .notConnected, req, r') :=
      fetch_empty hlive (Nat.lt_of_le_of_ne hwf.end_le hfull) hdata
    exact ⟨req, r', by rw [if_neg hfull]; exact hf⟩

/-- A turn that asks for more, where nothing comes. -/
theorem headLoop_gone {parse : Request → Request × Nat × Option Errc} {n len : Nat} {req1 req2 : Request} {r2 : Reader}
    (hparse : parse req = (req1, len, some .resourceUnavailableTryAgain))
    (hfill : fill (req1.advance len) r = (some .notConnected, req2, r2)) :
    headLoop parse (n + 1) req r = some (some .notConnected, req2, r2) := by
  rw [headLoop, hparse]
  simp only [hfill]

/-- **A request line that is cut off** is waited for until the stream ends. -/
theorem lineLoop_cut (h : Head) {missing post : Bytes} : ∀ (n : Nat) {req : Request} {r : Reader}, req.WF → r.Live →
    req.windowBytes ++ r.data ++ missing = h.line ++ CRLF ++ post →
    (req.windowBytes ++ r.data).length < (h.line ++ CRLF).length → r.data.length < n →
    ∃ req' r', headLoop (parseLine A) n req r = some (some .notConnected, req', r') := by
  intro n
  induction n with
  | zero =>
      intro req r _ _ _ _ hn
      exact absurd hn (Nat.not_lt_zero _)
  | succ n ih =>
      intro req r hwf hlive hbytes hcut hn
      have hfits := h.fits
      have hline := h.length_line
      have hlt : req.windowBytes.length < h.line.length + 2 := by
        simp only [List.length_append, CRLF, List.length_cons, List.length_nil] at hcut
        omega
      rw [List.append_assoc] at hbytes
      have hpre : req.windowBytes <+: h.line ++ CRLF := prefix_of_append_eq hbytes (by simp [CRLF]; omega)
      have hcrlf : ¬ CRLF <:+: h.line := h.crlf
      have hgo : parseLine A req = (req, 0, some .resourceUnavailableTryAgain) := by
        rw [parseLine, RequestLine.parse_incomplete (not_infix_of_proper hcrlf hpre hlt)]
      by_cases hdata : r.data = []
      · obtain ⟨req', r', hfill⟩ := fill_empty hwf hlive (by omega) hdata
        exact ⟨req', r', headLoop_gone hgo hfill⟩
      · obtain ⟨req1, r1, hfill, hwf1, hlive1, hlt1, hbytes1, -⟩ := fill_spec hwf hlive (by omega) hdata
        rw [← hbytes1] at hcut
        obtain ⟨req', r', hloop⟩ := ih hwf1 hlive1 (by rw [hbytes1, List.append_assoc]; exact hbytes) hcut (by omega)
        exact ⟨req', r', (headLoop_again hgo hfill).trans hloop⟩

/-- **Header lines that are cut off**, or the empty line behind them. -/
theorem restLoop_cut {missing post : Bytes} : ∀ (n : Nat) {hs : List HeaderLine} {req : Request} {r : Reader}
    {m : List (Bytes × Bytes)}, req.WF → r.Live →
    req.windowBytes ++ r.data ++ missing = hs.flatMap HeaderLine.bytes ++ (CRLF ++ post) →
    (req.windowBytes ++ r.data).length < (hs.flatMap HeaderLine.bytes ++ CRLF).length →
    Shows req.deref req.Settled req.rest.headers m → r.data.length < n →
    ∃ req' r', headLoop parseRest n req r = some (some .notConnected, req', r') := by
  intro n
  induction n with
  | zero =>
      intro hs req r m _ _ _ _ _ hn
      exact absurd hn (Nat.not_lt_zero _)
  | succ n ih =>
      intro hs req r m hwf hlive hbytes hcut hshows hn
      have hlen := length_windowBytes req
      rw [List.append_assoc] at hbytes
      obtain ⟨done, todo, headers, hsplit, hsh, hres⟩ :=
        MessageRestView.parseGo_spec (d := req.deref) (P := fun b v => (req.advance b).Settled v)
          (fun i k _ => deref_window_sub req i k) (fun i k b hik _ => settled_window_sub hwf hik)
          (fun v b b' hb hv => by
            have := settled_advance hv (b' - b)
            rwa [Request.advance, Request.advance, Nat.add_assoc, Nat.add_sub_cancel' hb] at this)
          hs (req.windowBytes.length + 1) [] req.windowBytes req.rest m rfl (Nat.lt_succ_self _) hbytes hshows
      simp only [List.length_nil, Nat.zero_add] at hsh hres
      rcases hres with ⟨rfl, w, part, hw, -⟩ | ⟨w, hw, hlt, -, hgo⟩
      · -- the empty line would be there
        rw [List.append_nil] at hsplit
        rw [hsplit, hw] at hcut
        simp only [List.length_append] at hcut
        omega
      · have hadv : (done.flatMap HeaderLine.bytes).length ≤ req.windowBytes.length := by rw [hw]; simp
        have hparse : parseRest req =
            ({ req with rest := ⟨headers, req.rest.contentPart⟩ }, (done.flatMap HeaderLine.bytes).length,
              some .resourceUnavailableTryAgain) := by
          rw [parseRest, MessageRestView.parse, hgo]
        set req1 : Request :=
          advance (done.flatMap HeaderLine.bytes).length { req with rest := ⟨headers, req.rest.contentPart⟩ } with hreq1
        have hwf0 := wf_advance hwf hadv
        have hwf1 : req1.WF := ⟨hwf0.nodup, hwf0.fresh, hwf0.block_lt, hwf0.begin_le, hwf0.end_le⟩
        have hwin1 : req1.windowBytes = w := by
          show (req.advance _).windowBytes = w
          rw [windowBytes_advance req hadv, hw, List.drop_left]
        by_cases hdata : r.data = []
        · obtain ⟨req', r', hfill⟩ := fill_empty hwf1 hlive (by rw [hwin1]; exact hlt) hdata
          exact ⟨req', r', headLoop_gone hparse hfill⟩
        · obtain ⟨req2, r2, hfill, hwf2, hlive2, hlt2, hbytes2, hk2⟩ :=
            fill_spec hwf1 hlive (by rw [hwin1]; exact hlt) hdata
          rw [hsplit, List.flatMap_append] at hcut hbytes
          rw [hw] at hcut hbytes
          have hshows2 : Shows req2.deref req2.Settled req2.rest.headers (done.foldl HeaderLine.addTo m) := by
            rw [hk2.rest]
            exact Shows.mono hsh fun v hv => hk2.views v hv
          obtain ⟨req', r', hloop⟩ := @ih todo req2 r2 _ hwf2 hlive2
            (by
              rw [hbytes2, hwin1, List.append_assoc]
              simpa [List.append_assoc] using hbytes)
            (by
              rw [hbytes2, hwin1]
              simp only [List.length_append] at hcut ⊢
              omega)
            hshows2 (by omega)
          exact ⟨req', r', (headLoop_again hparse hfill).trans hloop⟩

/-- **A head that is cut off is not a request**: `read` reports that the peer is gone. -/
theorem read_cut (h : Head) {missing : Bytes} (hwf : req.WF) (hlive : r.Live)
    (hbytes : req.windowBytes ++ r.data ++ missing = h.bytes) (hmissing : missing ≠ [])
    (hkeep : KeepsPath A req.line.raw h.target) : ∃ req' r', read A req r = some (some .notConnected, req', r') := by
  have hlack : 0 < missing.length := List.length_pos_of_ne_nil hmissing
  obtain ⟨hwf0, hwin0⟩ := compact_spec hwf
  set req0 : Request := { req.compact with rest := req.compact.rest.clear } with hreq0
  have hwf0' : req0.WF := ⟨hwf0.nodup, hwf0.fresh, hwf0.block_lt, hwf0.begin_le, hwf0.end_le⟩
  have hwin0' : req0.windowBytes = req.windowBytes := hwin0
  have hbytes0 : req0.windowBytes ++ r.data ++ missing = h.line ++ CRLF ++ h.tail := by
    rw [hwin0', hbytes, Head.bytes]
  by_cases hcut : (req0.windowBytes ++ r.data).length < (h.line ++ CRLF).length
  · obtain ⟨req', r', hloop⟩ := lineLoop_cut (A := A) h (r.data.length + 1) hwf0' hlive hbytes0 hcut (Nat.lt_succ_self _)
    refine ⟨req', r', ?_⟩
    rw [read]
    simp only [← hreq0, hloop]
  · obtain ⟨post, hpost, htail⟩ := exists_of_append_eq hbytes0 (Nat.le_of_not_lt hcut)
    obtain ⟨req1, r1, hloop1, hwf1, hlive1, hbytes1, hrest1, -⟩ :=
      lineLoop_spec h (r.data.length + 1) hwf0' hlive hpost hkeep (Nat.lt_succ_self _)
    have hempty : Shows req1.deref req1.Settled req1.rest.headers [] := by
      rw [hrest1]; exact .nil
    rw [Head.tail] at htail
    obtain ⟨req2, r2, hloop2⟩ := @restLoop_cut missing [] (r1.data.length + 1) h.headers req1 r1 [] hwf1 hlive1
      (by rw [hbytes1, htail, List.append_nil])
      (by
        rw [hbytes1, ← htail, List.length_append]
        omega)
      hempty (Nat.lt_succ_self _)
    refine ⟨req2, r2, ?_⟩
    rw [read]
    simp only [← hreq0, hloop1]
    exact hloop2

end Request

/-! ## §3 — the loop on a stream. -/

/-- What a head says. -/
def OriginHead.fields (h : OriginHead) : RequestFields where
  method := .fromStringView h.token
  path := pathOf h.segs
  query := h.query.getD []
  version := h.version
  headers := headerMap h.headers

/-- Pairs that all show something are collected. -/
theorem mapM_deref {d : View → Option Bytes} {views : List (View × View)} {m : List (Bytes × Bytes)}
    (h : views.map (fun e => (d e.1, d e.2)) = m.map fun e => (some e.1, some e.2)) :
    views.mapM (fun e => do return (← d e.1, ← d e.2)) = some m := by
  induction views generalizing m with
  | nil =>
      obtain rfl : m = [] := List.map_eq_nil_iff.mp h.symm
      rfl
  | cons e views ih =>
      cases m with
      | nil => cases h
      | cons f m =>
          rw [List.map_cons, List.map_cons, List.cons.injEq, Prod.mk.injEq] at h
          obtain ⟨⟨h1, h2⟩, htail⟩ := h
          rw [List.mapM_cons, h1, h2, ih htail]
          rfl

theorem Decoded.fields {req : Request} {h : OriginHead} (hdec : Decoded req h) : req.fields = some h.fields := by
  have hheaders : req.fieldHeaders = some (headerMap h.headers) := mapM_deref hdec.headers
  rw [Request.fields, hdec.path, hdec.query, hdec.version, hheaders, hdec.method]
  rfl

/-- A head of which something is missing; nothing may be there of it. -/
def CutOff (part : Bytes) : Prop := ∃ (h : OriginHead) (missing : Bytes), part ++ missing = h.toHead.bytes ∧ missing ≠ []

section Loop

variable {service : RequestFields → Except Fault ResponseBuilder} {A : Alloc} {part : Bytes}

/-- **The rest of a connection**, from any state between two reads. -/
theorem serveStream_spec (hpart : CutOff part) : ∀ (heads : List OriginHead) (n : Nat) (awd : Nat → Device) {req : Request}
    {r : Reader}, heads.length < n → req.WF → r.Live →
    req.windowBytes ++ r.data = heads.flatMap (fun h => h.toHead.bytes) ++ part →
    serveStream service A n awd req r = some (serveAll service awd (heads.map OriginHead.fields))
  | [], n, awd, req, r, hn, hwf, hlive, hbytes => by
      obtain ⟨n, rfl⟩ : ∃ j, n = j + 1 := ⟨n - 1, by simp at hn; omega⟩
      obtain ⟨h, missing, hhead, hmissing⟩ := hpart
      obtain ⟨req', r', hread⟩ := Request.read_cut (A := A) h.toHead hwf hlive
        (by rw [hbytes, List.flatMap_nil, List.nil_append]; exact hhead) hmissing (h.keepsPath A _)
      rw [serveStream, hread]
      rfl
  | h :: heads, n, awd, req, r, hn, hwf, hlive, hbytes => by
      obtain ⟨n, rfl⟩ : ∃ j, n = j + 1 := ⟨n - 1, by simp at hn; omega⟩
      rw [List.flatMap_cons, List.append_assoc] at hbytes
      obtain ⟨req', r', hread, hwf', hlive', hpost, hline, hhead⟩ :=
        Request.read_spec h.toHead hwf hlive hbytes (h.keepsPath A _)
      have hassign := hline.assigns
      rw [OriginHead.parts_toHead] at hassign
      have hdec : Decoded req' h :=
        ⟨hline.method, hassign.path.1, hassign.query.1, hline.version.1, hhead.map_deref⟩
      have hih := serveStream_spec hpart heads n (fun k => awd (k + 1)) (by simpa using hn) hwf' hlive' hpost
      rw [List.map_cons, serveStream, hread, serveAll]
      simp only [hdec.fields, hih, Option.map_some]
      cases passFor service (awd 0) h.fields with
      | error f => rfl
      | ok pass =>
          dsimp only
          split <;> rfl

/-- **The loop answers the requests of a stream**, each once and in order, up to the first that closes the connection;
the part of a head at the end is not answered.  For every service, every behaviour of the device, every sequence of
heads and every delivery of their bytes. -/
theorem serve_stream (service : RequestFields → Except Fault ResponseBuilder) (A : Alloc) (awd : Nat → Device)
    (heads : List OriginHead) (part : Bytes) (hpart : CutOff part) (r : Reader) (hlive : r.Live)
    (hdata : r.data = heads.flatMap (fun h => h.toHead.bytes) ++ part) :
    serveStream service A (heads.length + 1) awd (.init A) r = some (serveAll service awd (heads.map OriginHead.fields)) :=
  serveStream_spec hpart heads _ awd (Nat.lt_succ_self _) (Request.wf_init A) hlive hdata

end Loop

/-- A service that says `OK` to everything. -/
def agrees : RequestFields → Except Fault ResponseBuilder := fun _ => .ok { part := ⟨.ok, text "OK", .http11, .empty⟩ }

/-- Two requests and the beginning of a third, byte by byte. -/
theorem serve_stream_drip :
    serveStream agrees libstdcpp 3 (fun _ => .perfect) (.init libstdcpp)
        ⟨[Request.plainHead, Request.plainHead].flatMap (fun h => h.toHead.bytes) ++ text "GET /a", fun _ _ => .ok 1, 0⟩ =
      some (serveAll agrees (fun _ => .perfect) [Request.plainHead.fields, Request.plainHead.fields]) :=
  serve_stream agrees libstdcpp (fun _ => .perfect) [Request.plainHead, Request.plainHead] (text "GET /a")
    ⟨Request.plainHead, text " HTTP/1.1" ++ CRLF ++ Request.plainHead.toHead.tail, by decide, by decide⟩ _
    (fun _ size h => ⟨1, rfl, Nat.le_refl 1, h⟩) rfl

end NetCpp.Http
