/-
# NetCpp.Http.Client — `HttpClient::get`: whom it contacts and what it asks.

`src/asio/http.cpp`, with `getaddrinfo` of `include/xsl/sys/net/gai.h`.  Host and port of the URL are views into it
and are handed on by `data()` alone, as C STRINGS: what `getaddrinfo` reads goes on behind the part to the next NUL,
which is the rest of the URL and whatever lies behind it in memory.  `behind` is that memory.

The request goes through `append`, which does not return for a host that ends behind the second block
(`Appends.run_call`).  The branch for `https` is commented out, so its URLs pass the checks and run into
`std::unreachable()`.
-/
import NetCpp.Http.Appends
import NetCpp.Http.Read
import NetCpp.Http.Response
import NetCpp.Net.Uri

namespace NetCpp.Http

open NetCpp.Lib NetCpp.Net
open RequestPartBuilder (runCalls Short)

/-! ## §1 — `get`. -/

/-- What `get` asks of the system, in order. -/
inductive Outside
  | getaddrinfo (name serv : Bytes)
  | connect
  | write (data : Bytes)
  | read
deriving DecidableEq, Repr

/-- The bytes that go to the server. -/
def Outside.data : Outside → Bytes
  | write data => data
  | getaddrinfo _ _ | connect | read => []

inductive GetEnding
  | failed (ec : Errc)
  | response
  | unreachable
  /-- an `append` that does not return -/
  | endless
deriving DecidableEq, Repr

/-- What the system answers: an error or none. -/
structure World where
  getaddrinfo : Bytes → Bytes → Option Errc
  connect : Option Errc
  write : List Bytes → Bytes → Option Errc
  read : Option Errc

/-- `errc::invalid_argument` and `errc::not_supported`. -/
def invalidArgument : Errc := .other 22
def notSupported : Errc := .other 95

/-- What is read from `url.data() + i` as a C string. -/
def cstr (url behind : Bytes) (i : Nat) : Bytes := (url.drop i ++ behind).takeWhile (· != 0)

namespace HttpClient

/-- The target; an empty path is put in by hand. -/
def putTarget (turns : Nat) (path origin : Bytes) (builder : RequestPartBuilder) : Option RequestPartBuilder :=
  if path = [] then ((builder.appendChar 32).appendChar 47).append turns origin else builder.setTarget turns origin

/-- The calls on the builder. -/
def request (turns : Nat) (url : Bytes) (uri : AbsoluteUri) : Option RequestPartBuilder := do
  let builder ← RequestPartBuilder.init.setMethod turns .get
  let builder ← putTarget turns (fieldAt url uri.path) (uri.originForm url) builder
  let builder ← builder.setVersion turns .http11
  let builder ← builder.addHeader turns (text "Host") (fieldAt url uri.host)
  let builder ← builder.addHeader turns (text "User-Agent") API_VERSION
  builder.addHeader turns (text "Accept") (text "*/*")

/-- Behind the resolution. -/
def exchange (W : World) (turns : Nat) (builder : RequestPartBuilder) : List Outside × GetEnding :=
  match W.connect with
  | some ec => ([.connect], .failed ec)
  | none =>
    match builder.writeTo turns W.write with
    | none => ([.connect], .endless)
    | some (_, sent, some ec) => (.connect :: sent.map .write, .failed ec)
    | some (_, sent, none) =>
      match W.read with
      | some ec => (.connect :: sent.map .write ++ [.read], .failed ec)
      | none => (.connect :: sent.map .write ++ [.read], .response)

/-- The port a scheme stands for. -/
def defaultPort (scheme : Bytes) : Bytes := if scheme = text "https" then text "443" else text "80"

/-- The branch for `http`. -/
def contact (W : World) (turns : Nat) (url behind : Bytes) (uri : AbsoluteUri) (builder : RequestPartBuilder) :
    List Outside × GetEnding :=
  let name := cstr url behind uri.host.1
  let serv := if fieldAt url uri.port = [] then text "80" else cstr url behind uri.port.1
  match W.getaddrinfo name serv with
  | some ec => ([.getaddrinfo name serv], .failed ec)
  | none => (.getaddrinfo name serv :: (exchange W turns builder).1, (exchange W turns builder).2)

/-- Behind the checks. -/
def getChecked (W : World) (turns : Nat) (url behind : Bytes) (uri : AbsoluteUri) : List Outside × GetEnding :=
  match request turns url uri with
  | none => ([], .endless)
  | some builder =>
    if fieldAt url uri.scheme = text "https" then ([], .unreachable)
    else if fieldAt url uri.scheme = text "http" then contact W turns url behind uri builder
    else ([], .unreachable)

/-- `get`: what it asks of the system, and how it ends. -/
def get (W : World) (turns : Nat) (url behind : Bytes) : List Outside × GetEnding :=
  match AbsoluteUri.matchUri url with
  | none => ([], .failed invalidArgument)
  | some uri =>
    if fieldAt url uri.scheme ≠ [] ∧ fieldAt url uri.host ≠ [] then
      if fieldAt url uri.scheme = text "http" ∨ fieldAt url uri.scheme = text "https" then
        getChecked W turns url behind uri
      else ([], .failed notSupported)
    else ([], .failed invalidArgument)

/-! ## §2 — what it is for. -/

/-- The server's parser reads this text as a `GET` of the path and the query. -/
def Asks (A : Alloc) (heap : Nat → Block) (path query request : Bytes) : Prop :=
  ∃ line n, (RequestLine.init A).parse A (.text request) request = (line, n, none) ∧ line.method = .get ∧
    View.deref heap line.raw line.path = some (if path = [] then text "/" else path) ∧
    View.deref heap line.raw line.query = some query

/-- **The server the URL names is asked for the URL's target**, or `get` fails before it resolves anything. -/
def Serves (A : Alloc) (heap : Nat → Block) (W : World) (url : Bytes) (run : List Outside × GetEnding) : Prop :=
  (∃ ec, run = ([], .failed ec)) ∨
    ∃ uri serv, AbsoluteUri.matchUri url = some uri ∧ run.2 ≠ .unreachable ∧ run.2 ≠ .endless ∧
      serv = (if fieldAt url uri.port = [] then defaultPort (fieldAt url uri.scheme) else fieldAt url uri.port) ∧
      run.1.head? = some (.getaddrinfo (fieldAt url uri.host) serv) ∧
      (W.getaddrinfo (fieldAt url uri.host) serv = none → W.connect = none → (∀ sent block, W.write sent block = none) →
        Asks A heap (fieldAt url uri.path) (fieldAt url uri.query) (run.1.flatMap Outside.data))

/-- **When it is**: the scheme is `http`, nothing follows the host up to the next NUL, and the host ends before the
second block of the request does.  `GET / HTTP/1.1`, `CRLF` and `Host: ` are the 22 bytes in front of it. -/
def HostEndsUrl (url behind : Bytes) : Prop :=
  ∀ uri, AbsoluteUri.matchUri url = some uri → fieldAt url uri.host ≠ [] →
    fieldAt url uri.scheme = text "http" ∨ fieldAt url uri.scheme = text "https" →
    fieldAt url uri.scheme = text "http" ∧ cstr url behind uri.host.2 = [] ∧
      22 + (fieldAt url uri.host).length ≤ 2 * HTTP_BUFFER_BLOCK_SIZE

/-! ## §3 — the C strings. -/

variable {url behind : Bytes} {uri : AbsoluteUri}

/-- **A part is read together with what follows it.** -/
theorem cstr_span (hnul : 0 ∉ url) (behind : Bytes) {a b : Nat} (hab : a ≤ b) :
    cstr url behind a = fieldAt url (a, b) ++ cstr url behind b := by
  have hsplit : url.drop a = fieldAt url (a, b) ++ url.drop b := by
    have := List.take_append_drop (b - a) (url.drop a)
    rwa [List.drop_drop, Nat.add_sub_cancel' hab, eq_comm] at this
  rw [cstr, hsplit, List.append_assoc, cstr]
  apply List.takeWhile_append_of_pos
  intro x hx
  have hmem : x ∈ url := List.mem_of_mem_drop (List.mem_of_mem_take hx)
  rw [bne_iff_ne]
  rintro rfl
  exact hnul hmem

/-- What a URL that matches looks like behind its host. -/
theorem behind_host (hm : AbsoluteUri.matchUri url = some uri) :
    ∃ port segs query, uri.host.1 ≤ uri.host.2 ∧ url.drop uri.host.2 = portPart port ++ (pathOf segs ++ queryPart query) ∧
      fieldAt url uri.port = port.getD [] ∧ fieldAt url uri.path = pathOf segs ∧ fieldAt url uri.query = query.getD [] ∧
      (query ≠ some [] → uri.originForm url = pathOf segs ++ queryPart query) := by
  obtain ⟨scheme, userinfo, host, port, segs, query, -, rfl, hform⟩ := AbsoluteUri.exists_of_matchUri hm
  obtain ⟨-, -, hport, hpath, hquery⟩ := fieldAt_absolute hform
  refine ⟨port, segs, query, ?_, ?_, hport, hpath, hquery, fun hq => AbsoluteUri.originForm_bytes hq hform⟩
  · simp only [Target.form, Form.absolute.injEq] at hform
    rw [← hform.2.1]
    exact Nat.le_add_right _ _
  · have hbytes : (Target.absolute scheme userinfo host port segs query).bytes =
        (scheme ++ 58 :: 47 :: 47 :: (userPart userinfo ++ host)) ++
          (portPart port ++ (pathOf segs ++ queryPart query)) := by
      simp [Target.bytes, Target.authorityPart]
    simp only [Target.form, Form.absolute.injEq] at hform
    rw [hbytes, ← hform.2.1]
    exact List.drop_left' (by simp; omega)

/-- **A host with nothing behind it** leaves no room for the other parts. -/
theorem parts_of_host_end (hnul : 0 ∉ url) (hm : AbsoluteUri.matchUri url = some uri)
    (hend : cstr url behind uri.host.2 = []) :
    fieldAt url uri.port = [] ∧ fieldAt url uri.path = [] ∧ fieldAt url uri.query = [] ∧ uri.originForm url = [] := by
  obtain ⟨port, segs, query, -, hdrop, hport, hpath, hquery, horigin⟩ := behind_host hm
  have hnil : url.drop uri.host.2 = [] := by
    cases hd : url.drop uri.host.2 with
    | nil => rfl
    | cons b rest =>
        have hb : b ∈ url := List.mem_of_mem_drop (hd ▸ List.mem_cons_self)
        have hb0 : (b != 0) = true := bne_iff_ne.mpr fun h0 => hnul (h0 ▸ hb)
        rw [cstr, hd, List.cons_append, List.takeWhile_cons, if_pos hb0] at hend
        cases hend
  rw [hdrop, List.append_eq_nil_iff, List.append_eq_nil_iff] at hnil
  obtain ⟨hp, hs, hq⟩ := hnil
  have hport0 : port = none := by
    cases port with
    | none => rfl
    | some p => cases hp
  have hquery0 : query = none := by
    cases query with
    | none => rfl
    | some q => cases hq
  rw [hport0] at hport
  rw [hquery0] at hquery horigin
  refine ⟨hport, hpath.trans hs, hquery, ?_⟩
  rw [horigin (by simp), hs]
  rfl

/-! ## §4 — the request. -/

/-- The calls of `add_header`. -/
def headerCalls (key value : Bytes) : List RequestPartBuilder.Call := [.str key, .str (text ": "), .str value, .str CRLF]

/-- The calls of the request line. -/
def lineCalls (path origin : Bytes) : List RequestPartBuilder.Call :=
  .str Method.get.toStringView :: .char 32 :: ((if path = [] then [.char 47] else []) ++
    [.str origin, .char 32, .str Version.http11.toStringView, .str CRLF])

/-- The calls on the builder, one after another. -/
def requestCalls (url : Bytes) (uri : AbsoluteUri) : List RequestPartBuilder.Call :=
  lineCalls (fieldAt url uri.path) (uri.originForm url) ++ (headerCalls (text "Host") (fieldAt url uri.host) ++
    (headerCalls (text "User-Agent") API_VERSION ++ headerCalls (text "Accept") (text "*/*")))

theorem runCalls_append (turns : Nat) (a b : List RequestPartBuilder.Call) (builder : RequestPartBuilder) :
    runCalls turns (a ++ b) builder = (runCalls turns a builder).bind (runCalls turns b) :=
  List.foldlM_append

theorem addHeader_eq (turns : Nat) (key value : Bytes) (builder : RequestPartBuilder) :
    builder.addHeader turns key value = runCalls turns (headerCalls key value) builder := by
  simp [RequestPartBuilder.addHeader, headerCalls, runCalls, RequestPartBuilder.Call.run]

theorem requestLine_eq (turns : Nat) (path origin : Bytes) (builder : RequestPartBuilder) :
    ((builder.setMethod turns .get).bind fun b => (putTarget turns path origin b).bind fun b =>
      b.setVersion turns .http11) = runCalls turns (lineCalls path origin) builder := by
  by_cases hpath : path = []
  · simp [putTarget, hpath, lineCalls, runCalls, RequestPartBuilder.Call.run, RequestPartBuilder.setMethod,
      RequestPartBuilder.setVersion]
  · simp [putTarget, hpath, lineCalls, runCalls, RequestPartBuilder.Call.run, RequestPartBuilder.setMethod,
      RequestPartBuilder.setTarget, RequestPartBuilder.setVersion]

theorem request_eq (turns : Nat) (url : Bytes) (uri : AbsoluteUri) :
    request turns url uri = runCalls turns (requestCalls url uri) RequestPartBuilder.init := by
  simp only [requestCalls, runCalls_append, ← requestLine_eq, ← addHeader_eq, Option.bind_assoc, request]
  rfl

/-- The request for a URL that ends with its host. -/
def rootRequest (host : Bytes) : Bytes :=
  Method.get.toStringView ++ 32 :: ([47] ++ 32 :: Version.http11.toStringView) ++ CRLF ++
    ([(text "Host", host), (text "User-Agent", API_VERSION), (text "Accept", text "*/*")].flatMap printed ++ CRLF)

/-- Only the host may be too long. -/
theorem short_requestCalls_iff (hpath : fieldAt url uri.path = []) (horigin : uri.originForm url = []) :
    Short 0 (requestCalls url uri) ↔ 22 + (fieldAt url uri.host).length ≤ 2 * HTTP_BUFFER_BLOCK_SIZE := by
  have hget : Method.get.toStringView.length = 3 := by decide
  have hversion : Version.http11.toStringView.length = 8 := by decide
  have hcrlf : CRLF.length = 2 := by decide
  have hcolon : (text ": ").length = 2 := by decide
  have hkeys : (text "Host").length = 4 ∧ (text "User-Agent").length = 10 ∧ (text "Accept").length = 6 := by decide
  have hvalues : API_VERSION.length = 7 ∧ (text "*/*").length = 3 := by decide
  simp only [requestCalls, lineCalls, headerCalls, hpath, horigin, if_true, List.cons_append, List.nil_append, Short,
    RequestPartBuilder.Call.text, hget, hversion, hcrlf, hcolon, hkeys, hvalues, List.length_cons, List.length_nil,
    HTTP_BUFFER_BLOCK_SIZE, and_true]
  omega

/-- **The request of a URL that ends with its host** is built, or never. -/
theorem request_root (turns : Nat) (hpath : fieldAt url uri.path = []) (horigin : uri.originForm url = []) :
    (22 + (fieldAt url uri.host).length ≤ 2 * HTTP_BUFFER_BLOCK_SIZE →
      ∃ b, request turns url uri = some b ∧ b.offset ≤ HTTP_BUFFER_BLOCK_SIZE ∧
        b.toString = rootRequest (fieldAt url uri.host)) ∧
    ∀ b, request turns url uri = some b → 22 + (fieldAt url uri.host).length ≤ 2 * HTTP_BUFFER_BLOCK_SIZE := by
  have hinit : RequestPartBuilder.init.offset ≤ HTTP_BUFFER_BLOCK_SIZE := Nat.zero_le _
  rw [request_eq, ← short_requestCalls_iff hpath horigin]
  constructor
  · intro hshort
    obtain ⟨b, hb, hoff, htext⟩ := RequestPartBuilder.runCalls_of_short turns (requestCalls url uri) hinit hshort
    refine ⟨b, hb, hoff, ?_⟩
    rw [RequestPartBuilder.toString, htext, rootRequest]
    simp [requestCalls, lineCalls, headerCalls, hpath, horigin, RequestPartBuilder.Call.text, printed,
      show RequestPartBuilder.init.written = [] from rfl]
  · intro b hb
    exact RequestPartBuilder.short_of_runCalls hinit hb

/-- It asks for `/`. -/
theorem asks_root (A : Alloc) (heap : Nat → Block) (host : Bytes) : Asks A heap [] [] (rootRequest host) := by
  obtain ⟨raw, hparse⟩ := RequestPartBuilder.parse_requestLine A .get (show [47].head? = some 47 from rfl) (by decide)
    (Or.inr (Or.inl rfl)) (show rootRequest host = _ from rfl)
  exact ⟨_, _, hparse, Method.fromStringView_toStringView .get, rfl, rfl⟩

/-! ## §5 — the run. -/

/-- Behind the resolution every `append` returns, and without an error the whole text is sent. -/
theorem exchange_spec (W : World) (turns : Nat) {builder : RequestPartBuilder}
    (hoff : builder.offset ≤ HTTP_BUFFER_BLOCK_SIZE) :
    (exchange W turns builder).2 ≠ .unreachable ∧ (exchange W turns builder).2 ≠ .endless ∧
      (W.connect = none → (∀ sent block, W.write sent block = none) →
        (exchange W turns builder).1.flatMap Outside.data = builder.toString) := by
  have hdata : ∀ sent : List Bytes, (sent.map Outside.write).flatMap Outside.data = sent.flatten := by
    intro sent
    rw [List.flatMap_map, List.flatMap_def]
    congr 1
    exact List.map_id sent
  obtain ⟨b, happend, -, -⟩ := RequestPartBuilder.append_spec turns CRLF hoff (by decide)
  rw [exchange]
  cases hconnect : W.connect with
  | some ec => exact ⟨by simp, by simp, by simp⟩
  | none =>
    cases hwrite : builder.writeTo turns W.write with
    | none =>
      rw [RequestPartBuilder.writeTo, happend] at hwrite
      cases hwrite
    | some r =>
      obtain ⟨b', sent, ec⟩ := r
      have hsent : (∀ sent block, W.write sent block = none) → ec = none ∧ sent.flatten = builder.toString := by
        intro hok
        obtain ⟨b1, sent1, h1, htext⟩ := RequestPartBuilder.writeTo_spec hok turns hoff
        obtain ⟨rfl, rfl, rfl⟩ : b1 = b' ∧ sent1 = sent ∧ none = ec := by simpa [h1] using hwrite
        exact ⟨rfl, htext⟩
      cases ec with
      | some ec =>
        refine ⟨by simp, by simp, ?_⟩
        intro _ hok
        cases (hsent hok).1
      | none =>
        have hflat : (∀ sent block, W.write sent block = none) →
            (Outside.connect :: sent.map Outside.write ++ [Outside.read]).flatMap Outside.data = builder.toString := by
          intro hok
          rw [List.flatMap_append, List.flatMap_cons, hdata, (hsent hok).2]
          simp [Outside.data]
        cases W.read with
        | some ec => exact ⟨by simp, by simp, fun _ hok => hflat hok⟩
        | none => exact ⟨by simp, by simp, fun _ hok => hflat hok⟩

/-- The URLs that pass the checks. -/
theorem get_of_passes (W : World) (turns : Nat) (behind : Bytes) (hm : AbsoluteUri.matchUri url = some uri)
    (hhost : fieldAt url uri.host ≠ [])
    (hscheme : fieldAt url uri.scheme = text "http" ∨ fieldAt url uri.scheme = text "https") :
    get W turns url behind = getChecked W turns url behind uri := by
  have hne : fieldAt url uri.scheme ≠ [] := by
    rcases hscheme with h | h <;> rw [h] <;> decide
  rw [get, hm]
  simp only [if_pos (And.intro hne hhost), if_pos hscheme]

/-- The other ones. -/
theorem get_of_fails (W : World) (turns : Nat) (behind : Bytes)
    (h : ∀ uri, AbsoluteUri.matchUri url = some uri → fieldAt url uri.host ≠ [] →
      ¬ (fieldAt url uri.scheme = text "http" ∨ fieldAt url uri.scheme = text "https")) :
    ∃ ec, get W turns url behind = ([], .failed ec) := by
  rw [get]
  cases hm : AbsoluteUri.matchUri url with
  | none => exact ⟨_, rfl⟩
  | some uri =>
    by_cases hparts : fieldAt url uri.scheme ≠ [] ∧ fieldAt url uri.host ≠ []
    · exact ⟨notSupported, by simp only [if_pos hparts, if_neg (h uri hm hparts.2)]⟩
    · exact ⟨invalidArgument, by simp only [if_neg hparts]⟩

/-- **A URL that ends with its host** is served. -/
theorem serves_of_hostEnds (A : Alloc) (heap : Nat → Block) (W : World) (turns : Nat) (hnul : 0 ∉ url)
    (h : HostEndsUrl url behind) : Serves A heap W url (get W turns url behind) := by
  by_cases hpass : ∃ uri, AbsoluteUri.matchUri url = some uri ∧ fieldAt url uri.host ≠ [] ∧
      (fieldAt url uri.scheme = text "http" ∨ fieldAt url uri.scheme = text "https")
  · obtain ⟨uri, hm, hhost, hscheme⟩ := hpass
    obtain ⟨hhttp, hend, hshort⟩ := h uri hm hhost hscheme
    obtain ⟨hport, hpath, hquery, horigin⟩ := parts_of_host_end hnul hm hend
    obtain ⟨b, hb, hoff, htext⟩ := (request_root turns hpath horigin).1 hshort
    obtain ⟨hun, hend', hsent⟩ := exchange_spec W turns hoff
    obtain ⟨-, -, -, hle, -⟩ := behind_host hm
    -- the C string of the host stops where the host does
    have hname : cstr url behind uri.host.1 = fieldAt url uri.host := by
      rw [cstr_span hnul behind hle, hend, List.append_nil]
    have hne : fieldAt url uri.scheme ≠ text "https" := by
      rw [hhttp]
      decide
    have hdefault : defaultPort (fieldAt url uri.scheme) = text "80" := if_neg hne
    right
    refine ⟨uri, text "80", hm, ?_⟩
    rw [get_of_passes W turns behind hm hhost hscheme, getChecked, hb]
    simp only [if_neg hne, if_pos hhttp, contact, hport, hname, hpath, hquery, hdefault, if_true, true_and]
    cases W.getaddrinfo (fieldAt url uri.host) (text "80") with
    | some ec => exact ⟨by simp, by simp, rfl, by simp⟩
    | none =>
      refine ⟨hun, hend', rfl, ?_⟩
      intro _ hconnect hok
      rw [List.flatMap_cons, hsent hconnect hok, htext]
      exact asks_root A heap _
  · left
    apply get_of_fails
    intro uri hm hhost hscheme
    exact hpass ⟨uri, hm, hhost, hscheme⟩

/-- **A URL that is served ends with its host.** -/
theorem hostEnds_of_serves {A : Alloc} {heap : Nat → Block} {W : World} {turns : Nat} (hnul : 0 ∉ url)
    (h : Serves A heap W url (get W turns url behind)) : HostEndsUrl url behind := by
  intro uri hm hhost hscheme
  rw [get_of_passes W turns behind hm hhost hscheme, getChecked] at h
  cases hb : request turns url uri with
  | none =>
    -- an `append` does not return
    rw [hb] at h
    rcases h with ⟨ec, h⟩ | ⟨_, _, -, -, h, -⟩
    · cases h
    · exact absurd rfl h
  | some b =>
    simp only [hb] at h
    rcases hscheme with hhttp | hhttps
    · have hne : fieldAt url uri.scheme ≠ text "https" := by
        rw [hhttp]
        decide
      simp only [if_neg hne, if_pos hhttp] at h
      obtain ⟨-, -, -, hle, -⟩ := behind_host hm
      have hfirst : (contact W turns url behind uri b).1.head? = some (.getaddrinfo (cstr url behind uri.host.1)
          (if fieldAt url uri.port = [] then text "80" else cstr url behind uri.port.1)) := by
        rw [contact]
        cases W.getaddrinfo _ _ <;> rfl
      have hend : cstr url behind uri.host.2 = [] := by
        rcases h with ⟨ec, h⟩ | ⟨uri', serv, hm', -, -, -, hhead, -⟩
        · rw [h] at hfirst
          cases hfirst
        · obtain rfl : uri = uri' := Option.some.inj (hm.symm.trans hm')
          rw [hfirst, Option.some.injEq, Outside.getaddrinfo.injEq, cstr_span hnul behind hle] at hhead
          exact List.append_right_eq_self.mp hhead.1
      obtain ⟨-, hpath, -, horigin⟩ := parts_of_host_end hnul hm hend
      exact ⟨hhttp, hend, (request_root turns hpath horigin).2 b hb⟩
    · simp only [if_pos hhttps] at h
      rcases h with ⟨ec, h⟩ | ⟨_, _, -, h, -⟩
      · cases h
      · exact absurd rfl h

/-- **`get` serves the URLs that end with their host, and no others that pass its checks.** -/
theorem get_serves_iff (A : Alloc) (heap : Nat → Block) (turns : Nat) (url behind : Bytes)
    (hurl : Free [32, 13, 10, 0, 37] url) :
    (∀ W, Serves A heap W url (get W turns url behind)) ↔ HostEndsUrl url behind := by
  have hnul : 0 ∉ url := fun h => hurl 0 h (by decide)
  constructor
  · intro h
    exact hostEnds_of_serves hnul (h ⟨fun _ _ => none, none, fun _ _ => none, none⟩)
  · intro h W
    exact serves_of_hostEnds A heap W turns hnul h

/-- A string takes just the bytes it is asked for. -/
def tightAlloc : Alloc := ⟨0, fun _ n => n, fun _ _ => Nat.le_refl _⟩

/-- Every call is answered without an error. -/
def smoothWorld : World := ⟨fun _ _ => none, none, fun _ _ => none, none⟩

/-- `scheme://a` and a path. -/
theorem matchUri_short {scheme : Bytes} {segs : List Bytes} (hne : scheme ≠ []) (hs : Free (text ":/?#") scheme)
    (hsegs : PathSegs segs) :
    ∃ uri, AbsoluteUri.matchUri (Target.absolute scheme none [97] none segs none).bytes = some uri ∧
      uri.scheme = (0, scheme.length) ∧ uri.host = (scheme.length + 3, scheme.length + 4) := by
  have hvalid : (Target.absolute scheme none [97] none segs none).Valid :=
    ⟨hne, hs, by decide, by decide, by decide, by decide, hsegs, by decide⟩
  obtain ⟨uri, huri, hform⟩ := AbsoluteUri.matchUri_bytes hvalid
  simp only [Target.form, Form.absolute.injEq] at hform
  exact ⟨uri, huri, hform.1.symm, hform.2.1.symm⟩

/-- `http://a`, with a NUL behind it. -/
theorem get_serves_host :
    Serves tightAlloc (fun _ _ => 0) smoothWorld (text "http://a") (get smoothWorld 0 (text "http://a") [0]) := by
  apply (get_serves_iff tightAlloc (fun _ _ => 0) 0 (text "http://a") [0] (by decide)).mpr
  obtain ⟨uri, huri, hscheme, hhost⟩ := matchUri_short (show text "http" ≠ [] by decide) (by decide)
    (show PathSegs [] by decide)
  intro uri' hm _ _
  obtain rfl : uri = uri' := Option.some.inj (huri.symm.trans hm)
  rw [hscheme, hhost]
  decide

/-- **The path of `http://a/b` is looked up with its host**, and `https://a` runs into the unreachable. -/
theorem get_looks_up_path :
    cstr (text "http://a/b") [0] 7 = text "a/b" ∧
      ¬ Serves tightAlloc (fun _ _ => 0) smoothWorld (text "http://a/b") (get smoothWorld 0 (text "http://a/b") [0]) ∧
      ¬ Serves tightAlloc (fun _ _ => 0) smoothWorld (text "https://a") (get smoothWorld 0 (text "https://a") [0]) := by
  refine ⟨by decide, ?_, ?_⟩
  · intro h
    obtain ⟨uri, huri, hscheme, hhost⟩ := matchUri_short (show text "http" ≠ [] by decide) (by decide)
      (show PathSegs [[98]] by decide)
    have hend := hostEnds_of_serves (by decide) h uri huri (by rw [hhost]; decide) (by rw [hscheme]; decide)
    rw [hhost] at hend
    exact absurd hend.2.1 (by decide)
  · intro h
    obtain ⟨uri, huri, hscheme, hhost⟩ := matchUri_short (show text "https" ≠ [] by decide) (by decide)
      (show PathSegs [] by decide)
    have hend := hostEnds_of_serves (by decide) h uri huri (by rw [hhost]; decide) (by rw [hscheme]; decide)
    rw [hscheme] at hend
    exact absurd hend.1 (by decide)

end HttpClient

end NetCpp.Http
