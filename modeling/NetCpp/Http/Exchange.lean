/-
# NetCpp.Http.Exchange — requests in, responses out, over one connection.

The two directions are put together: requests that `RequestPartBuilder` prints (`include/xsl/asio/http/request.h`)
are written one behind another, the loop of `conn.h` reads and answers them with the service of `service.h`, and
`Response` (`response.h`) reads what comes back.  `exchange_answers` says that the `k`-th response on the wire is read back as
the response to the `k`-th request, with what decided it; behind its head stands its body, and behind that the next
response.

A handler may hand over any `ResponsePart`: `ReadableHandlers` asks that a client can read it, which the parts that
the server makes itself always allow.
-/
import NetCpp.Http.Builder
import NetCpp.Http.ResponseRead
import NetCpp.Http.Session

namespace NetCpp.Http

open NetCpp.Lib
open ServiceBuilder (Setup)
open RequestPartBuilder (targetPath targetQuery target_eq)

/-! ## §1 — the requests. -/

/-- A request that a client builds: a target that begins with a slash, with no fragment and no escapes, headers with
different names that are read back, and no line longer than a block. -/
structure Asked where
  method : Method
  target : Bytes
  version : Version
  headers : List Header
  slash : target.head? = some 47
  target_ok : 35 ∉ target ∧ 37 ∉ target ∧ 32 ∉ target ∧ ¬ CRLF <:+: target
  version_ok : version = .http10 ∨ version = .http11 ∨ version = .http20
  headers_ok : ∀ e ∈ headers, Printable e ∧ e.1.length + e.2.length + 4 ≤ HTTP_BUFFER_BLOCK_SIZE
  nodup : (headers.map Prod.fst).Nodup
  fits : method.toStringView.length + target.length + 12 ≤ HTTP_BUFFER_BLOCK_SIZE

namespace Asked

/-- What the builder writes for it. -/
def bytes (a : Asked) : Bytes :=
  a.method.toStringView ++ 32 :: (a.target ++ 32 :: a.version.toStringView) ++ CRLF ++ (a.headers.flatMap printed ++ CRLF)

/-- What the server's `Request` shows of it. -/
def fields (a : Asked) : RequestFields where
  method := a.method
  path := targetPath a.target
  query := (targetQuery a.target).getD []
  version := a.version.toStringView
  headers := a.headers

/-- The calls on the builder. -/
def build (turns : Nat) (a : Asked) : Option RequestPartBuilder :=
  RequestPartBuilder.build turns a.method a.target a.version a.headers

theorem exists_build (a : Asked) (turns : Nat) : ∃ b, a.build turns = some b ∧ b.toString = a.bytes := by
  have hfits := a.fits
  refine RequestPartBuilder.build_spec turns a.method a.version (by omega) ?_
  intro e he
  have := (a.headers_ok e he).2
  omega

/-- The digits of a version. -/
theorem exists_digits (a : Asked) : ∃ major minor : UInt8, (48 ≤ major ∧ major ≤ 57) ∧ (48 ≤ minor ∧ minor ≤ 57) ∧
    a.version.toStringView = text "HTTP/" ++ [major] ++ text "." ++ [minor] := by
  rcases a.version_ok with h | h | h
  · exact ⟨49, 48, by decide, by decide, by rw [h]; decide⟩
  · exact ⟨49, 49, by decide, by decide, by rw [h]; decide⟩
  · exact ⟨50, 48, by decide, by decide, by rw [h]; decide⟩

/-- **A built request is a head** of a stream. -/
theorem exists_head (a : Asked) : ∃ h : OriginHead, h.toHead.bytes = a.bytes ∧ h.fields = a.fields := by
  obtain ⟨hpath, hsegs, hsplit, hquery⟩ := target_eq a.slash a.target_ok.1
  obtain ⟨major, minor, hmajor, hminor, hversion⟩ := a.exists_digits
  obtain ⟨hs, hbytes, hmap⟩ := exists_headerLines_of_nodup a.headers_ok a.nodup
  have htarget : pathOf (segments (targetPath a.target)) ++ queryPart (targetQuery a.target) = a.target := by
    rw [hpath, ← hsplit]
  have hmethod : 32 ∉ a.method.toStringView ∧ 13 ∉ a.method.toStringView := by
    cases a.method <;> decide
  have hvcr := (version_spec a.version_ok).2.2
  obtain ⟨-, hperc, hspace, hcrlf⟩ := a.target_ok
  have hline : ¬ CRLF <:+: a.method.toStringView ++ 32 :: (a.target ++ 32 :: a.version.toStringView) :=
    not_crlf_fields (not_crlf_of_not_mem hmethod.2) hcrlf (not_crlf_of_not_mem hvcr)
  refine ⟨⟨a.method.toStringView, segments (targetPath a.target), targetQuery a.target, major, minor, hs, hmethod.1,
    segments_ne_nil _, hsegs, hquery, by rw [htarget]; exact hspace, by rw [htarget]; exact hperc, hmajor, hminor,
    by rw [htarget, ← hversion]; exact hline, by rw [htarget]; exact a.fits⟩, ?_, ?_⟩
  · show a.method.toStringView ++ 32 :: (pathOf _ ++ queryPart _ ++ 32 :: (text "HTTP/" ++ [major] ++ text "." ++ [minor])) ++
      CRLF ++ (hs.flatMap HeaderLine.bytes ++ CRLF) = a.bytes
    rw [htarget, ← hversion, hbytes]
    rfl
  · have hversion' : OriginHead.version ⟨a.method.toStringView, segments (targetPath a.target), targetQuery a.target, major,
        minor, hs, hmethod.1, segments_ne_nil _, hsegs, hquery, by rw [htarget]; exact hspace, by rw [htarget]; exact hperc,
        hmajor, hminor, by rw [htarget, ← hversion]; exact hline, by rw [htarget]; exact a.fits⟩ =
        a.version.toStringView := hversion.symm
    simp only [OriginHead.fields, fields, hpath, hmap, hversion', Method.fromStringView_toStringView]

end Asked

/-- The texts of the builders, one behind another. -/
theorem flatMap_of_mapM_build {turns : Nat} : ∀ {asked : List Asked} {bs : List RequestPartBuilder},
    asked.mapM (Asked.build turns) = some bs → bs.flatMap RequestPartBuilder.toString = asked.flatMap Asked.bytes
  | [], bs, h => by
      obtain rfl : bs = [] := (Option.some.inj h).symm
      rfl
  | a :: asked, bs, h => by
      obtain ⟨b, hb, htext⟩ := a.exists_build turns
      simp only [List.mapM_cons, hb, Option.bind_eq_bind, Option.bind_some, Option.bind_eq_some_iff] at h
      obtain ⟨rest, hrest, he⟩ := h
      obtain rfl : b :: rest = bs := Option.some.inj he
      rw [List.flatMap_cons, List.flatMap_cons, htext, flatMap_of_mapM_build hrest]

/-- **Built requests are a stream of heads.** -/
theorem exists_heads : ∀ asked : List Asked, ∃ heads : List OriginHead,
    heads.flatMap (fun h => h.toHead.bytes) = asked.flatMap Asked.bytes ∧ heads.map OriginHead.fields = asked.map Asked.fields
  | [] => ⟨[], rfl, rfl⟩
  | a :: asked => by
      obtain ⟨h, hbytes, hshown⟩ := a.exists_head
      obtain ⟨heads, hall, hmap⟩ := exists_heads asked
      exact ⟨h :: heads, by rw [List.flatMap_cons, List.flatMap_cons, hbytes, hall],
        by rw [List.map_cons, List.map_cons, hshown, hmap]⟩

/-! ## §2 — the service. -/

variable {H : Type}

/-- `operator()` on what the fields of the request show.  `current_path[0]` of an empty path is out of range; a path
that does not begin with a slash has no route. -/
def HttpService.answer (run : H → HandleContext → Outcome) (date : Bytes) (s : HttpService H) (req : RequestFields) :
    Except Fault ResponseBuilder :=
  if h : req.path.head? = some 47 then do
    return (← s.call run date ⟨req.method.toStringView, ⟨req.path, h⟩, req.headers⟩).2
  else if req.path = [] then .error .read
  else do
    let part ← ResponsePart.ofStatus .http11 .notFound
    return ({ part := part } : ResponseBuilder).setHeader (text "Date") date

theorem Asked.slash_path (a : Asked) : (targetPath a.target).head? = some 47 := by
  cases htarget : a.target with
  | nil =>
      have := a.slash
      rw [htarget] at this
      cases this
  | cons b t =>
      have hb : b = 47 := by
        have := a.slash
        rw [htarget] at this
        simpa using this
      simp [targetPath, hb]

/-- The request, as the service gets it. -/
def Asked.requestHead (a : Asked) : RequestHead :=
  ⟨a.method.toStringView, ⟨targetPath a.target, a.slash_path⟩, a.headers⟩

theorem answer_asked (run : H → HandleContext → Outcome) (date : Bytes) (s : HttpService H) (a : Asked) :
    s.answer run date a.fields = (do return (← s.call run date a.requestHead).2) := by
  have h : a.fields.path.head? = some 47 := a.slash_path
  rw [HttpService.answer, dif_pos h]
  rfl

/-- A header that goes into a part: it is read back, and its line fits in a block. -/
def HeaderFits (e : Header) : Prop := Printable e ∧ e.1.length + e.2.length + 4 ≤ HTTP_BUFFER_BLOCK_SIZE

instance (e : Header) : Decidable (HeaderFits e) := inferInstanceAs (Decidable (_ ∧ _))

/-- The longest string. -/
def maxSize : Nat := 2 ^ 63

/-- A call whose response is read back. -/
def Call.Readable : Call → Prop
  | .easyResp _ => True
  | .easyRespText _ body => body.length < maxSize
  | .resp part => part.Readable
  | .respText part body => part.Readable ∧ body.length < maxSize
  | .easyRespWith _ _ | .respWith _ _ => False

/-- Handlers whose responses are text that is read back. -/
def ReadableHandlers (run : H → HandleContext → Outcome) : Prop := ∀ h ctx, ∀ c ∈ (run h ctx).calls, c.Readable

/-- Redirects whose target is read back. -/
def ReadableRedirects (ops : List (Setup H)) : Prop :=
  ∀ method path target, Setup.redirect method path target ∈ ops → HeaderFits (text "Location", target)

/-! ## §3 — the response that is decided is read back. -/

theorem Call.Readable.textual {c : Call} (h : c.Readable) : c.Textual := by
  cases c with
  | easyRespWith status body => exact h.elim
  | respWith part body => exact h.elim
  | easyResp status | easyRespText status body | resp part | respText part body => trivial

theorem ofStatus_readable {version : Version} {status : Status} {part : ResponsePart}
    (hversion : version = .http10 ∨ version = .http11 ∨ version = .http20)
    (h : ResponsePart.ofStatus version status = .ok part) : part.Readable := by
  have hdeclared : status ∈ Status.declared := (exists_ofStatus_iff version status).mp ⟨part, h⟩
  obtain ⟨str, hstr, he⟩ := bind_eq_ok.mp h
  obtain rfl := Except.ok.inj he
  have hlen : ∀ str ∈ HTTP_REASON_PHRASES, str.length ≤ 40 := by decide
  refine ⟨hversion, hdeclared, ResponsePart.not_crlf_toReasonPhrase hstr, ?_, ?_⟩
  · have hmem : str ∈ HTTP_REASON_PHRASES := by
      rw [Status.toReasonPhrase, Status.entry] at hstr
      split at hstr
      · rename_i heq
        obtain rfl := Except.ok.inj hstr
        exact List.mem_of_getElem? heq
      · cases hstr
    have := hlen str hmem
    show str.length + 15 ≤ 4096
    omega
  · intro e he
    cases he

theorem ResponsePart.Readable.emplace {part : ResponsePart} (h : part.Readable) {key value : Bytes}
    (hfits : HeaderFits (key, value)) :
    ResponsePart.Readable { part with headers := part.headers.emplace key value } where
  version := h.version
  status := h.status
  message := h.message
  message_fits := h.message_fits
  headers e he := by
    rcases SmallHeaderMap.mem_emplace.mp he with he | ⟨-, rfl⟩
    · exact h.headers e he
    · exact hfits

/-- A length in decimal is a header. -/
theorem headerFits_contentLength {n : Nat} (h : n < maxSize) : HeaderFits (text "Content-Length", decimal n) := by
  have hdigit : ∀ b ∈ decimal n, 48 ≤ b.toNat ∧ b.toNat ≤ 57 := by
    intro b hb
    obtain ⟨c, hc, rfl⟩ := List.mem_map.mp hb
    have hd := Nat.isDigit_of_mem_toDigits (by omega) (by omega) hc
    simp only [Char.isDigit, Bool.and_eq_true, decide_eq_true_eq] at hd
    have h1 := hd.1
    have h2 := hd.2
    simp only [ge_iff_le, UInt32.le_iff_toNat_le] at h1 h2
    have hn : c.toNat = c.val.toNat := rfl
    simp only [hn, Nat.toUInt8, UInt8.toNat_ofNat']
    simp at h1 h2
    omega
  have hlen : (decimal n).length ≤ 19 := by
    rw [decimal, List.length_map]
    exact (Nat.length_toDigits_le_iff (by omega) (by omega)).mpr (lt_of_lt_of_le h (by decide))
  refine ⟨⟨show 58 ∉ text "Content-Length" by decide, show ¬ CRLF <:+: text "Content-Length" by decide, ?_, ?_⟩, ?_⟩
  · apply not_crlf_of_not_mem
    intro h13
    have := (hdigit 13 h13).1
    exact absurd this (by decide)
  · cases hd : decimal n with
    | nil => simp
    | cons b rest =>
        have hb := (hdigit b (by rw [hd]; simp)).1
        intro h32
        obtain rfl : b = 32 := by simpa using h32
        exact absurd hb (by decide)
  · have hkey : (text "Content-Length").length = 14 := by decide
    show (text "Content-Length").length + (decimal n).length + 4 ≤ 4096
    omega

/-- **The response of a readable call** is read back. -/
theorem readable_builder {c : Call} {r : ResponseBuilder} (hc : c.Readable) (h : c.builder = .ok r) : r.part.Readable := by
  cases c with
  | easyRespWith status body => exact hc.elim
  | respWith part body => exact hc.elim
  | easyResp status =>
      obtain ⟨part, hp, he⟩ := bind_eq_ok.mp h
      obtain rfl := Except.ok.inj he
      exact ofStatus_readable (.inr (.inl rfl)) hp
  | easyRespText status body =>
      obtain ⟨part, hp, he⟩ := bind_eq_ok.mp h
      obtain rfl := Except.ok.inj he
      exact (ofStatus_readable (.inr (.inl rfl)) hp).emplace (headerFits_contentLength hc)
  | resp part =>
      obtain rfl := Except.ok.inj h
      exact hc
  | respText part body =>
      obtain rfl := Except.ok.inj h
      exact hc.1.emplace (headerFits_contentLength hc.2)

/-- A redirect that is selected was set up. -/
theorem redirect_mem_of_selected {ops : List (Setup H)} {key : RouteKey} {method : Method} {target : Bytes}
    (h : selected ops key method = some (.redirect target)) :
    ∃ method path, Setup.redirect method path target ∈ ops := by
  have hfirst : ∀ m, firstHandler ops key m = some (.redirect target) →
      ∃ method path, Setup.redirect method path target ∈ ops := by
    intro m hm
    obtain ⟨⟨k, m', g⟩, hfind, hg⟩ := Option.map_eq_some_iff.mp hm
    obtain ⟨op, hop, hroute⟩ := List.mem_filterMap.mp (List.mem_of_find?_eq_some hfind)
    cases op with
    | addRoute m1 path g1 => cases hroute; cases hg
    | addPrefix path g1 => cases hroute; cases hg
    | setStatusHandler kind g1 => cases hroute
    | redirect m1 path t => cases hroute; cases hg; exact ⟨_, _, hop⟩
  rw [selected] at h
  cases hf : firstHandler ops key method with
  | some g =>
      rw [hf] at h
      exact hfirst method (hf.trans h)
  | none =>
      rw [hf, Option.none_or] at h
      exact hfirst .unknown h

variable {run : H → HandleContext → Outcome}

theorem redirectPart_readable {target : Bytes} (h : HeaderFits (text "Location", target)) : (redirectPart target).Readable := by
  have hpart : ResponsePart.ofStatus .http11 .movedPermanently =
      .ok ⟨.movedPermanently, text "Moved Permanently", .http11, .empty⟩ := rfl
  exact (ofStatus_readable (.inr (.inl rfl)) hpart).emplace h

/-- **The call that decides** is readable, when the handlers and the redirects are. -/
theorem readable_lastCall {ops : List (Setup H)} (hrun : ReadableHandlers run) (hops : ReadableRedirects ops)
    (req : RequestHead) : (lastCall run ops req).Readable := by
  have huser : ∀ (g : H) ctx, ∀ c ∈ (Handler.user g).replies run ctx, c.Readable := fun g ctx => hrun g ctx
  unfold lastCall
  split
  · trivial
  · rename_i key current _
    split
    · trivial
    · rename_i h hsel
      have hreplies : ∀ c ∈ h.replies run ⟨current, req, none⟩, c.Readable := by
        cases h with
        | user g => exact huser g _
        | redirect target =>
            obtain ⟨m, path, hmem⟩ := redirect_mem_of_selected hsel
            intro c hc
            obtain rfl := List.mem_singleton.mp hc
            exact redirectPart_readable (hops m path target hmem)
      have hstatus : ∀ c ∈ statusReplies run ops h ⟨current, req, none⟩, c.Readable := by
        intro c hc
        unfold statusReplies at hc
        split at hc
        · cases hc
        · split at hc
          · obtain rfl := List.mem_singleton.mp hc
            trivial
          · rename_i g _ _ hg _
            cases g with
            | user g => exact huser g _ c hc
            | redirect target =>
                -- status handlers are set up by the application
                obtain ⟨op, hop, hsome⟩ := List.mem_filterMap.mp (List.mem_of_mem_head? hg)
                cases op with
                | setStatusHandler kind g1 =>
                    simp only at hsome
                    split at hsome <;> cases hsome
                | addRoute m1 path g1 => cases hsome
                | addPrefix path g1 => cases hsome
                | redirect m1 path t => cases hsome
          · cases hc
      cases hl : (h.replies run ⟨current, req, none⟩ ++ statusReplies run ops h ⟨current, req, none⟩).getLast? with
      | none => trivial
      | some c =>
          rcases List.mem_append.mp (List.mem_of_getLast? hl) with hc | hc
          · exact hreplies c hc
          · exact hstatus c hc

/-! ## §4 — the exchange. -/

section Passes

variable {service : RequestFields → Except Fault ResponseBuilder}

/-- The `k`-th pass answers the `k`-th request. -/
theorem passFor_of_serveAll : ∀ {reqs : List RequestFields} {awd : Nat → Device} {k : Nat} {req : RequestFields} {pass : Pass},
    reqs[k]? = some req → (serveAll service awd reqs).1[k]? = some pass → passFor service (awd k) req = .ok pass
  | [], _, _, _, _, hreq, _ => by cases hreq
  | first :: reqs, awd, k, req, pass, hreq, hpass => by
      rw [serveAll] at hpass
      cases hfirst : passFor service (awd 0) first with
      | error f =>
          rw [hfirst] at hpass
          cases hpass
      | ok p =>
          simp only [hfirst] at hpass
          cases k with
          | zero =>
              obtain rfl : first = req := by simpa using hreq
              have hp : p = pass := by
                split at hpass <;> simpa using hpass
              rw [hfirst, hp]
          | succ k =>
              split at hpass
              · exact @passFor_of_serveAll reqs (fun k => awd (k + 1)) k req pass (by simpa using hreq)
                  (by simpa using hpass)
              · cases hpass

/-- At most as many passes as requests; as many, when the peer ended the connection. -/
theorem length_serveAll (reqs : List RequestFields) : ∀ awd : Nat → Device,
    (serveAll service awd reqs).1.length ≤ reqs.length ∧
      ((serveAll service awd reqs).2 = .notConnected → (serveAll service awd reqs).1.length = reqs.length) := by
  induction reqs with
  | nil => exact fun _ => ⟨Nat.le_refl _, fun _ => rfl⟩
  | cons req reqs ih =>
      intro awd
      obtain ⟨hle, hall⟩ := ih fun k => awd (k + 1)
      rw [serveAll]
      cases passFor service (awd 0) req with
      | error f =>
          refine ⟨Nat.zero_le _, fun he => ?_⟩
          cases he
      | ok pass =>
          dsimp only
          split
          · exact ⟨Nat.succ_le_succ hle, fun he => congrArg (· + 1) (hall he)⟩
          · refine ⟨Nat.succ_le_succ (Nat.zero_le _), fun he => ?_⟩
            cases he

/-- Requests that are all answered and keep the connection open are all served. -/
theorem serveAll_open : ∀ {reqs : List RequestFields} {awd : Nat → Device},
    (∀ req ∈ reqs, req.isClose = false ∧ ∃ resp, service req = .ok resp) → (serveAll service awd reqs).2 = .notConnected
  | [], _, _ => rfl
  | req :: reqs, awd, h => by
      obtain ⟨hopen, resp, hresp⟩ := h req (by simp)
      have hrest : (serveAll service (fun k => awd (k + 1)) reqs).2 = .notConnected :=
        serveAll_open fun req' h' => h req' (by simp [h'])
      obtain ⟨res, hsend⟩ := exists_sendto resp (awd 0)
      have hpass : passFor service (awd 0) req = .ok ⟨resp, res.1, res.2, true⟩ := by
        refine bind_eq_ok.mpr ⟨resp, hresp, ?_⟩
        simp only [hopen, Bool.false_eq_true, if_false]
        exact bind_eq_ok.mpr ⟨res, hsend, rfl⟩
      rw [serveAll, hpass]
      exact hrest

end Passes

/-- What a client that reads at the beginning of `wire` finds: the head of `part`, and behind it `behind`. -/
def FoundAt (wire : Bytes) (part : ResponsePart) (behind : Bytes) : Prop :=
  ∀ (resp : Response) (r : Reader), resp.msg.WF → r.Live → resp.msg.windowBytes ++ r.data = wire →
    ∃ resp' r', resp.read r = some (none, resp', r') ∧ resp'.msg.WF ∧ r'.Live ∧
      resp'.msg.windowBytes ++ r'.data = behind ∧ ReadsBack resp' part

/-- The response that the call leaves, with the date and what a closing connection gets. -/
def finished (date : Bytes) (a : Asked) (r : ResponseBuilder) : ResponseBuilder :=
  let resp := r.setHeader (text "Date") date
  if a.fields.isClose then resp.setHeader (text "Connection") (text "close") else resp

section Answered

variable {date : Bytes} {ops : List (Setup H)} {a : Asked} {awd : Device} {pass : Pass}

/-- A pass on the fields is the pass on the request. -/
theorem passFor_asked (s : HttpService H) :
    passFor (s.answer run date) awd a.fields = servePass run date s awd a.requestHead := by
  rw [passFor, answer_asked, servePass]
  cases s.call run date a.requestHead with
  | error f => rfl
  | ok r => rfl

/-- **One pass**: the response of the call that decides, finished and sent. -/
theorem pass_spec (hpass : passFor ((ServiceBuilder.build ops).s.answer run date) awd a.fields = .ok pass) :
    ∃ r, (lastCall run ops a.requestHead).builder = .ok r ∧ pass.resp = finished date a r ∧
      pass.resp.sendto awd = .ok (pass.sent, pass.success) := by
  rw [passFor_asked] at hpass
  obtain ⟨⟨handler, resp⟩, hcall, hpass⟩ := bind_eq_ok.mp hpass
  obtain ⟨res, hsend, he⟩ := bind_eq_ok.mp hpass
  obtain rfl := Except.ok.inj he
  obtain ⟨r, hb, rfl⟩ := builder_of_call date hcall
  exact ⟨r, hb, rfl, hsend⟩

theorem finished_spec (hdate : HeaderFits (text "Date", date)) {r : ResponseBuilder} (hr : r.part.Readable) :
    (finished date a r).part.Readable ∧ (finished date a r).body = r.body ∧ (finished date a r).rawBody = r.rawBody ∧
      ∀ body, Framed (finished date a r).part body ↔ Framed r.part body := by
  have hclose : HeaderFits (text "Connection", text "close") := by decide
  have hdated : (r.setHeader (text "Date") date).part.Readable := hr.emplace hdate
  have hframed := framed_setHeader (show isContentLength (text "Date") = false by decide) date r
  unfold finished
  by_cases hc : a.fields.isClose = true
  · simp only [if_pos hc]
    refine ⟨hdated.emplace hclose, rfl, rfl, fun body => ?_⟩
    rw [framed_setHeader (show isContentLength (text "Connection") = false by decide), hframed]
  · simp only [if_neg hc]
    exact ⟨hdated, rfl, rfl, hframed⟩

end Answered

/-- **Requests in, responses out.**  For every row of requests that clients build, every delivery of their bytes, every
service and every device: the loop answers them in order, all of them unless one of them closes the connection or is
not covered.  When the sends succeed, a client that reads where the `k`-th response begins, in any delivery, finds the
response of the call that decides the `k`-th request, then its body, then the next response; and the head tells where
the body ends exactly when that call is framed. -/
theorem exchange_answers (A : Alloc) (run : H → HandleContext → Outcome) (date : Bytes) (ops : List (Setup H)) (awd : Nat → Device)
    (turns : Nat) (asked : List Asked) (bs : List RequestPartBuilder) (hbuild : asked.mapM (Asked.build turns) = some bs)
    (r : Reader) (hlive : r.Live) (hdata : r.data = bs.flatMap RequestPartBuilder.toString)
    (hdate : HeaderFits (text "Date", date)) (hrun : ReadableHandlers run) (hops : ReadableRedirects ops) :
    ∃ passes ending, serveStream ((ServiceBuilder.build ops).s.answer run date) A (asked.length + 1) awd (.init A) r =
        some (passes, ending) ∧
      passes.length ≤ asked.length ∧
      ((∀ a ∈ asked, Covered run ops a.requestHead ∧ a.fields.isClose = false) → passes.length = asked.length) ∧
      ((∀ p ∈ passes, p.success = true) → ∀ (k : Nat) (a : Asked) (pass : Pass), asked[k]? = some a →
        passes[k]? = some pass →
        ∃ resp, (lastCall run ops a.requestHead).builder = .ok resp ∧ pass.resp = finished date a resp ∧
          FoundAt ((passes.drop k).flatMap Pass.sent) pass.resp.part
            (resp.rawBody ++ (passes.drop (k + 1)).flatMap Pass.sent) ∧
          (Framed pass.resp.part resp.rawBody ↔ (lastCall run ops a.requestHead).Framed)) := by
  obtain ⟨heads, hbytes, hshown⟩ := exists_heads asked
  have hlen : heads.length = asked.length := by simpa using congrArg List.length hshown
  have hcut : CutOff [] := ⟨Request.plainHead, _, rfl, by decide⟩
  have hserve : serveStream ((ServiceBuilder.build ops).s.answer run date) A (asked.length + 1) awd (.init A) r =
      some (serveAll ((ServiceBuilder.build ops).s.answer run date) awd (heads.map OriginHead.fields)) :=
    serveStream_spec hcut heads (asked.length + 1) awd (by omega) (Request.wf_init A) hlive
      (by rw [List.append_nil, hbytes, ← flatMap_of_mapM_build hbuild, ← hdata]; rfl)
  rw [hshown] at hserve
  obtain ⟨hle, hall⟩ := @length_serveAll ((ServiceBuilder.build ops).s.answer run date) (asked.map Asked.fields) awd
  rw [List.length_map] at hle hall
  refine ⟨_, _, hserve, hle, fun hcov => hall (serveAll_open ?_), ?_⟩
  · -- a covered request is answered
    intro req hreq
    obtain ⟨a, ha, rfl⟩ := List.mem_map.mp hreq
    obtain ⟨hc, hopen⟩ := hcov a ha
    obtain ⟨⟨g, resp⟩, hcall⟩ := (exists_call_iff run date ops a.requestHead).mpr hc
    exact ⟨hopen, resp, by rw [answer_asked, hcall]; rfl⟩
  · intro hok k a pass ha hp
    have hreq : (asked.map Asked.fields)[k]? = some a.fields := by
      rw [List.getElem?_map, ha]
      rfl
    have hpass := passFor_of_serveAll hreq hp
    obtain ⟨resp, hb, hresp, hsend⟩ := pass_spec hpass
    have hreadable := readable_lastCall hrun hops a.requestHead
    obtain ⟨hbody, hiff⟩ := framed_builder_iff hreadable.textual hb
    obtain ⟨hread, hbody', hraw, hframed⟩ := finished_spec (a := a) hdate (readable_builder hreadable hb)
    refine ⟨resp, hb, hresp, ?_, by rw [hresp, hframed, hiff]⟩
    rw [← hresp] at hread hbody' hraw
    have hsuccess : pass.success = true := hok pass (List.mem_of_getElem? hp)
    obtain ⟨head, hhead, hsent⟩ := ResponseBuilder.sendto_ok (by rw [hbody', hbody]) hsend hsuccess
    intro c reader hwf hlive' hwire
    have hdrop : (serveAll ((ServiceBuilder.build ops).s.answer run date) awd (asked.map Asked.fields)).1.drop k =
        pass :: (serveAll ((ServiceBuilder.build ops).s.answer run date) awd (asked.map Asked.fields)).1.drop (k + 1) :=
      List.drop_eq_getElem?_toList_append.trans (by rw [hp]; rfl)
    refine hread.read hhead hwf hlive' ?_
    rw [hwire, hdrop, List.flatMap_cons]
    show pass.sent ++ _ = _
    rw [show pass.sent = head ++ pass.resp.rawBody from hsent, hraw, List.append_assoc]

/-- `GET /a?b` of a browser. -/
def askA : Asked where
  method := .get
  target := text "/a?b"
  version := .http11
  headers := [(text "Host", text "x")]
  slash := by decide
  target_ok := by decide
  version_ok := by decide
  headers_ok := by decide
  nodup := by decide
  fits := by decide

theorem covered_askA : Covered hello getOnly askA.requestHead := by
  have hcall : ((ServiceBuilder.build getOnly).s.call hello [] askA.requestHead).toBool = true := by decide
  apply (exists_call_iff hello [] getOnly askA.requestHead).mp
  cases h : (ServiceBuilder.build getOnly).s.call hello [] askA.requestHead with
  | ok r => exact ⟨r, rfl⟩
  | error f => rw [h] at hcall; cases hcall

/-- Two requests at once, byte by byte. -/
theorem exchange_hello : ∃ r passes ending,
    serveStream ((ServiceBuilder.build getOnly).s.answer hello (text "Thu, 01 Jan 1970 00:00:00 GMT"))
        libstdcpp 3 (fun _ => .perfect) (.init libstdcpp) r = some (passes, ending) ∧
      passes.length = 2 := by
  obtain ⟨b, hb, -⟩ := askA.exists_build 0
  have hbuild : [askA, askA].mapM (Asked.build 0) = some [b, b] := by simp [hb]
  have hrun : ReadableHandlers hello := by
    intro h ctx c hc
    obtain rfl := List.mem_singleton.mp hc
    show (text "hi").length < maxSize
    decide
  have hops : ReadableRedirects getOnly := by
    intro m path target hmem
    simp [getOnly] at hmem
  obtain ⟨passes, ending, hserve, -, hall, -⟩ := exchange_answers libstdcpp hello (text "Thu, 01 Jan 1970 00:00:00 GMT")
    getOnly (fun _ => .perfect) 0 [askA, askA] [b, b] hbuild
    ⟨[b, b].flatMap RequestPartBuilder.toString, fun _ _ => .ok 1, 0⟩ (fun _ size h => ⟨1, rfl, Nat.le_refl 1, h⟩) rfl
    (by decide) hrun hops
  refine ⟨_, passes, ending, hserve, hall ?_⟩
  intro a ha
  obtain rfl : a = askA := by simpa using ha
  exact ⟨covered_askA, by decide⟩

end NetCpp.Http
