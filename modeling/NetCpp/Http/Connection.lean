/-
# NetCpp.Http.Connection — `imm_serve_connection` and what delimits a response.

`include/xsl/asio/http/conn.h`.  The loop reads a request, calls the service, sends the response and goes on,
unless the request had `Connection: close`; a failed send is only logged, and the connection goes on behind what went
out of the response.  The client finds the end of a response by its `Content-Length`: only `resp` with a STRING BODY sets
one.

`lastCall` is the call on the context that decides the response (the handler's last, the status handler's last,
or one of the server's own); §3 says exactly for which of them the response is self-delimiting.
-/
import NetCpp.Http.Dispatch

namespace NetCpp.Http

open NetCpp.Lib

open ServiceBuilder (Setup)

/-! ## §1 — the loop. -/

/-- One pass of the loop, after a request was read. -/
structure Pass where
  /-- the response as it was sent -/
  resp : ResponseBuilder
  /-- the bytes that went out -/
  sent : Bytes
  /-- whether the send succeeded -/
  success : Bool
  /-- whether another request is read -/
  goesOn : Bool

/-- `req.get_header("Connection") == "close"`. -/
def RequestHead.isClose (req : RequestHead) : Bool := req.headers.lookup (text "Connection") == some (text "close")

variable {H : Type} (run : H → HandleContext → Outcome) (date : Bytes)

def servePass (s : HttpService H) (awd : Device) (req : RequestHead) : Except Fault Pass := do
  let (_, resp) ← s.call run date req
  let resp := if req.isClose then resp.setHeader (text "Connection") (text "close") else resp
  let res ← resp.sendto awd
  return ⟨resp, res.1, res.2, !req.isClose⟩

/-- `imm_serve_connection` on the requests that `read` gives one after another. -/
def serveConnection (s : HttpService H) (awd : Device) : List RequestHead → Except Fault (List Pass)
  | [] => .ok []
  | req :: reqs => do
      let pass ← servePass run date s awd req
      if pass.goesOn then return pass :: (← serveConnection s awd reqs) else return [pass]

/-! ## §2 — the end of a response. -/

/-- A decimal number, `none` for anything else. -/
def number (v : Bytes) : Option Nat :=
  let digits := v.map fun b => Char.ofNat b.toNat
  if v ≠ [] ∧ digits.all Char.isDigit then some (Nat.ofDigitChars 10 digits 0) else none

theorem ofNat_toUInt8 {c : Char} (h : c.isDigit = true) : Char.ofNat (c.toNat.toUInt8).toNat = c := by
  have hlt : c.toNat < 256 := by
    simp only [Char.isDigit, Bool.and_eq_true, decide_eq_true_eq] at h
    have := h.2
    simp [UInt32.le_iff_toNat_le] at this
    omega
  have hback : (c.toNat.toUInt8).toNat = c.toNat := by simp; omega
  rw [hback, Char.ofNat_toNat]

theorem number_decimal (n : Nat) : number (decimal n) = some n := by
  have hdigit : ∀ c ∈ Nat.toDigits 10 n, c.isDigit = true := fun c hc =>
    Nat.isDigit_of_mem_toDigits (by omega) (by omega) hc
  have hback : (decimal n).map (fun b => Char.ofNat b.toNat) = Nat.toDigits 10 n := by
    rw [decimal, List.map_map]
    exact (List.map_congr_left fun c hc => ofNat_toUInt8 (hdigit c hc)).trans (List.map_id _)
  have hne : decimal n ≠ [] := by
    rw [decimal, ne_eq, List.map_eq_nil_iff]
    exact Nat.toDigits_ne_nil
  have hall : (Nat.toDigits 10 n).all Char.isDigit = true := List.all_eq_true.mpr hdigit
  simp only [number, hback]
  rw [if_pos ⟨hne, hall⟩, Nat.ofDigitChars_ten_toDigits]

/-- Header names are compared without regard to case. -/
def isContentLength (key : Bytes) : Bool :=
  key.map (fun b => if 65 ≤ b ∧ b ≤ 90 then b + 32 else b) == text "content-length"

/-- There is a `Content-Length`, and every one of them is `n`. -/
def Announces (m : SmallHeaderMap) (n : Nat) : Prop :=
  (∃ e ∈ m.entries, isContentLength e.1 = true) ∧
    ∀ e ∈ m.entries, isContentLength e.1 = true → number e.2 = some n

/-- A status whose response has no body: 1xx, 204 and 304. -/
def noBody (status : Status) : Prop := (100 ≤ status ∧ status < 200) ∨ status = .noContent ∨ status = .notModified

/-- The head tells where the body ends. -/
def Framed (part : ResponsePart) (body : Bytes) : Prop :=
  Announces part.headers body.length ∨ (noBody part.statusCode ∧ body = [])

/-- The bytes sent are one head that tells where the body after it ends. -/
def Pass.SelfDelimiting (p : Pass) : Prop :=
  ∃ head body, p.resp.part.toString = .ok head ∧ p.sent = head ++ body ∧ Framed p.resp.part body

variable {m : SmallHeaderMap} {key value : Bytes}

theorem not_announces_empty (n : Nat) : ¬ Announces .empty n := by
  rintro ⟨⟨e, he, -⟩, -⟩
  cases he

theorem announces_emplace_of_ne (h : isContentLength key = false) (n : Nat) :
    Announces (m.emplace key value) n ↔ Announces m n := by
  have hmem : ∀ e, isContentLength e.1 = true → (e ∈ (m.emplace key value).entries ↔ e ∈ m.entries) := by
    intro e he
    rw [SmallHeaderMap.mem_emplace]
    constructor
    · rintro (hm | ⟨-, rfl⟩)
      · exact hm
      · rw [h] at he; cases he
    · exact .inl
  constructor
  · rintro ⟨⟨e, he, hk⟩, hall⟩
    exact ⟨⟨e, (hmem e hk).mp he, hk⟩, fun e he hk => hall e ((hmem e hk).mpr he) hk⟩
  · rintro ⟨⟨e, he, hk⟩, hall⟩
    exact ⟨⟨e, (hmem e hk).mpr he, hk⟩, fun e he hk => hall e ((hmem e hk).mp he) hk⟩

/-- What `resp` with a string body announces: its own length, when no header of the part says otherwise. -/
theorem announces_emplace_decimal (n : Nat) :
    Announces (m.emplace (text "Content-Length") (decimal n)) n ↔
      ∀ e ∈ m.entries, isContentLength e.1 = true → number e.2 = some n := by
  have hkey : isContentLength (text "Content-Length") = true := by decide
  constructor
  · rintro ⟨-, hall⟩ e he hk
    exact hall e (SmallHeaderMap.mem_emplace.mpr (.inl he)) hk
  · intro hall
    refine ⟨?_, fun e he hk => ?_⟩
    · by_cases hc : m.contains (text "Content-Length") = true
      · obtain ⟨e, he, hek⟩ := List.mem_map.mp (SmallHeaderMap.contains_iff.mp hc)
        exact ⟨e, SmallHeaderMap.mem_emplace.mpr (.inl he), by rw [hek]; exact hkey⟩
      · exact ⟨_, SmallHeaderMap.mem_emplace.mpr (.inr ⟨hc, rfl⟩), hkey⟩
    · rcases SmallHeaderMap.mem_emplace.mp he with he | ⟨-, rfl⟩
      · exact hall e he hk
      · exact number_decimal n

/-! ## §3 — the call that decides the response. -/

/-- A call without a self-writing body. -/
def Call.Textual : Call → Prop
  | .easyRespWith _ _ | .respWith _ _ => False
  | .easyResp _ | .easyRespText _ _ | .resp _ | .respText _ _ => True

/-- The response a call leaves. -/
def Call.builder : Call → Except Fault ResponseBuilder
  | .easyResp status => do return { part := ← ResponsePart.ofStatus .http11 status }
  | .easyRespText status body => do
      let part ← ResponsePart.ofStatus .http11 status
      return { part := { part with headers := part.headers.emplace (text "Content-Length") (decimal body.length) },
               rawBody := body }
  | .easyRespWith status body => do return { part := ← ResponsePart.ofStatus .http11 status, body := some body }
  | .resp part => .ok { part := part }
  | .respText part body =>
      .ok { part := { part with headers := part.headers.emplace (text "Content-Length") (decimal body.length) },
            rawBody := body }
  | .respWith part body => .ok { part := part, body := some body }

/-- The calls whose response is self-delimiting. -/
def Call.Framed : Call → Prop
  | .easyResp status => noBody status
  | .easyRespText _ _ => True
  | .resp part => Announces part.headers 0 ∨ noBody part.statusCode
  | .respText part body =>
      (∀ e ∈ part.headers.entries, isContentLength e.1 = true → number e.2 = some body.length) ∨
        (noBody part.statusCode ∧ body = [])
  | .easyRespWith _ _ | .respWith _ _ => False

theorem ofStatus_ok {version : Version} {status : Status} {part : ResponsePart}
    (h : ResponsePart.ofStatus version status = .ok part) : part.statusCode = status ∧ part.headers = .empty := by
  obtain ⟨str, -, he⟩ := bind_eq_ok.mp h
  obtain rfl := Except.ok.inj he
  exact ⟨rfl, rfl⟩

/-- The calls whose response is self-delimiting when `m` bytes of its body go out. -/
def Call.FramedAt (m : Nat) : Call → Prop
  | .easyResp status => noBody status
  | .easyRespText status body => body.length ≤ m ∨ (noBody status ∧ m = 0)
  | .resp part => Announces part.headers 0 ∨ noBody part.statusCode
  | .respText part body =>
      Announces (part.headers.emplace (text "Content-Length") (decimal body.length)) (min m body.length) ∨
        (noBody part.statusCode ∧ min m body.length = 0)
  | .easyRespWith _ _ | .respWith _ _ => False

/-- What `easy_resp` with a text announces. -/
theorem announces_own_length (n m : Nat) :
    Announces (SmallHeaderMap.empty.emplace (text "Content-Length") (decimal n)) m ↔ m = n := by
  have hself := (announces_emplace_decimal (m := .empty) n).mpr fun e he => by cases he
  constructor
  · intro h
    obtain ⟨⟨e, he, hk⟩, hall⟩ := hself
    exact Option.some.inj ((h.2 e he hk).symm.trans (hall e he hk))
  · rintro rfl
    exact hself

/-- **The response of a textual call**, cut behind `m` bytes of its body, is framed exactly when the call is. -/
theorem framedAt_builder_iff {c : Call} {r : ResponseBuilder} (hc : c.Textual) (h : c.builder = .ok r) :
    r.body = none ∧ ∀ m, (Framed r.part (r.rawBody.take m) ↔ c.FramedAt m) := by
  cases c with
  | easyRespWith status body => cases hc
  | respWith part body => cases hc
  | easyResp status =>
      obtain ⟨part, hp, he⟩ := bind_eq_ok.mp h
      obtain rfl := Except.ok.inj he
      obtain ⟨hs, hh⟩ := ofStatus_ok hp
      refine ⟨rfl, fun m => ?_⟩
      simp only [Http.Framed, hh, hs, not_announces_empty, false_or, List.take_nil, and_true, Call.FramedAt]
  | easyRespText status body =>
      obtain ⟨part, hp, he⟩ := bind_eq_ok.mp h
      obtain rfl := Except.ok.inj he
      obtain ⟨hs, hh⟩ := ofStatus_ok hp
      refine ⟨rfl, fun m => ?_⟩
      have hmin : min m body.length = body.length ↔ body.length ≤ m := by omega
      simp only [Http.Framed, Call.FramedAt, hh, hs, announces_own_length, List.length_take, hmin, List.take_eq_nil_iff]
      constructor
      · rintro (hle | ⟨hno, hm | rfl⟩)
        · exact .inl hle
        · exact .inr ⟨hno, hm⟩
        · exact .inl (Nat.zero_le m)
      · rintro (hle | ⟨hno, hm⟩)
        · exact .inl hle
        · exact .inr ⟨hno, .inl hm⟩
  | resp part =>
      obtain rfl := Except.ok.inj h
      exact ⟨rfl, fun m => by simp [Http.Framed, Call.FramedAt]⟩
  | respText part body =>
      obtain rfl := Except.ok.inj h
      refine ⟨rfl, fun m => ?_⟩
      simp only [Http.Framed, Call.FramedAt, List.length_take, ← List.length_eq_zero_iff]

/-- Of a response that goes out whole. -/
theorem framedAt_whole {c : Call} {r : ResponseBuilder} (h : c.builder = .ok r) :
    c.FramedAt r.rawBody.length ↔ c.Framed := by
  cases c with
  | easyRespWith status body | respWith part body => exact Iff.rfl
  | easyResp status | resp part => exact Iff.rfl
  | easyRespText status body =>
      obtain ⟨part, -, he⟩ := bind_eq_ok.mp h
      obtain rfl := Except.ok.inj he
      exact iff_of_true (.inl (Nat.le_refl _)) trivial
  | respText part body =>
      obtain rfl := Except.ok.inj h
      simp only [Call.FramedAt, Call.Framed, Nat.min_self, announces_emplace_decimal, List.length_eq_zero_iff]

theorem framed_builder_iff {c : Call} {r : ResponseBuilder} (hc : c.Textual) (h : c.builder = .ok r) :
    r.body = none ∧ (Framed r.part r.rawBody ↔ c.Framed) := by
  obtain ⟨hbody, hiff⟩ := framedAt_builder_iff hc h
  have hwhole := hiff r.rawBody.length
  rw [List.take_length, framedAt_whole h] at hwhole
  exact ⟨hbody, hwhole⟩

theorem response_of_apply {c : Call} {ctx ctx' : HandleContext} (h : c.apply ctx = .ok ctx') :
    ∃ r, c.builder = .ok r ∧ ctx'.response = some r := by
  cases c with
  | resp part => obtain rfl := Except.ok.inj h; exact ⟨_, rfl, rfl⟩
  | respText part body => obtain rfl := Except.ok.inj h; exact ⟨_, rfl, rfl⟩
  | respWith part body => obtain rfl := Except.ok.inj h; exact ⟨_, rfl, rfl⟩
  | easyResp status | easyRespText status body | easyRespWith status body =>
      obtain ⟨part, hp, he⟩ := bind_eq_ok.mp h
      obtain rfl := Except.ok.inj he
      exact ⟨_, bind_eq_ok.mpr ⟨part, hp, rfl⟩, rfl⟩

/-- **The last call decides**: the response in a context after a sequence of calls. -/
theorem response_of_foldlM {calls : List Call} {ctx ctx' : HandleContext}
    (h : calls.foldlM (fun c call => call.apply c) ctx = .ok ctx') :
    match calls.getLast? with
    | some c => ∃ r, c.builder = .ok r ∧ ctx'.response = some r
    | none => ctx' = ctx := by
  induction calls using List.reverseRecOn with
  | nil => exact (Except.ok.inj h).symm
  | append_singleton calls c _ =>
      rw [List.foldlM_append] at h
      obtain ⟨ctx1, -, h⟩ := bind_eq_ok.mp h
      obtain ⟨ctx2, hc, h⟩ := bind_eq_ok.mp h
      obtain rfl := Except.ok.inj h
      simpa using response_of_apply hc

/-- The response of a redirect. -/
def redirectPart (target : Bytes) : ResponsePart where
  statusCode := .movedPermanently
  statusMessage := text "Moved Permanently"
  version := .http11
  headers := SmallHeaderMap.empty.emplace (text "Location") target

/-- The calls a handler makes, the one of a redirect included. -/
def Handler.replies : Handler H → HandleContext → List Call
  | .user h, ctx => (run h ctx).calls
  | .redirect target, _ => [.resp (redirectPart target)]

/-- The calls made for the status a handler returns. -/
def statusReplies (ops : List (Setup H)) (h : Handler H) (ctx : HandleContext) : List Call :=
  match h.status run ctx with
  | none => []
  | some status =>
      match firstStatusHandler ops status, h.invoke run ctx with
      | none, _ => [.easyResp status]
      | some g, .ok (ctx', _) => g.replies run ctx'
      | some _, .error _ => []

/-- The call that decides the response to a request that is answered: 404 when no route matches, 500 when no
call was made. -/
def lastCall (ops : List (Setup H)) (req : RequestHead) : Call :=
  match matchedRoute ops req.path with
  | none => .easyResp .notFound
  | some (key, current) =>
      match selected ops key req.method with
      | none => .easyResp .internalServerError
      | some h =>
          (h.replies run ⟨current, req, none⟩ ++ statusReplies run ops h ⟨current, req, none⟩).getLast?.getD
            (.easyResp .internalServerError)

/-- What a sequence of calls leaves in a context. -/
def Leaves (calls : List Call) (ctx ctx' : HandleContext) : Prop :=
  match calls.getLast? with
  | some c => ∃ r, c.builder = .ok r ∧ ctx'.response = some r
  | none => ctx'.response = ctx.response

variable {run}

theorem Leaves.append {cs ds : List Call} {ctx ctx1 ctx' : HandleContext} (h1 : Leaves cs ctx ctx1)
    (h2 : Leaves ds ctx1 ctx') : Leaves (cs ++ ds) ctx ctx' := by
  unfold Leaves at *
  rw [List.getLast?_append]
  cases hd : ds.getLast? with
  | some c => simpa [hd] using h2
  | none =>
      rw [hd] at h2
      simp only [Option.none_or]
      cases hc : cs.getLast? with
      | some c => rw [hc] at h1; rw [h2]; exact h1
      | none => rw [hc] at h1; exact h2.trans h1

theorem leaves_invoke {h : Handler H} {ctx ctx' : HandleContext} {st : Option Status}
    (hi : h.invoke run ctx = .ok (ctx', st)) : Leaves (h.replies run ctx) ctx ctx' := by
  cases h with
  | user h =>
      obtain ⟨ctx1, hc, he⟩ := bind_eq_ok.mp hi
      obtain rfl : ctx1 = ctx' := congrArg Prod.fst (Except.ok.inj he)
      have := response_of_foldlM hc
      unfold Leaves Handler.replies
      cases hl : (run h ctx).calls.getLast? with
      | some c => rwa [hl] at this
      | none => rw [hl] at this; rw [this]
  | redirect target =>
      obtain ⟨part, hp, he⟩ := bind_eq_ok.mp hi
      have hpart : ResponsePart.ofStatus .http11 .movedPermanently =
          .ok ⟨.movedPermanently, text "Moved Permanently", .http11, .empty⟩ := rfl
      obtain rfl := Except.ok.inj (hpart.symm.trans hp)
      obtain rfl := congrArg Prod.fst (Except.ok.inj he)
      exact ⟨_, rfl, rfl⟩

theorem leaves_onStatus {ops : List (Setup H)} {h : Handler H} {ctx ctx1 ctx' : HandleContext}
    (hi : h.invoke run ctx = .ok (ctx1, h.status run ctx))
    (hs : (ServiceBuilder.build ops).s.onStatus run ctx1 (h.status run ctx) = .ok ctx') :
    Leaves (statusReplies run ops h ctx) ctx1 ctx' := by
  have hT := ServiceBuilder.tables_of_build ops
  unfold statusReplies
  cases hst : h.status run ctx with
  | none =>
      rw [hst] at hs
      obtain rfl := Except.ok.inj hs
      rfl
  | some status =>
      rw [hst] at hs hi
      simp only [HttpService.onStatus, hT.status] at hs
      cases hf : firstStatusHandler ops status with
      | none =>
          rw [hf] at hs
          simp only [hf]
          exact response_of_apply (c := .easyResp status) hs
      | some g =>
          rw [hf] at hs
          obtain ⟨⟨c, s⟩, hg, he⟩ := bind_eq_ok.mp hs
          obtain rfl := Except.ok.inj he
          simp only [hf, hi]
          exact leaves_invoke hg

theorem builder_of_checkout {calls : List Call} {ctx ctx' : HandleContext} {resp : ResponseBuilder}
    (hctx : ctx.response = none) (hl : Leaves calls ctx ctx') (h : ctx'.checkout date = .ok resp) :
    ∃ r, (calls.getLast?.getD (.easyResp .internalServerError)).builder = .ok r ∧
      resp = r.setHeader (text "Date") date := by
  obtain ⟨r, hr, he⟩ := bind_eq_ok.mp h
  refine ⟨r, ?_, (Except.ok.inj he).symm⟩
  unfold Leaves at hl
  unfold HandleContext.settled at hr
  cases hc : calls.getLast? with
  | some c =>
      rw [hc] at hl
      obtain ⟨r', hb, hr'⟩ := hl
      rw [hr'] at hr
      obtain rfl := Except.ok.inj hr
      exact hb
  | none =>
      rw [hc] at hl
      rw [hl, hctx] at hr
      exact hr

/-- **The last call decides the response** of an answered request; a date is added. -/
theorem builder_of_call {ops : List (Setup H)} {req : RequestHead} {handler : Option (Handler H)}
    {resp : ResponseBuilder} (h : (ServiceBuilder.build ops).s.call run date req = .ok (handler, resp)) :
    ∃ r, (lastCall run ops req).builder = .ok r ∧ resp = r.setHeader (text "Date") date := by
  unfold HttpService.call at h
  rw [route_build ops req.path] at h
  unfold lastCall
  cases hm : matchedRoute ops req.path with
  | none =>
      rw [hm] at h
      obtain ⟨ctx, hctx, h⟩ := bind_eq_ok.mp h
      obtain ⟨r, hr, he⟩ := bind_eq_ok.mp h
      obtain rfl := congrArg Prod.snd (Except.ok.inj he)
      have hl : Leaves [.easyResp .notFound] ⟨req.path.bytes, req, none⟩ ctx :=
        response_of_apply (c := .easyResp .notFound) hctx
      exact builder_of_checkout date rfl hl hr
  | some m =>
      obtain ⟨key, current⟩ := m
      rw [hm] at h
      obtain ⟨g, hfind, h⟩ := bind_eq_ok.mp h
      obtain ⟨⟨ctx, st⟩, hinv, h⟩ := bind_eq_ok.mp h
      obtain ⟨ctx', hst, h⟩ := bind_eq_ok.mp h
      obtain ⟨r, hr, he⟩ := bind_eq_ok.mp h
      obtain rfl := congrArg Prod.snd (Except.ok.inj he)
      obtain rfl := status_of_invoke hinv
      have hsel := (findHandler_build (registered_of_matchedRoute hm) _ g).mp hfind
      simp only [hsel]
      exact builder_of_checkout date rfl ((leaves_invoke hinv).append (leaves_onStatus hinv hst)) hr

/-! ## §4 — which responses are self-delimiting. -/

theorem framed_setHeader {key : Bytes} (h : isContentLength key = false) (value : Bytes) (r : ResponseBuilder)
    (body : Bytes) : Framed (r.setHeader key value).part body ↔ Framed r.part body := by
  show Announces (r.part.headers.emplace key value) _ ∨ _ ↔ _
  rw [announces_emplace_of_ne h]
  rfl

/-- How many bytes of the body go out behind the whole head; `none` when the head is cut off. -/
def Device.bodyTaken (awd : Device) (head raw : Bytes) : Option Nat :=
  if awd.vectored = true ∧ raw ≠ [] then
    if head.length ≤ (awd.accept 0 (head ++ raw)).1 then some ((awd.accept 0 (head ++ raw)).1 - head.length) else none
  else if (awd.accept 0 head).2 = true then some (if raw = [] then 0 else (awd.accept 1 raw).1)
  else if head.length ≤ (awd.accept 0 head).1 then some 0 else none

/-- A device that takes everything. -/
def Device.perfect : Device := ⟨true, fun _ data => (data.length, true), fun _ _ _ => rfl⟩

variable (run) in
/-- A handler that sets its response by text, or not at all. -/
def TextHandlers : Prop := ∀ h ctx, ∀ c ∈ (run h ctx).calls, c.Textual

theorem textual_replies (ht : TextHandlers run) (h : Handler H) (ctx : HandleContext) :
    ∀ c ∈ h.replies run ctx, c.Textual := by
  cases h with
  | user h => exact ht h ctx
  | redirect target =>
      intro c hc
      obtain rfl := List.mem_singleton.mp hc
      trivial

theorem textual_statusReplies (ht : TextHandlers run) (ops : List (Setup H)) (h : Handler H) (ctx : HandleContext) :
    ∀ c ∈ statusReplies run ops h ctx, c.Textual := by
  intro c hc
  unfold statusReplies at hc
  split at hc
  · cases hc
  · split at hc
    · obtain rfl := List.mem_singleton.mp hc
      trivial
    · exact textual_replies ht _ _ c hc
    · cases hc

theorem textual_lastCall (ht : TextHandlers run) (ops : List (Setup H)) (req : RequestHead) :
    (lastCall run ops req).Textual := by
  unfold lastCall
  split
  · trivial
  · split
    · trivial
    · rename_i h _
      cases hl : (h.replies run ⟨_, req, none⟩ ++ statusReplies run ops h ⟨_, req, none⟩).getLast? with
      | none => trivial
      | some c =>
          rcases List.mem_append.mp (List.mem_of_getLast? hl) with hc | hc
          · exact textual_replies ht _ _ c hc
          · exact textual_statusReplies ht _ _ _ c hc

/-- The response of a call, with its date: its head and its body, as `sendto` is given them. -/
def Call.message (date : Bytes) (c : Call) : Except Fault (Bytes × Bytes) := do
  let r ← c.builder
  let head ← (r.setHeader (text "Date") date).part.toString
  return (head, r.rawBody)

/-- **The device takes as much of the response as its head says.** -/
def Call.Taken (date : Bytes) (awd : Device) (c : Call) : Prop :=
  ∃ head raw m, c.message date = .ok (head, raw) ∧ awd.bodyTaken head raw = some m ∧ c.FramedAt m

/-- The pass of a request without `Connection: close`. -/
theorem pass_of_open {ops : List (Setup H)} {awd : Device} {req : RequestHead} {pass : Pass}
    (hopen : req.isClose = false) (h : servePass run date (ServiceBuilder.build ops).s awd req = .ok pass) :
    ∃ r sent, (lastCall run ops req).builder = .ok r ∧ (r.setHeader (text "Date") date).sendto awd = .ok sent ∧
      pass = ⟨r.setHeader (text "Date") date, sent.1, sent.2, true⟩ := by
  obtain ⟨⟨handler, resp⟩, hcall, hpass⟩ := bind_eq_ok.mp h
  obtain ⟨sent, hsend, he⟩ := bind_eq_ok.mp hpass
  obtain rfl := Except.ok.inj he
  simp only [hopen, Bool.false_eq_true, if_false] at hsend ⊢
  obtain ⟨r, hb, rfl⟩ := builder_of_call date hcall
  exact ⟨r, sent, hb, hsend, rfl⟩

theorem goesOn_of_servePass {s : HttpService H} {awd : Device} {req : RequestHead} {pass : Pass}
    (h : servePass run date s awd req = .ok pass) : pass.goesOn = !req.isClose := by
  obtain ⟨_, -, hpass⟩ := bind_eq_ok.mp h
  obtain ⟨_, -, he⟩ := bind_eq_ok.mp hpass
  obtain rfl := Except.ok.inj he
  rfl

theorem open_of_goesOn {s : HttpService H} {awd : Device} {req : RequestHead} {pass : Pass}
    (h : servePass run date s awd req = .ok pass) (hgo : pass.goesOn = true) : req.isClose = false := by
  rw [goesOn_of_servePass date h] at hgo
  simpa using hgo

/-- A handler that answers with a text. -/
def hello : Unit → HandleContext → Outcome := fun _ _ => ⟨[.easyRespText .ok (text "hi")], none⟩

/-- **A whole connection**: when the call that decides each response is framed, every response that the device took and
after which another request is read is self-delimiting. -/
theorem selfDelimiting_connection {ops : List (Setup H)} {awd : Device} (ht : TextHandlers run) :
    ∀ {reqs : List RequestHead} {passes : List Pass}, (∀ req ∈ reqs, (lastCall run ops req).Framed) →
      serveConnection run date (ServiceBuilder.build ops).s awd reqs = .ok passes →
      ∀ p ∈ passes, p.goesOn = true → p.success = true → p.SelfDelimiting
  | [], passes, _, h, p, hp, _, _ => by
      obtain rfl := Except.ok.inj h
      cases hp
  | req :: reqs, passes, hall, h, p, hp, hgo, hok => by
      obtain ⟨pass, hpass, h⟩ := bind_eq_ok.mp h
      have hfirst : pass.goesOn = true → pass.success = true → pass.SelfDelimiting := by
        intro hgo hok
        obtain ⟨r, sent, hb, hsend, rfl⟩ := pass_of_open date (open_of_goesOn date hpass hgo) hpass
        obtain ⟨hbody, hiff⟩ := framed_builder_iff (textual_lastCall ht ops req) hb
        have hbody' : (r.setHeader (text "Date") date).body = none := hbody
        obtain ⟨head, hhead, hsent⟩ := ResponseBuilder.sendto_ok hbody' hsend hok
        have hframed : Framed r.part r.rawBody := hiff.mpr (hall req (by simp))
        exact ⟨head, r.rawBody, hhead, hsent, (framed_setHeader (by decide) date r r.rawBody).mpr hframed⟩
      by_cases hg : pass.goesOn = true
      · rw [if_pos hg] at h
        obtain ⟨rest, hrest, he⟩ := bind_eq_ok.mp h
        obtain rfl := Except.ok.inj he
        rcases List.mem_cons.mp hp with rfl | hp
        · exact hfirst hgo hok
        · exact selfDelimiting_connection ht (fun r hr => hall r (by simp [hr])) hrest p hp hgo hok
      · rw [if_neg hg] at h
        obtain rfl := Except.ok.inj h
        obtain rfl := List.mem_singleton.mp hp
        exact hfirst hgo hok

end NetCpp.Http
