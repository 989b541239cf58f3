/-
# NetCpp.Http.Dispatch — when `HttpService::operator()` answers.

The way from a request to its handler, over the tables of `NetCpp.Http.Service`: the matched route is the exact
one or the deepest prefix, the handler the first for the method or for `UNKNOWN`.  Two things stop `operator()`:
the `rt_assert(false)` of a matched route without such a handler, and a reason phrase looked up for an
undeclared status.  `answers_iff` says that NOTHING else does.
-/
import NetCpp.Http.Service

namespace NetCpp.Http

open NetCpp.Lib

open ServiceBuilder (Setup)

variable {H : Type}

/-! ## §1 — the matched route. -/

/-- The deepest registered prefix: the last `k < n` with `p k`. -/
theorem find_reverse_range {p : Nat → Bool} {n k : Nat} :
    (List.range n).reverse.find? p = some k ↔ k < n ∧ p k = true ∧ ∀ j, k < j → j < n → p j = false := by
  induction n with
  | zero => simp
  | succ n ih =>
      rw [List.range_succ, List.reverse_append, List.reverse_singleton, List.singleton_append, List.find?_cons]
      cases hp : p n with
      | true =>
          simp only [Option.some.injEq]
          constructor
          · rintro rfl
            exact ⟨by omega, hp, fun j h1 h2 => by omega⟩
          · rintro ⟨hk, -, hmax⟩
            by_contra hne
            rw [hmax n (by omega) (by omega)] at hp
            cases hp
      | false =>
          rw [ih]
          constructor
          · rintro ⟨hk, hpk, hmax⟩
            refine ⟨by omega, hpk, fun j h1 h2 => ?_⟩
            by_cases hj : j = n
            · rw [hj]; exact hp
            · exact hmax j h1 (by omega)
          · rintro ⟨hk, hpk, hmax⟩
            have hne : k ≠ n := by rintro rfl; rw [hp] at hpk; cases hpk
            exact ⟨by omega, hpk, fun j h1 h2 => hmax j h1 (by omega)⟩

/-- The matched route and what is left of the path: the exact route, else the deepest prefix above the last
segment. -/
def matchedRoute (ops : List (Setup H)) (path : RoutePath) : Option (RouteKey × Bytes) :=
  let segs := segments path.bytes
  if Registered ops (.exact segs) then some (.exact segs, pathOf (segs.drop (segs.length - 1)))
  else
    ((List.range segs.length).reverse.find? fun k => Registered ops (.leading (segs.take k))).map fun k =>
      (.leading (segs.take k), pathOf (segs.drop k))

/-- `route` on the builder's tree finds the id of the matched route. -/
theorem route_build (ops : List (Setup H)) (path : RoutePath) :
    (ServiceBuilder.build ops).s.router.route path.bytes =
      match matchedRoute ops path with
      | some (key, current) => (some (ServiceBuilder.idAt (ServiceBuilder.build ops).s.router key), current)
      | none => (none, path.bytes) := by
  have hT := ServiceBuilder.tables_of_build ops
  obtain ⟨h1, h2, h3⟩ := routeGo_spec (segments path.bytes) path.bytes.length (ServiceBuilder.build ops).s.router
    (segments_ne_nil _) (plain_segments _) (length_segments_le path.slash)
  rw [pathOf_segments path.slash] at h1 h2 h3
  simp only [matchedRoute, Node.route]
  by_cases hex : Registered ops (.exact (segments path.bytes))
  · rw [if_pos hex]
    have hne := (hT.registered _).mpr hex
    simp only [ServiceBuilder.idAt] at hne ⊢
    cases hat : (ServiceBuilder.build ops).s.router.exactAt (segments path.bytes) with
    | none => simp [hat] at hne
    | some id => exact h1 id hat
  · rw [if_neg hex]
    have hnone : (ServiceBuilder.build ops).s.router.exactAt (segments path.bytes) = none := by
      have hz : ServiceBuilder.idAt (ServiceBuilder.build ops).s.router (.exact (segments path.bytes)) = 0 := by
        by_contra h0
        exact hex ((hT.registered _).mp h0)
      cases hat : (ServiceBuilder.build ops).s.router.exactAt (segments path.bytes) with
      | none => rfl
      | some id =>
          obtain rfl : id = 0 := by simpa [ServiceBuilder.idAt, hat] using hz
          exact absurd hat (hT.entry _)
    have hpre : ∀ k, (ServiceBuilder.build ops).s.router.prefixAt ((segments path.bytes).take k) ≠ 0 ↔
        Registered ops (.leading ((segments path.bytes).take k)) := fun k => hT.registered (.leading _)
    cases hf : (List.range (segments path.bytes).length).reverse.find? fun k =>
        Registered ops (.leading ((segments path.bytes).take k)) with
    | some k =>
        obtain ⟨hk, hreg, hmax⟩ := find_reverse_range.mp hf
        exact h2 hnone k hk ((hpre k).mpr (by simpa using hreg)) fun j hj hjl => by
          by_contra h0
          simpa [(hpre j).mp h0] using hmax j hj hjl
    | none =>
        refine h3 hnone fun k hk => ?_
        by_contra h0
        have := List.find?_eq_none.mp hf k (by simpa using hk)
        simp [(hpre k).mp h0] at this

/-! ## §2 — handlers that come back. -/

section Answers

variable (run : H → HandleContext → Outcome)

/-- The first handler for the route and the method, else for the route and `UNKNOWN`. -/
def selected (ops : List (Setup H)) (key : RouteKey) (method : Method) : Option (Handler H) :=
  (firstHandler ops key method).or (firstHandler ops key .unknown)

/-- The handler a request is for. -/
def handlerFor (ops : List (Setup H)) (req : RequestHead) : Option (Handler H) :=
  (matchedRoute ops req.path).bind fun m => selected ops m.1 req.method

/-- A call that reads the reason phrase of a declared status only. -/
def Call.Declared : Call → Prop
  | .easyResp status | .easyRespText status _ | .easyRespWith status _ => status ∈ Status.declared
  | .resp _ | .respText _ _ | .respWith _ _ => True

def Handler.calls : Handler H → HandleContext → List Call
  | .user h, ctx => (run h ctx).calls
  | .redirect _, _ => []

def Handler.status : Handler H → HandleContext → Option Status
  | .user h, ctx => (run h ctx).status
  | .redirect _, _ => none

/-- The handler's own calls read declared reason phrases only. -/
def Handler.Quiet (h : Handler H) (ctx : HandleContext) : Prop := ∀ c ∈ h.calls run ctx, c.Declared

/-- The handler's calls, and what is done with the status it returns, read declared reason phrases only. -/
def Harmless (ops : List (Setup H)) (h : Handler H) (ctx : HandleContext) : Prop :=
  h.Quiet run ctx ∧ ∀ status, h.status run ctx = some status →
    match firstStatusHandler ops status with
    | some g => ∀ ctx' st, h.invoke run ctx = .ok (ctx', st) → g.Quiet run ctx'
    | none => status ∈ Status.declared

theorem exists_ofStatus_iff (version : Version) (status : Status) :
    (∃ part, ResponsePart.ofStatus version status = .ok part) ↔ status ∈ Status.declared := by
  rw [← Status.exists_toReasonPhrase_iff]
  constructor
  · rintro ⟨part, h⟩
    obtain ⟨str, hs, -⟩ := bind_eq_ok.mp h
    exact ⟨str, hs⟩
  · rintro ⟨str, hs⟩
    exact ⟨_, bind_eq_ok.mpr ⟨str, hs, rfl⟩⟩

/-- What is built from `ofStatus` exists when the status is declared. -/
theorem exists_bind_ofStatus_iff {β : Type} (status : Status) (f : ResponsePart → β) :
    (∃ r, (do return f (← ResponsePart.ofStatus .http11 status) : Except Fault β) = .ok r) ↔
      status ∈ Status.declared := by
  rw [← exists_ofStatus_iff .http11]
  constructor
  · rintro ⟨r, h⟩
    obtain ⟨part, hp, -⟩ := bind_eq_ok.mp h
    exact ⟨part, hp⟩
  · rintro ⟨part, hp⟩
    exact ⟨_, bind_eq_ok.mpr ⟨part, hp, rfl⟩⟩

theorem exists_apply_iff (c : Call) (ctx : HandleContext) : (∃ ctx', c.apply ctx = .ok ctx') ↔ c.Declared := by
  cases c with
  | easyResp status => exact exists_bind_ofStatus_iff status fun part => { ctx with response := some { part := part } }
  | easyRespText status body => exact exists_bind_ofStatus_iff status fun part => ctx.respText part body
  | easyRespWith status body => exact exists_bind_ofStatus_iff status fun part => ctx.respWith part body
  | resp part => simp [Call.apply, Call.Declared]
  | respText part body => simp [Call.apply, Call.Declared]
  | respWith part body => simp [Call.apply, Call.Declared]

theorem exists_foldlM_iff (calls : List Call) (ctx : HandleContext) :
    (∃ ctx', calls.foldlM (fun c call => call.apply c) ctx = .ok ctx') ↔ ∀ c ∈ calls, c.Declared := by
  induction calls generalizing ctx with
  | nil => simp [pure, Except.pure]
  | cons c calls ih =>
      rw [List.foldlM_cons, List.forall_mem_cons, ← exists_apply_iff c ctx]
      constructor
      · rintro ⟨ctx', h⟩
        obtain ⟨ctx1, hc, hrest⟩ := bind_eq_ok.mp h
        exact ⟨⟨ctx1, hc⟩, (ih ctx1).mp ⟨ctx', hrest⟩⟩
      · rintro ⟨⟨ctx1, hc⟩, hrest⟩
        obtain ⟨ctx', h⟩ := (ih ctx1).mpr hrest
        exact ⟨ctx', bind_eq_ok.mpr ⟨ctx1, hc, h⟩⟩

variable {run}

/-- **A handler comes back** exactly when its calls are quiet, and then with its status. -/
theorem exists_invoke_iff (h : Handler H) (ctx : HandleContext) :
    (∃ ctx', h.invoke run ctx = .ok (ctx', h.status run ctx)) ↔ h.Quiet run ctx := by
  cases h with
  | user h =>
      rw [Handler.Quiet, Handler.calls, ← exists_foldlM_iff _ ctx]
      constructor
      · rintro ⟨ctx', hi⟩
        obtain ⟨ctx1, hc, -⟩ := bind_eq_ok.mp hi
        exact ⟨ctx1, hc⟩
      · rintro ⟨ctx1, hc⟩
        exact ⟨ctx1, bind_eq_ok.mpr ⟨ctx1, hc, rfl⟩⟩
  | redirect target =>
      constructor
      · intro _ c hc
        cases hc
      · intro _
        obtain ⟨part, hp⟩ := (exists_ofStatus_iff .http11 .movedPermanently).mpr (by decide)
        exact ⟨_, bind_eq_ok.mpr ⟨part, hp, rfl⟩⟩

theorem status_of_invoke {h : Handler H} {ctx ctx' : HandleContext} {st : Option Status}
    (hi : h.invoke run ctx = .ok (ctx', st)) : st = h.status run ctx := by
  cases h with
  | user h =>
      obtain ⟨ctx1, -, he⟩ := bind_eq_ok.mp hi
      exact (congrArg Prod.snd (Except.ok.inj he)).symm
  | redirect target =>
      obtain ⟨part, -, he⟩ := bind_eq_ok.mp hi
      exact (congrArg Prod.snd (Except.ok.inj he)).symm

theorem exists_checkout (date : Bytes) (ctx : HandleContext) : ∃ r, ctx.checkout date = .ok r := by
  cases hr : ctx.response with
  | some r => exact ⟨_, bind_eq_ok.mpr ⟨r, by rw [HandleContext.settled, hr], rfl⟩⟩
  | none =>
      obtain ⟨part, hp⟩ := (exists_ofStatus_iff .http11 .internalServerError).mpr (by decide)
      refine ⟨_, bind_eq_ok.mpr ⟨{ part := part }, ?_, rfl⟩⟩
      rw [HandleContext.settled, hr]
      exact bind_eq_ok.mpr ⟨part, hp, rfl⟩

/-! ## §3 — `operator()`. -/

theorem registered_of_matchedRoute {ops : List (Setup H)} {path : RoutePath} {key : RouteKey} {current : Bytes}
    (h : matchedRoute ops path = some (key, current)) : Registered ops key := by
  simp only [matchedRoute] at h
  split at h
  · rename_i hex
    simp only [Option.some.injEq, Prod.mk.injEq] at h
    rwa [← h.1]
  · obtain ⟨k, hk, he⟩ := Option.map_eq_some_iff.mp h
    have hreg := (find_reverse_range.mp hk).2.1
    simp only [Prod.mk.injEq] at he
    rw [← he.1]
    simpa using hreg

/-- The two look-ups of `operator()` find the selected handler. -/
theorem findHandler_build {ops : List (Setup H)} {key : RouteKey} (hreg : Registered ops key) (method : Method)
    (h : Handler H) :
    (ServiceBuilder.build ops).s.findHandler (ServiceBuilder.idAt (ServiceBuilder.build ops).s.router key) method =
      .ok h ↔ selected ops key method = some h := by
  have hT := ServiceBuilder.tables_of_build ops
  have hne := (hT.registered key).mpr hreg
  rw [HttpService.findHandler, hT.handlers key method hne, hT.handlers key .unknown hne, selected]
  cases firstHandler ops key method with
  | some g => simp
  | none => cases firstHandler ops key .unknown <;> simp

/-- What becomes of a returned status, with the tables of the builder. -/
theorem exists_onStatus_iff (ops : List (Setup H)) (ctx : HandleContext) (st : Option Status) :
    (∃ ctx', (ServiceBuilder.build ops).s.onStatus run ctx st = .ok ctx') ↔
      ∀ status, st = some status →
        match firstStatusHandler ops status with
        | some g => g.Quiet run ctx
        | none => status ∈ Status.declared := by
  have hT := ServiceBuilder.tables_of_build ops
  cases st with
  | none => simp [HttpService.onStatus]
  | some status =>
      simp only [HttpService.onStatus, hT.status, Option.some.injEq, forall_eq']
      cases firstStatusHandler ops status with
      | none => exact exists_bind_ofStatus_iff status fun part => { ctx with response := some { part := part } }
      | some g =>
          simp only [← exists_invoke_iff]
          constructor
          · rintro ⟨ctx', h⟩
            obtain ⟨⟨c, s⟩, hg, -⟩ := bind_eq_ok.mp h
            exact ⟨c, by rw [hg, status_of_invoke hg]⟩
          · rintro ⟨c, hg⟩
            exact ⟨c, bind_eq_ok.mpr ⟨_, hg, rfl⟩⟩

/-- What a matched route needs: a handler for the method of the request or for `UNKNOWN`, and that neither it
nor what is done with the status it returns reads the reason phrase of an undeclared code. -/
def Covered (run : H → HandleContext → Outcome) (ops : List (Setup H)) (req : RequestHead) : Prop :=
  ∀ key current, matchedRoute ops req.path = some (key, current) →
    ∃ h, selected ops key req.method = some h ∧ Harmless run ops h ⟨current, req, none⟩

/-- The handler that ran is the one the request is for. -/
theorem handler_of_call {ops : List (Setup H)} {req : RequestHead} {date : Bytes} {handler : Option (Handler H)}
    {resp : ResponseBuilder} (h : (ServiceBuilder.build ops).s.call run date req = .ok (handler, resp)) :
    handler = handlerFor ops req := by
  unfold HttpService.call at h
  rw [route_build ops req.path] at h
  unfold handlerFor
  cases hm : matchedRoute ops req.path with
  | none =>
      rw [hm] at h
      obtain ⟨ctx, -, h⟩ := bind_eq_ok.mp h
      obtain ⟨r, -, he⟩ := bind_eq_ok.mp h
      exact (congrArg Prod.fst (Except.ok.inj he)).symm
  | some m =>
      obtain ⟨key, current⟩ := m
      rw [hm] at h
      obtain ⟨g, hfind, h⟩ := bind_eq_ok.mp h
      obtain ⟨_, -, h⟩ := bind_eq_ok.mp h
      obtain ⟨_, -, h⟩ := bind_eq_ok.mp h
      obtain ⟨_, -, he⟩ := bind_eq_ok.mp h
      rw [Option.bind_some, (findHandler_build (registered_of_matchedRoute hm) _ g).mp hfind]
      exact (congrArg Prod.fst (Except.ok.inj he)).symm

/-- **`operator()` comes back** exactly when the request is covered. -/
theorem exists_call_iff (run : H → HandleContext → Outcome) (date : Bytes) (ops : List (Setup H)) (req : RequestHead) :
    (∃ r, (ServiceBuilder.build ops).s.call run date req = .ok r) ↔ Covered run ops req := by
  unfold HttpService.call Covered
  rw [route_build ops req.path]
  cases hm : matchedRoute ops req.path with
  | none =>
      simp only [reduceCtorEq, false_implies, implies_true, iff_true]
      obtain ⟨part, hp⟩ := (exists_ofStatus_iff .http11 .notFound).mpr (by decide)
      obtain ⟨r, hr⟩ := exists_checkout date ⟨req.path.bytes, req, some { part := part }⟩
      exact ⟨_, bind_eq_ok.mpr ⟨_, bind_eq_ok.mpr ⟨part, hp, rfl⟩, bind_eq_ok.mpr ⟨r, hr, rfl⟩⟩⟩
  | some m =>
      obtain ⟨key, current⟩ := m
      have hreg := registered_of_matchedRoute hm
      simp only [Option.some.injEq, Prod.mk.injEq, and_imp, forall_eq', forall_apply_eq_imp_iff]
      constructor
      · rintro ⟨resp, h⟩
        obtain ⟨handler, hfind, h⟩ := bind_eq_ok.mp h
        obtain ⟨⟨ctx, st⟩, hinv, h⟩ := bind_eq_ok.mp h
        obtain ⟨ctx', hst, -⟩ := bind_eq_ok.mp h
        obtain rfl := status_of_invoke hinv
        refine ⟨handler, (findHandler_build hreg _ handler).mp hfind, (exists_invoke_iff handler _).mp ⟨ctx, hinv⟩, ?_⟩
        intro status hs
        have := (exists_onStatus_iff ops ctx _).mp ⟨ctx', hst⟩ status hs
        cases hf : firstStatusHandler ops status with
        | none => rwa [hf] at this
        | some g =>
            rw [hf] at this
            intro c' s' hc'
            rw [hinv] at hc'
            cases hc'
            exact this
      · rintro ⟨handler, hsel, hquiet, hstatus⟩
        obtain ⟨ctx, hinv⟩ := (exists_invoke_iff handler _).mpr hquiet
        have hok : ∃ ctx', (ServiceBuilder.build ops).s.onStatus run ctx (handler.status run ⟨current, req, none⟩) =
            .ok ctx' := by
          apply (exists_onStatus_iff ops ctx _).mpr
          intro status hs
          have := hstatus status hs
          cases hf : firstStatusHandler ops status with
          | none => rwa [hf] at this
          | some g =>
              rw [hf] at this
              exact this ctx _ hinv
        obtain ⟨ctx', hst⟩ := hok
        obtain ⟨r, hr⟩ := exists_checkout date ctx'
        exact ⟨_, bind_eq_ok.mpr ⟨handler, (findHandler_build hreg _ handler).mpr hsel,
          bind_eq_ok.mpr ⟨_, hinv, bind_eq_ok.mpr ⟨ctx', hst, bind_eq_ok.mpr ⟨r, hr, rfl⟩⟩⟩⟩⟩

/-- `operator()` yields a response, and ran the handler the request is for. -/
def Answers (run : H → HandleContext → Outcome) (date : Bytes) (ops : List (Setup H)) (req : RequestHead) : Prop :=
  ∃ resp, (ServiceBuilder.build ops).s.call run date req = .ok (handlerFor ops req, resp)

/-- **Exactly the covered requests are answered.**  For every sequence of builder calls and every request: one
that no route matches is answered; one that a route matches is answered if and only if the route has a handler
for its method or for `UNKNOWN` and no undeclared code is looked up. -/
theorem answers_iff (run : H → HandleContext → Outcome) (date : Bytes) (ops : List (Setup H)) (req : RequestHead) :
    Answers run date ops req ↔ Covered run ops req := by
  rw [← exists_call_iff run date]
  constructor
  · rintro ⟨resp, h⟩
    exact ⟨_, h⟩
  · rintro ⟨⟨handler, resp⟩, h⟩
    obtain rfl := handler_of_call h
    exact ⟨resp, h⟩

/-- `GET /a` only, with a handler that returns a status. -/
def getOnly : List (Setup Unit) := [.addRoute .get ⟨text "/a", by decide⟩ ()]

/-- A request for `/a`. -/
def requestA (method : String) : RequestHead := ⟨text method, ⟨text "/a", by decide⟩, []⟩

/-- **A client can stop the server** with a method the route has no handler for; and so can a handler, with a
status that has no reason phrase. -/
theorem request_is_not_answered :
    ¬ Answers (fun _ _ => ⟨[], none⟩) [] getOnly (requestA "POST") ∧
    ¬ Answers (fun _ _ => ⟨[], some 299⟩) [] getOnly (requestA "GET") := by
  constructor
  · rintro ⟨resp, h⟩
    have hfail : ((ServiceBuilder.build getOnly).s.call (fun _ _ => ⟨[], none⟩) [] (requestA "POST")).toBool =
        false := by decide
    rw [h] at hfail
    cases hfail
  · rintro ⟨resp, h⟩
    have hfail : ((ServiceBuilder.build getOnly).s.call (fun _ _ => ⟨[], some 299⟩) [] (requestA "GET")).toBool =
        false := by decide
    rw [h] at hfail
    cases hfail

end Answers

end NetCpp.Http
