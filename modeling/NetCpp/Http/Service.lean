/-
# NetCpp.Http.Service — handlers, `ServiceBuilder` and `HttpService::operator()`.

`include/xsl/asio/http/service.h` with `context.h` and `component/redirect.h`.  The builder gives every
route an id through the reference the router returns, and keeps the handlers in one table over ids and
methods; `operator()` goes from the path to the id and from the id and the method (else `UNKNOWN`) to the
handler.  A status the handler returns goes to its status handler, else to `easy_resp`.

A handler is whatever it does: the calls it makes on its context and the status it returns, as a function
`run` of the context.  §3 says what the builder's tables hold after ANY sequence of calls.
-/
import NetCpp.Http.Response
import NetCpp.Http.Router

namespace NetCpp.Http

open NetCpp.Lib

/-! ## §1 — the context of a handler. -/

/-- A path with its leading slash, which `add_exact` and `add_prefix` assert. -/
structure RoutePath where
  bytes : Bytes
  slash : bytes.head? = some 47

/-- What is read of a `Request`. -/
structure RequestHead where
  token : Bytes
  path : RoutePath
  headers : List Header

/-- `line.method`. -/
def RequestHead.method (req : RequestHead) : Method := .fromStringView req.token

structure HandleContext where
  currentPath : Bytes
  request : RequestHead
  response : Option ResponseBuilder

namespace HandleContext

def easyResp (status : Status) (ctx : HandleContext) : Except Fault HandleContext := do
  return { ctx with response := some { part := ← ResponsePart.ofStatus .http11 status } }

def resp (part : ResponsePart) (ctx : HandleContext) : HandleContext :=
  { ctx with response := some { part := part } }

/-- `resp` with a self-writing body. -/
def respWith (part : ResponsePart) (body : Stream) (ctx : HandleContext) : HandleContext :=
  { ctx with response := some { part := part, body := some body } }

/-- `resp` with a string body. -/
def respText (part : ResponsePart) (body : Bytes) (ctx : HandleContext) : HandleContext :=
  let part := { part with headers := part.headers.emplace (text "Content-Length") (decimal body.length) }
  { ctx with response := some { part := part, rawBody := body } }

/-- The response at `checkout`: 500 when none was set. -/
def settled (ctx : HandleContext) : Except Fault ResponseBuilder :=
  match ctx.response with
  | some r => .ok r
  | none => do return { part := ← ResponsePart.ofStatus .http11 .internalServerError }

/-- `checkout`, with the date of `cached_date_string()`. -/
def checkout (date : Bytes) (ctx : HandleContext) : Except Fault ResponseBuilder := do
  return (← ctx.settled).setHeader (text "Date") date

end HandleContext

/-- A call on the context. -/
inductive Call
  | easyResp (status : Status)
  | easyRespText (status : Status) (body : Bytes)
  | easyRespWith (status : Status) (body : Stream)
  | resp (part : ResponsePart)
  | respText (part : ResponsePart) (body : Bytes)
  | respWith (part : ResponsePart) (body : Stream)

def Call.apply : Call → HandleContext → Except Fault HandleContext
  | .easyResp status, ctx => ctx.easyResp status
  | .easyRespText status body, ctx => do return ctx.respText (← ResponsePart.ofStatus .http11 status) body
  | .easyRespWith status body, ctx => do return ctx.respWith (← ResponsePart.ofStatus .http11 status) body
  | .resp part, ctx => .ok (ctx.resp part)
  | .respText part body, ctx => .ok (ctx.respText part body)
  | .respWith part body, ctx => .ok (ctx.respWith part body)

/-- The calls of a handler and the status it returns. -/
structure Outcome where
  calls : List Call
  status : Option Status

/-- A handler of the application, or the one `redirect` makes. -/
inductive Handler (H : Type)
  | user (h : H)
  | redirect (target : Bytes)
deriving DecidableEq

variable {H : Type}

/-- Call a handler. -/
def Handler.invoke (run : H → HandleContext → Outcome) :
    Handler H → HandleContext → Except Fault (HandleContext × Option Status)
  | .user h, ctx => do return (← (run h ctx).calls.foldlM (fun c call => call.apply c) ctx, (run h ctx).status)
  | .redirect target, ctx => do
      let part ← ResponsePart.ofStatus .http11 .movedPermanently
      return (ctx.resp { part with headers := part.headers.emplace (text "Location") target }, none)

/-! ## §2 — the service and its builder. -/

structure HttpService (H : Type) where
  router : Node Nat
  handlers : List ((Nat × Method) × Handler H)
  statusHandlers : List (Status × Handler H)

/-- The handler for the id and the method, else for the id and `UNKNOWN`. -/
def HttpService.findHandler (s : HttpService H) (hid : Nat) (method : Method) : Except Fault (Handler H) :=
  match s.handlers.lookup (hid, method) with
  | some handler => .ok handler
  | none =>
      match s.handlers.lookup (hid, .unknown) with
      | some handler => .ok handler
      | none => .error (.assertion
          (text "No handler found for id: " ++ decimal hid ++ text ", method: " ++ method.toStringView))

/-- What becomes of the status a handler returned. -/
def HttpService.onStatus (run : H → HandleContext → Outcome) (s : HttpService H) (ctx : HandleContext) :
    Option Status → Except Fault HandleContext
  | none => .ok ctx
  | some status =>
      match s.statusHandlers.lookup status with
      | some g => do return (← g.invoke run ctx).1
      | none => ctx.easyResp status

/-- `operator()`: the handler it runs, if any, and the response. -/
def HttpService.call (run : H → HandleContext → Outcome) (date : Bytes) (s : HttpService H) (req : RequestHead) :
    Except Fault (Option (Handler H) × ResponseBuilder) :=
  match s.router.route req.path.bytes with
  | (none, current) => do
      let ctx ← HandleContext.easyResp .notFound ⟨current, req, none⟩
      return (none, ← ctx.checkout date)
  | (some hid, current) => do
      let handler ← s.findHandler hid req.method
      let (ctx, status) ← handler.invoke run ⟨current, req, none⟩
      let ctx ← s.onStatus run ctx status
      return (some handler, ← ctx.checkout date)

structure ServiceBuilder (H : Type) where
  s : HttpService H
  id : Nat

namespace ServiceBuilder

def init : ServiceBuilder H := ⟨⟨.empty, [], []⟩, 1⟩

/-- A call on the builder. -/
inductive Setup (H : Type)
  | addRoute (method : Method) (path : RoutePath) (h : H)
  | addPrefix (path : RoutePath) (h : H)
  | redirect (method : Method) (path : RoutePath) (target : Bytes)
  | setStatusHandler (kind : Status) (h : H)

/-- `try_update_id` on the id behind the reference. -/
def tryUpdateId (b : ServiceBuilder H) (id : Nat) : Nat := if id = 0 then b.id else id

/-- `add_handler`: `router` holds the updated id, and `id` is what the reference reads. -/
def addHandler (b : ServiceBuilder H) (router : Node Nat) (id : Nat) (handler : Handler H) (method : Method) :
    ServiceBuilder H where
  s := { b.s with
    router := router
    handlers := tryEmplace (b.tryUpdateId id, method) handler b.s.handlers }
  id := if id = 0 then b.id + 1 else b.id

/-- `add_handler(s.router.add_exact(path), ...)`. -/
def addExactHandler (b : ServiceBuilder H) (path : RoutePath) (handler : Handler H) (method : Method) :
    ServiceBuilder H :=
  b.addHandler (b.s.router.addExact path.bytes b.tryUpdateId)
    ((b.s.router.exactAt (segments path.bytes)).getD 0) handler method

def addPrefixHandler (b : ServiceBuilder H) (path : RoutePath) (handler : Handler H) (method : Method) :
    ServiceBuilder H :=
  b.addHandler (b.s.router.addPrefix path.bytes b.tryUpdateId)
    (b.s.router.prefixAt (prefixSegs (segments path.bytes))) handler method

def step (b : ServiceBuilder H) : Setup H → ServiceBuilder H
  | .addRoute method path h => b.addExactHandler path (.user h) method
  | .addPrefix path h => b.addPrefixHandler path (.user h) .unknown
  | .redirect method path target => b.addExactHandler path (.redirect target) method
  | .setStatusHandler kind h =>
      { b with s := { b.s with statusHandlers := tryEmplace kind (.user h) b.s.statusHandlers } }

def build (ops : List (Setup H)) : ServiceBuilder H := ops.foldl step init

end ServiceBuilder

/-! ## §3 — what the tables hold. -/

/-- A route: the segments it is registered under. -/
inductive RouteKey
  | exact (segs : List Bytes)
  | leading (segs : List Bytes)
deriving DecidableEq

open ServiceBuilder (Setup)

/-- The route, method and handler a builder call registers. -/
def Setup.route : Setup H → Option (RouteKey × Method × Handler H)
  | .addRoute method path h => some (.exact (segments path.bytes), method, .user h)
  | .addPrefix path h => some (.leading (prefixSegs (segments path.bytes)), .unknown, .user h)
  | .redirect method path target => some (.exact (segments path.bytes), method, .redirect target)
  | .setStatusHandler _ _ => none

/-- The first handler registered for a route and a method. -/
def firstHandler (ops : List (Setup H)) (key : RouteKey) (method : Method) : Option (Handler H) :=
  ((ops.filterMap Setup.route).find? fun r => r.1 = key ∧ r.2.1 = method).map fun r => r.2.2

/-- Whether a route is registered, with any method. -/
def Registered (ops : List (Setup H)) (key : RouteKey) : Prop := ∃ r ∈ ops.filterMap Setup.route, r.1 = key

instance (ops : List (Setup H)) (key : RouteKey) : Decidable (Registered ops key) :=
  inferInstanceAs (Decidable (∃ r ∈ ops.filterMap Setup.route, r.1 = key))

/-- The first handler set for a status. -/
def firstStatusHandler (ops : List (Setup H)) (status : Status) : Option (Handler H) :=
  (ops.filterMap fun
    | .setStatusHandler kind h => if kind = status then some (.user h) else none
    | _ => none).head?

namespace ServiceBuilder

/-- The id of a route in the tree, 0 for none. -/
def idAt (router : Node Nat) : RouteKey → Nat
  | .exact segs => (router.exactAt segs).getD 0
  | .leading segs => router.prefixAt segs

/-- The builder's tables hold the registrations. -/
structure Tables (ops : List (Setup H)) (b : ServiceBuilder H) : Prop where
  pos : 0 < b.id
  /-- no exact entry is left with the default id -/
  entry : ∀ segs, b.s.router.exactAt segs ≠ some 0
  registered : ∀ key, idAt b.s.router key ≠ 0 ↔ Registered ops key
  lt : ∀ key, idAt b.s.router key < b.id
  injective : ∀ key key', idAt b.s.router key ≠ 0 → idAt b.s.router key = idAt b.s.router key' → key = key'
  handlers : ∀ key method, idAt b.s.router key ≠ 0 →
    b.s.handlers.lookup (idAt b.s.router key, method) = firstHandler ops key method
  unused : ∀ id method, b.id ≤ id → b.s.handlers.lookup (id, method) = none
  status : ∀ status, b.s.statusHandlers.lookup status = firstStatusHandler ops status

theorem addHandler_id (b : ServiceBuilder H) (router : Node Nat) (id : Nat) (handler : Handler H) (method : Method) :
    (b.addHandler router id handler method).id = if id = 0 then b.id + 1 else b.id := rfl

theorem tables_init : Tables ([] : List (Setup H)) init where
  pos := Nat.one_pos
  entry := by simp [init]
  registered key := by cases key <;> simp [idAt, init, Registered]
  lt key := by cases key <;> simp [idAt, init]
  injective key key' h := by cases key <;> simp [idAt, init] at h
  handlers key method h := by cases key <;> simp [idAt, init] at h
  unused id method _ := by simp [init]
  status status := by simp [init, firstStatusHandler]

section Step

variable {ops : List (Setup H)} {op : Setup H} {b : ServiceBuilder H} {key : RouteKey} {method : Method}
  {handler : Handler H}

theorem registered_append (hop : Setup.route op = some (key, method, handler)) (k : RouteKey) :
    Registered (ops ++ [op]) k ↔ Registered ops k ∨ k = key := by
  simp only [Registered, List.filterMap_append, List.filterMap_cons, hop, List.filterMap_nil, List.mem_append,
    List.mem_singleton]
  constructor
  · rintro ⟨r, hr | rfl, rfl⟩
    · exact .inl ⟨r, hr, rfl⟩
    · exact .inr rfl
  · rintro (⟨r, hr, rfl⟩ | rfl)
    · exact ⟨r, .inl hr, rfl⟩
    · exact ⟨_, .inr rfl, rfl⟩

theorem firstHandler_append (hop : Setup.route op = some (key, method, handler)) (k : RouteKey) (m : Method) :
    firstHandler (ops ++ [op]) k m =
      (firstHandler ops k m).or (if key = k ∧ method = m then some handler else none) := by
  simp only [firstHandler, List.filterMap_append, List.filterMap_cons, hop, List.filterMap_nil, List.find?_append]
  cases hf : (ops.filterMap Setup.route).find? fun r => r.1 = k ∧ r.2.1 = m with
  | some r => simp
  | none => by_cases hk : key = k ∧ method = m <;> simp [hk]

theorem firstHandler_of_not_registered (h : ¬ Registered ops key) (m : Method) : firstHandler ops key m = none := by
  have : ((ops.filterMap Setup.route).find? fun r => r.1 = key ∧ r.2.1 = m) = none := by
    rw [List.find?_eq_none]
    intro r hr hk
    simp only [decide_eq_true_eq] at hk
    exact h ⟨r, hr, hk.1⟩
  rw [firstHandler, this]; rfl

theorem firstStatusHandler_append (hop : Setup.route op = some (key, method, handler)) (st : Status) :
    firstStatusHandler (ops ++ [op]) st = firstStatusHandler ops st := by
  cases op with
  | setStatusHandler kind h => cases hop
  | _ => simp [firstStatusHandler, List.filterMap_append]

/-- **One registration keeps the tables.**  The route has its old id or takes the next one, and the first
handler for a method stays. -/
theorem tables_addHandler (h : Tables ops b) (hop : Setup.route op = some (key, method, handler))
    {router : Node Nat} (hentry : ∀ segs, router.exactAt segs ≠ some 0)
    (hat : ∀ k, idAt router k =
      if k = key then b.tryUpdateId (idAt b.s.router key) else idAt b.s.router k) :
    Tables (ops ++ [op]) (b.addHandler router (idAt b.s.router key) handler method) := by
  have hpos := h.pos
  -- the id of the route after the call
  have hnew : b.tryUpdateId (idAt b.s.router key) ≠ 0 := by
    unfold tryUpdateId; split <;> omega
  have hold : ∀ k, k ≠ key → idAt router k = idAt b.s.router k := fun k hk => by rw [hat k, if_neg hk]
  have hkey : idAt router key = b.tryUpdateId (idAt b.s.router key) := by rw [hat key, if_pos rfl]
  have hne : ∀ k, k ≠ key → idAt b.s.router k ≠ 0 → idAt b.s.router k ≠ b.tryUpdateId (idAt b.s.router key) := by
    intro k hk hk0 he
    unfold tryUpdateId at he
    split at he
    · exact absurd (h.lt k) (by omega)
    · exact hk (h.injective k key hk0 he)
  constructor
  case pos => rw [addHandler_id]; split <;> omega
  case entry => exact hentry
  case registered =>
    intro k
    rw [registered_append hop]
    by_cases hk : k = key
    · subst hk
      simp only [or_true, iff_true]
      show idAt router _ ≠ 0
      rw [hkey]; exact hnew
    · show idAt router k ≠ 0 ↔ _
      rw [hold k hk, h.registered k]
      simp [hk]
  case lt =>
    intro k
    rw [addHandler_id]
    show idAt router k < _
    have hlt := h.lt k
    have hltk := h.lt key
    by_cases hk : k = key
    · subst hk
      rw [hkey, tryUpdateId]
      split <;> omega
    · rw [hold k hk]
      split <;> omega
  case injective =>
    intro k k' h0 he
    change idAt router k ≠ 0 at h0
    change idAt router k = idAt router k' at he
    by_cases hk : k = key <;> by_cases hk' : k' = key
    · rw [hk, hk']
    · subst hk
      rw [hkey, hold k' hk'] at he
      exact absurd he.symm (hne k' hk' (by rw [← he]; exact hnew))
    · subst hk'
      rw [hold k hk] at h0 he
      rw [hkey] at he
      exact absurd he (hne k hk h0)
    · rw [hold k hk] at h0 he
      rw [hold k' hk'] at he
      exact h.injective k k' h0 he
  case handlers =>
    intro k m h0
    change idAt router k ≠ 0 at h0
    show (tryEmplace _ _ _).lookup (idAt router k, m) = _
    rw [firstHandler_append hop]
    by_cases hk : k = key
    · subst hk
      -- the handlers of this route before the call
      have hbefore : ∀ m', b.s.handlers.lookup (b.tryUpdateId (idAt b.s.router k), m') = firstHandler ops k m' := by
        intro m'
        by_cases hz : idAt b.s.router k = 0
        · rw [firstHandler_of_not_registered (fun hr => (h.registered k).mpr hr hz), tryUpdateId, if_pos hz]
          exact h.unused b.id m' (Nat.le_refl b.id)
        · rw [tryUpdateId, if_neg hz]
          exact h.handlers k m' hz
      rw [hkey]
      by_cases hm : m = method
      · subst hm
        rw [tryEmplace, lookup_alter_self, hbefore]
        cases firstHandler ops k m <;> simp
      · have hpair : (b.tryUpdateId (idAt b.s.router k), m) ≠ (b.tryUpdateId (idAt b.s.router k), method) := by
          simpa using hm
        rw [tryEmplace, lookup_alter_of_ne hpair, hbefore, if_neg (fun he => hm he.2.symm), Option.or_none]
    · rw [hold k hk] at h0 ⊢
      have hpair : (idAt b.s.router k, m) ≠ (b.tryUpdateId (idAt b.s.router key), method) := by
        intro he
        exact hne k hk h0 (congrArg Prod.fst he)
      rw [tryEmplace, lookup_alter_of_ne hpair, h.handlers k m h0, if_neg (fun he => hk he.1.symm), Option.or_none]
  case unused =>
    intro id m hle
    rw [addHandler_id] at hle
    show (tryEmplace _ _ _).lookup (id, m) = none
    have hlt := h.lt key
    have hpair : (id, m) ≠ (b.tryUpdateId (idAt b.s.router key), method) := by
      intro he
      have hid := congrArg Prod.fst he
      simp only [tryUpdateId] at hid
      split at hid <;> split at hle <;> omega
    rw [tryEmplace, lookup_alter_of_ne hpair]
    exact h.unused id m (by split at hle <;> omega)
  case status =>
    intro st
    rw [firstStatusHandler_append hop]
    exact h.status st

end Step

theorem tables_addExactHandler {ops : List (Setup H)} {op : Setup H} {b : ServiceBuilder H} {path : RoutePath}
    {method : Method} {handler : Handler H} (h : Tables ops b)
    (hop : Setup.route op = some (.exact (segments path.bytes), method, handler)) :
    Tables (ops ++ [op]) (b.addExactHandler path handler method) := by
  obtain ⟨he, hp⟩ := addExact_spec path.slash b.tryUpdateId b.s.router
  have hpos := h.pos
  apply tables_addHandler h hop
  · intro segs
    rw [he]
    split
    · simp only [tryUpdateId, ne_eq, Option.some.injEq]
      split <;> omega
    · exact h.entry segs
  · intro k
    cases k with
    | exact segs =>
        simp only [idAt, he, RouteKey.exact.injEq]
        split
        · rfl
        · rfl
    | leading segs => simp only [idAt, hp, reduceCtorEq, if_false]

theorem tables_addPrefixHandler {ops : List (Setup H)} {op : Setup H} {b : ServiceBuilder H} {path : RoutePath}
    {method : Method} {handler : Handler H} (h : Tables ops b)
    (hop : Setup.route op = some (.leading (prefixSegs (segments path.bytes)), method, handler)) :
    Tables (ops ++ [op]) (b.addPrefixHandler path handler method) := by
  obtain ⟨he, hp⟩ := addPrefix_spec path.slash b.tryUpdateId b.s.router
  apply tables_addHandler h hop
  · intro segs
    rw [he]; exact h.entry segs
  · intro k
    cases k with
    | exact segs => simp only [idAt, he, reduceCtorEq, if_false]
    | leading segs => simp only [idAt, hp, RouteKey.leading.injEq]

/-- **The tables hold the registrations**, after any sequence of builder calls. -/
theorem tables_of_build (ops : List (Setup H)) : Tables ops (build ops) := by
  induction ops using List.reverseRecOn with
  | nil => exact tables_init
  | append_singleton ops op ih =>
      have hstep : build (ops ++ [op]) = (build ops).step op := by simp [build]
      rw [hstep]
      cases op with
      | addRoute method path h => exact tables_addExactHandler ih rfl
      | addPrefix path h => exact tables_addPrefixHandler ih rfl
      | redirect method path target => exact tables_addExactHandler ih rfl
      | setStatusHandler kind h =>
          have hroutes : (ops ++ [Setup.setStatusHandler kind h]).filterMap Setup.route =
              ops.filterMap Setup.route := by
            simp [List.filterMap_append, Setup.route]
          constructor
          case pos => exact ih.pos
          case entry => exact ih.entry
          case registered => intro k; rw [Registered, hroutes]; exact ih.registered k
          case lt => exact ih.lt
          case injective => exact ih.injective
          case handlers => intro k m h0; rw [firstHandler, hroutes]; exact ih.handlers k m h0
          case unused => exact ih.unused
          case status =>
            intro st
            show (tryEmplace _ _ _).lookup st = _
            have happ : firstStatusHandler (ops ++ [Setup.setStatusHandler kind h]) st =
                (firstStatusHandler ops st).or (if kind = st then some (.user h) else none) := by
              simp only [firstStatusHandler, List.filterMap_append, List.head?_append]
              by_cases hk : kind = st <;> simp [hk]
            rw [happ]
            by_cases hk : st = kind
            · subst hk
              rw [tryEmplace, lookup_alter_self, ih.status]
              cases firstStatusHandler ops st <;> simp
            · rw [tryEmplace, lookup_alter_of_ne hk, ih.status, if_neg (Ne.symm hk), Option.or_none]

end ServiceBuilder

end NetCpp.Http
