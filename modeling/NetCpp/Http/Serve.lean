/-
# NetCpp.Http.Serve — does a connection always leave the handler map?

`include/xsl/asio/http/conn.h` with `service.h` and `io.h`.  The map of the `IOContext` has a reference to the
device, so its descriptor stays open until `deregister()`; `imm_serve_connection` calls it ONCE, behind the loop.
`co_await service(req, ard)` and `co_await resp.sendto(awd)` rethrow what the coroutine under them threw, and
there is no `try`: an exception leaves the function in front of the call.

A failed `rt_assert` terminates the program and a read outside a table has no meaning; both are a `fault`, after
which nothing is claimed.
-/
import NetCpp.Http.Connection
import NetCpp.Http.Head

namespace NetCpp.Http

open NetCpp.Lib

/-! ## §1 — handlers that throw. -/

/-- What ends a call before it returns. -/
inductive Abort
  | threw (what : Bytes)
  | fault (f : Fault)

/-- A call that throws nothing. -/
def quiet {α : Type} : Except Fault α → Except Abort α
  | .ok a => .ok a
  | .error f => .error (.fault f)

variable {H : Type}

/-- Call a handler, which may throw. -/
def Handler.attempt (run : H → HandleContext → Except Bytes Outcome) :
    Handler H → HandleContext → Except Abort (HandleContext × Option Status)
  | .user h, ctx =>
      match run h ctx with
      | .error what => .error (.threw what)
      | .ok outcome => quiet ((Handler.user h).invoke (fun _ _ => outcome) ctx)
  | .redirect target, ctx => quiet ((Handler.redirect target).invoke (fun (_ : H) _ => ⟨[], none⟩) ctx)

/-- What becomes of the status a handler returned. -/
def HttpService.attemptStatus (run : H → HandleContext → Except Bytes Outcome) (s : HttpService H)
    (ctx : HandleContext) : Option Status → Except Abort HandleContext
  | none => .ok ctx
  | some status =>
      match s.statusHandlers.lookup status with
      | some g => do return (← g.attempt run ctx).1
      | none => quiet (ctx.easyResp status)

/-- `operator()` with handlers that may throw. -/
def HttpService.attempt (run : H → HandleContext → Except Bytes Outcome) (date : Bytes) (s : HttpService H)
    (req : RequestHead) : Except Abort ResponseBuilder :=
  match s.router.route req.path.bytes with
  | (none, current) => quiet do
      let ctx ← HandleContext.easyResp .notFound ⟨current, req, none⟩
      ctx.checkout date
  | (some hid, current) => do
      let handler ← quiet (s.findHandler hid req.method)
      let (ctx, status) ← handler.attempt run ⟨current, req, none⟩
      let ctx ← s.attemptStatus run ctx status
      quiet (ctx.checkout date)

theorem quiet_bind {α β : Type} (x : Except Fault α) (f : α → Except Fault β) :
    quiet (x >>= f) = quiet x >>= fun a => quiet (f a) := by
  cases x <;> rfl

theorem map_snd_bind {α β γ : Type} (x : Except Fault α) (f : α → Except Fault (β × γ)) :
    (x >>= f).map Prod.snd = x >>= fun a => (f a).map Prod.snd := by
  cases x <;> rfl

/-- **Without exceptions this is the service** that answers requests. -/
theorem attempt_of_no_throw (run : H → HandleContext → Outcome) (date : Bytes) (s : HttpService H) (req : RequestHead) :
    s.attempt (fun h ctx => .ok (run h ctx)) date req = quiet ((s.call run date req).map Prod.snd) := by
  have hinvoke : ∀ (h : Handler H) (ctx : HandleContext),
      h.attempt (fun h ctx => .ok (run h ctx)) ctx = quiet (h.invoke run ctx) := by
    intro h ctx
    cases h with
    | user h => rfl
    | redirect target => rfl
  unfold HttpService.attempt HttpService.call
  generalize s.router.route req.path.bytes = r
  obtain ⟨hid, current⟩ := r
  cases hid with
  | none =>
      simp only [map_snd_bind]
      rfl
  | some hid =>
      simp only [map_snd_bind, quiet_bind, hinvoke]
      congr 1
      funext h
      congr 1
      funext p
      have hstatus : s.attemptStatus (fun h ctx => .ok (run h ctx)) p.1 p.2 = quiet (s.onStatus run p.1 p.2) := by
        unfold HttpService.attemptStatus HttpService.onStatus
        cases p.2 with
        | none => rfl
        | some status =>
            simp only
            cases s.statusHandlers.lookup status with
            | none => rfl
            | some g =>
                simp only [hinvoke]
                cases g.invoke run p.1 <;> rfl
      rw [hstatus]
      congr 1
      funext ctx
      cases ctx.checkout date <;> rfl

/-- `sendto` comes to the self-writing body. -/
def ResponseBuilder.reachesBody (r : ResponseBuilder) (awd : Device) : Bool :=
  r.rawBody == [] && r.body.isSome &&
    match r.head with
    | .ok head => (awd.write 0 head).2
    | .error _ => false

/-! ## §2 — the loop and the handler map. -/

/-- An operation of other devices, or of the poller, on the map. -/
inductive MapOp
  | add (fd device : Nat)
  | erase (fd : Nat)
  | clear
deriving DecidableEq, Repr

/-- The device of the connection and the map; `none` in the map is this device. -/
structure ConnDevice where
  raw : Nat
  /-- `ctx_ != nullptr` -/
  bound : Bool
  handlers : List (Nat × Option Nat)

namespace ConnDevice

/-- The device is registered among others. -/
def start (raw : Nat) (others : List (Nat × Nat)) : ConnDevice where
  raw := raw
  bound := true
  handlers := insertOrAssign raw none (others.map fun e => (e.1, some e.2))

def apply (c : ConnDevice) : MapOp → ConnDevice
  | .add fd device => { c with handlers := insertOrAssign fd (some device) c.handlers }
  | .erase fd => { c with handlers := eraseKey fd c.handlers }
  | .clear => { c with handlers := [] }

def deregister (c : ConnDevice) : ConnDevice :=
  if c.bound then { c with handlers := eraseKey c.raw c.handlers, bound := false } else c

/-- No entry of the map is this device. -/
def Left (c : ConnDevice) : Prop := ∀ fd, c.handlers.lookup fd ≠ some none

/-- The device stands under its own descriptor only. -/
def Own (c : ConnDevice) : Prop := ∀ fd, c.handlers.lookup fd = some none → fd = c.raw

end ConnDevice

/-- What `co_await req.read(ard)` gives, what happened to the map until then, and what the self-writing body of the
response throws, if it is asked to write. -/
structure ReadResult where
  others : List MapOp
  read : Except Errc RequestHead
  bodyThrows : Option Bytes

inductive Ending
  | waiting
  | returned
  | left (a : Abort)

variable (run : H → HandleContext → Except Bytes Outcome) (date : Bytes)

/-- The response with the header that a closing connection gets. -/
def closing (req : RequestHead) (resp : ResponseBuilder) : ResponseBuilder :=
  if req.isClose then resp.setHeader (text "Connection") (text "close") else resp

/-- One pass of the loop, from the request to the end of the send. -/
def attemptPass (s : HttpService H) (awd : Device) (req : RequestHead) (bodyThrows : Option Bytes) :
    Except Abort (Bytes × Bool) := do
  let resp ← s.attempt run date req
  let res ← quiet ((closing req resp).sendto awd)
  match bodyThrows with
  | none => return res
  | some what => if (closing req resp).reachesBody awd then .error (.threw what) else return res

/-- `imm_serve_connection`. -/
def immServeConnection (s : HttpService H) (awd : Device) :
    List ReadResult → ConnDevice → ConnDevice × Ending
  | [], c => (c, .waiting)
  | r :: rs, c =>
      let c := r.others.foldl ConnDevice.apply c
      match r.read with
      | .error _ => (c.deregister, .returned)
      | .ok req =>
          match attemptPass run date s awd req r.bodyThrows with
          | .error a => (c, .left a)
          | .ok _ => if req.isClose then (c.deregister, .returned) else immServeConnection s awd rs c

/-- A pass without exceptions sends what `servePass` sends. -/
theorem attemptPass_of_no_throw (run : H → HandleContext → Outcome) (date : Bytes) (s : HttpService H) (awd : Device)
    (req : RequestHead) :
    attemptPass (fun h ctx => .ok (run h ctx)) date s awd req none =
      quiet ((servePass run date s awd req).map fun pass => (pass.sent, pass.success)) := by
  rw [attemptPass, attempt_of_no_throw, servePass]
  cases s.call run date req with
  | error f => rfl
  | ok p =>
      show (quiet ((closing req p.2).sendto awd) >>= fun res => pure res) =
        quiet ((((closing req p.2).sendto awd) >>= fun res => pure (Pass.mk (closing req p.2) res.1 res.2 !req.isClose)).map
          fun pass => (pass.sent, pass.success))
      cases (closing req p.2).sendto awd with
      | error f => rfl
      | ok res => rfl

/-- Requests that are read one after the other, while nothing else happens. -/
def plainReads (reqs : List RequestHead) : List ReadResult := reqs.map fun req => ⟨[], .ok req, none⟩

/-- **Without exceptions this is the loop** of `serveConnection`: a fault ends both, and a request with
`Connection: close` is the last of both. -/
theorem immServeConnection_of_no_throw (run : H → HandleContext → Outcome) (date : Bytes) (s : HttpService H)
    (awd : Device) (reqs : List RequestHead) (c : ConnDevice) :
    (∀ f, serveConnection run date s awd reqs = .error f →
      immServeConnection (fun h ctx => .ok (run h ctx)) date s awd (plainReads reqs) c = (c, .left (.fault f))) ∧
    ∀ passes, serveConnection run date s awd reqs = .ok passes →
      immServeConnection (fun h ctx => .ok (run h ctx)) date s awd (plainReads reqs) c =
        if ∃ pass ∈ passes, pass.goesOn = false then (c.deregister, .returned) else (c, .waiting) := by
  induction reqs with
  | nil =>
      refine ⟨nofun, ?_⟩
      rintro passes ⟨⟩
      simp [plainReads, immServeConnection]
  | cons req reqs ih =>
      have hstep : immServeConnection (fun h ctx => .ok (run h ctx)) date s awd (plainReads (req :: reqs)) c =
          match quiet ((servePass run date s awd req).map fun pass => (pass.sent, pass.success)) with
          | .error a => (c, .left a)
          | .ok _ => if req.isClose then (c.deregister, .returned) else
              immServeConnection (fun h ctx => .ok (run h ctx)) date s awd (plainReads reqs) c := by
        rw [← attemptPass_of_no_throw]
        rfl
      cases hpass : servePass run date s awd req with
      | error f =>
          rw [hpass] at hstep
          have hserve : serveConnection run date s awd (req :: reqs) = .error f := by rw [serveConnection, hpass]; rfl
          rw [hstep, hserve]
          constructor
          · rintro f' ⟨⟩
            rfl
          · exact nofun
      | ok pass =>
          rw [hpass] at hstep
          have hgo : pass.goesOn = !req.isClose := goesOn_of_servePass date hpass
          have hserve : serveConnection run date s awd (req :: reqs) =
              if pass.goesOn then (serveConnection run date s awd reqs).map (pass :: ·) else .ok [pass] := by
            rw [serveConnection, hpass]
            rfl
          rw [hstep, hserve]
          cases hclose : req.isClose with
          | true =>
              rw [hclose] at hgo
              simp [hgo, quiet, Except.map]
          | false =>
              rw [hclose] at hgo
              simp only [hgo, quiet, Except.map, Bool.not_false, if_true, Bool.false_eq_true, if_false]
              cases hrest : serveConnection run date s awd reqs with
              | error f =>
                  rw [ih.1 f hrest]
                  constructor
                  · rintro f' ⟨⟩
                    rfl
                  · exact nofun
              | ok passes =>
                  rw [ih.2 passes hrest]
                  refine ⟨nofun, ?_⟩
                  rintro passes' ⟨⟩
                  simp [hgo]

/-! ## §3 — where an exception comes from. -/

/-- The handler throws on this context. -/
def Handler.Throws : Handler H → HandleContext → Prop
  | .user h, ctx => ∃ what, run h ctx = .error what
  | .redirect _, _ => False

/-- The ways in which a pass throws: the handler, the handler of the status it returned, or the body. -/
inductive PassThrows (s : HttpService H) (awd : Device) (req : RequestHead) (bodyThrows : Option Bytes) : Prop
  | handler {hid : Nat} {current : Bytes} {h : Handler H} (hroute : s.router.route req.path.bytes = (some hid, current))
      (hfind : s.findHandler hid req.method = .ok h) (hthrows : h.Throws run ⟨current, req, none⟩)
  | status {hid : Nat} {current : Bytes} {h : Handler H} (hroute : s.router.route req.path.bytes = (some hid, current))
      (hfind : s.findHandler hid req.method = .ok h) {ctx : HandleContext} {st : Status}
      (hinvoke : h.attempt run ⟨current, req, none⟩ = .ok (ctx, some st)) {g : Handler H}
      (hstatus : s.statusHandlers.lookup st = some g) (hthrows : g.Throws run ctx)
  | body {resp : ResponseBuilder} (hresp : s.attempt run date req = .ok resp) {what : Bytes}
      (hbody : bodyThrows = some what) (hreach : (closing req resp).reachesBody awd = true)

/-- A pass that is made throws. -/
inductive Escapes (s : HttpService H) (awd : Device) : List ReadResult → Prop
  | here {r : ReadResult} {rs : List ReadResult} {req : RequestHead} (hread : r.read = .ok req)
      (hthrows : PassThrows run date s awd req r.bodyThrows) : Escapes s awd (r :: rs)
  | later {r : ReadResult} {rs : List ReadResult} {req : RequestHead} (hread : r.read = .ok req) {res : Bytes × Bool}
      (hpass : attemptPass run date s awd req r.bodyThrows = .ok res) (hopen : req.isClose = false)
      (hlater : Escapes s awd rs) : Escapes s awd (r :: rs)

variable {run date} {s : HttpService H} {awd : Device} {req : RequestHead} {bodyThrows : Option Bytes}

@[simp] theorem quiet_ne_threw {α : Type} (x : Except Fault α) (what : Bytes) : quiet x ≠ .error (.threw what) := by
  cases x with
  | error f => exact nofun
  | ok a => exact nofun

theorem quiet_eq_ok {α : Type} {x : Except Fault α} {a : α} : quiet x = .ok a ↔ x = .ok a := by
  cases x with
  | error f => simp [quiet]
  | ok b => simp [quiet]

theorem exists_sendto (r : ResponseBuilder) (awd : Device) : ∃ res, r.sendto awd = .ok res := by
  obtain ⟨head, hhead⟩ := r.part.exists_toString
  simp only [ResponseBuilder.sendto, ResponseBuilder.head_eq, hhead, pure, Except.pure, bind, Except.bind]
  split
  · split
    · exact ⟨_, rfl⟩
    · split <;> exact ⟨_, rfl⟩
  · split
    · exact ⟨_, rfl⟩
    · split <;> exact ⟨_, rfl⟩

theorem handler_threw_iff (h : Handler H) (ctx : HandleContext) :
    (∃ what, h.attempt run ctx = .error (.threw what)) ↔ h.Throws run ctx := by
  cases h with
  | redirect target => simp [Handler.attempt, Handler.Throws]
  | user h =>
      unfold Handler.attempt Handler.Throws
      cases hr : run h ctx with
      | error what => simp [hr]
      | ok outcome => simp [hr]

theorem status_threw_iff (ctx : HandleContext) (st : Option Status) :
    (∃ what, s.attemptStatus run ctx st = .error (.threw what)) ↔
      ∃ status g, st = some status ∧ s.statusHandlers.lookup status = some g ∧ g.Throws run ctx := by
  cases st with
  | none => simp [HttpService.attemptStatus]
  | some status =>
      unfold HttpService.attemptStatus
      cases hg : s.statusHandlers.lookup status with
      | none => simp [hg]
      | some g =>
          have hbind : ∀ what, (do return (← g.attempt run ctx).1 : Except Abort HandleContext) = .error (.threw what) ↔
              g.attempt run ctx = .error (.threw what) := by
            intro what
            rw [bind_eq_error]
            simp [pure, Except.pure]
          simp only [hg, hbind, handler_threw_iff]
          constructor
          · exact fun ht => ⟨status, g, rfl, hg, ht⟩
          · rintro ⟨_, g', ⟨⟩, hg', ht⟩
            obtain rfl : g = g' := Option.some.inj (hg.symm.trans hg')
            exact ht

/-- **The service throws** what the handler it found throws, or the handler of the status. -/
theorem service_threw_iff :
    (∃ what, s.attempt run date req = .error (.threw what)) ↔
      ∃ hid current h, s.router.route req.path.bytes = (some hid, current) ∧ s.findHandler hid req.method = .ok h ∧
        (h.Throws run ⟨current, req, none⟩ ∨ ∃ ctx st g, h.attempt run ⟨current, req, none⟩ = .ok (ctx, some st) ∧
          s.statusHandlers.lookup st = some g ∧ g.Throws run ctx) := by
  unfold HttpService.attempt
  cases hroute : s.router.route req.path.bytes with
  | mk hid current =>
      cases hid with
      | none => simp
      | some hid =>
          simp only [bind_eq_error, quiet_ne_threw, false_or, or_false, and_false, exists_false]
          constructor
          · rintro ⟨what, h, hfind, hthrows | ⟨⟨ctx, st⟩, hinvoke, hthrows⟩⟩
            · have hfind' : s.findHandler hid req.method = .ok h := quiet_eq_ok.mp hfind
              exact ⟨hid, current, h, rfl, hfind', .inl ((handler_threw_iff h _).mp ⟨what, hthrows⟩)⟩
            · have hfind' : s.findHandler hid req.method = .ok h := quiet_eq_ok.mp hfind
              obtain ⟨status, g, rfl, hg, ht⟩ := (status_threw_iff ctx st).mp ⟨what, hthrows⟩
              exact ⟨hid, current, h, rfl, hfind', .inr ⟨ctx, status, g, hinvoke, hg, ht⟩⟩
          · rintro ⟨_, _, h, ⟨⟩, hfind, hthrows | ⟨ctx, st, g, hinvoke, hg, hthrows⟩⟩
            · obtain ⟨what, ht⟩ := (handler_threw_iff h _).mpr hthrows
              exact ⟨what, h, quiet_eq_ok.mpr hfind, .inl ht⟩
            · obtain ⟨what, ht⟩ := (status_threw_iff ctx (some st)).mpr ⟨st, g, rfl, hg, hthrows⟩
              exact ⟨what, h, quiet_eq_ok.mpr hfind, .inr ⟨(ctx, some st), hinvoke, ht⟩⟩

/-- **A pass throws** in one of the ways listed. -/
theorem pass_threw_iff :
    (∃ what, attemptPass run date s awd req bodyThrows = .error (.threw what)) ↔
      PassThrows run date s awd req bodyThrows := by
  unfold attemptPass
  constructor
  · rintro ⟨what, h⟩
    rcases bind_eq_error.mp h with hserve | ⟨resp, hresp, h⟩
    · obtain ⟨hid, current, h, hroute, hfind, hthrows | ⟨ctx, st, g, hinvoke, hg, hthrows⟩⟩ :=
        service_threw_iff.mp ⟨what, hserve⟩
      · exact .handler hroute hfind hthrows
      · exact .status hroute hfind hinvoke hg hthrows
    · rcases bind_eq_error.mp h with hsend | ⟨res, -, h⟩
      · exact absurd hsend (quiet_ne_threw _ _)
      · cases bodyThrows with
        | none => cases h
        | some what' =>
            simp only at h
            split at h
            · rename_i hreach
              exact .body hresp rfl hreach
            · cases h
  · intro h
    cases h with
    | handler hroute hfind hthrows =>
        obtain ⟨what, h⟩ := service_threw_iff.mpr ⟨_, _, _, hroute, hfind, .inl hthrows⟩
        exact ⟨what, bind_eq_error.mpr (.inl h)⟩
    | status hroute hfind hinvoke hg hthrows =>
        obtain ⟨what, h⟩ := service_threw_iff.mpr ⟨_, _, _, hroute, hfind, .inr ⟨_, _, _, hinvoke, hg, hthrows⟩⟩
        exact ⟨what, bind_eq_error.mpr (.inl h)⟩
    | @body resp hresp what hbody hreach =>
        obtain ⟨res, hsend⟩ := exists_sendto (closing req resp) awd
        refine ⟨what, bind_eq_error.mpr (.inr ⟨resp, hresp, bind_eq_error.mpr (.inr ⟨res, ?_, ?_⟩)⟩)⟩
        · exact quiet_eq_ok.mpr hsend
        · rw [hbody]
          simp only [hreach, if_true]

/-! ## §4 — the map when the task ends. -/

namespace ConnDevice

variable {c : ConnDevice}

@[simp] theorem apply_raw (op : MapOp) : (c.apply op).raw = c.raw := by cases op <;> rfl

@[simp] theorem apply_bound (op : MapOp) : (c.apply op).bound = c.bound := by cases op <;> rfl

theorem Own.start (raw : Nat) (others : List (Nat × Nat)) : (ConnDevice.start raw others).Own := by
  intro fd h
  rcases lookup_insertOrAssign_some h with ⟨rfl, -⟩ | ⟨-, h⟩
  · rfl
  · obtain ⟨e, -, he⟩ := List.mem_map.mp (mem_of_lookup h)
    cases he

/-- Nobody else puts this device in the map. -/
theorem Own.apply (h : c.Own) (op : MapOp) : (c.apply op).Own := by
  intro fd hfd
  rw [apply_raw]
  cases op with
  | add fd' device =>
      rcases lookup_insertOrAssign_some hfd with ⟨-, he⟩ | ⟨-, hfd⟩
      · cases he
      · exact h fd hfd
  | erase fd' => exact h fd (lookup_eraseKey_some hfd).1
  | clear => cases hfd

theorem Own.foldl (h : c.Own) (ops : List MapOp) :
    (ops.foldl ConnDevice.apply c).Own ∧ (ops.foldl ConnDevice.apply c).bound = c.bound := by
  induction ops generalizing c with
  | nil => exact ⟨h, rfl⟩
  | cons op ops ih =>
      obtain ⟨h1, h2⟩ := ih (h.apply op)
      exact ⟨h1, h2.trans (apply_bound op)⟩

/-- **`deregister()` takes the device out of the map.** -/
theorem Own.deregister (h : c.Own) (hb : c.bound = true) : c.deregister.bound = false ∧ c.deregister.Left := by
  unfold ConnDevice.deregister
  rw [if_pos hb]
  refine ⟨rfl, ?_⟩
  intro fd hfd
  obtain ⟨hl, hne⟩ := lookup_eraseKey_some hfd
  exact hne (h fd hl)

end ConnDevice

/-- A run of the task ends, by a return or by an exception, with the device deregistered. -/
def EndsDeregistered (run : H → HandleContext → Except Bytes Outcome) (date : Bytes) (s : HttpService H) (awd : Device)
    (reads : List ReadResult) (c : ConnDevice) : Prop :=
  ((immServeConnection run date s awd reads c).2 = .returned ∨
      ∃ what, (immServeConnection run date s awd reads c).2 = .left (.threw what)) →
    (immServeConnection run date s awd reads c).1.bound = false ∧ (immServeConnection run date s awd reads c).1.Left

/-- What a pass says about the exceptions of a run that begins with it. -/
theorem escapes_cons_iff {r : ReadResult} {rs : List ReadResult} {req : RequestHead} (hread : r.read = .ok req) :
    Escapes run date s awd (r :: rs) ↔
      (∃ what, attemptPass run date s awd req r.bodyThrows = .error (.threw what)) ∨
        (∃ res, attemptPass run date s awd req r.bodyThrows = .ok res) ∧ req.isClose = false ∧
          Escapes run date s awd rs := by
  rw [pass_threw_iff]
  constructor
  · intro h
    cases h with
    | here hread' hthrows =>
        obtain rfl := Except.ok.inj (hread.symm.trans hread')
        exact .inl hthrows
    | later hread' hpass hopen hlater =>
        obtain rfl := Except.ok.inj (hread.symm.trans hread')
        exact .inr ⟨⟨_, hpass⟩, hopen, hlater⟩
  · rintro (hthrows | ⟨⟨res, hpass⟩, hopen, hlater⟩)
    · exact .here hread hthrows
    · exact .later hread hpass hopen hlater

/-- **A run leaves the device registered exactly when a pass of it throws.** -/
theorem endsDeregistered_iff_of_own (reads : List ReadResult) {c : ConnDevice} (hown : c.Own) (hb : c.bound = true) :
    EndsDeregistered run date s awd reads c ↔ ¬ Escapes run date s awd reads := by
  induction reads generalizing c with
  | nil =>
      constructor
      · intro _ h
        cases h
      · rintro - (h | ⟨what, h⟩) <;> cases h
  | cons r rs ih =>
      obtain ⟨hown', hb'⟩ := hown.foldl r.others
      rw [hb] at hb'
      cases hread : r.read with
      | error ec =>
          have hrun : immServeConnection run date s awd (r :: rs) c =
              ((r.others.foldl ConnDevice.apply c).deregister, .returned) := by simp only [immServeConnection, hread]
          unfold EndsDeregistered
          rw [hrun]
          refine ⟨fun _ h => ?_, fun _ _ => hown'.deregister hb'⟩
          cases h with
          | here hr _ => rw [hread] at hr; cases hr
          | later hr _ _ _ => rw [hread] at hr; cases hr
      | ok req =>
          rw [escapes_cons_iff hread]
          cases hpass : attemptPass run date s awd req r.bodyThrows with
          | error a =>
              have hrun : immServeConnection run date s awd (r :: rs) c =
                  (r.others.foldl ConnDevice.apply c, .left a) := by simp only [immServeConnection, hread, hpass]
              unfold EndsDeregistered
              rw [hrun]
              cases a with
              | threw what =>
                  -- the exception passes the loop, and the call behind it
                  refine ⟨fun h => ?_, fun h => absurd (.inl ⟨what, rfl⟩) h⟩
                  have := (h (.inr ⟨what, rfl⟩)).1
                  rw [hb'] at this
                  cases this
              | fault f =>
                  refine ⟨fun _ => ?_, fun _ h => ?_⟩
                  · rintro (⟨what, h⟩ | ⟨⟨res, h⟩, -⟩) <;> cases h
                  · rcases h with h | ⟨what, h⟩ <;> cases h
          | ok res =>
              have hnot : ¬ ∃ what, (Except.ok res : Except Abort (Bytes × Bool)) = .error (.threw what) := by simp
              by_cases hclose : req.isClose = true
              · have hrun : immServeConnection run date s awd (r :: rs) c =
                    ((r.others.foldl ConnDevice.apply c).deregister, .returned) := by
                  simp only [immServeConnection, hread, hpass, hclose, if_true]
                unfold EndsDeregistered
                rw [hrun, hclose]
                refine ⟨fun _ => ?_, fun _ _ => hown'.deregister hb'⟩
                rintro (h | ⟨-, h, -⟩)
                · exact hnot h
                · cases h
              · have hrun : immServeConnection run date s awd (r :: rs) c =
                    immServeConnection run date s awd rs (r.others.foldl ConnDevice.apply c) := by
                  simp only [immServeConnection, hread, hpass, hclose, Bool.false_eq_true, if_false]
                have hih := ih hown' hb'
                unfold EndsDeregistered at hih ⊢
                rw [hrun, hih]
                simp [hclose]

/-- **The task ends with its device deregistered** exactly when no pass it makes throws. -/
theorem endsDeregistered_iff (run : H → HandleContext → Except Bytes Outcome) (date : Bytes) (s : HttpService H)
    (awd : Device) (raw : Nat) (others : List (Nat × Nat)) (reads : List ReadResult) :
    EndsDeregistered run date s awd reads (.start raw others) ↔ ¬ Escapes run date s awd reads :=
  endsDeregistered_iff_of_own reads (.start raw others) rfl

/-- A handler that throws leaves the device in the map. -/
theorem throwing_handler_leaks :
    ¬ EndsDeregistered (fun (_ : Unit) _ => .error (text "last_write_time")) []
      (ServiceBuilder.build getOnly).s .perfect [⟨[], .ok (requestA "GET"), none⟩] (.start 5 []) := by
  rw [endsDeregistered_iff_of_own _ (.start 5 []) rfl, not_not]
  have hid : ((ServiceBuilder.build getOnly).s.router.route (text "/a")).1 = some 1 := by decide
  have hfind : (ServiceBuilder.build getOnly).s.findHandler 1 .get = .ok (.user ()) := by rfl
  exact .here rfl (.handler (Prod.ext hid rfl) hfind ⟨_, rfl⟩)

end NetCpp.Http
