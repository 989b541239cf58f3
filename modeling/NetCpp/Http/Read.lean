/-
# NetCpp.Http.Read — `read` decodes a stream independently of how it is cut up.

Over `NetCpp.Http.Message`: the two loops of `read` on a stream that begins with a head.  A part of a line in the
window is shorter than a block, so `fill` finds room and never rejects it; a complete line is consumed, and its
views are settled from then on.  `read_spec` is one call on one head; the induction over the heads of a stream is
at the end.
-/
import NetCpp.Http.Message

namespace NetCpp.Http

open NetCpp.Lib

namespace Request

/-! ## §1 — the loop of the request line. -/

variable {A : Alloc} {req : Request} {r : Reader}

section Turn

variable {parse : Request → Request × Nat × Option Errc} {n len : Nat} {req1 req2 : Request} {r2 : Reader}

/-- A turn that finds its part complete. -/
theorem headLoop_done (hparse : parse req = (req1, len, none)) :
    headLoop parse (n + 1) req r = some (none, req1.advance len, r) := by
  rw [headLoop, hparse]

/-- A turn that has to fetch. -/
theorem headLoop_again (hparse : parse req = (req1, len, some .resourceUnavailableTryAgain))
    (hfill : fill (req1.advance len) r = (none, req2, r2)) :
    headLoop parse (n + 1) req r = headLoop parse n req2 r2 := by
  rw [headLoop, hparse]
  simp only [hfill]

end Turn

/-- **The request line**, however it is delivered. -/
theorem lineLoop_spec (h : Head) : ∀ (n : Nat) {req : Request} {r : Reader} {post : Bytes}, req.WF → r.Live →
    req.windowBytes ++ r.data = h.line ++ CRLF ++ post → KeepsPath A req.line.raw h.target → r.data.length < n →
    ∃ req' r', headLoop (parseLine A) n req r = some (none, req', r') ∧ req'.WF ∧ r'.Live ∧
      req'.windowBytes ++ r'.data = post ∧ req'.rest = req.rest ∧
      LineShows req'.deref req'.Settled req.line req'.line h := by
  intro n
  induction n with
  | zero =>
      intro req r post _ _ _ _ hn
      exact absurd hn (Nat.not_lt_zero _)
  | succ n ih =>
      intro req r post hwf hlive hbytes hkeep hn
      have hfits := h.fits
      have hline := h.length_line
      have hlen := length_windowBytes req
      by_cases hfull : (h.line ++ CRLF).length ≤ req.windowBytes.length
      · -- complete: the views lie in what is consumed
        obtain ⟨w, hw, hpost⟩ := exists_of_append_eq hbytes hfull
        have hadv : h.line.length + 2 ≤ req.windowBytes.length := by
          simpa [CRLF] using hfull
        have hview : req.window = .block req.active req.winBegin (h.line ++ CRLF ++ w).length := by
          rw [window, ← hlen, hw]
        have hslice : slice (req.heap req.active) req.winBegin (h.line ++ CRLF ++ w).length = h.line ++ CRLF ++ w := by
          rw [← hw, hlen]; rfl
        have hact := hwf.active_eq
        obtain ⟨line, hparse, hshows⟩ := RequestLine.parse_spec (A := A)
          (P := (req.advance (h.line.length + 2)).Settled) h req.line hslice
          (fun i k hik => .inr ⟨req.winBlock, Nat.le_refl _, hact, fun _ => by
            show req.winBegin + i + k ≤ req.winBegin + (h.line.length + 2)
            omega⟩)
          (fun _ => .inl rfl) (fun _ => trivial) (fun _ _ _ => trivial) hkeep
        have hgo : parseLine A req = ({ req with line := line }, h.line.length + 2, none) := by
          rw [parseLine, hview, hw, hparse]
        have hwf' := wf_advance hwf hadv
        refine ⟨_, r, headLoop_done hgo, ⟨hwf'.nodup, hwf'.fresh, hwf'.block_lt, hwf'.begin_le, hwf'.end_le⟩, hlive, ?_, rfl, hshows⟩
        have hdrop := windowBytes_advance req hadv
        rw [hw, List.drop_left' (by simp [CRLF])] at hdrop
        show (req.advance (h.line.length + 2)).windowBytes ++ r.data = post
        rw [hdrop]; exact hpost
      · have hlt : req.windowBytes.length < h.line.length + 2 := by simpa [CRLF] using hfull
        have hpre : req.windowBytes <+: h.line ++ CRLF := prefix_of_append_eq hbytes (Nat.le_of_not_le hfull)
        have hcrlf : ¬ CRLF <:+: h.line := h.crlf
        have hgo : parseLine A req = (req, 0, some .resourceUnavailableTryAgain) := by
          rw [parseLine, RequestLine.parse_incomplete (not_infix_of_proper hcrlf hpre hlt)]
        have hdata : r.data ≠ [] := by
          intro h0
          have := congrArg List.length hbytes
          rw [h0] at this
          simp [CRLF] at this
          omega
        obtain ⟨req1, r1, hfill, hwf1, hlive1, hlt1, hbytes1, hk1⟩ := fill_spec hwf hlive (by omega) hdata
        have hkeep1 : KeepsPath A req1.line.raw h.target := by rw [hk1.line]; exact hkeep
        obtain ⟨req', r', hloop, hwf', hlive', hpost, hrest, hshows⟩ :=
          ih hwf1 hlive1 (hbytes1.trans hbytes) hkeep1 (by omega)
        rw [hk1.line] at hshows
        exact ⟨req', r', (headLoop_again hgo hfill).trans hloop, hwf', hlive', hpost, hrest.trans hk1.rest, hshows⟩

/-! ## §2 — the loop of the header lines. -/

/-- The window shows its parts, and a part of it is settled once the window begins behind it. -/
theorem deref_window_sub (req : Request) (i n : Nat) :
    req.deref (req.window.sub i n) = some (substr req.windowBytes i n) := View.deref_sub _ _ _ _ _ _ _

theorem settled_window_sub (hwf : req.WF) {i n b : Nat} (h : i + n ≤ b) : (req.advance b).Settled (req.window.sub i n) := by
  refine .inr ⟨req.winBlock, Nat.le_refl _, hwf.active_eq, fun _ => ?_⟩
  show req.winBegin + i + min n (req.winEnd - req.winBegin - i) ≤ req.winBegin + b
  omega

/-- **The header lines and the empty line**, however they are delivered. -/
theorem restLoop_spec : ∀ (n : Nat) {hs : List HeaderLine} {req : Request} {r : Reader} {post : Bytes}
    {m : List (Bytes × Bytes)}, req.WF → r.Live →
    req.windowBytes ++ r.data = hs.flatMap HeaderLine.bytes ++ (CRLF ++ post) →
    Shows req.deref req.Settled req.rest.headers m → r.data.length < n →
    ∃ req' r', headLoop parseRest n req r = some (none, req', r') ∧ req'.WF ∧ r'.Live ∧
      req'.windowBytes ++ r'.data = post ∧ req'.line = req.line ∧
      (∀ v, req.Settled v → req'.deref v = req.deref v ∧ req'.Settled v) ∧
      Shows req'.deref req'.Settled req'.rest.headers (hs.foldl HeaderLine.addTo m) := by
  intro n
  induction n with
  | zero =>
      intro hs req r post m _ _ _ _ hn
      exact absurd hn (Nat.not_lt_zero _)
  | succ n ih =>
      intro hs req r post m hwf hlive hbytes hshows hn
      have hlen := length_windowBytes req
      obtain ⟨done, todo, headers, hsplit, hsh, hres⟩ :=
        MessageRestView.parseGo_spec (d := req.deref) (P := fun b v => (req.advance b).Settled v)
          (fun i k _ => deref_window_sub req i k) (fun i k b hik _ => settled_window_sub hwf hik)
          (fun v b b' hb hv => by
            have := settled_advance hv (b' - b)
            rwa [advance, advance, Nat.add_assoc, Nat.add_sub_cancel' hb] at this)
          hs (req.windowBytes.length + 1) [] req.windowBytes req.rest m rfl (Nat.lt_succ_self _) hbytes hshows
      simp only [List.length_nil, Nat.zero_add] at hsh hres
      rcases hres with ⟨rfl, w, part, hw, hgo⟩ | ⟨w, hw, hlt, hdata, hgo⟩
      · -- complete
        have hadv : (done.flatMap HeaderLine.bytes).length + 2 ≤ req.windowBytes.length := by
          rw [hw]; simp [CRLF]
        have hparse : parseRest req =
            ({ req with rest := ⟨headers, part⟩ }, (done.flatMap HeaderLine.bytes).length + 2, none) := by
          rw [parseRest, MessageRestView.parse, hgo]
        have hwf' := wf_advance hwf hadv
        refine ⟨_, r, headLoop_done hparse, ⟨hwf'.nodup, hwf'.fresh, hwf'.block_lt, hwf'.begin_le, hwf'.end_le⟩, hlive, ?_, rfl,
          fun v hv => ⟨rfl, settled_advance hv _⟩, ?_⟩
        · have hdrop : (req.advance ((done.flatMap HeaderLine.bytes).length + 2)).windowBytes = w := by
            rw [windowBytes_advance req hadv, hw, ← List.append_assoc, List.drop_left' (by simp [CRLF])]
          show (req.advance ((done.flatMap HeaderLine.bytes).length + 2)).windowBytes ++ r.data = post
          rw [hw, hsplit, List.append_nil, List.append_assoc, List.append_cancel_left_eq, List.append_assoc,
            List.append_cancel_left_eq] at hbytes
          rw [hdrop]; exact hbytes
        · rw [hsplit, List.append_nil]
          exact hsh.mono fun v hv => ⟨rfl, by
            have := settled_advance hv 2
            rwa [advance, advance, Nat.add_assoc] at this⟩
      · -- a proper beginning of a line is left: more is fetched behind it
        have hadv : (done.flatMap HeaderLine.bytes).length ≤ req.windowBytes.length := by rw [hw]; simp
        have hparse : parseRest req =
            ({ req with rest := ⟨headers, req.rest.contentPart⟩ }, (done.flatMap HeaderLine.bytes).length,
              some .resourceUnavailableTryAgain) := by
          rw [parseRest, MessageRestView.parse, hgo]
        -- what was consumed stays readable: only the window moves
        set req1 : Request :=
          advance (done.flatMap HeaderLine.bytes).length { req with rest := ⟨headers, req.rest.contentPart⟩ } with hreq1
        have hwf0 := wf_advance hwf hadv
        have hwf1 : req1.WF := ⟨hwf0.nodup, hwf0.fresh, hwf0.block_lt, hwf0.begin_le, hwf0.end_le⟩
        have hwin1 : req1.windowBytes = w := by
          show (req.advance _).windowBytes = w
          rw [windowBytes_advance req hadv, hw, List.drop_left]
        obtain ⟨req2, r2, hfill, hwf2, hlive2, hlt2, hbytes2, hk2⟩ :=
          fill_spec hwf1 hlive (by rw [hwin1]; exact hlt) hdata
        have hbytes' : req2.windowBytes ++ r2.data = todo.flatMap HeaderLine.bytes ++ (CRLF ++ post) := by
          rw [hbytes2, hwin1]
          rw [hw, hsplit, List.flatMap_append, List.append_assoc, List.append_assoc, List.append_cancel_left_eq] at hbytes
          exact hbytes
        have hshows2 : Shows req2.deref req2.Settled req2.rest.headers (done.foldl HeaderLine.addTo m) := by
          rw [hk2.rest]
          exact Shows.mono hsh fun v hv => hk2.views v hv
        obtain ⟨req', r', hloop, hwf', hlive', hpost, hline, hviews, hsh'⟩ :=
          ih hwf2 hlive2 hbytes' hshows2 (by omega)
        refine ⟨req', r', (headLoop_again hparse hfill).trans hloop, hwf', hlive', hpost, hline.trans hk2.line,
          fun v hv => ?_, ?_⟩
        · have h1 := hk2.views v (settled_advance hv _)
          have h2 := hviews v h1.2
          exact ⟨h2.1.trans h1.1, h2.2⟩
        · rw [hsplit, List.foldl_append]
          exact hsh'

/-! ## §3 — one call of `read`. -/

/-- **One head**: `read` succeeds, the fields show the head and the window goes on behind it. -/
theorem read_spec (h : Head) {post : Bytes} (hwf : req.WF) (hlive : r.Live)
    (hbytes : req.windowBytes ++ r.data = h.bytes ++ post) (hkeep : KeepsPath A req.line.raw h.target) :
    ∃ req' r', read A req r = some (none, req', r') ∧ req'.WF ∧ r'.Live ∧ req'.windowBytes ++ r'.data = post ∧
      LineShows req'.deref req'.Settled req.line req'.line h ∧
      Shows req'.deref req'.Settled req'.rest.headers (headerMap h.headers) := by
  obtain ⟨hwf0, hwin0⟩ := compact_spec hwf
  set req0 : Request := { req.compact with rest := req.compact.rest.clear } with hreq0
  have hwf0' : req0.WF := ⟨hwf0.nodup, hwf0.fresh, hwf0.block_lt, hwf0.begin_le, hwf0.end_le⟩
  have hbytes0 : req0.windowBytes ++ r.data = h.line ++ CRLF ++ (h.tail ++ post) := by
    show req.compact.windowBytes ++ r.data = _
    rw [hwin0, hbytes, Head.bytes, List.append_assoc]
  obtain ⟨req1, r1, hloop1, hwf1, hlive1, hbytes1, hrest1, hshows1⟩ :=
    lineLoop_spec h (r.data.length + 1) hwf0' hlive hbytes0 hkeep (Nat.lt_succ_self _)
  have hbytes1' : req1.windowBytes ++ r1.data = h.headers.flatMap HeaderLine.bytes ++ (CRLF ++ post) := by
    rw [hbytes1, Head.tail, List.append_assoc]
  have hempty : Shows req1.deref req1.Settled req1.rest.headers [] := by
    rw [hrest1]; exact .nil
  obtain ⟨req2, r2, hloop2, hwf2, hlive2, hbytes2, hline2, hviews2, hshows2⟩ :=
    restLoop_spec (r1.data.length + 1) hwf1 hlive1 hbytes1' hempty (Nat.lt_succ_self _)
  refine ⟨req2, r2, ?_, hwf2, hlive2, hbytes2, ?_, hshows2⟩
  · rw [read]
    simp only [← hreq0, hloop1]
    exact hloop2
  · rw [hline2]
    exact hshows1.mono hviews2

theorem fetch_lt {req' : Request} {r' : Reader} (h : req.fetch r = (none, req', r')) : r'.data.length < r.data.length := by
  unfold fetch Reader.read at h
  split at h
  · cases h
  · rename_i data r1 hread
    split at h
    · cases h
    · rename_i hne
      cases h
      split at hread
      · cases hread
      · cases hread
        rw [List.take_eq_nil_iff, not_or] at hne
        have := List.length_pos_of_ne_nil hne.2
        simp
        omega

theorem fill_lt {req' : Request} {r' : Reader} (h : req.fill r = (none, req', r')) : r'.data.length < r.data.length := by
  unfold fill at h
  split at h
  · split at h
    · cases h
    · exact fetch_lt h
  · exact fetch_lt h

/-- Every turn of a loop takes a byte of the stream, so it ends. -/
theorem headLoop_ne_none (parse : Request → Request × Nat × Option Errc) :
    ∀ (n : Nat) (req : Request) (r : Reader), r.data.length < n → headLoop parse n req r ≠ none
  | 0, _, _, h => absurd h (Nat.not_lt_zero _)
  | n + 1, req, r, h => by
      rw [headLoop]
      split
      · simp
      · split
        · simp
        · rename_i hfill
          have := fill_lt hfill
          exact headLoop_ne_none parse n _ _ (by omega)
      · simp

/-- **`read` comes back** from every request object and every reader. -/
theorem read_ne_none (A : Alloc) (req : Request) (r : Reader) : read A req r ≠ none := by
  simp only [read]
  split
  · exact headLoop_ne_none _ _ _ _ (Nat.lt_succ_self _)
  · exact headLoop_ne_none _ _ _ _ (Nat.lt_succ_self _)

/-- `n` calls of `read` on one object, all successful. -/
def readN (A : Alloc) (req : Request) (r : Reader) : Nat → Option (Request × Reader)
  | 0 => some (req, r)
  | n + 1 =>
      match readN A req r n with
      | none => none
      | some (req, r) =>
          match read A req r with
          | some (none, req, r) => some (req, r)
          | _ => none

end Request

/-! ## §4 — a stream of heads with origin-form targets. -/

/-- A head with an origin-form target: a path that is not empty, and no percent escapes. -/
structure OriginHead where
  token : Bytes
  segs : List Bytes
  query : Option Bytes
  major : UInt8
  minor : UInt8
  headers : List HeaderLine
  token_ok : 32 ∉ token
  segs_ne : segs ≠ []
  segs_ok : PathSegs segs
  query_ok : ∀ q, query = some q → 35 ∉ q
  target_ok : 32 ∉ pathOf segs ++ queryPart query
  no_percent : 37 ∉ pathOf segs ++ queryPart query
  major_ok : 48 ≤ major ∧ major ≤ 57
  minor_ok : 48 ≤ minor ∧ minor ≤ 57
  crlf : ¬ CRLF <:+: token ++ 32 :: (pathOf segs ++ queryPart query ++ 32 :: (text "HTTP/" ++ [major] ++ text "." ++ [minor]))
  fits : token.length + (pathOf segs ++ queryPart query).length + 8 + 4 ≤ HTTP_BUFFER_BLOCK_SIZE

namespace OriginHead

def target (h : OriginHead) : Bytes := pathOf h.segs ++ queryPart h.query

def version (h : OriginHead) : Bytes := text "HTTP/" ++ [h.major] ++ text "." ++ [h.minor]

theorem partsOf_target (h : OriginHead) :
    partsOf h.target = some { path := some (pathOf h.segs), query := some (h.query.getD []) } := by
  have hpath : fieldAt h.target (0, (pathOf h.segs).length) = pathOf h.segs := fieldAt_path _ _
  have hquery : fieldAt h.target (querySpan (pathOf h.segs).length h.query) = h.query.getD [] := fieldAt_query _ _
  have hno := h.no_percent
  rw [List.mem_append, not_or] at hno
  have hq : 37 ∉ h.query.getD [] := by
    cases hc : h.query with
    | none => simp
    | some q =>
        have := hno.2
        rw [hc, queryPart] at this
        simpa using this
  rw [partsOf, target, matchTarget_origin h.segs h.segs_ok h.query h.query_ok]
  show Form.parts h.target _ = _
  rw [Form.parts, hpath, hquery, decoded_of_not_mem hno.1, decoded_of_not_mem hq]
  rfl

def toHead (h : OriginHead) : Head where
  token := h.token
  target := h.target
  version := h.version
  headers := h.headers
  token_ok := h.token_ok
  target_ok := h.target_ok
  version_ok := isVersion_of_digits h.major_ok h.minor_ok
  decodes := by rw [h.partsOf_target]; rfl
  crlf := h.crlf
  fits := h.fits

theorem parts_toHead (h : OriginHead) :
    h.toHead.parts = { path := some (pathOf h.segs), query := some (h.query.getD []) } := by
  rw [Head.parts, show h.toHead.target = h.target from rfl, h.partsOf_target]; rfl

/-- Nothing is decoded, so nothing is moved. -/
theorem keepsPath (h : OriginHead) (A : Alloc) (raw : RawString) : KeepsPath A raw h.toHead.target := by
  have hno := h.no_percent
  rw [List.mem_append, not_or] at hno
  show KeepsPath A raw h.target
  unfold KeepsPath
  rw [target, matchTarget_origin h.segs h.segs_ok h.query h.query_ok]
  intro hmem
  rw [fieldAt, substr, List.drop_zero, Nat.sub_zero, List.take_left] at hmem
  exact absurd hmem hno.1

end OriginHead

/-- The fields of the request, dereferenced in its memory, are those of the head. -/
structure Decoded (req : Request) (h : OriginHead) : Prop where
  method : req.line.method = .fromStringView h.token
  path : req.deref req.line.path = some (pathOf h.segs)
  query : req.deref req.line.query = some (h.query.getD [])
  version : req.deref req.line.version = some h.version
  headers : req.rest.headers.map (fun e => (req.deref e.1, req.deref e.2)) =
    (headerMap h.headers).map fun e => (some e.1, some e.2)

namespace Request

variable {A : Alloc}

/-- The heads before the `k`-th are read, and the stream goes on with it. -/
theorem readN_spec {heads : List OriginHead} {suffix : Bytes} {r : Reader} (hlive : r.Live)
    (hdata : r.data = heads.flatMap (fun h => h.toHead.bytes) ++ suffix) :
    ∀ k, k ≤ heads.length → ∃ req' r', readN A (init A) r k = some (req', r') ∧ req'.WF ∧ r'.Live ∧
      req'.windowBytes ++ r'.data = (heads.drop k).flatMap (fun h => h.toHead.bytes) ++ suffix ∧
      ∀ j (hj : j < heads.length), k = j + 1 → Decoded req' heads[j]
  | 0, _ => by
      refine ⟨init A, r, rfl, wf_init A, hlive, ?_, fun j hj h0 => by omega⟩
      rw [List.drop_zero, ← hdata]; rfl
  | k + 1, hk => by
      obtain ⟨req, r1, hread, hwf, hlive1, hbytes, -⟩ := readN_spec hlive hdata k (by omega)
      have hlt : k < heads.length := hk
      rw [List.drop_eq_getElem_cons hlt, List.flatMap_cons, List.append_assoc] at hbytes
      obtain ⟨req', r', hr, hwf', hlive', hpost, hline, hhead⟩ :=
        read_spec heads[k].toHead hwf hlive1 hbytes (heads[k].keepsPath A _)
      refine ⟨req', r', ?_, hwf', hlive', hpost, fun j hj he => ?_⟩
      · simp only [readN, hread, hr]
      · obtain rfl : k = j := by omega
        have hassign := hline.assigns
        rw [OriginHead.parts_toHead] at hassign
        exact ⟨hline.method, hassign.path.1, hassign.query.1, hline.version.1, hhead.map_deref⟩

/-- **`read` decodes a stream independently of how it is cut up.**  For every sequence of heads, every suffix and
every delivery: each of the successive calls on one object succeeds; when the `k`-th returns, the fields, with
their views dereferenced then, are those of the `k`-th head, and the window is exactly what was delivered behind
that head. -/
theorem read_stream (A : Alloc) (heads : List OriginHead) (suffix : Bytes) (r : Reader) (hlive : r.Live)
    (hdata : r.data = heads.flatMap (fun h => h.toHead.bytes) ++ suffix) (k : Nat) (hk : k < heads.length) :
    ∃ req' r', readN A (init A) r (k + 1) = some (req', r') ∧ Decoded req' heads[k] ∧
      req'.windowBytes =
        (r.data.take (r.data.length - r'.data.length)).drop
          ((heads.take (k + 1)).flatMap fun h => h.toHead.bytes).length ∧
      req'.windowBytes ++ r'.data = (heads.drop (k + 1)).flatMap (fun h => h.toHead.bytes) ++ suffix := by
  obtain ⟨req', r', hread, -, -, hbytes, hdec⟩ := readN_spec (A := A) hlive hdata (k + 1) hk
  refine ⟨req', r', hread, hdec k hk rfl, ?_, hbytes⟩
  have hall : r.data = (heads.take (k + 1)).flatMap (fun h => h.toHead.bytes) ++ req'.windowBytes ++ r'.data := by
    rw [hdata, List.append_assoc, hbytes, ← List.append_assoc, ← List.flatMap_append, List.take_append_drop]
  have htake : r.data.take (r.data.length - r'.data.length) =
      (heads.take (k + 1)).flatMap (fun h => h.toHead.bytes) ++ req'.windowBytes := by
    rw [hall, List.length_append, Nat.add_sub_cancel, List.take_left]
  rw [htake, List.drop_left]

/-- `GET /a HTTP/1.1` with one header. -/
def plainHead : OriginHead where
  token := text "GET"
  segs := [text "a"]
  query := none
  major := 49
  minor := 49
  headers := [⟨text "Host", text " x", by decide, by decide, by decide⟩]
  token_ok := by decide
  segs_ne := by decide
  segs_ok := by decide
  query_ok := by simp
  target_ok := by decide
  no_percent := by decide
  major_ok := by decide
  minor_ok := by decide
  crlf := by decide
  fits := by decide

/-- Two heads, byte by byte. -/
def drip : Reader := ⟨plainHead.toHead.bytes ++ plainHead.toHead.bytes, fun _ _ => .ok 1, 0⟩

theorem read_stream_drip :
    ∃ req' r', readN libstdcpp (init libstdcpp) drip 2 = some (req', r') ∧ Decoded req' plainHead ∧
      req'.windowBytes ++ r'.data = [] := by
  obtain ⟨req', r', hread, hdec, -, hbytes⟩ :=
    read_stream libstdcpp [plainHead, plainHead] [] drip (fun _ size h => ⟨1, rfl, Nat.le_refl 1, h⟩) (by simp [drip]) 1
      (by decide)
  exact ⟨req', r', hread, hdec, by simpa using hbytes⟩

end Request

end NetCpp.Http
