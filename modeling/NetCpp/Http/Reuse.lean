/-
# NetCpp.Http.Reuse — one `Request` for every head of a connection.

`imm_serve_connection` reads all heads of a connection into ONE `Request`.  `read` clears the header map and
nothing else: a field that the target form of a head does not assign stays what the LAST head that assigned it
made of it, and `_raw` only grows.  `seen` is all that a handler can see of a request; `Head.seen` is what the head
alone stands for.  The two agree when every field the head leaves alone is still a default.
-/
import NetCpp.Http.Read

namespace NetCpp.Http

open NetCpp.Lib

/-! ## §1 — what a handler sees. -/

/-- The fields of a request, dereferenced; `none` for a dangling view. -/
structure Seen where
  method : Method
  scheme : Option Bytes
  host : Option Bytes
  port : Option Bytes
  path : Option Bytes
  query : Option Bytes
  version : Option Bytes
  headers : List (Option Bytes × Option Bytes)
deriving DecidableEq

def Request.seen (req : Request) : Seen where
  method := req.line.method
  scheme := req.deref req.line.scheme
  host := req.deref req.line.host
  port := req.deref req.line.port
  path := req.deref req.line.path
  query := req.deref req.line.query
  version := req.deref req.line.version
  headers := req.rest.headers.map fun e => (req.deref e.1, req.deref e.2)

/-- What the head alone stands for: the defaults where it assigns nothing. -/
def Head.seen (h : Head) : Seen where
  method := .fromStringView h.token
  scheme := some (h.parts.scheme.getD [])
  host := some (h.parts.host.getD [])
  port := some (h.parts.port.getD [])
  path := some (h.parts.path.getD (text "/"))
  query := some (h.parts.query.getD [])
  version := some h.version
  headers := (headerMap h.headers).map fun e => (some e.1, some e.2)

/-! ## §2 — when a head is read as if alone. -/

/-- A view of nothing, whatever the memory. -/
def View.Blank : View → Prop
  | .text bytes => bytes = []
  | .block _ _ len => len = 0
  | .raw _ _ _ => False

/-- Nothing of an earlier head is left where `h` assigns nothing, and a decoded path of `h` keeps its storage. -/
structure Clean (A : Alloc) (line : RequestLine) (h : Head) : Prop where
  scheme : h.parts.scheme = none → line.scheme.Blank
  host : h.parts.host = none → line.host.Blank
  port : h.parts.port = none → line.port.Blank
  path : h.parts.path = none → line.path = .text (text "/")
  query : h.parts.query = none → line.query.Blank
  room : KeepsPath A line.raw h.target

theorem View.deref_of_blank {v : View} (h : v.Blank) (heap : Nat → Block) (rs : RawString) :
    v.deref heap rs = some [] := by
  cases v with
  | text bytes => rw [View.deref, show bytes = [] from h]
  | block id off len => rw [View.deref, show len = 0 from h]; rfl
  | raw gen off len => exact h.elim

/-- A field after a read: what the head assigns, else the default. -/
theorem FieldSet.deref_getD {d : View → Option Bytes} {P : View → Prop} {old new : View} {b : Option Bytes}
    {dflt : Bytes} (h : FieldSet d P old new b) (hold : b = none → d old = some dflt) :
    d new = some (b.getD dflt) := by
  cases b with
  | none =>
      rw [show new = old from h]
      exact hold rfl
  | some b => exact h.1

/-- A fresh object has nothing of an earlier head. -/
theorem clean_init {A : Alloc} {h : Head} (hroom : KeepsPath A (RequestLine.init A).raw h.target) :
    Clean A (.init A) h where
  scheme _ := rfl
  host _ := rfl
  port _ := rfl
  path _ := rfl
  query _ := rfl
  room := hroom

namespace Request

variable {A : Alloc} {req : Request} {r : Reader}

/-- **One call on a clean object** shows the head and nothing else. -/
theorem read_clean (h : Head) {post : Bytes} (hwf : req.WF) (hlive : r.Live)
    (hbytes : req.windowBytes ++ r.data = h.bytes ++ post) (hclean : Clean A req.line h) :
    ∃ req' r', read A req r = some (none, req', r') ∧ req'.WF ∧ r'.Live ∧ req'.windowBytes ++ r'.data = post ∧
      req'.seen = h.seen := by
  obtain ⟨req', r', hread, hwf', hlive', hpost, hline, hhead⟩ := read_spec h hwf hlive hbytes hclean.room
  refine ⟨req', r', hread, hwf', hlive', hpost, ?_⟩
  have hassign := hline.assigns
  have hblank : ∀ v : View, v.Blank → req'.deref v = some [] := fun v hv => v.deref_of_blank hv _ _
  have hscheme := hassign.scheme.deref_getD fun h0 => hblank _ (hclean.scheme h0)
  have hhost := hassign.host.deref_getD fun h0 => hblank _ (hclean.host h0)
  have hport := hassign.port.deref_getD fun h0 => hblank _ (hclean.port h0)
  have hpath := hassign.path.deref_getD (d := req'.deref) fun h0 => by rw [hclean.path h0]; rfl
  have hquery := hassign.query.deref_getD fun h0 => hblank _ (hclean.query h0)
  rw [seen, hline.method, hscheme, hhost, hport, hpath, hquery, hline.version.1, hhead.map_deref]
  rfl

/-- The heads before the `k`-th are read, and the stream goes on with it. -/
theorem readN_clean {heads : List Head} {suffix : Bytes} (hlive : r.Live)
    (hdata : r.data = heads.flatMap Head.bytes ++ suffix)
    (hclean : ∀ k (hk : k < heads.length) req' r', readN A (init A) r k = some (req', r') →
      Clean A req'.line heads[k]) :
    ∀ k, k ≤ heads.length → ∃ req' r', readN A (init A) r k = some (req', r') ∧ req'.WF ∧ r'.Live ∧
      req'.windowBytes ++ r'.data = (heads.drop k).flatMap Head.bytes ++ suffix ∧
      ∀ j (hj : j < heads.length), k = j + 1 → req'.seen = heads[j].seen
  | 0, _ => by
      refine ⟨init A, r, rfl, wf_init A, hlive, ?_, fun j hj h0 => by omega⟩
      rw [List.drop_zero, ← hdata]; rfl
  | k + 1, hk => by
      obtain ⟨req, r1, hread, hwf, hlive1, hbytes, -⟩ := readN_clean hlive hdata hclean k (by omega)
      have hlt : k < heads.length := hk
      rw [List.drop_eq_getElem_cons hlt, List.flatMap_cons, List.append_assoc] at hbytes
      obtain ⟨req', r', hr, hwf', hlive', hpost, hseen⟩ :=
        read_clean heads[k] hwf hlive1 hbytes (hclean k hlt req r1 hread)
      refine ⟨req', r', ?_, hwf', hlive', hpost, fun j hj he => ?_⟩
      · simp only [readN, hread, hr]
      · obtain rfl : k = j := by omega
        exact hseen

/-- **Requests on a reused object do not leak into each other**, in every run in which each head finds the object
clean: what is seen after the `k`-th call is what a fresh object shows after reading the `k`-th head alone, whatever
the two deliveries. -/
theorem read_reused_of_clean (A : Alloc) (heads : List Head) (suffix : Bytes) (r : Reader) (hlive : r.Live)
    (hdata : r.data = heads.flatMap Head.bytes ++ suffix)
    (hclean : ∀ k (hk : k < heads.length) req' r', readN A (init A) r k = some (req', r') →
      Clean A req'.line heads[k])
    (hroom : ∀ h ∈ heads, KeepsPath A (RequestLine.init A).raw h.target) (k : Nat) (hk : k < heads.length) :
    ∃ req' r', readN A (init A) r (k + 1) = some (req', r') ∧
      ∀ alone : Reader, alone.Live → alone.data = heads[k].bytes →
        ∃ req₁ r₁, read A (init A) alone = some (none, req₁, r₁) ∧ req'.seen = req₁.seen := by
  obtain ⟨req', r', hread, -, -, -, hseen⟩ := readN_clean hlive hdata hclean (k + 1) hk
  refine ⟨req', r', hread, fun alone halive hadata => ?_⟩
  have hbytes : (init A).windowBytes ++ alone.data = heads[k].bytes ++ [] := by
    rw [hadata, List.append_nil]; rfl
  obtain ⟨req₁, r₁, hread₁, -, -, -, hseen₁⟩ :=
    read_clean heads[k] (wf_init A) halive hbytes (clean_init (hroom _ (List.getElem_mem hk)))
  exact ⟨req₁, r₁, hread₁, (hseen k hk rfl).trans hseen₁.symm⟩

/-! ## §3 — an authority-form head before and after a plain one. -/

theorem partsOf_authority : partsOf (text "a:1") = some { host := some (text "a"), port := some (text "1") } := by
  decide

/-- `CONNECT a:1 HTTP/1.1`. -/
def connectHead : Head where
  token := text "CONNECT"
  target := text "a:1"
  version := text "HTTP/1.1"
  headers := []
  token_ok := by decide
  target_ok := by decide
  version_ok := isVersion_of_digits (show 48 ≤ (49 : UInt8) ∧ _ by decide) (show 48 ≤ (49 : UInt8) ∧ _ by decide)
  decodes := by rw [partsOf_authority]; rfl
  crlf := by decide
  fits := by decide

/-- All that is asked for at once. -/
def atOnce (data : Bytes) : Reader := ⟨data, fun _ size => .ok size, 0⟩

theorem live_atOnce (data : Bytes) : (atOnce data).Live := fun _ size h => ⟨size, rfl, h, Nat.le_refl _⟩

/-- The `CONNECT` twice: what it leaves alone is as in a fresh object, before each of the calls. -/
theorem clean_connect {r : Reader} (hlive : r.Live) (hdata : r.data = connectHead.bytes ++ connectHead.bytes) (k : Nat)
    (hk : k < 2) (req' : Request) (r' : Reader) (h : readN libstdcpp (init libstdcpp) r k = some (req', r')) :
    Clean libstdcpp req'.line connectHead := by
  have hkeep : ∀ raw, KeepsPath libstdcpp raw connectHead.target := by
    intro raw
    unfold KeepsPath
    rw [show matchTarget connectHead.target = some (.authority (0, 1) (2, 3)) by decide]
    trivial
  have hparts : connectHead.parts = { host := some (text "a"), port := some (text "1") } := by
    rw [Head.parts, show connectHead.target = text "a:1" from rfl, partsOf_authority]; rfl
  obtain rfl | rfl : k = 0 ∨ k = 1 := by omega
  · obtain ⟨rfl, -⟩ : init libstdcpp = req' ∧ r = r' := by simpa [readN] using h
    exact clean_init (hkeep _)
  · obtain ⟨req₁, r₁, hread, -, -, -, hline, -⟩ :=
      read_spec (A := libstdcpp) connectHead (wf_init libstdcpp) hlive hdata (hkeep _)
    have hstep : readN libstdcpp (init libstdcpp) r 1 = some (req₁, r₁) := by simp only [readN, hread]
    obtain ⟨rfl, -⟩ : req₁ = req' ∧ r₁ = r' := by simpa [hstep] using h
    have hassign := hline.assigns
    rw [hparts] at hassign
    constructor
    · intro _; rw [show req₁.line.scheme = _ from hassign.scheme]; rfl
    · intro h0; rw [hparts] at h0; cases h0
    · intro h0; rw [hparts] at h0; cases h0
    · intro _; exact hassign.path
    · intro _; rw [show req₁.line.query = _ from hassign.query]; rfl
    · exact hkeep _

theorem read_reused_connect :
    ∃ req' r', readN libstdcpp (init libstdcpp) (atOnce (connectHead.bytes ++ connectHead.bytes)) 2 = some (req', r') ∧
      ∀ alone : Reader, alone.Live → alone.data = connectHead.bytes →
        ∃ req₁ r₁, read libstdcpp (init libstdcpp) alone = some (none, req₁, r₁) ∧ req'.seen = req₁.seen := by
  apply read_reused_of_clean libstdcpp [connectHead, connectHead] [] _ (live_atOnce _) (by simp [atOnce]) _ _ 1 (by decide)
  · intro k hk req' r' h
    have hhead : ([connectHead, connectHead][k]) = connectHead := by
      have hk' : k < 2 := hk
      obtain rfl | rfl : k = 0 ∨ k = 1 := by omega
      · rfl
      · rfl
    rw [hhead]
    exact clean_connect (live_atOnce _) rfl k hk req' r' h
  · intro h hmem
    obtain rfl : h = connectHead := by simpa using hmem
    exact (clean_connect (live_atOnce _) rfl 0 (by decide) _ _ rfl).room

/-- **The host of the first request is seen in the second**, where a fresh object shows none: the view of the first
head's host stays, and shows a letter of the second head. -/
theorem host_leaks_into_next_request :
    ∃ req' r' req₁ r₁,
      readN libstdcpp (init libstdcpp) (atOnce (connectHead.bytes ++ plainHead.toHead.bytes)) 2 = some (req', r') ∧
      read libstdcpp (init libstdcpp) (atOnce plainHead.toHead.bytes) = some (none, req₁, r₁) ∧
      req'.seen.host = some (text "T") ∧ req₁.seen.host = some [] ∧ req'.seen ≠ req₁.seen := by
  have hreused : (readN libstdcpp (init libstdcpp) (atOnce (connectHead.bytes ++ plainHead.toHead.bytes)) 2).map
      (fun p => p.1.seen.host) = some (some (text "T")) := by
    decide
  have hfresh : (read libstdcpp (init libstdcpp) (atOnce plainHead.toHead.bytes)).map
      (fun p => (p.1, p.2.1.seen.host)) = some (none, some []) := by
    decide
  obtain ⟨⟨req', r'⟩, hread', hhost'⟩ := Option.map_eq_some_iff.mp hreused
  obtain ⟨⟨ec, req₁, r₁⟩, hread₁, hpair⟩ := Option.map_eq_some_iff.mp hfresh
  obtain ⟨rfl, hhost₁⟩ : ec = none ∧ req₁.seen.host = some [] := by simpa using hpair
  refine ⟨req', r', req₁, r₁, hread', hread₁, hhost', hhost₁, fun he => ?_⟩
  have hhost : req'.seen.host = req₁.seen.host := congrArg Seen.host he
  rw [show req'.seen.host = some (text "T") from hhost', hhost₁] at hhost
  exact absurd hhost (by decide)

end Request

end NetCpp.Http
