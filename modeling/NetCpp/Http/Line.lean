/-
# NetCpp.Http.Line — what `RequestLine::parse` assigns.

Each target form assigns its own fields and leaves the OTHERS as they were; `Parts` is what a target assigns.
A percent-decoded path is a view into `_raw`, and decoding the query reserves there again: `KeepsPath` says
that this does not give `_raw` new storage under the path.
-/
import NetCpp.Http.Head

namespace NetCpp.Http

open NetCpp.Lib

/-! ## §1 — what a target stands for. -/

/-- The fields a target assigns, with what they stand for. -/
structure Parts where
  scheme : Option Bytes := none
  host : Option Bytes := none
  port : Option Bytes := none
  path : Option Bytes := none
  query : Option Bytes := none
deriving DecidableEq, Repr

/-- The text of a span of the target. -/
def fieldAt (target : Bytes) (s : Span) : Bytes := substr target s.1 (s.2 - s.1)

theorem fieldAt_path (path : Bytes) (query : Option Bytes) :
    fieldAt (path ++ queryPart query) (0, path.length) = path := by
  rw [fieldAt, substr, List.drop_zero, Nat.sub_zero, List.take_left]

theorem fieldAt_query (path : Bytes) (query : Option Bytes) :
    fieldAt (path ++ queryPart query) (querySpan path.length query) = query.getD [] := by
  rw [fieldAt]
  cases query with
  | none => simp [querySpan, queryPart, substr]
  | some q =>
      rw [querySpan, queryPart, substr]
      simp

/-- What a form assigns; `none` when an escape is illegal. -/
def Form.parts (target : Bytes) : Form → Option Parts
  | .origin path query => do
      return { path := ← decoded (fieldAt target path), query := ← decoded (fieldAt target query) }
  | .absolute scheme host port path query => do
      let p ← decoded (fieldAt target path)
      return { scheme := fieldAt target scheme, host := fieldAt target host, port := fieldAt target port
               path := some (if p = [] then text "/" else p), query := ← decoded (fieldAt target query) }
  | .authority host port => some { host := fieldAt target host, port := fieldAt target port }
  | .asterisk => some { path := text "*" }

/-- A target that no form matches assigns nothing. -/
def partsOf (target : Bytes) : Option Parts :=
  match matchTarget target with
  | some f => f.parts target
  | none => some {}

/-! ## §2 — decoding into `_raw`. -/

/-- `_raw` after the decoding of a field. -/
def rawAfter (A : Alloc) (raw : RawString) (field : Bytes) : RawString :=
  let r := raw.reserve A (raw.contents.length + field.length)
  if 37 ∈ field then { r with contents := r.contents ++ (decoded field).getD [] } else r

/-- The view of the decoded field. -/
def viewAfter (A : Alloc) (raw : RawString) (tv : View) (target : Bytes) (s : Span) : View :=
  if 37 ∈ fieldAt target s then
    .raw (rawAfter A raw (fieldAt target s)).gen raw.contents.length ((decoded (fieldAt target s)).getD []).length
  else tv.sub s.1 (s.2 - s.1)

@[simp] theorem contents_reserve (A : Alloc) (n : Nat) (raw : RawString) :
    (raw.reserve A n).contents = raw.contents := by
  unfold RawString.reserve; split <;> rfl

theorem contents_rawAfter (A : Alloc) (raw : RawString) (field : Bytes) :
    (rawAfter A raw field).contents = raw.contents ++ if 37 ∈ field then (decoded field).getD [] else [] := by
  unfold rawAfter
  split <;> simp

theorem gen_rawAfter_of_room {A : Alloc} {raw : RawString} {field : Bytes}
    (h : raw.contents.length + field.length ≤ raw.capacity) : (rawAfter A raw field).gen = raw.gen := by
  unfold rawAfter RawString.reserve
  rw [if_pos h]
  split <;> rfl

theorem percentDecode_eq (A : Alloc) (tv : View) (target : Bytes) (s : Span) (line : RequestLine) {b : Bytes}
    (h : decoded (fieldAt target s) = some b) :
    line.percentDecode A tv target s =
      ({ line with raw := rawAfter A line.raw (fieldAt target s) }, .ok (viewAfter A line.raw tv target s)) := by
  have hfield : substr target s.1 (s.2 - s.1) = fieldAt target s := rfl
  simp only [RequestLine.percentDecode, hfield]
  by_cases hmem : 37 ∈ fieldAt target s
  · obtain ⟨rest, hrest, hb⟩ := Option.map_eq_some_iff.mp h
    have hne := percentDecodeGo_ne_nil hmem hrest
    obtain ⟨out, hout⟩ : ∃ out, percentDecodeGo (fieldAt target s).length (fieldAt target s) [] = (out, some rest) :=
      ⟨_, Prod.ext rfl hrest⟩
    rw [hout] at hne hb ⊢
    have hb' : out ++ rest = b := hb
    simp only [if_neg hne, hb', viewAfter, rawAfter, if_pos hmem, h, Option.getD_some, contents_reserve]
  · rw [percentDecodeGo_of_not_mem hmem]
    simp only [if_true, viewAfter, rawAfter, if_neg hmem]

/-- A view into `_raw` shows the same after an appending without new storage. -/
theorem deref_raw_append {heap : Nat → Block} {raw raw' : RawString} {off : Nat} {b t : Bytes}
    (hgen : raw'.gen = raw.gen) (hc : raw.contents = t ++ b) (hoff : off = t.length) (hpre : raw.contents <+: raw'.contents) :
    View.deref heap raw' (.raw raw.gen off b.length) = some b := by
  obtain ⟨u, hu⟩ := hpre
  rw [View.deref, if_pos hgen.symm, ← hu, hc, hoff, substr, List.append_assoc, List.drop_left, List.take_left]

/-- Decoding the query leaves the storage of a decoded path alone: there is room for it behind the path. -/
def RoomFor (A : Alloc) (raw : RawString) (path query : Bytes) : Prop :=
  37 ∈ path → (rawAfter A raw path).contents.length + query.length ≤ (rawAfter A raw path).capacity

instance (A : Alloc) (raw : RawString) (path query : Bytes) : Decidable (RoomFor A raw path query) :=
  inferInstanceAs (Decidable (_ → _))

/-- The path of the target, when it is decoded, stays valid. -/
def KeepsPath (A : Alloc) (raw : RawString) (target : Bytes) : Prop :=
  match matchTarget target with
  | some (.origin path query) | some (.absolute _ _ _ path query) =>
      RoomFor A raw (fieldAt target path) (fieldAt target query)
  | _ => True

/-- A field after the parsing: it shows what was assigned, or is what it was. -/
def FieldSet (d : View → Option Bytes) (P : View → Prop) (old new : View) : Option Bytes → Prop
  | some b => d new = some b ∧ P new
  | none => new = old

/-- The fields of a line after its target was read. -/
structure Assigns (d : View → Option Bytes) (P : View → Prop) (old new : RequestLine) (parts : Parts) : Prop where
  scheme : FieldSet d P old.scheme new.scheme parts.scheme
  host : FieldSet d P old.host new.host parts.host
  port : FieldSet d P old.port new.port parts.port
  path : FieldSet d P old.path new.path parts.path
  query : FieldSet d P old.query new.query parts.query

section Target

variable {A : Alloc} {heap : Nat → Block} {id off : Nat} {target : Bytes} {P : View → Prop}

/-- The view of a field shows what it stands for, in the memory after its decoding and as long as `_raw` is only
appended to. -/
theorem deref_viewAfter (hslice : slice (heap id) off target.length = target) {raw raw' : RawString} {s : Span}
    {b : Bytes} (h : decoded (fieldAt target s) = some b)
    (hraw : 37 ∈ fieldAt target s → raw'.gen = (rawAfter A raw (fieldAt target s)).gen ∧
      (rawAfter A raw (fieldAt target s)).contents <+: raw'.contents) :
    View.deref heap raw' (viewAfter A raw (.block id off target.length) target s) = some b := by
  unfold viewAfter
  by_cases hmem : 37 ∈ fieldAt target s
  · rw [if_pos hmem, h]
    have hc := contents_rawAfter A raw (fieldAt target s)
    rw [if_pos hmem, h] at hc
    exact deref_raw_append (hraw hmem).1 hc rfl (hraw hmem).2
  · rw [if_neg hmem, View.deref_sub, hslice]
    rw [decoded_of_not_mem hmem] at h
    exact h

theorem size_viewAfter (hslice : slice (heap id) off target.length = target) (raw : RawString) {s : Span} {b : Bytes}
    (h : decoded (fieldAt target s) = some b) :
    (viewAfter A raw (.block id off target.length) target s).size = b.length := by
  have hd : View.deref heap _ (viewAfter A raw (.block id off target.length) target s) = some b :=
    deref_viewAfter hslice h fun _ => ⟨rfl, List.prefix_refl _⟩
  unfold viewAfter at hd ⊢
  by_cases hmem : 37 ∈ fieldAt target s
  · rw [if_pos hmem, h]; rfl
  · rw [if_neg hmem] at hd ⊢
    have := congrArg (Option.map List.length) hd
    simpa [View.deref, View.sub, View.size] using this

/-- **The path and the query**, when there is room for the query behind a decoded path. -/
theorem setPathQuery_spec (hslice : slice (heap id) off target.length = target)
    (hP : ∀ i n, P ((View.block id off target.length).sub i n)) (htext : ∀ b, P (.text b))
    (hrawP : ∀ g o l, P (.raw g o l)) (line : RequestLine) (slash : Bool) {p q : Span} {pb qb : Bytes}
    (hp : decoded (fieldAt target p) = some pb) (hq : decoded (fieldAt target q) = some qb)
    (hroom : RoomFor A line.raw (fieldAt target p) (fieldAt target q)) :
    ∃ raw pv qv, line.setPathQuery A (.block id off target.length) target p q slash =
        ({ line with raw := raw, path := pv, query := qv }, none) ∧
      View.deref heap raw pv = some (if slash = true ∧ pb = [] then text "/" else pb) ∧ P pv ∧
      View.deref heap raw qv = some qb ∧ P qv := by
  have hview : ∀ raw s, P (viewAfter A raw (.block id off target.length) target s) := by
    intro raw s
    unfold viewAfter
    split
    · exact hrawP _ _ _
    · exact hP _ _
  unfold RequestLine.setPathQuery
  rw [percentDecode_eq A _ target p line hp]
  simp only
  rw [percentDecode_eq A _ target q _ hq]
  refine ⟨_, _, _, rfl, ?_, ?_, ?_, hview _ _⟩
  · have hsize := size_viewAfter (A := A) hslice line.raw hp
    by_cases hs : slash = true ∧ pb = []
    · rw [if_pos hs, if_pos]
      · rfl
      · simp [hs.1, hsize, hs.2]
    · rw [if_neg hs, if_neg]
      · -- the reservation for the query found room, so the path still stands where it was put
        apply deref_viewAfter hslice hp
        intro hmem
        have hcap := hroom hmem
        constructor
        · exact gen_rawAfter_of_room hcap
        · show _ <+: (rawAfter A (rawAfter A line.raw (fieldAt target p)) (fieldAt target q)).contents
          rw [contents_rawAfter A (rawAfter A line.raw (fieldAt target p))]
          exact List.prefix_append _ _
      · intro hc
        simp only [Bool.and_eq_true, beq_iff_eq, hsize] at hc
        exact hs ⟨hc.1, List.length_eq_zero_iff.mp hc.2⟩
  · split
    · exact htext _
    · exact hview _ _
  · exact deref_viewAfter hslice hq fun _ => ⟨rfl, List.prefix_refl _⟩

/-- **Every form assigns its own fields and no others.** -/
theorem setTarget_spec (hslice : slice (heap id) off target.length = target)
    (hP : ∀ i n, P ((View.block id off target.length).sub i n)) (htext : ∀ b, P (.text b))
    (hrawP : ∀ g o l, P (.raw g o l)) (line : RequestLine) {parts : Parts} (hparts : partsOf target = some parts)
    (hkeep : KeepsPath A line.raw target) :
    ∃ line', line.setTarget A (.block id off target.length) target = (line', none) ∧ line'.method = line.method ∧
      Assigns (View.deref heap line'.raw) P line line' parts := by
  have hd : ∀ rs (s : Span), View.deref heap rs ((View.block id off target.length).sub s.1 (s.2 - s.1)) =
      some (fieldAt target s) := by
    intro rs s
    rw [View.deref_sub, hslice]; rfl
  unfold RequestLine.setTarget partsOf at *
  unfold KeepsPath at hkeep
  cases hm : matchTarget target with
  | none =>
      rw [hm] at hparts
      obtain rfl := Option.some.inj hparts
      exact ⟨line, rfl, rfl, ⟨rfl, rfl, rfl, rfl, rfl⟩⟩
  | some f =>
      rw [hm] at hparts hkeep
      cases f with
      | origin p q =>
          simp only [Form.parts, Option.bind_eq_bind, Option.bind_eq_some_iff] at hparts
          obtain ⟨pb, hp, qb, hq, he⟩ := hparts
          obtain rfl := Option.some.inj he
          obtain ⟨raw, pv, qv, hset, hpv, hPp, hqv, hPq⟩ :=
            setPathQuery_spec hslice hP htext hrawP line false hp hq hkeep
          exact ⟨_, hset, rfl, ⟨rfl, rfl, rfl, ⟨by simpa using hpv, hPp⟩, ⟨hqv, hPq⟩⟩⟩
      | absolute s h o p q =>
          simp only [Form.parts, Option.bind_eq_bind, Option.bind_eq_some_iff] at hparts
          obtain ⟨pb, hp, qb, hq, he⟩ := hparts
          obtain rfl := Option.some.inj he
          obtain ⟨raw, pv, qv, hset, hpv, hPp, hqv, hPq⟩ :=
            setPathQuery_spec hslice hP htext hrawP
              { line with
                scheme := (View.block id off target.length).sub s.1 (s.2 - s.1)
                host := (View.block id off target.length).sub h.1 (h.2 - h.1)
                port := (View.block id off target.length).sub o.1 (o.2 - o.1) } true hp hq hkeep
          exact ⟨_, hset, rfl, ⟨⟨hd _ s, hP _ _⟩, ⟨hd _ h, hP _ _⟩, ⟨hd _ o, hP _ _⟩, ⟨by simpa using hpv, hPp⟩,
            ⟨hqv, hPq⟩⟩⟩
      | authority h o =>
          obtain rfl := Option.some.inj hparts
          exact ⟨_, rfl, rfl, ⟨rfl, ⟨hd _ h, hP _ _⟩, ⟨hd _ o, hP _ _⟩, rfl, rfl⟩⟩
      | asterisk =>
          obtain rfl := Option.some.inj hparts
          exact ⟨_, rfl, rfl, ⟨rfl, rfl, rfl, ⟨rfl, htext _⟩, rfl⟩⟩

end Target

/-- An origin form without escapes: the path and the query are parts of the target, in whatever memory it is. -/
theorem setTarget_plain (A : Alloc) (tv : View) {target : Bytes} (line : RequestLine) {p q : Span}
    (hm : matchTarget target = some (.origin p q)) (hno : 37 ∉ target) :
    ∃ raw, line.setTarget A tv target =
      ({ line with raw := raw, path := tv.sub p.1 (p.2 - p.1), query := tv.sub q.1 (q.2 - q.1) }, none) := by
  have hfield : ∀ s : Span, 37 ∉ fieldAt target s :=
    fun s hmem => hno (List.mem_of_mem_drop (List.mem_of_mem_take hmem))
  have hview : ∀ raw (s : Span), viewAfter A raw tv target s = tv.sub s.1 (s.2 - s.1) :=
    fun raw s => if_neg (hfield s)
  unfold RequestLine.setTarget
  rw [hm]
  simp only [RequestLine.setPathQuery]
  rw [percentDecode_eq A tv target p line (decoded_of_not_mem (hfield p))]
  simp only [hview, Bool.false_and]
  rw [percentDecode_eq A tv target q _ (decoded_of_not_mem (hfield q))]
  exact ⟨_, by simp only [hview]; rfl⟩

/-! ## §3 — a request head. -/

/-- A head that is accepted: a request line with two spaces, a target whose escapes are legal and an HTTP
version, and header lines; every line fits in a block. -/
structure Head where
  token : Bytes
  target : Bytes
  version : Bytes
  headers : List HeaderLine
  token_ok : 32 ∉ token
  target_ok : 32 ∉ target
  version_ok : isVersion version = true
  decodes : (partsOf target).isSome = true
  crlf : ¬ CRLF <:+: token ++ 32 :: (target ++ 32 :: version)
  fits : token.length + target.length + version.length + 4 ≤ HTTP_BUFFER_BLOCK_SIZE

namespace Head

def line (h : Head) : Bytes := h.token ++ 32 :: (h.target ++ 32 :: h.version)

/-- The header lines and the empty line. -/
def tail (h : Head) : Bytes := h.headers.flatMap HeaderLine.bytes ++ CRLF

def bytes (h : Head) : Bytes := h.line ++ CRLF ++ h.tail

/-- What the target of the head assigns. -/
def parts (h : Head) : Parts := (partsOf h.target).getD {}

theorem partsOf_target (h : Head) : partsOf h.target = some h.parts := by
  obtain ⟨p, hp⟩ := Option.isSome_iff_exists.mp h.decodes
  rw [parts, hp]; rfl

theorem length_line (h : Head) : h.line.length = h.token.length + h.target.length + h.version.length + 2 := by
  simp [line]; omega

end Head

/-- The line fields in memory `d`: what was assigned in this read, and views that satisfy `P`. -/
structure LineShows (d : View → Option Bytes) (P : View → Prop) (old new : RequestLine) (h : Head) : Prop where
  method : new.method = .fromStringView h.token
  assigns : Assigns d P old new h.parts
  version : d new.version = some h.version ∧ P new.version

theorem FieldSet.mono {d d' : View → Option Bytes} {P P' : View → Prop} {old new : View} {b : Option Bytes}
    (h : FieldSet d P old new b) (hv : ∀ v, P v → d' v = d v ∧ P' v) : FieldSet d' P' old new b := by
  cases b with
  | none => exact h
  | some b => exact ⟨(hv new h.2).1.trans h.1, (hv new h.2).2⟩

theorem LineShows.mono {d d' : View → Option Bytes} {P P' : View → Prop} {old new : RequestLine} {h : Head}
    (hs : LineShows d P old new h) (hv : ∀ v, P v → d' v = d v ∧ P' v) : LineShows d' P' old new h where
  method := hs.method
  assigns := ⟨hs.assigns.scheme.mono hv, hs.assigns.host.mono hv, hs.assigns.port.mono hv, hs.assigns.path.mono hv,
    hs.assigns.query.mono hv⟩
  version := ⟨(hv _ hs.version.2).1.trans hs.version.1, (hv _ hs.version.2).2⟩

namespace RequestLine

variable {A : Alloc} {view : View} {bytes : Bytes} {line : RequestLine}

theorem parse_incomplete (h : ¬ CRLF <:+: bytes) :
    line.parse A view bytes = (line, 0, some .resourceUnavailableTryAgain) := by
  rw [parse, findText_of_not_infix (by simpa using h)]

/-- **The places of the two spaces**, in a line of any length: the target is read before the version is looked at. -/
theorem parse_of_fields {token target version post : Bytes} (htok : 32 ∉ token) (htgt : 32 ∉ target)
    (hcrlf : ¬ CRLF <:+: token ++ 32 :: (target ++ 32 :: version))
    (hb : bytes = token ++ 32 :: (target ++ 32 :: version) ++ CRLF ++ post) :
    line.parse A view bytes =
      match { line with method := .fromStringView token }.setTarget A (view.sub (token.length + 1) target.length)
          target with
      | (line', some ec) => (line', 0, some ec)
      | (line', none) =>
          if isVersion version then
            ({ line' with version := view.sub (token.length + target.length + 2) version.length },
              (token ++ 32 :: (target ++ 32 :: version)).length + 2, none)
          else (line', 0, some .illegalByteSequence) := by
  have hf := threeFields htok htgt hcrlf hb
  have hlen : (token ++ 32 :: (target ++ 32 :: version)).length =
      token.length + target.length + version.length + 2 := by simp; omega
  have hn1 : token.length + 1 + target.length - token.length - 1 = target.length := by omega
  have hn2 : (token ++ 32 :: (target ++ 32 :: version)).length - (token.length + 1 + target.length + 1) =
      version.length := by omega
  have hn3 : token.length + 1 + target.length + 1 = token.length + target.length + 2 := by omega
  rw [parse, hf.stop]
  simp only [hf.line, hf.space1, hf.space2, hn1, hf.first, hf.second, hf.third, hn2]
  exact hn3 ▸ rfl

theorem parse_of_line {token target version post : Bytes} (htok : 32 ∉ token) (htgt : 32 ∉ target)
    (hver : isVersion version = true) (hcrlf : ¬ CRLF <:+: token ++ 32 :: (target ++ 32 :: version))
    (hb : bytes = token ++ 32 :: (target ++ 32 :: version) ++ CRLF ++ post) :
    line.parse A view bytes =
      match { line with method := .fromStringView token }.setTarget A (view.sub (token.length + 1) target.length)
          target with
      | (line', some ec) => (line', 0, some ec)
      | (line', none) =>
          ({ line' with version := view.sub (token.length + target.length + 2) version.length },
            (token ++ 32 :: (target ++ 32 :: version)).length + 2, none) := by
  rw [parse_of_fields htok htgt hcrlf hb]
  simp only [hver, if_true]

theorem parse_of_head (h : Head) {post : Bytes} (hb : bytes = h.line ++ CRLF ++ post) :
    line.parse A view bytes =
      match { line with method := .fromStringView h.token }.setTarget A
          (view.sub (h.token.length + 1) h.target.length) h.target with
      | (line', some ec) => (line', 0, some ec)
      | (line', none) =>
          ({ line' with version := view.sub (h.token.length + h.target.length + 2) h.version.length },
            h.line.length + 2, none) :=
  parse_of_line h.token_ok h.target_ok h.version_ok h.crlf hb

/-- **`parse` on a complete request line**: it is consumed with its `CRLF`, and the fields it assigns show what
stands in it. -/
theorem parse_spec (h : Head) (line : RequestLine) {heap : Nat → Block} {id off : Nat} {post : Bytes} {P : View → Prop}
    (hb : slice (heap id) off (h.line ++ CRLF ++ post).length = h.line ++ CRLF ++ post)
    (hP : ∀ i n, i + n ≤ h.line.length → P (.block id (off + i) n)) (hempty : ∀ i, P (.block id i 0))
    (htext : ∀ b, P (.text b)) (hrawP : ∀ g o l, P (.raw g o l)) (hkeep : KeepsPath A line.raw h.target) :
    ∃ line', line.parse A (.block id off (h.line ++ CRLF ++ post).length) (h.line ++ CRLF ++ post) =
        (line', h.line.length + 2, none) ∧
      LineShows (View.deref heap line'.raw) P line line' h := by
  have hlen := h.length_line
  have hsub : ∀ i n, i + n ≤ h.line.length →
      (View.block id off (h.line ++ CRLF ++ post).length).sub i n = .block id (off + i) n := by
    intro i n hin
    show View.block id (off + i) (min n ((h.line ++ CRLF ++ post).length - i)) = _
    congr 1
    simp
    omega
  have hslice : ∀ i n, i + n ≤ h.line.length → slice (heap id) (off + i) n = substr h.line i n := by
    intro i n hin
    rw [← take_drop_slice (heap id) off (h.line ++ CRLF ++ post).length i n (by simp; omega), hb, substr,
      List.append_assoc, List.drop_append_of_le_length (by omega), List.take_append_of_le_length (by simp; omega)]
  have htarget : slice (heap id) (off + (h.token.length + 1)) h.target.length = h.target := by
    rw [hslice _ _ (by omega), substr, Head.line, ← List.drop_drop, List.drop_left, List.drop_one, List.tail_cons,
      List.take_left]
  have hversion : slice (heap id) (off + (h.token.length + h.target.length + 2)) h.version.length = h.version := by
    rw [hslice _ _ (by omega), substr, Head.line, show h.token ++ 32 :: (h.target ++ 32 :: h.version) =
      (h.token ++ 32 :: h.target ++ [32]) ++ h.version by simp, List.drop_left' (by simp; omega), List.take_length]
  have hPtarget : ∀ i n, P ((View.block id (off + (h.token.length + 1)) h.target.length).sub i n) := by
    intro i n
    show P (.block id (off + (h.token.length + 1) + i) (min n (h.target.length - i)))
    by_cases hi : i ≤ h.target.length
    · rw [Nat.add_assoc]; exact hP _ _ (by omega)
    · rw [show min n (h.target.length - i) = 0 by omega]; exact hempty _
  obtain ⟨line', hset, hm, hassign⟩ := setTarget_spec htarget hPtarget htext hrawP
    { line with method := .fromStringView h.token } h.partsOf_target hkeep
  rw [parse_of_head h rfl, hsub _ _ (by omega), hsub _ _ (by omega), hset]
  refine ⟨_, rfl, ?_⟩
  constructor
  · exact hm
  · exact ⟨hassign.scheme, hassign.host, hassign.port, hassign.path, hassign.query⟩
  · exact ⟨congrArg some hversion, hP _ _ (by omega)⟩

end RequestLine

end NetCpp.Http
