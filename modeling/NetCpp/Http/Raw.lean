/-
# NetCpp.Http.Raw — `_raw`: which decoded fields survive, and how long the buffer gets.

`include/xsl/net/http/request/line.h`.  Path and query are decoded one after the other into ONE string, and what is
handed out are views into it.  The `reserve` of the second decoding gives the string new storage when the room
that is left behind the path is too small, and the path that was just decoded then points into the old one.

Nothing ever shortens `_raw`: on an object that is reused for every head of a connection it holds the decoded
text of ALL of them.
-/
import NetCpp.Http.Grammar

namespace NetCpp.Http

open NetCpp.Lib

/-! ## §1 — the capacity that was reserved is enough. -/

/-- An escape of three characters leaves one byte: the loop appends no more than it reads. -/
theorem percentDecodeGo_length (n : Nat) (sv out : Bytes) :
    (percentDecodeGo n sv out).1.length + ((percentDecodeGo n sv out).2.getD []).length ≤ out.length + sv.length := by
  induction n generalizing sv out with
  | zero => simp [percentDecodeGo]
  | succ n ih =>
      rw [percentDecodeGo]
      split
      · simp
      · rename_i p hp
        have hlen : (sv.take p).length + (sv.drop (p + 1)).length ≤ sv.length := by
          simp
          omega
        dsimp only
        split
        · rename_i a b rest hdrop
          rw [hdrop] at hlen
          simp only [List.length_cons] at hlen
          split
          · rename_i v hv
            split
            · have hrest := ih rest (out ++ sv.take p ++ [v.toNat.toUInt8])
              simp only [List.length_append, List.length_singleton] at hrest
              omega
            · simp
          · simp
        · simp

/-- **What is appended fits in what was reserved**, so that only `reserve` gives the string new storage. -/
theorem percentDecode_fits (A : Alloc) (buffer : RawString) (sv : Bytes) :
    (percentDecode A buffer sv).1.contents.length ≤ (percentDecode A buffer sv).1.capacity := by
  have hcap : buffer.contents.length + sv.length ≤ (buffer.reserve A (buffer.contents.length + sv.length)).capacity := by
    unfold RawString.reserve
    split
    · assumption
    · exact A.enough _ _
  have hgo := percentDecodeGo_length sv.length sv []
  unfold percentDecode
  generalize percentDecodeGo sv.length sv [] = r at hgo ⊢
  obtain ⟨out, rest⟩ := r
  simp only [List.length_nil, Nat.zero_add] at hgo
  cases rest with
  | none =>
      simp only [Option.getD_none, List.length_nil, List.length_append, contents_reserve] at hgo ⊢
      omega
  | some rest =>
      simp only [Option.getD_some] at hgo
      simp only
      split
      · simp only [contents_reserve]
        omega
      · simp only [List.length_append, contents_reserve]
        omega

/-! ## §2 — a readable field. -/

/-- The percent-decoded text; `none` when an escape denotes nothing. -/
def percentDecoded (field : Bytes) : Option Bytes := (tokens field).mapM Token.denotes

/-- The view refers to the input line, or to the storage `_raw` has now. -/
def Refers (raw : RawString) (id off len : Nat) : View → Prop
  | .block i o n => i = id ∧ off ≤ o ∧ o + n ≤ off + len
  | .raw gen o n => gen = raw.gen ∧ o + n ≤ raw.contents.length
  | .text _ => False

/-- A view that refers to the line or to `_raw`, and reads as the percent-decoded component. -/
structure FieldReadable (heap : Nat → Block) (raw : RawString) (id off len : Nat) (v : View) (field : Bytes) : Prop where
  refers : Refers raw id off len v
  reads : ∃ b, percentDecoded field = some b ∧ View.deref heap raw v = some b

/-- The path and the query that a target has.  The empty path of an absolute form is the literal `/`. -/
def Target.Readable (heap : Nat → Block) (id off len : Nat) (line : RequestLine) : Target → Prop
  | .origin segs query =>
      FieldReadable heap line.raw id off len line.path (pathOf segs) ∧
        FieldReadable heap line.raw id off len line.query (query.getD [])
  | .absolute _ _ _ _ segs query =>
      (if pathOf segs = [] then line.path = .text (text "/")
        else FieldReadable heap line.raw id off len line.path (pathOf segs)) ∧
        FieldReadable heap line.raw id off len line.query (query.getD [])
  | .authority _ _ | .asterisk => True

/-- What the input line has of a path and a query is readable. -/
def ComponentsReadable (heap : Nat → Block) (id off len : Nat) (line : RequestLine) : Prop :=
  ∀ token (T : Target) version, T.Valid → Splits (slice (heap id) off len) token T.bytes version →
    T.Readable heap id off len line

/-- The capacity of the string when `n` more bytes were reserved. -/
def capacityAfter (A : Alloc) (raw : RawString) (n : Nat) : Nat :=
  if raw.contents.length + n ≤ raw.capacity then raw.capacity else A.grow raw.capacity (raw.contents.length + n)

/-- There is an escape in the path, and no room left behind the decoded path for the query. -/
def MovesFrom (A : Alloc) (raw : RawString) (path query : Bytes) : Prop :=
  37 ∈ path ∧ capacityAfter A raw path.length < raw.contents.length + (denotedText path).length + query.length

/-- The escapes of the path and the query are whole, and the decoding of the query finds room. -/
def Target.Kept (A : Alloc) (raw : RawString) : Target → Prop
  | .origin segs query | .absolute _ _ _ _ segs query =>
      WellEscaped (pathOf segs) ∧ WellEscaped (query.getD []) ∧ ¬ MovesFrom A raw (pathOf segs) (query.getD [])
  | .authority _ _ | .asterisk => True

def ComponentsKept (A : Alloc) (raw : RawString) (bytes : Bytes) : Prop :=
  ∀ token (T : Target) version, T.Valid → Splits bytes token T.bytes version → T.Kept A raw

theorem mapM_isSome_iff {ts : List Token} :
    (ts.mapM Token.denotes).isSome = true ↔ ∀ t ∈ ts, t.denotes.isSome = true := by
  induction ts with
  | nil => simp
  | cons t ts ih =>
      rw [List.mapM_cons, List.forall_mem_cons, ← ih]
      cases t.denotes with
      | none => simp
      | some b => cases ts.mapM Token.denotes <;> simp

theorem mapM_eq_filterMap {ts : List Token} (h : ∀ t ∈ ts, t.denotes.isSome = true) :
    ts.mapM Token.denotes = some (ts.filterMap Token.denotes) := by
  induction ts with
  | nil => rfl
  | cons t ts ih =>
      obtain ⟨ht, hts⟩ := List.forall_mem_cons.mp h
      obtain ⟨b, hb⟩ := Option.isSome_iff_exists.mp ht
      rw [List.mapM_cons, hb, ih hts, List.filterMap_cons_some hb]
      rfl

theorem wellEscaped_of_percentDecoded {field b : Bytes} (h : percentDecoded field = some b) : WellEscaped field :=
  mapM_isSome_iff.mp (by rw [← percentDecoded, h]; rfl)

theorem percentDecoded_of_wellEscaped {field : Bytes} (h : WellEscaped field) :
    percentDecoded field = some (denotedText field) :=
  mapM_eq_filterMap h

/-! ## §3 — the two decodings. -/

section Decode

variable {A : Alloc} {raw : RawString} {path query : Bytes}

theorem capacity_rawAfter (A : Alloc) (raw : RawString) (field : Bytes) :
    (rawAfter A raw field).capacity = capacityAfter A raw field.length := by
  unfold rawAfter RawString.reserve capacityAfter
  split <;> split <;> rfl

theorem length_rawAfter (h : WellEscaped path) (hmem : 37 ∈ path) :
    (rawAfter A raw path).contents.length = raw.contents.length + (denotedText path).length := by
  rw [contents_rawAfter, if_pos hmem, decoded_of_wellEscaped h]
  simp

/-- There is room for the query unless its decoding moves the path. -/
theorem roomFor_iff_not_moves (h : WellEscaped path) : RoomFor A raw path query ↔ ¬ MovesFrom A raw path query := by
  unfold RoomFor MovesFrom
  rw [capacity_rawAfter]
  constructor
  · rintro hroom ⟨hmem, hlt⟩
    have := hroom hmem
    rw [length_rawAfter h hmem] at this
    omega
  · intro hno hmem
    rw [length_rawAfter h hmem]
    by_contra hgt
    exact hno ⟨hmem, by omega⟩

theorem prefix_rawAfter (A : Alloc) (raw : RawString) (field : Bytes) :
    raw.contents <+: (rawAfter A raw field).contents := by
  rw [contents_rawAfter]
  exact List.prefix_append _ _

variable {heap : Nat → Block} {id off o : Nat} {len : Nat} {target : Bytes} {s : Span}

/-- The view of a field is readable as long as `_raw` keeps the storage the field was decoded to. -/
theorem viewAfter_readable (hslice : slice (heap id) o target.length = target) (hin : off ≤ o ∧ o + target.length ≤ off + len)
    (hs : s.1 ≤ target.length) (hesc : WellEscaped (fieldAt target s)) {raw' : RawString}
    (hraw : 37 ∈ fieldAt target s → raw'.gen = (rawAfter A raw (fieldAt target s)).gen ∧
      (rawAfter A raw (fieldAt target s)).contents <+: raw'.contents) :
    FieldReadable heap raw' id off len (viewAfter A raw (.block id o target.length) target s) (fieldAt target s) := by
  have hdec := decoded_of_wellEscaped hesc
  constructor
  · unfold viewAfter
    by_cases hmem : 37 ∈ fieldAt target s
    · obtain ⟨hgen, hpre⟩ := hraw hmem
      rw [if_pos hmem, hdec]
      refine ⟨hgen.symm, ?_⟩
      have hlen := hpre.length_le
      rw [length_rawAfter hesc hmem] at hlen
      exact hlen
    · rw [if_neg hmem]
      refine ⟨rfl, ?_, ?_⟩
      · omega
      · show o + s.1 + min (s.2 - s.1) (target.length - s.1) ≤ off + len
        omega
  · exact ⟨denotedText (fieldAt target s), percentDecoded_of_wellEscaped hesc, deref_viewAfter hslice hdec hraw⟩

/-- **Both fields are readable** when there is room for the query. -/
theorem setPathQuery_readable (hslice : slice (heap id) o target.length = target)
    (hin : off ≤ o ∧ o + target.length ≤ off + len) (line : RequestLine) (slash : Bool) {p q : Span}
    (hp : p.1 ≤ target.length) (hq : q.1 ≤ target.length) (hpe : WellEscaped (fieldAt target p))
    (hqe : WellEscaped (fieldAt target q)) (hroom : RoomFor A line.raw (fieldAt target p) (fieldAt target q)) :
    let line' := (line.setPathQuery A (.block id o target.length) target p q slash).1
    (if slash = true ∧ fieldAt target p = [] then line'.path = .text (text "/")
      else FieldReadable heap line'.raw id off len line'.path (fieldAt target p)) ∧
      FieldReadable heap line'.raw id off len line'.query (fieldAt target q) := by
  have hpd := decoded_of_wellEscaped hpe
  have hsize := size_viewAfter (A := A) hslice line.raw hpd
  have hempty : (viewAfter A line.raw (.block id o target.length) target p).size = 0 ↔ fieldAt target p = [] := by
    rw [hsize, List.length_eq_zero_iff]
    constructor
    · intro hnil
      by_contra hne
      exact denotedText_ne_nil hpe hne hnil
    · intro hnil
      rw [hnil]
      rfl
  unfold RequestLine.setPathQuery
  rw [percentDecode_eq A _ target p line hpd]
  simp only
  rw [percentDecode_eq A _ target q _ (decoded_of_wellEscaped hqe)]
  constructor
  · by_cases hs : slash = true ∧ fieldAt target p = []
    · rw [if_pos hs, if_pos]
      rw [hs.1, Bool.true_and, beq_iff_eq]
      exact hempty.mpr hs.2
    · rw [if_neg hs, if_neg]
      · apply viewAfter_readable hslice hin hp hpe
        intro hmem
        exact ⟨gen_rawAfter_of_room (hroom hmem), prefix_rawAfter A _ _⟩
      · intro hc
        rw [Bool.and_eq_true, beq_iff_eq, hempty] at hc
        exact hs hc
  · exact viewAfter_readable hslice hin hq hqe fun _ => ⟨rfl, List.prefix_refl _⟩

end Decode

/-! ## §4 — a request line. -/

/-- The path and the query of a target start inside it. -/
theorem querySpan_le (n : Nat) (query : Option Bytes) : (querySpan n query).1 ≤ n + (queryPart query).length := by
  cases query <;> simp [querySpan, queryPart]

section Target

variable {A : Alloc} {heap : Nat → Block} {id off o len : Nat}

/-- A path and a query that stand at `p` and `q` in a target. -/
theorem setPathQuery_readable_iff {target path query : Bytes} (hslice : slice (heap id) o target.length = target)
    (hin : off ≤ o ∧ o + target.length ≤ off + len) (line : RequestLine) (slash : Bool) {p q : Span}
    (hp : p.1 ≤ target.length) (hq : q.1 ≤ target.length) (hpath : fieldAt target p = path)
    (hquery : fieldAt target q = query) (hpt : Taken path) (hqt : Taken query) :
    let line' := (line.setPathQuery A (.block id o target.length) target p q slash).1
    ((if slash = true ∧ path = [] then line'.path = .text (text "/")
        else FieldReadable heap line'.raw id off len line'.path path) ∧
      FieldReadable heap line'.raw id off len line'.query query) ↔
      WellEscaped path ∧ WellEscaped query ∧ ¬ MovesFrom A line.raw path query := by
  subst hpath hquery
  constructor
  · rintro ⟨hpr, hqr⟩
    obtain ⟨b, hb, -⟩ := hqr.reads
    have hqe := wellEscaped_of_percentDecoded hb
    by_cases hs : slash = true ∧ fieldAt target p = []
    · refine ⟨?_, hqe, ?_⟩
      · rw [hs.2]
        intro t ht
        cases ht
      · rintro ⟨hmem, -⟩
        rw [hs.2] at hmem
        cases hmem
    · rw [if_neg hs] at hpr
      obtain ⟨b', hb', hderef⟩ := hpr.reads
      have hpe := wellEscaped_of_percentDecoded hb'
      refine ⟨hpe, hqe, ?_⟩
      rw [← roomFor_iff_not_moves hpe]
      by_contra hno
      have hdangles : ¬ PathShown heap (line.setPathQuery A (.block id o target.length) target p q slash).1 :=
        setPathQuery_dangles slash hpt hqt hno
      exact hdangles ⟨b', hderef⟩
  · rintro ⟨hpe, hqe, hno⟩
    exact setPathQuery_readable hslice hin line slash hp hq hpe hqe ((roomFor_iff_not_moves hpe).mpr hno)

/-- **The components of one target** are readable exactly when they are kept. -/
theorem setTarget_readable_iff {T : Target} (hT : T.Valid) (hslice : slice (heap id) o T.bytes.length = T.bytes)
    (hin : off ≤ o ∧ o + T.bytes.length ≤ off + len) (line : RequestLine)
    (ht : ∀ field ∈ fieldsOf T.bytes, Taken field) :
    T.Readable heap id off len (line.setTarget A (.block id o T.bytes.length) T.bytes).1 ↔ T.Kept A line.raw := by
  rw [fieldsOf_bytes hT] at ht
  have hfields := (form_spec T).2
  unfold RequestLine.setTarget
  rw [matchTarget_bytes hT]
  cases T with
  | origin segs query =>
      obtain ⟨hpath, hquery⟩ : fieldAt _ _ = _ ∧ fieldAt _ _ = _ := by
        simpa [Target.form, Form.fields, Target.fields] using hfields
      have hiff := setPathQuery_readable_iff (A := A) hslice hin line false (Nat.zero_le _)
        (by simpa [Target.bytes] using querySpan_le (pathOf segs).length query) hpath hquery
        (ht _ (by simp [Target.fields])) (ht _ (by simp [Target.fields]))
      simpa [Target.Readable, Target.Kept, Target.form] using hiff
  | absolute scheme userinfo host port segs query =>
      obtain ⟨hpath, hquery⟩ : fieldAt _ _ = _ ∧ fieldAt _ _ = _ := by
        simpa [Target.form, Form.fields, Target.fields] using hfields
      set target := (Target.absolute scheme userinfo host port segs query).bytes with htarget
      have hlen : target.length = scheme.length + 3 + (Target.authorityPart userinfo host port).length +
          (pathOf segs).length + (queryPart query).length := by
        rw [htarget]
        simp [Target.bytes]
        omega
      have hq := querySpan_le (scheme.length + 3 + (Target.authorityPart userinfo host port).length +
        (pathOf segs).length) query
      have hiff : ∀ line : RequestLine, _ := fun line =>
        setPathQuery_readable_iff (A := A) hslice hin line true (by simp only; omega) (by omega) hpath hquery
          (ht _ (by simp [Target.fields])) (ht _ (by simp [Target.fields]))
      simp only [true_and] at hiff
      exact hiff _
  | authority host port => exact Iff.rfl
  | asterisk => exact Iff.rfl

/-- What a target says about a line is about three of its fields. -/
theorem Target.readable_congr {line line' : RequestLine} (hraw : line'.raw = line.raw) (hpath : line'.path = line.path)
    (hquery : line'.query = line.query) (T : Target) :
    T.Readable heap id off len line' ↔ T.Readable heap id off len line := by
  cases T <;> simp only [Target.Readable, hraw, hpath, hquery]

end Target

section Parsed

variable {A : Alloc} {line : RequestLine} {view : View} {bytes token target version : Bytes}

/-- A line that is parsed has two spaces. -/
theorem exists_splits (hok : (line.parse A view bytes).2.2 = none) :
    ∃ token target version, Splits bytes token target version := by
  by_contra hno
  by_cases hcrlf : CRLF <:+: bytes
  · rw [parse_of_not_splits hcrlf fun t g v hs => hno ⟨t, g, v, hs⟩] at hok
    cases hok
  · rw [RequestLine.parse_incomplete hcrlf] at hok
    cases hok

/-- A line that is parsed has a target whose escapes are taken, and an HTTP version. -/
theorem parsed_of_splits (hs : Splits bytes token target version) (hok : (line.parse A view bytes).2.2 = none) :
    (∀ field ∈ fieldsOf target, Taken field) ∧ isVersion version = true ∧
      (line.parse A view bytes).1 =
        { ({ line with method := .fromStringView token }.setTarget A (view.sub (token.length + 1) target.length)
            target).1 with version := view.sub (token.length + target.length + 2) version.length } := by
  rw [parse_of_splits hs] at hok ⊢
  have hres := setTarget_result A (view.sub (token.length + 1) target.length) target
    { line with method := .fromStringView token }
  generalize RequestLine.setTarget A _ target _ = r at hres hok ⊢
  obtain ⟨line', ec⟩ := r
  rcases hres with ⟨hec, ht⟩ | ⟨hec, -⟩
  · obtain rfl : ec = none := hec
    simp only at hok ⊢
    split at hok
    · rename_i hver
      rw [if_pos hver]
      exact ⟨ht, hver, rfl⟩
    · cases hok
  · obtain rfl : ec = some _ := hec
    cases hok

end Parsed

/-- **Decoded fields stay readable** on a line that is accepted exactly when its escapes are whole and the
decoding of the query does not move the decoded path. -/
theorem components_readable_iff (A : Alloc) (heap : Nat → Block) (id off len : Nat) (line : RequestLine)
    (hok : (line.parse A (.block id off len) (slice (heap id) off len)).2.2 = none) :
    ComponentsReadable heap id off len (line.parse A (.block id off len) (slice (heap id) off len)).1 ↔
      ComponentsKept A line.raw (slice (heap id) off len) := by
  apply forall_congr'
  intro token
  apply forall_congr'
  intro T
  apply forall_congr'
  intro version
  apply forall_congr'
  intro hT
  apply forall_congr'
  intro hs
  obtain ⟨post, hpost⟩ := hs.first
  have hlen := congrArg List.length hpost
  simp only [fieldsLine, CRLF, List.length_append, List.length_cons, List.length_nil, length_slice] at hlen
  have hsub : (View.block id off len).sub (token.length + 1) T.bytes.length =
      .block id (off + (token.length + 1)) T.bytes.length := by
    show View.block id _ (min T.bytes.length (len - (token.length + 1))) = _
    congr 1
    omega
  have hslice : slice (heap id) (off + (token.length + 1)) T.bytes.length = T.bytes := by
    rw [← take_drop_slice (heap id) off len (token.length + 1) _ (by omega), ← hpost, fieldsLine]
    simp
  have hin : off ≤ off + (token.length + 1) ∧ off + (token.length + 1) + T.bytes.length ≤ off + len := by omega
  obtain ⟨ht, -, hline⟩ := parsed_of_splits hs hok
  rw [hline, hsub]
  exact (Target.readable_congr rfl rfl rfl T).trans
    (setTarget_readable_iff hT hslice hin { line with method := .fromStringView token } ht)

/-- A line whose path has an escape, and whose query is longer than what is left of the capacity. -/
def movingLine : Bytes := text "GET /%41aaaaaaaaaaaaaaaa?bbbbbbbbbbbbbbbbbbbb HTTP/1.1" ++ CRLF

/-- The memory with a text in every block. -/
def holding (bytes : Bytes) : Nat → Block := fun _ i => bytes.getD i 0

/-- **The decoded path dangles** when the query is decoded behind it. -/
theorem path_dangles_after_query :
    ((RequestLine.init libstdcpp).parse libstdcpp (.block 0 0 movingLine.length)
        (slice (holding movingLine 0) 0 movingLine.length)).2.2 = none ∧
      ¬ ComponentsReadable (holding movingLine) 0 0 movingLine.length
        ((RequestLine.init libstdcpp).parse libstdcpp (.block 0 0 movingLine.length)
          (slice (holding movingLine 0) 0 movingLine.length)).1 := by
  refine ⟨by decide, ?_⟩
  intro h
  have hread := h (text "GET") (.origin [text "%41aaaaaaaaaaaaaaaa"] (text "bbbbbbbbbbbbbbbbbbbb")) (text "HTTP/1.1")
    ⟨by decide, by decide⟩ ⟨by decide, by decide, by decide, by decide⟩
  obtain ⟨b, -, hb⟩ := hread.1.reads
  have hnone : View.deref (holding movingLine)
      ((RequestLine.init libstdcpp).parse libstdcpp (.block 0 0 movingLine.length)
        (slice (holding movingLine 0) 0 movingLine.length)).1.raw
      ((RequestLine.init libstdcpp).parse libstdcpp (.block 0 0 movingLine.length)
        (slice (holding movingLine 0) 0 movingLine.length)).1.path = none := by
    decide
  rw [hnone] at hb
  cases hb

/-- A line whose decoded path leaves room for the query. -/
def keptLine : Bytes := text "GET /%41?b HTTP/1.1" ++ CRLF

theorem components_readable_kept :
    ComponentsReadable (holding keptLine) 0 0 keptLine.length
        ((RequestLine.init libstdcpp).parse libstdcpp (.block 0 0 keptLine.length)
          (slice (holding keptLine 0) 0 keptLine.length)).1 ↔
      ComponentsKept libstdcpp (RequestLine.init libstdcpp).raw (slice (holding keptLine 0) 0 keptLine.length) :=
  components_readable_iff libstdcpp (holding keptLine) 0 0 keptLine.length (RequestLine.init libstdcpp) (by decide)

/-! ## §5 — the length of the buffer. -/

/-- The lines are parsed on one object, each of them successfully. -/
def parseLines (A : Alloc) : RequestLine → List (View × Bytes) → Option RequestLine
  | line, [] => some line
  | line, l :: lines =>
      match line.parse A l.1 l.2 with
      | (line', _, none) => parseLines A line' lines
      | (_, _, some _) => none

/-- How many bytes of the target stand, decoded, in the buffer: the characters and escapes of the fields that have
an escape. -/
def escapedSize (bytes : Bytes) : Nat :=
  match targetOf bytes with
  | some target => (((fieldsOf target).filter (37 ∈ ·)).map fun field => (tokens field).length).sum
  | none => 0

theorem escapedSize_of_target {bytes target : Bytes} (h : targetOf bytes = some target) :
    escapedSize bytes = (((fieldsOf target).filter (37 ∈ ·)).map fun field => (tokens field).length).sum := by
  rw [escapedSize, h]

/-- The buffer is at most `L` bytes long after each parse. -/
def Bounded (A : Alloc) (L : Nat) (lines : List (View × Bytes)) : Prop :=
  ∀ k line, parseLines A (RequestLine.init A) (lines.take k) = some line → line.raw.contents.length ≤ L

theorem length_valueText {ts : List Token} (h : ∀ t ∈ ts, t.value.isSome = true) : (valueText ts).length = ts.length := by
  induction ts with
  | nil => rfl
  | cons t ts ih =>
      obtain ⟨ht, hts⟩ := List.forall_mem_cons.mp h
      obtain ⟨b, hb⟩ := Option.isSome_iff_exists.mp ht
      rw [valueText, List.filterMap_cons_some hb, List.length_cons, ← valueText, ih hts, List.length_cons]

theorem length_appendedAll {fields : List Bytes} (h : ∀ field ∈ fields, Taken field) :
    (appendedAll fields).length = ((fields.filter (37 ∈ ·)).map fun field => (tokens field).length).sum := by
  induction fields with
  | nil => rfl
  | cons field fields ih =>
      obtain ⟨hf, hfs⟩ := List.forall_mem_cons.mp h
      have hleg := (legal_eq_iff field).mpr hf
      rw [appendedAll, if_pos hleg, List.length_append, ih hfs, appended]
      by_cases hmem : 37 ∈ field
      · rw [if_pos hmem, hleg, length_valueText hf, List.filter_cons_of_pos (by simpa using hmem)]
        rfl
      · rw [if_neg hmem, List.filter_cons_of_neg (by simpa using hmem)]
        simp

theorem targetOf_of_splits {bytes token target version : Bytes} (hs : Splits bytes token target version) :
    targetOf bytes = some target := by
  obtain ⟨post, hpost⟩ := hs.first
  have hf := threeFields hs.token_ok hs.target_ok hs.crlf hpost.symm
  have hn : token.length + 1 + target.length - token.length - 1 = target.length := by omega
  simp only [targetOf, hf.stop, hf.line, hf.space1, hf.space2, hn, hf.second, Option.bind_eq_bind, Option.bind_some,
    Option.pure_def]

/-- **One parse** makes the buffer longer by the decoded fields. -/
theorem length_parse (A : Alloc) (line : RequestLine) (view : View) (bytes : Bytes)
    (hok : (line.parse A view bytes).2.2 = none) :
    (line.parse A view bytes).1.raw.contents.length = line.raw.contents.length + escapedSize bytes := by
  obtain ⟨token, target, version, hs⟩ := exists_splits hok
  obtain ⟨ht, -, -⟩ := parsed_of_splits hs hok
  have htarget := targetOf_of_splits hs
  rw [RequestLine.contents_parse, List.length_append, appendedBy, escapedSize_of_target htarget, htarget]
  simp only [length_appendedAll ht]

/-- **A run** makes it longer by the decoded fields of all its lines. -/
theorem length_parseLines {A : Alloc} {line line' : RequestLine} {lines : List (View × Bytes)}
    (h : parseLines A line lines = some line') :
    line'.raw.contents.length = line.raw.contents.length + (lines.map fun l => escapedSize l.2).sum := by
  induction lines generalizing line with
  | nil =>
      obtain rfl : line = line' := Option.some.inj h
      rfl
  | cons l lines ih =>
      rw [parseLines] at h
      have hlen := length_parse A line l.1 l.2
      generalize line.parse A l.1 l.2 = r at h hlen
      obtain ⟨line₁, n, ec⟩ := r
      cases ec with
      | some ec => cases h
      | none =>
          rw [ih h, hlen rfl, List.map_cons, List.sum_cons, Nat.add_assoc]

/-- **The buffer is bounded** along a run of lines that are all parsed exactly when the decoded fields of all of
them are. -/
theorem bounded_iff (A : Alloc) (L : Nat) (lines : List (View × Bytes))
    (hok : (parseLines A (RequestLine.init A) lines).isSome = true) :
    Bounded A L lines ↔ (lines.map fun l => escapedSize l.2).sum ≤ L := by
  obtain ⟨last, hlast⟩ := Option.isSome_iff_exists.mp hok
  constructor
  · intro h
    have hle := h lines.length last (by rwa [List.take_length])
    rw [length_parseLines hlast] at hle
    simpa [RequestLine.init] using hle
  · intro h k line hline
    rw [length_parseLines hline]
    have hsum : (lines.map fun l => escapedSize l.2).sum =
        ((lines.take k).map fun l => escapedSize l.2).sum + ((lines.drop k).map fun l => escapedSize l.2).sum := by
      rw [← List.sum_append, ← List.map_append, List.take_append_drop]
    simp only [RequestLine.init, List.length_nil]
    omega

/-- A line of which only the query is decoded. -/
def queryLine : Bytes := text "GET /ab?%63=d HTTP/1.1" ++ CRLF

/-- Two lines on one object: of the first the path is decoded, of the second the query. -/
theorem bounded_kept :
    Bounded libstdcpp keptLine.length
      [(.block 0 0 keptLine.length, keptLine), (.block 1 0 queryLine.length, queryLine)] := by
  have hkept : escapedSize keptLine = 2 := by
    rw [escapedSize_of_target (show targetOf keptLine = some (text "/%41?b") by decide),
      show fieldsOf (text "/%41?b") = [text "/%41", text "b"] by decide]
    decide
  have hquery : escapedSize queryLine = 3 := by
    rw [escapedSize_of_target (show targetOf queryLine = some (text "/ab?%63=d") by decide),
      show fieldsOf (text "/ab?%63=d") = [text "/ab", text "%63=d"] by decide]
    decide
  apply (bounded_iff libstdcpp keptLine.length
    [(.block 0 0 keptLine.length, keptLine), (.block 1 0 queryLine.length, queryLine)] (by decide)).mpr
  simp only [List.map_cons, List.map_nil, List.sum_cons, List.sum_nil, hkept, hquery]
  decide

/-- A line whose path is most of it, with one escape. -/
def longLine : Bytes := text "GET /aaaaaaaaaaaaaaaaaaaaaaaaaaaaaa%41 HTTP/1.1" ++ CRLF

/-- **The second request** takes the buffer past the length of both lines. -/
theorem buffer_grows_with_requests :
    (parseLines libstdcpp (RequestLine.init libstdcpp)
        [(.block 0 0 longLine.length, longLine), (.block 1 0 longLine.length, longLine)]).isSome = true ∧
      ¬ Bounded libstdcpp longLine.length
        [(.block 0 0 longLine.length, longLine), (.block 1 0 longLine.length, longLine)] := by
  refine ⟨by decide, ?_⟩
  intro h
  have hlen : (parseLines libstdcpp (RequestLine.init libstdcpp)
      [(.block 0 0 longLine.length, longLine), (.block 1 0 longLine.length, longLine)]).map
        (fun line => line.raw.contents.length) = some 64 := by
    decide
  obtain ⟨line, hline, hlen⟩ := Option.map_eq_some_iff.mp hlen
  have hle := h 2 line hline
  rw [hlen] at hle
  exact absurd hle (by decide)

end NetCpp.Http
