/-
# NetCpp.Http.Grammar — which request lines `RequestLine::parse` accepts.

`include/xsl/net/http/request/line.h`.  A target that NO alternative matches is not rejected: the branch has no
`else`, nothing is assigned, and the version decides.  An origin form may have an empty path, an escape may be
partly hexadecimal, and decoding the query may give `_raw` new storage under the path that was just decoded.
`Deviates` lists these four kinds; on every other view the function accepts the grammar and nothing else.
-/
import NetCpp.Http.Form

namespace NetCpp.Http

open NetCpp.Lib

/-! ## §1 — the grammar. -/

/-- Every escape of a field has two hexadecimal digits. -/
def WellEscaped (field : Bytes) : Prop := ∀ t ∈ tokens field, t.denotes.isSome = true

/-- Every escape of a field is taken by the code. -/
def Taken (field : Bytes) : Prop := ∀ t ∈ tokens field, t.value.isSome = true

/-- A target of the grammar. -/
structure Target.Accepted (T : Target) : Prop where
  valid : T.Valid
  escapes : ∀ field ∈ T.fields, WellEscaped field
  path : ∀ query, T ≠ .origin [] query

/-- The components of a target, percent-decoded. -/
def Target.components (T : Target) : Parts := (T.partsWith fun field => some (denotedText field)).getD {}

/-- The text of a line of three fields. -/
def fieldsLine (token target version : Bytes) : Bytes := token ++ 32 :: (target ++ 32 :: version)

/-- The view shows a line of three fields up to its first `CRLF`. -/
structure Splits (bytes token target version : Bytes) : Prop where
  token_ok : 32 ∉ token
  target_ok : 32 ∉ target
  crlf : ¬ CRLF <:+: fieldsLine token target version
  first : fieldsLine token target version ++ CRLF <+: bytes

def versionText (a b : UInt8) : Bytes := text "HTTP/" ++ [a] ++ text "." ++ [b]

/-- The view shows a request line of the grammar: `method SP target SP HTTP/digit.digit`. -/
structure IsRequest (bytes token : Bytes) (T : Target) (a b : UInt8) : Prop where
  splits : Splits bytes token T.bytes (versionText a b)
  accepted : T.Accepted
  major : 48 ≤ a ∧ a ≤ 57
  minor : 48 ≤ b ∧ b ≤ 57

/-- `parse` of a fresh line on a view of `len` bytes. -/
def parseFresh (A : Alloc) (heap : Nat → Block) (id off len : Nat) : RequestLine × Nat × Option Errc :=
  (RequestLine.init A).parse A (.block id off len) (slice (heap id) off len)

/-- **`parse` accepts exactly the grammar** on a view, and assigns what the target says. -/
structure ParsesGrammar (A : Alloc) (heap : Nat → Block) (id off len : Nat) : Prop where
  tryAgain : (parseFresh A heap id off len).2.2 = some .resourceUnavailableTryAgain ↔
    ¬ CRLF <:+: slice (heap id) off len
  accepts : (parseFresh A heap id off len).2.2 = none ↔
    ∃ token T a b, IsRequest (slice (heap id) off len) token T a b
  rejects : CRLF <:+: slice (heap id) off len → (parseFresh A heap id off len).2.2 ≠ none →
    (parseFresh A heap id off len).2.2 = some .illegalByteSequence
  assigns : ∀ token T a b, IsRequest (slice (heap id) off len) token T a b →
    (parseFresh A heap id off len).2.1 = (fieldsLine token T.bytes (versionText a b)).length + 2 ∧
      (parseFresh A heap id off len).1.method = .fromStringView token ∧
      Assigns (View.deref heap (parseFresh A heap id off len).1.raw) (fun _ => True) (RequestLine.init A)
        (parseFresh A heap id off len).1 T.components ∧
      ∃ path, View.deref heap (parseFresh A heap id off len).1.raw (parseFresh A heap id off len).1.path = some path ∧
        path ≠ []

/-! ## §2 — where the function deviates. -/

/-- The room for a string when `n` bytes are asked for in a new one. -/
def capacityFor (A : Alloc) (n : Nat) : Nat := if n ≤ A.initial then A.initial else A.grow A.initial n

/-- Decoding the query moves the storage that the decoded path stands in. -/
def Moves (A : Alloc) (path query : Bytes) : Prop :=
  37 ∈ path ∧ capacityFor A path.length < (valueText (tokens path)).length + query.length

/-- The kinds of target the function accepts beyond the grammar, or assigns wrongly. -/
inductive Deviation (A : Alloc) (target : Bytes) : Prop
  | noForm (h : ∀ T : Target, T.Valid → T.bytes ≠ target)
  | emptyPath (query : Option Bytes) (h : (Target.origin [] query).Valid) (he : (Target.origin [] query).bytes = target)
      (ht : ∀ field ∈ fieldsOf target, Taken field)
  | partlyHex (ht : ∀ field ∈ fieldsOf target, Taken field) (field : Bytes) (hf : field ∈ fieldsOf target) (t : Token)
      (hm : t ∈ tokens field) (hp : t.PartlyHex)
  | moved (ht : ∀ field ∈ fieldsOf target, Taken field) (path query : Bytes) (hf : fieldsOf target = [path, query])
      (hmv : Moves A path query)

/-- The view shows a line of two spaces and an HTTP version whose target is of one of the kinds. -/
def Deviates (A : Alloc) (bytes : Bytes) : Prop :=
  ∃ token target version, Splits bytes token target version ∧ isVersion version = true ∧ Deviation A target

/-! ## §3 — reading the line. -/

/-- A version is `HTTP/`, a digit, a dot and a digit. -/
theorem isVersion_iff (v : Bytes) :
    isVersion v = true ↔ ∃ a b : UInt8, (48 ≤ a ∧ a ≤ 57) ∧ (48 ≤ b ∧ b ≤ 57) ∧ v = versionText a b := by
  constructor
  · intro h
    obtain ⟨caps, hcaps⟩ := Option.isSome_iff_exists.mp h
    obtain ⟨_, h1, _, ⟨_, h2, _, ⟨_, h3, _, ⟨_, h4, _, ⟨_, h5, _, ⟨_, ⟨a, ha, rfl⟩, _, ⟨_, h6, _, ⟨b, hb, rfl⟩, rfl⟩,
      rfl⟩, rfl⟩, rfl⟩, rfl⟩, rfl⟩, rfl⟩ := Re.mem_lang_of_fullMatch hcaps
    obtain rfl := mem_lang_char h1
    obtain rfl := mem_lang_char h2
    obtain rfl := mem_lang_char h3
    obtain rfl := mem_lang_char h4
    obtain rfl := mem_lang_char h5
    obtain rfl := mem_lang_char h6
    exact ⟨a, b, by simpa using ha, by simpa using hb, rfl⟩
  · rintro ⟨a, b, ha, hb, rfl⟩
    exact isVersion_of_digits ha hb

/-- A view with a `CRLF` begins with a line. -/
theorem exists_line {bytes : Bytes} (h : CRLF <:+: bytes) : ∃ l, ¬ CRLF <:+: l ∧ l ++ CRLF <+: bytes := by
  induction bytes with
  | nil => exact absurd h (by decide)
  | cons b bytes ih =>
      by_cases hp : CRLF <+: b :: bytes
      · exact ⟨[], by decide, hp⟩
      · obtain ⟨l, hl, hpre⟩ := ih ((List.infix_cons_iff.mp h).resolve_left hp)
        refine ⟨b :: l, ?_, List.cons_prefix_cons.mpr ⟨rfl, hpre⟩⟩
        rw [List.infix_cons_iff, not_or]
        refine ⟨fun hbl => hp (hbl.trans ?_), hl⟩
        exact List.cons_prefix_cons.mpr ⟨rfl, (List.prefix_append l CRLF).trans hpre⟩

theorem findText_of_first {bytes l : Bytes} (hl : ¬ CRLF <:+: l) (hpre : l ++ CRLF <+: bytes) :
    findText bytes CRLF 0 = some l.length := by
  obtain ⟨post, rfl⟩ := hpre
  have := findText_line [] post hl
  rw [List.nil_append] at this
  simpa using this

theorem take_of_first {bytes l : Bytes} (hpre : l ++ CRLF <+: bytes) : substr bytes 0 l.length = l := by
  obtain ⟨post, rfl⟩ := hpre
  rw [substr, List.drop_zero, List.append_assoc, List.take_left]

/-- The first line of a view is one line. -/
theorem first_unique {bytes l l' : Bytes} (hl : ¬ CRLF <:+: l) (hpre : l ++ CRLF <+: bytes) (hl' : ¬ CRLF <:+: l')
    (hpre' : l' ++ CRLF <+: bytes) : l = l' := by
  have hlen := (findText_of_first hl hpre).symm.trans (findText_of_first hl' hpre')
  rw [← take_of_first hpre, ← take_of_first hpre', Option.some.inj hlen]

/-- A text is cut at its first `c` in one way. -/
theorem cut_unique {c : UInt8} {t t' u u' : Bytes} (ht : c ∉ t) (ht' : c ∉ t') (h : t ++ c :: u = t' ++ c :: u') :
    t = t' ∧ u = u' := by
  have h1 := findByte_of_append [] u ht
  have h2 := findByte_of_append [] u' ht'
  rw [List.nil_append] at h1 h2
  rw [h, h2] at h1
  obtain ⟨ha, hb⟩ := List.append_inj h (by simpa using h1.symm)
  exact ⟨ha, (List.cons.inj hb).2⟩

theorem Splits.unique {bytes t g v t' g' v' : Bytes} (h : Splits bytes t g v) (h' : Splits bytes t' g' v') :
    t = t' ∧ g = g' ∧ v = v' := by
  have hline := first_unique h.crlf h.first h'.crlf h'.first
  obtain ⟨rfl, hrest⟩ := cut_unique h.token_ok h'.token_ok hline
  obtain ⟨rfl, rfl⟩ := cut_unique h.target_ok h'.target_ok hrest
  exact ⟨rfl, rfl, rfl⟩

section Parse

variable {A : Alloc} {view : View} {bytes : Bytes} {line : RequestLine}

/-- **A line with fewer than two spaces is rejected.** -/
theorem parse_of_not_splits (h : CRLF <:+: bytes) (hno : ∀ t g v, ¬ Splits bytes t g v) :
    line.parse A view bytes = (line, 0, some .illegalByteSequence) := by
  obtain ⟨l, hl, hpre⟩ := exists_line h
  rw [RequestLine.parse, findText_of_first hl hpre]
  simp only [take_of_first hpre]
  rcases cut_at 32 l with h32 | ⟨t, u, ht, rfl⟩
  · rw [findByte_of_not_mem (by simpa using h32)]
  · have h1 := findByte_of_append [] u ht
    rw [List.nil_append, List.length_nil, Nat.zero_add] at h1
    rw [h1]
    simp only
    rcases cut_at 32 u with h32 | ⟨g, v, hg, rfl⟩
    · rw [findByte_of_not_mem]
      rw [← List.drop_drop, List.drop_left, List.drop_one, List.tail_cons]
      exact h32
    · exact absurd ⟨ht, hg, hl, hpre⟩ (hno t g v)

theorem parse_of_splits {t g v : Bytes} (h : Splits bytes t g v) :
    line.parse A view bytes =
      match { line with method := .fromStringView t }.setTarget A (view.sub (t.length + 1) g.length) g with
      | (line', some ec) => (line', 0, some ec)
      | (line', none) =>
          if isVersion v then
            ({ line' with version := view.sub (t.length + g.length + 2) v.length }, (fieldsLine t g v).length + 2, none)
          else (line', 0, some .illegalByteSequence) := by
  obtain ⟨post, hpost⟩ := h.first
  exact RequestLine.parse_of_fields h.token_ok h.target_ok h.crlf hpost.symm

end Parse

/-! ## §4 — reading the target. -/

theorem decoded_eq (sv : Bytes) : decoded sv = if legal sv = tokens sv then some (valueText (tokens sv)) else none := by
  have hgo := percentDecodeGo_leaves sv.length sv [] le_rfl
  unfold decoded
  generalize percentDecodeGo sv.length sv [] = r at hgo
  obtain ⟨out, rest⟩ := r
  cases rest with
  | none => rw [if_neg hgo.1]; rfl
  | some rest =>
      have htext : out ++ rest = valueText (tokens sv) := hgo.2
      rw [if_pos hgo.1, ← htext]; rfl

theorem decoded_of_taken {sv : Bytes} (h : Taken sv) : decoded sv = some (valueText (tokens sv)) := by
  rw [decoded_eq, if_pos ((legal_eq_iff sv).mpr h)]

theorem Taken.of_wellEscaped {sv : Bytes} (h : WellEscaped sv) : Taken sv := by
  intro t ht
  obtain ⟨b, hb⟩ := Option.isSome_iff_exists.mp (h t ht)
  rw [Token.value_of_denotes hb]
  rfl

theorem decoded_of_wellEscaped {sv : Bytes} (h : WellEscaped sv) : decoded sv = some (denotedText sv) := by
  rw [decoded_of_taken (.of_wellEscaped h), valueText_tokens h]

section Target

variable (A : Alloc) (tv : View) (target : Bytes) (line : RequestLine)

theorem percentDecode_of_not_taken {s : Span} (h : ¬ Taken (fieldAt target s)) :
    (line.percentDecode A tv target s).2 = .error .illegalByteSequence := by
  have hne : legal (fieldAt target s) ≠ tokens (fieldAt target s) := fun he => h ((legal_eq_iff _).mp he)
  rw [RequestLine.percentDecode_eq_percentDecode]
  simp only [show substr target s.1 (s.2 - s.1) = fieldAt target s from rfl,
    (percentDecode_of_illegal A line.raw _ hne).1]
  rfl

theorem setPathQuery_taken {p q : Span} (slash : Bool) (hp : Taken (fieldAt target p))
    (hq : Taken (fieldAt target q)) : (line.setPathQuery A tv target p q slash).2 = none := by
  unfold RequestLine.setPathQuery
  rw [percentDecode_eq A tv target p line (decoded_of_taken hp)]
  simp only
  rw [percentDecode_eq A tv target q _ (decoded_of_taken hq)]

theorem setPathQuery_not_taken {p q : Span} (slash : Bool) (h : ¬ (Taken (fieldAt target p) ∧ Taken (fieldAt target q))) :
    (line.setPathQuery A tv target p q slash).2 = some .illegalByteSequence := by
  unfold RequestLine.setPathQuery
  by_cases hp : Taken (fieldAt target p)
  · rw [percentDecode_eq A tv target p line (decoded_of_taken hp)]
    simp only
    have hq := percentDecode_of_not_taken A tv target
      { line with
        raw := rawAfter A line.raw (fieldAt target p)
        path := if slash && (viewAfter A line.raw tv target p).size == 0 then .text (text "/")
          else viewAfter A line.raw tv target p } (s := q) fun hq => h ⟨hp, hq⟩
    generalize RequestLine.percentDecode A tv target q _ = r at hq ⊢
    obtain ⟨line', v⟩ := r
    obtain rfl : v = .error .illegalByteSequence := hq
    rfl
  · have hp' := percentDecode_of_not_taken A tv target line hp
    generalize RequestLine.percentDecode A tv target p _ = r at hp' ⊢
    obtain ⟨line', v⟩ := r
    obtain rfl : v = .error .illegalByteSequence := hp'
    rfl

/-- **The target is read when all its escapes are taken**, and rejected otherwise. -/
theorem setTarget_result :
    (line.setTarget A tv target).2 = none ∧ (∀ field ∈ fieldsOf target, Taken field) ∨
      (line.setTarget A tv target).2 = some .illegalByteSequence ∧ ¬ ∀ field ∈ fieldsOf target, Taken field := by
  unfold RequestLine.setTarget fieldsOf
  have hpq : ∀ (line : RequestLine) (p q : Span) (slash : Bool),
      (line.setPathQuery A tv target p q slash).2 = none ∧
          (∀ field ∈ [fieldAt target p, fieldAt target q], Taken field) ∨
        (line.setPathQuery A tv target p q slash).2 = some .illegalByteSequence ∧
          ¬ ∀ field ∈ [fieldAt target p, fieldAt target q], Taken field := by
    intro line p q slash
    have hmem : (∀ field ∈ [fieldAt target p, fieldAt target q], Taken field) ↔
        Taken (fieldAt target p) ∧ Taken (fieldAt target q) := by simp
    rw [hmem]
    by_cases h : Taken (fieldAt target p) ∧ Taken (fieldAt target q)
    · exact Or.inl ⟨setPathQuery_taken A tv target line slash h.1 h.2, h⟩
    · exact Or.inr ⟨setPathQuery_not_taken A tv target line slash h, h⟩
  cases matchTarget target with
  | none => simp
  | some f => cases f with
      | origin p q => exact hpq line p q false
      | absolute s h o p q => exact hpq _ p q true
      | authority h o => simp [Form.fields]
      | asterisk => simp [Form.fields]

end Target

/-! ## §5 — the path that moves. -/

/-- There is room behind a decoded path unless decoding the query moves it. -/
theorem roomFor_iff {A : Alloc} {path query : Bytes} (hp : Taken path) :
    RoomFor A (RequestLine.init A).raw path query ↔ ¬ Moves A path query := by
  have hcontents : 37 ∈ path → (rawAfter A (RequestLine.init A).raw path).contents = valueText (tokens path) := by
    intro hmem
    rw [contents_rawAfter, if_pos hmem, decoded_of_taken hp]
    rfl
  have hcap : (rawAfter A (RequestLine.init A).raw path).capacity = capacityFor A path.length := by
    unfold rawAfter RawString.reserve capacityFor RequestLine.init
    simp only [List.length_nil, Nat.zero_add]
    split <;> split <;> rfl
  unfold RoomFor Moves
  constructor
  · rintro h ⟨hmem, hlt⟩
    have := h hmem
    rw [hcontents hmem, hcap] at this
    omega
  · intro h hmem
    rw [hcontents hmem, hcap]
    by_contra hgt
    exact h ⟨hmem, by omega⟩

theorem keepsPath_iff {A : Alloc} {target : Bytes} (ht : ∀ field ∈ fieldsOf target, Taken field) :
    KeepsPath A (RequestLine.init A).raw target ↔ ∀ path query, fieldsOf target = [path, query] → ¬ Moves A path query := by
  unfold KeepsPath fieldsOf at *
  cases hm : matchTarget target with
  | none => simp
  | some f =>
      rw [hm] at ht
      cases f with
      | origin p q =>
          have hp := ht (fieldAt target p) (by simp [Form.fields])
          simpa [Form.fields] using roomFor_iff hp
      | absolute s h o p q =>
          have hp := ht (fieldAt target p) (by simp [Form.fields])
          simpa [Form.fields] using roomFor_iff hp
      | authority h o => simp [Form.fields]
      | asterisk => simp [Form.fields]

/-- The path of a line does not dangle. -/
def PathShown (heap : Nat → Block) (line : RequestLine) : Prop := ∃ path, View.deref heap line.raw line.path = some path

theorem gen_rawAfter_of_no_room {A : Alloc} {raw : RawString} {field : Bytes}
    (h : raw.capacity < raw.contents.length + field.length) : (rawAfter A raw field).gen = raw.gen + 1 := by
  unfold rawAfter RawString.reserve
  rw [if_neg (Nat.not_le.mpr h)]
  split <;> rfl

theorem valueText_ne_nil {sv : Bytes} (h : Taken sv) (hmem : 37 ∈ sv) : valueText (tokens sv) ≠ [] := by
  rw [← (legal_eq_iff sv).mpr h, Ne, valueText_legal_eq_nil, (legal_eq_iff sv).mpr h]
  intro hnil
  rw [← flatMap_bytes_tokens sv, hnil] at hmem
  cases hmem

/-- **Without room for the query the decoded path dangles.** -/
theorem setPathQuery_dangles {A : Alloc} {heap : Nat → Block} {tv : View} {target : Bytes} {line : RequestLine}
    {p q : Span} (slash : Bool) (hp : Taken (fieldAt target p)) (hq : Taken (fieldAt target q))
    (hno : ¬ RoomFor A line.raw (fieldAt target p) (fieldAt target q)) :
    ¬ PathShown heap (line.setPathQuery A tv target p q slash).1 := by
  obtain ⟨hmem, hroom⟩ := Classical.not_imp.mp hno
  have hgen := gen_rawAfter_of_no_room (A := A) (Nat.not_le.mp hroom)
  have hview : viewAfter A line.raw tv target p = .raw (rawAfter A line.raw (fieldAt target p)).gen
      line.raw.contents.length (valueText (tokens (fieldAt target p))).length := by
    unfold viewAfter
    rw [if_pos hmem, decoded_of_taken hp]
    rfl
  have hsize : ((viewAfter A line.raw tv target p).size == 0) = false := by
    rw [hview]
    simpa [View.size] using valueText_ne_nil hp hmem
  unfold RequestLine.setPathQuery
  rw [percentDecode_eq A tv target p line (decoded_of_taken hp)]
  simp only [hsize, Bool.and_false, Bool.false_eq_true, if_false]
  rw [percentDecode_eq A tv target q _ (decoded_of_taken hq)]
  rintro ⟨shown, hshown⟩
  rw [hview, View.deref, if_neg] at hshown
  · cases hshown
  · show _ ≠ (rawAfter A (rawAfter A line.raw (fieldAt target p)) (fieldAt target q)).gen
    omega

theorem setTarget_dangles {A : Alloc} {heap : Nat → Block} {tv : View} {target : Bytes} {line : RequestLine}
    (hraw : line.raw = (RequestLine.init A).raw) (ht : ∀ field ∈ fieldsOf target, Taken field)
    (hno : ¬ KeepsPath A (RequestLine.init A).raw target) : ¬ PathShown heap (line.setTarget A tv target).1 := by
  unfold RequestLine.setTarget
  unfold KeepsPath at hno
  unfold fieldsOf at ht
  cases hm : matchTarget target with
  | none => simp [hm] at hno
  | some f =>
      rw [hm] at hno ht
      cases f with
      | origin p q =>
          apply setPathQuery_dangles false (ht _ (by simp [Form.fields])) (ht _ (by simp [Form.fields]))
          rw [hraw]
          exact hno
      | absolute s h o p q =>
          apply setPathQuery_dangles true (ht _ (by simp [Form.fields])) (ht _ (by simp [Form.fields]))
          rw [hraw]
          exact hno
      | authority h o => exact absurd trivial hno
      | asterisk => exact absurd trivial hno

/-! ## §6 — the targets of the grammar. -/

theorem Target.Accepted.taken {T : Target} (h : T.Accepted) : ∀ field ∈ fieldsOf T.bytes, Taken field := by
  rw [fieldsOf_bytes h.valid]
  exact fun field hf => .of_wellEscaped (h.escapes field hf)

theorem Target.Accepted.partsOf {T : Target} (h : T.Accepted) : partsOf T.bytes = some T.components := by
  have hdec : T.partsWith decoded = T.partsWith fun field => some (denotedText field) := by
    have hesc := h.escapes
    cases T with
    | origin segs query =>
        rw [Target.partsWith, decoded_of_wellEscaped (hesc _ (by simp [Target.fields])),
          decoded_of_wellEscaped (hesc _ (by simp [Target.fields]))]
        rfl
    | absolute scheme userinfo host port segs query =>
        rw [Target.partsWith, decoded_of_wellEscaped (hesc _ (by simp [Target.fields])),
          decoded_of_wellEscaped (hesc _ (by simp [Target.fields]))]
        rfl
    | authority host port => rfl
    | asterisk => rfl
  rw [partsOf_bytes h.valid, hdec, Target.components]
  cases T <;> rfl

theorem denotedText_ne_nil {field : Bytes} (h : WellEscaped field) (hne : field ≠ []) : denotedText field ≠ [] := by
  intro hnil
  cases hts : tokens field with
  | nil =>
      apply hne
      rw [← flatMap_bytes_tokens field, hts]
      rfl
  | cons t ts =>
      obtain ⟨b, hb⟩ := Option.isSome_iff_exists.mp (h t (by rw [hts]; exact List.mem_cons_self))
      rw [denotedText, hts, List.filterMap_cons, hb] at hnil
      cases hnil

/-- The path that is assigned, or that of a new line, is not empty. -/
theorem Target.Accepted.path_ne_nil {T : Target} (h : T.Accepted) : T.components.path ≠ some [] := by
  obtain ⟨-, hesc, hpath⟩ := h
  cases T with
  | origin segs query =>
      have hne : pathOf segs ≠ [] := by
        cases segs with
        | nil => exact absurd rfl (hpath query)
        | cons s segs => simp
      intro hnil
      exact denotedText_ne_nil (hesc _ (by simp [Target.fields])) hne (Option.some.inj hnil)
  | absolute scheme userinfo host port segs query =>
      intro hnil
      have hnil' : (if denotedText (pathOf segs) = [] then text "/" else denotedText (pathOf segs)) = [] :=
        Option.some.inj hnil
      split at hnil'
      · cases hnil'
      · contradiction
  | authority host port | asterisk =>
      intro hnil
      cases hnil

/-- A target whose escapes are taken and that does not deviate is one of the grammar. -/
theorem accepted_of_not_deviation {A : Alloc} {target : Bytes} (hno : ¬ Deviation A target)
    (ht : ∀ field ∈ fieldsOf target, Taken field) : ∃ T : Target, T.Accepted ∧ T.bytes = target := by
  rcases matchTarget_cases target with ⟨T, hT, rfl, -⟩ | ⟨-, hnone⟩
  · refine ⟨T, ⟨hT, ?_, ?_⟩, rfl⟩
    · intro field hf t hmem
      rw [← fieldsOf_bytes hT] at hf
      by_contra hden
      exact hno (.partlyHex ht field hf t hmem
        ((Token.partlyHex_iff t).mpr ⟨Option.not_isSome_iff_eq_none.mp hden, ht field hf t hmem⟩))
    · rintro query rfl
      exact hno (.emptyPath query hT rfl ht)
  · exact absurd (.noForm hnone) hno

/-! ## §7 — the whole view. -/

section Fresh

variable (A : Alloc) (heap : Nat → Block) (id off len : Nat)

/-- The line is read: its escapes are taken, and it ends with an HTTP version. -/
def Reads (bytes token target version : Bytes) : Prop :=
  Splits bytes token target version ∧ (∀ field ∈ fieldsOf target, Taken field) ∧ isVersion version = true

/-- What `setTarget` makes of a new line. -/
def targetSet (token target : Bytes) : RequestLine :=
  ({ RequestLine.init A with method := .fromStringView token }.setTarget A
    ((View.block id off len).sub (token.length + 1) target.length) target).1

theorem parseFresh_of_reads {token target version : Bytes} (h : Reads (slice (heap id) off len) token target version) :
    parseFresh A heap id off len =
      ({ targetSet A id off len token target with
          version := (View.block id off len).sub (token.length + target.length + 2) version.length },
        (fieldsLine token target version).length + 2, none) := by
  obtain ⟨hsplit, ht, hver⟩ := h
  rw [parseFresh, parse_of_splits hsplit]
  have hres := setTarget_result A ((View.block id off len).sub (token.length + 1) target.length) target
    { RequestLine.init A with method := .fromStringView token }
  unfold targetSet
  generalize RequestLine.setTarget A _ target _ = r at hres
  obtain ⟨line', ec⟩ := r
  rcases hres with ⟨hec, -⟩ | ⟨-, hno⟩
  · obtain rfl : ec = none := hec
    simp only [hver, if_true]
  · exact absurd ht hno

/-- **The three outcomes**: no line yet, a line that is read, and a line that is rejected. -/
theorem parseFresh_outcome :
    (¬ CRLF <:+: slice (heap id) off len ∧ (parseFresh A heap id off len).2.2 = some .resourceUnavailableTryAgain) ∨
      CRLF <:+: slice (heap id) off len ∧
        ((parseFresh A heap id off len).2.2 = none ∧ (∃ t g v, Reads (slice (heap id) off len) t g v) ∨
          (parseFresh A heap id off len).2.2 = some .illegalByteSequence ∧
            ∀ t g v, ¬ Reads (slice (heap id) off len) t g v) := by
  by_cases hcrlf : CRLF <:+: slice (heap id) off len
  · refine Or.inr ⟨hcrlf, ?_⟩
    by_cases hsplit : ∃ t g v, Splits (slice (heap id) off len) t g v
    · obtain ⟨t, g, v, hs⟩ := hsplit
      by_cases hread : Reads (slice (heap id) off len) t g v
      · left
        rw [parseFresh_of_reads A heap id off len hread]
        exact ⟨rfl, t, g, v, hread⟩
      · right
        constructor
        · rw [parseFresh, parse_of_splits hs]
          have hres := setTarget_result A ((View.block id off len).sub (t.length + 1) g.length) g
            { RequestLine.init A with method := .fromStringView t }
          generalize RequestLine.setTarget A _ g _ = r at hres
          obtain ⟨line', ec⟩ := r
          rcases hres with ⟨hec, ht⟩ | ⟨hec, -⟩
          · obtain rfl : ec = none := hec
            have hver : isVersion v ≠ true := fun hver => hread ⟨hs, ht, hver⟩
            simp only [if_neg hver]
          · obtain rfl : ec = some .illegalByteSequence := hec
            rfl
        · rintro t' g' v' hread'
          obtain ⟨rfl, rfl, rfl⟩ := hs.unique hread'.1
          exact hread hread'
    · right
      have hno : ∀ t g v, ¬ Splits (slice (heap id) off len) t g v := fun t g v hs => hsplit ⟨t, g, v, hs⟩
      constructor
      · rw [parseFresh, parse_of_not_splits hcrlf hno]
      · exact fun t g v hread => hno t g v hread.1
  · refine Or.inl ⟨hcrlf, ?_⟩
    rw [parseFresh, RequestLine.parse_incomplete hcrlf]

theorem parseFresh_ok_iff :
    (parseFresh A heap id off len).2.2 = none ↔ ∃ t g v, Reads (slice (heap id) off len) t g v := by
  rcases parseFresh_outcome A heap id off len with ⟨hno, h⟩ | ⟨-, ⟨h, hread⟩ | ⟨h, hno⟩⟩
  · rw [h]
    refine ⟨nofun, ?_⟩
    rintro ⟨t, g, v, hread⟩
    exact absurd ((List.suffix_append _ CRLF).isInfix.trans hread.1.first.isInfix) hno
  · exact ⟨fun _ => hread, fun _ => h⟩
  · rw [h]
    exact ⟨nofun, fun ⟨t, g, v, hr⟩ => absurd hr (hno t g v)⟩

variable {A heap id off len}

/-- A request of the grammar is read. -/
theorem IsRequest.reads {bytes token : Bytes} {T : Target} {a b : UInt8} (h : IsRequest bytes token T a b) :
    Reads bytes token T.bytes (versionText a b) :=
  ⟨h.splits, h.accepted.taken, (isVersion_iff _).mpr ⟨a, b, h.major, h.minor, rfl⟩⟩

/-- **What is assigned**, when the path does not move. -/
theorem assigns_of_request {token : Bytes} {T : Target} {a b : UInt8}
    (h : IsRequest (slice (heap id) off len) token T a b) (hkeep : KeepsPath A (RequestLine.init A).raw T.bytes) :
    (parseFresh A heap id off len).1.method = .fromStringView token ∧
      Assigns (View.deref heap (parseFresh A heap id off len).1.raw) (fun _ => True) (RequestLine.init A)
        (parseFresh A heap id off len).1 T.components := by
  have hpre := h.splits.first.length_le
  have hsub : (View.block id off len).sub (token.length + 1) T.bytes.length =
      .block id (off + (token.length + 1)) T.bytes.length := by
    show View.block id (off + (token.length + 1)) (min T.bytes.length (len - (token.length + 1))) = _
    congr 1
    simp only [fieldsLine, length_slice, List.length_append, List.length_cons] at hpre
    omega
  have htarget : slice (heap id) (off + (token.length + 1)) T.bytes.length = T.bytes := by
    have hlen : token.length + 1 + T.bytes.length ≤ len := by
      simp only [fieldsLine, length_slice, List.length_append, List.length_cons] at hpre
      omega
    obtain ⟨post, hpost⟩ := h.splits.first
    rw [← take_drop_slice (heap id) off len _ _ hlen, ← hpost, fieldsLine]
    rw [show token ++ 32 :: (T.bytes ++ 32 :: versionText a b) ++ CRLF ++ post =
      (token ++ [32]) ++ (T.bytes ++ (32 :: versionText a b ++ CRLF ++ post)) by simp,
      List.drop_left' (by simp), List.take_left]
  obtain ⟨line', hset, hmethod, hassign⟩ := setTarget_spec (P := fun _ => True) htarget (fun _ _ => trivial)
    (fun _ => trivial) (fun _ _ _ => trivial) { RequestLine.init A with method := .fromStringView token }
    h.accepted.partsOf hkeep
  have hline : targetSet A id off len token T.bytes = line' := by rw [targetSet, hsub, hset]
  rw [parseFresh_of_reads A heap id off len h.reads, hline]
  exact ⟨hmethod, hassign.scheme, hassign.host, hassign.port, hassign.path, hassign.query⟩

/-- The path that is shown is not empty. -/
theorem path_of_assigns {T : Target} (h : T.Accepted) {d : View → Option Bytes} {line : RequestLine}
    (htext : ∀ b, d (.text b) = some b) (hassign : Assigns d (fun _ => True) (RequestLine.init A) line T.components) :
    ∃ path, d line.path = some path ∧ path ≠ [] := by
  have hne := h.path_ne_nil
  have hpath := hassign.path
  cases hp : T.components.path with
  | none =>
      rw [hp] at hpath
      have hline : line.path = .text (text "/") := hpath
      exact ⟨text "/", by rw [hline, htext], by decide⟩
  | some p =>
      rw [hp] at hpath hne
      exact ⟨p, hpath.1, fun h => hne (congrArg some h)⟩

/-- **Where nothing deviates the grammar is parsed.** -/
theorem parsesGrammar_of_not_deviates (hno : ¬ Deviates A (slice (heap id) off len)) :
    ParsesGrammar A heap id off len := by
  have hrequest : ∀ t g v, Reads (slice (heap id) off len) t g v →
      ∃ token T a b, IsRequest (slice (heap id) off len) token T a b := by
    rintro t g v ⟨hsplit, ht, hver⟩
    obtain ⟨T, hT, rfl⟩ := accepted_of_not_deviation (fun hdev => hno ⟨t, g, v, hsplit, hver, hdev⟩) ht
    obtain ⟨a, b, ha, hb, rfl⟩ := (isVersion_iff v).mp hver
    exact ⟨t, T, a, b, hsplit, hT, ha, hb⟩
  constructor
  · rcases parseFresh_outcome A heap id off len with ⟨hcrlf, h⟩ | ⟨hcrlf, ⟨h, -⟩ | ⟨h, -⟩⟩
    · exact ⟨fun _ => hcrlf, fun _ => h⟩
    · rw [h]; exact ⟨nofun, fun hn => absurd hcrlf hn⟩
    · rw [h]; exact ⟨nofun, fun hn => absurd hcrlf hn⟩
  · rw [parseFresh_ok_iff]
    exact ⟨fun ⟨t, g, v, h⟩ => hrequest t g v h, fun ⟨_, _, _, _, h⟩ => ⟨_, _, _, h.reads⟩⟩
  · intro hcrlf hne
    rcases parseFresh_outcome A heap id off len with ⟨hn, -⟩ | ⟨-, ⟨h, -⟩ | ⟨h, -⟩⟩
    · exact absurd hcrlf hn
    · exact absurd h hne
    · exact h
  · intro token T a b h
    have hkeep : KeepsPath A (RequestLine.init A).raw T.bytes := by
      rw [keepsPath_iff h.accepted.taken]
      intro path query hf hmv
      exact hno ⟨token, T.bytes, versionText a b, h.splits, h.reads.2.2, .moved h.accepted.taken path query hf hmv⟩
    obtain ⟨hmethod, hassign⟩ := assigns_of_request h hkeep
    refine ⟨?_, hmethod, hassign, path_of_assigns h.accepted (fun _ => rfl) hassign⟩
    rw [parseFresh_of_reads A heap id off len h.reads]

/-- **Where something deviates it is not.** -/
theorem not_parsesGrammar_of_deviates (h : Deviates A (slice (heap id) off len)) : ¬ ParsesGrammar A heap id off len := by
  intro hg
  obtain ⟨t, g, v, hsplit, hver, hdev⟩ := h
  -- a line that is read is a request of the grammar, with this target
  have hrequest : (∀ field ∈ fieldsOf g, Taken field) → ∃ T : Target, T.Accepted ∧ T.bytes = g ∧
      ∃ a b, IsRequest (slice (heap id) off len) t T a b := by
    intro ht
    obtain ⟨token, T, a, b, hreq⟩ := hg.accepts.mp ((parseFresh_ok_iff A heap id off len).mpr ⟨t, g, v, hsplit, ht, hver⟩)
    obtain ⟨rfl, he, -⟩ := hreq.splits.unique hsplit
    exact ⟨T, hreq.accepted, he, a, b, hreq⟩
  cases hdev with
  | noForm hnone =>
      have ht : ∀ field ∈ fieldsOf g, Taken field := by
        rcases matchTarget_cases g with ⟨T, hT, he, -⟩ | ⟨hm, -⟩
        · exact absurd he (hnone T hT)
        · simp [fieldsOf, hm]
      obtain ⟨T, hT, he, -⟩ := hrequest ht
      exact hnone T hT.valid he
  | emptyPath query hvalid he ht =>
      obtain ⟨T, hT, he', -⟩ := hrequest ht
      have hform : T.form = (Target.origin [] query).form := by
        have h1 := matchTarget_bytes hT.valid
        rw [he', ← he, matchTarget_bytes hvalid] at h1
        exact (Option.some.inj h1).symm
      cases T with
      | origin segs query' =>
          have hlen : (pathOf segs).length = 0 := by
            simp only [Target.form, Form.origin.injEq, Prod.mk.injEq, pathOf_nil, List.length_nil] at hform
            exact hform.1.2
          cases segs with
          | nil => exact hT.path query' rfl
          | cons s segs => simp at hlen
      | absolute _ _ _ _ _ _ => cases hform
      | authority _ _ => cases hform
      | asterisk => cases hform
  | partlyHex ht field hf tok hm hp =>
      obtain ⟨T, hT, rfl, -⟩ := hrequest ht
      rw [fieldsOf_bytes hT.valid] at hf
      have hden := hT.escapes field hf tok hm
      rw [((Token.partlyHex_iff tok).mp hp).1] at hden
      cases hden
  | moved ht path query hf hmv =>
      obtain ⟨T, hT, rfl, a, b, hreq⟩ := hrequest ht
      obtain ⟨-, -, -, shown, hshown, -⟩ := hg.assigns t T a b hreq
      have hkeep : ¬ KeepsPath A (RequestLine.init A).raw T.bytes := by
        rw [keepsPath_iff ht]
        exact fun hk => hk path query hf hmv
      rw [parseFresh_of_reads A heap id off len hreq.reads] at hshown
      have hdangles : ¬ PathShown heap (targetSet A id off len t T.bytes) := setTarget_dangles rfl ht hkeep
      exact hdangles ⟨shown, hshown⟩

/-- **`RequestLine::parse` accepts exactly its grammar** and assigns its components, on a view and only on a view
whose line does not deviate. -/
theorem parsesGrammar_iff (A : Alloc) (heap : Nat → Block) (id off len : Nat) :
    ParsesGrammar A heap id off len ↔ ¬ Deviates A (slice (heap id) off len) :=
  ⟨fun hg hdev => not_parsesGrammar_of_deviates hdev hg, parsesGrammar_of_not_deviates⟩

end Fresh

/-- A host with a port that is no number is no target, and is accepted. -/
theorem parse_accepts_no_form :
    (parseFresh libstdcpp (fun _ i => (text "GET a:b HTTP/1.1" ++ CRLF).getD i 0) 0 0 18).2.2 = none ∧
      ¬ ParsesGrammar libstdcpp (fun _ i => (text "GET a:b HTTP/1.1" ++ CRLF).getD i 0) 0 0 18 := by
  refine ⟨by decide, ?_⟩
  apply not_parsesGrammar_of_deviates
  refine ⟨text "GET", text "a:b", text "HTTP/1.1", ⟨?_, ?_, ?_, ?_⟩, by decide, .noForm ?_⟩
  · decide
  · decide
  · decide
  · decide
  · rcases matchTarget_cases (text "a:b") with ⟨T, -, -, hm⟩ | ⟨-, hnone⟩
    · have hnone : matchTarget (text "a:b") = none := by decide
      rw [hnone] at hm
      cases hm
    · exact hnone

end NetCpp.Http
