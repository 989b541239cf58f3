/-
# NetCpp.Http.Accept — `parse_accept` and `parse_accept_encoding`.

`src/net/http/proto/accept.cpp` and `include/xsl/regex.h`.  Both functions take the header value apart at its
commas and return views into it.  The text in front of a comma is read by `element`; then
`find_first_not_of(" \t", comma + 1)` says where to go on, and `substr` of its answer is taken WITHOUT asking
whether there was one: behind a last comma with nothing but blanks it is `substr(npos)`, which throws.

`parse_accept` looks for its slash first, and for a comma behind the slash: it takes no notice of a comma that
has no slash in front of it.
-/
import NetCpp.Http.Form

namespace NetCpp.Http

open NetCpp.Lib

/-! ## §1 — the functions. -/

/-- `\s`. -/
def space : Re UInt8 := .cls fun b => b == 32 || (9 ≤ b && b ≤ 13)

def quote : Re UInt8 := .cls (· == 34)

/-- `parameter_re`: `\s*;\s*([^=]+)=(?:"?([^;,\r\n]+)"?)`. -/
def parameterRe : Re UInt8 :=
  .seq (.star space) <| .seq (char ';') <| .seq (.star space) <| .seq (.group 1 (plus (noneOf "="))) <|
    .seq (char '=') <| .seq (.opt quote) <| .seq (.group 2 (plus (noneOf ";,\r\n"))) (.opt quote)

/-- `s.find_first_not_of(" \t", pos)`. -/
def findNotBlank (s : Bytes) (pos : Nat) : Option Nat :=
  ((s.drop pos).findIdx? fun b => b != 32 && b != 9).map (pos + ·)

/-- The exception of `substr`. -/
inductive Thrown
  | outOfRange
deriving DecidableEq, Repr

/-- A `MediaTypeView`: three places in the header value, and the parameters. -/
structure MediaTypeView where
  start : Nat
  slash : Nat
  stop : Nat
  parameters : List (Span × Span)
deriving DecidableEq, Repr

def MediaTypeView.mainType (m : MediaTypeView) : Span := (m.start, m.slash)

def MediaTypeView.subType (m : MediaTypeView) : Span := (m.slash + 1, m.stop)

/-- A group of a match in `range`; one that took no part is empty at its end. -/
def groupOf (range : Bytes) (caps : Caps) (n : Nat) : Span := (caps n).getD (range.length, range.length)

def shift (base : Nat) (s : Span) : Span := (base + s.1, base + s.2)

/-- The matches the iterator goes through. -/
def parameterMatches (range : Bytes) : List Caps := (parameterRe.searchAll (range.length + 1) 0 range).getD []

/-- One turn of the loop over the matches: a weight, or one more parameter. -/
def addParameter (base : Nat) (range : Bytes) (acc : List (Span × Span) × Option Span) (caps : Caps) :
    List (Span × Span) × Option Span :=
  if fieldAt range (groupOf range caps 1) = text "q" then (acc.1, some (shift base (groupOf range caps 2)))
  else (acc.1 ++ [(shift base (groupOf range caps 1), shift base (groupOf range caps 2))], acc.2)

/-- What stands in front of the comma of a media range: its place, the media type and the weight. -/
def mediaAt (pos : Nat) (accept : Bytes) : Option (Nat × MediaTypeView × Option Span) :=
  match findByte accept 47 0 with
  | none => none
  | some slash =>
      let comma := (findByte accept 44 slash).getD accept.length
      match findByte (substr accept 0 comma) 59 slash with
      | none => some (comma, ⟨pos, pos + slash, pos + comma, []⟩, none)
      | some semicolon =>
          let range := substr accept semicolon (comma - semicolon)
          let r := (parameterMatches range).foldl (addParameter (pos + semicolon) range) ([], none)
          some (comma, ⟨pos, pos + slash, pos + semicolon, r.1⟩, r.2)

/-- What stands in front of the first comma: its place, the coding and the weight. -/
def codingAt (pos : Nat) (acceptEncoding : Bytes) : Option (Nat × Span × Option Span) :=
  let comma := (findByte acceptEncoding 44 0).getD acceptEncoding.length
  match findByte (substr acceptEncoding 0 comma) 59 0 with
  | none => some (comma, (pos, pos + comma), none)
  | some semicolon =>
      let range := substr acceptEncoding semicolon (comma - semicolon)
      some (comma, (pos, pos + semicolon),
        (parameterRe.search 0 range).map fun m => shift (pos + semicolon) (groupOf range m.1 2))

/-- The loop of both functions; `none` when it is not done after `n` turns. -/
def listGo {β : Type} (element : Nat → Bytes → Option (Nat × β)) :
    Nat → Nat → Bytes → List β → Option (Except Thrown (List β))
  | 0, _, _, _ => none
  | n + 1, pos, rest, result =>
      match element pos rest with
      | none => some (.ok result)
      | some (comma, e) =>
          if comma = rest.length then some (.ok (result ++ [e]))
          else
            match findNotBlank rest (comma + 1) with
            | none => some (.error .outOfRange)
            | some next => listGo element n (pos + next) (rest.drop next) (result ++ [e])

def parseAccept (accept : Bytes) : Option (Except Thrown (List (MediaTypeView × Option Span))) :=
  listGo mediaAt (accept.length + 1) 0 accept []

def parseAcceptEncoding (acceptEncoding : Bytes) : Option (Except Thrown (List (Span × Option Span))) :=
  if acceptEncoding = [] then some (.ok []) else listGo codingAt (acceptEncoding.length + 1) 0 acceptEncoding []

/-! ## §2 — the loop. -/

/-- A space or a tab. -/
def Blanks (s : Bytes) : Prop := ∀ b ∈ s, b = 32 ∨ b = 9

instance (s : Bytes) : Decidable (Blanks s) := List.decidableBAll _ _

theorem findNotBlank_eq_none {s : Bytes} {pos : Nat} : findNotBlank s pos = none ↔ Blanks (s.drop pos) := by
  unfold findNotBlank Blanks
  rw [Option.map_eq_none_iff, List.findIdx?_eq_none_iff]
  apply forall_congr'
  intro b
  apply forall_congr'
  intro _
  by_cases h : b = 32 <;> simp [h]

/-- A search that succeeds cuts the text. -/
theorem cut_of_findIdx? {p : UInt8 → Bool} {s : Bytes} {i : Nat} (h : s.findIdx? p = some i) :
    ∃ a b rest, s = a ++ b :: rest ∧ a.length = i ∧ p b = true ∧ ∀ x ∈ a, p x = false := by
  obtain ⟨hlt, hb, hbefore⟩ := List.findIdx?_eq_some_iff_getElem.mp h
  refine ⟨s.take i, s[i], s.drop (i + 1), ?_, ?_, hb, ?_⟩
  · rw [List.getElem_cons_drop, List.take_append_drop]
  · rw [List.length_take]
    omega
  · intro x hx
    obtain ⟨j, hj, rfl⟩ := List.getElem_of_mem hx
    rw [List.length_take] at hj
    rw [List.getElem_take]
    exact Bool.not_eq_true _ ▸ hbefore j (by omega)

/-- What is left behind the blanks. -/
theorem exists_of_findNotBlank {s : Bytes} {pos next : Nat} (h : findNotBlank s pos = some next) :
    ∃ blanks b rest, s.drop pos = blanks ++ b :: rest ∧ Blanks blanks ∧ b ≠ 32 ∧ b ≠ 9 ∧
      next = pos + blanks.length ∧ s.drop next = b :: rest := by
  obtain ⟨i, hi, rfl⟩ := Option.map_eq_some_iff.mp h
  obtain ⟨blanks, b, rest, hcut, rfl, hb, hbefore⟩ := cut_of_findIdx? hi
  simp only [Bool.and_eq_true, bne_iff_ne, ne_eq] at hb
  refine ⟨blanks, b, rest, hcut, ?_, hb.1, hb.2, rfl, ?_⟩
  · intro x hx
    have hx := hbefore x hx
    by_contra hno
    rw [not_or] at hno
    simp [hno.1, hno.2] at hx
  · rw [← List.drop_drop, hcut, List.drop_left]

/-- What the loop asks of the reading of an element: it throws on the texts in `Bad`, and what is read in front of
a comma is `In`side. -/
structure ReadsElement {β : Type} (element : Nat → Bytes → Option (Nat × β)) (Bad : Bytes → Prop)
    (In : Nat → β → Prop) : Prop where
  mono : ∀ hi hi' e, hi ≤ hi' → In hi e → In hi' e
  done : ∀ pos rest, element pos rest = none → ¬ Bad rest
  inside : ∀ pos rest comma e, element pos rest = some (comma, e) → comma ≤ rest.length ∧ In (pos + comma) e
  last : ∀ pos rest e, element pos rest = some (rest.length, e) → ¬ Bad rest
  comma : ∀ pos rest comma e, element pos rest = some (comma, e) → comma ≠ rest.length →
    ∃ tail, rest.drop comma = 44 :: tail ∧ (Blanks tail → Bad rest) ∧
      ∀ blanks b tail', tail = blanks ++ b :: tail' → Blanks blanks → b ≠ 32 → b ≠ 9 → (Bad rest ↔ Bad (b :: tail'))

/-- **The loop ends**, on a bad text with the exception and on another with elements that are inside. -/
theorem listGo_spec {β : Type} {element : Nat → Bytes → Option (Nat × β)} {Bad : Bytes → Prop} {In : Nat → β → Prop}
    (h : ReadsElement element Bad In) {n : Nat} (pos : Nat) {rest : Bytes} (result : List β) (hn : rest.length < n)
    (hres : ∀ e ∈ result, In (pos + rest.length) e) :
    Bad rest ∧ listGo element n pos rest result = some (.error .outOfRange) ∨
      ¬ Bad rest ∧ ∃ views, listGo element n pos rest result = some (.ok views) ∧
        ∀ e ∈ views, In (pos + rest.length) e := by
  induction n generalizing pos rest result with
  | zero => cases hn
  | succ n ih =>
      rw [listGo]
      cases he : element pos rest with
      | none => exact Or.inr ⟨h.done pos rest he, result, rfl, hres⟩
      | some x =>
          obtain ⟨comma, e⟩ := x
          obtain ⟨hle, hin⟩ := h.inside pos rest comma e he
          have hall : ∀ e' ∈ result ++ [e], In (pos + rest.length) e' := by
            intro e' he'
            rcases List.mem_append.mp he' with he' | he'
            · exact hres e' he'
            · rw [List.mem_singleton.mp he']
              exact h.mono _ _ e (by omega) hin
          simp only
          by_cases hc : comma = rest.length
          · subst hc
            rw [if_pos rfl]
            exact Or.inr ⟨h.last pos rest e he, result ++ [e], rfl, hall⟩
          · rw [if_neg hc]
            obtain ⟨tail, htail, hthrow, hgo⟩ := h.comma pos rest comma e he hc
            have hdrop : rest.drop (comma + 1) = tail := by
              rw [← List.drop_drop, htail, List.drop_one, List.tail_cons]
            cases hnext : findNotBlank rest (comma + 1) with
            | none =>
                rw [findNotBlank_eq_none, hdrop] at hnext
                exact Or.inl ⟨hthrow hnext, rfl⟩
            | some next =>
                obtain ⟨blanks, b, tail', hcut, hblanks, hb, hb', rfl, hleft⟩ := exists_of_findNotBlank hnext
                rw [hdrop] at hcut
                have hlen : comma + 1 + blanks.length + (b :: tail').length = rest.length := by
                  have := congrArg List.length htail
                  rw [hcut] at this
                  simp only [List.length_drop, List.length_cons, List.length_append] at this ⊢
                  omega
                simp only [hleft]
                rw [hgo blanks b tail' hcut hblanks hb hb']
                have hend : pos + (comma + 1 + blanks.length) + (b :: tail').length = pos + rest.length := by omega
                rw [← hend] at hall ⊢
                exact ih _ _ (by omega) hall

/-! ## §3 — the matches of the parameters. -/

/-- A parameter has a `;`. -/
theorem nil_not_mem_parameterRe : [] ∉ parameterRe.lang := by
  rintro ⟨u, -, v, ⟨c, hc, w, -, hcw⟩, huv⟩
  obtain rfl := mem_lang_char hc
  obtain ⟨-, rfl⟩ := List.append_eq_nil_iff.mp huv
  cases hcw

/-- The iterator ends, with its groups in the range. -/
theorem searchAll_parameters (range : Bytes) :
    parameterRe.searchAll (range.length + 1) 0 range = some (parameterMatches range) ∧
      ∀ caps ∈ parameterMatches range, Re.Within 0 range.length caps := by
  obtain ⟨all, hall, hw⟩ := Re.searchAll_spec nil_not_mem_parameterRe 0 (Nat.lt_succ_self range.length)
  rw [parameterMatches, hall]
  exact ⟨rfl, by simpa using hw⟩

/-- The view lies in the first `len` bytes. -/
def Inside (len : Nat) (s : Span) : Prop := s.1 ≤ s.2 ∧ s.2 ≤ len

theorem Inside.mono {len len' : Nat} {s : Span} (h : Inside len s) (hle : len ≤ len') : Inside len' s :=
  ⟨h.1, h.2.trans hle⟩

theorem inside_groupOf {range : Bytes} {caps : Caps} {lo : Nat} (h : Re.Within lo range.length caps) (n base : Nat) :
    Inside (base + range.length) (shift base (groupOf range caps n)) := by
  unfold groupOf shift
  cases hn : caps n with
  | none => exact ⟨le_rfl, le_rfl⟩
  | some s =>
      obtain ⟨-, h1, h2⟩ := h n s hn
      exact ⟨Nat.add_le_add_left h1 base, Nat.add_le_add_left h2 base⟩

/-- Parameters and a weight that lie in the first `len` bytes. -/
structure ParametersInside (len : Nat) (parameters : List (Span × Span)) (weight : Option Span) : Prop where
  parameters : ∀ p ∈ parameters, Inside len p.1 ∧ Inside len p.2
  weight : ∀ w ∈ weight, Inside len w

theorem ParametersInside.mono {len len' : Nat} {ps : List (Span × Span)} {w : Option Span}
    (h : ParametersInside len ps w) (hle : len ≤ len') : ParametersInside len' ps w where
  parameters p hp := ⟨(h.parameters p hp).1.mono hle, (h.parameters p hp).2.mono hle⟩
  weight w hw := (h.weight w hw).mono hle

theorem inside_addParameter {base : Nat} {range : Bytes} {caps : Caps} {acc : List (Span × Span) × Option Span}
    (h : Re.Within 0 range.length caps) (hacc : ParametersInside (base + range.length) acc.1 acc.2) :
    ParametersInside (base + range.length) (addParameter base range acc caps).1 (addParameter base range acc caps).2 := by
  unfold addParameter
  split
  · constructor
    · exact hacc.parameters
    · intro w hw
      obtain rfl := Option.some.inj hw
      exact inside_groupOf h 2 base
  · constructor
    · intro p hp
      rcases List.mem_append.mp hp with hp | hp
      · exact hacc.parameters p hp
      · rw [List.mem_singleton.mp hp]
        exact ⟨inside_groupOf h 1 base, inside_groupOf h 2 base⟩
    · exact hacc.weight

/-- **The loop over the matches** keeps to the range. -/
theorem inside_parameters (base : Nat) (range : Bytes) (all : List Caps)
    (hall : ∀ caps ∈ all, Re.Within 0 range.length caps) (acc : List (Span × Span) × Option Span)
    (hacc : ParametersInside (base + range.length) acc.1 acc.2) :
    ParametersInside (base + range.length) (all.foldl (addParameter base range) acc).1
      (all.foldl (addParameter base range) acc).2 := by
  induction all generalizing acc with
  | nil => exact hacc
  | cons caps all ih =>
      obtain ⟨hcaps, hall⟩ := List.forall_mem_cons.mp hall
      exact ih hall _ (inside_addParameter hcaps hacc)

/-! ## §4 — the media range in front of a comma. -/

/-- What `mediaAt` makes of `a/b`, with no slash in `a` and no comma in `b`. -/
def mediaOf (pos : Nat) (a b : Bytes) : MediaTypeView × Option Span :=
  match findByte b 59 0 with
  | none => (⟨pos, pos + a.length, pos + a.length + 1 + b.length, []⟩, none)
  | some s =>
      let r := (parameterMatches (b.drop s)).foldl (addParameter (pos + a.length + 1 + s) (b.drop s)) ([], none)
      (⟨pos, pos + a.length, pos + a.length + 1 + s, r.1⟩, r.2)

/-- The first `c` at or behind `pos`, told from the text there. -/
theorem findByte_append (pre s : Bytes) (c : UInt8) :
    findByte (pre ++ s) c pre.length = (findByte s c 0).map (pre.length + ·) := by
  rw [findByte, findByte, List.drop_left, List.drop_zero, Option.map_map]
  congr 1
  funext i
  simp

theorem cut_of_findByte {s : Bytes} {c : UInt8} {i : Nat} (h : findByte s c 0 = some i) :
    ∃ a b, s = a ++ c :: b ∧ a.length = i ∧ c ∉ a := by
  obtain ⟨j, hj, rfl⟩ := Option.map_eq_some_iff.mp h
  obtain ⟨a, x, b, hs, rfl, hx, ha⟩ := cut_of_findIdx? hj
  rw [List.drop_zero] at hs
  obtain rfl : x = c := by simpa using hx
  refine ⟨a, b, hs, by simp, ?_⟩
  intro hmem
  simpa using ha x hmem

/-- **`mediaAt` on a text with a slash**: the slash is the first of the text, the comma the first behind it. -/
theorem mediaAt_eq (pos : Nat) {a b tail : Bytes} (ha : 47 ∉ a) (hb : 44 ∉ b) (htail : tail = [] ∨ tail.head? = some 44) :
    mediaAt pos (a ++ 47 :: (b ++ tail)) = some ((a ++ 47 :: b).length, mediaOf pos a b) := by
  have hslash : findByte (a ++ 47 :: (b ++ tail)) 47 0 = some a.length := by
    simpa using findByte_of_append [] (b ++ tail) ha
  have hb' : 44 ∉ (47 :: b : Bytes) := by simpa using hb
  have hcomma : (findByte (a ++ 47 :: (b ++ tail)) 44 a.length).getD (a ++ 47 :: (b ++ tail)).length =
      (a ++ 47 :: b).length := by
    cases tail with
    | nil =>
        rw [findByte_of_not_mem]
        · simp
        · rw [List.drop_left, List.append_nil]
          exact hb'
    | cons c tail =>
        obtain rfl : c = 44 := by simpa using htail
        have hfind := findByte_of_append a tail hb'
        rw [List.append_assoc, List.cons_append] at hfind
        rw [hfind]
        simp
  have hstr : substr (a ++ 47 :: (b ++ tail)) 0 (a ++ 47 :: b).length = a ++ 47 :: b := by
    rw [substr, List.drop_zero, show a ++ 47 :: (b ++ tail) = (a ++ 47 :: b) ++ tail by simp, List.take_left]
  have hsemi : findByte (a ++ 47 :: b) 59 a.length = (findByte b 59 0).map (a.length + 1 + ·) := by
    have hfind := findByte_append (a ++ [47]) b 59
    rw [List.length_append, List.length_singleton, List.append_assoc, List.singleton_append] at hfind
    rw [← hfind, findByte, findByte, List.drop_left, ← List.drop_drop, List.drop_left, List.drop_one, List.tail_cons,
      List.findIdx?_cons]
    simp only [show ((47 : UInt8) == 59) = false by decide, Bool.false_eq_true, if_false, Option.map_map]
    congr 1
    funext i
    simp
    omega
  rw [mediaAt, hslash]
  simp only [hcomma, hstr, hsemi, mediaOf]
  cases hs : findByte b 59 0 with
  | none =>
      simp only [Option.map_none, List.length_append, List.length_cons, Nat.add_assoc, Nat.add_comm 1]
  | some s =>
      obtain ⟨x, y, rfl, rfl, -⟩ := cut_of_findByte hs
      have hrange : substr (a ++ 47 :: (x ++ 59 :: y ++ tail)) (a.length + 1 + x.length)
          ((a ++ 47 :: (x ++ 59 :: y)).length - (a.length + 1 + x.length)) = (x ++ 59 :: y).drop x.length := by
        have hcut : a ++ 47 :: (x ++ 59 :: y ++ tail) = (a ++ 47 :: x) ++ (59 :: y ++ tail) := by simp
        have hlen : a.length + 1 + x.length = (a ++ 47 :: x).length := by
          simp only [List.length_append, List.length_cons]
          omega
        have hn : (a ++ 47 :: (x ++ 59 :: y)).length - (a ++ 47 :: x).length = (59 :: y).length := by
          simp only [List.length_append, List.length_cons]
          omega
        rw [substr, hcut, hlen, List.drop_left, hn, List.take_left, List.drop_left]
      simp only [Option.map_some, hrange, ← Nat.add_assoc]

theorem mediaAt_none (pos : Nat) {rest : Bytes} (h : 47 ∉ rest) : mediaAt pos rest = none := by
  rw [mediaAt, findByte_of_not_mem (by simpa using h)]

/-- A text has no slash, or is cut at its first slash and the comma behind it. -/
theorem mediaAt_cases (pos : Nat) (rest : Bytes) :
    47 ∉ rest ∧ mediaAt pos rest = none ∨
      ∃ a b tail, 47 ∉ a ∧ 44 ∉ b ∧ (tail = [] ∨ tail.head? = some 44) ∧ rest = a ++ 47 :: (b ++ tail) ∧
        mediaAt pos rest = some ((a ++ 47 :: b).length, mediaOf pos a b) := by
  rcases cut_at 47 rest with h | ⟨a, u, ha, rfl⟩
  · exact Or.inl ⟨h, mediaAt_none pos h⟩
  · right
    rcases cut_at 44 u with h | ⟨b, tail, hb, rfl⟩
    · refine ⟨a, u, [], ha, h, Or.inl rfl, by simp, ?_⟩
      simpa using mediaAt_eq pos ha h (Or.inl rfl)
    · exact ⟨a, b, 44 :: tail, ha, hb, Or.inr rfl, rfl, mediaAt_eq pos ha hb (Or.inr rfl)⟩

/-- A media type and a weight that lie in the first `len` bytes. -/
structure MediaInside (len : Nat) (e : MediaTypeView × Option Span) : Prop where
  mainType : Inside len e.1.mainType
  subType : Inside len e.1.subType
  rest : ParametersInside len e.1.parameters e.2

theorem parametersInside_nil (len : Nat) : ParametersInside len [] none where
  parameters p hp := by cases hp
  weight w hw := by cases hw

theorem mediaInside_mediaOf (pos : Nat) (a b : Bytes) : MediaInside (pos + (a ++ 47 :: b).length) (mediaOf pos a b) := by
  have hlen : pos + (a ++ 47 :: b).length = pos + a.length + 1 + b.length := by
    simp only [List.length_append, List.length_cons]
    omega
  rw [hlen, mediaOf]
  cases hs : findByte b 59 0 with
  | none =>
      constructor
      · exact ⟨Nat.le_add_right _ _, by simp only [MediaTypeView.mainType]; omega⟩
      · exact ⟨Nat.le_add_right _ _, le_rfl⟩
      · exact parametersInside_nil _
  | some s =>
      obtain ⟨x, y, rfl, rfl, -⟩ := cut_of_findByte hs
      have hin := inside_parameters (pos + a.length + 1 + x.length) ((x ++ 59 :: y).drop x.length) _
        (searchAll_parameters _).2 ([], none) (parametersInside_nil _)
      have hend : pos + a.length + 1 + x.length + ((x ++ 59 :: y).drop x.length).length =
          pos + a.length + 1 + (x ++ 59 :: y).length := by
        rw [List.drop_left, List.length_append]
        omega
      rw [hend] at hin
      constructor
      · exact ⟨Nat.le_add_right _ _, by simp only [MediaTypeView.mainType]; omega⟩
      · exact ⟨Nat.le_add_right _ _, by simp only [MediaTypeView.subType, List.length_append]; omega⟩
      · exact hin

/-- The last comma stands behind a media range, and only blanks behind it. -/
def TrailingRange (value : Bytes) : Prop :=
  ∃ front e blanks, value = front ++ 47 :: (e ++ 44 :: blanks) ∧ 44 ∉ e ∧ Blanks blanks

theorem not_blanks_of_mem {s : Bytes} {b : UInt8} (hs : Blanks s) (h : b ≠ 32) (h' : b ≠ 9) : b ∉ s := by
  intro hb
  rcases hs b hb with hb | hb
  · exact h hb
  · exact h' hb

/-- With nothing but a last element left there is no trailing comma. -/
theorem not_trailingRange_last {a b : Bytes} (ha : 47 ∉ a) (hb : 44 ∉ b) : ¬ TrailingRange (a ++ 47 :: b) := by
  rintro ⟨front, e, blanks, h, -, -⟩
  rcases List.append_eq_append_iff.mp h with ⟨c, -, hc⟩ | ⟨c, hc, htail⟩
  · -- the comma is behind the slash
    have hmem : 44 ∈ 47 :: b := by
      rw [hc]
      simp
    rcases List.mem_cons.mp hmem with hmem | hmem
    · cases hmem
    · exact hb hmem
  · cases c with
    | nil =>
        obtain ⟨-, rfl⟩ := List.cons.inj htail
        exact hb (by simp)
    | cons x c =>
        obtain ⟨rfl, -⟩ := List.cons.inj htail
        exact ha (by rw [hc]; simp)

/-- What is behind an element and its comma decides. -/
theorem trailingRange_iff_tail {front blanks tail : Bytes} {b : UInt8} (hblanks : Blanks blanks) (h : b ≠ 32)
    (h' : b ≠ 9) : TrailingRange (front ++ 44 :: (blanks ++ b :: tail)) ↔ TrailingRange (b :: tail) := by
  constructor
  · rintro ⟨p, e, bl, he, hcomma, hbl⟩
    have he' : (front ++ 44 :: blanks) ++ (b :: tail) = p ++ 47 :: (e ++ 44 :: bl) := by simpa using he
    rcases List.append_eq_append_iff.mp he' with ⟨c, -, hc⟩ | ⟨c, hp, hc⟩
    · exact ⟨c, e, bl, hc, hcomma, hbl⟩
    · cases c with
      | nil => exact ⟨[], e, bl, hc.symm, hcomma, hbl⟩
      | cons x c =>
          rw [List.cons_append] at hc
          obtain ⟨rfl, hbehind⟩ := List.cons.inj hc
          -- the slash stands before the comma, so the comma is in the element
          have hmem : 44 ∈ c := by
            rcases List.append_eq_append_iff.mp hp with ⟨d, -, hd⟩ | ⟨d, -, hd⟩
            · cases d with
              | nil => cases (List.cons.inj hd).1
              | cons y d =>
                  obtain ⟨-, hd⟩ := List.cons.inj hd
                  have h47 : (47 : UInt8) ∈ blanks := by
                    rw [hd]
                    simp
                  exact absurd h47 (not_blanks_of_mem hblanks (by decide) (by decide))
            · cases d with
              | nil => cases (List.cons.inj hd).1
              | cons y d =>
                  obtain ⟨-, rfl⟩ := List.cons.inj hd
                  simp
          rcases List.append_eq_append_iff.mp hbehind with ⟨d, rfl, hd⟩ | ⟨d, rfl, hd⟩
          · cases d with
            | nil => exact absurd (by simpa using hmem) hcomma
            | cons y d =>
                obtain ⟨-, rfl⟩ := List.cons.inj hd
                exact absurd (by simp) (not_blanks_of_mem hbl h h')
          · exact absurd (List.mem_append_left d hmem) hcomma
  · rintro ⟨p, e, bl, he, hcomma, hbl⟩
    exact ⟨front ++ 44 :: (blanks ++ p), e, bl, by rw [he]; simp, hcomma, hbl⟩

/-- **`parse_accept` throws on a trailing comma behind a media range** and on nothing else. -/
theorem readsElement_mediaAt : ReadsElement mediaAt TrailingRange MediaInside := by
  constructor
  · intro hi hi' e hle he
    exact ⟨he.mainType.mono hle, he.subType.mono hle, he.rest.mono hle⟩
  · intro pos rest hnone
    rcases mediaAt_cases pos rest with ⟨hno, -⟩ | ⟨a, b, tail, -, -, -, -, hsome⟩
    · rintro ⟨front, e, blanks, rfl, -, -⟩
      exact hno (by simp)
    · rw [hsome] at hnone
      cases hnone
  · intro pos rest comma e he
    rcases mediaAt_cases pos rest with ⟨-, hnone⟩ | ⟨a, b, tail, -, -, -, rfl, hsome⟩
    · rw [hnone] at he
      cases he
    · rw [hsome] at he
      obtain ⟨rfl, rfl⟩ : (a ++ 47 :: b).length = comma ∧ mediaOf pos a b = e := by simpa using he
      refine ⟨?_, mediaInside_mediaOf pos a b⟩
      simp only [List.length_append, List.length_cons]
      omega
  · intro pos rest e he
    rcases mediaAt_cases pos rest with ⟨-, hnone⟩ | ⟨a, b, tail, ha, hb, htail, rfl, hsome⟩
    · rw [hnone] at he
      cases he
    · rw [hsome] at he
      have hlen := (Prod.mk.inj (Option.some.inj he)).1
      have hnil : tail = [] := by
        apply List.length_eq_zero_iff.mp
        simp only [List.length_append, List.length_cons] at hlen
        omega
      rw [hnil, List.append_nil]
      exact not_trailingRange_last ha hb
  · intro pos rest comma e he hne
    rcases mediaAt_cases pos rest with ⟨-, hnone⟩ | ⟨a, b, tail, ha, hb, htail, rfl, hsome⟩
    · rw [hnone] at he
      cases he
    · rw [hsome] at he
      obtain rfl := (Prod.mk.inj (Option.some.inj he)).1
      cases tail with
      | nil => simp at hne
      | cons c tail =>
          obtain rfl : c = 44 := by simpa using htail
          have hcut : a ++ 47 :: (b ++ 44 :: tail) = (a ++ 47 :: b) ++ 44 :: tail := by simp
          refine ⟨tail, ?_, ?_, ?_⟩
          · rw [hcut, List.drop_left]
          · exact fun hblanks => ⟨a, b, tail, rfl, hb, hblanks⟩
          · rintro blanks x tail' rfl hblanks h h'
            rw [hcut]
            exact trailingRange_iff_tail hblanks h h'

/-! ## §5 — the coding in front of a comma. -/

/-- What `codingAt` makes of `a`, with no comma in it. -/
def codingOf (pos : Nat) (a : Bytes) : Span × Option Span :=
  match findByte a 59 0 with
  | none => ((pos, pos + a.length), none)
  | some s =>
      ((pos, pos + s), (parameterRe.search 0 (a.drop s)).map fun m => shift (pos + s) (groupOf (a.drop s) m.1 2))

theorem codingAt_eq (pos : Nat) {a tail : Bytes} (ha : 44 ∉ a) (htail : tail = [] ∨ tail.head? = some 44) :
    codingAt pos (a ++ tail) = some (a.length, codingOf pos a) := by
  have hcomma : (findByte (a ++ tail) 44 0).getD (a ++ tail).length = a.length := by
    cases tail with
    | nil =>
        rw [List.append_nil, findByte_of_not_mem (by simpa using ha)]
        rfl
    | cons c tail =>
        obtain rfl : c = 44 := by simpa using htail
        have hfind := findByte_of_append [] tail ha
        rw [List.nil_append, List.length_nil, Nat.zero_add] at hfind
        rw [hfind]
        rfl
  have hstr : substr (a ++ tail) 0 a.length = a := by
    rw [substr, List.drop_zero, List.take_left]
  rw [codingAt]
  simp only [hcomma, hstr, codingOf]
  cases hs : findByte a 59 0 with
  | none => rfl
  | some s =>
      obtain ⟨x, y, rfl, rfl, -⟩ := cut_of_findByte hs
      have hn : (x ++ 59 :: y).length - x.length = (59 :: y).length := by simp
      have hrange : substr (x ++ 59 :: y ++ tail) x.length ((x ++ 59 :: y).length - x.length) =
          (x ++ 59 :: y).drop x.length := by
        rw [substr, List.append_assoc, List.drop_left, hn, List.take_left, List.drop_left]
      simp only [hrange]

theorem codingAt_cases (pos : Nat) (rest : Bytes) :
    ∃ a tail, 44 ∉ a ∧ (tail = [] ∨ tail.head? = some 44) ∧ rest = a ++ tail ∧
      codingAt pos rest = some (a.length, codingOf pos a) := by
  rcases cut_at 44 rest with h | ⟨a, tail, ha, rfl⟩
  · refine ⟨rest, [], h, Or.inl rfl, by simp, ?_⟩
    simpa using codingAt_eq pos h (Or.inl rfl)
  · exact ⟨a, 44 :: tail, ha, Or.inr rfl, rfl, codingAt_eq pos ha (Or.inr rfl)⟩

/-- A coding and a weight that lie in the first `len` bytes. -/
structure CodingInside (len : Nat) (e : Span × Option Span) : Prop where
  coding : Inside len e.1
  weight : ∀ w ∈ e.2, Inside len w

theorem codingInside_codingOf (pos : Nat) (a : Bytes) : CodingInside (pos + a.length) (codingOf pos a) := by
  rw [codingOf]
  cases hs : findByte a 59 0 with
  | none =>
      constructor
      · exact ⟨Nat.le_add_right _ _, le_rfl⟩
      · intro w hw
        cases hw
  | some s =>
      obtain ⟨x, y, rfl, rfl, -⟩ := cut_of_findByte hs
      constructor
      · refine ⟨Nat.le_add_right _ _, ?_⟩
        simp only [List.length_append]
        omega
      · intro w hw
        obtain ⟨m, hm, rfl⟩ := Option.map_eq_some_iff.mp hw
        obtain ⟨caps, pos', rest⟩ := m
        obtain ⟨pre, t, -, hcut, rfl, hwithin⟩ := Re.search_spec hm
        have hle := congrArg List.length hcut
        simp only [List.length_append] at hle
        have hrange : 0 + pre.length + t.length ≤ ((x ++ 59 :: y).drop x.length).length := by omega
        have hin := inside_groupOf (hwithin.mono le_rfl hrange) 2 (pos + x.length)
        have hend : pos + x.length + ((x ++ 59 :: y).drop x.length).length = pos + (x ++ 59 :: y).length := by
          rw [List.drop_left, List.length_append]
          omega
        rwa [hend] at hin

/-- The last comma has only blanks behind it. -/
def TrailingComma (value : Bytes) : Prop := ∃ front blanks, value = front ++ 44 :: blanks ∧ Blanks blanks

theorem trailingComma_iff_tail {front blanks tail : Bytes} {b : UInt8} (h : b ≠ 32) (h' : b ≠ 9) :
    TrailingComma (front ++ 44 :: (blanks ++ b :: tail)) ↔ TrailingComma (b :: tail) := by
  constructor
  · rintro ⟨p, bl, he, hbl⟩
    have he' : (front ++ 44 :: blanks) ++ (b :: tail) = p ++ 44 :: bl := by simpa using he
    rcases List.append_eq_append_iff.mp he' with ⟨c, -, hc⟩ | ⟨c, -, hc⟩
    · exact ⟨c, bl, hc, hbl⟩
    · cases c with
      | nil => exact ⟨[], bl, hc.symm, hbl⟩
      | cons x c =>
          rw [List.cons_append] at hc
          obtain ⟨-, rfl⟩ := List.cons.inj hc
          exact absurd (by simp) (not_blanks_of_mem hbl h h')
  · rintro ⟨p, bl, he, hbl⟩
    exact ⟨front ++ 44 :: (blanks ++ p), bl, by rw [he]; simp, hbl⟩

/-- **`parse_accept_encoding` throws on a trailing comma** and on nothing else. -/
theorem readsElement_codingAt : ReadsElement codingAt TrailingComma CodingInside := by
  constructor
  · intro hi hi' e hle he
    exact ⟨he.coding.mono hle, fun w hw => (he.weight w hw).mono hle⟩
  · intro pos rest hnone
    obtain ⟨a, tail, -, -, -, hsome⟩ := codingAt_cases pos rest
    rw [hsome] at hnone
    cases hnone
  · intro pos rest comma e he
    obtain ⟨a, tail, -, -, rfl, hsome⟩ := codingAt_cases pos rest
    rw [hsome] at he
    obtain ⟨rfl, rfl⟩ : a.length = comma ∧ codingOf pos a = e := by simpa using he
    exact ⟨by simp, codingInside_codingOf pos a⟩
  · intro pos rest e he
    obtain ⟨a, tail, ha, htail, rfl, hsome⟩ := codingAt_cases pos rest
    rw [hsome] at he
    have hlen := (Prod.mk.inj (Option.some.inj he)).1
    have hnil : tail = [] := by
      apply List.length_eq_zero_iff.mp
      rw [List.length_append] at hlen
      omega
    rintro ⟨front, blanks, h, -⟩
    rw [hnil, List.append_nil] at h
    exact ha (by rw [h]; simp)
  · intro pos rest comma e he hne
    obtain ⟨a, tail, ha, htail, rfl, hsome⟩ := codingAt_cases pos rest
    rw [hsome] at he
    obtain rfl := (Prod.mk.inj (Option.some.inj he)).1
    cases tail with
    | nil => simp at hne
    | cons c tail =>
        obtain rfl : c = 44 := by simpa using htail
        refine ⟨tail, ?_, ?_, ?_⟩
        · rw [List.drop_left]
        · exact fun hblanks => ⟨a, tail, rfl, hblanks⟩
        · rintro blanks x tail' rfl - h h'
          exact trailingComma_iff_tail h h'

/-! ## §6 — totality. -/

/-- `parse_accept` returns, and all it returns lies in the header value. -/
def AcceptTotal (value : Bytes) : Prop :=
  ∃ views, parseAccept value = some (.ok views) ∧ ∀ e ∈ views, MediaInside value.length e

/-- `parse_accept_encoding` returns, and all it returns lies in the header value. -/
def AcceptEncodingTotal (value : Bytes) : Prop :=
  ∃ views, parseAcceptEncoding value = some (.ok views) ∧ ∀ e ∈ views, CodingInside value.length e

theorem parseAccept_spec (value : Bytes) :
    TrailingRange value ∧ parseAccept value = some (.error .outOfRange) ∨
      ¬ TrailingRange value ∧ AcceptTotal value := by
  have h := listGo_spec readsElement_mediaAt 0 [] (Nat.lt_succ_self value.length) (by simp)
  rwa [Nat.zero_add] at h

theorem parseAcceptEncoding_spec (value : Bytes) :
    TrailingComma value ∧ parseAcceptEncoding value = some (.error .outOfRange) ∨
      ¬ TrailingComma value ∧ AcceptEncodingTotal value := by
  unfold AcceptEncodingTotal parseAcceptEncoding
  by_cases hnil : value = []
  · right
    rw [if_pos hnil, hnil]
    refine ⟨?_, [], rfl, by simp⟩
    rintro ⟨front, blanks, h, -⟩
    simp at h
  · rw [if_neg hnil]
    have h := listGo_spec readsElement_codingAt 0 [] (Nat.lt_succ_self value.length) (by simp)
    rwa [Nat.zero_add] at h

/-- An exception is no result. -/
theorem not_returns_of_throw {β : Type} {f : Option (Except Thrown β)} (h : f = some (.error .outOfRange))
    (P : β → Prop) : ¬ ∃ v, f = some (.ok v) ∧ P v := by
  rintro ⟨v, hv, -⟩
  rw [h] at hv
  cases hv

/-- A function that throws on the bad values and returns on the others. -/
theorem returns_iff {β : Type} {f : Option (Except Thrown β)} {P : β → Prop} {Bad : Prop}
    (h : Bad ∧ f = some (.error .outOfRange) ∨ ¬ Bad ∧ ∃ v, f = some (.ok v) ∧ P v) :
    (∃ v, f = some (.ok v) ∧ P v) ↔ ¬ Bad := by
  rcases h with ⟨hbad, hthrow⟩ | ⟨hok, hreturns⟩
  · exact iff_of_false (not_returns_of_throw hthrow P) fun hok => hok hbad
  · exact iff_of_true hreturns hok

/-- **Both functions return** on every header value but those with a trailing comma, which `parse_accept` minds
behind a media range only. -/
theorem accept_total_iff (value : Bytes) :
    (AcceptTotal value ↔ ¬ TrailingRange value) ∧ (AcceptEncodingTotal value ↔ ¬ TrailingComma value) :=
  ⟨returns_iff (parseAccept_spec value), returns_iff (parseAcceptEncoding_spec value)⟩

/-- **A trailing comma throws** in both. -/
theorem accept_trailing_comma_throws :
    parseAccept (text "text/html,") = some (.error .outOfRange) ∧
      parseAcceptEncoding (text "gzip, ") = some (.error .outOfRange) ∧
      ¬ AcceptTotal (text "text/html,") ∧ ¬ AcceptEncodingTotal (text "gzip, ") := by
  have haccept : parseAccept (text "text/html,") = some (.error .outOfRange) := by decide
  have hencoding : parseAcceptEncoding (text "gzip, ") = some (.error .outOfRange) := by decide
  exact ⟨haccept, hencoding, not_returns_of_throw haccept _, not_returns_of_throw hencoding _⟩

end NetCpp.Http
