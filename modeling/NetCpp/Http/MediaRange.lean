/-
# NetCpp.Http.MediaRange — what `parse_accept` reads from a list of media ranges.

`AcceptList` is a list as a client writes it: media ranges `type/subtype` with `;name=value` parameters, and elements
without a slash, with a comma and optional blanks between two of them.  `AcceptList.views` is what is to be read
from it.  The function goes three ways of its own.

  * The quote that ends a value is in the class of what a value consists of, and the class is greedy: the value
    of a quoted parameter has its closing quote, and only that one.
  * An element without a slash is not skipped: it becomes a part of the TYPE of the next media range.
  * A single blank element behind the last media range throws.
-/
import NetCpp.Http.Accept

namespace NetCpp.Http

open NetCpp.Lib

/-! ## §1 — the list. -/

/-- A byte that has a meaning in a list of media ranges, or is white space. -/
def Separator (b : UInt8) : Prop := b ∈ text ",;=/" ∨ b = 34 ∨ b = 32 ∨ 9 ≤ b ∧ b ≤ 13

instance (b : UInt8) : Decidable (Separator b) := inferInstanceAs (Decidable (_ ∨ _))

def IsToken (s : Bytes) : Prop := s ≠ [] ∧ ∀ b ∈ s, ¬ Separator b

instance (s : Bytes) : Decidable (IsToken s) := inferInstanceAs (Decidable (_ ∧ _))

/-- `;name=value` or `;name="value"`. -/
structure Param where
  name : Bytes
  value : Bytes
  quoted : Bool
  name_ok : IsToken name
  value_ok : IsToken value

namespace Param

/-- What stands on both sides of the value. -/
def quotes (p : Param) : Bytes := if p.quoted then [34] else []

def bytes (p : Param) : Bytes := 59 :: (p.name ++ 61 :: (p.quotes ++ (p.value ++ p.quotes)))

/-- The places of the name and of the value of a parameter at `pos`. -/
def nameSpan (pos : Nat) (p : Param) : Span := (pos + 1, pos + 1 + p.name.length)

def valueSpan (pos : Nat) (p : Param) : Span :=
  (pos + 1 + p.name.length + 1 + p.quotes.length, pos + 1 + p.name.length + 1 + p.quotes.length + p.value.length)

/-- What the expression takes for the value: the closing quote too. -/
def takenSpan (pos : Nat) (p : Param) : Span := ((p.valueSpan pos).1, (p.valueSpan pos).2 + p.quotes.length)

end Param

/-- The parameters with their places. -/
def placed : Nat → List Param → List (Nat × Param)
  | _, [] => []
  | pos, p :: ps => (pos, p) :: placed (pos + p.bytes.length) ps

/-- The parameters other than `q`, and the value of the last `q`, with `value` for the place of a value. -/
def readParams (value : Nat → Param → Span) (ps : List (Nat × Param)) : List (Span × Span) × Option Span :=
  ((ps.filter fun x => x.2.name ≠ text "q").map fun x => (x.2.nameSpan x.1, value x.1 x.2),
    ((ps.filter fun x => x.2.name = text "q").getLast?).map fun x => value x.1 x.2)

/-- `type/subtype` and parameters. -/
structure MediaRange where
  mainType : Bytes
  subType : Bytes
  params : List Param
  mainType_ok : IsToken mainType
  subType_ok : IsToken subType

namespace MediaRange

/-- Behind the slash. -/
def rest (r : MediaRange) : Bytes := r.subType ++ r.params.flatMap Param.bytes

def bytes (r : MediaRange) : Bytes := r.mainType ++ 47 :: r.rest

/-- The place of the first parameter. -/
def paramsAt (pos : Nat) (r : MediaRange) : Nat := pos + r.mainType.length + 1 + r.subType.length

/-- The view of a media range at `pos`, if its type starts at `start`. -/
def viewFrom (value : Nat → Param → Span) (start pos : Nat) (r : MediaRange) : MediaTypeView × Option Span :=
  (⟨start, pos + r.mainType.length, r.paramsAt pos, (readParams value (placed (r.paramsAt pos) r.params)).1⟩,
    (readParams value (placed (r.paramsAt pos) r.params)).2)

/-- The view of a media range at `pos`. -/
def view (pos : Nat) (r : MediaRange) : MediaTypeView × Option Span := r.viewFrom Param.valueSpan pos pos

end MediaRange

/-- A media range, or a text without a slash. -/
inductive Element
  | range (r : MediaRange)
  | other (t : Bytes) (comma : 44 ∉ t) (slash : 47 ∉ t)

namespace Element

def bytes : Element → Bytes
  | range r => r.bytes
  | other t _ _ => t

def IsRange : Element → Prop
  | range _ => True
  | other _ _ _ => False

/-- What is read from an element at `pos`. -/
def views (pos : Nat) : Element → List (MediaTypeView × Option Span)
  | range r => [r.view pos]
  | other _ _ _ => []

end Element

/-- An element with the blanks between it and the comma in front of it. -/
structure Item where
  blanks : Bytes
  element : Element
  blanks_ok : Blanks blanks

def Item.bytes (i : Item) : Bytes := 44 :: (i.blanks ++ i.element.bytes)

/-- What is read from the items behind an element that ends at `pos`. -/
def itemViews : Nat → List Item → List (MediaTypeView × Option Span)
  | _, [] => []
  | pos, i :: items => i.element.views (pos + 1 + i.blanks.length) ++ itemViews (pos + i.bytes.length) items

/-- A header value. -/
structure AcceptList where
  first : Element
  items : List Item

namespace AcceptList

def bytes (l : AcceptList) : Bytes := l.first.bytes ++ l.items.flatMap Item.bytes

def elements (l : AcceptList) : List Element := l.first :: l.items.map Item.element

/-- What is to be read from the list: each media range at its own place. -/
def views (l : AcceptList) : List (MediaTypeView × Option Span) :=
  l.first.views 0 ++ itemViews l.first.bytes.length l.items

end AcceptList

/-! ## §2 — the matches of the parameters. -/

theorem IsToken.not_mem {s : Bytes} (h : IsToken s) {b : UInt8} (hb : Separator b) : b ∉ s :=
  fun hmem => h.2 b hmem hb

theorem separator_comma : Separator 44 := Or.inl (by decide)
theorem separator_semicolon : Separator 59 := Or.inl (by decide)
theorem separator_equals : Separator 61 := Or.inl (by decide)
theorem separator_slash : Separator 47 := Or.inl (by decide)

/-- A token is no white space anywhere. -/
theorem IsToken.isSpace {s : Bytes} (h : IsToken s) {b : UInt8} (hb : b ∈ s) :
    (b == 32 || (9 ≤ b && b ≤ 13)) = false := by
  have hno := h.2 b hb
  by_contra hspace
  rw [Bool.not_eq_false, Bool.or_eq_true, Bool.and_eq_true, beq_iff_eq, decide_eq_true_eq, decide_eq_true_eq] at hspace
  exact hno (Or.inr (Or.inr hspace))

/-- The groups of a parameter at `pos`. -/
def Param.caps (pos : Nat) (p : Param) : Caps :=
  Caps.set 2 (p.takenSpan pos) (Caps.set 1 (p.nameSpan pos) fun _ => none)

section Run

variable {β : Type} {k : Nat → Bytes → Caps → Option β} {pos : Nat} {rest : Bytes} {caps : Caps} {r : β}

/-- A starred class takes nothing in front of another byte. -/
theorem run_star_space (hrest : ∀ b ∈ rest.head?, (b == 32 || (9 ≤ b && b ≤ 13)) = false)
    (h : k pos rest caps = some r) : (Re.star space).run pos rest caps k = some r := by
  have hstar : (Re.star space).run pos ([] ++ rest) caps k = some r :=
    Re.run_star_cls [] (by simp) hrest (by simpa using h)
  rwa [List.nil_append] at hstar

/-- A text of a class, with at least one byte. -/
theorem run_plus_noneOf {s : String} {t : Bytes} (hne : t ≠ []) (ht : Free (text s) t)
    (hrest : ∀ b ∈ rest.head?, b ∈ text s) (h : k (pos + t.length) rest caps = some r) :
    (plus (noneOf s)).run pos (t ++ rest) caps k = some r := by
  obtain ⟨b, u, rfl⟩ := List.exists_cons_of_ne_nil hne
  rw [plus, Re.run_seq, List.cons_append]
  apply run_noneOf (ht b List.mem_cons_self)
  apply Re.run_star_cls u
  · exact noneOf_true fun c hc => ht c (List.mem_cons_of_mem _ hc)
  · intro c hc
    simpa using hrest c hc
  · rw [show pos + 1 + u.length = pos + (b :: u).length by simp only [List.length_cons]; omega]
    exact h

theorem run_quote_none (hrest : rest.head? ≠ some 34) : quote.run pos rest caps k = none := by
  cases rest with
  | nil => rfl
  | cons b rest =>
      have hb : (b == 34) = false := by simpa using hrest
      rw [quote, Re.run, hb]
      rfl

/-- The quote in front of a value is taken, when there is one. -/
theorem run_opening (p : Param) (h : k (pos + p.quotes.length) (p.value ++ rest) caps = some r) :
    (Re.opt quote).run pos (p.quotes ++ (p.value ++ rest)) caps k = some r := by
  unfold Param.quotes at h ⊢
  cases hq : p.quoted with
  | true =>
      rw [hq] at h
      apply Re.run_opt_some
      exact Re.run_cls_cons (beq_self_eq_true _) h
  | false =>
      rw [hq] at h
      apply Re.run_opt_none
      · apply run_quote_none
        obtain ⟨b, v, hv⟩ := List.exists_cons_of_ne_nil p.value_ok.1
        have hno : b ≠ 34 := by
          rintro rfl
          exact p.value_ok.not_mem (Or.inr (Or.inl rfl)) (by rw [hv]; exact List.mem_cons_self)
        rw [hv]
        simpa using hno
      · exact h

/-- What a value and the quote behind it consist of. -/
theorem free_taken (p : Param) : Free (text ";,\r\n") (p.value ++ p.quotes) := by
  have hclass : text ";,\r\n" = [59, 44, 13, 10] := by decide
  have hcr : Separator 13 := Or.inr (Or.inr (Or.inr (by decide)))
  have hlf : Separator 10 := Or.inr (Or.inr (Or.inr (by decide)))
  rw [hclass]
  intro b hb hmem
  rcases List.mem_append.mp hb with hb | hb
  · have hsep : Separator b := by
      simp only [List.mem_cons, List.not_mem_nil, or_false] at hmem
      rcases hmem with rfl | rfl | rfl | rfl
      · exact separator_semicolon
      · exact separator_comma
      · exact hcr
      · exact hlf
    exact p.value_ok.not_mem hsep hb
  · unfold Param.quotes at hb
    split at hb
    · obtain rfl := List.mem_singleton.mp hb
      revert hmem
      decide
    · cases hb

/-- **A parameter is matched as a whole**: the value with the quote that ends it. -/
theorem run_parameter (p : Param) (hrest : rest = [] ∨ rest.head? = some 59)
    (h : k (pos + p.bytes.length) rest (p.caps pos) = some r) :
    parameterRe.run pos (p.bytes ++ rest) (fun _ => none) k = some r := by
  have hnot : rest.head? ≠ some 34 := by
    rcases hrest with rfl | hrest
    · simp
    · rw [hrest]
      decide
  have hnext : ∀ b ∈ rest.head?, b ∈ text ";,\r\n" := by
    intro b hb
    rcases hrest with rfl | hrest
    · cases hb
    · obtain rfl : 59 = b := Option.some.inj (hrest.symm.trans hb)
      decide
  have htext : p.bytes ++ rest = 59 :: (p.name ++ 61 :: (p.quotes ++ (p.value ++ (p.quotes ++ rest)))) := by
    simp [Param.bytes]
  rw [htext, parameterRe, Re.run_seq]
  apply run_star_space
  · simp
  rw [Re.run_seq]
  apply run_char ';'
  rw [Re.run_seq]
  apply run_star_space
  · intro b hb
    obtain ⟨c, n, hn⟩ := List.exists_cons_of_ne_nil p.name_ok.1
    rw [hn] at hb
    obtain rfl : c = b := by simpa using hb
    exact p.name_ok.isSpace (by rw [hn]; exact List.mem_cons_self)
  rw [Re.run_seq, Re.run_group]
  apply run_plus_noneOf p.name_ok.1
  · intro b hb hmem
    obtain rfl : b = 61 := by simpa [show text "=" = [61] by decide] using hmem
    exact p.name_ok.not_mem separator_equals hb
  · intro b hb
    obtain rfl : 61 = b := by simpa using hb
    decide
  rw [Re.run_seq]
  apply run_char '='
  rw [Re.run_seq]
  apply run_opening
  rw [Re.run_seq, Re.run_group, ← List.append_assoc]
  apply run_plus_noneOf
  · intro hnil
    exact p.value_ok.1 (List.append_eq_nil_iff.mp hnil).1
  · exact free_taken p
  · exact hnext
  apply Re.run_opt_none (run_quote_none hnot)
  have hend : pos + 1 + p.name.length + 1 + p.quotes.length + (p.value ++ p.quotes).length = pos + p.bytes.length := by
    simp only [Param.bytes, List.length_append, List.length_cons]
    omega
  have hcaps : Caps.set 2 (pos + 1 + p.name.length + 1 + p.quotes.length, pos + p.bytes.length)
      (Caps.set 1 (pos + 1, pos + 1 + p.name.length) fun _ => none) = p.caps pos := by
    rw [← hend, Param.caps, Param.takenSpan, Param.valueSpan, Param.nameSpan]
    simp only [List.length_append, Nat.add_assoc]
  rw [hend, hcaps]
  exact h

end Run

/-- Behind a parameter comes the next one, or nothing. -/
theorem head_params (ps : List Param) : ps.flatMap Param.bytes = [] ∨ (ps.flatMap Param.bytes).head? = some 59 := by
  cases ps with
  | nil => exact Or.inl rfl
  | cons p ps => exact Or.inr rfl

/-- **The iterator goes through the parameters** one by one. -/
theorem searchAll_params (ps : List Param) (n pos : Nat) (hn : ps.length < n) :
    parameterRe.searchAll n pos (ps.flatMap Param.bytes) = some ((placed pos ps).map fun x => x.2.caps x.1) := by
  induction ps generalizing n pos with
  | nil =>
      obtain ⟨m, rfl⟩ : ∃ m, n = m + 1 := ⟨n - 1, by simp at hn; omega⟩
      rfl
  | cons p ps ih =>
      obtain ⟨m, rfl⟩ : ∃ m, n = m + 1 := ⟨n - 1, by simp at hn; omega⟩
      rw [List.flatMap_cons, placed, List.map_cons]
      apply Re.searchAll_cons
      · apply Re.search_of_run
        exact run_parameter p (head_params ps) rfl
      · apply ih
        simpa using hn

theorem length_le_flatMap (ps : List Param) : ps.length ≤ (ps.flatMap Param.bytes).length := by
  induction ps with
  | nil => simp
  | cons p ps ih =>
      rw [List.flatMap_cons, List.length_append, List.length_cons, Param.bytes, List.length_cons]
      omega

theorem parameterMatches_params (ps : List Param) :
    parameterMatches (ps.flatMap Param.bytes) = (placed 0 ps).map fun x => x.2.caps x.1 := by
  rw [parameterMatches, searchAll_params ps _ 0 (Nat.lt_succ_of_le (length_le_flatMap ps))]
  rfl

/-! ## §3 — the parameters of a media range. -/

section Params

variable (value : Nat → Param → Span) (x : Nat × Param) (ps : List (Nat × Param))

theorem readParams_cons_q (h : x.2.name = text "q") :
    readParams value (x :: ps) = ((readParams value ps).1, (readParams value ps).2.or (some (value x.1 x.2))) := by
  unfold readParams
  rw [List.filter_cons_of_neg (by simpa using h), List.filter_cons_of_pos (by simpa using h), List.getLast?_cons]
  cases (ps.filter fun x => x.2.name = text "q").getLast? <;> rfl

theorem readParams_cons_other (h : x.2.name ≠ text "q") :
    readParams value (x :: ps) =
      ((x.2.nameSpan x.1, value x.1 x.2) :: (readParams value ps).1, (readParams value ps).2) := by
  unfold readParams
  rw [List.filter_cons_of_pos (by simpa using h), List.filter_cons_of_neg (by simpa using h)]
  rfl

end Params

theorem groupOf_caps (range : Bytes) (pos : Nat) (p : Param) :
    groupOf range (p.caps pos) 1 = p.nameSpan pos ∧ groupOf range (p.caps pos) 2 = p.takenSpan pos := by
  unfold groupOf Param.caps
  constructor
  · rw [Caps.set_of_ne (by decide), Caps.set_self]
    rfl
  · rw [Caps.set_self]
    rfl

theorem shift_spans (base pos : Nat) (p : Param) :
    shift base (p.nameSpan pos) = p.nameSpan (base + pos) ∧ shift base (p.takenSpan pos) = p.takenSpan (base + pos) := by
  simp only [shift, Param.nameSpan, Param.takenSpan, Param.valueSpan, Nat.add_assoc, and_self]

/-- **The loop over the parameters** behind `front`. -/
theorem foldl_params (base : Nat) (front : Bytes) (ps : List Param) (acc : List (Span × Span) × Option Span) :
    ((placed front.length ps).map fun x => x.2.caps x.1).foldl
        (addParameter base (front ++ ps.flatMap Param.bytes)) acc =
      (acc.1 ++ (readParams Param.takenSpan (placed (base + front.length) ps)).1,
        (readParams Param.takenSpan (placed (base + front.length) ps)).2.or acc.2) := by
  induction ps generalizing front acc with
  | nil => simp [placed, readParams]
  | cons p ps ih =>
      have hrange : front ++ (p :: ps).flatMap Param.bytes = (front ++ p.bytes) ++ ps.flatMap Param.bytes := by simp
      have hname : fieldAt (front ++ (p :: ps).flatMap Param.bytes) (p.nameSpan front.length) = p.name := by
        have hcut : front ++ (p :: ps).flatMap Param.bytes =
            (front ++ [59]) ++ (p.name ++ (61 :: (p.quotes ++ (p.value ++ p.quotes)) ++ ps.flatMap Param.bytes)) := by
          simp [Param.bytes]
        rw [hcut, Param.nameSpan]
        exact fieldAt_middle (front ++ [59]) p.name _ (by simp)
      have hpos : front.length + p.bytes.length = (front ++ p.bytes).length := List.length_append.symm
      obtain ⟨h1, h2⟩ := groupOf_caps (front ++ (p :: ps).flatMap Param.bytes) front.length p
      obtain ⟨hs1, hs2⟩ := shift_spans base front.length p
      have hstep : addParameter base (front ++ (p :: ps).flatMap Param.bytes) acc (p.caps front.length) =
          if p.name = text "q" then (acc.1, some (p.takenSpan (base + front.length)))
          else (acc.1 ++ [(p.nameSpan (base + front.length), p.takenSpan (base + front.length))], acc.2) := by
        rw [addParameter, h1, h2, hname, hs1, hs2]
      rw [placed, List.map_cons, List.foldl_cons, hstep, hpos, hrange, ih]
      have hnext : base + (front ++ p.bytes).length = base + front.length + p.bytes.length := by
        rw [List.length_append]
        omega
      rw [placed, hnext]
      by_cases hq : p.name = text "q"
      · rw [if_pos hq, readParams_cons_q Param.takenSpan (base + front.length, p) _ hq]
        cases (readParams Param.takenSpan (placed (base + front.length + p.bytes.length) ps)).2 <;> rfl
      · rw [if_neg hq, readParams_cons_other Param.takenSpan (base + front.length, p) _ hq, List.append_assoc]
        rfl

/-- **A media range is read whole**, from where its type starts for the function; the quote behind a value is taken
with it. -/
theorem mediaOf_range (pos : Nat) (front : Bytes) (r : MediaRange) :
    mediaOf pos (front ++ r.mainType) r.rest = r.viewFrom Param.takenSpan pos (pos + front.length) := by
  have hno : 59 ∉ r.subType := r.subType_ok.not_mem separator_semicolon
  have hpos : pos + (front ++ r.mainType).length = pos + front.length + r.mainType.length := by
    rw [List.length_append]
    omega
  rw [mediaOf, MediaRange.rest, MediaRange.viewFrom, MediaRange.paramsAt, hpos]
  cases hps : r.params with
  | nil =>
      rw [List.flatMap_nil, List.append_nil, findByte_of_not_mem (by simpa using hno)]
      rfl
  | cons p ps =>
      have hfind : findByte (r.subType ++ (p :: ps).flatMap Param.bytes) 59 0 = some r.subType.length := by
        have := findByte_of_append [] (p.bytes.tail ++ ps.flatMap Param.bytes) hno
        simpa [Param.bytes] using this
      have hfold := foldl_params (pos + front.length + r.mainType.length + 1 + r.subType.length) [] (p :: ps) ([], none)
      rw [List.nil_append, List.length_nil, Nat.add_zero, ← parameterMatches_params] at hfold
      rw [hfind]
      simp only [List.drop_left, hfold, List.nil_append, Option.or_none, Nat.add_zero]

/-! ## §4 — the list, as the function reads it. -/

/-- The blanks an element starts with. -/
def Element.lead : Element → Nat
  | range _ => 0
  | other t _ _ => (t.takeWhile fun b => b == 32 || b == 9).length

/-- Nothing but blanks is left behind a comma. -/
def OnlyBlank (i : Item) (items : List Item) : Prop := items.isEmpty = true ∧ Blanks i.element.bytes

instance (i : Item) (items : List Item) : Decidable (OnlyBlank i items) :=
  inferInstanceAs (Decidable (_ ∧ _))

/-- What the loop makes of an element at `pos` and the items behind it, when what is left of the value starts at
`start`; `none` when it throws.  An element without a slash does not move `start`. -/
def readFrom : Nat → Nat → Element → List Item → Option (List (MediaTypeView × Option Span))
  | _, _, .other _ _ _, [] => some []
  | start, pos, .other t _ _, i :: items => readFrom start (pos + t.length + 1 + i.blanks.length) i.element items
  | start, pos, .range r, [] => some [r.viewFrom Param.takenSpan start pos]
  | start, pos, .range r, i :: items =>
      if OnlyBlank i items then none
      else
        (readFrom (pos + r.bytes.length + 1 + i.blanks.length + i.element.lead)
          (pos + r.bytes.length + 1 + i.blanks.length) i.element items).map (r.viewFrom Param.takenSpan start pos :: ·)

/-- The same behind an element without a slash that ends at `pos`. -/
def readAfter (start pos : Nat) : List Item → Option (List (MediaTypeView × Option Span))
  | [] => some []
  | i :: items => readFrom start (pos + 1 + i.blanks.length) i.element items

theorem readFrom_other (start pos : Nat) (t : Bytes) (hc : 44 ∉ t) (hs : 47 ∉ t) (items : List Item) :
    readFrom start pos (.other t hc hs) items = readAfter start (pos + t.length) items := by
  cases items <;> rfl

/-- What the function returns when these are the views of the rest. -/
def outcome (result : List (MediaTypeView × Option Span)) :
    Option (List (MediaTypeView × Option Span)) → Except Thrown (List (MediaTypeView × Option Span))
  | some views => .ok (result ++ views)
  | none => .error .outOfRange

theorem Param.not_mem_comma (p : Param) : 44 ∉ p.bytes := by
  have hq : 44 ∉ p.quotes := by
    unfold Param.quotes
    split <;> decide
  have hname := p.name_ok.not_mem separator_comma
  have hvalue := p.value_ok.not_mem separator_comma
  simp [Param.bytes, hname, hvalue, hq]

theorem MediaRange.not_mem_comma (r : MediaRange) : 44 ∉ r.rest := by
  intro h
  rcases List.mem_append.mp h with h | h
  · exact r.subType_ok.not_mem separator_comma h
  · obtain ⟨p, -, hp⟩ := List.mem_flatMap.mp h
    exact p.not_mem_comma hp

theorem head_items (items : List Item) : items.flatMap Item.bytes = [] ∨ (items.flatMap Item.bytes).head? = some 44 := by
  cases items with
  | nil => exact Or.inl rfl
  | cons i items => exact Or.inr rfl

/-- The search behind a comma stops in front of what is not blank. -/
theorem findNotBlank_of_drop {s blanks rest : Bytes} {pos : Nat} (h : s.drop pos = blanks ++ rest) (hb : Blanks blanks)
    (hrest : rest ≠ []) (hhead : ∀ b ∈ rest.head?, b ≠ 32 ∧ b ≠ 9) :
    findNotBlank s pos = some (pos + blanks.length) ∧ s.drop (pos + blanks.length) = rest := by
  obtain ⟨b, u, rfl⟩ := List.exists_cons_of_ne_nil hrest
  obtain ⟨h32, h9⟩ := hhead b rfl
  have hidx : (blanks ++ b :: u).findIdx? (fun b => b != 32 && b != 9) = some blanks.length := by
    rw [List.findIdx?_append, List.findIdx?_eq_none_iff.mpr]
    · simp [List.findIdx?_cons, h32, h9]
    · intro x hx
      rcases hb x hx with rfl | rfl <;> decide
  constructor
  · rw [findNotBlank, h, hidx]
    rfl
  · rw [← List.drop_drop, h, List.drop_left]

/-- A text is cut behind the blanks it starts with. -/
theorem cut_behind_blanks (t : Bytes) :
    ∃ c, t = (t.takeWhile fun b => b == 32 || b == 9) ++ c ∧ (Blanks (t.takeWhile fun b => b == 32 || b == 9)) ∧
      ∀ b ∈ c.head?, b ≠ 32 ∧ b ≠ 9 := by
  refine ⟨t.dropWhile fun b => b == 32 || b == 9, List.takeWhile_append_dropWhile.symm, ?_, ?_⟩
  · intro b hb
    have := List.mem_takeWhile_imp (p := fun b : UInt8 => b == 32 || b == 9) hb
    simpa using this
  · intro b hb
    have := List.head?_dropWhile_not (fun b : UInt8 => b == 32 || b == 9) t
    rw [hb] at this
    simpa using this

/-- What is left behind a comma, when there is something but blanks: the element without the blanks in front. -/
theorem left_behind_comma {s : Bytes} {pos : Nat} (i : Item) (items : List Item)
    (h : s.drop pos = i.blanks ++ (i.element.bytes ++ items.flatMap Item.bytes)) (hno : ¬ OnlyBlank i items) :
    findNotBlank s pos = some (pos + i.blanks.length + i.element.lead) ∧
      s.drop (pos + i.blanks.length + i.element.lead) =
        i.element.bytes.drop i.element.lead ++ items.flatMap Item.bytes := by
  cases he : i.element with
  | range r =>
      rw [he] at h
      obtain ⟨b, u, hb⟩ := List.exists_cons_of_ne_nil r.mainType_ok.1
      have hspace := r.mainType_ok.isSpace (show b ∈ r.mainType by rw [hb]; exact List.mem_cons_self)
      have hbytes : (Element.range r).bytes = b :: (u ++ 47 :: r.rest) := by
        rw [Element.bytes, MediaRange.bytes, hb, List.cons_append]
      apply findNotBlank_of_drop h i.blanks_ok
      · rw [hbytes]
        exact List.cons_ne_nil _ _
      · rw [hbytes]
        rintro c hc
        obtain rfl : b = c := by simpa using hc
        constructor
        · rintro rfl
          exact absurd hspace (by decide)
        · rintro rfl
          exact absurd hspace (by decide)
  | other t hc hs =>
      rw [he] at h
      obtain ⟨c, hcut, hblank, hhead⟩ := cut_behind_blanks t
      have hlead : (Element.other t hc hs).bytes.drop (Element.other t hc hs).lead = c :=
        (congrArg (List.drop _) hcut).trans List.drop_left
      have hdrop : s.drop pos =
          (i.blanks ++ t.takeWhile fun b => b == 32 || b == 9) ++ (c ++ items.flatMap Item.bytes) := by
        rw [h, Element.bytes, List.append_assoc, ← List.append_assoc (t.takeWhile _), ← hcut]
      have hblanks : Blanks (i.blanks ++ t.takeWhile fun b => b == 32 || b == 9) := by
        intro b hb
        rcases List.mem_append.mp hb with hb | hb
        · exact i.blanks_ok b hb
        · exact hblank b hb
      have hne : c ++ items.flatMap Item.bytes ≠ [] := by
        intro hnil
        obtain ⟨rfl, hitems⟩ := List.append_eq_nil_iff.mp hnil
        apply hno
        constructor
        · cases items with
          | nil => rfl
          | cons j items => cases hitems
        · rw [he]
          intro b hb
          apply hblank b
          rw [List.append_nil] at hcut
          rw [← hcut]
          exact hb
      have hfirst : ∀ b ∈ (c ++ items.flatMap Item.bytes).head?, b ≠ 32 ∧ b ≠ 9 := by
        intro b hb
        cases c with
        | nil =>
            rcases head_items items with hnil | hcomma
            · rw [List.nil_append, hnil] at hb
              cases hb
            · obtain rfl : 44 = b := Option.some.inj (hcomma.symm.trans hb)
              decide
        | cons x c => exact hhead b hb
      rw [hlead, Nat.add_assoc, show i.blanks.length + (Element.other t hc hs).lead =
        (i.blanks ++ t.takeWhile fun b => b == 32 || b == 9).length from List.length_append.symm]
      exact findNotBlank_of_drop hdrop hblanks hne hfirst

/-- The loop from an element on, with `front` in front of it. -/
def ReadsItems (items : List Item) : Prop :=
  ∀ (n start : Nat) (front : Bytes) (e : Element) (result : List (MediaTypeView × Option Span)), 47 ∉ front →
    (front ++ (e.bytes ++ items.flatMap Item.bytes)).length < n →
    listGo mediaAt n start (front ++ (e.bytes ++ items.flatMap Item.bytes)) result =
      some (outcome result (readFrom start (start + front.length) e items))

/-- The loop behind an element without a slash. -/
def ReadsAfter (items : List Item) : Prop :=
  ∀ (n start : Nat) (front : Bytes) (result : List (MediaTypeView × Option Span)), 47 ∉ front →
    (front ++ items.flatMap Item.bytes).length < n →
    listGo mediaAt n start (front ++ items.flatMap Item.bytes) result =
      some (outcome result (readAfter start (start + front.length) items))

theorem readsAfter_nil : ReadsAfter [] := by
  intro n start front result hfront hn
  obtain ⟨m, rfl⟩ : ∃ m, n = m + 1 := ⟨n - 1, by omega⟩
  rw [List.flatMap_nil, List.append_nil, listGo, mediaAt_none start hfront]
  simp [readAfter, outcome]

theorem readsAfter_cons (i : Item) {items : List Item} (h : ReadsItems items) : ReadsAfter (i :: items) := by
  intro n start front result hfront hn
  have htext : front ++ (i :: items).flatMap Item.bytes =
      (front ++ 44 :: i.blanks) ++ (i.element.bytes ++ items.flatMap Item.bytes) := by
    simp [Item.bytes]
  have hno : 47 ∉ front ++ 44 :: i.blanks := by
    have hblanks : 47 ∉ i.blanks := not_blanks_of_mem i.blanks_ok (by decide) (by decide)
    simp [hfront, hblanks]
  have hpos : start + (front ++ 44 :: i.blanks).length = start + front.length + 1 + i.blanks.length := by
    rw [List.length_append, List.length_cons]
    omega
  rw [htext] at hn ⊢
  rw [h n start _ i.element result hno hn, hpos, readAfter]

/-- The loop on a media range that is the last of the value. -/
theorem listGo_range_last {n start : Nat} {front : Bytes} (r : MediaRange)
    (result : List (MediaTypeView × Option Span)) (hfront : 47 ∉ front) (hn : 0 < n) :
    listGo mediaAt n start (front ++ r.bytes) result =
      some (.ok (result ++ [r.viewFrom Param.takenSpan start (start + front.length)])) := by
  obtain ⟨m, rfl⟩ : ∃ m, n = m + 1 := ⟨n - 1, by omega⟩
  have hslash : 47 ∉ front ++ r.mainType := by
    simp [hfront, r.mainType_ok.not_mem separator_slash]
  have hread := mediaAt_eq start hslash r.not_mem_comma (Or.inl rfl)
  rw [List.append_nil, mediaOf_range, List.append_assoc] at hread
  rw [listGo, MediaRange.bytes, hread]
  simp only [if_true]

/-- One turn of the loop: a media range with more behind its comma. -/
theorem listGo_range {n start : Nat} {front : Bytes} (r : MediaRange) (i : Item) (items : List Item)
    (result : List (MediaTypeView × Option Span)) (hfront : 47 ∉ front) :
    listGo mediaAt (n + 1) start (front ++ (r.bytes ++ (i :: items).flatMap Item.bytes)) result =
      if OnlyBlank i items then some (.error .outOfRange)
      else
        listGo mediaAt n (start + front.length + r.bytes.length + 1 + i.blanks.length + i.element.lead)
          (i.element.bytes.drop i.element.lead ++ items.flatMap Item.bytes)
          (result ++ [r.viewFrom Param.takenSpan start (start + front.length)]) := by
  have hslash : 47 ∉ front ++ r.mainType := by
    simp [hfront, r.mainType_ok.not_mem separator_slash]
  have hread : mediaAt start (front ++ r.mainType ++ 47 :: (r.rest ++ (i :: items).flatMap Item.bytes)) = _ :=
    mediaAt_eq start hslash r.not_mem_comma (Or.inr rfl)
  rw [mediaOf_range] at hread
  have htext : front ++ (r.bytes ++ (i :: items).flatMap Item.bytes) =
      front ++ r.mainType ++ 47 :: (r.rest ++ (i :: items).flatMap Item.bytes) := by
    simp [MediaRange.bytes]
  have hcomma : (front ++ r.mainType ++ 47 :: r.rest).length = (front ++ r.bytes).length := by
    simp [MediaRange.bytes]
  have hne : (front ++ r.bytes).length ≠ (front ++ (r.bytes ++ (i :: items).flatMap Item.bytes)).length := by
    simp [Item.bytes]
  have hdrop : (front ++ (r.bytes ++ (i :: items).flatMap Item.bytes)).drop ((front ++ r.bytes).length + 1) =
      i.blanks ++ (i.element.bytes ++ items.flatMap Item.bytes) := by
    rw [← List.append_assoc, ← List.drop_drop, List.drop_left, List.drop_one, List.flatMap_cons, Item.bytes,
      List.cons_append, List.tail_cons, List.append_assoc]
  rw [listGo]
  rw [← htext, hcomma] at hread
  simp only [hread, if_neg hne]
  by_cases hblank : OnlyBlank i items
  · have hnone : findNotBlank (front ++ (r.bytes ++ (i :: items).flatMap Item.bytes)) ((front ++ r.bytes).length + 1) =
        none := by
      rw [findNotBlank_eq_none, hdrop, List.isEmpty_iff.mp hblank.1, List.flatMap_nil, List.append_nil]
      intro b hb
      rcases List.mem_append.mp hb with hb | hb
      · exact i.blanks_ok b hb
      · exact hblank.2 b hb
    rw [if_pos hblank, hnone]
  · obtain ⟨hfind, hleft⟩ := left_behind_comma i items hdrop hblank
    rw [if_neg hblank, hfind]
    simp only [hleft]
    congr 1
    rw [List.length_append]
    omega

/-- An element without a slash goes to what is carried along. -/
theorem readsItems_other {items : List Item} (h : ReadsAfter items) (t : Bytes) (hc : 44 ∉ t) (hs : 47 ∉ t) (n start : Nat)
    (front : Bytes) (result : List (MediaTypeView × Option Span)) (hfront : 47 ∉ front)
    (hn : (front ++ (t ++ items.flatMap Item.bytes)).length < n) :
    listGo mediaAt n start (front ++ (t ++ items.flatMap Item.bytes)) result =
      some (outcome result (readFrom start (start + front.length) (.other t hc hs) items)) := by
  have hno : 47 ∉ front ++ t := by simp [hfront, hs]
  rw [← List.append_assoc] at hn ⊢
  rw [h n start (front ++ t) result hno hn, readFrom_other, List.length_append, Nat.add_assoc]

theorem readsItems_nil : ReadsItems [] := by
  intro n start front e result hfront hn
  cases e with
  | other t hc hs => exact readsItems_other readsAfter_nil t hc hs n start front result hfront hn
  | range r =>
      rw [List.flatMap_nil, List.append_nil] at hn ⊢
      exact listGo_range_last r result hfront (by omega)

theorem outcome_cons (result : List (MediaTypeView × Option Span)) (e : MediaTypeView × Option Span)
    (views : Option (List (MediaTypeView × Option Span))) :
    outcome (result ++ [e]) views = outcome result (views.map (e :: ·)) := by
  cases views with
  | none => rfl
  | some views => simp [outcome]

/-- Behind the comma of a media range the loop starts afresh. -/
theorem readsItems_cons (i : Item) {items : List Item} (hitems : ReadsItems items) (hafter : ReadsAfter items) :
    ReadsItems (i :: items) := by
  intro n start front e result hfront hn
  cases e with
  | other t hc hs => exact readsItems_other (readsAfter_cons i hitems) t hc hs n start front result hfront hn
  | range r =>
      obtain ⟨m, rfl⟩ : ∃ m, n = m + 1 := ⟨n - 1, by omega⟩
      rw [Element.bytes, listGo_range r i items result hfront, readFrom]
      by_cases hblank : OnlyBlank i items
      · rw [if_pos hblank, if_pos hblank]
        rfl
      · rw [if_neg hblank, if_neg hblank, ← outcome_cons]
        have hlen : (i.element.bytes ++ items.flatMap Item.bytes).length < m := by
          simp only [List.flatMap_cons, Item.bytes, List.length_append, List.length_cons] at hn ⊢
          omega
        cases he : i.element with
        | range r' =>
            rw [he] at hlen
            exact hitems m _ [] (.range r') _ (by simp) hlen
        | other t hc hs =>
            rw [he] at hlen
            have hlead : (Element.other t hc hs).lead ≤ t.length := by
              exact (List.takeWhile_prefix _).length_le
            have hno : 47 ∉ t.drop (Element.other t hc hs).lead := fun hmem => hs (List.mem_of_mem_drop hmem)
            have hshort : (t.drop (Element.other t hc hs).lead ++ items.flatMap Item.bytes).length < m := by
              simp only [Element.bytes, List.length_append, List.length_drop] at hlen ⊢
              omega
            have h := hafter m
              (start + front.length + r.bytes.length + 1 + i.blanks.length + (Element.other t hc hs).lead) _
              (result ++ [r.viewFrom Param.takenSpan start (start + front.length)]) hno hshort
            rw [readFrom_other]
            rw [List.length_drop, Nat.add_assoc _ (Element.lead _), Nat.add_sub_cancel' hlead] at h
            exact h

/-- **The loop on a list** reads what `readFrom` says. -/
theorem readsItems (items : List Item) : ReadsItems items ∧ ReadsAfter items := by
  induction items with
  | nil => exact ⟨readsItems_nil, readsAfter_nil⟩
  | cons i items ih => exact ⟨readsItems_cons i ih.1 ih.2, readsAfter_cons i ih.1⟩

theorem parseAccept_list (l : AcceptList) :
    parseAccept l.bytes = some (outcome [] (readFrom 0 0 l.first l.items)) := by
  have h := (readsItems l.items).1 (l.bytes.length + 1) 0 [] l.first [] (by simp) (Nat.lt_succ_self _)
  exact h

/-! ## §5 — when each element is read on its own. -/

/-- No value that is returned is in quotes. -/
structure MediaRange.Unquoted (r : MediaRange) : Prop where
  parameters : ∀ p ∈ r.params, p.name ≠ text "q" → p.quoted = false
  weight : ∀ p ∈ (r.params.filter fun p => p.name = text "q").getLast?, p.quoted = false

/-- The last element is blank and stands behind a media range. -/
def EndsBlank (es : List Element) : Prop :=
  ∃ front r t hc hs, es = front ++ [.range r, .other t hc hs] ∧ Blanks t

/-- The media ranges come first, without quotes, and no single blank element ends the list. -/
structure KeptApart (es : List Element) : Prop where
  order : es.Pairwise fun a b => b.IsRange → a.IsRange
  unquoted : ∀ r, Element.range r ∈ es → r.Unquoted
  last : ¬ EndsBlank es

theorem map_snd_placed (pos : Nat) (ps : List Param) : (placed pos ps).map Prod.snd = ps := by
  induction ps generalizing pos with
  | nil => rfl
  | cons p ps ih => rw [placed, List.map_cons, ih]

/-- The last `q` of placed parameters. -/
theorem last_q_placed (pos : Nat) (ps : List Param) :
    (ps.filter fun p => p.name = text "q").getLast? =
      (((placed pos ps).filter fun x => x.2.name = text "q").getLast?).map Prod.snd := by
  conv_lhs => rw [← map_snd_placed pos ps]
  rw [List.filter_map, List.getLast?_map]
  rfl

theorem takenSpan_eq_iff (pos : Nat) (p : Param) : p.takenSpan pos = p.valueSpan pos ↔ p.quoted = false := by
  unfold Param.takenSpan Param.quotes
  constructor
  · intro h
    have h2 := congrArg Prod.snd h
    simp only at h2
    cases hq : p.quoted with
    | false => rfl
    | true =>
        rw [hq, if_pos rfl, List.length_singleton] at h2
        omega
  · intro h
    rw [h]
    rfl

theorem readParams_eq_iff (pos : Nat) (ps : List Param) :
    readParams Param.takenSpan (placed pos ps) = readParams Param.valueSpan (placed pos ps) ↔
      (∀ p ∈ ps, p.name ≠ text "q" → p.quoted = false) ∧
        ∀ p ∈ (ps.filter fun p => p.name = text "q").getLast?, p.quoted = false := by
  have hparams : (∀ p ∈ ps, p.name ≠ text "q" → p.quoted = false) ↔
      ∀ x ∈ placed pos ps, x.2.name ≠ text "q" → x.2.quoted = false := by
    conv_lhs => rw [← map_snd_placed pos ps]
    simp only [List.forall_mem_map]
  rw [readParams, readParams, Prod.mk.injEq, List.map_inj_left, last_q_placed pos, hparams]
  apply and_congr
  · constructor
    · intro h x hx hname
      have := h x (List.mem_filter.mpr ⟨hx, by simpa using hname⟩)
      exact (takenSpan_eq_iff x.1 x.2).mp (Prod.mk.inj this).2
    · intro h x hx
      obtain ⟨hx, hname⟩ := List.mem_filter.mp hx
      rw [(takenSpan_eq_iff x.1 x.2).mpr (h x hx (by simpa using hname))]
  · cases ((placed pos ps).filter fun x => x.2.name = text "q").getLast? with
    | none => simp
    | some x =>
        simp only [Option.map_some, Option.some.injEq, Option.mem_def, forall_eq']
        exact takenSpan_eq_iff x.1 x.2

/-- **One media range** is read as itself when the function starts at its type, and without quotes. -/
theorem viewFrom_eq_iff (start pos : Nat) (r : MediaRange) :
    r.viewFrom Param.takenSpan start pos = r.view pos ↔ start = pos ∧ r.Unquoted := by
  have hparams := readParams_eq_iff (r.paramsAt pos) r.params
  rw [Prod.ext_iff] at hparams
  unfold MediaRange.view MediaRange.viewFrom
  simp only [Prod.mk.injEq, MediaTypeView.mk.injEq]
  constructor
  · rintro ⟨⟨rfl, -, -, h1⟩, h2⟩
    obtain ⟨hp, hw⟩ := hparams.mp ⟨h1, h2⟩
    exact ⟨rfl, hp, hw⟩
  · rintro ⟨rfl, hp, hw⟩
    obtain ⟨h1, h2⟩ := hparams.mpr ⟨hp, hw⟩
    exact ⟨⟨rfl, trivial, trivial, h1⟩, h2⟩

theorem length_item (i : Item) : i.bytes.length = 1 + i.blanks.length + i.element.bytes.length := by
  rw [Item.bytes, List.length_cons, List.length_append]
  omega

/-- **Behind an element without a slash** no media range is read as itself. -/
theorem readFrom_stale (items : List Item) (e : Element) {start pos : Nat} (hlt : start < pos) :
    readFrom start pos e items = some (e.views pos ++ itemViews (pos + e.bytes.length) items) ↔
      ∀ x ∈ e :: items.map Item.element, ¬ x.IsRange := by
  induction items generalizing e pos with
  | nil =>
      cases e with
      | other t hc hs => simp [readFrom, Element.views, itemViews, Element.IsRange]
      | range r =>
          have hne : r.viewFrom Param.takenSpan start pos ≠ r.view pos := by
            rw [Ne, viewFrom_eq_iff]
            rintro ⟨rfl, -⟩
            exact lt_irrefl _ hlt
          simp [readFrom, Element.views, itemViews, Element.IsRange, hne]
  | cons i items ih =>
      cases e with
      | other t hc hs =>
          have hstale : start < pos + t.length + 1 + i.blanks.length := by omega
          have h := ih i.element hstale
          have hpos : pos + t.length + 1 + i.blanks.length + i.element.bytes.length =
              pos + t.length + i.bytes.length := by
            rw [length_item]
            omega
          rw [hpos] at h
          rw [readFrom, Element.views, List.nil_append, Element.bytes, itemViews, h]
          simp [Element.IsRange]
      | range r =>
          have hne : r.viewFrom Param.takenSpan start pos ≠ r.view pos := by
            rw [Ne, viewFrom_eq_iff]
            rintro ⟨rfl, -⟩
            exact lt_irrefl _ hlt
          constructor
          · intro h
            rw [readFrom] at h
            split at h
            · cases h
            · obtain ⟨views, -, hviews⟩ := Option.map_eq_some_iff.mp h
              exact absurd (List.cons.inj hviews).1 hne
          · intro h
            exact absurd trivial (h (.range r) List.mem_cons_self)

theorem endsBlank_cons (e : Element) (es : List Element) :
    EndsBlank (e :: es) ↔ (∃ r t hc hs, e = .range r ∧ es = [.other t hc hs] ∧ Blanks t) ∨ EndsBlank es := by
  constructor
  · rintro ⟨front, r, t, hc, hs, h, hblank⟩
    cases front with
    | nil =>
        obtain ⟨rfl, rfl⟩ := List.cons.inj h
        exact Or.inl ⟨r, t, hc, hs, rfl, rfl, hblank⟩
    | cons x front =>
        obtain ⟨-, rfl⟩ := List.cons.inj h
        exact Or.inr ⟨front, r, t, hc, hs, rfl, hblank⟩
  · rintro (⟨r, t, hc, hs, rfl, rfl, hblank⟩ | ⟨front, r, t, hc, hs, rfl, hblank⟩)
    · exact ⟨[], r, t, hc, hs, rfl, hblank⟩
    · exact ⟨e :: front, r, t, hc, hs, rfl, hblank⟩

theorem not_endsBlank_nil : ¬ EndsBlank [] := by
  rintro ⟨front, r, t, hc, hs, h, -⟩
  simp at h

/-- Behind an element without a slash there is to be no media range. -/
theorem keptApart_other (t : Bytes) (hc : 44 ∉ t) (hs : 47 ∉ t) (es : List Element) :
    KeptApart (.other t hc hs :: es) ↔ ∀ x ∈ es, ¬ x.IsRange := by
  constructor
  · intro h x hx hrange
    exact (List.pairwise_cons.mp h.order).1 x hx hrange
  · intro h
    constructor
    · rw [List.pairwise_cons]
      refine ⟨fun x hx hrange => absurd hrange (h x hx), ?_⟩
      exact List.pairwise_of_forall_mem_list fun a ha b hb hrange => absurd hrange (h b hb)
    · intro r hr
      rcases List.mem_cons.mp hr with hr | hr
      · cases hr
      · exact absurd trivial (h _ hr)
    · rw [endsBlank_cons]
      rintro (⟨r, -, -, -, hr, -⟩ | ⟨front, r, t, hc, hs, rfl, -⟩)
      · cases hr
      · exact h (.range r) (by simp) trivial

/-- A media range in front of other elements. -/
theorem keptApart_range (r : MediaRange) (es : List Element) :
    KeptApart (.range r :: es) ↔
      r.Unquoted ∧ KeptApart es ∧ ¬ ∃ t hc hs, es = [.other t hc hs] ∧ Blanks t := by
  constructor
  · intro h
    refine ⟨h.unquoted r List.mem_cons_self, ?_, ?_⟩
    · constructor
      · exact (List.pairwise_cons.mp h.order).2
      · exact fun r' hr' => h.unquoted r' (List.mem_cons_of_mem _ hr')
      · exact fun hends => h.last ((endsBlank_cons _ _).mpr (Or.inr hends))
    · rintro ⟨t, hc, hs, he, hblank⟩
      exact h.last ((endsBlank_cons _ _).mpr (Or.inl ⟨r, t, hc, hs, rfl, he, hblank⟩))
  · rintro ⟨hr, h, hblank⟩
    constructor
    · rw [List.pairwise_cons]
      exact ⟨fun _ _ _ => trivial, h.order⟩
    · intro r' hr'
      rcases List.mem_cons.mp hr' with he | hr'
      · cases he
        exact hr
      · exact h.unquoted r' hr'
    · rw [endsBlank_cons]
      rintro (⟨-, t, hc, hs, -, he, hb⟩ | hends)
      · exact hblank ⟨t, hc, hs, he, hb⟩
      · exact h.last hends

/-- The blank rest of a list is one blank element. -/
theorem onlyBlank_iff (i : Item) (items : List Item) :
    OnlyBlank i items ↔ ∃ t hc hs, i.element :: items.map Item.element = [.other t hc hs] ∧ Blanks t := by
  constructor
  · rintro ⟨hitems, hblank⟩
    rw [List.isEmpty_iff.mp hitems]
    cases he : i.element with
    | range r =>
        rw [he] at hblank
        have hmem : 47 ∈ (Element.range r).bytes := by simp [Element.bytes, MediaRange.bytes]
        exact absurd hmem (not_blanks_of_mem hblank (by decide) (by decide))
    | other t hc hs =>
        rw [he] at hblank
        exact ⟨t, hc, hs, rfl, hblank⟩
  · rintro ⟨t, hc, hs, he, hblank⟩
    obtain ⟨he, hitems⟩ := List.cons.inj he
    constructor
    · rw [List.map_eq_nil_iff] at hitems
      rw [hitems]
      rfl
    · rw [he]
      exact hblank

theorem Element.lead_le (e : Element) : e.lead ≤ e.bytes.length := by
  cases e with
  | range r => exact Nat.zero_le _
  | other t hc hs => exact (List.takeWhile_prefix _).length_le

/-- **From an element on that the function starts at**, the list is read as it should be when it is kept apart. -/
theorem readFrom_fresh (items : List Item) (e : Element) {start pos : Nat} (hle : start ≤ pos + e.bytes.length)
    (hrange : e.IsRange → start = pos) :
    readFrom start pos e items = some (e.views pos ++ itemViews (pos + e.bytes.length) items) ↔
      KeptApart (e :: items.map Item.element) := by
  induction items generalizing e start pos with
  | nil =>
      cases e with
      | other t hc hs =>
          rw [List.map_nil, keptApart_other]
          simp [readFrom, Element.views, itemViews]
      | range r =>
          obtain rfl := hrange trivial
          have hnil : KeptApart [] := ⟨List.Pairwise.nil, by simp, not_endsBlank_nil⟩
          rw [List.map_nil, keptApart_range, readFrom, Element.views, itemViews, List.append_nil, Option.some.injEq,
            List.cons.injEq, viewFrom_eq_iff]
          simp [hnil]
  | cons i items ih =>
      have hpos : pos + e.bytes.length + 1 + i.blanks.length + i.element.bytes.length =
          pos + e.bytes.length + i.bytes.length := by
        rw [length_item]
        omega
      cases e with
      | other t hc hs =>
          have hstale : start < pos + t.length + 1 + i.blanks.length := by
            have : start ≤ pos + t.length := hle
            omega
          have h := readFrom_stale items i.element hstale
          rw [show pos + t.length + 1 + i.blanks.length + i.element.bytes.length = pos + t.length + i.bytes.length from
            hpos] at h
          rw [keptApart_other, List.map_cons, ← h]
          rfl
      | range r =>
          obtain rfl := hrange trivial
          have hlead : start + r.bytes.length + 1 + i.blanks.length + i.element.lead ≤
              start + r.bytes.length + 1 + i.blanks.length + i.element.bytes.length :=
            Nat.add_le_add_left i.element.lead_le _
          have h := ih i.element hlead (by cases i.element <;> simp [Element.IsRange, Element.lead])
          rw [show start + r.bytes.length + 1 + i.blanks.length + i.element.bytes.length =
            start + r.bytes.length + i.bytes.length from hpos] at h
          rw [keptApart_range, List.map_cons, ← onlyBlank_iff, ← h, readFrom]
          by_cases hblank : OnlyBlank i items
          · rw [if_pos hblank]
            simp [hblank]
          · have hview : r.viewFrom Param.takenSpan start start = r.view start ↔ r.Unquoted := by
              rw [viewFrom_eq_iff]
              exact and_iff_right rfl
            rw [if_neg hblank, ← hview, Option.map_eq_some_iff]
            constructor
            · rintro ⟨views, hviews, he⟩
              obtain ⟨hr, rfl⟩ := List.cons.inj he
              exact ⟨hr, hviews, hblank⟩
            · rintro ⟨hr, hviews, -⟩
              exact ⟨_, hviews, by rw [hr]; rfl⟩

/-! ## §6 — the texts. -/

/-- What an entry of the result shows: type, subtype, parameters and the weight, empty when there is none. -/
structure Shown where
  mainType : Bytes
  subType : Bytes
  parameters : List (Bytes × Bytes)
  weight : Bytes
deriving DecidableEq

def shown (value : Bytes) (e : MediaTypeView × Option Span) : Shown where
  mainType := fieldAt value e.1.mainType
  subType := fieldAt value e.1.subType
  parameters := e.1.parameters.map fun p => (fieldAt value p.1, fieldAt value p.2)
  weight := (e.2.map (fieldAt value)).getD []

/-- What a media range stands for: the parameters other than `q`, and the value of the last `q`. -/
def MediaRange.shown (r : MediaRange) : Shown where
  mainType := r.mainType
  subType := r.subType
  parameters := (r.params.filter fun p => p.name ≠ text "q").map fun p => (p.name, p.value)
  weight := (((r.params.filter fun p => p.name = text "q").getLast?).map Param.value).getD []

def Element.shown : Element → List Shown
  | range r => [r.shown]
  | other _ _ _ => []

/-- The spans of placed parameters show their texts. -/
theorem shown_placed (value front : Bytes) (ps : List Param) (post : Bytes)
    (h : value = front ++ (ps.flatMap Param.bytes ++ post)) :
    ∀ x ∈ placed front.length ps, fieldAt value (x.2.nameSpan x.1) = x.2.name ∧
      fieldAt value (x.2.valueSpan x.1) = x.2.value := by
  induction ps generalizing front with
  | nil => simp [placed]
  | cons p ps ih =>
      intro x hx
      rw [placed, List.mem_cons] at hx
      rcases hx with rfl | hx
      · constructor
        · have hcut : value = (front ++ [59]) ++
              (p.name ++ (61 :: (p.quotes ++ (p.value ++ p.quotes)) ++ (ps.flatMap Param.bytes ++ post))) := by
            rw [h]
            simp [Param.bytes]
          rw [hcut, Param.nameSpan]
          exact fieldAt_middle (front ++ [59]) p.name _ (by simp)
        · have hcut : value = (front ++ 59 :: (p.name ++ 61 :: p.quotes)) ++
              (p.value ++ (p.quotes ++ (ps.flatMap Param.bytes ++ post))) := by
            rw [h]
            simp [Param.bytes]
          rw [hcut, Param.valueSpan]
          exact fieldAt_middle (front ++ 59 :: (p.name ++ 61 :: p.quotes)) p.value _ (by simp; omega)
      · apply ih (front ++ p.bytes)
        · rw [h]
          simp
        · rwa [List.length_append]

/-- **The view of a media range** shows it. -/
theorem shown_view {value front post : Bytes} (r : MediaRange) (h : value = front ++ (r.bytes ++ post)) :
    shown value (r.view front.length) = r.shown := by
  have hparamsAt : r.paramsAt front.length = (front ++ (r.mainType ++ 47 :: r.subType)).length := by
    simp only [MediaRange.paramsAt, List.length_append, List.length_cons]
    omega
  have hplaced := shown_placed value (front ++ (r.mainType ++ 47 :: r.subType)) r.params post
    (by rw [h]; simp [MediaRange.bytes, MediaRange.rest])
  rw [← hparamsAt] at hplaced
  have hmain : fieldAt value (front.length, front.length + r.mainType.length) = r.mainType := by
    rw [h, MediaRange.bytes, List.append_assoc]
    exact fieldAt_middle front r.mainType _ rfl
  have hsub : fieldAt value (front.length + r.mainType.length + 1, r.paramsAt front.length) = r.subType := by
    have hcut : value = (front ++ (r.mainType ++ [47])) ++ (r.subType ++ (r.params.flatMap Param.bytes ++ post)) := by
      rw [h]
      simp [MediaRange.bytes, MediaRange.rest]
    rw [hcut, MediaRange.paramsAt]
    exact fieldAt_middle (front ++ (r.mainType ++ [47])) r.subType _ (by simp; omega)
  have hparams : ((readParams Param.valueSpan (placed (r.paramsAt front.length) r.params)).1).map
      (fun p => (fieldAt value p.1, fieldAt value p.2)) = r.shown.parameters := by
    unfold MediaRange.shown
    conv_rhs => rw [← map_snd_placed (r.paramsAt front.length) r.params]
    rw [readParams, List.filter_map, List.map_map, List.map_map]
    apply List.map_congr_left
    intro x hx
    obtain ⟨h1, h2⟩ := hplaced x (List.mem_of_mem_filter hx)
    simp [h1, h2]
  have hweight : ((readParams Param.valueSpan (placed (r.paramsAt front.length) r.params)).2.map
      (fieldAt value)).getD [] = r.shown.weight := by
    simp only [MediaRange.shown, readParams]
    rw [last_q_placed (r.paramsAt front.length), Option.map_map, Option.map_map]
    congr 1
    apply Option.map_congr
    intro x hx
    exact (hplaced x (List.mem_of_mem_filter (List.mem_of_getLast? hx))).2
  unfold shown
  rw [Shown.mk.injEq]
  exact ⟨hmain, hsub, hparams, hweight⟩

theorem shown_element {value front post : Bytes} (e : Element) (h : value = front ++ (e.bytes ++ post)) :
    (e.views front.length).map (shown value) = e.shown := by
  cases e with
  | range r =>
      rw [Element.views, List.map_singleton, shown_view r h]
      rfl
  | other t hc hs => rfl

theorem shown_items {value : Bytes} (items : List Item) (front : Bytes)
    (h : value = front ++ items.flatMap Item.bytes) :
    (itemViews front.length items).map (shown value) = (items.map Item.element).flatMap Element.shown := by
  induction items generalizing front with
  | nil => rfl
  | cons i items ih =>
      have helem : value = (front ++ 44 :: i.blanks) ++ (i.element.bytes ++ items.flatMap Item.bytes) := by
        rw [h]
        simp [Item.bytes]
      have hpos : front.length + 1 + i.blanks.length = (front ++ 44 :: i.blanks).length := by
        rw [List.length_append, List.length_cons]
        omega
      have hrest := ih (front ++ i.bytes) (by rw [h]; simp)
      rw [List.length_append] at hrest
      rw [itemViews, List.map_append, hpos, shown_element i.element helem, hrest]
      rfl

/-- **The views that are to be read** show the media ranges of the list, in order. -/
theorem shown_views (l : AcceptList) : l.views.map (shown l.bytes) = l.elements.flatMap Element.shown := by
  have hfirst : l.bytes = [] ++ (l.first.bytes ++ l.items.flatMap Item.bytes) := rfl
  have hitems := shown_items l.items l.first.bytes (show l.bytes = _ from rfl)
  rw [AcceptList.views, List.map_append, show (0 : Nat) = ([] : Bytes).length from rfl, shown_element l.first hfirst,
    hitems]
  rfl

/-- **Each element is read on its own**: the function returns the views of the media ranges at their places, and
they show type, subtype, parameters and weight. -/
structure ReadsEachElement (l : AcceptList) : Prop where
  views : parseAccept l.bytes = some (.ok l.views)
  shown : l.views.map (shown l.bytes) = l.elements.flatMap Element.shown

/-- **`parse_accept` reads each element on its own** exactly when the media ranges come first, no value that is
returned is in quotes, and no single blank element ends the list behind a media range. -/
theorem reads_each_element_iff (l : AcceptList) : ReadsEachElement l ↔ KeptApart l.elements := by
  have hfresh : readFrom 0 0 l.first l.items = some l.views ↔ KeptApart l.elements := by
    have h := readFrom_fresh l.items l.first (Nat.zero_le (0 + l.first.bytes.length)) fun _ => rfl
    rwa [Nat.zero_add] at h
  rw [← hfresh]
  constructor
  · intro h
    have hviews := h.views
    rw [parseAccept_list] at hviews
    cases hread : readFrom 0 0 l.first l.items with
    | none =>
        rw [hread] at hviews
        cases hviews
    | some views =>
        rw [hread] at hviews
        have hok := Option.some.inj hviews
        rw [outcome, List.nil_append, Except.ok.injEq] at hok
        rw [hok]
  · intro h
    constructor
    · rw [parseAccept_list, h]
      rfl
    · exact shown_views l

/-- `text/plain;charset="utf-8"` -/
def quotedList : AcceptList where
  first := .range {
    mainType := text "text"
    subType := text "plain"
    params := [⟨text "charset", text "utf-8", true, by decide +kernel, by decide +kernel⟩]
    mainType_ok := by decide +kernel
    subType_ok := by decide +kernel }
  items := []

/-- `gzip, text/html` -/
def leakingList : AcceptList where
  first := .other (text "gzip") (by decide) (by decide)
  items := [{
    blanks := text " "
    element := .range ⟨text "text", text "html", [], by decide +kernel, by decide +kernel⟩
    blanks_ok := by decide }]

/-- **The closing quote is read with the value**, and an element without a slash with the next type. -/
theorem quote_and_element_leak :
    ¬ ReadsEachElement quotedList ∧ ¬ ReadsEachElement leakingList ∧
      (parseAccept quotedList.bytes = some (.ok [(⟨0, 4, 10, [((11, 18), (20, 26))]⟩, none)])) ∧
      fieldAt quotedList.bytes (20, 26) = text "utf-8" ++ [34] ∧
      (parseAccept leakingList.bytes = some (.ok [(⟨0, 10, 15, []⟩, none)])) ∧
      fieldAt leakingList.bytes (0, 10) = text "gzip, text" := by
  refine ⟨?_, ?_, by decide, by decide, by decide, by decide⟩
  · intro h
    exact absurd h.views (by decide)
  · intro h
    exact absurd h.views (by decide)

end NetCpp.Http
