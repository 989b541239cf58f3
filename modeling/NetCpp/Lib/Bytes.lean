/-
# NetCpp.Lib.Bytes — byte strings and the searches of `std::string_view`.
-/
import Mathlib

namespace NetCpp

abbrev Bytes := List UInt8

namespace Lib

/-- `s.find(c, pos)`; `none` is `npos`. -/
def findByte (s : Bytes) (c : UInt8) (pos : Nat) : Option Nat :=
  ((s.drop pos).findIdx? (· == c)).map (pos + ·)

/-- `s.substr(pos, n)`. -/
def substr (s : Bytes) (pos n : Nat) : Bytes := (s.drop pos).take n

theorem findByte_of_not_mem {s : Bytes} {c : UInt8} {pos : Nat} (h : c ∉ s.drop pos) :
    findByte s c pos = none := by
  have : (s.drop pos).findIdx? (· == c) = none := by
    rw [List.findIdx?_eq_none_iff]
    intro x hx
    simpa using fun he : x = c => h (he ▸ hx)
  rw [findByte, this]; rfl

/-- The first `c` at or after `pos` ends a run `t` without it. -/
theorem findByte_of_append (pre post : Bytes) {t : Bytes} {c : UInt8} (h : c ∉ t) :
    findByte (pre ++ t ++ c :: post) c pre.length = some (pre.length + t.length) := by
  have : (t ++ c :: post).findIdx? (· == c) = some t.length := by
    rw [List.findIdx?_append, List.findIdx?_eq_none_iff.mpr]
    · simp [List.findIdx?_cons]
    · intro x hx
      simpa using fun he : x = c => h (he ▸ hx)
  rw [findByte, List.append_assoc, List.drop_left, this]
  rfl

/-- A string without `c`, or one cut at its first. -/
theorem cut_at (c : UInt8) (s : Bytes) : c ∉ s ∨ ∃ t u, c ∉ t ∧ s = t ++ c :: u := by
  by_cases h : c ∈ s
  · obtain ⟨t, u, rfl, ht⟩ := List.eq_append_cons_of_mem h
    exact Or.inr ⟨t, u, ht, rfl⟩
  · exact Or.inl h

/-- The first place where `needle` stands. -/
def findTextGo (needle : Bytes) : Bytes → Option Nat
  | [] => if needle = [] then some 0 else none
  | b :: s => if needle.isPrefixOf (b :: s) then some 0 else (findTextGo needle s).map (· + 1)

/-- `s.find(needle, pos)`. -/
def findText (s needle : Bytes) (pos : Nat) : Option Nat := (findTextGo needle (s.drop pos)).map (pos + ·)

/-- `s.find_first_not_of(c, pos)`. -/
def findNot (s : Bytes) (c : UInt8) (pos : Nat) : Option Nat :=
  ((s.drop pos).findIdx? (· != c)).map (pos + ·)

def CRLF : Bytes := [13, 10]

theorem findTextGo_of_not_infix {s : Bytes} (h : ¬ CRLF <:+: s) : findTextGo CRLF s = none := by
  induction s with
  | nil => rfl
  | cons b s ih =>
      rw [findTextGo, if_neg, ih fun hs => h (hs.trans (List.infix_cons (List.infix_refl s)))]
      · rfl
      · intro hp
        exact h (List.isPrefixOf_iff_prefix.mp hp).isInfix

/-- **A line ends at its own `CRLF`**: none is found earlier, also not across its last byte. -/
theorem findTextGo_line {l : Bytes} (post : Bytes) (h : ¬ CRLF <:+: l) :
    findTextGo CRLF (l ++ CRLF ++ post) = some l.length := by
  induction l with
  | nil => simp [findTextGo, CRLF]
  | cons b l ih =>
      have hno : ¬ CRLF.isPrefixOf (b :: (l ++ CRLF ++ post)) = true := by
        intro hp
        obtain ⟨t, ht⟩ := List.isPrefixOf_iff_prefix.mp hp
        cases l with
        | nil => simp [CRLF] at ht
        | cons c l =>
            simp only [CRLF, List.cons_append, List.nil_append, List.cons.injEq] at ht
            obtain ⟨rfl, rfl, -⟩ := ht
            exact h ⟨[], l, rfl⟩
      rw [List.cons_append, List.cons_append, findTextGo, if_neg hno,
        ih fun hs => h (hs.trans (List.infix_cons (List.infix_refl l)))]
      rfl

/-- A proper beginning of a line has no `CRLF`. -/
theorem not_infix_of_proper {l w : Bytes} (h : ¬ CRLF <:+: l) (hw : w <+: l ++ CRLF) (hlt : w.length < l.length + 2) :
    ¬ CRLF <:+: w := by
  intro hin
  have hpre : w <+: l ++ [13] := by
    rw [show l ++ CRLF = l ++ [13] ++ [10] by simp [CRLF]] at hw
    exact List.prefix_of_prefix_length_le hw (List.prefix_append _ _) (by simp; omega)
  obtain ⟨a, c, hac⟩ := hin.trans hpre.isInfix
  rcases List.eq_nil_or_concat c with rfl | ⟨c, x, rfl⟩
  · have := congrArg List.getLast? hac
    simp [CRLF] at this
  · rw [List.concat_eq_append, ← List.append_assoc] at hac
    exact h ⟨a, c, (List.append_inj_left' hac rfl)⟩

/-- No `CRLF` is made by joining, unless the second part begins with the `LF`. -/
theorem not_infix_append {a b : Bytes} (ha : ¬ CRLF <:+: a) (hstart : b.head? ≠ some 10) (hb : ¬ CRLF <:+: b) :
    ¬ CRLF <:+: a ++ b := by
  induction a with
  | nil => exact hb
  | cons x a ih =>
      have ha' : ¬ CRLF <:+: a := fun h => ha (List.infix_cons h)
      rw [List.cons_append, List.infix_cons_iff, not_or]
      refine ⟨?_, ih ha'⟩
      rintro ⟨t, ht⟩
      cases a with
      | nil =>
          cases b with
          | nil => simp [CRLF] at ht
          | cons y b =>
              simp only [CRLF, List.cons_append, List.nil_append, List.cons.injEq] at ht
              exact hstart (by rw [← ht.2.1]; rfl)
      | cons y a =>
          simp only [CRLF, List.cons_append, List.nil_append, List.cons.injEq] at ht
          obtain ⟨rfl, rfl, -⟩ := ht
          exact ha ⟨[], a, rfl⟩

theorem findText_line (pre post : Bytes) {l : Bytes} (h : ¬ CRLF <:+: l) :
    findText (pre ++ (l ++ CRLF ++ post)) CRLF pre.length = some (pre.length + l.length) := by
  rw [findText, List.drop_left, findTextGo_line post h]; rfl

theorem findText_of_not_infix {s : Bytes} {pos : Nat} (h : ¬ CRLF <:+: s.drop pos) : findText s CRLF pos = none := by
  rw [findText, findTextGo_of_not_infix h]; rfl

/-- The first line of a string is where its first `CRLF` is. -/
theorem crlf_unique {l s l' s' : Bytes} (hl : ¬ CRLF <:+: l) (hl' : ¬ CRLF <:+: l')
    (h : l ++ CRLF ++ s = l' ++ CRLF ++ s') : l = l' ∧ s = s' := by
  have hlen : l.length = l'.length := by
    have h1 := findTextGo_line s hl
    rw [h, findTextGo_line s' hl'] at h1
    exact (Option.some.inj h1).symm
  rw [List.append_assoc, List.append_assoc] at h
  obtain ⟨rfl, ht⟩ := List.append_inj h hlen
  exact ⟨rfl, List.append_cancel_left ht⟩

/-- What is in front of a `CRLF` that was found. -/
theorem exists_of_findTextGo {s : Bytes} {i : Nat} (h : findTextGo CRLF s = some i) :
    ∃ l post, s = l ++ CRLF ++ post ∧ ¬ CRLF <:+: l ∧ l.length = i := by
  induction s generalizing i with
  | nil => simp [findTextGo, CRLF] at h
  | cons b s ih =>
      rw [findTextGo] at h
      split at h
      · rename_i hp
        obtain ⟨post, hpost⟩ := List.isPrefixOf_iff_prefix.mp hp
        exact ⟨[], post, hpost.symm, by decide, by simpa using h⟩
      · rename_i hp
        obtain ⟨j, hj, rfl⟩ := Option.map_eq_some_iff.mp h
        obtain ⟨l, post, rfl, hl, hlen⟩ := ih hj
        refine ⟨b :: l, post, rfl, ?_, by simp [hlen]⟩
        rw [List.infix_cons_iff, not_or]
        refine ⟨?_, hl⟩
        intro hpre
        apply hp
        rw [List.isPrefixOf_iff_prefix]
        exact hpre.trans ⟨CRLF ++ post, by simp⟩

theorem exists_of_findText {s : Bytes} {pos i : Nat} (h : findText s CRLF pos = some i) :
    ∃ l post, s.drop pos = l ++ CRLF ++ post ∧ ¬ CRLF <:+: l ∧ pos + l.length = i := by
  obtain ⟨j, hj, rfl⟩ := Option.map_eq_some_iff.mp h
  obtain ⟨l, post, hs, hl, rfl⟩ := exists_of_findTextGo hj
  exact ⟨l, post, hs, hl, rfl⟩

theorem not_infix_of_findText {s : Bytes} {pos : Nat} (h : findText s CRLF pos = none) : ¬ CRLF <:+: s.drop pos := by
  rintro ⟨a, b, hab⟩
  have hgo : findTextGo CRLF (s.drop pos) = none := Option.map_eq_none_iff.mp h
  generalize s.drop pos = t at hab hgo
  induction a generalizing t with
  | nil =>
      subst hab
      simp [findTextGo, CRLF] at hgo
  | cons x a ih =>
      subst hab
      rw [List.cons_append, List.cons_append, findTextGo] at hgo
      split at hgo
      · cases hgo
      · exact ih _ rfl (Option.map_eq_none_iff.mp hgo)

/-- A byte that is not in the line is found behind it. -/
theorem findByte_behind {s l post : Bytes} {c : UInt8} {pos i : Nat} (hs : s.drop pos = l ++ CRLF ++ post) (hl : c ∉ l)
    (hc : c ∉ CRLF) (h : findByte s c pos = some i) : pos + l.length < i := by
  obtain ⟨j, hj, rfl⟩ := Option.map_eq_some_iff.mp h
  have hno : (l ++ CRLF).findIdx? (· == c) = none := by
    rw [List.findIdx?_eq_none_iff]
    intro x hx
    have hxc : x ≠ c := by
      rintro rfl
      exact (List.mem_append.mp hx).elim hl hc
    simpa using hxc
  rw [hs, List.findIdx?_append, hno, Option.none_or] at hj
  obtain ⟨k, -, rfl⟩ := Option.map_eq_some_iff.mp hj
  simp [CRLF]
  omega

/-- The first byte other than `c` behind a run of `c`. -/
theorem findNot_of_append (pre post : Bytes) {t : Bytes} {c b : UInt8} (ht : ∀ x ∈ t, x = c) (hb : b ≠ c) :
    findNot (pre ++ (t ++ b :: post)) c pre.length = some (pre.length + t.length) := by
  have : (t ++ b :: post).findIdx? (· != c) = some t.length := by
    rw [List.findIdx?_append, List.findIdx?_eq_none_iff.mpr]
    · simp [List.findIdx?_cons, hb]
    · intro x hx
      simp [ht x hx]
  rw [findNot, List.drop_left, this]; rfl

/-- Two ways to cut one string: the longer first part begins with the shorter. -/
theorem exists_of_append_eq {w r x y : Bytes} (h : w ++ r = x ++ y) (hle : x.length ≤ w.length) :
    ∃ w', w = x ++ w' ∧ w' ++ r = y := by
  obtain ⟨w', rfl⟩ : x <+: w :=
    List.prefix_of_prefix_length_le ⟨y, h.symm⟩ (List.prefix_append w r) hle
  exact ⟨w', rfl, by simpa using h⟩

theorem prefix_of_append_eq {w r x y : Bytes} (h : w ++ r = x ++ y) (hle : w.length ≤ x.length) : w <+: x := by
  obtain ⟨t, rfl, -⟩ := exists_of_append_eq h.symm hle
  exact ⟨t, rfl⟩

theorem not_crlf_of_not_mem {s : Bytes} (h : 13 ∉ s) : ¬ CRLF <:+: s :=
  fun hin => h (hin.subset (by simp [CRLF]))

/-- A space keeps a `CR` apart from a following `LF`. -/
theorem not_crlf_fields {a b c : Bytes} (ha : ¬ CRLF <:+: a) (hb : ¬ CRLF <:+: b) (hc : ¬ CRLF <:+: c) :
    ¬ CRLF <:+: a ++ 32 :: (b ++ 32 :: c) := by
  have hcons : ∀ s : Bytes, ¬ CRLF <:+: s → ¬ CRLF <:+: 32 :: s := by
    intro s hs
    rw [List.infix_cons_iff]
    rintro (hp | hp)
    · exact absurd hp (by simp [CRLF, List.cons_prefix_cons])
    · exact hs hp
  apply not_infix_append ha (by simp)
  apply hcons
  apply not_infix_append hb (by simp)
  exact hcons _ hc

/-- What the searches in a line of three fields with a space between them find. -/
structure ThreeFields (bytes a b c : Bytes) : Prop where
  stop : findText bytes CRLF 0 = some (a ++ 32 :: (b ++ 32 :: c)).length
  line : substr bytes 0 (a ++ 32 :: (b ++ 32 :: c)).length = a ++ 32 :: (b ++ 32 :: c)
  space1 : findByte (a ++ 32 :: (b ++ 32 :: c)) 32 0 = some a.length
  space2 : findByte (a ++ 32 :: (b ++ 32 :: c)) 32 (a.length + 1) = some (a.length + 1 + b.length)
  first : substr (a ++ 32 :: (b ++ 32 :: c)) 0 a.length = a
  second : substr (a ++ 32 :: (b ++ 32 :: c)) (a.length + 1) b.length = b
  third : (a ++ 32 :: (b ++ 32 :: c)).drop (a.length + 1 + b.length + 1) = c

/-- **The first two fields end at their spaces**, the third at the end of the line. -/
theorem threeFields {bytes a b c post : Bytes} (ha : 32 ∉ a) (hb : 32 ∉ b)
    (hcrlf : ¬ CRLF <:+: a ++ 32 :: (b ++ 32 :: c)) (hbytes : bytes = a ++ 32 :: (b ++ 32 :: c) ++ CRLF ++ post) :
    ThreeFields bytes a b c where
  stop := by
    have := findText_line [] post hcrlf
    rw [hbytes]; simpa using this
  line := by rw [hbytes, substr, List.drop_zero, List.append_assoc, List.take_left]
  space1 := by simpa using findByte_of_append [] (b ++ 32 :: c) ha
  space2 := by
    have := findByte_of_append (a ++ [32]) c hb
    simpa using this
  first := by rw [substr, List.drop_zero, List.take_left]
  second := by rw [substr, ← List.drop_drop, List.drop_left, List.drop_one, List.tail_cons, List.take_left]
  third := by
    rw [show a ++ 32 :: (b ++ 32 :: c) = (a ++ 32 :: b ++ [32]) ++ c by simp]
    exact List.drop_left' (by simp; omega)

/-- No part of a split list has the separator in it. -/
theorem not_mem_of_mem_splitOn {c : UInt8} {l s : Bytes} (hs : s ∈ l.splitOn c) : c ∉ s := by
  induction l generalizing s with
  | nil =>
      rw [List.splitOn_nil, List.mem_singleton] at hs
      simp [hs]
  | cons b l ih =>
      rw [List.splitOn_cons_eq_if_modifyHead] at hs
      split at hs
      · rcases List.mem_cons.mp hs with rfl | hs
        · simp
        · exact ih hs
      · rename_i hb
        obtain ⟨t, ts, ht⟩ := List.exists_cons_of_ne_nil (List.splitOn_ne_nil c l)
        rw [ht] at ih hs
        rcases List.mem_cons.mp hs with rfl | hs
        · have hne : c ≠ b := fun he => hb (by simp [he])
          simp [hne, ih (show t ∈ t :: ts by simp)]
        · exact ih (by simp [hs])

end Lib

end NetCpp
