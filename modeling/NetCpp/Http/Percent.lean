/-
# NetCpp.Http.Percent — what `percent_decode` accepts, and what it leaves in the buffer.

`src/net/uri.cpp`.  The function validates an escape with `from_chars` on two characters, which stops at the
first that is no digit and takes a minus sign.  What it APPENDED before a rejected escape stays in the buffer:
nothing is rolled back.

`tokens` cuts a text where the loop cuts it, into characters and escapes.  `Token.denotes` is the meaning of a
token, `Token.value` is what the code makes of it; they differ on `PartlyHex` escapes and on no others.
-/
import NetCpp.Http.Line

namespace NetCpp.Http

open NetCpp.Lib

/-! ## §1 — the function. -/

/-- `percent_decode(buffer, sv)`: the buffer after the call and the view returned. -/
def percentDecode (A : Alloc) (buffer : RawString) (sv : Bytes) : RawString × Except Errc View :=
  let raw := buffer.reserve A (buffer.contents.length + sv.length)
  match percentDecodeGo sv.length sv [] with
  | (out, none) => ({ raw with contents := raw.contents ++ out }, .error .illegalByteSequence)
  | (out, some rest) =>
      if out = [] then (raw, .ok (.text []))
      else
        ({ raw with contents := raw.contents ++ (out ++ rest) },
          .ok (.raw raw.gen raw.contents.length (out ++ rest).length))

/-- `PERCENT_DECODE` in `RequestLine::parse` is the function on `_raw`, with the field itself for an empty view. -/
theorem RequestLine.percentDecode_eq_percentDecode (A : Alloc) (tv : View) (target : Bytes) (s : Span)
    (line : RequestLine) :
    line.percentDecode A tv target s =
      ({ line with raw := (Http.percentDecode A line.raw (substr target s.1 (s.2 - s.1))).1 },
        (Http.percentDecode A line.raw (substr target s.1 (s.2 - s.1))).2.map fun v =>
          if v.size = 0 then tv.sub s.1 (s.2 - s.1) else v) := by
  simp only [RequestLine.percentDecode, Http.percentDecode]
  generalize substr target s.1 (s.2 - s.1) = field
  generalize percentDecodeGo field.length field [] = r
  obtain ⟨out, rest⟩ := r
  cases rest with
  | none => rfl
  | some rest =>
      by_cases hout : out = []
      · simp only [if_pos hout, Except.map, View.size, List.length_nil, if_true]
      · have hne : (out ++ rest).length ≠ 0 := by simp [hout]
        simp only [if_neg hout, Except.map]
        rw [if_neg (show (View.raw _ _ (out ++ rest).length).size ≠ 0 from hne)]

/-! ## §2 — the tokens of a text. -/

/-- A character, or a `%` with the two behind it; `cut` is a `%` with fewer than two behind it. -/
inductive Token
  | char (b : UInt8)
  | escape (a b : UInt8)
  | cut (tail : Bytes)
deriving DecidableEq, Repr

def tokens : Bytes → List Token
  | [] => []
  | c :: rest =>
      if c = 37 then
        match rest with
        | a :: b :: tail => .escape a b :: tokens tail
        | tail => [.cut tail]
      else .char c :: tokens rest

namespace Token

def bytes : Token → Bytes
  | char b => [b]
  | escape a b => [37, a, b]
  | cut tail => 37 :: tail

/-- The byte a token stands for: an escape needs two hexadecimal digits. -/
def denotes : Token → Option UInt8
  | char b => some b
  | escape a b =>
      match hexValue a, hexValue b with
      | some x, some y => some (16 * x + y).toUInt8
      | _, _ => none
  | cut _ => none

/-- The byte the code makes of a token. -/
def value : Token → Option UInt8
  | char b => some b
  | escape a b =>
      match fromChars16 a b with
      | some v => if 0 ≤ v ∧ v ≤ 255 then some v.toNat.toUInt8 else none
      | none => none
  | cut _ => none

/-- A digit and no digit behind it, or `%-0`. -/
def PartlyHex : Token → Prop
  | escape a b => (hexValue a).isSome ∧ hexValue b = none ∨ a = 45 ∧ b = 48
  | _ => False

instance : DecidablePred PartlyHex := fun t => by
  cases t <;> unfold PartlyHex <;> infer_instance

/-- A `%` that stands for nothing. -/
def IsEscape : Token → Prop
  | char _ => False
  | _ => True

end Token

theorem hexValue_le {b : UInt8} {x : Nat} (h : hexValue b = some x) : x ≤ 15 := by
  have hb := b.toNat_lt
  unfold hexValue at h
  split at h
  · rename_i hd
    have h2 : b.toNat ≤ 57 := UInt8.le_iff_toNat_le.mp hd.2
    simp only [Option.some.injEq] at h
    omega
  · split at h
    · rename_i hd
      have h2 : b.toNat ≤ 70 := UInt8.le_iff_toNat_le.mp hd.2
      simp only [Option.some.injEq] at h
      omega
    · split at h
      · rename_i hd
        have h2 : b.toNat ≤ 102 := UInt8.le_iff_toNat_le.mp hd.2
        simp only [Option.some.injEq] at h
        omega
      · cases h

theorem hexValue_eq_zero {b : UInt8} (h : hexValue b = some 0) : b = 48 := by
  unfold hexValue at h
  split at h
  · rename_i hd
    have h1 : 48 ≤ b.toNat := UInt8.le_iff_toNat_le.mp hd.1
    simp only [Option.some.injEq] at h
    apply UInt8.toNat_inj.mp
    show b.toNat = 48
    omega
  · split at h
    · rename_i hd
      have h1 : 65 ≤ b.toNat := UInt8.le_iff_toNat_le.mp hd.1
      simp only [Option.some.injEq] at h
      omega
    · split at h
      · rename_i hd
        have h1 : 97 ≤ b.toNat := UInt8.le_iff_toNat_le.mp hd.1
        simp only [Option.some.injEq] at h
        omega
      · cases h

namespace Token

/-- What two hexadecimal digits denote is what the code reads. -/
theorem value_of_denotes {t : Token} {b : UInt8} (h : t.denotes = some b) : t.value = some b := by
  cases t with
  | char c => exact h
  | cut tail => cases h
  | escape a c =>
      unfold denotes at h
      unfold value fromChars16
      cases ha : hexValue a with
      | none => simp [ha] at h
      | some x =>
          cases hc : hexValue c with
          | none => simp [ha, hc] at h
          | some y =>
              have hx := hexValue_le ha
              have hy := hexValue_le hc
              have hrange : (0 : Int) ≤ 16 * x + y ∧ (16 * x + y : Int) ≤ 255 := by omega
              simp only [ha, hc] at h
              simp only [ha, hc, if_pos hrange]
              rw [← h]
              rfl

/-- **The code takes an escape that denotes nothing exactly when it is partly hexadecimal.** -/
theorem partlyHex_iff (t : Token) : t.PartlyHex ↔ t.denotes = none ∧ t.value.isSome = true := by
  cases t with
  | char c => simp [PartlyHex, denotes]
  | cut tail => simp [PartlyHex, value]
  | escape a b =>
      unfold PartlyHex denotes value fromChars16
      cases ha : hexValue a with
      | some x =>
          have hx := hexValue_le ha
          have ha45 : a ≠ 45 := by
            rintro rfl
            simp [hexValue] at ha
          cases hb : hexValue b with
          | some y => simp [ha, hb, ha45]
          | none =>
              have hrange : (0 : Int) ≤ x ∧ (x : Int) ≤ 255 := by omega
              simp [ha, hb, hrange]
      | none =>
          cases hb : hexValue b with
          | none =>
              have hb48 : b ≠ 48 := by
                rintro rfl
                simp [hexValue] at hb
              simp [ha, hb, hb48]
          | some y =>
              obtain rfl | ha45 := eq_or_ne a 45
              · by_cases hy : y = 0
                · subst hy
                  obtain rfl := hexValue_eq_zero hb
                  simp [ha, hb]
                · have hb48 : b ≠ 48 := by
                    rintro rfl
                    exact hy (Option.some.inj hb.symm)
                  have hneg : ¬ ((0 : Int) ≤ -y ∧ (-y : Int) ≤ 255) := by omega
                  simp only [ha, hb, hb48, if_true, if_neg hneg]
                  simp
              · simp [ha, hb, ha45]

end Token

/-! ## §3 — the loop on the tokens. -/

/-- The tokens in front of the first that the code rejects. -/
def legal (sv : Bytes) : List Token := (tokens sv).takeWhile fun t => t.value.isSome

/-- The text the code makes of tokens. -/
def valueText (ts : List Token) : Bytes := ts.filterMap Token.value

/-- The text with each escape replaced by the byte it denotes. -/
def denotedText (sv : Bytes) : Bytes := (tokens sv).filterMap Token.denotes

@[simp] theorem tokens_escape (a b : UInt8) (tail : Bytes) :
    tokens (37 :: a :: b :: tail) = .escape a b :: tokens tail := rfl

theorem tokens_cons {c : UInt8} (hc : c ≠ 37) (rest : Bytes) : tokens (c :: rest) = .char c :: tokens rest := by
  rcases rest with _ | ⟨a, _ | ⟨b, tail⟩⟩
  · simp [tokens, hc]
  · simp [tokens, hc]
  · simp [tokens, hc]

theorem tokens_append {t : Bytes} (h : 37 ∉ t) (u : Bytes) : tokens (t ++ u) = t.map .char ++ tokens u := by
  induction t with
  | nil => rfl
  | cons c t ih =>
      have hc : c ≠ 37 := fun he => h (he ▸ List.mem_cons_self)
      have ht : 37 ∉ t := fun hm => h (List.mem_cons_of_mem _ hm)
      rw [List.cons_append, tokens_cons hc, ih ht]
      rfl

/-- The tokens are the text. -/
theorem flatMap_bytes_tokens (sv : Bytes) : (tokens sv).flatMap Token.bytes = sv := by
  induction sv using tokens.induct with
  | case1 => rfl
  | case2 a b tail ih =>
      show [37, a, b] ++ (tokens tail).flatMap Token.bytes = _
      rw [ih]; rfl
  | case3 tail htail => cases tail with
      | nil => rfl
      | cons a tail => cases tail with
          | nil => rfl
          | cons b tail => exact absurd rfl (htail a b tail)
  | case4 c rest hc ih =>
      rw [tokens_cons hc, List.flatMap_cons, ih]
      rfl

theorem legal_append {t : Bytes} (h : 37 ∉ t) (u : Bytes) : legal (t ++ u) = t.map .char ++ legal u := by
  unfold legal
  rw [tokens_append h]
  apply List.takeWhile_append_of_pos
  intro x hx
  obtain ⟨b, -, rfl⟩ := List.mem_map.mp hx
  rfl

theorem valueText_char (t : Bytes) (ts : List Token) : valueText (t.map .char ++ ts) = t ++ valueText ts := by
  rw [valueText, List.filterMap_append, List.filterMap_map]
  congr 1
  exact List.filterMap_some

/-- One round of the loop. -/
theorem percentDecodeGo_round {t : Bytes} (ht : 37 ∉ t) (n : Nat) (u out : Bytes) :
    percentDecodeGo (n + 1) (t ++ 37 :: u) out =
      match u with
      | a :: b :: rest =>
          match (Token.escape a b).value with
          | some v => percentDecodeGo n rest (out ++ t ++ [v])
          | none => (out ++ t, none)
      | _ => (out ++ t, none) := by
  have hfind : findByte (t ++ 37 :: u) 37 0 = some t.length := by
    have := findByte_of_append [] u ht
    simpa using this
  have hdrop : (t ++ 37 :: u).drop (t.length + 1) = u := by
    rw [← List.drop_drop, List.drop_left, List.drop_one, List.tail_cons]
  rw [percentDecodeGo, hfind]
  simp only [List.take_left, hdrop]
  cases u with
  | nil => rfl
  | cons a u => cases u with
      | nil => rfl
      | cons b rest =>
          simp only [Token.value]
          cases fromChars16 a b with
          | none => rfl
          | some v =>
              simp only
              split <;> rfl

/-- What the loop leaves of `sv`: all of it was taken, or the text in front of the rejected escape is appended. -/
def LoopLeaves (sv out : Bytes) : Bytes × Option Bytes → Prop
  | (out', none) => legal sv ≠ tokens sv ∧ out' = out ++ valueText (legal sv)
  | (out', some rest) => legal sv = tokens sv ∧ out' ++ rest = out ++ valueText (tokens sv)

section Round

variable {t u out : Bytes}

theorem leaves_plain (ht : 37 ∉ t) (out : Bytes) : LoopLeaves t out (out, some t) := by
  have h1 := tokens_append ht []
  have h2 := legal_append ht []
  rw [List.append_nil] at h1 h2
  constructor
  · exact h2.trans h1.symm
  · rw [h1, valueText_char]
    simp [tokens, valueText]

/-- A rejected escape: what stands in front of it stays appended. -/
theorem leaves_reject (ht : 37 ∉ t) {x : Token} {ts : List Token} (hu : tokens (37 :: u) = x :: ts)
    (hx : x.value = none) (out : Bytes) : LoopLeaves (t ++ 37 :: u) out (out ++ t, none) := by
  have hl : legal (37 :: u) = [] := by rw [legal, hu, List.takeWhile_cons, hx]; rfl
  constructor
  · rw [tokens_append ht, legal_append ht, hu, hl]
    simp
  · rw [legal_append ht, valueText_char, hl]
    simp [valueText]

/-- An escape that is taken: the rest of the loop decides. -/
theorem leaves_step (ht : 37 ∉ t) {a b v : UInt8} {rest : Bytes} (hv : (Token.escape a b).value = some v)
    {r : Bytes × Option Bytes} (h : LoopLeaves rest (out ++ t ++ [v]) r) : LoopLeaves (t ++ 37 :: a :: b :: rest) out r := by
  have htok := tokens_escape a b rest
  have hl : legal (37 :: a :: b :: rest) = .escape a b :: legal rest := by
    rw [legal, htok, List.takeWhile_cons, hv]; rfl
  have hvt : ∀ ts, valueText (.escape a b :: ts) = v :: valueText ts := by
    intro ts
    rw [valueText, List.filterMap_cons, hv]; rfl
  obtain ⟨out', tail⟩ := r
  cases tail with
  | none =>
      obtain ⟨hne, rfl⟩ := h
      constructor
      · rw [tokens_append ht, legal_append ht, htok, hl]
        simpa using hne
      · rw [legal_append ht, valueText_char, hl, hvt]
        simp
  | some tail =>
      obtain ⟨heq, htext⟩ := h
      constructor
      · rw [tokens_append ht, legal_append ht, htok, hl, heq]
      · rw [htext, tokens_append ht, valueText_char, htok, hvt]
        simp

end Round

/-- **The loop takes the legal tokens**, and all of them are legal when it does not fail. -/
theorem percentDecodeGo_leaves (n : Nat) (sv out : Bytes) (hn : sv.length ≤ n) :
    LoopLeaves sv out (percentDecodeGo n sv out) := by
  induction n generalizing sv out with
  | zero =>
      obtain rfl := List.length_eq_zero_iff.mp (Nat.le_zero.mp hn)
      exact leaves_plain (by simp) out
  | succ n ih =>
      rcases cut_at 37 sv with h | ⟨t, u, ht, rfl⟩
      · rw [percentDecodeGo_of_not_mem h]
        exact leaves_plain h out
      · rw [percentDecodeGo_round ht]
        rcases u with _ | ⟨a, _ | ⟨b, rest⟩⟩
        · exact leaves_reject ht (show tokens [37] = [.cut []] from rfl) rfl out
        · exact leaves_reject ht (show tokens [37, a] = [.cut [a]] from rfl) rfl out
        · simp only
          cases hv : (Token.escape a b).value with
          | none => exact leaves_reject ht (tokens_escape a b rest) hv out
          | some v =>
              apply leaves_step ht hv
              apply ih
              simp at hn
              omega

/-! ## §4 — what the function accepts. -/

theorem legal_eq_iff (sv : Bytes) : legal sv = tokens sv ↔ ∀ t ∈ tokens sv, t.value.isSome = true :=
  List.takeWhile_eq_self_iff

/-- A character among the tokens is no percent sign. -/
theorem char_ne_percent {sv : Bytes} {b : UInt8} (h : Token.char b ∈ tokens sv) : b ≠ 37 := by
  induction sv using tokens.induct with
  | case1 => simp [tokens] at h
  | case2 a c tail ih =>
      rw [tokens_escape] at h
      exact ih (by simpa using h)
  | case3 tail htail =>
      rcases tail with _ | ⟨a, _ | ⟨c, tail⟩⟩
      · simp [tokens] at h
      · simp [tokens] at h
      · exact absurd rfl (htail a c tail)
  | case4 c rest hc ih =>
      rw [tokens_cons hc, List.mem_cons] at h
      rcases h with h | h
      · rw [Token.char.inj h]
        exact hc
      · exact ih h

/-- There is an escape where there is a `%`. -/
theorem exists_escape_iff (sv : Bytes) : (∃ t ∈ tokens sv, t.IsEscape) ↔ 37 ∈ sv := by
  have hsv : 37 ∈ sv ↔ ∃ t ∈ tokens sv, 37 ∈ t.bytes := by
    rw [← List.mem_flatMap, flatMap_bytes_tokens]
  rw [hsv]
  constructor
  · rintro ⟨t, ht, hesc⟩
    refine ⟨t, ht, ?_⟩
    cases t with
    | char b => exact absurd hesc id
    | escape a b => simp [Token.bytes]
    | cut tail => simp [Token.bytes]
  · rintro ⟨t, ht, hb⟩
    refine ⟨t, ht, ?_⟩
    cases t with
    | char b => exact char_ne_percent ht (by simpa [Token.bytes, eq_comm] using hb)
    | escape a b => trivial
    | cut tail => trivial

section Function

variable (A : Alloc) (buffer : RawString) (sv : Bytes)

/-- **On a rejected escape** the buffer keeps what was appended in front of it. -/
theorem percentDecode_of_illegal (h : legal sv ≠ tokens sv) :
    (percentDecode A buffer sv).2 = .error .illegalByteSequence ∧
      (percentDecode A buffer sv).1.contents = buffer.contents ++ valueText (legal sv) := by
  have hgo := percentDecodeGo_leaves sv.length sv [] le_rfl
  simp only [percentDecode]
  generalize percentDecodeGo sv.length sv [] = r at hgo
  obtain ⟨out, rest⟩ := r
  cases rest with
  | none =>
      obtain ⟨-, rfl⟩ := hgo
      exact ⟨rfl, by simp⟩
  | some rest => exact absurd hgo.1 h

/-- **Without a rejected escape** the text is appended, and the view shows it. -/
theorem percentDecode_of_legal (h : legal sv = tokens sv) (hmem : 37 ∈ sv) :
    ∃ v, (percentDecode A buffer sv).2 = .ok v ∧
      (percentDecode A buffer sv).1.contents = buffer.contents ++ valueText (tokens sv) ∧
      ∀ heap, View.deref heap (percentDecode A buffer sv).1 v = some (valueText (tokens sv)) := by
  have hgo := percentDecodeGo_leaves sv.length sv [] le_rfl
  have hne : ∀ rest, (percentDecodeGo sv.length sv []).2 = some rest → (percentDecodeGo sv.length sv []).1 ≠ [] :=
    fun rest => percentDecodeGo_ne_nil hmem
  simp only [percentDecode]
  generalize percentDecodeGo sv.length sv [] = r at hgo hne
  obtain ⟨out, rest⟩ := r
  cases rest with
  | none => exact absurd h hgo.1
  | some rest =>
      obtain ⟨-, htext⟩ := hgo
      rw [List.nil_append] at htext
      simp only [if_neg (hne rest rfl), htext]
      refine ⟨_, rfl, by simp, ?_⟩
      intro heap
      rw [View.deref, if_pos rfl, substr, List.drop_left, List.take_length]

theorem percentDecode_of_plain (hmem : 37 ∉ sv) :
    (percentDecode A buffer sv).2 = .ok (.text []) ∧ (percentDecode A buffer sv).1.contents = buffer.contents := by
  simp only [percentDecode]
  rw [percentDecodeGo_of_not_mem hmem]
  exact ⟨rfl, by simp⟩

/-- The function succeeds when the code takes every escape. -/
theorem percentDecode_ok_iff :
    (∃ v, (percentDecode A buffer sv).2 = .ok v) ↔ ∀ t ∈ tokens sv, t.value.isSome = true := by
  rw [← legal_eq_iff]
  constructor
  · rintro ⟨v, hv⟩
    by_contra hne
    rw [(percentDecode_of_illegal A buffer sv hne).1] at hv
    cases hv
  · intro h
    by_cases hmem : 37 ∈ sv
    · obtain ⟨v, hv, -⟩ := percentDecode_of_legal A buffer sv h hmem
      exact ⟨v, hv⟩
    · exact ⟨_, (percentDecode_of_plain A buffer sv hmem).1⟩

/-- `percent_decode` is exact on `sv`. -/
structure PercentDecodeExact : Prop where
  accepts : (∃ v, (percentDecode A buffer sv).2 = .ok v) ↔ ∀ t ∈ tokens sv, t.denotes.isSome = true
  decoded : ∀ v, (percentDecode A buffer sv).2 = .ok v → (∃ t ∈ tokens sv, t.IsEscape) →
    (percentDecode A buffer sv).1.contents = buffer.contents ++ denotedText sv ∧
      ∀ heap, View.deref heap (percentDecode A buffer sv).1 v = some (denotedText sv)
  plain : ∀ v, (percentDecode A buffer sv).2 = .ok v → (∀ t ∈ tokens sv, ¬ t.IsEscape) →
    v = .text [] ∧ (percentDecode A buffer sv).1.contents = buffer.contents

/-- Two readings of a text agree when every token denotes something. -/
theorem valueText_tokens {sv : Bytes} (h : ∀ t ∈ tokens sv, t.denotes.isSome = true) :
    valueText (tokens sv) = denotedText sv := by
  apply List.filterMap_congr
  intro t ht
  obtain ⟨b, hb⟩ := Option.isSome_iff_exists.mp (h t ht)
  rw [hb, Token.value_of_denotes hb]

/-- **`percent_decode` is exact** unless it takes a partly hexadecimal escape for a whole one: it rejects a text
with such an escape only for another escape in it. -/
theorem percentDecode_exact_iff :
    PercentDecodeExact A buffer sv ↔ ((∃ t ∈ tokens sv, t.PartlyHex) → ∃ t ∈ tokens sv, t.value = none) := by
  constructor
  · rintro hexact ⟨t, ht, hp⟩
    by_contra hno
    have hok : ∀ t ∈ tokens sv, t.value.isSome = true := by
      intro t ht
      apply Option.isSome_iff_ne_none.mpr
      exact fun hnone => hno ⟨t, ht, hnone⟩
    have hall := hexact.accepts.mp ((percentDecode_ok_iff A buffer sv).mpr hok) t ht
    rw [((Token.partlyHex_iff t).mp hp).1] at hall
    cases hall
  · intro hcond
    have haccepts : (∃ v, (percentDecode A buffer sv).2 = .ok v) ↔ ∀ t ∈ tokens sv, t.denotes.isSome = true := by
      rw [percentDecode_ok_iff]
      constructor
      · intro hok t ht
        by_contra hden
        -- an escape that is taken and denotes nothing is partly hexadecimal
        have hp : t.PartlyHex := (Token.partlyHex_iff t).mpr ⟨by simpa using hden, hok t ht⟩
        obtain ⟨t', ht', hnone⟩ := hcond ⟨t, ht, hp⟩
        have := hok t' ht'
        rw [hnone] at this
        cases this
      · intro hden t ht
        obtain ⟨b, hb⟩ := Option.isSome_iff_exists.mp (hden t ht)
        rw [Token.value_of_denotes hb]
        rfl
    constructor
    · exact haccepts
    · intro v hv hesc
      have hden := haccepts.mp ⟨v, hv⟩
      have hleg := (legal_eq_iff sv).mpr ((percentDecode_ok_iff A buffer sv).mp ⟨v, hv⟩)
      obtain ⟨v', hv', hc, hd⟩ := percentDecode_of_legal A buffer sv hleg ((exists_escape_iff sv).mp hesc)
      obtain rfl : v' = v := Except.ok.inj (hv'.symm.trans hv)
      rw [valueText_tokens hden] at hc hd
      exact ⟨hc, hd⟩
    · intro v hv hno
      have hmem : 37 ∉ sv := fun hmem => by
        obtain ⟨t, ht, hesc⟩ := (exists_escape_iff sv).mpr hmem
        exact hno t ht hesc
      obtain ⟨hv', hc⟩ := percentDecode_of_plain A buffer sv hmem
      exact ⟨Except.ok.inj (hv.symm.trans hv'), hc⟩

end Function

/-- `%4G` is taken for the byte 4. -/
theorem percentDecode_inexact : ¬ PercentDecodeExact libstdcpp ⟨[], 15, 0⟩ (text "%4G") := by
  intro h
  have hall := h.accepts.mp ⟨.raw 0 0 1, by decide⟩
  exact absurd (hall (.escape 52 71) (by decide)) (by decide)

/-! ## §5 — what is left in the buffer. -/

/-- What decoding a field appends. -/
def appended (field : Bytes) : Bytes := if 37 ∈ field then valueText (legal field) else []

/-- What decoding fields in turn appends: none is decoded behind a rejected escape. -/
def appendedAll : List Bytes → Bytes
  | [] => []
  | field :: fields => appended field ++ if legal field = tokens field then appendedAll fields else []

theorem valueText_legal_eq_nil (sv : Bytes) : valueText (legal sv) = [] ↔ legal sv = [] := by
  constructor
  · intro h
    cases hl : legal sv with
    | nil => rfl
    | cons t ts =>
        have hv : t.value.isSome = true := by
          have hmem : t ∈ legal sv := by rw [hl]; exact List.mem_cons_self
          exact List.mem_takeWhile_imp (p := fun t : Token => t.value.isSome) hmem
        obtain ⟨b, hb⟩ := Option.isSome_iff_exists.mp hv
        rw [hl, valueText, List.filterMap_cons, hb] at h
        cases h
  · intro h
    rw [h]; rfl

theorem contents_percentDecode (A : Alloc) (buffer : RawString) (sv : Bytes) :
    (percentDecode A buffer sv).1.contents = buffer.contents ++ appended sv := by
  unfold appended
  by_cases hmem : 37 ∈ sv
  · rw [if_pos hmem]
    by_cases hleg : legal sv = tokens sv
    · obtain ⟨v, -, hc, -⟩ := percentDecode_of_legal A buffer sv hleg hmem
      rw [hc, hleg]
    · exact (percentDecode_of_illegal A buffer sv hleg).2
  · rw [if_neg hmem, List.append_nil]
    exact (percentDecode_of_plain A buffer sv hmem).2

theorem isOk_percentDecode (A : Alloc) (buffer : RawString) (sv : Bytes) :
    (∃ v, (percentDecode A buffer sv).2 = .ok v) ↔ legal sv = tokens sv := by
  rw [legal_eq_iff, percentDecode_ok_iff]

/-- The fields of a target that are decoded. -/
def Form.fields (target : Bytes) : Form → List Bytes
  | .origin path query | .absolute _ _ _ path query => [fieldAt target path, fieldAt target query]
  | .authority _ _ | .asterisk => []

def fieldsOf (target : Bytes) : List Bytes :=
  match matchTarget target with
  | some f => f.fields target
  | none => []

/-- The target of a request line: what stands between the first two spaces. -/
def targetOf (bytes : Bytes) : Option Bytes := do
  let stop ← findText bytes CRLF 0
  let sp1 ← findByte (substr bytes 0 stop) 32 0
  let sp2 ← findByte (substr bytes 0 stop) 32 (sp1 + 1)
  return substr (substr bytes 0 stop) (sp1 + 1) (sp2 - sp1 - 1)

/-- What `parse` appends to `_raw`. -/
def appendedBy (bytes : Bytes) : Bytes :=
  match targetOf bytes with
  | some target => appendedAll (fieldsOf target)
  | none => []

namespace RequestLine

variable (A : Alloc) (tv : View) (target : Bytes) (line : RequestLine)

theorem contents_setPathQuery (p q : Span) (slash : Bool) :
    (line.setPathQuery A tv target p q slash).1.raw.contents =
      line.raw.contents ++ appendedAll [fieldAt target p, fieldAt target q] := by
  unfold setPathQuery
  rw [percentDecode_eq_percentDecode]
  have hp := contents_percentDecode A line.raw (fieldAt target p)
  have hok := isOk_percentDecode A line.raw (fieldAt target p)
  rw [show substr target p.1 (p.2 - p.1) = fieldAt target p from rfl]
  generalize Http.percentDecode A line.raw (fieldAt target p) = r at hp hok
  obtain ⟨raw, v⟩ := r
  cases v with
  | error ec =>
      have hne : legal (fieldAt target p) ≠ tokens (fieldAt target p) := by
        intro h
        obtain ⟨v, hv⟩ := hok.mpr h
        cases hv
      simp only [Except.map, appendedAll, if_neg hne]
      simpa using hp
  | ok v =>
      have hleg := hok.mp ⟨v, rfl⟩
      simp only [Except.map]
      rw [percentDecode_eq_percentDecode]
      have hq := contents_percentDecode A raw (fieldAt target q)
      rw [show substr target q.1 (q.2 - q.1) = fieldAt target q from rfl]
      simp only [appendedAll, if_pos hleg]
      generalize Http.percentDecode A raw (fieldAt target q) = r at hq
      obtain ⟨raw', v'⟩ := r
      have hc : raw'.contents = line.raw.contents ++ (appended (fieldAt target p) ++ (appended (fieldAt target q) ++
          if legal (fieldAt target q) = tokens (fieldAt target q) then [] else [])) := by
        rw [ite_self, List.append_nil, ← List.append_assoc, ← hp]
        exact hq
      cases v' with
      | error ec => exact hc
      | ok v' => exact hc

theorem contents_setTarget :
    (line.setTarget A tv target).1.raw.contents = line.raw.contents ++ appendedAll (fieldsOf target) := by
  unfold setTarget fieldsOf
  cases matchTarget target with
  | none => simp [appendedAll]
  | some f => cases f with
      | origin p q => exact contents_setPathQuery A tv target line p q false
      | absolute s h o p q => exact contents_setPathQuery A tv target _ p q true
      | authority h o => simp [appendedAll, Form.fields]
      | asterisk => simp [appendedAll, Form.fields]

/-- **`parse` only appends to `_raw`**, with or without an error. -/
theorem contents_parse (view : View) (bytes : Bytes) :
    (line.parse A view bytes).1.raw.contents = line.raw.contents ++ appendedBy bytes := by
  unfold parse appendedBy targetOf
  cases findText bytes CRLF 0 with
  | none => simp
  | some stop =>
      simp only
      cases h1 : findByte (substr bytes 0 stop) 32 0 with
      | none => simp [h1]
      | some sp1 =>
          simp only
          cases h2 : findByte (substr bytes 0 stop) 32 (sp1 + 1) with
          | none => simp [h1, h2]
          | some sp2 =>
              have hset := contents_setTarget A (view.sub (sp1 + 1) (sp2 - sp1 - 1))
                (substr (substr bytes 0 stop) (sp1 + 1) (sp2 - sp1 - 1))
                { line with method := .fromStringView (substr (substr bytes 0 stop) 0 sp1) }
              simp only [h1, h2, Option.bind_eq_bind, Option.bind_some, Option.pure_def]
              generalize setTarget A _ _ _ = r at hset ⊢
              obtain ⟨line', ec⟩ := r
              cases ec with
              | some ec => exact hset
              | none =>
                  simp only
                  split
                  · exact hset
                  · exact hset

end RequestLine

/-- **On an error nothing is taken back**: the buffer is what it was and, behind it, the decoded text in front of
the first escape rejected, for `parse` that of the path and the query in turn. -/
theorem decode_buffer_on_error (A : Alloc) :
    (∀ (buffer : RawString) (sv : Bytes) (ec : Errc), (percentDecode A buffer sv).2 = .error ec →
      (percentDecode A buffer sv).1.contents = buffer.contents ++ valueText (legal sv) ∧
      ((percentDecode A buffer sv).1.contents = buffer.contents ↔ legal sv = [])) ∧
    ∀ (line : RequestLine) (view : View) (bytes : Bytes) (ec : Errc), (line.parse A view bytes).2.2 = some ec →
      (line.parse A view bytes).1.raw.contents = line.raw.contents ++ appendedBy bytes := by
  constructor
  · intro buffer sv ec hec
    have hne : legal sv ≠ tokens sv := by
      intro h
      obtain ⟨v, hv⟩ := (isOk_percentDecode A buffer sv).mpr h
      rw [hv] at hec
      cases hec
    have hc := (percentDecode_of_illegal A buffer sv hne).2
    refine ⟨hc, ?_⟩
    rw [hc, List.append_right_eq_self, valueText_legal_eq_nil]
  · intro line view bytes ec _
    exact RequestLine.contents_parse A line view bytes

/-- An illegal escape behind a character, and a wrong version behind an escape. -/
theorem decode_buffer_not_restored :
    (percentDecode libstdcpp ⟨[], 15, 0⟩ (text "a%zz")).2 = .error .illegalByteSequence ∧
      (percentDecode libstdcpp ⟨[], 15, 0⟩ (text "a%zz")).1.contents = text "a" ∧
      ((RequestLine.init libstdcpp).parse libstdcpp (.block 0 0 17) (text "GET /%41 HTTP/x" ++ CRLF)).2.2 =
        some .illegalByteSequence ∧
      ((RequestLine.init libstdcpp).parse libstdcpp (.block 0 0 17) (text "GET /%41 HTTP/x" ++ CRLF)).1.raw.contents =
        text "/A" := by
  decide

theorem decode_buffer_on_error_cut :
    (percentDecode libstdcpp ⟨text "b", 15, 0⟩ (text "a%zz")).1.contents = text "b" ++ valueText (legal (text "a%zz")) ∧
      ((RequestLine.init libstdcpp).parse libstdcpp (.block 0 0 17) (text "GET /%41 HTTP/x" ++ CRLF)).1.raw.contents =
        [] ++ appendedBy (text "GET /%41 HTTP/x" ++ CRLF) := by
  constructor
  · exact ((decode_buffer_on_error libstdcpp).1 _ _ .illegalByteSequence (by decide)).1
  · exact (decode_buffer_on_error libstdcpp).2 _ _ _ .illegalByteSequence (by decide)

end NetCpp.Http
