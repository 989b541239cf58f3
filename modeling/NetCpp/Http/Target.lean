/-
# NetCpp.Http.Target — request targets: the expressions that recognise them, and percent decoding.

`include/xsl/net/http/request/target.h`, `include/xsl/net/uri.h`, `include/xsl/regex.h` and
`src/net/uri.cpp`.  ONE expression has the four target forms as alternatives, with ten groups; which form it is
shows in the group that took part.  A group that did not is the empty range at the END of the target.

`percent_decode` APPENDS to the buffer, and reads two characters after a `%` with `from_chars`, which takes a
sign and stops at the first character that is no digit.
-/
import NetCpp.Http.Proto
import NetCpp.Http.Router
import NetCpp.Lib.Regex

namespace NetCpp.Http

open NetCpp.Lib

/-! ## §1 — the expressions. -/

def char (c : Char) : Re UInt8 := .cls (· == c.toNat.toUInt8)

/-- `[^…]`. -/
def noneOf (s : String) : Re UInt8 := .cls fun b => !(text s).contains b

/-- `\d`. -/
def digit : Re UInt8 := .cls fun b => 48 ≤ b && b ≤ 57

def plus (r : Re UInt8) : Re UInt8 := .seq r (.star r)

/-- `(?:/[^/?#]*)*`. -/
def pathRe : Re UInt8 := .star (.seq (char '/') (.star (noneOf "/?#")))

/-- `(?:\?([^#]*))?` with the number of its group. -/
def queryRe (n : Nat) : Re UInt8 := .opt (.seq (char '?') (.group n (.star (noneOf "#"))))

/-- `^((?:/[^/?#]*)*)(?:\?([^#]*))?` -/
def originRe : Re UInt8 := .seq .bol (.seq (.group 1 pathRe) (queryRe 2))

/-- `^([^:/?#]+)://(?:(?:[^/?#@]*@)?([^/?#:]*)(?::([^/?#]*))?)((?:/[^/?#]*)*)(?:\?([^#]*))?` -/
def absoluteRe : Re UInt8 :=
  .seq .bol <| .seq (.group 3 (plus (noneOf ":/?#"))) <| .seq (char ':') <| .seq (char '/') <| .seq (char '/') <|
    .seq (.opt (.seq (.star (noneOf "/?#@")) (char '@'))) <| .seq (.group 4 (.star (noneOf "/?#:"))) <|
      .seq (.opt (.seq (char ':') (.group 5 (.star (noneOf "/?#"))))) <| .seq (.group 6 pathRe) (queryRe 7)

/-- `^([^:*]*)(?::(\d*))?` -/
def authorityRe : Re UInt8 :=
  .seq .bol (.seq (.group 8 (.star (noneOf ":*"))) (.opt (.seq (char ':') (.group 9 (.star digit)))))

/-- `^(\*)` -/
def asteriskRe : Re UInt8 := .seq .bol (.group 10 (char '*'))

/-- `RequestTarget::regex_re`. -/
def targetRe : Re UInt8 := .alt originRe (.alt absoluteRe (.alt authorityRe asteriskRe))

/-- `HTTP/(\d)\.(\d)` -/
def httpVersionRe : Re UInt8 :=
  .seq (char 'H') <| .seq (char 'T') <| .seq (char 'T') <| .seq (char 'P') <| .seq (char '/') <|
    .seq (.group 1 digit) <| .seq (char '.') (.group 2 digit)

/-! ## §2 — the four forms. -/

/-- Begin and end in the target. -/
abbrev Span := Nat × Nat

inductive Form
  | origin (path query : Span)
  | absolute (scheme host port path query : Span)
  | authority (host port : Span)
  | asterisk
deriving DecidableEq, Repr

/-- The form of a target by its groups, if any. -/
def matchTarget (target : Bytes) : Option Form := do
  let caps ← targetRe.fullMatch target
  let sub (n : Nat) : Span := (caps n).getD (target.length, target.length)
  if (caps 1).isSome then some (.origin (sub 1) (sub 2))
  else if (caps 3).isSome then some (.absolute (sub 3) (sub 4) (sub 5) (sub 6) (sub 7))
  else if (caps 8).isSome then some (.authority (sub 8) (sub 9))
  else if (caps 10).isSome then some .asterisk
  else none

/-- A path of these segments, as `[^/?#]*` takes them. -/
def PathSegs (segs : List Bytes) : Prop := ∀ s ∈ segs, ∀ b ∈ s, b ≠ 47 ∧ b ≠ 63 ∧ b ≠ 35

instance (segs : List Bytes) : Decidable (PathSegs segs) :=
  decidable_of_iff (segs.all fun s => s.all fun b => b ≠ 47 ∧ b ≠ 63 ∧ b ≠ 35) (by simp [PathSegs])

section Match

variable {β : Type} {k : Nat → Bytes → Caps → Option β} {pos : Nat} {rest : Bytes} {caps : Caps} {r : β}

theorem noneOf_path {b : UInt8} : (!(text "/?#").contains b) = true ↔ b ≠ 47 ∧ b ≠ 63 ∧ b ≠ 35 := by
  have : text "/?#" = [47, 63, 35] := by decide
  simp [this]

/-- **The path is taken whole** when what follows is no segment and then matches. -/
theorem run_pathRe (segs : List Bytes) (hs : PathSegs segs) (hrest : rest.head? = none ∨ rest.head? = some 63)
    (h : k (pos + (pathOf segs).length) rest caps = some r) : pathRe.run pos (pathOf segs ++ rest) caps k = some r := by
  have hgo : ∀ n, (pathOf segs).length ≤ n →
      Re.iterate (Re.run (.seq (char '/') (.star (noneOf "/?#")))) n pos (pathOf segs ++ rest) caps k = some r := by
    induction segs generalizing pos with
    | nil =>
        intro n _
        apply Re.iterate_stop n _ h
        intro k'
        cases rest with
        | nil => rfl
        | cons b rest =>
            obtain rfl : b = 63 := by simpa using hrest
            rfl
    | cons s segs ih =>
        intro n hn
        obtain ⟨n, rfl⟩ : ∃ j, n = j + 1 := ⟨n - 1, by simp at hn; omega⟩
        have hin : ∀ b ∈ s, (!(text "/?#").contains b) = true := fun b hb => noneOf_path.mpr (hs s (by simp) b hb)
        -- behind a segment comes the next one, or what follows the path
        have hnext : ∀ b ∈ (pathOf segs ++ rest).head?, (!(text "/?#").contains b) = false := by
          intro b hb
          have hb' : b = 47 ∨ b = 63 := by
            cases segs with
            | nil => right; rcases hrest with h0 | h0 <;> simp_all
            | cons t segs => left; simpa using hb.symm
          rcases hb' with rfl | rfl <;> decide
        have hlen : (pathOf segs ++ rest).length < (pathOf (s :: segs) ++ rest).length := by
          rw [pathOf_cons, List.length_append, List.length_append, List.length_cons, List.length_append]
          omega
        have htail : Re.iterate (Re.run (.seq (char '/') (.star (noneOf "/?#")))) n (pos + 1 + s.length)
            (pathOf segs ++ rest) caps k = some r := by
          apply ih (fun t ht => hs t (by simp [ht]))
          · rw [show pos + 1 + s.length + (pathOf segs).length = pos + (pathOf (s :: segs)).length by simp; omega]
            exact h
          · simp at hn; omega
        apply Re.iterate_step hlen _ htail
        intro k' hk'
        have hseg : (Re.star (noneOf "/?#")).run (pos + 1) (s ++ (pathOf segs ++ rest)) caps k' = some r :=
          Re.run_star_cls s hin hnext hk'
        simpa [Re.run, char] using hseg
  exact hgo _ (by simp)

end Match

/-- The query part of a target. -/
def queryPart : Option Bytes → Bytes
  | none => []
  | some query => 63 :: query

/-- The span of the query behind a path of `n` bytes. -/
def querySpan (n : Nat) : Option Bytes → Span
  | none => (n, n)
  | some query => (n + 1, n + 1 + query.length)

/-- No byte of `s` is in `cs`. -/
def Free (cs s : Bytes) : Prop := ∀ b ∈ s, b ∉ cs

instance (cs s : Bytes) : Decidable (Free cs s) := List.decidableBAll _ _

/-- The captures with an optional group. -/
def setOpt (n : Nat) : Option Span → Caps → Caps
  | none, caps => caps
  | some s, caps => Caps.set n s caps

@[simp] theorem setOpt_of_ne {n i : Nat} (h : i ≠ n) (s : Option Span) (caps : Caps) :
    setOpt n s caps i = caps i := by
  cases s with
  | none => rfl
  | some s => exact Caps.set_of_ne h s caps

@[simp] theorem setOpt_self (n : Nat) (s : Option Span) (caps : Caps) : setOpt n s caps n = s.or (caps n) := by
  cases s with
  | none => rfl
  | some s => exact Caps.set_self n s caps

/-- What `regex_match` asks at the end. -/
def stop : Nat → Bytes → Caps → Option Caps := fun _ rest caps => if rest = [] then some caps else none

section Query

variable {β : Type} {k : Nat → Bytes → Caps → Option β} {pos : Nat} {rest : Bytes} {caps : Caps} {r : β}

theorem noneOf_true {s : String} {t : Bytes} (h : Free (text s) t) : ∀ b ∈ t, (!(text s).contains b) = true := by
  intro b hb
  simpa using h b hb

theorem run_char (c : Char) (h : k (pos + 1) rest caps = some r) :
    (char c).run pos (c.toNat.toUInt8 :: rest) caps k = some r :=
  Re.run_cls_cons (beq_self_eq_true _) h

theorem run_char_none (c : Char) (h : rest.head? ≠ some c.toNat.toUInt8) : (char c).run pos rest caps k = none := by
  cases rest with
  | nil => rfl
  | cons b rest =>
      have hb : (b == c.toNat.toUInt8) = false := by simpa using h
      rw [char, Re.run, hb]
      rfl

theorem run_queryRe (n : Nat) {query : Option Bytes} (hq : Free (text "#") (query.getD [])) :
    (queryRe n).run pos (queryPart query) caps stop =
      some (setOpt n (query.map fun q => (pos + 1, pos + 1 + q.length)) caps) := by
  cases query with
  | none =>
      apply Re.run_opt_none
      · rw [Re.run_seq]
        exact run_char_none '?' (by simp [queryPart])
      · rfl
  | some q =>
      apply Re.run_opt_some
      rw [Re.run_seq]
      apply run_char '?'
      rw [Re.run_group]
      have hstar : (Re.star (noneOf "#")).run (pos + 1) (q ++ []) caps
          (fun pos' rest' caps' => stop pos' rest' (Caps.set n (pos + 1, pos') caps')) =
          some (Caps.set n (pos + 1, pos + 1 + q.length) caps) :=
        Re.run_star_cls q (noneOf_true hq) (by simp) (by simp [stop])
      rwa [List.append_nil] at hstar

/-- A path and its query, with the numbers of their groups. -/
theorem run_pathQuery (m n : Nat) {segs : List Bytes} {query : Option Bytes} (hs : PathSegs segs)
    (hq : Free (text "#") (query.getD [])) :
    (Re.seq (.group m pathRe) (queryRe n)).run pos (pathOf segs ++ queryPart query) caps stop =
      some (setOpt n (query.map fun q => (pos + (pathOf segs).length + 1, pos + (pathOf segs).length + 1 + q.length))
        (Caps.set m (pos, pos + (pathOf segs).length) caps)) := by
  rw [Re.run_seq, Re.run_group]
  apply run_pathRe segs hs
  · cases query <;> simp [queryPart]
  · exact run_queryRe n hq

end Query

/-- The first alternative decides. -/
theorem fullMatch_of_origin {target : Bytes} {found : Caps}
    (h : (Re.seq (.group 1 pathRe) (queryRe 2)).run 0 target (fun _ => none) stop = some found) :
    targetRe.fullMatch target = some found := by
  have horigin : originRe.run 0 target (fun _ => none) stop = some found := by
    rw [originRe, Re.run_seq, Re.run, if_pos rfl]
    exact h
  rw [Re.fullMatch, targetRe, Re.run]
  show (originRe.run 0 target (fun _ => none) stop).or _ = _
  rw [horigin, Option.some_or]

/-- **An origin form is recognised as such**, with its path and its query. -/
theorem matchTarget_origin (segs : List Bytes) (hs : PathSegs segs) (query : Option Bytes)
    (hq : ∀ q, query = some q → 35 ∉ q) :
    matchTarget (pathOf segs ++ queryPart query) =
      some (.origin (0, (pathOf segs).length) (querySpan (pathOf segs).length query)) := by
  have hfree : Free (text "#") (query.getD []) := by
    intro b hb hmem
    obtain rfl : b = 35 := List.mem_singleton.mp hmem
    cases query with
    | none => cases hb
    | some q => exact hq q rfl hb
  have horigin := @run_pathQuery 0 (fun _ => none) 1 2 _ _ hs hfree
  rw [Nat.zero_add] at horigin
  rw [matchTarget, fullMatch_of_origin horigin]
  cases query <;> simp [setOpt, querySpan, queryPart]

/-- `std::regex_match(…, http_version_re)`. -/
def isVersion (v : Bytes) : Bool := (httpVersionRe.fullMatch v).isSome

theorem isVersion_of_digits {a b : UInt8} (ha : 48 ≤ a ∧ a ≤ 57) (hb : 48 ≤ b ∧ b ≤ 57) :
    isVersion (text "HTTP/" ++ [a] ++ text "." ++ [b]) = true := by
  have hv : text "HTTP/" ++ [a] ++ text "." ++ [b] = [72, 84, 84, 80, 47, a, 46, b] := rfl
  rw [hv]
  simp [isVersion, Re.fullMatch, httpVersionRe, Re.run, char, digit, ha, hb]

/-- The text of a version on the wire. -/
theorem version_spec {v : Version} (h : v = .http10 ∨ v = .http11 ∨ v = .http20) :
    isVersion v.toStringView = true ∧ 32 ∉ v.toStringView ∧ 13 ∉ v.toStringView := by
  rcases h with rfl | rfl | rfl <;> decide

/-! ## §3 — percent decoding. -/

/-- The value of a hexadecimal digit. -/
def hexValue (b : UInt8) : Option Nat :=
  if 48 ≤ b ∧ b ≤ 57 then some (b.toNat - 48)
  else if 65 ≤ b ∧ b ≤ 70 then some (b.toNat - 55)
  else if 97 ≤ b ∧ b ≤ 102 then some (b.toNat - 87)
  else none

/-- `std::from_chars` in base 16 on two characters: a minus sign is taken, and the second character may be no
digit at all. -/
def fromChars16 (a b : UInt8) : Option Int :=
  match hexValue a, hexValue b with
  | some x, some y => some (16 * x + y)
  | some x, none => some x
  | none, some y => if a = 45 then some (-y) else none
  | none, none => none

/-- The loop of `percent_decode` on `sv`: what is appended to the buffer, and what is left of `sv`, `none` after
an illegal escape. -/
def percentDecodeGo : Nat → Bytes → Bytes → Bytes × Option Bytes
  | 0, sv, out => (out, some sv)
  | n + 1, sv, out =>
      match findByte sv 37 0 with
      | none => (out, some sv)
      | some p =>
          let out := out ++ sv.take p
          match sv.drop (p + 1) with
          | a :: b :: rest =>
              match fromChars16 a b with
              | some v => if 0 ≤ v ∧ v ≤ 255 then percentDecodeGo n rest (out ++ [v.toNat.toUInt8]) else (out, none)
              | none => (out, none)
          | _ => (out, none)

/-- The bytes a field stands for: its text, with the escapes replaced; `none` after an illegal one. -/
def decoded (sv : Bytes) : Option Bytes :=
  (percentDecodeGo sv.length sv []).2.map fun rest => (percentDecodeGo sv.length sv []).1 ++ rest

theorem percentDecodeGo_of_not_mem {sv : Bytes} (h : 37 ∉ sv) (n : Nat) (out : Bytes) :
    percentDecodeGo n sv out = (out, some sv) := by
  cases n with
  | zero => rfl
  | succ n => rw [percentDecodeGo, findByte_of_not_mem (by simpa using h)]

theorem decoded_of_not_mem {sv : Bytes} (h : 37 ∉ sv) : decoded sv = some sv := by
  rw [decoded, percentDecodeGo_of_not_mem h]; rfl

/-- The loop only appends. -/
theorem percentDecodeGo_append (n : Nat) (sv out : Bytes) : out <+: (percentDecodeGo n sv out).1 := by
  induction n generalizing sv out with
  | zero => exact List.prefix_refl _
  | succ n ih =>
      rw [percentDecodeGo]
      split
      · exact List.prefix_refl _
      · split
        · split
          · split
            · exact ((List.prefix_append _ _).trans (List.prefix_append _ _)).trans (ih _ _)
            · exact List.prefix_append _ _
          · exact List.prefix_append _ _
        · exact List.prefix_append _ _

/-- A text with an escape leaves something in the buffer. -/
theorem percentDecodeGo_ne_nil {sv rest : Bytes} (hmem : 37 ∈ sv)
    (h : (percentDecodeGo sv.length sv []).2 = some rest) : (percentDecodeGo sv.length sv []).1 ≠ [] := by
  obtain ⟨n, hn⟩ : ∃ n, sv.length = n + 1 := by
    cases sv with
    | nil => cases hmem
    | cons b sv => exact ⟨sv.length, by simp⟩
  obtain ⟨p, hp⟩ : ∃ p, findByte sv 37 0 = some p := by
    cases hf : (sv.drop 0).findIdx? (· == 37) with
    | none =>
        rw [List.findIdx?_eq_none_iff] at hf
        simpa using hf 37 (by simpa using hmem)
    | some i => exact ⟨0 + i, by rw [findByte, hf]; rfl⟩
  rw [hn, percentDecodeGo, hp] at h ⊢
  simp only [List.nil_append] at h ⊢
  split at h
  · rename_i a b tail _
    split at h
    · rename_i v _
      split at h
      · rename_i hv
        rw [if_pos hv]
        intro hnil
        have := (percentDecodeGo_append n tail (sv.take p ++ [v.toNat.toUInt8])).length_le
        rw [hnil] at this
        simp at this
      · cases h
    · cases h
  · cases h

end NetCpp.Http
