/-
# NetCpp.Http.ResponsePart — the head of a response.

`include/xsl/asio/http/response.h` and `src/asio/http/response.cpp`: the header map, the parts of a response without its
body, and `to_string`.
-/
import NetCpp.Http.Proto

namespace NetCpp.Http

open NetCpp.Lib

/-! ## §1 — the header map. -/

abbrev Header := Bytes × Bytes

def inlineCapacity : Nat := 8
def keyBufferSize : Nat := 40
def valueBufferSize : Nat := 64

/-- Entries that fit go to the inline slots, the others are spilled.  No key is there twice. -/
structure SmallHeaderMap where
  slots : List Header
  overflow : List Header
  slots_le : slots.length ≤ inlineCapacity
  slots_fit : ∀ e ∈ slots, e.1.length ≤ keyBufferSize ∧ e.2.length ≤ valueBufferSize
  nodup : ((slots ++ overflow).map Prod.fst).Nodup

namespace SmallHeaderMap

def empty : SmallHeaderMap := ⟨[], [], by simp, by simp, by simp⟩

/-- The entries in the order of `entry(i)`. -/
def entries (m : SmallHeaderMap) : List Header := m.slots ++ m.overflow

def contains (m : SmallHeaderMap) (key : Bytes) : Bool := m.entries.any fun e => e.1 == key

variable {m : SmallHeaderMap} {key value : Bytes}

theorem contains_iff : m.contains key = true ↔ key ∈ m.entries.map Prod.fst := by
  simp [contains]

theorem not_mem_of_not_contains (h : ¬ m.contains key = true) : key ∉ m.entries.map Prod.fst :=
  fun hk => h (contains_iff.mpr hk)

/-- `emplace`: first wins. -/
def emplace (key value : Bytes) (m : SmallHeaderMap) : SmallHeaderMap :=
  if hc : m.contains key = true then m
  else if hfit : m.slots.length < inlineCapacity ∧ key.length ≤ keyBufferSize ∧ value.length ≤ valueBufferSize then
    { slots := m.slots ++ [(key, value)]
      overflow := m.overflow
      slots_le := by simp; omega
      slots_fit := by
        intro e he
        rcases List.mem_append.mp he with he | he
        · exact m.slots_fit e he
        · obtain rfl := List.mem_singleton.mp he
          exact hfit.2
      nodup := by
        have hnot := not_mem_of_not_contains hc
        have hn := m.nodup
        simp only [entries, List.map_append, List.mem_append, not_or] at hnot
        rw [List.append_assoc, List.map_append, List.nodup_append] at *
        grind }
  else
    { slots := m.slots
      overflow := m.overflow ++ [(key, value)]
      slots_le := m.slots_le
      slots_fit := m.slots_fit
      nodup := by
        have hnot := not_mem_of_not_contains hc
        have hn := m.nodup
        rw [← List.append_assoc, List.map_append, List.nodup_append]
        exact ⟨hn, by simp, by rintro a ha b hb rfl; simp at hb; subst hb; exact hnot ha⟩ }

/-- **What `emplace` does**: nothing when the key is there, else one of the two parts is prolonged. -/
theorem emplace_cases (m : SmallHeaderMap) (key value : Bytes) :
    m.contains key = true ∧ m.emplace key value = m ∨
      ¬ m.contains key = true ∧
        ((m.emplace key value).slots = m.slots ++ [(key, value)] ∧ (m.emplace key value).overflow = m.overflow ∨
          (m.emplace key value).slots = m.slots ∧ (m.emplace key value).overflow = m.overflow ++ [(key, value)]) := by
  unfold emplace
  by_cases hc : m.contains key = true
  · rw [dif_pos hc]
    exact Or.inl ⟨hc, rfl⟩
  · rw [dif_neg hc]
    refine Or.inr ⟨hc, ?_⟩
    split
    · exact Or.inl ⟨rfl, rfl⟩
    · exact Or.inr ⟨rfl, rfl⟩

/-- **What `emplace` does to the entries.** -/
theorem mem_emplace {e : Header} :
    e ∈ (m.emplace key value).entries ↔ e ∈ m.entries ∨ (¬ m.contains key = true ∧ e = (key, value)) := by
  rcases m.emplace_cases key value with ⟨hc, hsame⟩ | ⟨hc, ⟨hslots, hover⟩ | ⟨hslots, hover⟩⟩
  · rw [hsame]
    simp [hc]
  · rw [entries, hslots, hover]
    simp [entries, hc, or_assoc, or_comm]
  · rw [entries, hslots, hover]
    simp [entries, hc, or_assoc]

/-- A new key has its value, the others keep theirs. -/
theorem lookup_emplace (hnew : m.entries.lookup key = none) (k : Bytes) :
    (m.emplace key value).entries.lookup k = if k = key then some value else m.entries.lookup k := by
  have hc : ¬ m.contains key = true := by
    rw [contains_iff, List.mem_map]
    rintro ⟨e, he, rfl⟩
    rw [List.lookup_eq_none_iff] at hnew
    simpa using hnew e he
  rw [entries, List.lookup_append, Option.or_eq_none_iff] at hnew
  rcases m.emplace_cases key value with ⟨hc', -⟩ | ⟨-, hparts⟩
  · exact absurd hc' hc
  · rw [entries, entries]
    by_cases hk : k = key
    · subst hk
      rcases hparts with ⟨hslots, hover⟩ | ⟨hslots, hover⟩
      · simp [hslots, hover, List.lookup_append, hnew.1]
      · simp [hslots, hover, List.lookup_append, hnew.1, hnew.2]
    · have hbeq : (k == key) = false := by simpa using hk
      rw [if_neg hk]
      rcases hparts with ⟨hslots, hover⟩ | ⟨hslots, hover⟩
      · simp [hslots, hover, List.lookup_append, List.lookup_cons, hbeq]
      · simp [hslots, hover, List.lookup_append, List.lookup_cons, hbeq]

end SmallHeaderMap

/-! ## §2 — the head. -/

structure ResponsePart where
  statusCode : Status
  statusMessage : Bytes
  version : Version
  headers : SmallHeaderMap

def API_VERSION : Bytes := text "XSL/0.1"

namespace ResponsePart

/-- `ResponsePart(version, status_code)`. -/
def ofStatus (version : Version) (status : Status) : Except Fault ResponsePart := do
  return { statusCode := status, statusMessage := ← status.toReasonPhrase, version := version, headers := .empty }

/-- What `to_string` appends, in order. -/
def pieces (part : ResponsePart) : Except Fault (List Bytes) := do
  let status ← part.statusCode.toStringView
  return [part.version.toStringView, text " ", status, text " ", part.statusMessage, CRLF] ++
    (part.headers.entries.flatMap fun e => [e.1, text ": ", e.2, CRLF]) ++
    (if part.headers.contains (text "Server") then [] else [text "Server: ", API_VERSION, CRLF]) ++ [CRLF]

def toString (part : ResponsePart) : Except Fault Bytes := do
  return (← part.pieces).flatten

theorem exists_pieces (part : ResponsePart) : ∃ ps, part.pieces = .ok ps := by
  obtain ⟨str, h⟩ := part.statusCode.exists_toStringView
  exact ⟨_, by rw [pieces, h]; rfl⟩

theorem exists_toString (part : ResponsePart) : ∃ head, part.toString = .ok head := by
  obtain ⟨ps, h⟩ := part.exists_pieces
  exact ⟨ps.flatten, by rw [toString, h]; rfl⟩

end ResponsePart

end NetCpp.Http
