/-
# NetCpp.Http.Proto — versions, methods, status codes and their tables.

`include/xsl/net/http/proto.h`.  A `Status` is ANY 16-bit value: the enumeration has a fixed underlying
type and a constructor from `uint16_t`.  `toIndex` sends the 44 declared codes to `0 … 43` and every other
value to `44`: the last entry of `HTTP_STATUS_STR`, and one PAST the last of `HTTP_REASON_PHRASES`.  A read
outside a table is a `Fault`, as is a failed `rt_assert`.
-/
import NetCpp.Lib.Fallible

namespace NetCpp.Http

open NetCpp.Lib

/-- The bytes of an ASCII text. -/
def text (s : String) : Bytes := s.toList.map fun c => c.toNat.toUInt8

/-- `std::to_string`. -/
def decimal (n : Nat) : Bytes := (Nat.toDigits 10 n).map fun c => c.toNat.toUInt8

/-! ## §1 — versions and methods. -/

inductive Version
  | ext | http10 | http11 | http20 | unknown
deriving DecidableEq, Repr

def Version.toStringView : Version → Bytes
  | .ext => text "EXT"
  | .http10 => text "HTTP/1.0"
  | .http11 => text "HTTP/1.1"
  | .http20 => text "HTTP/2.0"
  | .unknown => text "Unknown"

inductive Method
  | ext | get | post | put | delete | head | options | trace | connect | unknown
deriving DecidableEq, Repr

/-- `HTTP_METHOD_STR`, in the order of the enumeration. -/
def HTTP_METHOD_STR : List (Bytes × Method) :=
  [(text "EXT", .ext), (text "GET", .get), (text "POST", .post), (text "PUT", .put),
    (text "DELETE", .delete), (text "HEAD", .head), (text "OPTIONS", .options), (text "TRACE", .trace),
    (text "CONNECT", .connect)]

def Method.fromStringView (str : Bytes) : Method := (HTTP_METHOD_STR.lookup str).getD .unknown

def Method.toStringView (m : Method) : Bytes :=
  ((HTTP_METHOD_STR.find? fun e => e.2 = m).map Prod.fst).getD (text "Unknown")

/-- A method of the table is read back from its own text; every other token is `UNKNOWN`. -/
theorem Method.fromStringView_toStringView (m : Method) : fromStringView m.toStringView = m := by
  cases m <;> decide

/-! ## §2 — status codes. -/

abbrev Status := UInt16

namespace Status

def ok : Status := 200
def noContent : Status := 204
def movedPermanently : Status := 301
def notModified : Status := 304
def notFound : Status := 404
def internalServerError : Status := 500
def unknown : Status := 0xffff

/-- The codes `to_index` has a case for, in the order of their indices. -/
def declared : List Status :=
  [100, 101, 200, 201, 202, 203, 204, 205, 206, 300, 301, 302, 303, 304, 305, 307, 308, 400, 401, 402, 403,
    404, 405, 406, 407, 408, 409, 410, 411, 412, 413, 414, 415, 416, 417, 421, 422, 426, 500, 501, 502, 503,
    504, 505]

end Status

def HTTP_STATUS_STR : List Bytes :=
  ["100", "101", "200", "201", "202", "203", "204", "205", "206", "300", "301", "302", "303", "304", "305",
    "307", "308", "400", "401", "402", "403", "404", "405", "406", "407", "408", "409", "410", "411", "412",
    "413", "414", "415", "416", "417", "421", "422", "426", "500", "501", "502", "503", "504", "505",
    "UNKNOWN"].map text

def HTTP_REASON_PHRASES : List Bytes :=
  ["Continue", "Switching Protocols", "OK", "Created", "Accepted", "Non-Authoritative Information",
    "No Content", "Reset Content", "Partial Content", "Multiple Choices", "Moved Permanently", "Found",
    "See Other", "Not Modified", "Use Proxy", "Temporary Redirect", "Permanent Redirect", "Bad Request",
    "Unauthorized", "Payment Required", "Forbidden", "Not Found", "Method Not Allowed", "Not Acceptable",
    "Proxy Authentication Required", "Request Timeout", "Conflict", "Gone", "Length Required",
    "Precondition Failed", "Payload Too Large", "URI Too Long", "Unsupported Media Type",
    "Range Not Satisfiable", "Expectation Failed", "Misdirected Request", "Unprocessable Content",
    "Upgrade Required", "Internal Server Error", "Not Implemented", "Bad Gateway", "Service Unavailable",
    "Gateway Timeout", "HTTP Version Not Supported"].map text

namespace Status

/-- `to_index`: 44 for a code without a case. -/
def toIndex (s : Status) : Nat := declared.idxOf s

/-- Read entry `i` of a table. -/
def entry (table : List Bytes) (i : Nat) : Except Fault Bytes :=
  match table[i]? with
  | some str => .ok str
  | none => .error .read

def toStringView (s : Status) : Except Fault Bytes := entry HTTP_STATUS_STR s.toIndex

def toReasonPhrase (s : Status) : Except Fault Bytes := entry HTTP_REASON_PHRASES s.toIndex

/-- `from_string_view`: three digits, the first at most 5; everything else is `UNKNOWN`. -/
def fromStringView : Bytes → Status
  | [a, b, c] =>
      if a < 49 ∨ a > 53 ∨ b < 48 ∨ b > 57 ∨ c < 48 ∨ c > 57 then unknown
      else (a - 48).toUInt16 * 100 + (b - 48).toUInt16 * 10 + (c - 48).toUInt16
  | _ => unknown

/-- **A declared code is read back from its own text**, which has no space and no `CR`. -/
theorem fromStringView_toStringView {s : Status} (h : s ∈ declared) :
    ∃ str, s.toStringView = .ok str ∧ fromStringView str = s ∧ s ≠ unknown ∧ 32 ∉ str ∧ 13 ∉ str := by
  have hall : ∀ s ∈ declared, (s.toStringView.toOption.any fun str =>
      fromStringView str = s ∧ s ≠ unknown ∧ 32 ∉ str ∧ 13 ∉ str) = true := by
    rw [← List.all_eq_true]
    decide
  obtain ⟨str, hstr⟩ : ∃ str, s.toStringView = .ok str := by
    have := hall s h
    cases hs : s.toStringView with
    | ok str => exact ⟨str, rfl⟩
    | error e => rw [hs] at this; cases this
  refine ⟨str, hstr, ?_⟩
  have := hall s h
  rw [hstr] at this
  simpa [Except.toOption] using this

theorem toIndex_le (s : Status) : s.toIndex ≤ 44 := List.idxOf_le_length

theorem toIndex_lt_iff (s : Status) : s.toIndex < 44 ↔ s ∈ declared := List.idxOf_lt_length_iff

theorem entry_of_lt {table : List Bytes} {i : Nat} (h : i < table.length) : ∃ str, entry table i = .ok str := by
  refine ⟨table[i], ?_⟩
  rw [entry, List.getElem?_eq_getElem h]

/-- The status table has an entry for every value. -/
theorem exists_toStringView (s : Status) : ∃ str, s.toStringView = .ok str := by
  apply entry_of_lt
  have hlen : HTTP_STATUS_STR.length = 45 := by simp [HTTP_STATUS_STR]
  have := toIndex_le s
  omega

/-- **The table of reason phrases has no entry for an undeclared code.** -/
theorem exists_toReasonPhrase_iff (s : Status) : (∃ str, s.toReasonPhrase = .ok str) ↔ s ∈ declared := by
  have hlen : HTTP_REASON_PHRASES.length = 44 := by simp [HTTP_REASON_PHRASES]
  rw [← toIndex_lt_iff]
  constructor
  · rintro ⟨str, h⟩
    by_contra hge
    rw [toReasonPhrase, entry, List.getElem?_eq_none (by omega)] at h
    cases h
  · intro h
    exact entry_of_lt (by omega)

end Status

end NetCpp.Http
