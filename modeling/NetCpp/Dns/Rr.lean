/-
# NetCpp.Dns.Rr — resource records, without their name.

`include/xsl/net/dns/proto/rr.h`.  `RRSerializer` writes the fields of a record one after another at the front of a
span; `RR::from_bytes` copies a record off a span, and an `RR` reads the fields at offsets of its own.  Here the span
that is read is all there is, so that a byte outside it is a `Fault`.

The length that decides whether there is enough data is part of the data.  `from_bytes` reads it BEFORE it asks how long
the span is: a span of fewer than ten bytes is read behind its end.  `fromBytes_of_le` is what it does with any other.
-/
import NetCpp.Dns.Wire

namespace NetCpp.Dns

open NetCpp.Lib

/-! ## §1 — a record and its reader. -/

def rrHeaderSize : Nat := 10

def rrTypeOffset : Nat := 0

def rrClassOffset : Nat := 2

def rrTtlOffset : Nat := 4

def rrRdlengthOffset : Nat := 8

def rrRdataOffset : Nat := 10

/-- `RR`; a null pointer is an invalid record. -/
structure RR where
  data : Option Bytes
  deriving DecidableEq, Repr

/-- `from_bytes`: the record and what is left of the span. -/
def RR.fromBytes (src : Bytes) : Except Fault (RR × Bytes) :=
  (deserialize 2 src rrRdlengthOffset).bind fun (u16, _) =>
    let restLength := rrHeaderSize + (htons u16).toNat
    if restLength > src.length then .ok (⟨none⟩, src)
    else
      match readN src 0 restLength with
      | none => .error .read
      | some data => .ok (⟨some data⟩, src.drop restLength)

/-- `is_valid()` -/
def RR.isValid (rr : RR) : Bool := rr.data.isSome

section

variable (rr : RR)

/-- What is read off the data; there is none behind a null pointer. -/
def RR.load {α : Type} (read : Bytes → Except Fault α) : Except Fault α := rr.data.elim (.error .read) read

/-- `type()` -/
def RR.type : Except Fault RrType := rr.load fun data => RrType.fromBytes data rrTypeOffset

/-- `class_()` -/
def RR.class_ : Except Fault RrClass := rr.load fun data => RrClass.fromBytes data rrClassOffset

/-- `ttl()` -/
def RR.ttl : Except Fault U32 := rr.load fun data => (deserialize 4 data rrTtlOffset).map fun (u32, _) => htonl u32

/-- `rdlength()` -/
def RR.rdlength : Except Fault U16 :=
  rr.load fun data => (deserialize 2 data rrRdlengthOffset).map fun (u16, _) => htons u16

/-- `rdata()` -/
def RR.rdata : Except Fault Bytes :=
  rr.rdlength.bind fun length => rr.load fun data => (readN data rrRdataOffset length.toNat).elim (.error .read) .ok

end

/-! ## §2 — the writer. -/

namespace RRSerializer

/-- `ttl` -/
def ttl (ttl : U32) (mem : Bytes) (pos : Nat) : Except Fault (Bytes × Nat) := serialized mem pos [image 4 (htonl ttl)]

/-- `rdata`: the length, cut to 16 bits, and the data. -/
def rdata (data : Bytes) (mem : Bytes) (pos : Nat) : Except Fault (Bytes × Nat) :=
  (serialized mem pos [image 2 (htons (BitVec.ofNat 16 data.length))]).bind fun (mem, pos) =>
    (copyTo mem pos data).bind fun mem =>
      if pos + data.length ≤ mem.length then .ok (mem, pos + data.length) else .error .subspan

end RRSerializer

/-- The fields of a record. -/
structure Record where
  type : RrType
  class_ : RrClass
  ttl : U32
  rdata : Bytes
  deriving DecidableEq, Repr

/-- `RRSerializer(buf).type(..).class_(..).ttl(..).rdata(..)` -/
def Record.serialize (r : Record) (mem : Bytes) (pos : Nat) : Except Fault (Bytes × Nat) :=
  (r.type.serialized mem pos).bind fun (mem, pos) =>
  (r.class_.serialized mem pos).bind fun (mem, pos) =>
  (RRSerializer.ttl r.ttl mem pos).bind fun (mem, pos) =>
  RRSerializer.rdata r.rdata mem pos

/-- The fields that stand in front of the data. -/
def Record.head (r : Record) : Bytes :=
  beImage 2 r.type.code ++ (beImage 2 r.class_.code ++ (beImage 4 r.ttl ++ beImage 2 (BitVec.ofNat 16 r.rdata.length)))

/-- The record as it stands in memory. -/
def Record.wire (r : Record) : Bytes := r.head ++ r.rdata

/-! ## §3 — what is written. -/

@[simp] theorem Record.length_head (r : Record) : r.head.length = rrHeaderSize := by
  simp [head, rrHeaderSize]

theorem Record.length_wire (r : Record) : r.wire.length = rrHeaderSize + r.rdata.length := by
  rw [wire, List.length_append, r.length_head]

/-- The next object of a span, behind what is `done`. -/
theorem serialized_next (pre post old done raw : Bytes) (h : (done ++ raw).length ≤ old.length) :
    serialized (pre ++ done ++ old.drop done.length ++ post) (pre ++ done).length [raw] =
      .ok (pre ++ (done ++ raw) ++ old.drop (done ++ raw).length ++ post, (pre ++ (done ++ raw)).length) := by
  rw [List.length_append] at h
  have hroom : raw.length ≤ (old.drop done.length).length := by
    rw [List.length_drop]
    omega
  have hlen : ((old.drop done.length).take raw.length).length = ([raw] : List Bytes).flatten.length := by
    rw [List.length_take_of_le hroom, List.flatten_singleton]
  have hcut : pre ++ done ++ old.drop done.length ++ post =
      pre ++ done ++ (old.drop done.length).take raw.length ++ ((old.drop done.length).drop raw.length ++ post) := by
    rw [List.append_assoc (pre ++ done), List.append_assoc (pre ++ done), ← List.append_assoc (List.take _ _),
      List.take_append_drop]
  rw [hcut, serialized_eq _ _ hlen, List.flatten_singleton, List.drop_drop, ← List.length_append]
  simp [Nat.add_assoc]

/-- **What the writer leaves**: the record, over whatever the memory held, and nothing else. -/
theorem Record.serialize_eq (r : Record) (pre post : Bytes) {old : Bytes} (hold : old.length = r.wire.length) :
    r.serialize (pre ++ old ++ post) pre.length = .ok (pre ++ r.wire ++ post, pre.length + r.wire.length) := by
  rw [r.length_wire, rrHeaderSize] at hold
  -- each field behind the fields before
  have h₁ := serialized_next pre post old [] (beImage 2 r.type.code) (by simp; omega)
  have h₂ := serialized_next pre post old _ (beImage 2 r.class_.code)
    (show (([] ++ beImage 2 r.type.code) ++ beImage 2 r.class_.code).length ≤ old.length by simp; omega)
  have h₃ := serialized_next pre post old _ (beImage 4 r.ttl)
    (show (([] ++ beImage 2 r.type.code ++ beImage 2 r.class_.code) ++ beImage 4 r.ttl).length ≤ old.length by
      simp; omega)
  have h₄ := serialized_next pre post old _ (beImage 2 (BitVec.ofNat 16 r.rdata.length))
    (show (([] ++ beImage 2 r.type.code ++ beImage 2 r.class_.code ++ beImage 4 r.ttl) ++
      beImage 2 (BitVec.ofNat 16 r.rdata.length)).length ≤ old.length by simp; omega)
  rw [List.append_nil, List.length_nil, List.drop_zero] at h₁
  have hhead : [] ++ beImage 2 r.type.code ++ beImage 2 r.class_.code ++ beImage 4 r.ttl ++
      beImage 2 (BitVec.ofNat 16 r.rdata.length) = r.head := by
    simp [head]
  rw [hhead, r.length_head] at h₄
  have hrest : (old.drop rrHeaderSize).length = r.rdata.length := by
    rw [List.length_drop, hold, rrHeaderSize]
    omega
  have h₅ := copyTo_front (pre ++ r.head) post hrest.ge
  rw [List.drop_of_length_le hrest.le, List.append_nil] at h₅
  have hfits : (pre ++ r.head).length + r.rdata.length ≤ (pre ++ r.head ++ r.rdata ++ post).length := by
    simp only [List.length_append]
    omega
  rw [serialize, RrType.serialized, image_htons, h₁]
  simp only [Except.bind, RrClass.serialized, image_htons, h₂, RRSerializer.ttl, image_htonl, h₃, RRSerializer.rdata, h₄,
    h₅, if_pos hfits]
  rw [wire, List.length_append, List.length_append, Nat.add_assoc, List.append_assoc pre]

/-! ## §4 — what is read. -/

/-- The `RDLENGTH` of a span. -/
def rdlengthOf (src : Bytes) : Nat := (htons (value 2 ((src.drop rrRdlengthOffset).take 2))).toNat

/-- **A span is too short** for the record at its front. -/
def Truncated (src : Bytes) : Prop := src.length < rrHeaderSize ∨ src.length < rrHeaderSize + rdlengthOf src

/-- **`from_bytes`** on a span that holds at least the fields in front of the data. -/
theorem fromBytes_of_le {src : Bytes} (h : rrHeaderSize ≤ src.length) :
    RR.fromBytes src =
      if src.length < rrHeaderSize + rdlengthOf src then .ok (⟨none⟩, src)
      else .ok (⟨some (src.take (rrHeaderSize + rdlengthOf src))⟩, src.drop (rrHeaderSize + rdlengthOf src)) := by
  have hread : deserialize 2 ([] ++ src ++ []) (([] : Bytes).length + rrRdlengthOffset) = _ := deserialize_field [] [] h
  rw [List.nil_append, List.append_nil, List.length_nil, Nat.zero_add] at hread
  rw [RR.fromBytes, hread]
  simp only [Except.bind]
  rw [← rdlengthOf]
  by_cases hshort : src.length < rrHeaderSize + rdlengthOf src
  · rw [if_pos hshort, if_pos hshort]
  · rw [if_neg hshort, if_neg hshort, readN, if_pos (by omega), List.drop_zero]

/-- A shorter span is read behind its end. -/
theorem fromBytes_of_lt {src : Bytes} (h : src.length < rrHeaderSize) : RR.fromBytes src = .error .read := by
  have hread : readN src rrRdlengthOffset 2 = none := if_neg (Nat.not_le.mpr h)
  rw [RR.fromBytes, deserialize, hread]
  rfl

/-- The fields an `RR` reads off the data it holds. -/
structure Shows (rr : RR) (r : Record) : Prop where
  valid : rr.isValid = true
  type : rr.type = .ok r.type
  class_ : rr.class_ = .ok r.class_
  ttl : rr.ttl = .ok r.ttl
  rdata : rr.rdata = .ok r.rdata

/-- A field between others. -/
theorem deserialize_between (front back : Bytes) {raw : Bytes} {n : Nat} (hraw : raw.length = n) :
    deserialize n (front ++ (raw ++ back)) front.length = .ok (value n raw, n) := by
  have hfits : front.length + n ≤ (front ++ (raw ++ back)).length := by
    rw [List.length_append, List.length_append]
    omega
  rw [deserialize, readN, if_pos hfits, List.drop_left, ← hraw, List.take_left]

/-- The length in the head of a record that is not too long for it. -/
theorem Record.rdlength_toNat (r : Record) (h : r.rdata.length < 2 ^ 16) :
    (BitVec.ofNat 16 r.rdata.length).toNat = r.rdata.length := by
  rw [BitVec.toNat_ofNat]
  exact Nat.mod_eq_of_lt h

/-- The `RDLENGTH` of a record with any bytes behind it. -/
theorem Record.deserialize_rdlength (r : Record) (more : Bytes) :
    deserialize 2 (r.wire ++ more) rrRdlengthOffset = .ok (value 2 (beImage 2 (BitVec.ofNat 16 r.rdata.length)), 2) := by
  have hread := deserialize_between (beImage 2 r.type.code ++ (beImage 2 r.class_.code ++ beImage 4 r.ttl))
    (r.rdata ++ more) (length_beImage 2 (BitVec.ofNat 16 r.rdata.length))
  simpa [wire, head, rrRdlengthOffset] using hread

theorem Record.shows (r : Record) (h : r.rdata.length < 2 ^ 16) : Shows ⟨some r.wire⟩ r := by
  have htype := deserialize_between [] (beImage 2 r.class_.code ++ (beImage 4 r.ttl ++
    (beImage 2 (BitVec.ofNat 16 r.rdata.length) ++ r.rdata))) (length_beImage 2 r.type.code)
  have hclass := deserialize_between (beImage 2 r.type.code) (beImage 4 r.ttl ++
    (beImage 2 (BitVec.ofNat 16 r.rdata.length) ++ r.rdata)) (length_beImage 2 r.class_.code)
  have httl := deserialize_between (beImage 2 r.type.code ++ beImage 2 r.class_.code)
    (beImage 2 (BitVec.ofNat 16 r.rdata.length) ++ r.rdata) (length_beImage 4 r.ttl)
  have hlength := r.deserialize_rdlength []
  rw [List.append_nil] at hlength
  have hrdata : readN r.wire rrRdataOffset r.rdata.length = some r.rdata := by
    have hfits : rrRdataOffset + r.rdata.length ≤ r.wire.length := r.length_wire.ge
    rw [readN, if_pos hfits, wire, List.drop_left' (by rw [length_head]; rfl), List.take_length]
  constructor
  · rfl
  · have hread : deserialize 2 r.wire rrTypeOffset = .ok (value 2 (beImage 2 r.type.code), 2) := by
      simpa [wire, head, rrTypeOffset] using htype
    simp only [RR.type, RR.load, Option.elim, RrType.fromBytes, codeFromBytes, hread, Except.map, htons_value_beImage]
  · have hread : deserialize 2 r.wire rrClassOffset = .ok (value 2 (beImage 2 r.class_.code), 2) := by
      simpa [wire, head, rrClassOffset] using hclass
    simp only [RR.class_, RR.load, Option.elim, RrClass.fromBytes, codeFromBytes, hread, Except.map, htons_value_beImage]
  · have hread : deserialize 4 r.wire rrTtlOffset = .ok (value 4 (beImage 4 r.ttl), 4) := by
      simpa [wire, head, rrTtlOffset] using httl
    simp only [RR.ttl, RR.load, Option.elim, hread, Except.map, htonl_value_beImage]
  · simp only [RR.rdata, RR.rdlength, RR.load, Option.elim, hlength, Except.map, Except.bind, htons_value_beImage,
      r.rdlength_toNat h, hrdata]

/-! ## §5 — the round trip, and truncation. -/

/-- A record is written as bytes from which it is read again, and those behind it are left. -/
def RecordRoundTrips (r : Record) : Prop :=
  ∀ pre old post more : Bytes, old.length = rrHeaderSize + r.rdata.length →
    ∃ bytes rr, r.serialize (pre ++ old ++ post) pre.length = .ok (pre ++ bytes ++ post, pre.length + bytes.length) ∧
      RR.fromBytes (bytes ++ more) = .ok (rr, more) ∧ Shows rr r

/-- Only the span is read, and an invalid record with the span as it was comes of a span that is too short, and of no
other. -/
def DetectsTruncation (src : Bytes) : Prop :=
  ∃ rr rest, RR.fromBytes src = .ok (rr, rest) ∧ (rr.isValid = false ∧ rest = src ↔ Truncated src)

theorem Record.round_trips (r : Record) (h : r.rdata.length < 2 ^ 16) : RecordRoundTrips r := by
  intro pre old post more hold
  refine ⟨r.wire, ⟨some r.wire⟩, r.serialize_eq pre post (hold.trans r.length_wire.symm), ?_, r.shows h⟩
  have hlen : rrHeaderSize + rdlengthOf (r.wire ++ more) = r.wire.length := by
    have hread := r.deserialize_rdlength more
    rw [deserialize, readN] at hread
    rw [if_pos (by rw [List.length_append, r.length_wire]; exact Nat.le_add_right_of_le (Nat.le_add_right 10 _))] at hread
    have hvalue := (Prod.mk.inj (Except.ok.inj hread)).1
    rw [rdlengthOf, hvalue, htons_value_beImage, r.rdlength_toNat h, r.length_wire]
  have hten : rrHeaderSize ≤ (r.wire ++ more).length := by
    rw [List.length_append, r.length_wire]
    omega
  rw [fromBytes_of_le hten, hlen, if_neg (by rw [List.length_append]; omega), List.take_left, List.drop_left]

/-- **Truncation is detected exactly in spans of at least ten bytes.** -/
theorem detectsTruncation_iff (src : Bytes) : DetectsTruncation src ↔ rrHeaderSize ≤ src.length := by
  constructor
  · rintro ⟨rr, rest, hread, -⟩
    by_contra hshort
    rw [fromBytes_of_lt (Nat.lt_of_not_le hshort)] at hread
    cases hread
  · intro hle
    have hread := fromBytes_of_le hle
    have htrunc : Truncated src ↔ src.length < rrHeaderSize + rdlengthOf src := by
      rw [Truncated]
      omega
    by_cases hshort : src.length < rrHeaderSize + rdlengthOf src
    · rw [if_pos hshort] at hread
      exact ⟨_, _, hread, by simp [RR.isValid, htrunc, hshort]⟩
    · rw [if_neg hshort] at hread
      exact ⟨_, _, hread, by simp [RR.isValid, htrunc, hshort]⟩

/-- **Records round-trip**, and the reader keeps to its span when that has ten bytes. -/
theorem record_codec_iff (r : Record) (h : r.rdata.length ≤ 65535) (src : Bytes) :
    RecordRoundTrips r ∧ DetectsTruncation src ↔ rrHeaderSize ≤ src.length := by
  constructor
  · rintro ⟨-, hdetects⟩
    exact (detectsTruncation_iff src).mp hdetects
  · intro hle
    exact ⟨r.round_trips (Nat.lt_succ_of_le h), (detectsTruncation_iff src).mpr hle⟩

/-- An address, and a span that ends in the middle of one. -/
theorem record_codec_address : RecordRoundTrips ⟨⟨1⟩, ⟨1⟩, 300, [127, 0, 0, 1]⟩ ∧
    DetectsTruncation [0, 1, 0, 1, 0, 0, 1, 44, 0, 4, 127, 0] :=
  (record_codec_iff _ (by decide) _).mpr (by decide)

/-- **Three bytes**: the length is read behind them. -/
theorem truncation_read_behind_the_span :
    ¬ ∀ (r : Record) (src : Bytes), r.rdata.length ≤ 65535 → RecordRoundTrips r ∧ DetectsTruncation src := by
  intro h
  obtain ⟨-, rr, rest, hread, -⟩ := h ⟨⟨1⟩, ⟨1⟩, 0, []⟩ [0, 1, 0] (by decide)
  rw [fromBytes_of_lt (by decide)] at hread
  cases hread

end NetCpp.Dns
