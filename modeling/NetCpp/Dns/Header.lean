/-
# NetCpp.Dns.Header — the header of a message, and its edits in place.

`include/xsl/net/dns/proto/header.h`.  Twelve bytes: `id`, the flags, four counts.  The flags are ten bit-fields that
one list of shifts takes apart and another puts together; both overloads of `serialize` write them as a number, and the
overloads of `deserialize` read them on different ways.  `id` is never swapped: it has the order of the host.

`Header.wire` is the header as it stands in memory, `Header.ofWire` the header that any twelve bytes are, and the two
are inverse to one another.  An edit of `HeaderView` is then the edit of some bytes and of the fields that stand there.
-/
import NetCpp.Dns.Wire

namespace NetCpp.Dns

open NetCpp.Lib

/-! ## §1 — the flags. -/

/-- `Flags`, with the widths of its bit-fields. -/
structure Flags where
  qr : BitVec 1
  opcode : BitVec 4
  aa : BitVec 1
  tc : BitVec 1
  rd : BitVec 1
  ra : BitVec 1
  z : BitVec 1
  ad : BitVec 1
  cd : BitVec 1
  rcode : BitVec 4
  deriving DecidableEq, Repr

/-- `Flags(std::uint16_t)` -/
def Flags.ofU16 (u16 : U16) : Flags where
  qr := (u16 >>> 15 &&& 0x1).setWidth 1
  opcode := (u16 >>> 11 &&& 0xf).setWidth 4
  aa := (u16 >>> 10 &&& 0x1).setWidth 1
  tc := (u16 >>> 9 &&& 0x1).setWidth 1
  rd := (u16 >>> 8 &&& 0x1).setWidth 1
  ra := (u16 >>> 7 &&& 0x1).setWidth 1
  z := (u16 >>> 6 &&& 0x1).setWidth 1
  ad := (u16 >>> 5 &&& 0x1).setWidth 1
  cd := (u16 >>> 4 &&& 0x1).setWidth 1
  rcode := (u16 &&& 0xf).setWidth 4

/-- `to_u16()` -/
def Flags.toU16 (f : Flags) : U16 :=
  f.qr.setWidth 16 <<< 15 ||| f.opcode.setWidth 16 <<< 11 ||| f.aa.setWidth 16 <<< 10 ||| f.tc.setWidth 16 <<< 9 |||
    f.rd.setWidth 16 <<< 8 ||| f.ra.setWidth 16 <<< 7 ||| f.z.setWidth 16 <<< 6 ||| f.ad.setWidth 16 <<< 5 |||
    f.cd.setWidth 16 <<< 4 ||| f.rcode.setWidth 16

/-- `Flags::deserialize` -/
def Flags.deserialize (mem : Bytes) (pos : Nat) : Except Fault (Flags × Nat) :=
  (Dns.deserialize 2 mem pos).map fun (u16, _) => (Flags.ofU16 (htons u16), 2)

/-- Bit by bit, what the number of flags is. -/
theorem Flags.getLsbD_toU16 (f : Flags) (i : Nat) :
    f.toU16.getLsbD i = (decide (i < 16) && (f.qr.getLsbD (i - 15) && decide (15 ≤ i) ||
      f.opcode.getLsbD (i - 11) && decide (11 ≤ i) || f.aa.getLsbD (i - 10) && decide (10 ≤ i) ||
      f.tc.getLsbD (i - 9) && decide (9 ≤ i) || f.rd.getLsbD (i - 8) && decide (8 ≤ i) ||
      f.ra.getLsbD (i - 7) && decide (7 ≤ i) || f.z.getLsbD (i - 6) && decide (6 ≤ i) ||
      f.ad.getLsbD (i - 5) && decide (5 ≤ i) || f.cd.getLsbD (i - 4) && decide (4 ≤ i) || f.rcode.getLsbD i)) := by
  simp only [toU16, BitVec.getLsbD_or, BitVec.getLsbD_shiftLeft, BitVec.getLsbD_setWidth]
  by_cases hi : i < 16
  · interval_cases i <;> simp
  · simp [hi]

theorem Flags.toU16_ofU16 (u16 : U16) : (ofU16 u16).toU16 = u16 := by
  apply BitVec.eq_of_getLsbD_eq
  intro i hi
  rw [getLsbD_toU16]
  simp only [ofU16, BitVec.getLsbD_setWidth, BitVec.getLsbD_and, BitVec.getLsbD_ushiftRight]
  interval_cases i <;> simp

theorem Flags.ofU16_toU16 (f : Flags) : ofU16 f.toU16 = f := by
  cases f
  simp only [ofU16, Flags.mk.injEq]
  refine ⟨?_, ?_, ?_, ?_, ?_, ?_, ?_, ?_, ?_, ?_⟩ <;>
  · apply BitVec.eq_of_getLsbD_eq
    intro i hi
    simp only [BitVec.getLsbD_setWidth, BitVec.getLsbD_and, BitVec.getLsbD_ushiftRight, getLsbD_toU16]
    interval_cases i <;> simp

/-! ## §2 — the header. -/

/-- `Header` -/
structure Header where
  id : U16
  flags : Flags
  qdcount : U16
  ancount : U16
  nscount : U16
  arcount : U16
  deriving DecidableEq, Repr

/-- The arguments that both overloads of `serialize` hand on. -/
def Header.raws (h : Header) : List Bytes :=
  [image 2 h.id, image 2 (htons h.flags.toU16), image 2 (htons h.qdcount), image 2 (htons h.ancount),
    image 2 (htons h.nscount), image 2 (htons h.arcount)]

/-- `serialize(std::span<byte> &)` -/
def Header.serializeSpan (h : Header) (mem : Bytes) (pos : Nat) : Except Fault (Bytes × Nat) := serialized mem pos h.raws

/-- `serialize(byte *)` -/
def Header.serializePtr (h : Header) (mem : Bytes) (pos : Nat) : Except Fault (Bytes × Nat) := serializeAll mem pos h.raws

/-- `deserialize(std::span<const byte> &)`: the flags are read by their own `deserialize`. -/
def Header.deserializeSpan (mem : Bytes) (pos : Nat) : Except Fault (Header × Nat) :=
  (deserialize 2 mem pos).bind fun (id, n₁) =>
  (Flags.deserialize mem (pos + n₁)).bind fun (flags, n₂) =>
  (deserialize 2 mem (pos + (n₁ + n₂))).bind fun (qdcount, n₃) =>
  (deserialize 2 mem (pos + (n₁ + n₂ + n₃))).bind fun (ancount, n₄) =>
  (deserialize 2 mem (pos + (n₁ + n₂ + n₃ + n₄))).bind fun (nscount, n₅) =>
  (deserialize 2 mem (pos + (n₁ + n₂ + n₃ + n₄ + n₅))).bind fun (arcount, n₆) =>
  let size := n₁ + n₂ + n₃ + n₄ + n₅ + n₆
  if pos + size ≤ mem.length then
    .ok (⟨id, flags, htons qdcount, htons ancount, htons nscount, htons arcount⟩, pos + size)
  else .error .subspan

/-- `deserialize(const byte *)`: the flags are read as a number. -/
def Header.deserializePtr (mem : Bytes) (pos : Nat) : Except Fault (Header × Nat) :=
  (deserialize 2 mem pos).bind fun (id, n₁) =>
  (deserialize 2 mem (pos + n₁)).bind fun (u16, n₂) =>
  (deserialize 2 mem (pos + (n₁ + n₂))).bind fun (qdcount, n₃) =>
  (deserialize 2 mem (pos + (n₁ + n₂ + n₃))).bind fun (ancount, n₄) =>
  (deserialize 2 mem (pos + (n₁ + n₂ + n₃ + n₄))).bind fun (nscount, n₅) =>
  (deserialize 2 mem (pos + (n₁ + n₂ + n₃ + n₄ + n₅))).bind fun (arcount, n₆) =>
  .ok (⟨id, Flags.ofU16 (htons u16), htons qdcount, htons ancount, htons nscount, htons arcount⟩,
    n₁ + n₂ + n₃ + n₄ + n₅ + n₆)

/-! ## §3 — `HeaderView`, on the memory behind `data`. -/

namespace HeaderView

variable (mem : Bytes) (data : Nat)

def qdcount : Except Fault U16 := (deserialize 2 mem (data + 4)).map fun (count, _) => htons count

def ancount (count : U16) : Except Fault Bytes := copyTo mem (data + 6) (image 2 (htons count))

def arcount (count : U16) : Except Fault Bytes := copyTo mem (data + 10) (image 2 (htons count))

/-- The flags are read, changed and written back. -/
def editFlags (edit : Flags → Flags) : Except Fault Bytes :=
  (Flags.deserialize mem (data + 2)).bind fun (flags, _) => copyTo mem (data + 2) (image 2 (htons (edit flags).toU16))

def response : Except Fault Bytes := editFlags mem data fun flags => { flags with qr := 1 }

def basicResponse : Except Fault Bytes := editFlags mem data fun flags => { flags with qr := 1, ra := 1, ad := 0 }

end HeaderView

/-! ## §4 — twelve bytes and a header. -/

variable (pre post : Bytes) {mid old : Bytes}

/-- The header as it stands in memory. -/
def Header.wire (h : Header) : Bytes :=
  image 2 h.id ++ (beImage 2 h.flags.toU16 ++ (beImage 2 h.qdcount ++ (beImage 2 h.ancount ++
    (beImage 2 h.nscount ++ beImage 2 h.arcount))))

/-- The field of two bytes at `i`. -/
def field (mid : Bytes) (i : Nat) : Bytes := (mid.drop i).take 2

/-- The header that twelve bytes are. -/
def Header.ofWire (mid : Bytes) : Header where
  id := value 2 (field mid 0)
  flags := Flags.ofU16 (htons (value 2 (field mid 2)))
  qdcount := htons (value 2 (field mid 4))
  ancount := htons (value 2 (field mid 6))
  nscount := htons (value 2 (field mid 8))
  arcount := htons (value 2 (field mid 10))

@[simp] theorem Header.length_wire (h : Header) : h.wire.length = 12 := by
  simp [wire]

theorem Header.flatten_raws (h : Header) : h.raws.flatten = h.wire := by
  simp [raws, wire, image_htons]

/-- Two bytes in front are the field at `0`, and the others stand behind. -/
theorem field_append {raw : Bytes} (rest : Bytes) (h : raw.length = 2) (i : Nat) :
    field (raw ++ rest) 0 = raw ∧ field (raw ++ rest) (i + 2) = field rest i := by
  constructor
  · rw [field, List.drop_zero, ← h, List.take_left]
  · rw [field, Nat.add_comm, ← h, List.drop_length_add_append, h, field]

theorem length_field {i : Nat} (hmid : mid.length = 12) (hi : i ≤ 10) : (field mid i).length = 2 := by
  rw [field, List.length_take, List.length_drop]
  omega

/-- Every field of a row of fields. -/
theorem field_flatten {raws : List Bytes} (h : ∀ raw ∈ raws, raw.length = 2) :
    ∀ i raw, raws[i]? = some raw → field raws.flatten (2 * i) = raw := by
  induction raws with
  | nil =>
    intro i raw hi
    cases hi
  | cons first raws ih =>
    intro i raw hi
    have hfirst := field_append raws.flatten (h first List.mem_cons_self)
    rw [List.flatten_cons]
    cases i with
    | zero =>
      obtain rfl : first = raw := Option.some.inj hi
      exact (hfirst 0).1
    | succ i =>
      rw [Nat.mul_succ, (hfirst _).2]
      exact ih (fun raw hmem => h raw (List.mem_cons_of_mem first hmem)) i raw hi

/-- Reading what was written. -/
theorem Header.ofWire_wire (h : Header) : ofWire h.wire = h := by
  have htwo : ∀ raw ∈ h.raws, raw.length = 2 := by simp [raws]
  have hfield : ∀ i raw, h.raws[i]? = some raw → field h.wire (2 * i) = raw := by
    rw [← h.flatten_raws]
    exact field_flatten htwo
  have hid : field h.wire 0 = image 2 h.id := hfield 0 _ rfl
  have hflags : field h.wire 2 = image 2 (htons h.flags.toU16) := hfield 1 _ rfl
  have hqd : field h.wire 4 = image 2 (htons h.qdcount) := hfield 2 _ rfl
  have han : field h.wire 6 = image 2 (htons h.ancount) := hfield 3 _ rfl
  have hns : field h.wire 8 = image 2 (htons h.nscount) := hfield 4 _ rfl
  have har : field h.wire 10 = image 2 (htons h.arcount) := hfield 5 _ rfl
  rw [ofWire, hid, hflags, hqd, han, hns, har]
  simp only [image_htons, value_image, htons_value_beImage, Flags.ofU16_toU16]

/-- Writing what was read. -/
theorem Header.wire_ofWire (hmid : mid.length = 12) : (ofWire mid).wire = mid := by
  have hcut : ∀ i, mid.drop i = field mid i ++ mid.drop (i + 2) := by
    intro i
    rw [field, ← List.drop_drop, List.take_append_drop]
  have hid : image 2 (value 2 (field mid 0)) = field mid 0 := image_value (length_field hmid (by omega))
  have hbe : ∀ i ≤ 10, beImage 2 (htons (value 2 (field mid i))) = field mid i := fun i hi =>
    beImage_htons_value (length_field hmid hi)
  have hend : mid.drop 12 = [] := List.drop_eq_nil_iff.mpr hmid.le
  have hall : mid = field mid 0 ++ (field mid 2 ++ (field mid 4 ++ (field mid 6 ++ (field mid 8 ++ field mid 10)))) := by
    have h10 := hcut 10
    rw [hend, List.append_nil] at h10
    rw [← h10, ← hcut 8, ← hcut 6, ← hcut 4, ← hcut 2, ← hcut 0, List.drop_zero]
  rw [wire, ofWire, Flags.toU16_ofU16, hid, hbe 2 (by omega), hbe 4 (by omega), hbe 6 (by omega), hbe 8 (by omega),
    hbe 10 le_rfl, ← hall]

/-! ## §5 — the overloads and the edits. -/

section

variable (pre mid post : Bytes)

/-- Both overloads of `deserialize` read `h` from the bytes `mid`. -/
def ReadAs (h : Header) : Prop :=
  Header.deserializeSpan (pre ++ mid ++ post) pre.length = .ok (h, pre.length + 12) ∧
    Header.deserializePtr (pre ++ mid ++ post) pre.length = .ok (h, 12)

/-- Both overloads of `serialize` write `h` as the bytes `mid`. -/
def WrittenAs (old : Bytes) (h : Header) : Prop :=
  h.serializeSpan (pre ++ old ++ post) pre.length = .ok (pre ++ mid ++ post, pre.length + 12) ∧
    h.serializePtr (pre ++ old ++ post) pre.length = .ok (pre ++ mid ++ post, 12)

/-- An edit of a header in memory leaves the bytes `mid`, and they read as `h`. -/
def EditedTo (out : Except Fault Bytes) (h : Header) : Prop := out = .ok (pre ++ mid ++ post) ∧ ReadAs pre mid post h

end

theorem readAs_ofWire (hmid : mid.length = 12) : ReadAs pre mid post (Header.ofWire mid) := by
  have hread : ∀ i ≤ 10, deserialize 2 (pre ++ mid ++ post) (pre.length + i) = .ok (value 2 (field mid i), 2) :=
    fun i hi => deserialize_field pre post (by omega)
  have h0 := hread 0 (by omega)
  rw [Nat.add_zero] at h0
  have hfits : pre.length + (2 + 2 + 2 + 2 + 2 + 2) ≤ (pre ++ mid ++ post).length := by
    rw [List.length_append, List.length_append]
    omega
  constructor
  · simp only [Header.deserializeSpan, Flags.deserialize, h0, hread 2 (by omega), hread 4 (by omega), hread 6 (by omega),
      hread 8 (by omega), hread 10 le_rfl, Except.bind, Except.map, if_pos hfits]
    rfl
  · simp only [Header.deserializePtr, h0, hread 2 (by omega), hread 4 (by omega), hread 6 (by omega),
      hread 8 (by omega), hread 10 le_rfl, Except.bind]
    rfl

theorem ReadAs.eq_ofWire {h : Header} (hmid : mid.length = 12) (hr : ReadAs pre mid post h) : h = Header.ofWire mid := by
  have hsame := hr.1.symm.trans (readAs_ofWire pre post hmid).1
  exact (Prod.mk.inj (Except.ok.inj hsame)).1

theorem writtenAs_wire (h : Header) (hold : old.length = 12) : WrittenAs pre h.wire post old h := by
  have hraws : h.raws.flatten.length = 12 := by rw [h.flatten_raws, h.length_wire]
  have hspan := serialized_eq pre post (hold.trans hraws.symm)
  have hptr := serializeAll_eq pre post (hold.trans hraws.symm)
  rw [h.flatten_raws, h.length_wire] at hspan hptr
  exact ⟨hspan, hptr⟩

/-- The bytes `mid` with two of them overwritten. -/
def setField (mid : Bytes) (i : Nat) (raw : Bytes) : Bytes := mid.take i ++ raw ++ mid.drop (i + 2)

theorem length_setField {i : Nat} {raw : Bytes} (hmid : mid.length = 12) (hraw : raw.length = 2) (hi : i ≤ 10) :
    (setField mid i raw).length = 12 := by
  rw [setField, List.length_append, List.length_append, List.length_take, List.length_drop]
  omega

/-- **One field is the new one**, the others stay. -/
theorem field_setField {i j : Nat} {raw : Bytes} (hmid : mid.length = 12) (hraw : raw.length = 2) (hi : i ≤ 10)
    (h : j = i ∨ j + 2 ≤ i ∨ i + 2 ≤ j) : field (setField mid i raw) j = if j = i then raw else field mid j := by
  have hlen : (mid.take i).length = i := List.length_take_of_le (by omega)
  by_cases hj : j = i
  · rw [if_pos hj, hj, field, setField, List.append_assoc, List.drop_left' hlen, ← hraw, List.take_left]
  · rw [if_neg hj]
    apply List.ext_getElem?
    intro n
    rw [field, field, List.getElem?_take, List.getElem?_take]
    by_cases hn : n < 2
    · rw [if_pos hn, if_pos hn, List.getElem?_drop, List.getElem?_drop, setField]
      rcases h with h | h | h
      · exact absurd h hj
      · -- in front of the field
        rw [List.append_assoc, List.getElem?_append_left (by omega), List.getElem?_take, if_pos (by omega)]
      · -- behind it
        have hboth : (mid.take i ++ raw).length = i + 2 := by rw [List.length_append, hlen, hraw]
        rw [List.getElem?_append_right (by omega), hboth, List.getElem?_drop]
        congr 1
        omega
    · rw [if_neg hn, if_neg hn]

/-- A field of two bytes is overwritten in place. -/
theorem copyTo_beImage {i : Nat} (hmid : mid.length = 12) (hi : i ≤ 10) (x : U16) :
    copyTo (pre ++ mid ++ post) (pre.length + i) (image 2 (htons x)) =
      .ok (pre ++ setField mid i (beImage 2 x) ++ post) := by
  rw [image_htons, copyTo_field pre post (by rw [length_beImage]; omega), length_beImage, setField]

/-- The header behind an edit of one of its fields. -/
theorem ofWire_setField (hmid : mid.length = 12) (flags : Flags) (count : U16) :
    Header.ofWire (setField mid 2 (beImage 2 flags.toU16)) = { Header.ofWire mid with flags := flags } ∧
      Header.ofWire (setField mid 6 (beImage 2 count)) = { Header.ofWire mid with ancount := count } ∧
      Header.ofWire (setField mid 10 (beImage 2 count)) = { Header.ofWire mid with arcount := count } := by
  have hlen : ∀ x : U16, (beImage 2 x).length = 2 := fun x => length_beImage 2 x
  refine ⟨?_, ?_, ?_⟩
  · simp (disch := omega) [Header.ofWire, field_setField hmid (hlen _), htons_value_beImage, Flags.ofU16_toU16]
  · simp (disch := omega) [Header.ofWire, field_setField hmid (hlen _), htons_value_beImage]
  · simp (disch := omega) [Header.ofWire, field_setField hmid (hlen _), htons_value_beImage]

/-- An edit of the flags. -/
theorem editFlags_eq (edit : Flags → Flags) (hmid : mid.length = 12) :
    HeaderView.editFlags (pre ++ mid ++ post) pre.length edit =
      .ok (pre ++ setField mid 2 (beImage 2 (edit (Header.ofWire mid).flags).toU16) ++ post) := by
  have hread : deserialize 2 (pre ++ mid ++ post) (pre.length + 2) = .ok (value 2 (field mid 2), 2) :=
    deserialize_field pre post (by omega)
  simp only [HeaderView.editFlags, Flags.deserialize, hread, Except.map, Except.bind]
  exact copyTo_beImage pre post hmid (by omega) _

/-! ## §6 — which bits of the flags change. -/

/-- The flags of two bytes with some bits set and others cleared. -/
theorem beImage_edit {raw : Bytes} (hraw : raw.length = 2) (set keep : U16) :
    beImage 2 ((htons (value 2 raw) ||| set) &&& keep) =
      List.zipWith (· &&& ·) (List.zipWith (· ||| ·) raw (beImage 2 set)) (beImage 2 keep) := by
  have hsame := beImage_htons_value hraw
  rw [beImage, image_and, image_or, List.reverse_zipWith (by simp), List.reverse_zipWith (by simp), ← beImage, hsame,
    ← beImage, ← beImage]

theorem toU16_response (u16 : U16) :
    ({ Flags.ofU16 u16 with qr := 1 } : Flags).toU16 = (u16 ||| 0x8000) &&& 0xffff := by
  apply BitVec.eq_of_getLsbD_eq
  intro i hi
  rw [Flags.getLsbD_toU16]
  simp only [Flags.ofU16, BitVec.getLsbD_setWidth, BitVec.getLsbD_and, BitVec.getLsbD_or, BitVec.getLsbD_ushiftRight]
  interval_cases i <;> simp

theorem toU16_basicResponse (u16 : U16) :
    ({ Flags.ofU16 u16 with qr := 1, ra := 1, ad := 0 } : Flags).toU16 = (u16 ||| 0x8080) &&& 0xffdf := by
  apply BitVec.eq_of_getLsbD_eq
  intro i hi
  rw [Flags.getLsbD_toU16]
  simp only [Flags.ofU16, BitVec.getLsbD_setWidth, BitVec.getLsbD_and, BitVec.getLsbD_or, BitVec.getLsbD_ushiftRight]
  interval_cases i <;> simp

/-- The two bytes of the flags, each edited in its own way. -/
theorem setField_flags (f g : UInt8 → UInt8) (hmid : mid.length = 12) :
    ∃ a b, field mid 2 = [a, b] ∧ setField mid 2 [f a, g b] = (mid.modify 2 f).modify 3 g := by
  obtain ⟨x, rest, rfl⟩ := List.exists_cons_of_length_eq_add_one hmid
  obtain ⟨y, rest, rfl⟩ := List.exists_cons_of_length_eq_add_one (Nat.succ.inj hmid)
  obtain ⟨a, rest, rfl⟩ := List.exists_cons_of_length_eq_add_one (Nat.succ.inj (Nat.succ.inj hmid))
  obtain ⟨b, rest, rfl⟩ := List.exists_cons_of_length_eq_add_one (Nat.succ.inj (Nat.succ.inj (Nat.succ.inj hmid)))
  exact ⟨a, b, rfl, rfl⟩

/-- **An edit of the flags** that sets the bits of `set` and clears those not in `keep`. -/
theorem editedTo_flags (edit : Flags → Flags) {set keep : U16} (hmid : mid.length = 12)
    (hedit : ∀ u16, (edit (Flags.ofU16 u16)).toU16 = (u16 ||| set) &&& keep) {s₂ s₃ k₂ k₃ : UInt8}
    (hset : beImage 2 set = [s₂, s₃]) (hkeep : beImage 2 keep = [k₂, k₃]) :
    EditedTo pre ((mid.modify 2 fun b => (b ||| s₂) &&& k₂).modify 3 fun b => (b ||| s₃) &&& k₃) post
      (HeaderView.editFlags (pre ++ mid ++ post) pre.length edit)
      { Header.ofWire mid with flags := edit (Header.ofWire mid).flags } := by
  have hraw : (field mid 2).length = 2 := length_field hmid (by omega)
  obtain ⟨a, b, hab, hmod⟩ := setField_flags (fun b => (b ||| s₂) &&& k₂) (fun b => (b ||| s₃) &&& k₃) hmid
  have hbytes : beImage 2 (edit (Header.ofWire mid).flags).toU16 = [(a ||| s₂) &&& k₂, (b ||| s₃) &&& k₃] := by
    rw [Header.ofWire, hedit, beImage_edit hraw, hab, hset, hkeep]
    rfl
  have hwritten := editFlags_eq pre post edit hmid
  have hfields := (ofWire_setField hmid (edit (Header.ofWire mid).flags) 0).1
  rw [hbytes, hmod] at hwritten hfields
  have hlen : ((mid.modify 2 fun b => (b ||| s₂) &&& k₂).modify 3 fun b => (b ||| s₃) &&& k₃).length = 12 := by
    rw [List.length_modify, List.length_modify, hmid]
  refine ⟨hwritten, ?_⟩
  rw [← hfields]
  exact readAs_ofWire pre post hlen

/-- An edit of a count. -/
theorem editedTo_count {i : Nat} {count : U16} {h : Header} {out : Except Fault Bytes} (hmid : mid.length = 12)
    (hi : i ≤ 10) (hout : out = copyTo (pre ++ mid ++ post) (pre.length + i) (image 2 (htons count)))
    (hfields : Header.ofWire (setField mid i (beImage 2 count)) = h) :
    EditedTo pre (mid.take i ++ beImage 2 count ++ mid.drop (i + 2)) post out h := by
  refine ⟨hout.trans (copyTo_beImage pre post hmid hi count), ?_⟩
  rw [← hfields]
  exact readAs_ofWire pre post (length_setField hmid (length_beImage 2 count) hi)

/-! ## §7 — the codec. -/

/-- **Headers round-trip and are edited in place**: `h` is written over any twelve bytes `old`; `mid` are twelve bytes
that stand in memory. -/
structure HeaderCodec (pre post old mid : Bytes) (h : Header) : Prop where
  roundTrip : ∃ bytes, bytes.length = 12 ∧ WrittenAs pre bytes post old h ∧ ReadAs pre bytes post h
  back : ∃ h', ReadAs pre mid post h' ∧ WrittenAs pre mid post old h'
  qdcount : ∀ h', ReadAs pre mid post h' → HeaderView.qdcount (pre ++ mid ++ post) pre.length = .ok h'.qdcount
  response : ∀ h', ReadAs pre mid post h' →
    EditedTo pre (mid.modify 2 (· ||| 0x80)) post (HeaderView.response (pre ++ mid ++ post) pre.length)
      { h' with flags := { h'.flags with qr := 1 } }
  basicResponse : ∀ h', ReadAs pre mid post h' →
    EditedTo pre ((mid.modify 2 (· ||| 0x80)).modify 3 fun b => (b ||| 0x80) &&& 0xdf) post
      (HeaderView.basicResponse (pre ++ mid ++ post) pre.length)
      { h' with flags := { h'.flags with qr := 1, ra := 1, ad := 0 } }
  ancount : ∀ h' count, ReadAs pre mid post h' →
    EditedTo pre (mid.take 6 ++ beImage 2 count ++ mid.drop 8) post
      (HeaderView.ancount (pre ++ mid ++ post) pre.length count) { h' with ancount := count }
  arcount : ∀ h' count, ReadAs pre mid post h' →
    EditedTo pre (mid.take 10 ++ beImage 2 count ++ mid.drop 12) post
      (HeaderView.arcount (pre ++ mid ++ post) pre.length count) { h' with arcount := count }

theorem header_codec (pre post : Bytes) (h : Header) {old mid : Bytes} (hold : old.length = 12) (hmid : mid.length = 12) :
    HeaderCodec pre post old mid h := by
  have hkeep : ∀ b : UInt8, b &&& 0xff = b := fun b => UInt8.and_neg_one
  constructor
  · have hread := readAs_ofWire pre post h.length_wire
    rw [h.ofWire_wire] at hread
    exact ⟨h.wire, h.length_wire, writtenAs_wire pre post h hold, hread⟩
  · have hwritten := writtenAs_wire pre post (Header.ofWire mid) hold
    rw [Header.wire_ofWire hmid] at hwritten
    exact ⟨Header.ofWire mid, readAs_ofWire pre post hmid, hwritten⟩
  · intro h' hr
    have hread : deserialize 2 (pre ++ mid ++ post) (pre.length + 4) = .ok (value 2 (field mid 4), 2) :=
      deserialize_field pre post (by omega)
    rw [hr.eq_ofWire pre post hmid, HeaderView.qdcount, hread]
    rfl
  · intro h' hr
    rw [hr.eq_ofWire pre post hmid]
    have hedited := editedTo_flags pre post (fun flags => { flags with qr := 1 }) hmid toU16_response
      (show beImage 2 (0x8000 : U16) = [0x80, 0] by decide) (show beImage 2 (0xffff : U16) = [0xff, 0xff] by decide)
    have hid : ∀ l : Bytes, l.modify 3 (· ||| 0) = l := by
      intro l
      simp only [UInt8.or_zero]
      exact List.modify_id 3 l
    simp only [hkeep] at hedited
    rw [hid] at hedited
    exact hedited
  · intro h' hr
    rw [hr.eq_ofWire pre post hmid]
    have hedited := editedTo_flags pre post (fun flags => { flags with qr := 1, ra := 1, ad := 0 }) hmid
      toU16_basicResponse (show beImage 2 (0x8080 : U16) = [0x80, 0x80] by decide)
      (show beImage 2 (0xffdf : U16) = [0xff, 0xdf] by decide)
    simp only [hkeep] at hedited
    exact hedited
  · intro h' count hr
    rw [hr.eq_ofWire pre post hmid]
    exact editedTo_count pre post hmid (by omega) rfl (ofWire_setField hmid (Header.ofWire mid).flags count).2.1
  · intro h' count hr
    rw [hr.eq_ofWire pre post hmid]
    exact editedTo_count pre post hmid le_rfl rfl (ofWire_setField hmid (Header.ofWire mid).flags count).2.2

/-- A query of one question, between two other bytes. -/
theorem header_codec_query : HeaderCodec [1] [2] (List.replicate 12 0xff) (List.replicate 12 0xff)
    ⟨0x1234, Flags.ofU16 0x0120, 1, 0, 0, 0⟩ :=
  header_codec [1] [2] _ rfl rfl

end NetCpp.Dns
