/-
# NetCpp.Dns.Wire — fixed-size fields of a message.

`include/xsl/ser.h` and `include/xsl/net/dns/proto/def.h`, on a little-endian host.  `serialize` copies the bytes of an
object to a place in memory, `deserialize` copies them back; the versions with a `d` do so at the front of a span and
cut what they have used off it.  A span here begins at an offset and reaches to the end of the memory.  As in
`NetCpp.Dns.Decompress`, what lies outside the memory is a `Fault`.

The order of the network is high byte first: `htons` and `htonl` swap, and `beImage_eq` says what then stands in memory.
-/
import NetCpp.Dns.Compress
import NetCpp.Lib.Endian

namespace NetCpp.Dns

open NetCpp.Lib

/-- `std::uint16_t` -/
abbrev U16 := BitVec 16

/-- `std::uint32_t` -/
abbrev U32 := BitVec 32

/-- `htons`, and `ntohs` -/
def htons (x : U16) : U16 := swap 2 x

/-- `htonl`, and `ntohl` -/
def htonl (x : U32) : U32 := swap 4 x

/-- What the network sees of an integer. -/
def beImage (n : Nat) (x : BitVec (8 * n)) : Bytes := (image n x).reverse

/-! ## §1 — `xsl::serialize` and `xsl::deserialize`. -/

/-- `serialize_all` on the images of its arguments: the memory afterwards and the size. -/
def serializeAll (mem : Bytes) (pos : Nat) : List Bytes → Except Fault (Bytes × Nat)
  | [] => .ok (mem, 0)
  | raw :: raws =>
      (copyTo mem pos raw).bind fun mem =>
        (serializeAll mem (pos + raw.length) raws).map fun (mem, size) => (mem, raw.length + size)

/-- `serialized`: the memory afterwards and where the span then begins. -/
def serialized (mem : Bytes) (pos : Nat) (raws : List Bytes) : Except Fault (Bytes × Nat) :=
  (serializeAll mem pos raws).bind fun (mem, size) =>
    if pos + size ≤ mem.length then .ok (mem, pos + size) else .error .subspan

/-- `deserialize` for an integer of `n` bytes: its value and its size. -/
def deserialize (n : Nat) (mem : Bytes) (pos : Nat) : Except Fault (BitVec (8 * n) × Nat) :=
  match readN mem pos n with
  | none => .error .read
  | some bs => .ok (value n bs, n)

/-! ## §2 — `Type` and `Class`, codes of two bytes. -/

/-- `Type`; every code is a value of the enumeration. -/
structure RrType where
  code : U16
  deriving DecidableEq, Repr

/-- `Class` -/
structure RrClass where
  code : U16
  deriving DecidableEq, Repr

/-- The code that `from_bytes` reads. -/
def codeFromBytes (mem : Bytes) (pos : Nat) : Except Fault U16 :=
  (deserialize 2 mem pos).map fun (u16, _) => htons u16

def RrType.fromBytes (mem : Bytes) (pos : Nat) : Except Fault RrType := (codeFromBytes mem pos).map .mk

def RrClass.fromBytes (mem : Bytes) (pos : Nat) : Except Fault RrClass := (codeFromBytes mem pos).map .mk

def RrType.serialized (t : RrType) (mem : Bytes) (pos : Nat) : Except Fault (Bytes × Nat) :=
  Dns.serialized mem pos [image 2 (htons t.code)]

def RrClass.serialized (c : RrClass) (mem : Bytes) (pos : Nat) : Except Fault (Bytes × Nat) :=
  Dns.serialized mem pos [image 2 (htons c.code)]

/-! ## §3 — fields in the middle of memory. -/

variable (pre post : Bytes) {old mid raw : Bytes} {raws : List Bytes} {n i : Nat}

@[simp] theorem length_beImage (n : Nat) (x : BitVec (8 * n)) : (beImage n x).length = n := by
  rw [beImage, List.length_reverse, length_image]

/-- What stands in memory of a swapped integer. -/
theorem image_htons (x : U16) : image 2 (htons x) = beImage 2 x := image_swap 2 x

theorem image_htonl (x : U32) : image 4 (htonl x) = beImage 4 x := image_swap 4 x

theorem htons_value_beImage (x : U16) : htons (value 2 (beImage 2 x)) = x := swap_swap 2 x

theorem htonl_value_beImage (x : U32) : htonl (value 4 (beImage 4 x)) = x := swap_swap 4 x

/-- Two bytes, read and written in the order of the network. -/
theorem beImage_htons_value (h : raw.length = 2) : beImage 2 (htons (value 2 raw)) = raw := by
  rw [beImage, htons, image_swap, List.reverse_reverse, image_value h]

/-- A field is overwritten. -/
theorem copyTo_field (h : i + raw.length ≤ mid.length) :
    copyTo (pre ++ mid ++ post) (pre.length + i) raw =
      .ok (pre ++ (mid.take i ++ raw ++ mid.drop (i + raw.length)) ++ post) := by
  have hfits : pre.length + i + raw.length ≤ (pre ++ mid ++ post).length := by
    rw [List.length_append, List.length_append]
    omega
  rw [copyTo, if_pos hfits, List.append_assoc pre mid post, Nat.add_assoc, List.take_length_add_append,
    List.drop_length_add_append, List.take_append_of_le_length (by omega), List.drop_append_of_le_length h]
  simp

/-- Bytes are overwritten from the front on. -/
theorem copyTo_front (h : raw.length ≤ old.length) :
    copyTo (pre ++ old ++ post) pre.length raw = .ok (pre ++ raw ++ old.drop raw.length ++ post) := by
  have hfits : pre.length + raw.length ≤ (pre ++ old ++ post).length := by
    rw [List.length_append, List.length_append]
    omega
  rw [copyTo, if_pos hfits, List.append_assoc pre old post, List.take_left, List.drop_length_add_append,
    List.drop_append_of_le_length h]
  simp

/-- **Objects one behind the other.** -/
theorem serializeAll_eq (h : old.length = raws.flatten.length) :
    serializeAll (pre ++ old ++ post) pre.length raws = .ok (pre ++ raws.flatten ++ post, raws.flatten.length) := by
  induction raws generalizing pre old with
  | nil =>
    rw [List.flatten_nil, List.length_nil, List.length_eq_zero_iff] at h
    rw [h]
    rfl
  | cons raw raws ih =>
    rw [List.flatten_cons, List.length_append] at h
    have hcopy := copyTo_front pre post (show raw.length ≤ old.length by omega)
    have hdrop : (old.drop raw.length).length = raws.flatten.length := by
      rw [List.length_drop]
      omega
    have hrest := ih (pre ++ raw) hdrop
    rw [List.length_append] at hrest
    rw [serializeAll, hcopy, Except.bind, hrest, Except.map, List.flatten_cons, List.length_append]
    simp

theorem serialized_eq (h : old.length = raws.flatten.length) :
    serialized (pre ++ old ++ post) pre.length raws =
      .ok (pre ++ raws.flatten ++ post, pre.length + raws.flatten.length) := by
  have hfits : pre.length + raws.flatten.length ≤ (pre ++ raws.flatten ++ post).length := by
    rw [List.length_append, List.length_append]
    omega
  rw [serialized, serializeAll_eq pre post h]
  simp only [Except.bind, if_pos hfits]

/-- A field is read. -/
theorem deserialize_field (h : i + n ≤ mid.length) :
    deserialize n (pre ++ mid ++ post) (pre.length + i) = .ok (value n ((mid.drop i).take n), n) := by
  have hfits : pre.length + i + n ≤ (pre ++ mid ++ post).length := by
    rw [List.length_append, List.length_append]
    omega
  have hread : readN (pre ++ mid ++ post) (pre.length + i) n = some ((mid.drop i).take n) := by
    rw [readN, if_pos hfits, List.append_assoc pre mid post, List.drop_length_add_append, List.drop_append_of_le_length (by omega),
      List.take_append_of_le_length (by rw [List.length_drop]; omega)]
  rw [deserialize, hread]

end NetCpp.Dns
