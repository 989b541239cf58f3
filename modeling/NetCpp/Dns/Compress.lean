/-
# NetCpp.Dns.Compress — `DnCompressor`.

`src/net/dns/utils.cpp` and `include/xsl/net/dns/utils.h`.  The compressor remembers where names were
written (`dnptrs`, here as offsets from `base`, the start of the message) and encodes the longest known
suffix of a new name as a pointer.  As in `NetCpp.Dns.Decompress`, what is outside an array or outside
the message is a `Fault`, and so is a failed `assert` of a debug build.

`get_offs` follows pointers and may do so for ever: it is a `loop`, and everything above it takes a
number of passes `fuel`; `none` says that they did not suffice.

NOTE the base that `get_offs` and `match` are given: `*dnptrs`, the first RECORDED name, whereas the
pointers in the message count from `base`.
-/
import NetCpp.Dns.Decompress

namespace NetCpp.Dns

open NetCpp.Lib

/-- `a - b` on `std::size_t`. -/
def sizeSub (a b : Nat) : Nat := (a + 2 ^ 64 - b) % 2 ^ 64

theorem sizeSub_of_le {a b : Nat} (hba : b ≤ a) (ha : a < 2 ^ 64) : sizeSub a b = a - b := by
  unfold sizeSub
  omega

/-- `a[i] = b`, inside the array. -/
def store {α : Type} (a : List α) (i : Nat) (b : α) : Except Fault (List α) :=
  if i < a.length then .ok (a.set i b) else .error .write

/-! ## §1 — the state. -/

structure DnCompressor where
  /-- `_src`, empty when nothing is prepared -/
  src : Bytes
  lens : List UInt8
  dnptrs : List Nat
  suffixLen : Nat
  suffixOff : Nat
  deriving DecidableEq, Repr

/-- The capacity of `dnptrs`. -/
def dnptrsMax : Nat := 20

def DnCompressor.init : DnCompressor := ⟨[], List.replicate 127 0, [], 0, 0⟩

/-- `reset()`. -/
def DnCompressor.reset (c : DnCompressor) : DnCompressor :=
  { c with src := [], suffixLen := 0, suffixOff := 0 }

/-! ## §2 — `prepare`. -/

/-- `get_label_lens`, `cur` bytes into the label number `cnt`: the table and the number of labels, `0`
for a label that is too long. -/
def getLabelLens (lens : List UInt8) (cnt cur : Nat) : Bytes → Except Fault (List UInt8 × Nat)
  | [] =>
      if cur > labelLimit then .ok (lens, 0)
      else (store lens cnt (UInt8.ofNat cur)).map fun lens => (lens, cnt + 1)
  | b :: dn =>
      if b = 46 then
        if cur > labelLimit then .ok (lens, 0)
        else (store lens cnt (UInt8.ofNat cur)).bind fun lens => getLabelLens lens (cnt + 1) 0 dn
      else getLabelLens lens cnt (cur + 1) dn

/-- The capacity of the local `offs`. -/
def offsMax : Nat := 128

/-- The conversion to `short`, the type of the entries of `offs`: 32768 becomes -32768. -/
def short (n : Int) : Int := n.bmod (2 ^ 16)

theorem short_of_lt {n : Int} (h0 : 0 ≤ n) (hn : n < 2 ^ 15) : short n = n := by
  have hm : n % (2 ^ 16 : Int) = n := Int.emod_eq_of_lt h0 (by omega)
  simp only [short, Int.bmod, Nat.cast_pow, Nat.cast_ofNat, hm]
  rw [if_pos (by omega)]

/-- One pass of `get_offs`: the offsets from `base` of the labels found so far, each as a `short`.  The result is
empty for an invalid pointer as well as for a name without labels. -/
def getOffsBody (mem : Bytes) (debug : Bool) (base : Nat) (s : Nat × List Int) :
    Next (Nat × List Int) (Except Fault (List Int)) :=
  match mem[s.1]? with
  | none => .stop (.error .read)
  | some b =>
      if high b ≠ 0 then
        if high b ≠ 0xc0 then .stop (.ok [])
        else
          match follow mem s.1 b with
          | .error f => .stop (.error f)
          | .ok off => .go (base + off, s.2)
      else if b = 0 then .stop (.ok s.2)
      else if debug && decide (0x4000 ≤ (s.1 : Int) - base) then .stop (.error .assertion)
      else if s.2.length < offsMax then .go (s.1 + b.toNat + 1, s.2 ++ [short (s.1 - base)])
      else .stop (.error .write)

/-- `match`, with `nlen` labels of the name and `noff` labels of the recorded name still to compare,
`stop` the end of the text still to compare: the matched length and the offset of the first label
matched.  An offset may be negative; in front of the message nothing is read. -/
def matchGo (mem : Bytes) (base : Nat) (src : Bytes) (lens : List UInt8) (offs : List Int) :
    (nlen noff stop m : Nat) → (offset : Int) → Except Fault (Nat × Int)
  | nlen + 1, noff + 1, stop, m, offset =>
      match lens[nlen]?, offs[noff]? with
      | some len, some off =>
          if stop < len.toNat ∨ base + off < 0 then .error .read
          else
            match mem[(base + off).toNat]? with
            | none => .error .read
            | some b =>
                if len ≠ b then .ok (m, offset)
                else
                  match readN mem ((base + off).toNat + 1) len.toNat, readN src (stop - len.toNat) len.toNat with
                  | some x, some y =>
                      if x ≠ y then .ok (m, offset)
                      else if nlen = 0 ∨ noff = 0 then
                        .ok (m + len.toNat + (if nlen = 0 then 0 else 1), off)
                      else matchGo mem base src lens offs nlen noff (stop - len.toNat - 1)
                        (m + len.toNat + 1) off
                  | _, _ => .error .read
      | _, _ => .error .read
  | _, _, _, _, _ => .error .read

/-- The loop of `prepare` over the recorded names `todo`; `some` error ends `prepare`. -/
def visit (mem : Bytes) (debug : Bool) (fuel first : Nat) (src : Bytes) (cnt : Nat) :
    List Nat → DnCompressor → Option (Except Fault (DnCompressor × Option Errc))
  | [], c => some (.ok (c, none))
  | p :: todo, c =>
      match loop (getOffsBody mem debug first) fuel (p, []) with
      | none => none
      | some (.error f) => some (.error f)
      | some (.ok offs) =>
          if offs = [] then some (.ok (c, some .illegalByteSequence))
          else
            match matchGo mem first src c.lens offs cnt offs.length src.length 0 0 with
            | .error f => some (.error f)
            | .ok (m, offset) =>
                if c.suffixLen < m then
                  -- a label was matched at this address, so it lies in the message
                  let c := { c with suffixLen := m, suffixOff := (offset + first).toNat }
                  if m = src.length then some (.ok (c, none))
                  else visit mem debug fuel first src cnt todo c
                else visit mem debug fuel first src cnt todo c

/-- `src.size() - suffix_len + 2 + (0 < suffix_len && suffix_len < src.size())`. -/
def encodedSize (src : Bytes) (suffixLen : Nat) : Nat :=
  (sizeSub src.length suffixLen + 2 + (if 0 < suffixLen ∧ suffixLen < src.length then 1 else 0)) % 2 ^ 64

/-- `prepare`: the new state, and the size the name will take or the error returned. -/
def prepare (mem : Bytes) (debug : Bool) (fuel : Nat) (c : DnCompressor) (src : Bytes) :
    Option (Except Fault (DnCompressor × Except Errc Nat)) :=
  if src = [] ∨ nameLimit < src.length then some (.ok (c, .error .invalidArgument))
  else
    let src := if src.getLast? = some 46 then src.dropLast else src
    if src = [] then some (.ok (c, .ok 1))
    else
      match getLabelLens c.lens 0 0 src with
      | .error f => some (.error f)
      | .ok (lens, cnt) =>
          let c := { c with lens := lens }
          if cnt = 0 then some (.ok (c, .error .invalidArgument))
          else
            match visit mem debug fuel (c.dnptrs.headD 0) src cnt c.dnptrs c with
            | none => none
            | some (.error f) => some (.error f)
            | some (.ok (c, some ec)) => some (.ok (c, .error ec))
            | some (.ok (c, none)) =>
                some (.ok ({ c with src := src }, .ok (encodedSize src c.suffixLen)))

/-! ## §3 — `compress`. -/

/-- `memcpy(dst + i, bs, ..)`. -/
def copyTo (dst : Bytes) (i : Nat) (bs : Bytes) : Except Fault Bytes :=
  if i + bs.length ≤ dst.length then .ok (dst.take i ++ bs ++ dst.drop (i + bs.length))
  else .error .write

/-- The loop that puts the length bytes in front of the labels of `dst[0, stop]`; `i` grows with every
pass, so that `stop` passes are enough. -/
def writeLens (lens : List UInt8) (stop : Nat) : (fuel j i : Nat) → Bytes → Except Fault (Bytes × Nat)
  | 0, _, i, dst => .ok (dst, i)
  | fuel + 1, j, i, dst =>
      if i < stop then
        match lens[j]? with
        | none => .error .read
        | some len =>
            (store dst i len).bind fun dst => writeLens lens stop fuel (j + 1) (i + len.toNat + 1) dst
      else .ok (dst, i)

/-- `add_dnptr`. -/
def DnCompressor.addDnptr (debug : Bool) (c : DnCompressor) (ptr : Nat) : Except Fault DnCompressor :=
  if c.dnptrs.length < dnptrsMax then .ok { c with dnptrs := c.dnptrs ++ [ptr] }
  else .error (if debug then .assertion else .write)

/-- The end of `compress`, after the labels: the pointer or the zero byte at `dst[i]`, and the record. -/
def DnCompressor.finish (debug : Bool) (c : DnCompressor) (pos : Nat) (dst : Bytes) (i : Nat) :
    Except Fault (DnCompressor × Bytes × Nat) :=
  (if c.suffixLen ≠ 0 then
    (store dst i (UInt8.ofNat (0xc0 ||| c.suffixOff >>> 8))).map fun dst => (dst, i + 1)
  else .ok (dst, i)).bind fun (dst, i) =>
  (store dst i (UInt8.ofNat c.suffixOff)).bind fun dst =>
  (if i + 1 > 2 then c.addDnptr debug pos else .ok c).map fun c => (c.reset, dst, i + 1)

/-- `compress` to the memory `dst`, which begins at offset `pos` of the message: the memory afterwards
and the number of bytes written. -/
def compress (debug : Bool) (c : DnCompressor) (pos : Nat) (dst : Bytes) :
    Except Fault (DnCompressor × Bytes × Nat) :=
  if c.src = [] then (store dst 0 0).map fun dst => (c, dst, 1)
  else
    match readN c.src 0 (sizeSub c.src.length c.suffixLen) with
    | none => .error .read
    | some text =>
        (copyTo dst 1 text).bind fun dst =>
        (writeLens c.lens (sizeSub c.src.length c.suffixLen) (sizeSub c.src.length c.suffixLen) 0 0
          dst).bind fun (dst, i) => c.finish debug pos dst i

end NetCpp.Dns
