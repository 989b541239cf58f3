/-
# NetCpp.Http.HeaderMap — `SmallHeaderMap` in memory, and what any calls of `emplace` make of it.

`include/xsl/asio/http/response.h`.  In memory the map is eight POD slots, of which `count_` are in use, and a vector
for the rest.  A slot has two character arrays and two lengths of 16 bits; what stands behind the lengths is whatever
stood there.  `shows_emplace` takes one call of it to the `SmallHeaderMap` of the response model, whose type says
that no key is there twice and that what is in a slot fits.

`first_wins` is about the calls alone: the map is told from the list of the calls.
-/
import NetCpp.Http.Response
import NetCpp.Lib.Memory

namespace NetCpp.Http

open NetCpp.Lib

/-! ## §1 — the map. -/

/-- `SmallHeaderMap::Entry` -/
structure PodEntry where
  keyLen : UInt16
  valueLen : UInt16
  key : Block
  value : Block

namespace PodEntry

def keyView (e : PodEntry) : Bytes := slice e.key 0 e.keyLen.toNat

def valueView (e : PodEntry) : Bytes := slice e.value 0 e.valueLen.toNat

def view (e : PodEntry) : Header := (e.keyView, e.valueView)

/-- The copies and the lengths of an inline entry. -/
def store (key value : Bytes) (e : PodEntry) : PodEntry where
  keyLen := UInt16.ofNat key.length
  valueLen := UInt16.ofNat value.length
  key := write e.key 0 key
  value := write e.value 0 value

end PodEntry

/-- `SmallHeaderMap` as it lies in memory. -/
structure PodHeaderMap where
  count : Nat
  slots : Vector PodEntry inlineCapacity
  overflow : List Header
  count_le : count ≤ inlineCapacity

namespace PodHeaderMap

def init : PodHeaderMap := ⟨0, Vector.replicate inlineCapacity ⟨0, 0, fun _ => 0, fun _ => 0⟩, [], Nat.zero_le _⟩

/-- The slots in use. -/
def used (m : PodHeaderMap) : List PodEntry := m.slots.toList.take m.count

def contains (m : PodHeaderMap) (key : Bytes) : Bool :=
  m.used.any (fun e => e.keyView == key) || m.overflow.any fun e => e.1 == key

/-- `emplace`, with what it returns. -/
def emplace (key value : Bytes) (m : PodHeaderMap) : Bool × PodHeaderMap :=
  -- first wins
  if m.contains key then (false, m)
  else if h : m.count < inlineCapacity ∧ key.length ≤ keyBufferSize ∧ value.length ≤ valueBufferSize then
    (true, { m with
      count := m.count + 1
      slots := m.slots.set m.count ((m.slots.get ⟨m.count, h.1⟩).store key value) h.1
      count_le := h.1 })
  else (true, { m with overflow := m.overflow ++ [(key, value)] })

def size (m : PodHeaderMap) : Nat := m.count + m.overflow.length

/-- `entry(index)`; `none` behind the last. -/
def entry (m : PodHeaderMap) (index : Nat) : Option Header :=
  if index < m.count then m.slots[index]?.map PodEntry.view else m.overflow[index - m.count]?

/-- The map after the calls. -/
def after (calls : List Header) : PodHeaderMap := calls.foldl (fun m e => (m.emplace e.1 e.2).2) init

/-- What is in the slots. -/
def inlined (m : PodHeaderMap) : List Header := m.used.map PodEntry.view

/-! ## §2 — one call. -/

/-- A stored entry is read back: its lengths fit into 16 bits. -/
theorem PodEntry.view_store {key value : Bytes} (hkey : key.length ≤ keyBufferSize)
    (hvalue : value.length ≤ valueBufferSize) (e : PodEntry) : (e.store key value).view = (key, value) := by
  have hk : (UInt16.ofNat key.length).toNat = key.length := by
    apply UInt16.toNat_ofNat_of_lt'
    exact lt_of_le_of_lt hkey (by decide)
  have hv : (UInt16.ofNat value.length).toNat = value.length := by
    apply UInt16.toNat_ofNat_of_lt'
    exact lt_of_le_of_lt hvalue (by decide)
  simp only [PodEntry.view, PodEntry.keyView, PodEntry.valueView, PodEntry.store, hk, hv, slice_write_self]

/-- The map in memory shows the value `s`. -/
structure Shows (m : PodHeaderMap) (s : SmallHeaderMap) : Prop where
  inlined : m.inlined = s.slots
  overflow : m.overflow = s.overflow

variable {m : PodHeaderMap} {s : SmallHeaderMap} {key value : Bytes}

theorem length_inlined (m : PodHeaderMap) : m.inlined.length = m.count := by
  have hle := m.count_le
  rw [inlined, used, List.length_map, List.length_take, Vector.length_toList]
  omega

theorem shows_init : Shows init .empty := ⟨rfl, rfl⟩

theorem Shows.contains (h : Shows m s) : m.contains key = s.contains key := by
  have hslots : m.used.any (fun e => e.keyView == key) = s.slots.any fun e => e.1 == key := by
    rw [← h.inlined, PodHeaderMap.inlined, List.any_map]
    rfl
  rw [PodHeaderMap.contains, SmallHeaderMap.contains, SmallHeaderMap.entries, List.any_append, hslots, h.overflow]

/-- A slot that is taken into use comes behind the others. -/
theorem take_set {n : Nat} (slots : Vector PodEntry n) {i : Nat} (h : i < n) (e : PodEntry) :
    (slots.set i e h).toList.take (i + 1) = slots.toList.take i ++ [e] := by
  have hlen : i < slots.toList.length := by rwa [Vector.length_toList]
  rw [Vector.toList_set, List.take_set, List.take_add_one, List.getElem?_eq_getElem hlen, Option.toList_some,
    List.set_append_right _ _ (List.length_take_le _ _)]
  congr 1
  rw [List.length_take, Nat.min_eq_left hlen.le, Nat.sub_self]
  rfl

/-- **`emplace` in memory** does what it does to the value, and returns whether the key is new. -/
theorem shows_emplace (h : Shows m s) (key value : Bytes) :
    Shows (m.emplace key value).2 (s.emplace key value) ∧ (m.emplace key value).1 = !s.contains key := by
  have hcount : m.count = s.slots.length := by rw [← h.inlined, length_inlined]
  unfold emplace SmallHeaderMap.emplace
  rw [h.contains]
  by_cases hc : s.contains key = true
  · rw [if_pos hc, dif_pos hc, hc]
    exact ⟨h, rfl⟩
  · rw [if_neg hc, dif_neg hc, Bool.not_eq_true] at *
    by_cases hfit : m.count < inlineCapacity ∧ key.length ≤ keyBufferSize ∧ value.length ≤ valueBufferSize
    · have hfit' : s.slots.length < inlineCapacity ∧ key.length ≤ keyBufferSize ∧ value.length ≤ valueBufferSize := by
        rwa [← hcount]
      rw [dif_pos hfit, dif_pos hfit', hc]
      refine ⟨⟨?_, h.overflow⟩, rfl⟩
      simp only [inlined, used]
      rw [take_set, List.map_append, List.map_singleton, PodEntry.view_store hfit.2.1 hfit.2.2]
      congr 1
      exact h.inlined
    · have hfit' :
          ¬ (s.slots.length < inlineCapacity ∧ key.length ≤ keyBufferSize ∧ value.length ≤ valueBufferSize) := by
        rwa [← hcount]
      rw [dif_neg hfit, dif_neg hfit', hc]
      refine ⟨⟨h.inlined, ?_⟩, rfl⟩
      simp only [h.overflow]

/-! ## §3 — the calls. -/

/-- The place of the first call with the key. -/
def calledAt (calls : List Header) (key : Bytes) : Nat := calls.findIdx fun e => e.1 == key

/-- The key of `a` was emplaced before that of `b`. -/
def Before (calls : List Header) (a b : Header) : Prop := calledAt calls a.1 < calledAt calls b.1

theorem calledAt_lt {calls : List Header} (h : key ∈ calls.map Prod.fst) : calledAt calls key < calls.length := by
  obtain ⟨e, he, rfl⟩ := List.mem_map.mp h
  exact List.findIdx_lt_length_of_exists ⟨e, he, beq_self_eq_true _⟩

/-- One more call does not move a key. -/
theorem calledAt_append {calls : List Header} (h : key ∈ calls.map Prod.fst) (e : Header) :
    calledAt (calls ++ [e]) key = calledAt calls key := by
  rw [calledAt, List.findIdx_append]
  exact if_pos (calledAt_lt h)

/-- A new key comes last. -/
theorem calledAt_append_new {calls : List Header} {e : Header} (h : e.1 ∉ calls.map Prod.fst) :
    calledAt (calls ++ [e]) e.1 = calls.length := by
  have hno : calls.findIdx (fun x => x.1 == e.1) = calls.length := by
    rw [List.findIdx_eq_length]
    intro x hx
    rw [beq_eq_false_iff_ne]
    rintro heq
    exact h (List.mem_map.mpr ⟨x, hx, heq⟩)
  rw [calledAt, List.findIdx_append, hno, if_neg (Nat.lt_irrefl _), List.findIdx_cons, beq_self_eq_true]
  simp

theorem pairwise_append {calls l : List Header} (e : Header) (hmem : ∀ x ∈ l, x.1 ∈ calls.map Prod.fst)
    (h : l.Pairwise (Before calls)) : l.Pairwise (Before (calls ++ [e])) := by
  apply h.imp_of_mem
  intro a b ha hb hab
  rw [Before, calledAt_append (hmem a ha), calledAt_append (hmem b hb)]
  exact hab

theorem pairwise_append_new {calls l : List Header} {e : Header} (hmem : ∀ x ∈ l, x.1 ∈ calls.map Prod.fst)
    (h : l.Pairwise (Before calls)) (hnew : e.1 ∉ calls.map Prod.fst) :
    (l ++ [e]).Pairwise (Before (calls ++ [e])) := by
  rw [List.pairwise_append]
  refine ⟨pairwise_append e hmem h, List.pairwise_singleton _ _, ?_⟩
  intro a ha b hb
  obtain rfl := List.mem_singleton.mp hb
  rw [Before, calledAt_append (hmem a ha), calledAt_append_new hnew]
  exact calledAt_lt (hmem a ha)

/-- The first call with a key keeps its value. -/
theorem lookup_append_call (calls : List Header) (e : Header) (key : Bytes) :
    (calls ++ [e]).lookup key = (calls.lookup key).or (if key = e.1 then some e.2 else none) := by
  rw [List.lookup_append, List.lookup_cons, List.lookup_nil]
  by_cases h : key = e.1
  · rw [if_pos h, h, beq_self_eq_true]
  · rw [if_neg h, beq_eq_false_iff_ne.mpr h]

/-- **What the map is after the calls**, as a value. -/
structure Holds (calls : List Header) (s : SmallHeaderMap) : Prop where
  first : ∀ e, e ∈ s.entries ↔ calls.lookup e.1 = some e.2
  slots_order : s.slots.Pairwise (Before calls)
  overflow_order : s.overflow.Pairwise (Before calls)

theorem mem_keys_iff {calls : List Header} : key ∈ calls.map Prod.fst ↔ ∃ v, calls.lookup key = some v := by
  rw [← Option.isSome_iff_exists, List.lookup_isSome_iff, List.mem_map]
  apply exists_congr
  intro e
  rw [beq_iff_eq, eq_comm]

theorem Holds.mem_keys {calls : List Header} (h : Holds calls s) {e : Header} (he : e ∈ s.entries) :
    e.1 ∈ calls.map Prod.fst := mem_keys_iff.mpr ⟨e.2, (h.first e).mp he⟩

theorem Holds.contains_iff {calls : List Header} (h : Holds calls s) :
    s.contains key = true ↔ key ∈ calls.map Prod.fst := by
  rw [SmallHeaderMap.contains_iff]
  constructor
  · intro hk
    obtain ⟨e, he, rfl⟩ := List.mem_map.mp hk
    exact h.mem_keys he
  · intro hk
    obtain ⟨v, hv⟩ := mem_keys_iff.mp hk
    exact List.mem_map.mpr ⟨(key, v), (h.first (key, v)).mpr hv, rfl⟩

theorem Holds.first_emplace {calls : List Header} (h : Holds calls s) (e x : Header) :
    x ∈ (s.emplace e.1 e.2).entries ↔ (calls ++ [e]).lookup x.1 = some x.2 := by
  rw [SmallHeaderMap.mem_emplace, h.first, h.contains_iff, lookup_append_call]
  by_cases hold : e.1 ∈ calls.map Prod.fst
  · -- the first call with the key keeps it
    by_cases hx : x.1 = e.1
    · obtain ⟨v, hv⟩ := mem_keys_iff.mp hold
      simp [hold, hx, hv]
    · simp [hold, hx]
  · have hnone : calls.lookup e.1 = none := by
      rw [Option.eq_none_iff_forall_ne_some]
      exact fun v hv => hold (mem_keys_iff.mpr ⟨v, hv⟩)
    by_cases hx : x.1 = e.1
    · simp [hold, hx, hnone, Prod.ext_iff, eq_comm]
    · have hne : x ≠ (e.1, e.2) := fun h => hx (congrArg Prod.fst h)
      simp [hx, hne]

/-- **One more call.** -/
theorem Holds.emplace {calls : List Header} (h : Holds calls s) (e : Header) :
    Holds (calls ++ [e]) (s.emplace e.1 e.2) := by
  have hslots : ∀ x ∈ s.slots, x.1 ∈ calls.map Prod.fst := fun x hx => h.mem_keys (List.mem_append_left _ hx)
  have hover : ∀ x ∈ s.overflow, x.1 ∈ calls.map Prod.fst := fun x hx => h.mem_keys (List.mem_append_right _ hx)
  have hslots_order := pairwise_append e hslots h.slots_order
  have hover_order := pairwise_append e hover h.overflow_order
  refine ⟨h.first_emplace e, ?_, ?_⟩
  · rcases s.emplace_cases e.1 e.2 with ⟨-, hsame⟩ | ⟨hc, ⟨hs, -⟩ | ⟨hs, -⟩⟩
    · rwa [hsame]
    · rw [hs]
      exact pairwise_append_new hslots h.slots_order (mt h.contains_iff.mpr hc)
    · rwa [hs]
  · rcases s.emplace_cases e.1 e.2 with ⟨-, hsame⟩ | ⟨hc, ⟨-, ho⟩ | ⟨-, ho⟩⟩
    · rwa [hsame]
    · rwa [ho]
    · rw [ho]
      exact pairwise_append_new hover h.overflow_order (mt h.contains_iff.mpr hc)

/-- **The map in memory is a first-wins map** of the calls. -/
structure IsFirstWins (calls : List Header) (m : PodHeaderMap) : Prop where
  returns : ∀ key value, (m.emplace key value).1 = true ↔ key ∉ calls.map Prod.fst
  contains : ∀ key, m.contains key = true ↔ key ∈ calls.map Prod.fst
  /-- the slots first -/
  listed : (List.range m.size).map m.entry = (m.inlined ++ m.overflow).map some
  once : ((m.inlined ++ m.overflow).map Prod.fst).Nodup
  first : ∀ e, e ∈ m.inlined ++ m.overflow ↔ calls.lookup e.1 = some e.2
  slots_order : m.inlined.Pairwise (Before calls)
  overflow_order : m.overflow.Pairwise (Before calls)

/-- `entry` goes through the slots, then through the vector. -/
theorem listed_eq (m : PodHeaderMap) : (List.range m.size).map m.entry = (m.inlined ++ m.overflow).map some := by
  rw [size, List.range_add, List.map_append, List.map_append, List.map_map]
  congr 1
  · apply List.ext_getElem
    · simp [length_inlined]
    · intro i h _
      have hi : i < m.count := by simpa using h
      have hslot : i < inlineCapacity := hi.trans_le m.count_le
      simp [entry, hi, hslot, inlined, used]
  · apply List.ext_getElem
    · simp
    · intro i h _
      have hi : i < m.overflow.length := by simpa using h
      simp [entry, hi]

theorem exists_value (calls : List Header) : ∃ s, Shows (after calls) s ∧ Holds calls s := by
  induction calls using List.reverseRecOn with
  | nil =>
    refine ⟨.empty, shows_init, ?_⟩
    constructor
    · simp [SmallHeaderMap.entries, SmallHeaderMap.empty]
    · exact List.Pairwise.nil
    · exact List.Pairwise.nil
  | append_singleton calls e ih =>
    obtain ⟨s, hshows, hholds⟩ := ih
    refine ⟨s.emplace e.1 e.2, ?_, hholds.emplace e⟩
    rw [after, List.foldl_append]
    exact (shows_emplace hshows e.1 e.2).1

/-- **First wins**: after any calls. -/
theorem first_wins (calls : List Header) : IsFirstWins calls (after calls) := by
  obtain ⟨s, hshows, hholds⟩ := exists_value calls
  have hentries : (after calls).inlined ++ (after calls).overflow = s.entries := by
    rw [hshows.inlined, hshows.overflow, SmallHeaderMap.entries]
  constructor
  · intro key value
    rw [(shows_emplace hshows key value).2, Bool.not_eq_true', ← Bool.not_eq_true, hholds.contains_iff]
  · intro key
    rw [hshows.contains, hholds.contains_iff]
  · exact listed_eq _
  · rw [hentries]
    exact s.nodup
  · intro e
    rw [hentries]
    exact hholds.first e
  · rw [hshows.inlined]
    exact hholds.slots_order
  · rw [hshows.overflow]
    exact hholds.overflow_order

end PodHeaderMap

end NetCpp.Http
