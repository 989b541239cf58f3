/-
# NetCpp.Dns.Names — domain names, and what the message holds of them.

`Name` is a sequence of labels that meets the limits of the protocol, with the way it is written.
`NameAt mem p ls os size ptr` reads a message at `p`: the labels `ls` stand there, label by label at the
offsets `os`, the name takes `size` bytes of its own, and `ptr` tells whether it ends in a pointer.  It
is stable under appending to the message, every tail of a name is a name (`NameAt.tail`), and it is a
route for `NetCpp.Dns.Decompress` (`NameAt.route`).

`matchSpec` compares labels from the end as `match` does; §4 says what it finds.
-/
import NetCpp.Dns.Compress

namespace NetCpp.Dns

open NetCpp.Lib

/-! ## §1 — names and their text. -/

/-- The bytes the labels take, each with its length byte (or, as text, with a dot). -/
def wireLen (ls : List Bytes) : Nat := (ls.map fun l => l.length + 1).sum

/-- The labels with a dot between them. -/
def joined (ls : List Bytes) : Bytes := [46].intercalate ls

/-- The labels, each followed by a dot. -/
def spelled (ls : List Bytes) : Bytes := (ls.map fun l => l ++ [46]).flatten

structure ValidLabel (l : Bytes) : Prop where
  pos : 0 < l.length
  le : l.length ≤ labelLimit
  undotted : 46 ∉ l

instance (l : Bytes) : Decidable (ValidLabel l) :=
  decidable_of_iff (0 < l.length ∧ l.length ≤ labelLimit ∧ 46 ∉ l)
    ⟨fun h => ⟨h.1, h.2.1, h.2.2⟩, fun h => ⟨h.pos, h.le, h.undotted⟩⟩

structure Name where
  labels : List Bytes
  /-- written with a trailing dot -/
  dotted : Bool
  valid : ∀ l ∈ labels, ValidLabel l
  wire : wireLen labels + 1 ≤ nameLimit

/-- The name as it is handed to `prepare`; the root is `.`. -/
def Name.text (n : Name) : Bytes :=
  if n.labels = [] then [46] else joined n.labels ++ (if n.dotted then [46] else [])

variable {l r : Bytes} {ls rs : List Bytes}

@[simp] theorem wireLen_nil : wireLen [] = 0 := rfl

@[simp] theorem wireLen_cons (l : Bytes) (ls : List Bytes) :
    wireLen (l :: ls) = l.length + 1 + wireLen ls := by
  simp [wireLen]

@[simp] theorem wireLen_append (ls rs : List Bytes) : wireLen (ls ++ rs) = wireLen ls + wireLen rs := by
  simp [wireLen]

@[simp] theorem wireLen_reverse (ls : List Bytes) : wireLen ls.reverse = wireLen ls := by
  simp [wireLen, List.sum_reverse]

@[simp] theorem joined_singleton (l : Bytes) : joined [l] = l := by
  simp [joined]

theorem joined_cons (l : Bytes) (hls : ls ≠ []) : joined (l :: ls) = l ++ [46] ++ joined ls := by
  simp [joined, List.intercalate_cons_of_ne_nil hls]

theorem length_joined (hls : ls ≠ []) : (joined ls).length + 1 = wireLen ls := by
  induction ls with
  | nil => exact absurd rfl hls
  | cons l ls ih =>
      cases ls with
      | nil => simp
      | cons r rs =>
          have := ih (by simp)
          rw [joined_cons l (by simp)]
          simp only [List.length_append, List.length_singleton, wireLen_cons] at this ⊢
          omega

theorem joined_append_singleton (hls : ls ≠ []) (l : Bytes) :
    joined (ls ++ [l]) = joined ls ++ [46] ++ l := by
  induction ls with
  | nil => exact absurd rfl hls
  | cons r rs ih =>
      cases rs with
      | nil => simp [joined_cons]
      | cons q qs =>
          rw [List.cons_append, joined_cons r (by simp), ih (by simp), joined_cons r (by simp)]
          simp

theorem length_spelled (ls : List Bytes) : (spelled ls).length = wireLen ls := by
  induction ls with
  | nil => rfl
  | cons l ls ih => simp [spelled] at ih ⊢; omega

/-- A label with a byte in it is at least two bytes of wire. -/
theorem two_mul_length_le_of_ne_nil (h : ∀ l ∈ ls, l ≠ []) : 2 * ls.length ≤ wireLen ls := by
  induction ls with
  | nil => simp
  | cons l ls ih =>
      have := ih fun r hr => h r (by simp [hr])
      have := List.length_pos_iff.mpr (h l (by simp))
      simp only [List.length_cons, wireLen_cons]
      omega

theorem ValidLabel.ne_nil (h : ValidLabel l) : l ≠ [] := List.length_pos_iff.mp h.pos

theorem two_mul_length_le (h : ∀ l ∈ ls, ValidLabel l) : 2 * ls.length ≤ wireLen ls :=
  two_mul_length_le_of_ne_nil fun l hl => (h l hl).ne_nil

theorem Name.length_le (n : Name) : n.labels.length ≤ 127 := by
  have := two_mul_length_le n.valid
  have := n.wire
  unfold nameLimit at this
  omega

/-! ## §2 — `get_label_lens` on a name. -/

/-- Inside a label. -/
theorem getLabelLens_label (lens : List UInt8) (cnt cur : Nat) (dn : Bytes) (hl : 46 ∉ l) :
    getLabelLens lens cnt cur (l ++ dn) = getLabelLens lens cnt (cur + l.length) dn := by
  induction l generalizing cur with
  | nil => rfl
  | cons b l ih =>
      have hb : b ≠ 46 := by rintro rfl; simp at hl
      rw [List.cons_append, getLabelLens, if_neg hb, ih (cur + 1) (by simp_all)]
      simp [Nat.add_comm, Nat.add_left_comm]

/-- One label. -/
theorem getLabelLens_step (hl : 46 ∉ l) (ls : List Bytes) (lens : List UInt8) (cnt : Nat) :
    getLabelLens lens cnt 0 (joined (l :: ls)) =
      if labelLimit < l.length then .ok (lens, 0)
      else (store lens cnt (UInt8.ofNat l.length)).bind fun lens =>
        if ls = [] then .ok (lens, cnt + 1) else getLabelLens lens (cnt + 1) 0 (joined ls) := by
  by_cases hls : ls = []
  · have hstep := getLabelLens_label lens cnt 0 [] hl
    rw [List.append_nil, Nat.zero_add] at hstep
    rw [hls, joined_singleton, hstep, getLabelLens]
    simp only [if_true]
    rfl
  · rw [joined_cons l hls, List.append_assoc, getLabelLens_label _ _ _ _ hl, List.singleton_append, getLabelLens,
      if_pos rfl, Nat.zero_add]
    simp only [hls, if_false]

theorem store_of_lt {α : Type} {a : List α} {i : Nat} (hi : i < a.length) (b : α) : store a i b = .ok (a.set i b) :=
  if_pos hi

/-- The table after `get_label_lens`: the lengths from `cnt` on, what was before them untouched. -/
theorem getLabelLens_joined (ls : List Bytes) (lens : List UInt8) (cnt : Nat) (hls : ls ≠ [])
    (hdot : ∀ l ∈ ls, 46 ∉ l) (hle : ∀ l ∈ ls, l.length ≤ labelLimit) (hroom : cnt + ls.length ≤ lens.length) :
    ∃ lens', getLabelLens lens cnt 0 (joined ls) = .ok (lens', cnt + ls.length) ∧
      lens'.length = lens.length ∧ (∀ j < cnt, lens'[j]? = lens[j]?) ∧
      ∀ i, i < ls.length → lens'[cnt + i]? = ls[i]?.map fun l => UInt8.ofNat l.length := by
  induction ls generalizing lens cnt with
  | nil => exact absurd rfl hls
  | cons l ls ih =>
      rw [List.length_cons] at hroom
      have hl := hle l (by simp)
      rw [getLabelLens_step (hdot l (by simp)), if_neg (by omega), store_of_lt (by omega)]
      simp only [Except.bind]
      by_cases hnil : ls = []
      · rw [if_pos hnil]
        refine ⟨_, by rw [hnil]; rfl, by simp, ?_, ?_⟩
        · intro j hj
          rw [List.getElem?_set_ne (by omega)]
        · intro i hi
          obtain rfl : i = 0 := by simpa [hnil] using hi
          simp [List.getElem?_set_self (show cnt < lens.length by omega)]
      · rw [if_neg hnil]
        obtain ⟨lens', hg, hlen, hbefore, hat⟩ := ih (lens.set cnt (UInt8.ofNat l.length)) (cnt + 1) hnil
          (fun q hq => hdot q (by simp [hq])) (fun q hq => hle q (by simp [hq])) (by rw [List.length_set]; omega)
        refine ⟨lens', ?_, by simpa using hlen, ?_, ?_⟩
        · rw [hg, List.length_cons, Nat.add_assoc, Nat.add_comm 1]
        · intro j hj
          rw [hbefore j (by omega), List.getElem?_set_ne (by omega)]
        · intro i hi
          cases i with
          | zero =>
              rw [Nat.add_zero, hbefore cnt (by omega), List.getElem?_set_self (by omega)]
              simp
          | succ i =>
              have := hat i (by simpa using hi)
              simpa [Nat.add_assoc, Nat.add_comm 1] using this

/-! ## §3 — a name in the message. -/

/-- The label `l` stands at `q`. -/
structure LabelAt (mem : Bytes) (q : Nat) (l : Bytes) : Prop where
  len : mem[q]? = some (UInt8.ofNat l.length)
  text : readN mem (q + 1) l.length = some l
  pos : 0 < l.length
  le : l.length ≤ labelLimit

/-- The name `ls` stands at `p`. -/
inductive NameAt (mem : Bytes) : (p : Nat) → List Bytes → List Nat → (size : Nat) → Bool → Prop
  | root {p : Nat} : mem[p]? = some 0 → NameAt mem p [] [] 1 false
  | label {p size : Nat} {l : Bytes} {ls : List Bytes} {os : List Nat} {ptr : Bool} :
      LabelAt mem p l → NameAt mem (p + l.length + 1) ls os size ptr →
      NameAt mem p (l :: ls) (p :: os) (1 + l.length + size) ptr
  | pointer {p size : Nat} {b b1 : UInt8} {ls : List Bytes} {os : List Nat} {ptr : Bool} :
      mem[p]? = some b → high b = 0xc0 → mem[p + 1]? = some b1 → ls ≠ [] →
      NameAt mem (target b b1) ls os size ptr → NameAt mem p ls os 2 true

variable {mem : Bytes} {p q size base : Nat} {os : List Nat} {ptr debug : Bool}

theorem getElem?_append_of_some {b : UInt8} {i : Nat} (h : mem[i]? = some b) (more : Bytes) :
    (mem ++ more)[i]? = some b := by
  rw [List.getElem?_append_left (lt_of_getElem? mem h)]; exact h

theorem readN_append {bs : Bytes} {i n : Nat} (h : readN mem i n = some bs) (more : Bytes) :
    readN (mem ++ more) i n = some bs := by
  obtain ⟨hle, rfl, -⟩ := readN_eq_some h
  unfold readN
  rw [if_pos (by simp; omega), List.drop_append_of_le_length (by omega),
    List.take_append_of_le_length (by simp; omega)]

theorem LabelAt.append (h : LabelAt mem q l) (more : Bytes) : LabelAt (mem ++ more) q l :=
  ⟨getElem?_append_of_some h.len more, readN_append h.text more, h.pos, h.le⟩

/-- Appending to the message keeps its names. -/
theorem NameAt.append (h : NameAt mem p ls os size ptr) (more : Bytes) :
    NameAt (mem ++ more) p ls os size ptr := by
  induction h with
  | root hp => exact .root (getElem?_append_of_some hp more)
  | label hl _ ih => exact .label (hl.append more) ih
  | pointer hb hh hb1 hne _ ih =>
      exact .pointer (getElem?_append_of_some hb more) hh (getElem?_append_of_some hb1 more) hne ih

/-- The labels of a name stand at its offsets. -/
theorem NameAt.labels (h : NameAt mem p ls os size ptr) : List.Forall₂ (LabelAt mem) os ls := by
  induction h with
  | root _ => exact .nil
  | label hl _ ih => exact .cons hl ih
  | pointer _ _ _ _ _ ih => exact ih

theorem NameAt.labels_ne_nil (h : NameAt mem p ls os size ptr) : ∀ l ∈ ls, l ≠ [] := by
  induction h with
  | root _ => simp
  | label hl _ ih =>
      intro l hmem
      rcases List.mem_cons.mp hmem with rfl | hmem
      · exact List.length_pos_iff.mp hl.pos
      · exact ih l hmem
  | pointer _ _ _ _ _ ih => exact ih

/-- **Every tail of a name is a name**, at the offset of its first label. -/
theorem NameAt.tail (h : NameAt mem p ls os size ptr) {i o : Nat} (hi : os[i]? = some o) :
    ∃ size' ptr', NameAt mem o (ls.drop i) (os.drop i) size' ptr' := by
  induction h generalizing i with
  | root _ => simp at hi
  | label hl hn ih =>
      cases i with
      | zero =>
          obtain rfl : _ = o := by simpa using hi
          exact ⟨_, _, .label hl hn⟩
      | succ i => exact ih (by simpa using hi)
  | pointer _ _ _ _ _ ih => exact ih hi

theorem LabelAt.lt (h : LabelAt mem q l) : q < mem.length := lt_of_getElem? mem h.len

theorem NameAt.lt (h : NameAt mem p ls os size ptr) : p < mem.length := by
  cases h with
  | root hp => exact lt_of_getElem? mem hp
  | label hl _ => exact hl.lt
  | pointer hb => exact lt_of_getElem? mem hb

/-- Without a pointer the labels of a name stand behind one another. -/
theorem NameAt.le_of_plain (h : NameAt mem p ls os size false) : ∀ o ∈ os, p ≤ o := by
  generalize hb : false = ptr at h
  induction h with
  | root _ => simp
  | label _ _ ih =>
      intro o ho
      rcases List.mem_cons.mp ho with rfl | ho
      · exact le_rfl
      · have := ih hb o ho
        omega
  | pointer => cases hb

theorem toNat_ofNat_label (h : l.length ≤ labelLimit) : (UInt8.ofNat l.length).toNat = l.length := by
  unfold labelLimit at h
  simp [UInt8.toNat_ofNat']
  omega

theorem LabelAt.byte (h : LabelAt mem q l) :
    (UInt8.ofNat l.length).toNat = l.length ∧ high (UInt8.ofNat l.length) = 0 ∧
      UInt8.ofNat l.length ≠ 0 := by
  have hn := toNat_ofNat_label h.le
  refine ⟨hn, ?_, ?_⟩
  · rw [high_eq_zero_iff, hn]
    have := h.le
    unfold labelLimit at this
    omega
  · intro h0
    have hz := h.pos
    rw [h0] at hn
    simp at hn
    omega

theorem LabelAt.det (h : LabelAt mem q l) (h' : LabelAt mem q r) : l = r := by
  have hlen : l.length = r.length := by
    have hb := h.len.symm.trans h'.len
    rw [← h.byte.1, ← h'.byte.1, Option.some.inj hb]
  have ht := h.text
  rw [hlen, h'.text] at ht
  exact (Option.some.inj ht).symm

/-- **One name stands at an offset.** -/
theorem NameAt.unique {os' : List Nat} {size' : Nat} {ptr' : Bool} (h : NameAt mem p ls os size ptr)
    (h' : NameAt mem p rs os' size' ptr') : ls = rs ∧ os = os' := by
  induction h generalizing rs os' size' ptr' with
  | root hp =>
      cases h' with
      | root _ => exact ⟨rfl, rfl⟩
      | label hl _ => exact absurd (Option.some.inj (hl.len.symm.trans hp)) hl.byte.2.2
      | pointer hb hh =>
          rw [Option.some.inj (hb.symm.trans hp)] at hh
          exact absurd hh (by decide)
  | label hl _ ih =>
      cases h' with
      | root hp => exact absurd (Option.some.inj (hl.len.symm.trans hp)) hl.byte.2.2
      | label hl' hn' =>
          obtain rfl := hl.det hl'
          obtain ⟨rfl, rfl⟩ := ih hn'
          exact ⟨rfl, rfl⟩
      | pointer hb hh =>
          rw [← Option.some.inj (hl.len.symm.trans hb), hl.byte.2.1] at hh
          exact absurd hh (by decide)
  | pointer hb hh hb1 _ _ ih =>
      cases h' with
      | root hp =>
          rw [Option.some.inj (hb.symm.trans hp)] at hh
          exact absurd hh (by decide)
      | label hl' _ =>
          rw [← Option.some.inj (hl'.len.symm.trans hb), hl'.byte.2.1] at hh
          exact absurd hh (by decide)
      | pointer hb' _ hb1' _ hn' =>
          apply ih
          rwa [Option.some.inj (hb.symm.trans hb'), Option.some.inj (hb1.symm.trans hb1')]

theorem NameAt.det {os' : List Nat} {size' : Nat} {ptr' : Bool} (h : NameAt mem p ls os size ptr)
    (h' : NameAt mem p rs os' size' ptr') : ls = rs := (h.unique h').1

/-- The walk of the decompressor reads a label off the message. -/
theorem LabelAt.sign (h : LabelAt mem q l) (pc : Pc) : Dns.sign mem pc q = some (.label l) := by
  obtain ⟨hn, hz, h0⟩ := h.byte
  simp [Dns.sign, h.len, h0, hz, hn, h.text]

/-- **A name in the message is a route**, and it spells its labels. -/
theorem NameAt.route (h : NameAt mem p ls os size ptr) (hmem : mem.length < 0x4000) (pc : Pc)
    (hpc : pc = .jump → ls ≠ []) : Route mem debug pc p (pc.counted size) (spelled ls) none := by
  induction h generalizing pc with
  | root hp =>
      refine .finish ?_
      have : pc ≠ .jump := fun hj => hpc hj rfl
      simp [Dns.sign, hp, this]
  | @label p size l ls os ptr hl hn ih =>
      have hr := Route.label (hl.sign pc) (fun _ => hl.lt.trans hmem)
        (ih pc.afterLabel (by cases pc <;> simp [Pc.afterLabel]))
      have hcount : pc.counted (1 + l.length) + pc.afterLabel.counted size =
          pc.counted (1 + l.length + size) := by
        cases pc <;> simp [Pc.counted, Pc.afterLabel]
      rw [hcount] at hr
      simpa [spelled] using hr
  | @pointer p size b b1 ls os ptr hb hh hb1 hne _ ih =>
      have hz : high b ≠ 0 := by rw [hh]; decide
      have hs : Dns.sign mem pc p = some (.pointer (target b b1)) := by
        simp [Dns.sign, hb, ne_zero_of_high hz, hh, hb1]
      have hr := Route.pointer hs (ih pc.afterPointer (fun _ => hne))
      have hcount : pc.counted 2 + pc.afterPointer.counted size = pc.counted 2 := by
        cases pc <;> simp [Pc.counted, Pc.afterPointer]
      rw [hcount] at hr
      exact hr

/-- `get_offs` on a recorded name that it reads from the right base, or that has no pointer to follow, finds the
labels, or stops in a debug build at one that is out of reach of a pointer. -/
theorem NameAt.getOffs_ends (debug : Bool) (h : NameAt mem p ls os size ptr) (hbase : base = 0 ∨ ptr = false) :
    ∀ acc, acc.length + os.length ≤ offsMax → ∃ r, Halts (getOffsBody mem debug base) (p, acc) r ∧
      (r = .ok (acc ++ os.map fun (o : Nat) => short ((o : Int) - base)) ∧ (debug = true → ∀ o ∈ os, o < base + 0x4000) ∨
        r = .error .assertion ∧ ∃ o ∈ os, base + 0x4000 ≤ o) := by
  induction h with
  | root hp =>
      intro acc _
      exact ⟨.ok acc, .stop (by simp [getOffsBody, hp, high_zero]), Or.inl (by simp)⟩
  | @label p size l ls os ptr hl hn ih =>
      intro acc hacc
      obtain ⟨hb, hz, h0⟩ := hl.byte
      rw [List.length_cons] at hacc
      by_cases hfar : (debug && decide (0x4000 ≤ (p : Int) - base)) = true
      · have hstop : getOffsBody mem debug base (p, acc) = .stop (.error .assertion) := by
          simp only [getOffsBody, hl.len, hz, h0, hfar]
          simp
        rw [Bool.and_eq_true, decide_eq_true_iff] at hfar
        exact ⟨_, .stop hstop, Or.inr ⟨rfl, p, by simp, by omega⟩⟩
      · have hgo : getOffsBody mem debug base (p, acc) =
            .go (p + l.length + 1, acc ++ [short ((p : Int) - base)]) := by
          simp only [getOffsBody, hl.len, hz, h0, hfar, hb]
          simp [show acc.length < offsMax by omega]
        obtain ⟨r, hr, hcase⟩ := ih hbase (acc ++ [short ((p : Int) - base)]) (by simp; omega)
        refine ⟨r, hr.go hgo, ?_⟩
        rcases hcase with ⟨rfl, hnear⟩ | ⟨rfl, o, ho, hge⟩
        · refine Or.inl ⟨by simp, fun hd => ?_⟩
          have hp : ¬ (0x4000 : Int) ≤ (p : Int) - base := by simpa [hd] using hfar
          exact List.forall_mem_cons.mpr ⟨by omega, hnear hd⟩
        · exact Or.inr ⟨rfl, o, List.mem_cons_of_mem _ ho, hge⟩
  | @pointer p size b b1 ls os ptr hb hh hb1 hne _ ih =>
      intro acc hacc
      obtain rfl : base = 0 := by simpa using hbase
      have hz : high b ≠ 0 := by rw [hh]; decide
      have hgo : getOffsBody mem debug 0 (p, acc) = .go (target b b1, acc) := by
        simp [getOffsBody, hb, hh, follow, hb1]
      obtain ⟨r, hr, hcase⟩ := ih (.inl rfl) acc hacc
      exact ⟨r, hr.go hgo, hcase⟩

/-- The labels of a name stand in the message. -/
theorem NameAt.offs_lt (h : NameAt mem p ls os size ptr) : ∀ o ∈ os, o < mem.length := by
  intro o ho
  obtain ⟨i, hi, rfl⟩ := List.getElem_of_mem ho
  have hlen := h.labels.length_eq
  have := List.forall₂_iff_get.mp h.labels |>.2 i hi (by omega)
  exact this.lt

/-- The offsets `os` from `base`. -/
def offsFrom (base : Nat) (os : List Nat) : List Int := os.map fun (o : Nat) => (o : Int) - base

/-- A `short` holds them as long as they are near the base. -/
theorem map_short (hfirst : ∀ o ∈ os, base ≤ o) (hnear : ∀ o ∈ os, o < base + 0x8000) :
    (os.map fun (o : Nat) => short ((o : Int) - base)) = offsFrom base os := by
  apply List.map_congr_left
  intro o ho
  have h1 := hfirst o ho
  have h2 := hnear o ho
  exact short_of_lt (by omega) (by omega)

/-- **`get_offs` finds the labels** of a recorded name when it starts from the right base, or has no
pointer to follow. -/
theorem NameAt.getOffs (h : NameAt mem p ls os size ptr) (hmem : mem.length < 0x4000)
    (hbase : base = 0 ∨ ptr = false) (hfirst : ∀ o ∈ os, base ≤ o) (acc : List Int)
    (hacc : acc.length + os.length ≤ offsMax) :
    Halts (getOffsBody mem debug base) (p, acc) (.ok (acc ++ offsFrom base os)) := by
  obtain ⟨r, hr, ⟨rfl, -⟩ | ⟨-, o, ho, hge⟩⟩ := h.getOffs_ends debug hbase acc hacc
  · rw [map_short hfirst fun o ho => (h.offs_lt o ho).trans (by omega)] at hr
    exact hr
  · have := h.offs_lt o ho
    omega

/-! ## §4 — comparing from the end. -/

/-- `match` on the labels of the name and on the labels of a recorded name with their offsets, both LAST
label first. -/
def matchSpec : List Bytes → List (Int × Bytes) → (m : Nat) → (offset : Int) → Nat × Int
  | l :: lr, (o, r) :: rr, m, offset =>
      if l ≠ r then (m, offset)
      else if lr = [] ∨ rr = [] then (m + l.length + (if lr = [] then 0 else 1), o)
      else matchSpec lr rr (m + l.length + 1) o
  | _, _, m, offset => (m, offset)

/-- The last label of a text. -/
theorem readN_last {src : Bytes} {lr : List Bytes} (hsrc : joined (l :: lr).reverse <+: src) :
    l.length ≤ (joined (l :: lr).reverse).length ∧
      readN src ((joined (l :: lr).reverse).length - l.length) l.length = some l ∧
      (lr ≠ [] → (joined (l :: lr).reverse).length - l.length - 1 = (joined lr.reverse).length ∧
        joined lr.reverse <+: src) := by
  obtain ⟨more, rfl⟩ := hsrc
  by_cases hlr : lr = []
  · subst hlr
    simp [readN]
  · have hj : joined (l :: lr).reverse = joined lr.reverse ++ [46] ++ l := by
      rw [List.reverse_cons, joined_append_singleton (by simpa using hlr)]
    rw [hj]
    refine ⟨by simp; omega, ?_, fun _ => ⟨by simp; omega, ?_⟩⟩
    · have hidx : (joined lr.reverse ++ [46] ++ l).length - l.length = (joined lr.reverse ++ [46]).length := by
        simp only [List.length_append]; omega
      rw [hidx]
      simp only [readN]
      rw [if_pos (by simp; omega), List.append_assoc (joined lr.reverse ++ [46]), List.drop_left,
        List.take_left]
    · exact ⟨[46] ++ l ++ more, by simp⟩

/-! ### what `match` reads. -/

/-- The bytes `[a, a + n)` of a memory that may have holes. -/
def readFrom (mem : Nat → Option UInt8) (a : Nat) : Nat → Option Bytes
  | 0 => some []
  | n + 1 => (mem a).bind fun b => (readFrom mem (a + 1) n).map (b :: ·)

/-- `match` on such memories, one for the message and one for the text: a byte that is not there is not read. -/
def matchOn (mem : Nat → Option UInt8) (base : Nat) (text : Nat → Option UInt8) (lens : List UInt8) (offs : List Int) :
    (nlen noff stop m : Nat) → (offset : Int) → Except Fault (Nat × Int)
  | nlen + 1, noff + 1, stop, m, offset =>
      match lens[nlen]?, offs[noff]? with
      | some len, some off =>
          if stop < len.toNat ∨ base + off < 0 then .error .read
          else
            match mem (base + off).toNat with
            | none => .error .read
            | some b =>
                if len ≠ b then .ok (m, offset)
                else
                  match readFrom mem ((base + off).toNat + 1) len.toNat, readFrom text (stop - len.toNat) len.toNat with
                  | some x, some y =>
                      if x ≠ y then .ok (m, offset)
                      else if nlen = 0 ∨ noff = 0 then
                        .ok (m + len.toNat + (if nlen = 0 then 0 else 1), off)
                      else matchOn mem base text lens offs nlen noff (stop - len.toNat - 1)
                        (m + len.toNat + 1) off
                  | _, _ => .error .read
      | _, _ => .error .read
  | _, _, _, _, _ => .error .read

/-- The bytes `bs` stand at `a`. -/
def BytesAt (mem : Nat → Option UInt8) (a : Nat) (bs : Bytes) : Prop := ∀ i < bs.length, mem (a + i) = bs[i]?

theorem BytesAt.read {mem : Nat → Option UInt8} {a : Nat} {bs : Bytes} (h : BytesAt mem a bs) :
    readFrom mem a bs.length = some bs := by
  induction bs generalizing a with
  | nil => rfl
  | cons b bs ih =>
    have hrest : BytesAt mem (a + 1) bs := by
      intro i hi
      have := h (i + 1) (Nat.succ_lt_succ hi)
      rw [List.getElem?_cons_succ] at this
      rw [← this, Nat.add_assoc, Nat.add_comm 1 i]
    have hhead : mem a = some b := h 0 (Nat.succ_pos _)
    rw [List.length_cons, readFrom, hhead, Option.bind_some, ih hrest]
    rfl

theorem bytesAt_drop {mem : Nat → Option UInt8} {bs : Bytes} (h : BytesAt mem 0 bs) {i n : Nat}
    (hle : i + n ≤ bs.length) : BytesAt mem i ((bs.drop i).take n) := by
  intro j hj
  have hj' : j < n := (List.length_take.symm ▸ hj : j < min n _).trans_le (Nat.min_le_left _ _)
  have := h (i + j) (by omega)
  rw [Nat.zero_add] at this
  rw [this, List.getElem?_take_of_lt hj', List.getElem?_drop]

/-- On a list both readers find the same, inside it. -/
theorem readFrom_list (bs : Bytes) {i n : Nat} (hi : i ≤ bs.length) : readFrom (bs[·]?) i n = readN bs i n := by
  induction n generalizing i with
  | zero => simp [readFrom, readN, hi]
  | succ n ih =>
    rw [readFrom]
    by_cases hlt : i < bs.length
    · rw [List.getElem?_eq_getElem hlt, Option.bind_some, ih (by omega), readN, readN]
      by_cases hle : i + 1 + n ≤ bs.length
      · rw [if_pos hle, if_pos (by omega), Option.map_some, List.drop_eq_getElem_cons hlt, List.take_succ_cons]
      · rw [if_neg hle, if_neg (by omega)]
        rfl
    · rw [List.getElem?_eq_none (Nat.le_of_not_lt hlt), readN, if_neg (by omega)]
      rfl

/-- **`match` on a message and a text that are lists.** -/
theorem matchOn_list (mem : Bytes) (base : Nat) (src : Bytes) (lens : List UInt8) (offs : List Int)
    {nlen noff stop m : Nat} {offset : Int} (hstop : stop ≤ src.length) :
    matchOn (mem[·]?) base (src[·]?) lens offs nlen noff stop m offset =
      matchGo mem base src lens offs nlen noff stop m offset := by
  induction nlen generalizing noff stop m offset with
  | zero => rfl
  | succ nlen ih =>
    cases noff with
    | zero => rfl
    | succ noff =>
      rw [matchOn, matchGo]
      cases lens[nlen]? with
      | none => rfl
      | some len =>
        cases offs[noff]? with
        | none => rfl
        | some off =>
          simp only
          by_cases hlt : stop < len.toNat ∨ (base : Int) + off < 0
          · rw [if_pos hlt, if_pos hlt]
          · rw [if_neg hlt, if_neg hlt]
            cases hb : mem[((base : Int) + off).toNat]? with
            | none => rfl
            | some b =>
              have hin : ((base : Int) + off).toNat + 1 ≤ mem.length := (List.getElem?_eq_some_iff.mp hb).1
              simp only [readFrom_list mem hin, readFrom_list src (show stop - len.toNat ≤ src.length by omega)]
              have hrest := @ih noff (stop - len.toNat - 1) (m + len.toNat + 1) off (by omega)
              cases readN mem (((base : Int) + off).toNat + 1) len.toNat with
              | none => rfl
              | some x =>
                cases readN src (stop - len.toNat) len.toNat with
                | none => rfl
                | some y => simp only [hrest]

/-- The label `l` stands at `q`, and that is all that is known of the memory. -/
structure LabelIn (mem : Nat → Option UInt8) (q : Nat) (l : Bytes) : Prop where
  len : mem q = some (UInt8.ofNat l.length)
  text : BytesAt mem (q + 1) l
  le : l.length ≤ labelLimit

theorem LabelAt.labelIn {q : Nat} {l : Bytes} (h : LabelAt mem q l) : LabelIn (mem[·]?) q l := by
  refine ⟨h.len, ?_, h.le⟩
  intro i hi
  obtain ⟨hle, heq, -⟩ := readN_eq_some h.text
  have : l[i]? = ((mem.drop (q + 1)).take l.length)[i]? := congrArg (·[i]?) heq
  rw [this, List.getElem?_take_of_lt hi, List.getElem?_drop]

/-- The label of an entry of `offs` stands where the entry says. -/
def EntryIn (mem : Nat → Option UInt8) (base : Nat) (e : Int × Bytes) : Prop :=
  0 ≤ base + e.1 ∧ LabelIn mem (base + e.1).toNat e.2

/-- **`match` compares the labels**, and reads nothing besides them and the text of the name. -/
theorem matchOn_eq {mem text : Nat → Option UInt8} {lens : List UInt8} {offs : List Int} (lr : List Bytes)
    (rr : List (Int × Bytes)) (m : Nat) (offset : Int) (hlr : lr ≠ []) (hrr : rr ≠ [])
    (hlens : ∀ i, i < lr.length → lens[i]? = lr.reverse[i]?.map fun l => UInt8.ofNat l.length)
    (hoffs : ∀ i, i < rr.length → offs[i]? = rr.reverse[i]?.map (·.1))
    (hat : ∀ x ∈ rr, EntryIn mem base x) (hv : ∀ l ∈ lr, l.length ≤ labelLimit)
    (htext : BytesAt text 0 (joined lr.reverse)) :
    matchOn mem base text lens offs lr.length rr.length (joined lr.reverse).length m offset =
      .ok (matchSpec lr rr m offset) := by
  induction lr generalizing rr m offset with
  | nil => exact absurd rfl hlr
  | cons l lr ih =>
    cases rr with
    | nil => exact absurd rfl hrr
    | cons x rr =>
      obtain ⟨o, r⟩ := x
      have hl := hv l (by simp)
      obtain ⟨hfront, hr⟩ := hat (o, r) (by simp)
      have hlen : lens[lr.length]? = some (UInt8.ofNat l.length) := by
        rw [hlens lr.length (by simp)]; simp
      have hoff : offs[rr.length]? = some o := by
        rw [hoffs rr.length (by simp)]; simp
      obtain ⟨hle, hread, hrest⟩ := readN_last (List.prefix_refl (joined (l :: lr).reverse))
      obtain ⟨hin, hbytes, -⟩ := readN_eq_some hread
      have hlast := bytesAt_drop htext hin
      rw [← hbytes] at hlast
      have hb := toNat_ofNat_label hl
      have hsame : UInt8.ofNat l.length ≠ UInt8.ofNat r.length ↔ l.length ≠ r.length := by
        constructor
        · intro h he; exact h (by rw [he])
        · intro h he
          have := congrArg UInt8.toNat he
          rw [hb, toNat_ofNat_label hr.le] at this
          exact h this
      rw [List.length_cons, List.length_cons, matchOn]
      have hstay : ¬ (l.length > (joined (l :: lr).reverse).length ∨ (base : Int) + o < 0) :=
        not_or.mpr ⟨Nat.not_lt.mpr hle, Int.not_lt.mpr hfront⟩
      simp only [hlen, hoff, hb, hr.len, hsame, if_neg hstay, hlast.read]
      by_cases hne : l.length = r.length
      · rw [if_neg (by simpa using hne), hne, hr.text.read]
        by_cases heq : r = l
        · subst heq
          simp only [ne_eq, not_true_eq_false, if_false, matchSpec, List.length_eq_zero_iff]
          by_cases hend : lr = [] ∨ rr = []
          · rw [if_pos hend, if_pos hend]
          · rw [if_neg hend, if_neg hend]
            push Not at hend
            obtain ⟨hstop, more, hmore⟩ := hrest hend.1
            have hfront : BytesAt text 0 (joined lr.reverse) := by
              intro i hi
              have := htext i (by rw [← hmore, List.length_append]; omega)
              rw [this, ← hmore, List.getElem?_append_left hi]
            rw [hstop]
            refine ih rr _ o hend.1 hend.2 ?_ ?_ (fun x hx => hat x (by simp [hx]))
              (fun q hq => hv q (by simp [hq])) hfront
            · intro i hi
              rw [hlens i (by simp; omega), List.reverse_cons, List.getElem?_append_left (by simpa using hi)]
            · intro i hi
              rw [hoffs i (by simp; omega), List.reverse_cons, List.getElem?_append_left (by simpa using hi)]
        · simp only [ne_eq, heq, not_false_eq_true, if_true, matchSpec, Ne.symm heq]
      · have : l ≠ r := by rintro rfl; exact hne rfl
        rw [if_pos hne]
        simp [matchSpec, this]

/-- `match` compares the labels. -/
theorem matchGo_eq {src : Bytes} {lens : List UInt8} {offs : List Int} :
    ∀ (lr : List Bytes) (rr : List (Int × Bytes)) (m : Nat) (offset : Int), lr ≠ [] → rr ≠ [] →
      (∀ i, i < lr.length → lens[i]? = lr.reverse[i]?.map fun l => UInt8.ofNat l.length) →
      (∀ i, i < rr.length → offs[i]? = rr.reverse[i]?.map (·.1)) →
      (∀ x ∈ rr, 0 ≤ (base : Int) + x.1 ∧ LabelAt mem ((base : Int) + x.1).toNat x.2) → (∀ l ∈ lr, l.length ≤ labelLimit) →
      joined lr.reverse <+: src →
      matchGo mem base src lens offs lr.length rr.length (joined lr.reverse).length m offset =
        .ok (matchSpec lr rr m offset) := by
  intro lr rr m offset hlr hrr hlens hoffs hat hv hsrc
  rw [← matchOn_list mem base src lens offs hsrc.length_le]
  apply matchOn_eq lr rr m offset hlr hrr hlens hoffs (fun x hx => ⟨(hat x hx).1, (hat x hx).2.labelIn⟩) hv
  obtain ⟨more, rfl⟩ := hsrc
  intro i hi
  rw [Nat.zero_add]
  exact List.getElem?_append_left hi

/-- The length `match` reports for the last `k` labels: with the dot before them unless they are all. -/
def matchLen (lr : List Bytes) (k : Nat) : Nat :=
  wireLen (lr.take k) - (if k = lr.length then 1 else 0)

/-- **What `match` finds**: nothing when the last labels differ; else the longest run `k` of equal
labels. -/
theorem matchSpec_cases : ∀ (lr : List Bytes) (rr : List (Int × Bytes)) (m : Nat) (offset : Int),
    lr ≠ [] → rr ≠ [] →
    (lr.head? ≠ (rr.map (·.2)).head? ∧ matchSpec lr rr m offset = (m, offset)) ∨
    ∃ k o, 0 < k ∧ k ≤ lr.length ∧ (rr.map (·.2)).take k = lr.take k ∧
      (rr.map (·.1))[k - 1]? = some o ∧ matchSpec lr rr m offset = (m + matchLen lr k, o) ∧
      (k = lr.length ∨ k = rr.length ∨ lr[k]? ≠ (rr.map (·.2))[k]?)
  | [], _, _, _, h, _ => absurd rfl h
  | _ :: _, [], _, _, _, h => absurd rfl h
  | l :: lr, (o, r) :: rr, m, offset, _, _ => by
      by_cases hlr : l = r
      · subst hlr
        right
        by_cases hend : lr = [] ∨ rr = []
        · refine ⟨1, o, by simp, by simp, by simp, by simp, ?_, ?_⟩
          · simp only [matchSpec, ne_eq, not_true_eq_false, if_false, if_pos hend, matchLen]
            by_cases h : lr = []
            · simp [h]
            · simp [h, Nat.add_assoc]
          · rcases hend with h | h
            · exact .inl (by simp [h])
            · exact .inr (.inl (by simp [h]))
        · have hspec : matchSpec (l :: lr) ((o, l) :: rr) m offset = matchSpec lr rr (m + l.length + 1) o := by
            simp [matchSpec, hend]
          push Not at hend
          rw [hspec]
          rcases matchSpec_cases lr rr (m + l.length + 1) o hend.1 hend.2 with ⟨hne, he⟩ | ⟨k, o', hk, hkl, htake, ho, he, hmax⟩
          · refine ⟨1, o, by simp, by simp, by simp, by simp, ?_, .inr (.inr ?_)⟩
            · have : lr.length ≠ 0 := by simpa using hend.1
              rw [he]
              simp [matchLen, this, Nat.add_assoc]
            · simpa [← List.head?_eq_getElem?] using hne
          · refine ⟨k + 1, o', by simp, by simpa using hkl, by simp [htake], ?_, ?_, ?_⟩
            · obtain ⟨j, rfl⟩ : ∃ j, k = j + 1 := ⟨k - 1, by omega⟩
              simpa using ho
            · have hpos : 0 < wireLen (lr.take k) := by
                obtain ⟨q, qs, rfl⟩ := List.exists_cons_of_ne_nil hend.1
                obtain ⟨j, rfl⟩ : ∃ j, k = j + 1 := ⟨k - 1, by omega⟩
                rw [List.take_succ_cons, wireLen_cons]
                omega
              rw [he]
              simp only [matchLen, List.take_succ_cons, wireLen_cons, List.length_cons,
                Nat.add_right_cancel_iff, Prod.mk.injEq, and_true]
              split <;> omega
            · simpa using hmax
      · left
        exact ⟨by simpa using hlr, by simp [matchSpec, hlr]⟩

end NetCpp.Dns
