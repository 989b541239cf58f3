/-
# NetCpp.Dns.Labels — what `prepare` takes for a name.

`src/net/dns/utils.cpp`.  `Names` and `Suffix` are about well-formed names; here the text is ANY text, and its labels
are what stands between its dots, empty ones too.  `get_label_lens` refuses a label of more than 63 bytes and nothing
else, and does not look at the size of its table: `getLabelLens_cases` has its three outcomes.

`prepare` compares the length of the TEXT with the limit of the WIRE form, and takes empty labels.
`takes_exactly_iff` says for which texts its answer is right all the same.
-/
import NetCpp.Dns.Suffix

namespace NetCpp.Dns

open NetCpp.Lib

/-! ## §1 — the labels of a text. -/

/-- What stands between the dots. -/
def labelsOf (src : Bytes) : List Bytes := src.splitOn 46

/-- `src` without one trailing dot. -/
def undotted (src : Bytes) : Bytes := if src.getLast? = some 46 then src.dropLast else src

variable {mem src : Bytes} {debug : Bool} {ls : List Bytes}

theorem labelsOf_ne_nil (src : Bytes) : labelsOf src ≠ [] := List.splitOn_ne_nil _ _

@[simp] theorem joined_labelsOf (src : Bytes) : joined (labelsOf src) = src := List.intercalate_splitOn 46

theorem undotted_of_mem_labelsOf : ∀ l ∈ labelsOf src, 46 ∉ l := fun _ h => not_mem_of_mem_splitOn h

theorem labelsOf_joined (hls : ls ≠ []) (h : ∀ l ∈ ls, 46 ∉ l) : labelsOf (joined ls) = ls :=
  List.splitOn_intercalate 46 h hls

theorem length_labelsOf (src : Bytes) : src.length + 1 = wireLen (labelsOf src) := by
  have h := length_joined (labelsOf_ne_nil src)
  rwa [joined_labelsOf] at h

/-! ## §2 — `get_label_lens` on any text. -/

/-- The table holds the lengths of the labels. -/
def Tabled (lens : List UInt8) (ls : List Bytes) : Prop :=
  ∀ i, i < ls.length → lens[i]? = ls[i]?.map fun l => UInt8.ofNat l.length

/-- A label that is too long, among those that are reached, is refused. -/
theorem getLabelLens_long (ls : List Bytes) (lens : List UInt8) (cnt : Nat) (hcnt : cnt ≤ lens.length)
    (hdot : ∀ l ∈ ls, 46 ∉ l) (hlong : ∃ l ∈ ls.take (lens.length - cnt + 1), labelLimit < l.length) :
    ∃ lens', getLabelLens lens cnt 0 (joined ls) = .ok (lens', 0) ∧ lens'.length = lens.length := by
  induction ls generalizing lens cnt with
  | nil => simp at hlong
  | cons l ls ih =>
      rw [getLabelLens_step (hdot l (by simp))]
      by_cases hl : labelLimit < l.length
      · exact ⟨lens, if_pos hl, rfl⟩
      · rw [List.take_succ_cons] at hlong
        obtain ⟨q, hq, hqlong⟩ := hlong
        have hmem : q ∈ ls.take (lens.length - cnt) := by
          rcases List.mem_cons.mp hq with rfl | hq
          · exact absurd hqlong hl
          · exact hq
        have hlt : cnt < lens.length := by
          by_contra hge
          rw [Nat.sub_eq_zero_of_le (Nat.le_of_not_lt hge)] at hmem
          simp at hmem
        have hnil : ls ≠ [] := by
          rintro rfl
          simp at hmem
        rw [if_neg hl, store_of_lt hlt]
        simp only [Except.bind, if_neg hnil]
        obtain ⟨lens', hg, hlen⟩ := ih (lens.set cnt (UInt8.ofNat l.length)) (cnt + 1) (by rw [List.length_set]; omega)
          (fun r hr => hdot r (by simp [hr])) ⟨q, by
            rw [List.length_set, show lens.length - (cnt + 1) + 1 = lens.length - cnt by omega]
            exact hmem, hqlong⟩
        exact ⟨lens', hg, by simpa using hlen⟩

/-- **One label more than the table has room for** is stored behind it. -/
theorem getLabelLens_full (ls : List Bytes) (lens : List UInt8) (cnt : Nat) (hcnt : cnt ≤ lens.length)
    (hdot : ∀ l ∈ ls, 46 ∉ l) (hle : ∀ l ∈ ls.take (lens.length - cnt + 1), l.length ≤ labelLimit)
    (hmany : lens.length - cnt < ls.length) : getLabelLens lens cnt 0 (joined ls) = .error .write := by
  induction ls generalizing lens cnt with
  | nil => cases hmany
  | cons l ls ih =>
      have hl := hle l (by simp)
      rw [getLabelLens_step (hdot l (by simp)), if_neg (by omega)]
      by_cases hlt : cnt < lens.length
      · rw [List.length_cons] at hmany
        have hnil : ls ≠ [] := by
          rintro rfl
          simp only [List.length_nil] at hmany
          omega
        rw [store_of_lt hlt]
        simp only [Except.bind, if_neg hnil]
        apply ih _ _ (by rw [List.length_set]; omega) (fun r hr => hdot r (by simp [hr]))
        · intro r hr
          rw [List.length_set, show lens.length - (cnt + 1) + 1 = lens.length - cnt by omega] at hr
          exact hle r (by rw [List.take_succ_cons]; exact List.mem_cons_of_mem _ hr)
        · rw [List.length_set]
          omega
      · rw [store, if_neg hlt]
        rfl

/-- A label that is too long, in front of which the table has room. -/
def LongLabel (src : Bytes) : Prop := ∃ l ∈ (labelsOf src).take 128, labelLimit < l.length

instance (src : Bytes) : Decidable (LongLabel src) :=
  decidable_of_iff ((labelsOf src).take 128 |>.any fun l => labelLimit < l.length) (by simp [LongLabel])

theorem not_longLabel (h : ∀ l ∈ labelsOf src, l.length ≤ labelLimit) : ¬ LongLabel src := by
  rintro ⟨l, hl, hgt⟩
  have := h l (List.mem_of_mem_take hl)
  omega

/-- **What `get_label_lens` makes of a text**: refused, stored behind the table, or tabled. -/
theorem getLabelLens_cases {lens : List UInt8} (hlen : lens.length = 127) (src : Bytes) :
    (LongLabel src ∧ ∃ lens', getLabelLens lens 0 0 src = .ok (lens', 0) ∧ lens'.length = 127) ∨
      (¬ LongLabel src ∧ 127 < (labelsOf src).length ∧ getLabelLens lens 0 0 src = .error .write) ∨
      ((∀ l ∈ labelsOf src, l.length ≤ labelLimit) ∧ (labelsOf src).length ≤ 127 ∧
        ∃ lens', getLabelLens lens 0 0 src = .ok (lens', (labelsOf src).length) ∧ lens'.length = 127 ∧
          Tabled lens' (labelsOf src)) := by
  have hdot : ∀ l ∈ labelsOf src, 46 ∉ l := undotted_of_mem_labelsOf
  by_cases hlong : LongLabel src
  · left
    obtain ⟨lens', hg, hlen'⟩ := getLabelLens_long (labelsOf src) lens 0 (Nat.zero_le _) hdot (by
      rw [hlen]
      exact hlong)
    rw [joined_labelsOf] at hg
    exact ⟨hlong, lens', hg, hlen'.trans hlen⟩
  · right
    have hle : ∀ l ∈ (labelsOf src).take 128, l.length ≤ labelLimit := by
      intro l hl
      by_contra hgt
      exact hlong ⟨l, hl, by omega⟩
    by_cases hmany : 127 < (labelsOf src).length
    · left
      have hg := getLabelLens_full (labelsOf src) lens 0 (Nat.zero_le _) hdot (by rw [hlen]; exact hle) (by rw [hlen]; exact hmany)
      rw [joined_labelsOf] at hg
      exact ⟨hlong, hmany, hg⟩
    · right
      rw [List.take_of_length_le (by omega)] at hle
      obtain ⟨lens', hg, hlen', -, hat⟩ := getLabelLens_joined (labelsOf src) lens 0 (labelsOf_ne_nil src) hdot hle
        (by omega)
      rw [joined_labelsOf, Nat.zero_add] at hg
      exact ⟨hle, by omega, lens', hg, hlen'.trans hlen, by simpa [Tabled] using hat⟩

/-! ## §3 — `prepare` on any text. -/

/-- A name that is looked up: not the root, and refused neither for its length nor for a label. -/
def Sought (name : Bytes) : Prop :=
  undotted name ≠ [] ∧ name.length ≤ nameLimit ∧ ¬ LongLabel (undotted name) ∧
    (labelsOf (undotted name)).length ≤ 127

theorem Sought.labels_le {name : Bytes} (h : Sought name) : ∀ l ∈ labelsOf (undotted name), l.length ≤ labelLimit := by
  intro l hl
  by_contra hgt
  apply h.2.2.1
  rw [LongLabel, List.take_of_length_le (by have := h.2.2.2; omega)]
  exact ⟨l, hl, by omega⟩

/-- What `prepare` returns after the search. -/
def settle (src : Bytes) : DnCompressor × Option Errc → DnCompressor × Except Errc Nat
  | (c, some ec) => (c, .error ec)
  | (c, none) => ({ c with src := src }, .ok (encodedSize src c.suffixLen))

/-- `prepare` behind `get_label_lens`. -/
def searched (mem : Bytes) (debug : Bool) (fuel : Nat) (c : DnCompressor) (src : Bytes) :
    Option (Except Fault (DnCompressor × Except Errc Nat)) :=
  (visit mem debug fuel (c.dnptrs.headD 0) src (labelsOf src).length c.dnptrs c).map (·.map (settle src))

theorem undotted_eq_nil_iff (name : Bytes) : undotted name = [] ↔ name = [] ∨ name = [46] := by
  rw [undotted]
  constructor
  · intro h
    split at h
    · rename_i hlast
      right
      rw [← List.dropLast_append_getLast? 46 hlast, h]
      rfl
    · exact Or.inl h
  · rintro (rfl | rfl) <;> rfl

/-- **What `prepare` makes of a text.** -/
theorem prepare_cases {c : DnCompressor} (hlen : c.lens.length = 127) (mem : Bytes) (debug : Bool) (fuel : Nat)
    (name : Bytes) :
    ((name = [] ∨ nameLimit < name.length) ∧ prepare mem debug fuel c name = some (.ok (c, .error .invalidArgument))) ∨
      (name = [46] ∧ prepare mem debug fuel c name = some (.ok (c, .ok 1))) ∨
      (undotted name ≠ [] ∧ name.length ≤ nameLimit ∧
        ((LongLabel (undotted name) ∧ ∃ lens, lens.length = 127 ∧
            getLabelLens c.lens 0 0 (undotted name) = .ok (lens, 0) ∧
            prepare mem debug fuel c name = some (.ok ({ c with lens := lens }, .error .invalidArgument))) ∨
          (¬ LongLabel (undotted name) ∧ 127 < (labelsOf (undotted name)).length ∧
            prepare mem debug fuel c name = some (.error .write)) ∨
          ((∀ l ∈ labelsOf (undotted name), l.length ≤ labelLimit) ∧ (labelsOf (undotted name)).length ≤ 127 ∧
            ∃ lens, lens.length = 127 ∧ Tabled lens (labelsOf (undotted name)) ∧
              getLabelLens c.lens 0 0 (undotted name) = .ok (lens, (labelsOf (undotted name)).length) ∧
              prepare mem debug fuel c name = searched mem debug fuel { c with lens := lens } (undotted name)))) := by
  by_cases hbad : name = [] ∨ nameLimit < name.length
  · exact Or.inl ⟨hbad, by rw [prepare, if_pos hbad]⟩
  right
  by_cases hroot : undotted name = []
  · left
    have hname : name = [46] := ((undotted_eq_nil_iff name).mp hroot).resolve_left fun h => hbad (Or.inl h)
    refine ⟨hname, ?_⟩
    rw [prepare, if_neg hbad]
    exact if_pos hroot
  right
  refine ⟨hroot, by omega, ?_⟩
  have hundot : (if name.getLast? = some 46 then name.dropLast else name) = undotted name := rfl
  rw [prepare, if_neg hbad]
  simp only [hundot, hroot, if_false]
  rcases getLabelLens_cases hlen (undotted name) with ⟨hlong, lens, hg, hl⟩ | ⟨hlong, hmany, hg⟩ |
    ⟨hle, hfew, lens, hg, hl, htab⟩
  · exact Or.inl ⟨hlong, lens, hl, hg, by simp only [hg, if_true]⟩
  · exact Or.inr (Or.inl ⟨hlong, hmany, by simp only [hg]⟩)
  · refine Or.inr (Or.inr ⟨hle, hfew, lens, hl, htab, hg, ?_⟩)
    have hpos : (labelsOf (undotted name)).length ≠ 0 := by
      simpa using labelsOf_ne_nil (undotted name)
    simp only [hg, hpos, if_false, searched]
    cases visit mem debug fuel (c.dnptrs.headD 0) (undotted name) (labelsOf (undotted name)).length c.dnptrs
        { c with lens := lens } with
    | none => rfl
    | some r =>
        cases r with
        | error f => rfl
        | ok x =>
            obtain ⟨c', ec⟩ := x
            cases ec <;> rfl

/-! ## §4 — a fresh compressor. -/

/-- A text that a name is written as: the root, or labels of 1 to 63 bytes that fit, maybe with a trailing dot. -/
def Encodable (name : Bytes) : Prop := ∃ n : Name, n.text = name

/-- **`prepare` takes the encodable names and refuses every other text** with `invalid_argument`. -/
def TakesExactly (mem : Bytes) (debug : Bool) (fuel : Nat) (name : Bytes) : Prop :=
  (Encodable name → ∃ c n, prepare mem debug fuel .init name = some (.ok (c, .ok n))) ∧
    (¬ Encodable name → ∃ c, prepare mem debug fuel .init name = some (.ok (c, .error .invalidArgument)))

/-- **When it does**: the text is empty or longer than the limit, the root, or has a label that is too long; or no
label is empty and the wire form, two bytes longer than the text without its trailing dot, fits. -/
def WithinLimits (name : Bytes) : Prop :=
  name = [] ∨ nameLimit < name.length ∨ name = [46] ∨ LongLabel (undotted name) ∨
    (∀ l ∈ labelsOf (undotted name), l ≠ []) ∧ (undotted name).length + 2 ≤ nameLimit

/-- **The encodable names but the root** by their labels. -/
theorem encodable_iff {name : Bytes} (hroot : undotted name ≠ []) :
    Encodable name ↔ (∀ l ∈ labelsOf (undotted name), ValidLabel l) ∧ (undotted name).length + 2 ≤ nameLimit := by
  have hlen := length_labelsOf (undotted name)
  constructor
  · rintro ⟨n, rfl⟩
    have hn : n.labels ≠ [] := by
      intro h0
      apply hroot
      rw [Name.text, if_pos h0]
      rfl
    have hstrip : undotted n.text = joined n.labels := n.strip hn
    rw [hstrip] at hlen ⊢
    rw [labelsOf_joined hn fun l hl => (n.valid l hl).undotted] at hlen ⊢
    have hwire := n.wire
    exact ⟨n.valid, by omega⟩
  · rintro ⟨hv, hfit⟩
    refine ⟨⟨labelsOf (undotted name), decide (name.getLast? = some 46), hv, by omega⟩, ?_⟩
    rw [Name.text, if_neg (show labelsOf (undotted name) ≠ [] from labelsOf_ne_nil _)]
    show joined (labelsOf (undotted name)) ++ (if decide (name.getLast? = some 46) = true then [46] else []) = name
    rw [joined_labelsOf, undotted]
    by_cases hlast : name.getLast? = some 46
    · simp only [hlast, if_true, decide_true]
      exact List.dropLast_append_getLast? 46 hlast
    · simp [hlast]

/-- A name has no more labels than the table has room for. -/
theorem few_labels {src : Bytes} (hne : ∀ l ∈ labelsOf src, l ≠ []) (hfit : src.length + 2 ≤ nameLimit) :
    (labelsOf src).length ≤ 127 := by
  have h2 := two_mul_length_le_of_ne_nil hne
  have hlen := length_labelsOf src
  unfold nameLimit at hfit
  omega

/-- **`prepare` takes exactly the encodable names** among the texts within the limits. -/
theorem takes_exactly_iff (mem : Bytes) (debug : Bool) (fuel : Nat) (name : Bytes) :
    TakesExactly mem debug fuel name ↔ WithinLimits name := by
  have hempty : ∀ {n : Name}, n.text = name → name ≠ [] ∧ name.length ≤ nameLimit := by
    rintro n rfl
    exact ⟨n.text_ne_nil, n.length_text⟩
  rcases prepare_cases (c := .init) (by simp [DnCompressor.init]) mem debug fuel name with
    ⟨hbad, hp⟩ | ⟨rfl, hp⟩ | ⟨hroot, hle, ⟨hlong, lens, -, -, hp⟩ | ⟨hlong, hmany, hp⟩ | ⟨hshort, hfew, lens, -, -, -, hp⟩⟩
  · -- refused at once, and no name
    have hno : ¬ Encodable name := by
      rintro ⟨n, hn⟩
      obtain ⟨h1, h2⟩ := hempty hn
      rcases hbad with h | h
      · exact h1 h
      · omega
    refine iff_of_true ⟨fun h => absurd h hno, fun _ => ⟨_, hp⟩⟩ ?_
    rcases hbad with h | h
    · exact Or.inl h
    · exact Or.inr (Or.inl h)
  · -- the root
    have hyes : Encodable [46] := ⟨⟨[], false, by simp, by decide⟩, rfl⟩
    exact iff_of_true ⟨fun _ => ⟨_, _, hp⟩, fun h => absurd hyes h⟩ (Or.inr (Or.inr (Or.inl rfl)))
  · have hno : ¬ Encodable name := by
      rw [encodable_iff hroot]
      rintro ⟨hv, -⟩
      obtain ⟨l, hl, hll⟩ := hlong
      have := (hv l (List.mem_of_mem_take hl)).le
      omega
    exact iff_of_true ⟨fun h => absurd h hno, fun _ => ⟨_, hp⟩⟩ (Or.inr (Or.inr (Or.inr (Or.inl hlong))))
  · -- behind the table
    have hno : ¬ Encodable name := by
      rw [encodable_iff hroot]
      rintro ⟨hv, hfit⟩
      have := few_labels (fun l hl => (hv l hl).ne_nil) hfit
      omega
    apply iff_of_false
    · rintro ⟨-, h⟩
      obtain ⟨c, hc⟩ := h hno
      rw [hp] at hc
      cases hc
    · rintro (rfl | h | rfl | h | ⟨hne, hfit⟩)
      · exact hroot rfl
      · omega
      · exact hroot rfl
      · exact hlong h
      · have := few_labels hne hfit
        omega
  · -- taken
    have hval : ∃ c n, prepare mem debug fuel .init name = some (.ok (c, .ok n)) := ⟨_, _, hp⟩
    have hright : TakesExactly mem debug fuel name ↔ Encodable name := by
      constructor
      · rintro ⟨-, h⟩
        by_contra hno
        obtain ⟨c, hc⟩ := h hno
        obtain ⟨c', n, hn⟩ := hval
        rw [hn] at hc
        cases hc
      · intro h
        exact ⟨fun _ => hval, fun hno => absurd h hno⟩
    rw [hright, encodable_iff hroot]
    constructor
    · rintro ⟨hv, hfit⟩
      exact Or.inr (Or.inr (Or.inr (Or.inr ⟨fun l hl => (hv l hl).ne_nil, hfit⟩)))
    · rintro (rfl | h | rfl | ⟨l, hl, hll⟩ | ⟨hne, hfit⟩)
      · exact absurd rfl hroot
      · omega
      · exact absurd rfl hroot
      · have := hshort l (List.mem_of_mem_take hl)
        omega
      · refine ⟨?_, hfit⟩
        intro l hl
        exact ⟨List.length_pos_iff.mpr (hne l hl), hshort l hl, undotted_of_mem_labelsOf l hl⟩

/-- **An empty label is taken**: `a..b` is no name, and `prepare` announces six bytes for it. -/
theorem takes_empty_label :
    ¬ TakesExactly [] true 0 [97, 46, 46, 98] ∧
      ∃ c, prepare [] true 0 .init [97, 46, 46, 98] = some (.ok (c, .ok 6)) := by
  have hp : ∃ c, prepare [] true 0 .init [97, 46, 46, 98] = some (.ok (c, .ok 6)) :=
    ⟨⟨[97, 46, 46, 98], 1 :: 0 :: 1 :: List.replicate 124 0, [], 0, 0⟩, by decide +kernel⟩
  refine ⟨?_, hp⟩
  rintro ⟨-, h⟩
  have hno : ¬ Encodable [97, 46, 46, 98] := by
    rw [encodable_iff (by decide)]
    rintro ⟨hv, -⟩
    exact (hv [] (by decide)).ne_nil rfl
  obtain ⟨c, hc⟩ := h hno
  obtain ⟨c', hc'⟩ := hp
  rw [hc'] at hc
  cases hc

end NetCpp.Dns
