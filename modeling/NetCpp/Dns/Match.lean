/-
# NetCpp.Dns.Match — what `match` finds, and what it reads.

`match` of `src/net/dns/utils.cpp` on memories with holes (`matchOn`): one holds the labels at the given offsets of the
message, the other the text of the name, and neither needs to hold anything else.  A byte that is not there cannot be
read, so a result means that `match` stayed inside the two.

`common` are the lengths of the common suffixes of two lists of labels; `match` finds the greatest of them.
-/
import NetCpp.Dns.Names

namespace NetCpp.Dns

variable {mem text : Nat → Option UInt8} {base : Nat} {ls rs : List Bytes} {es : List (Int × Bytes)} {lens : List UInt8}

/-! ## §1 — common suffixes. -/

/-- The numbers of trailing labels on which `ls` and `rs` agree. -/
def common (ls rs : List Bytes) : Set Nat := {k | ∃ t : List Bytes, t.length = k ∧ t <:+ ls ∧ t <:+ rs}

/-- Two lists agree on their last `k` labels, read from the end. -/
theorem mem_common_iff {k : Nat} :
    k ∈ common ls rs ↔ k ≤ ls.length ∧ k ≤ rs.length ∧ ls.reverse.take k = rs.reverse.take k := by
  constructor
  · rintro ⟨t, rfl, hl, hr⟩
    refine ⟨hl.length_le, hr.length_le, ?_⟩
    have hl' := List.prefix_iff_eq_take.mp (List.reverse_prefix.mpr hl)
    have hr' := List.prefix_iff_eq_take.mp (List.reverse_prefix.mpr hr)
    rw [List.length_reverse] at hl' hr'
    exact hl'.symm.trans hr'
  · rintro ⟨hkl, -, heq⟩
    refine ⟨(ls.reverse.take k).reverse, ?_, ?_, ?_⟩
    · rw [List.length_reverse, List.length_take, List.length_reverse]
      exact Nat.min_eq_left hkl
    · rw [← List.reverse_prefix, List.reverse_reverse]
      exact List.take_prefix k _
    · rw [← List.reverse_prefix, List.reverse_reverse, heq]
      exact List.take_prefix k _

/-- Where the comparison from the end stops, the common suffix is the longest one. -/
theorem isGreatest_common {k : Nat} (hkl : k ≤ ls.length) (hkr : k ≤ rs.length)
    (heq : ls.reverse.take k = rs.reverse.take k)
    (hmax : k = ls.length ∨ k = rs.length ∨ ls.reverse[k]? ≠ rs.reverse[k]?) : IsGreatest (common ls rs) k := by
  refine ⟨mem_common_iff.mpr ⟨hkl, hkr, heq⟩, ?_⟩
  intro k' hk'
  obtain ⟨hl, hr, heq'⟩ := mem_common_iff.mp hk'
  by_contra hlt
  rcases hmax with h | h | h
  · omega
  · omega
  · apply h
    have hk : (ls.reverse.take k')[k]? = (rs.reverse.take k')[k]? := congrArg (·[k]?) heq'
    rwa [List.getElem?_take_of_lt (by omega), List.getElem?_take_of_lt (by omega)] at hk

/-! ## §2 — the length that is reported. -/

theorem wireLen_drop (ls : List Bytes) (k : Nat) : wireLen (ls.reverse.take k) = wireLen (ls.drop (ls.length - k)) := by
  rw [List.take_reverse, wireLen_reverse]

/-- The last `k` labels with the dots between them, and the dot before them. -/
theorem matchLen_eq {k : Nat} (hk : 0 < k) (hkl : k ≤ ls.length) :
    matchLen ls.reverse k = (joined (ls.drop (ls.length - k))).length + if k < ls.length then 1 else 0 := by
  have hne : ls.drop (ls.length - k) ≠ [] := by
    rw [← List.length_pos_iff, List.length_drop]
    omega
  have hjoined := length_joined hne
  rw [matchLen, wireLen_drop ls k, List.length_reverse, ← hjoined]
  by_cases heq : k = ls.length
  · rw [if_pos heq, if_neg (by omega)]
    rfl
  · rw [if_neg heq, if_pos (by omega)]
    rfl

/-- Only all labels are as long as the name. -/
theorem whole_iff {k m : Nat} (hv : ∀ l ∈ ls, l ≠ []) (hls : ls ≠ []) (hkl : k ≤ ls.length)
    (hm : m = (joined (ls.drop (ls.length - k))).length + if 0 < k ∧ k < ls.length then 1 else 0) :
    m = (joined ls).length ↔ k = ls.length := by
  constructor
  · intro h
    by_contra hne
    have hsplit : wireLen ls = wireLen (ls.take (ls.length - k)) + wireLen (ls.drop (ls.length - k)) := by
      rw [← wireLen_append, List.take_append_drop]
    -- the labels in front of them are not empty
    have hfront : 2 * (ls.take (ls.length - k)).length ≤ wireLen (ls.take (ls.length - k)) :=
      two_mul_length_le_of_ne_nil fun l hl => hv l (List.mem_of_mem_take hl)
    rw [List.length_take] at hfront
    have hwhole := length_joined hls
    by_cases hk : 0 < k
    · have hback : ls.drop (ls.length - k) ≠ [] := by
        rw [← List.length_pos_iff, List.length_drop]
        omega
      have := length_joined hback
      rw [if_pos ⟨hk, by omega⟩] at hm
      omega
    · obtain rfl : k = 0 := by omega
      rw [Nat.sub_zero, List.drop_length, if_neg (by omega)] at hm
      have hzero : (joined []).length = 0 := rfl
      omega
  · rintro rfl
    rw [Nat.sub_self, List.drop_zero, if_neg (by omega)] at hm
    exact hm

/-! ## §3 — the theorem. -/

/-- **`match` finds the longest common suffix of labels**, for any name and any labels in the message, and reads nothing
but the text and those labels: `k` labels agree, the result is their text and the dot before it, `*offset` is where the
first of them stands. -/
theorem match_longest_suffix (offset₀ : Int) (hls : ls ≠ []) (hes : es ≠ [])
    (hv : ∀ l ∈ ls, 1 ≤ l.length ∧ l.length ≤ labelLimit)
    (hlens : ∀ i < ls.length, lens[i]? = ls[i]?.map fun l => UInt8.ofNat l.length)
    (htext : BytesAt text 0 (joined ls)) (hat : ∀ e ∈ es, EntryIn mem base e) :
    ∃ m offset k,
      matchOn mem base text lens (es.map (·.1)) ls.length es.length (joined ls).length 0 offset₀ = .ok (m, offset) ∧
        IsGreatest (common ls (es.map (·.2))) k ∧
        m = (joined (ls.drop (ls.length - k))).length + (if 0 < k ∧ k < ls.length then 1 else 0) ∧
        (0 < k → (es.map (·.1))[es.length - k]? = some offset) ∧ (k = 0 → offset = offset₀) ∧
        (m = (joined ls).length ↔ k = ls.length) := by
  have hlr : ls.reverse ≠ [] := by simpa using hls
  have hrr : es.reverse ≠ [] := by simpa using hes
  have hne : ∀ l ∈ ls, l ≠ [] := fun l hl => List.length_pos_iff.mp (hv l hl).1
  have hmatch : matchOn mem base text lens (es.map (·.1)) ls.reverse.length es.reverse.length
      (joined ls.reverse.reverse).length 0 offset₀ = .ok (matchSpec ls.reverse es.reverse 0 offset₀) :=
    matchOn_eq ls.reverse es.reverse 0 offset₀ hlr hrr (by simpa using hlens) (by simp)
      (fun x hx => hat x (List.mem_reverse.mp hx)) (fun l hl => (hv l (List.mem_reverse.mp hl)).2)
      (by simpa using htext)
  rw [List.length_reverse, List.length_reverse, List.reverse_reverse] at hmatch
  rw [hmatch]
  rcases matchSpec_cases ls.reverse es.reverse 0 offset₀ hlr hrr with ⟨hdiff, hs⟩ | ⟨k, o, hk, hkl, htake, ho, hs, hmax⟩
  · -- the last labels differ
    have hm : 0 = (joined (ls.drop (ls.length - 0))).length + if 0 < 0 ∧ 0 < ls.length then 1 else 0 := by
      rw [Nat.sub_zero, List.drop_length, if_neg (by omega)]
      rfl
    refine ⟨0, offset₀, 0, by rw [hs], ?_, hm, fun h => absurd h (Nat.lt_irrefl 0), fun _ => rfl,
      whole_iff hne hls (Nat.zero_le _) hm⟩
    refine isGreatest_common (Nat.zero_le _) (Nat.zero_le _) (by rw [List.take_zero, List.take_zero]) (.inr (.inr ?_))
    rw [← List.map_reverse, ← List.head?_eq_getElem?, ← List.head?_eq_getElem?]
    exact hdiff
  · rw [List.length_reverse] at hkl hmax
    rw [List.map_reverse] at htake hmax ho
    have hkr : k ≤ es.length := by
      have := congrArg List.length htake
      rw [List.length_take, List.length_take, List.length_reverse, List.length_reverse, List.length_map] at this
      omega
    have hm : 0 + matchLen ls.reverse k =
        (joined (ls.drop (ls.length - k))).length + if 0 < k ∧ k < ls.length then 1 else 0 := by
      rw [Nat.zero_add, matchLen_eq hk hkl]
      simp only [hk, true_and]
    refine ⟨_, o, k, by rw [hs], ?_, hm, fun _ => ?_, fun h => absurd h (by omega), whole_iff hne hls hkl hm⟩
    · apply isGreatest_common hkl (by rwa [List.length_map]) htake.symm
      rwa [List.length_map, ← @List.length_reverse _ es]
    · rw [List.getElem?_reverse (by rw [List.length_map]; omega), List.length_map] at ho
      have hidx : es.length - 1 - (k - 1) = es.length - k := by omega
      rwa [hidx] at ho

/-- The name `a.b` against the one label `b` at offset 0 of the message. -/
theorem match_a_b : ∃ m offset k,
    matchOn ([1, 98][·]?) 0 ([97, 46, 98][·]?) [1, 1] [0] 2 1 3 0 7 = .ok (m, offset) ∧
      IsGreatest (common [[97], [98]] [[98]]) k ∧
      m = (joined ([[97], [98]].drop (2 - k))).length + (if 0 < k ∧ k < 2 then 1 else 0) ∧
      (0 < k → [0][1 - k]? = some offset) ∧ (k = 0 → offset = 7) ∧ (m = 3 ↔ k = 2) := by
  have hlabel : ∀ e ∈ [((0 : Int), ([98] : Bytes))], EntryIn ([1, 98][·]?) 0 e := by
    intro e he
    obtain rfl := List.mem_singleton.mp he
    refine ⟨by decide, rfl, ?_, by decide⟩
    intro i hi
    obtain rfl := Nat.lt_one_iff.mp hi
    rfl
  have hlens : ∀ i < 2, ([1, 1] : List UInt8)[i]? = ([[97], [98]] : List Bytes)[i]?.map fun l => UInt8.ofNat l.length := by
    decide
  have htext : BytesAt ([97, 46, 98][·]?) 0 (joined [[97], [98]]) := by
    intro i _
    rw [Nat.zero_add]
    rfl
  exact @match_longest_suffix _ _ 0 [[97], [98]] [(0, [98])] [1, 1] 7 (List.cons_ne_nil _ _) (List.cons_ne_nil _ _)
    (by decide) hlens htext hlabel

end NetCpp.Dns
