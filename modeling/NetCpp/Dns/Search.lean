/-
# NetCpp.Dns.Search — the loop of `prepare` as a scan of answers.

`src/net/dns/utils.cpp`.  What the loop does with one recorded name, `get_offs` and `match`, depends on the name and
on the text alone (`look`); the object comes in only as the best match so far.  So the loop is the scan of the list of
answers (`visit_eq`), and what the table of label lengths holds behind the labels of the text does not matter
(`look_congr`).
-/
import NetCpp.Dns.Labels
import NetCpp.Lib.Scan

namespace NetCpp.Dns

open NetCpp.Lib

/-! ## §1 — one recorded name. -/

/-- What the name recorded at `p` answers: a match with its length and its offset. -/
def look (mem : Bytes) (debug : Bool) (fuel first : Nat) (src : Bytes) (lens : List UInt8) (cnt p : Nat) :
    Answer Fault Nat :=
  match loop (getOffsBody mem debug first) fuel (p, []) with
  | none => .pending
  | some (.error f) => .fault f
  | some (.ok offs) =>
      if offs = [] then .refused
      else
        match matchGo mem first src lens offs cnt offs.length src.length 0 0 with
        | .error f => .fault f
        | .ok (m, offset) => .found m (offset + first).toNat

/-- The table `get_label_lens` makes for a text. -/
def lensOf (src : Bytes) : List UInt8 := (labelsOf src).map fun l => UInt8.ofNat l.length

theorem tabled_lensOf (src : Bytes) : Tabled (lensOf src) (labelsOf src) := by
  intro i _
  rw [lensOf, List.getElem?_map]

/-- What the recorded names answer to a text. -/
def answers (mem : Bytes) (debug : Bool) (fuel : Nat) (dnptrs : List Nat) (src : Bytes) : List (Answer Fault Nat) :=
  dnptrs.map (look mem debug fuel (dnptrs.headD 0) src (lensOf src) (labelsOf src).length)

variable {mem src : Bytes} {debug : Bool} {fuel first : Nat}

/-- `match` reads the table for the labels it compares. -/
theorem matchGo_congr {lens lens' : List UInt8} {offs : List Int} {nlen noff stop m : Nat} {offset : Int}
    (h : ∀ i, i < nlen → lens[i]? = lens'[i]?) :
    matchGo mem first src lens offs nlen noff stop m offset =
      matchGo mem first src lens' offs nlen noff stop m offset := by
  induction nlen generalizing noff stop m offset with
  | zero => cases noff <;> rfl
  | succ nlen ih =>
      cases noff with
      | zero => rfl
      | succ noff =>
          rw [matchGo, matchGo, h nlen (Nat.lt_succ_self _)]
          have hrest : ∀ stop m offset, matchGo mem first src lens offs nlen noff stop m offset =
              matchGo mem first src lens' offs nlen noff stop m offset :=
            fun stop m offset => ih fun i hi => h i (Nat.lt_succ_of_lt hi)
          simp only [hrest]

/-- **The answer of a recorded name depends on the table only for the labels of the text.** -/
theorem look_congr {lens lens' : List UInt8} {cnt p : Nat} (h : ∀ i, i < cnt → lens[i]? = lens'[i]?) :
    look mem debug fuel first src lens cnt p = look mem debug fuel first src lens' cnt p := by
  simp only [look, matchGo_congr h]

/-- A match is no longer than what of the text was still to compare. -/
theorem matchGo_le {lens : List UInt8} {offs : List Int} {ls : List Bytes} (htab : Tabled lens ls)
    (hle : ∀ l ∈ ls, l.length ≤ labelLimit) {nlen noff m m' : Nat} {offset offset' : Int} (hn : nlen ≤ ls.length)
    (h : matchGo mem first src lens offs nlen noff (joined (ls.take nlen)).length m offset = .ok (m', offset')) :
    m' ≤ m + (joined (ls.take nlen)).length := by
  induction nlen generalizing noff m offset with
  | zero => cases noff <;> cases h
  | succ nlen ih =>
      cases noff with
      | zero => cases h
      | succ noff =>
          obtain ⟨l, hl⟩ : ∃ l, ls[nlen]? = some l := ⟨ls[nlen], List.getElem?_eq_getElem (by omega)⟩
          have hlen : lens[nlen]? = some (UInt8.ofNat l.length) := by
            rw [htab nlen (by omega), hl]
            rfl
          have hb : (UInt8.ofNat l.length).toNat = l.length :=
            toNat_ofNat_label (hle l (List.mem_of_getElem? hl))
          have htake : ls.take (nlen + 1) = ls.take nlen ++ [l] := by
            rw [List.take_add_one, hl]
            rfl
          have hj : nlen ≠ 0 → (joined (ls.take (nlen + 1))).length = (joined (ls.take nlen)).length + 1 + l.length := by
            intro h0
            have hne : ls.take nlen ≠ [] := by
              rw [← List.length_pos_iff, List.length_take]
              omega
            rw [htake, joined_append_singleton hne]
            simp only [List.length_append, List.length_singleton]
          have hj0 : nlen = 0 → (joined (ls.take (nlen + 1))).length = l.length := by
            rintro rfl
            rw [htake, List.take_zero, List.nil_append, joined_singleton]
          rw [matchGo, hlen] at h
          revert h
          cases offs[noff]? with
          | none => intro h; cases h
          | some off =>
              simp only [hb]
              split
              · intro h; cases h
              · split
                · intro h; cases h
                · split
                  · rintro ⟨⟩
                    exact Nat.le_add_right _ _
                  · split
                    · split
                      · rintro ⟨⟩
                        exact Nat.le_add_right _ _
                      · split
                        · rintro ⟨⟩
                          by_cases h0 : nlen = 0
                          · rw [if_pos h0, hj0 h0]
                            omega
                          · rw [if_neg h0, hj h0]
                            omega
                        · rename_i hend
                          intro h
                          have h0 : nlen ≠ 0 := fun h0 => hend (Or.inl h0)
                          have hstop : (joined (ls.take (nlen + 1))).length - l.length - 1 =
                              (joined (ls.take nlen)).length := by
                            rw [hj h0]
                            omega
                          rw [hstop] at h
                          have := ih (by omega) h
                          rw [hj h0]
                          omega
                    · intro h; cases h

/-- A match is no longer than the text. -/
theorem le_of_look {lens : List UInt8} {p m off : Nat} (htab : Tabled lens (labelsOf src))
    (hle : ∀ l ∈ labelsOf src, l.length ≤ labelLimit)
    (h : look mem debug fuel first src lens (labelsOf src).length p = .found m off) : m ≤ src.length := by
  unfold look at h
  cases hl : loop (getOffsBody mem debug first) fuel (p, []) with
  | none => rw [hl] at h; cases h
  | some r =>
      rw [hl] at h
      cases r with
      | error f => cases h
      | ok offs =>
          simp only at h
          split at h
          · cases h
          · cases hm : matchGo mem first src lens offs (labelsOf src).length offs.length src.length 0 0 with
            | error f => rw [hm] at h; cases h
            | ok r =>
                obtain ⟨m', offset⟩ := r
                rw [hm] at h
                obtain ⟨rfl, -⟩ : m' = m ∧ (offset + first).toNat = off := by simpa using h
                have hall : joined ((labelsOf src).take (labelsOf src).length) = src := by
                  rw [List.take_length, joined_labelsOf]
                have := matchGo_le htab hle le_rfl (by rw [hall]; exact hm)
                rw [hall] at this
                omega

/-- No answer is of more than the text. -/
theorem answers_le {src : Bytes} {dnptrs : List Nat} (hle : ∀ l ∈ labelsOf src, l.length ≤ labelLimit) :
    ∀ m x, .found m x ∈ answers mem debug fuel dnptrs src → m ≤ src.length := by
  intro m x hm
  obtain ⟨p, -, hp⟩ := List.mem_map.mp hm
  exact le_of_look (tabled_lensOf src) hle hp

/-! ## §2 — the loop. -/

/-- **The loop over the recorded names is the scan of their answers**, from the suffix the object has. -/
theorem visit_eq (mem : Bytes) (debug : Bool) (fuel first : Nat) (src : Bytes) (cnt : Nat) (todo : List Nat)
    (c : DnCompressor) :
    visit mem debug fuel first src cnt todo c =
      (scan src.length (todo.map (look mem debug fuel first src c.lens cnt)) (c.suffixLen, c.suffixOff)).map
        (·.map fun r => (c.found r.1.1 r.1.2, if r.2 then some .illegalByteSequence else none)) := by
  induction todo generalizing c with
  | nil => rfl
  | cons p todo ih =>
      rw [visit, List.map_cons, look]
      cases loop (getOffsBody mem debug first) fuel (p, []) with
      | none => rfl
      | some r =>
          cases r with
          | error f => rfl
          | ok offs =>
              simp only
              by_cases hnil : offs = []
              · rw [if_pos hnil, if_pos hnil]
                rfl
              · rw [if_neg hnil, if_neg hnil]
                cases matchGo mem first src c.lens offs cnt offs.length src.length 0 0 with
                | error f => rfl
                | ok r =>
                    obtain ⟨m, offset⟩ := r
                    simp only
                    by_cases hlt : c.suffixLen < m
                    · by_cases hfull : m = src.length
                      · rw [if_pos hlt, if_pos hfull, scan, if_pos (show (c.suffixLen, c.suffixOff).1 < m from hlt),
                          if_pos hfull]
                        rfl
                      · rw [if_pos hlt, if_neg hfull, scan_longer (show (c.suffixLen, c.suffixOff).1 < m from hlt) hfull, ih]
                        rfl
                    · rw [if_neg hlt, scan_shorter (show m ≤ (c.suffixLen, c.suffixOff).1 from Nat.le_of_not_lt hlt), ih]

/-- **The search of `prepare`** by the answers to its text. -/
theorem searched_eq (mem : Bytes) (debug : Bool) (fuel : Nat) {c : DnCompressor} {src : Bytes}
    (htab : Tabled c.lens (labelsOf src)) :
    searched mem debug fuel c src =
      (scan src.length (answers mem debug fuel c.dnptrs src) (c.suffixLen, c.suffixOff)).map
        (·.map fun r => settle src (c.found r.1.1 r.1.2, if r.2 then some .illegalByteSequence else none)) := by
  have hsame : c.dnptrs.map (look mem debug fuel (c.dnptrs.headD 0) src c.lens (labelsOf src).length) =
      answers mem debug fuel c.dnptrs src := by
    apply List.map_congr_left
    intro p _
    apply look_congr
    intro i hi
    rw [htab i hi, tabled_lensOf src i hi]
  rw [searched, visit_eq, hsame, Option.map_map]
  congr 1
  funext r
  cases r <;> rfl

end NetCpp.Dns
