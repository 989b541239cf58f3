/-
# NetCpp.Dns.Tables — how far the fixed tables of the compressor reach.

`include/xsl/net/dns/utils.h` and `src/net/dns/utils.cpp`.  Three tables have a fixed size, and nothing checks it but
an assertion: `lens[127]`, which `prepare` fills with the lengths of the labels; `offs[128]`, local to `prepare`, which
`get_offs` fills with the offsets of the labels of a RECORDED name; and `dnptrs[20]`, to which `compress` adds.

`Within` says of a call what keeps it inside the three, and `tables_hold` that runs of such calls stay inside.  The
invariant is `Sound`: a recorded name is a name with at most 128 labels, whatever the calls before it left in the
object, because the length of a text bounds what is written of it and what its suffix covers together.
-/
import NetCpp.Dns.Calls
import NetCpp.Dns.RoundTrip

namespace NetCpp.Dns

open NetCpp.Lib Answer

variable {mem dst bytes : Bytes} {debug : Bool} {fuel pos first i j k n stop : Nat} {c c' : DnCompressor}
  {lens lens' : List UInt8}

/-! ## §1 — the lengths in the table. -/

/-- No entry is longer than a label. -/
def Small (lens : List UInt8) : Prop := ∀ b ∈ lens, b.toNat ≤ labelLimit

theorem Small.store (h : Small lens) (hk : k ≤ labelLimit) (hs : store lens i (UInt8.ofNat k) = .ok lens') :
    Small lens' := by
  rw [Dns.store] at hs
  split at hs
  · cases hs
    intro b hb
    rcases List.mem_or_eq_of_mem_set hb with hb | rfl
    · exact h b hb
    · rw [UInt8.toNat_ofNat']
      exact (Nat.mod_le _ _).trans hk
  · cases hs

/-- `get_label_lens` stores lengths of labels. -/
theorem getLabelLens_small {dn : Bytes} {cnt cur : Nat} (hs : Small lens)
    (h : getLabelLens lens cnt cur dn = .ok (lens', k)) : Small lens' := by
  induction dn generalizing lens cnt cur with
  | nil =>
      rw [getLabelLens] at h
      by_cases hcur : cur > labelLimit
      · rw [if_pos hcur] at h
        cases h
        exact hs
      · rw [if_neg hcur] at h
        cases hst : store lens cnt (UInt8.ofNat cur) with
        | error f => rw [hst] at h; cases h
        | ok lens1 =>
            rw [hst] at h
            cases h
            exact hs.store (Nat.le_of_not_lt hcur) hst
  | cons b dn ih =>
      rw [getLabelLens] at h
      by_cases hb : b = 46
      · rw [if_pos hb] at h
        by_cases hcur : cur > labelLimit
        · rw [if_pos hcur] at h
          cases h
          exact hs
        · rw [if_neg hcur] at h
          obtain ⟨lens1, hst, h⟩ := bind_eq_ok.mp h
          exact ih (hs.store (Nat.le_of_not_lt hcur) hst) h
      · rw [if_neg hb] at h
        exact ih hs h

/-! ## §2 — the answer of a recorded name. -/

/-- At `off` stands a name whose labels take no more text than `len`. -/
def Covered (mem : Bytes) (len off : Nat) : Prop :=
  ∃ ls os size ptr, NameAt mem off ls os size ptr ∧ ls ≠ [] ∧ 2 * ls.length ≤ len + 1

theorem Covered.append {len off : Nat} (h : Covered mem len off) (more : Bytes) : Covered (mem ++ more) len off := by
  obtain ⟨ls, os, size, ptr, hn, hne, hle⟩ := h
  exact ⟨ls, os, size, ptr, hn.append more, hne, hle⟩

/-- A match covers the labels it is of. -/
theorem Suffix.covered {ls : List Bytes} {len off : Nat} (h : Suffix mem ls len off k) (hk : 0 < k) :
    Covered mem len off := by
  obtain ⟨os, size, ptr, hn, -⟩ := h.name hk
  have h2 := two_mul_length_le_of_ne_nil hn.labels_ne_nil
  have hlen : (ls.drop (ls.length - k)).length = k := by
    have := h.le
    simp only [List.length_drop]
    omega
  have hcover : wireLen (ls.reverse.take k) = wireLen (ls.drop (ls.length - k)) := by
    rw [List.take_reverse, wireLen_reverse]
  refine ⟨_, os, size, ptr, hn, ?_, ?_⟩
  · rw [← List.length_pos_iff, hlen]
    exact hk
  · rw [h.len hk, matchLen, hcover]
    split <;> omega

/-- An answer that goes beyond no table: no fault of writing, and a match is of a name. -/
def Tame (mem : Bytes) : Answer Fault Nat → Prop
  | .fault f => f ≠ .write
  | .found m off => 0 < m → Covered mem m off
  | .pending | .refused => True

/-- **A recorded name that is read from the right base answers within the tables**, and with all of a text whose labels
it ends in; the offsets of its labels have to fit a `short`, or to be left to the assertion of a debug build. -/
theorem look_name {src : Bytes} {p size : Nat} {es : List Bytes} {os : List Nat} {ptr : Bool} (debug : Bool) (fuel : Nat)
    (hn : NameAt mem p es os size ptr) (hfew : es.length ≤ offsMax) (hp : first ≤ p) (hbase : first = 0 ∨ ptr = false)
    (hnear : debug = true ∨ ∀ o ∈ os, o < first + 0x8000) (hle : ∀ l ∈ labelsOf src, l.length ≤ labelLimit) :
    Tame mem (look mem debug fuel first src (lensOf src) (labelsOf src).length p) ∧
      ∀ m x, look mem debug fuel first src (lensOf src) (labelsOf src).length p = .found m x →
        labelsOf src <:+ es → m = src.length := by
  have hlen : os.length = es.length := hn.labels.length_eq
  obtain ⟨r, hr, hcase⟩ := hn.getOffs_ends debug hbase [] (by simp [hlen]; omega)
  unfold look
  cases hl : loop (getOffsBody mem debug first) fuel (p, []) with
  | none => exact ⟨trivial, fun m x h => (by cases h)⟩
  | some r' =>
      obtain rfl := hr.unique hl
      rcases hcase with ⟨rfl, hdebug⟩ | ⟨rfl, -⟩
      · have hshort : ∀ o ∈ os, o < first + 0x8000 :=
          hnear.elim (fun hd o ho => (hdebug hd o ho).trans (by omega)) id
        rw [List.nil_append, map_short (hn.base_le hp hbase) hshort]
        by_cases hnil : offsFrom first os = []
        · simp only [hnil, if_true]
          exact ⟨trivial, fun m x h => (by cases h)⟩
        · simp only [hnil, if_false]
          have hes : es ≠ [] := by
            rw [← List.length_pos_iff, ← hlen]
            exact List.length_pos_iff.mpr fun h => hnil (by rw [h]; rfl)
          obtain ⟨m, offset, k, hm, hk, hall⟩ := match_name hn hes (labelsOf_ne_nil src) hle
            (tabled_lensOf src)
          rw [joined_labelsOf] at hm
          rw [hm]
          constructor
          · intro hpos
            rcases hk with ⟨-, rfl⟩ | ⟨hk, hs, -⟩
            · exact absurd hpos (Nat.lt_irrefl 0)
            · exact hs.covered hk
          · intro m' x h hsuffix
            obtain ⟨rfl, -⟩ : m = m' ∧ (offset + first).toNat = x := by simpa using h
            have hkall := hall.mpr hsuffix
            have hlabels := List.length_pos_iff.mpr (labelsOf_ne_nil src)
            rcases hk with ⟨h0, -⟩ | ⟨hk, hs, -⟩
            · omega
            · have hadd := matchLen_add hs.le hk
              rw [hkall, Nat.sub_self, List.take_zero, joined_labelsOf] at hadd
              rw [hs.len hk, hkall]
              exact hadd
      · exact ⟨fun h => (by cases h), fun m x h => (by cases h)⟩

/-! ## §3 — what `compress` writes. -/

/-- The loop over the labels changes nothing in front of them. -/
theorem writeLens_keeps {lensed : Bytes} (h : writeLens lens stop fuel j i dst = .ok (lensed, n)) :
    i ≤ n ∧ ∀ x < i, lensed[x]? = dst[x]? := by
  induction fuel generalizing j i dst with
  | zero =>
      cases h
      exact ⟨le_rfl, fun _ _ => rfl⟩
  | succ fuel ih =>
      rw [writeLens] at h
      by_cases hi : i < stop
      · rw [if_pos hi] at h
        cases hj : lens[j]? with
        | none => rw [hj] at h; cases h
        | some len =>
            rw [hj] at h
            obtain ⟨stored, hst, hrest⟩ := bind_eq_ok.mp h
            obtain ⟨hle, hsame⟩ := ih hrest
            refine ⟨by omega, fun x hx => ?_⟩
            rw [hsame x (by omega)]
            rw [store] at hst
            split at hst
            · cases hst
              exact List.getElem?_set_ne (by omega)
            · cases hst
      · rw [if_neg hi] at h
        cases h
        exact ⟨le_rfl, fun _ _ => rfl⟩

/-- **The labels written in front of a name are a name**, up to the first empty one: every label starts in front of
`stop` and is two bytes or more. -/
theorem writeLens_name {lensed : Bytes} {ts : List Bytes} {os : List Nat} {size : Nat} {ptr : Bool} (hs : Small lens)
    (h : writeLens lens stop fuel j i dst = .ok (lensed, n)) (hm : ∀ x < n, mem[pos + x]? = lensed[x]?)
    (hend : NameAt mem (pos + n) ts os size ptr) :
    ∃ ls os' size' ptr', NameAt mem (pos + i) ls os' size' ptr' ∧ 2 * ls.length ≤ stop + 1 - i + 2 * ts.length := by
  induction fuel generalizing j i dst with
  | zero =>
      cases h
      exact ⟨ts, os, size, ptr, hend, Nat.le_add_left _ _⟩
  | succ fuel ih =>
      rw [writeLens] at h
      by_cases hi : i < stop
      · rw [if_pos hi] at h
        cases hj : lens[j]? with
        | none => rw [hj] at h; cases h
        | some len =>
            rw [hj] at h
            obtain ⟨stored, hst, hrest⟩ := bind_eq_ok.mp h
            obtain ⟨hle, hsame⟩ := writeLens_keeps hrest
            -- the length byte stays where it was put
            have hbyte : mem[pos + i]? = some len := by
              rw [hm i (by omega), hsame i (by omega)]
              rw [store] at hst
              split at hst
              · rename_i hlt
                cases hst
                exact List.getElem?_set_self hlt
              · cases hst
            by_cases hzero : len = 0
            · rw [hzero] at hbyte
              exact ⟨[], [], 1, false, .root hbyte, Nat.zero_le _⟩
            · obtain ⟨ls, os', size', ptr', hn, hcount⟩ := ih hrest
              have hpos : 0 < len.toNat := Nat.pos_of_ne_zero fun h0 => hzero (UInt8.toNat_inj.mp h0)
              rw [show pos + (i + len.toNat + 1) = pos + i + len.toNat + 1 by omega] at hn
              have hroom := hn.lt
              have hl : readN mem (pos + i + 1) len.toNat = some ((mem.drop (pos + i + 1)).take len.toNat) :=
                if_pos (by omega)
              obtain ⟨-, -, hlen⟩ := readN_eq_some hl
              have hat : LabelAt mem (pos + i) ((mem.drop (pos + i + 1)).take len.toNat) :=
                ⟨by rw [hlen, UInt8.ofNat_toNat]; exact hbyte, by rw [hlen]; exact hl, by rw [hlen]; exact hpos,
                  by rw [hlen]; exact hs len (List.mem_of_getElem? hj)⟩
              refine ⟨_, _, _, _, .label hat (by rw [hlen]; exact hn), ?_⟩
              rw [List.length_cons]
              omega
      · rw [if_neg hi] at h
        cases h
        exact ⟨ts, os, size, ptr, hend, Nat.le_add_left _ _⟩

/-- What is left of the text in front of the suffix. -/
theorem sizeSub_of_readN {src text : Bytes} {len : Nat} (hsrc : src.length < 2 ^ 64) (hlen : len < 2 ^ 64)
    (h : readN src 0 (sizeSub src.length len) = some text) : sizeSub src.length len + len = src.length := by
  obtain ⟨hle, -, -⟩ := readN_eq_some h
  rw [sizeSub] at hle ⊢
  omega

/-! ## §4 — the invariant. -/

/-- The object and its message. -/
structure Sound (s : Writing) : Prop where
  lens : s.c.lens.length = 127
  small : Small s.c.lens
  src : s.c.src.length ≤ nameLimit
  first : ∀ p ∈ s.c.dnptrs, s.c.dnptrs.headD 0 ≤ p
  /-- recorded names are names, of no more labels than `offs` has room for -/
  names : ∀ p ∈ s.c.dnptrs, ∃ ls os size ptr, NameAt s.mem p ls os size ptr ∧ ls.length ≤ offsMax
  /-- so is the suffix, whichever name it was found for -/
  suffix : s.c.suffixLen = 0 ∧ s.c.suffixOff = 0 ∨ Covered s.mem s.c.suffixLen s.c.suffixOff
  suffixLen : s.c.suffixLen ≤ nameLimit

theorem sound_start (header : Bytes) : Sound (start header) where
  lens := by simp [start, DnCompressor.init]
  small := by simp [start, DnCompressor.init, Small]
  src := Nat.zero_le _
  first := by simp [start, DnCompressor.init]
  names := by simp [start, DnCompressor.init]
  suffix := Or.inl ⟨rfl, rfl⟩
  suffixLen := Nat.zero_le _

variable {s t : Writing}

/-- Writing behind the message. -/
theorem Sound.write (h : Sound s) (more : Bytes) : Sound { s with mem := s.mem ++ more } where
  lens := h.lens
  small := h.small
  src := h.src
  first := h.first
  names := by
    intro p hp
    obtain ⟨ls, os, size, ptr, hn, hle⟩ := h.names p hp
    exact ⟨ls, os, size, ptr, hn.append more, hle⟩
  suffix := h.suffix.imp_right fun hc => hc.append more
  suffixLen := h.suffixLen

/-! ## §5 — the calls that stay inside the tables. -/

/-- `get_label_lens` stops before its table is full: the name is refused before that, or has no more than 127
labels. -/
def FewLabels (name : Bytes) : Prop :=
  name = [] ∨ nameLimit < name.length ∨ LongLabel (undotted name) ∨ (labelsOf (undotted name)).length ≤ 127

/-- The name at `p` is written out, without a pointer. -/
def Plain (mem : Bytes) (p : Nat) : Prop := ∃ ls os size, NameAt mem p ls os size false

/-- The name at `p` ends in all the labels of `src`. -/
def EndsIn (mem : Bytes) (src : Bytes) (p : Nat) : Prop :=
  ∃ ls os size ptr, NameAt mem p ls os size ptr ∧ labelsOf src <:+ ls

/-- The labels of the name at `p` are less than 0x8000 bytes behind `first`, so that a `short` holds their offsets; a debug
build asserts that they are less than 0x4000 behind it. -/
def InShort (debug : Bool) (mem : Bytes) (first p : Nat) : Prop :=
  debug = true ∨ ∃ ls os size ptr, NameAt mem p ls os size ptr ∧ ∀ o ∈ os, o < first + 0x8000

/-- **Every recorded name the search gets to can be read from the first one**: that is where the message starts, or
the name has no pointer; and its labels are near it. The search gets to no name behind one that ends in all of the
text. -/
def Followed (debug : Bool) (mem : Bytes) (c : DnCompressor) (src : Bytes) : Prop :=
  ∀ pre p post, c.dnptrs = pre ++ p :: post → (c.suffixLen < src.length → ∀ q ∈ pre, ¬ EndsIn mem src q) →
    (c.dnptrs.headD 0 = 0 ∨ Plain mem p) ∧ InShort debug mem (c.dnptrs.headD 0) p

/-- `compress` writes no more than two bytes, and records nothing. -/
def Unrecorded (c : DnCompressor) : Prop :=
  c.src = [] ∨ c.suffixLen = c.src.length ∨ c.src.length = 1 ∧ c.suffixLen = 0 ∧ c.lens[0]? = some 0

/-- **What keeps a call inside the tables.** -/
def Within (debug : Bool) (s : Writing) : Act → Prop
  | .prepare _ name => FewLabels name ∧ (Sought name → Followed debug s.mem s.c (undotted name))
  | .compress _ => Unrecorded s.c ∨ s.c.dnptrs.length < dnptrsMax ∧ (s.c.suffixLen ≠ 0 → s.c.suffixOff < 0x4000)
  | .write _ => True

/-- **A call that goes beyond a table.** All that `prepare` stores, it stores in `lens` and in `offs`; the only
assertion of `compress` is the one of `add_dnptr`, and a release build stores instead. -/
def Overruns (debug : Bool) (s : Writing) : Act → Prop
  | .prepare fuel name => prepare s.mem debug fuel s.c name = some (.error .write)
  | .compress dst => s.ready = true ∧ compress true s.c s.mem.length dst = .error .assertion
  | .write _ => False

/-- A recorded name that can be read from the first one. -/
theorem Sound.look {src : Bytes} {p : Nat} (h : Sound s) (hp : p ∈ s.c.dnptrs)
    (hbase : s.c.dnptrs.headD 0 = 0 ∨ Plain s.mem p) (hnear : InShort debug s.mem (s.c.dnptrs.headD 0) p) (hle : ∀ l ∈ labelsOf src, l.length ≤ labelLimit) :
    Tame s.mem (Dns.look s.mem debug fuel (s.c.dnptrs.headD 0) src (lensOf src) (labelsOf src).length p) ∧
      ∀ m x, Dns.look s.mem debug fuel (s.c.dnptrs.headD 0) src (lensOf src) (labelsOf src).length p = .found m x →
        EndsIn s.mem src p → m = src.length := by
  obtain ⟨ls, os, size, ptr, hn, hfew⟩ := h.names p hp
  have hread : ∃ os size ptr, NameAt s.mem p ls os size ptr ∧ (s.c.dnptrs.headD 0 = 0 ∨ ptr = false) := by
    rcases hbase with h0 | ⟨ls', os', size', hn'⟩
    · exact ⟨os, size, ptr, hn, Or.inl h0⟩
    · obtain rfl := hn.det hn'
      exact ⟨os', size', false, hn', Or.inr rfl⟩
  obtain ⟨os', size', ptr', hn', hbase'⟩ := hread
  have hnear' : debug = true ∨ ∀ o ∈ os', o < s.c.dnptrs.headD 0 + 0x8000 := by
    refine hnear.imp_right ?_
    rintro ⟨ls', os'', size'', ptr'', hn'', hall⟩
    obtain ⟨-, rfl⟩ := hn'.unique hn''
    exact hall
  obtain ⟨htame, hfull⟩ := look_name debug fuel hn' hfew (h.first p hp) hbase' hnear' hle
  refine ⟨htame, fun m x hm hends => ?_⟩
  obtain ⟨es, os'', size'', ptr'', hes, hsuffix⟩ := hends
  obtain rfl := hn'.det hes
  exact hfull m x hm hsuffix

/-- A name that answered with less than all of the text does not end in it. -/
theorem Sound.not_endsIn {src : Bytes} (h : Sound s) (hf : Followed debug s.mem s.c src)
    (hle : ∀ l ∈ labelsOf src, l.length ≤ labelLimit) {pre post : List Nat} (hptrs : s.c.dnptrs = pre ++ post)
    (hless : ∀ q ∈ pre, ∃ m x, Dns.look s.mem debug fuel (s.c.dnptrs.headD 0) src (lensOf src) (labelsOf src).length q =
      .found m x ∧ m ≠ src.length) : ∀ q ∈ pre, ¬ EndsIn s.mem src q := by
  induction pre using List.reverseRecOn generalizing post with
  | nil => simp
  | append_singleton pre q ih =>
      rw [List.append_assoc, List.singleton_append] at hptrs
      have hbefore := ih hptrs fun a ha => hless a (List.mem_append_left _ ha)
      intro a ha
      rcases List.mem_append.mp ha with ha | ha
      · exact hbefore a ha
      · obtain rfl := List.mem_singleton.mp ha
        obtain ⟨m, x, hm, hne⟩ := hless a (List.mem_append_right _ ha)
        obtain ⟨hbase, hnear⟩ := hf pre a post hptrs fun _ => hbefore
        exact fun hends => hne ((h.look (by rw [hptrs]; simp) hbase hnear hle).2 m x hm hends)

/-- **Every answer the search gets to is within the tables**: the names in front of it were read, and did not end in
all of the text, or the search would be over. -/
theorem Sound.tame {src : Bytes} (h : Sound s) (hf : Followed debug s.mem s.c src)
    (hle : ∀ l ∈ labelsOf src, l.length ≤ labelLimit) :
    ∀ pre r post, answers s.mem debug fuel s.c.dnptrs src = pre ++ r :: post → (∀ q ∈ pre, q.isFound = true) →
      ((s.c.suffixLen, s.c.suffixOff).1 < src.length → ∀ x, .found src.length x ∉ pre) → Tame s.mem r := by
  intro pre r post heq hfound hpre
  obtain ⟨ps, rest, hptrs, rfl, hrest⟩ := List.map_eq_append_iff.mp heq
  obtain ⟨p, qs, rfl, rfl, -⟩ := List.map_eq_cons_iff.mp hrest
  have hreads : s.c.suffixLen < src.length → ∀ q ∈ ps, ¬ EndsIn s.mem src q := by
    intro hlt
    apply h.not_endsIn hf hle hptrs
    intro q hq
    have hin := List.mem_map_of_mem (f := Dns.look s.mem debug fuel (s.c.dnptrs.headD 0) src (lensOf src)
      (labelsOf src).length) hq
    obtain ⟨m, x, hm⟩ := eq_found (hfound _ hin)
    refine ⟨m, x, hm, ?_⟩
    rintro rfl
    exact hpre hlt x (hm ▸ hin)
  obtain ⟨hbase, hnear⟩ := hf ps p qs hptrs hreads
  exact (h.look (by rw [hptrs]; simp) hbase hnear hle).1

theorem length_undotted_le (name : Bytes) : (undotted name).length ≤ name.length := by
  rw [undotted]
  split <;> simp

/-- **`prepare` keeps the invariant.** -/
theorem Sound.prepare {name : Bytes} {r : Except Errc Nat} {ready : Bool} (h : Sound s)
    (hf : Sought name → Followed debug s.mem s.c (undotted name))
    (hp : Dns.prepare s.mem debug fuel s.c name = some (.ok (c, r))) : Sound ⟨s.mem, c, ready⟩ := by
  rcases prepare_ok h.lens hp with ⟨-, rfl, -⟩ | ⟨-, rfl, -⟩ | ⟨hne, hname, lens, k, hlen, hg, hrest⟩
  · exact ⟨h.lens, h.small, h.src, h.first, h.names, h.suffix, h.suffixLen⟩
  · exact ⟨h.lens, h.small, h.src, h.first, h.names, h.suffix, h.suffixLen⟩
  have hsmall := getLabelLens_small h.small hg
  have hund := length_undotted_le name
  rcases hrest with ⟨-, rfl, -⟩ | ⟨hle, hfew, -, best, e, hscan, rfl, -⟩
  · exact ⟨hlen, hsmall, h.src, h.first, h.names, h.suffix, h.suffixLen⟩
  · obtain ⟨-, hbest⟩ := scan_of_reached (answers_le hle)
      (h.tame (hf ⟨hne, hname, not_longLabel hle, hfew⟩) hle)
    have hsuffix : (best.1 = 0 ∧ best.2 = 0 ∨ Covered s.mem best.1 best.2) ∧ best.1 ≤ nameLimit := by
      rcases best_of_scan hscan with rfl | ⟨hgt, hmem⟩
      · exact ⟨h.suffix, h.suffixLen⟩
      · have hm := answers_le hle _ _ ((List.takeWhile_prefix isFound).subset hmem)
        refine ⟨Or.inr ?_, by omega⟩
        rcases hbest best e hscan with rfl | ⟨hgt, htame⟩
        · exact absurd hgt (Nat.lt_irrefl _)
        · exact htame (by omega)
    refine ⟨hlen, hsmall, ?_, h.first, h.names, hsuffix.1, hsuffix.2⟩
    show (if e then s.c.src else undotted name).length ≤ nameLimit
    split
    · exact h.src
    · omega

/-- A name that is not recorded is two bytes at most. -/
theorem unrecorded_le {copied lensed : Bytes} (hu : Unrecorded c) (hsrc : c.src ≠ [])
    (hw : writeLens c.lens (sizeSub c.src.length c.suffixLen) (sizeSub c.src.length c.suffixLen) 0 0 copied =
      .ok (lensed, i)) : i = 0 ∨ i = 1 ∧ c.suffixLen = 0 := by
  rcases hu with h | hfull | ⟨hone, hnone, hzero⟩
  · exact absurd h hsrc
  · left
    have hstop : sizeSub c.src.length c.suffixLen = 0 := by
      rw [hfull, sizeSub]
      omega
    rw [hstop, writeLens] at hw
    cases hw
    rfl
  · right
    have hstop : sizeSub c.src.length c.suffixLen = 1 := by
      rw [hone, hnone]
      rfl
    rw [hstop, writeLens, if_pos Nat.zero_lt_one, hzero] at hw
    obtain ⟨stored, -, hrest⟩ := bind_eq_ok.mp hw
    rw [writeLens] at hrest
    cases hrest
    exact ⟨rfl, hnone⟩

/-- **What `compress` writes in front of its ending is a name**, with the suffix behind it. -/
theorem Sound.compress_name {text copied lensed : Bytes} (h : Sound s) (hoff : s.c.suffixLen ≠ 0 → s.c.suffixOff < 0x4000)
    (hread : readN s.c.src 0 (sizeSub s.c.src.length s.c.suffixLen) = some text)
    (hw : writeLens s.c.lens (sizeSub s.c.src.length s.c.suffixLen) (sizeSub s.c.src.length s.c.suffixLen) 0 0 copied =
      .ok (lensed, i)) (hf : s.c.finish debug pos lensed i = .ok (c, bytes, n)) :
    ∃ ls os size ptr, NameAt (s.mem ++ bytes.take n) s.mem.length ls os size ptr ∧ ls.length ≤ offsMax := by
  have hsrc := h.src
  have hlen := h.suffixLen
  have hsplit := sizeSub_of_readN (by unfold nameLimit at hsrc; omega) (by unfold nameLimit at hlen; omega) hread
  have hat : ∀ {x : Nat} {b : UInt8}, x < n → bytes[x]? = some b →
      (s.mem ++ bytes.take n)[s.mem.length + x]? = some b := by
    intro x b hx hb
    rw [List.getElem?_append_right (Nat.le_add_right _ _), Nat.add_sub_cancel_left, List.getElem?_take_of_lt hx, hb]
  -- the ending, and the labels untouched in front of it
  have hend : ∃ ts os size ptr, NameAt (s.mem ++ bytes.take n) (s.mem.length + i) ts os size ptr ∧
      2 * ts.length ≤ s.c.suffixLen + 1 ∧ ∀ x < i, (s.mem ++ bytes.take n)[s.mem.length + x]? = lensed[x]? := by
    obtain ⟨-, -, ⟨hne, rfl, hroom, rfl⟩ | ⟨hz, rfl, hroom, rfl⟩⟩ := finish_ok hf
    · obtain ⟨ts, os, size, ptr, hn, hts, hcount⟩ := h.suffix.resolve_left fun h0 => hne h0.1
      obtain ⟨hhigh, htarget⟩ := pointer_bytes (hoff hne)
      have hb := hat (by omega) (show ((lensed.set i (UInt8.ofNat (0xc0 ||| s.c.suffixOff >>> 8))).set (i + 1)
          (UInt8.ofNat s.c.suffixOff))[i]? = _ by
        rw [List.getElem?_set_ne (by omega), List.getElem?_set_self (by omega)])
      have hb1 := hat (by omega) (show ((lensed.set i (UInt8.ofNat (0xc0 ||| s.c.suffixOff >>> 8))).set (i + 1)
          (UInt8.ofNat s.c.suffixOff))[i + 1]? = _ from List.getElem?_set_self (by rw [List.length_set]; omega))
      refine ⟨ts, os, 2, true, .pointer hb hhigh hb1 hts (by rw [htarget]; exact hn.append _), hcount, ?_⟩
      intro x hx
      rw [List.getElem?_append_right (Nat.le_add_right _ _), Nat.add_sub_cancel_left,
        List.getElem?_take_of_lt (by omega), List.getElem?_set_ne (by omega), List.getElem?_set_ne (by omega)]
    · have hzero : s.c.suffixOff = 0 := by
        rcases h.suffix with h0 | ⟨ts, -, -, -, -, hts, hcount⟩
        · exact h0.2
        · have := List.length_pos_iff.mpr hts
          omega
      have hb := (hat (Nat.lt_succ_self i) (List.getElem?_set_self hroom)).trans
        (show some (UInt8.ofNat s.c.suffixOff) = some 0 by rw [hzero]; rfl)
      refine ⟨[], [], 1, false, .root hb, Nat.zero_le _, ?_⟩
      intro x hx
      rw [List.getElem?_append_right (Nat.le_add_right _ _), Nat.add_sub_cancel_left,
        List.getElem?_take_of_lt (by omega), List.getElem?_set_ne (by omega)]
  obtain ⟨ts, os, size, ptr, hn, hcount, hsame⟩ := hend
  obtain ⟨ls, os', size', ptr', hname, htotal⟩ := writeLens_name h.small hw hsame hn
  refine ⟨ls, os', size', ptr', hname, ?_⟩
  unfold offsMax
  unfold nameLimit at hsrc
  omega

/-- **`compress` keeps the invariant.** -/
theorem Sound.compress (h : Sound s)
    (hin : Unrecorded s.c ∨ s.c.dnptrs.length < dnptrsMax ∧ (s.c.suffixLen ≠ 0 → s.c.suffixOff < 0x4000))
    (hc : Dns.compress debug s.c s.mem.length dst = .ok (c, bytes, n)) : Sound ⟨s.mem ++ bytes.take n, c, false⟩ := by
  have hwrite := h.write (bytes.take n)
  rcases compress_ok hc with ⟨-, rfl, -⟩ | ⟨hsrc, text, copied, lensed, i, hread, -, hw, hf⟩
  · exact ⟨h.lens, h.small, h.src, h.first, hwrite.names, hwrite.suffix, h.suffixLen⟩
  obtain ⟨rfl, -, hn⟩ := finish_ok hf
  by_cases h2 : 2 < n
  · have hoff : s.c.suffixLen ≠ 0 → s.c.suffixOff < 0x4000 := by
      rcases hin with hu | ⟨-, hoff⟩
      · have := unrecorded_le hu hsrc hw
        omega
      · exact hoff
    have hnew := h.compress_name hoff hread hw hf
    have hfirst : ∀ p ∈ s.c.dnptrs, s.c.dnptrs.headD 0 ≤ p ∧ p < s.mem.length := by
      intro p hp
      obtain ⟨ls, os, size, ptr, hname, -⟩ := h.names p hp
      exact ⟨h.first p hp, hname.lt⟩
    rw [if_pos h2]
    refine ⟨h.lens, h.small, Nat.zero_le _, ?_, ?_, Or.inl ⟨rfl, rfl⟩, Nat.zero_le _⟩
    · intro p hp
      show (s.c.dnptrs ++ [s.mem.length]).headD 0 ≤ p
      rcases List.mem_append.mp hp with hp | hp
      · have hhead : (s.c.dnptrs ++ [s.mem.length]).headD 0 = s.c.dnptrs.headD 0 := by
          cases hptrs : s.c.dnptrs with
          | nil => rw [hptrs] at hp; cases hp
          | cons q qs => rfl
        rw [hhead]
        exact (hfirst p hp).1
      · obtain rfl := List.mem_singleton.mp hp
        cases hptrs : s.c.dnptrs with
        | nil => exact le_rfl
        | cons q qs => exact Nat.le_of_lt (hfirst q (by rw [hptrs]; exact List.mem_cons_self)).2
    · intro p hp
      rcases List.mem_append.mp hp with hp | hp
      · exact hwrite.names p hp
      · obtain rfl := List.mem_singleton.mp hp
        exact hnew
  · rw [if_neg h2]
    exact ⟨h.lens, h.small, Nat.zero_le _, h.first, hwrite.names, Or.inl ⟨rfl, rfl⟩, Nat.zero_le _⟩

/-! ## §6 — runs. -/

/-- A call inside the tables keeps the invariant. -/
theorem Sound.step {a : Act} (h : Sound s) (hin : Within debug s a) (hs : Dns.step debug s a = some t) : Sound t := by
  rcases step_cases hs with ⟨fuel, name, c, r, rfl, hp, hmem, hc, -⟩ | ⟨dst, c, bytes, n, rfl, -, hc, rfl⟩ |
    ⟨more, -, rfl⟩
  · obtain ⟨mem, c, ready⟩ := t
    obtain rfl : mem = s.mem := hmem
    obtain rfl := hc
    exact h.prepare hin.2 hp
  · exact h.compress hin hc
  · exact h.write more

/-- `prepare` stores inside `lens` and `offs`. -/
theorem Sound.prepare_inside {name : Bytes} (h : Sound s) (hfewl : FewLabels name)
    (hf : Sought name → Followed debug s.mem s.c (undotted name)) :
    Dns.prepare s.mem debug fuel s.c name ≠ some (.error .write) := by
  intro hp
  rcases prepare_cases h.lens s.mem debug fuel name with ⟨-, hp'⟩ | ⟨-, hp'⟩ |
    ⟨hne, hle, ⟨-, lens, -, -, hp'⟩ | ⟨hlong, hmany, -⟩ | ⟨hshort, hfew, lens, -, htab, -, hp'⟩⟩
  · rw [hp] at hp'
    cases hp'
  · rw [hp] at hp'
    cases hp'
  · rw [hp] at hp'
    cases hp'
  · rcases hfewl with rfl | hgt | hl | hfew
    · exact hne rfl
    · omega
    · exact hlong hl
    · omega
  · obtain ⟨hfault, -⟩ := scan_of_reached (answers_le hshort)
      (h.tame (hf ⟨hne, hle, not_longLabel hshort, hfew⟩) hshort)
    rw [hp, searched_eq s.mem debug fuel htab] at hp'
    cases hscan : scan (undotted name).length (answers s.mem debug fuel s.c.dnptrs (undotted name))
        (s.c.suffixLen, s.c.suffixOff) with
    | none => rw [hscan] at hp'; cases hp'
    | some r =>
        rw [hscan] at hp'
        cases r with
        | ok r => cases hp'
        | error f =>
            cases hp'
            exact hfault _ hscan rfl

/-- Two steps of which the first does not fail an assertion. -/
theorem bind_assertion {α β : Type} {x : Except Fault α} {f : α → Except Fault β} (hx : x ≠ .error .assertion)
    (h : x.bind f = .error .assertion) : ∃ y, x = .ok y ∧ f y = .error .assertion :=
  (bind_eq_error.mp h).resolve_left hx

theorem store_no_assertion {α : Type} (a : List α) (i : Nat) (b : α) : store a i b ≠ .error .assertion := by
  rw [store]
  split <;> simp

theorem writeLens_no_assertion (lens : List UInt8) (stop fuel j i : Nat) (dst : Bytes) :
    writeLens lens stop fuel j i dst ≠ .error .assertion := by
  induction fuel generalizing j i dst with
  | zero => simp [writeLens]
  | succ fuel ih =>
      rw [writeLens]
      split
      · split
        · simp
        · intro h
          obtain ⟨stored, -, h⟩ := bind_assertion (store_no_assertion _ _ _) h
          exact ih _ _ _ h
      · simp

theorem finish_no_assertion (h : c.dnptrs.length < dnptrsMax ∨ i = 0 ∨ i = 1 ∧ c.suffixLen = 0) (pos : Nat)
    (dst : Bytes) : c.finish debug pos dst i ≠ .error .assertion := by
  intro hf
  rw [DnCompressor.finish] at hf
  obtain ⟨⟨d, m⟩, hx, hf⟩ := bind_assertion (by
    split
    · intro hx
      cases hst : store dst i (UInt8.ofNat (0xc0 ||| c.suffixOff >>> 8)) with
      | ok d => rw [hst] at hx; cases hx
      | error f =>
          rw [hst] at hx
          cases hx
          exact store_no_assertion _ _ _ hst
    · simp) hf
  obtain ⟨d', -, hf⟩ := bind_assertion (store_no_assertion _ _ _) hf
  have hm : c.dnptrs.length < dnptrsMax ∨ ¬ m + 1 > 2 := by
    apply h.imp_right
    intro hi
    by_cases hlen : c.suffixLen = 0
    · rw [if_neg (by simpa using hlen)] at hx
      cases hx
      omega
    · rw [if_pos hlen] at hx
      cases hst : store dst i (UInt8.ofNat (0xc0 ||| c.suffixOff >>> 8)) with
      | error f => rw [hst] at hx; cases hx
      | ok d =>
          rw [hst] at hx
          cases hx
          omega
  by_cases h2 : m + 1 > 2
  · rw [if_pos h2, DnCompressor.addDnptr, if_pos (hm.resolve_right fun hn => hn h2)] at hf
    cases hf
  · rw [if_neg h2] at hf
    cases hf

/-- `compress` records inside `dnptrs`. -/
theorem compress_inside (hin : Unrecorded c ∨ c.dnptrs.length < dnptrsMax) (pos : Nat) (dst : Bytes) :
    Dns.compress debug c pos dst ≠ .error .assertion := by
  intro h
  rw [Dns.compress] at h
  by_cases hsrc : c.src = []
  · rw [if_pos hsrc] at h
    cases hst : store dst 0 0 with
    | ok d => rw [hst] at h; cases h
    | error f =>
        rw [hst] at h
        cases h
        exact store_no_assertion _ _ _ hst
  rw [if_neg hsrc] at h
  cases hread : readN c.src 0 (sizeSub c.src.length c.suffixLen) with
  | none => rw [hread] at h; cases h
  | some text =>
      rw [hread] at h
      obtain ⟨copied, -, h⟩ := bind_assertion (by rw [copyTo]; split <;> simp) h
      obtain ⟨⟨lensed, i⟩, hw, hf⟩ := bind_assertion (writeLens_no_assertion _ _ _ _ _ _) h
      apply finish_no_assertion _ pos lensed hf
      rcases hin with hu | hcap
      · exact Or.inr (unrecorded_le hu hsrc hw)
      · exact Or.inl hcap

/-- **The tables are never overrun**: in every state that calls inside the tables reach, a call inside the tables goes
beyond none of them. -/
theorem tables_hold {header : Bytes} (hrun : Run (step debug) (Within debug) (start header) s) (a : Act)
    (hin : Within debug s a) : ¬ Overruns debug s a := by
  have h : Sound s := hrun.invariant (fun s a t h hin hs => h.step hin hs) (sound_start header)
  cases a with
  | prepare fuel name => exact h.prepare_inside hin.1 hin.2
  | compress dst =>
      rintro ⟨-, hc⟩
      exact compress_inside (hin.imp_right And.left) s.mem.length dst hc
  | write more => exact id

/-- `www.a` on a fresh compressor. -/
theorem tables_hold_fresh : ¬ Overruns true (start []) (.prepare 0 [119, 119, 119, 46, 97]) := by
  have h0 : Run (step true) (Within true) (start []) (start []) := Run.refl _
  apply tables_hold h0
  refine ⟨Or.inr (Or.inr (Or.inr (by decide))), ?_⟩
  intro _ pre p post h
  simp [start, DnCompressor.init] at h

/-- **All three tables can be overrun**: `lens` by a text of 128 labels of one byte; `offs` by a recorded name whose
pointer, counted from the first recorded name, leads into a circle; `dnptrs` by 21 names. -/
theorem tables_overrun :
    Overruns true (start []) (.prepare 0 (joined (List.replicate 128 [97]))) ∧
      (∃ s, Reachable (step true) (start (List.replicate 12 0)) s ∧ Overruns true s (.prepare 300 [122])) ∧
      ∃ s, Reachable (step true) (start []) s ∧ Overruns true s (.compress [0, 0, 0]) := by
  refine ⟨?_, ?_, ?_⟩
  · show prepare [] true 0 .init (joined (List.replicate 128 [97])) = some (.error .write)
    decide +kernel
  · have hs : exec (step true) (start (List.replicate 12 0)) [.prepare 9 [119, 119, 119, 46, 97],
        .compress (List.replicate 7 0), .prepare 9 [98, 46, 97], .compress [0, 0, 0, 0],
        .write [0, 0, 0, 0, 0, 1, 120, 0xc0, 16]] =
      some ⟨List.replicate 12 0 ++ [3, 119, 119, 119, 1, 97, 0, 1, 98, 0xc0, 16, 0, 0, 0, 0, 0, 1, 120, 0xc0, 16],
        ⟨[], 1 :: 1 :: List.replicate 125 0, [12, 19], 0, 0⟩, false⟩ := by decide +kernel
    have hp : prepare (List.replicate 12 0 ++ [3, 119, 119, 119, 1, 97, 0, 1, 98, 0xc0, 16, 0, 0, 0, 0, 0, 1, 120, 0xc0, 16])
        true 300 ⟨[], 1 :: 1 :: List.replicate 125 0, [12, 19], 0, 0⟩ [122] = some (.error .write) := by decide +kernel
    exact ⟨_, reachable_of_exec hs, hp⟩
  · -- `a`, `b`, .. one after another
    have hs : (exec (step true) (start []) ((List.range 20).flatMap (fun k =>
        [.prepare 9 [UInt8.ofNat (97 + k)], .compress [0, 0, 0]]) ++ [.prepare 9 [117]])).any (fun s =>
          s.ready && decide (compress true s.c s.mem.length [0, 0, 0] = .error .assertion)) = true := by decide +kernel
    obtain ⟨s, hs, hover⟩ := (Option.any_eq_true _ _).mp hs
    rw [Bool.and_eq_true, decide_eq_true_iff] at hover
    exact ⟨s, reachable_of_exec hs, hover⟩

end NetCpp.Dns
