/-
# NetCpp.Dns.Suffix — what `prepare` finds and what `compress` writes.

`prepare` walks over the recorded names and keeps the best match.  `Suffix mem ls len off k` is what its
result means: the last `k` labels of the name stand in the message at `off`, and `len` is the length of
text they cover.  `visit_spec` is the loop; `compress_spec` the bytes that come of it.

The base of `get_offs` is the first recorded name.  A recorded name that ENDS IN A POINTER is therefore
read correctly only when that name lies at offset 0; `Unpointed` says of a table of recorded names that
the loop meets no such name before it stops.
-/
import NetCpp.Dns.Names

namespace NetCpp.Dns

open NetCpp.Lib

variable {mem : Bytes} {debug : Bool} {ls : List Bytes} {first len off k : Nat}

/-! ## §1 — the result of a search. -/

/-- The last `k` labels of `ls` stand at `off`, and cover `len` bytes of its text. -/
structure Suffix (mem : Bytes) (ls : List Bytes) (len off k : Nat) : Prop where
  le : k ≤ ls.length
  none : k = 0 → len = 0 ∧ off = 0
  len : 0 < k → len = matchLen ls.reverse k
  name : 0 < k → ∃ os size ptr, NameAt mem off (ls.drop (ls.length - k)) os size ptr ∧ off < mem.length

theorem suffix_none (mem : Bytes) (ls : List Bytes) : Suffix mem ls 0 0 0 :=
  ⟨Nat.zero_le _, fun _ => ⟨rfl, rfl⟩, fun h => absurd h (by simp), fun h => absurd h (by simp)⟩

/-- What the match of `k` labels leaves of the text is the text of the labels before them. -/
theorem matchLen_add (h : k ≤ ls.length) (hk : 0 < k) :
    matchLen ls.reverse k + (joined (ls.take (ls.length - k))).length = (joined ls).length := by
  have hls : ls ≠ [] := by rintro rfl; simp at h; omega
  have hsplit : wireLen (ls.take (ls.length - k)) + wireLen (ls.drop (ls.length - k)) = wireLen ls := by
    rw [← wireLen_append, List.take_append_drop]
  have htake : wireLen (ls.reverse.take k) = wireLen (ls.drop (ls.length - k)) := by
    rw [List.take_reverse, wireLen_reverse]
  have hall := length_joined hls
  rw [matchLen, htake, List.length_reverse]
  by_cases hkl : k = ls.length
  · have hz : ls.take (ls.length - k) = [] := by simp [hkl]
    rw [hz] at hsplit ⊢
    simp only [wireLen_nil] at hsplit
    rw [if_pos hkl, show (joined []).length = 0 from rfl]
    omega
  · have hne : ls.take (ls.length - k) ≠ [] := by simp [hls]; omega
    have := length_joined hne
    rw [if_neg hkl]
    omega

theorem Suffix.len_le (h : Suffix mem ls len off k) : len ≤ (joined ls).length := by
  rcases Nat.eq_zero_or_pos k with hk | hk
  · rw [(h.none hk).1]; exact Nat.zero_le _
  · rw [h.len hk, ← matchLen_add h.le hk]; exact Nat.le_add_right _ _

/-- The text in front of the match. -/
theorem Suffix.front (h : Suffix mem ls len off k) :
    (joined (ls.take (ls.length - k))).length = (joined ls).length - len := by
  rcases Nat.eq_zero_or_pos k with hk | hk
  · rw [(h.none hk).1, hk]; simp
  · rw [h.len hk, ← matchLen_add h.le hk]; omega

section Valid

variable (hv : ∀ l ∈ ls, ValidLabel l)

include hv

theorem joined_take_pos (hk : k < ls.length) : 0 < (joined (ls.take (ls.length - k))).length := by
  have hne : ls.take (ls.length - k) ≠ [] := by
    simp only [ne_eq, List.take_eq_nil_iff, not_or]
    exact ⟨by omega, by rintro rfl; simp at hk⟩
  have h2 : 2 * (ls.take (ls.length - k)).length ≤ _ :=
    two_mul_length_le fun l hl => hv l (List.mem_of_mem_take hl)
  have := length_joined hne
  have : 0 < (ls.take (ls.length - k)).length := List.length_pos_iff.mpr hne
  omega

/-- A match covers the whole text exactly when it is of all labels. -/
theorem Suffix.full_iff (h : Suffix mem ls len off k) (hls : ls ≠ []) :
    len = (joined ls).length ↔ k = ls.length := by
  have hpos : 0 < ls.length := List.length_pos_iff.mpr hls
  have hfront := h.front
  have hle := h.len_le
  constructor
  · intro he
    by_contra hne
    have := joined_take_pos hv (show k < ls.length from lt_of_le_of_ne h.le hne)
    omega
  · rintro rfl
    rw [Nat.sub_self, List.take_zero, show (joined []).length = 0 from rfl] at hfront
    omega

theorem Suffix.pos_iff (h : Suffix mem ls len off k) : 0 < len ↔ 0 < k := by
  constructor
  · intro hl
    by_contra hk
    have := (h.none (by omega)).1
    omega
  · intro hk
    have hls : ls ≠ [] := by
      rintro rfl
      have := h.le
      simp at this
      omega
    have h2 : 2 * (ls.reverse.take k).length ≤ _ := two_mul_length_le fun l hl =>
      hv l (List.mem_reverse.mp (List.mem_of_mem_take hl))
    have : (ls.reverse.take k).length = k := by simp [h.le]
    rw [h.len hk, matchLen]
    split <;> omega

end Valid

/-! ## §2 — the table of recorded names. -/

/-- A recorded name. -/
structure Entry where
  pos : Nat
  labels : List Bytes
  /-- it ends in a pointer -/
  ptr : Bool

/-- The entry describes the message, and `get_offs` may count from `first`. -/
structure Entry.Holds (mem : Bytes) (first : Nat) (e : Entry) : Prop where
  ne : e.labels ≠ []
  length : e.labels.length ≤ 127
  base : first ≤ e.pos
  name : ∃ os size, NameAt mem e.pos e.labels os size e.ptr

/-- The last labels agree. -/
def Shares (a b : List Bytes) : Prop := a ≠ [] ∧ a.getLast? = b.getLast?

/-- The search for `ls` meets no name that ends in a pointer before it finds all of `ls`. -/
def Unpointed : List Entry → List Bytes → Prop
  | [], _ => True
  | e :: tab, ls => e.ptr = false ∧ (ls <:+ e.labels ∨ Unpointed tab ls)

theorem unpointed_append_singleton {tab : List Entry} {e : Entry} {ls : List Bytes} :
    Unpointed (tab ++ [e]) ls ↔
      Unpointed tab ls ∧ ((∃ x ∈ tab, ls <:+ x.labels) ∨ e.ptr = false) := by
  induction tab with
  | nil => simp [Unpointed]
  | cons x tab ih =>
      simp only [List.cons_append, Unpointed, ih, List.mem_cons, exists_eq_or_imp]
      by_cases hs : ls <:+ x.labels <;> simp [hs, and_assoc]

/-- The labels of a text against those of a name in the message, read from the base `first`. -/
theorem match_name {p size : Nat} {es : List Bytes} {os : List Nat} {ptr : Bool} {lens : List UInt8}
    (hn : NameAt mem p es os size ptr) (hes : es ≠ []) (hls : ls ≠ [])
    (hle : ∀ l ∈ ls, l.length ≤ labelLimit)
    (hlens : ∀ i, i < ls.length → lens[i]? = ls[i]?.map fun l => UInt8.ofNat l.length) :
    ∃ m offset k, matchGo mem first (joined ls) lens (offsFrom first os) ls.length (offsFrom first os).length
          (joined ls).length 0 0 = .ok (m, offset) ∧
        ((k = 0 ∧ m = 0) ∨ (0 < k ∧ Suffix mem ls m (offset + first).toNat k ∧ Shares es ls)) ∧
        (k = ls.length ↔ ls <:+ es) := by
  have hforall := hn.labels
  have hlen : os.length = es.length := hforall.length_eq
  have hoff : (offsFrom first os).length = os.length := List.length_map ..
  set rr := ((offsFrom first os).zip es).reverse with hrr
  have hsnd : rr.map (·.2) = es.reverse := by
    rw [hrr, List.map_reverse, List.map_snd_zip (by omega)]
  have hfst : rr.map (·.1) = (offsFrom first os).reverse := by
    rw [hrr, List.map_reverse, List.map_fst_zip (by omega)]
  have hrlen : rr.length = os.length := by simp [hrr, hoff, hlen]
  have hrne : rr ≠ [] := by
    rw [← List.length_pos_iff, hrlen, hlen, List.length_pos_iff]; exact hes
  have hat : ∀ x ∈ rr, 0 ≤ (first : Int) + x.1 ∧ LabelAt mem ((first : Int) + x.1).toNat x.2 := by
    rintro ⟨o, r⟩ hx
    rw [hrr, List.mem_reverse, offsFrom, List.zip_map_left, List.mem_map] at hx
    obtain ⟨⟨q, s⟩, hq, hqs⟩ := hx
    obtain ⟨rfl, rfl⟩ : (q : Int) - first = o ∧ s = r := by simpa using hqs
    have hat := List.forall₂_iff_zip.mp hforall |>.2 hq
    have haddr : ((first : Int) + ((q : Int) - first)).toNat = q := by omega
    exact ⟨by simp only; omega, haddr.symm ▸ hat⟩
  have hoffs : ∀ i, i < rr.length → (offsFrom first os)[i]? = rr.reverse[i]?.map (·.1) := by
    intro i _
    have hri : rr.reverse.map (·.1) = offsFrom first os := by rw [List.map_reverse, hfst, List.reverse_reverse]
    rw [← hri, List.getElem?_map]
  -- the code walks both names from the back: labels against reversed labels
  have hmatch := matchGo_eq ls.reverse rr 0 0 (by simpa using hls) hrne
    (by simpa using hlens) hoffs hat (by simpa using hle) (List.prefix_refl _)
  rw [List.length_reverse, List.reverse_reverse, hrlen] at hmatch
  rw [hoff, hmatch]
  rcases matchSpec_cases ls.reverse rr 0 0 (by simpa using hls) hrne with
    ⟨hne, hs⟩ | ⟨k, o, hk, hkl, htake, ho, hs, hmax⟩
  · -- already the last labels differ
    refine ⟨0, 0, 0, by rw [hs], .inl ⟨rfl, rfl⟩, ?_⟩
    constructor
    · intro h0; exact absurd (List.length_eq_zero_iff.mp h0.symm) hls
    · rintro ⟨pre, hpre⟩
      rw [hsnd, ← hpre] at hne
      obtain ⟨l, hl⟩ := Option.ne_none_iff_exists'.mp (mt List.getLast?_eq_none_iff.mp hls)
      simp [hl] at hne
  · rw [List.length_reverse] at hkl
    rw [hsnd] at htake hmax
    have hkr : k ≤ es.length := by
      have := congrArg List.length htake
      simp at this
      omega
    -- the matched labels, read forwards
    have hdrop : es.drop (es.length - k) = ls.drop (ls.length - k) := by
      have := congrArg List.reverse htake
      simpa [List.take_reverse] using this
    have hpos : os[es.length - k]? = some (o + first).toNat := by
      rw [hfst, List.getElem?_reverse (by omega), offsFrom, List.getElem?_map, List.length_map] at ho
      obtain ⟨q, hq, rfl⟩ := Option.map_eq_some_iff.mp ho
      have haddr : ((q : Int) - first + first).toNat = q := by omega
      rw [haddr, ← hq]
      congr 1
      omega
    obtain ⟨size', ptr', htail⟩ := hn.tail hpos
    refine ⟨_, o, k, by rw [hs], .inr ⟨hk, ⟨hkl, fun h => absurd h (by omega), fun _ => by simp,
      fun _ => ⟨_, size', ptr', hdrop ▸ htail, hn.offs_lt _ (List.mem_of_getElem? hpos)⟩⟩, hes, ?_⟩, ?_⟩
    · have := congrArg List.head? htake
      rw [List.head?_take, List.head?_take] at this
      simpa [show k ≠ 0 by omega] using this
    · rw [← List.reverse_prefix]
      constructor
      · rintro rfl
        rw [← List.length_reverse, List.take_length] at htake
        exact ⟨_, by rw [← htake]; exact List.take_append_drop ls.reverse.length _⟩
      · -- the whole name is a suffix, so the walk cannot have stopped earlier
        rintro ⟨rest, hrest⟩
        rcases hmax with h | h | h
        · simpa using h
        · have := congrArg List.length hrest
          simp at this
          omega
        · rw [← hrest] at h
          by_contra hne
          rw [List.getElem?_append_left (by simp; omega)] at h
          exact h rfl

/-- The labels of a name stand behind the base that is right for it. -/
theorem NameAt.base_le {p size : Nat} {es : List Bytes} {os : List Nat} {ptr : Bool} (h : NameAt mem p es os size ptr)
    (hp : first ≤ p) (hbase : first = 0 ∨ ptr = false) : ∀ o ∈ os, first ≤ o := by
  rcases hbase with rfl | rfl
  · exact fun o _ => Nat.zero_le o
  · exact fun o ho => hp.trans (h.le_of_plain o ho)

/-- One recorded name against the text. -/
theorem match_entry (debug : Bool) {e : Entry} {lens : List UInt8} (hmem : mem.length < 0x4000)
    (he : e.Holds mem first) (hbase : first = 0 ∨ e.ptr = false) (hls : ls ≠ [])
    (hv : ∀ l ∈ ls, ValidLabel l)
    (hlens : ∀ i, i < ls.length → lens[i]? = ls[i]?.map fun l => UInt8.ofNat l.length) :
    ∃ N, ∃ offs : List Int, offs ≠ [] ∧
      (∀ fuel, N ≤ fuel → loop (getOffsBody mem debug first) fuel (e.pos, []) = some (.ok offs)) ∧
      ∃ m offset k, matchGo mem first (joined ls) lens offs ls.length offs.length (joined ls).length 0 0 =
          .ok (m, offset) ∧
        ((k = 0 ∧ m = 0) ∨ (0 < k ∧ Suffix mem ls m (offset + first).toNat k ∧ Shares e.labels ls)) ∧
        (k = ls.length ↔ ls <:+ e.labels) := by
  obtain ⟨os, size, hn⟩ := he.name
  have hlen : os.length = e.labels.length := hn.labels.length_eq
  have hge := hn.base_le he.base hbase
  obtain ⟨N, hN⟩ : Halts (getOffsBody mem debug first) _ _ :=
    hn.getOffs hmem hbase hge [] (by have := he.length; simp [offsMax, hlen]; omega)
  refine ⟨N, offsFrom first os, ?_, fun fuel hf => loop_mono hf hN, ?_⟩
  · rw [ne_eq, offsFrom, List.map_eq_nil_iff, ← List.length_eq_zero_iff, hlen, List.length_eq_zero_iff]; exact he.ne
  · exact match_name hn he.ne hls (fun l hl => (hv l hl).le) hlens

/-! ## §3 — `prepare`. -/

/-- `c` with the result of a search. -/
def DnCompressor.found (c : DnCompressor) (len off : Nat) : DnCompressor :=
  { c with suffixLen := len, suffixOff := off }

/-- **The loop over the recorded names** ends, and what it keeps is a suffix of the name in the message:
all of it exactly when some recorded name ends in it. -/
theorem visit_spec (debug : Bool) (hmem : mem.length < 0x4000) (hls : ls ≠ []) (hv : ∀ l ∈ ls, ValidLabel l) :
    ∀ (tab : List Entry) (c : DnCompressor) (k : Nat),
      (∀ i, i < ls.length → c.lens[i]? = ls[i]?.map fun l => UInt8.ofNat l.length) →
      (∀ e ∈ tab, e.Holds mem first) → (first = 0 ∨ Unpointed tab ls) →
      Suffix mem ls c.suffixLen c.suffixOff k → k < ls.length →
      ∃ N len off k', Suffix mem ls len off k' ∧
        (∀ fuel, N ≤ fuel → visit mem debug fuel first (joined ls) ls.length (tab.map (·.pos)) c =
          some (.ok (c.found len off, none))) ∧
        (k' = ls.length ↔ ∃ e ∈ tab, ls <:+ e.labels) ∧ (0 < k' → 0 < k ∨ ∃ e ∈ tab, Shares e.labels ls)
  | [], c, k, _, _, _, hs, hk => by
      refine ⟨0, _, _, k, hs, fun fuel _ => rfl, ?_, fun h => .inl h⟩
      simp only [List.not_mem_nil, false_and, exists_false, iff_false]
      omega
  | e :: tab, c, k, hlens, htab, hbase, hs, hk => by
      have hbase' : first = 0 ∨ e.ptr = false := hbase.imp_right (·.1)
      obtain ⟨N, offs, hne, hoffs, m, offset, k1, hmatch, hcase, hfull⟩ :=
        match_entry debug hmem (htab e (by simp)) hbase' hls hv hlens
      -- the pass: `visit` unfolded once, for enough fuel
      have hpass : ∀ fuel, N ≤ fuel →
          visit mem debug fuel first (joined ls) ls.length ((e :: tab).map (·.pos)) c =
            if c.suffixLen < m then
              if m = (joined ls).length then some (.ok (c.found m (offset + first).toNat, none))
              else visit mem debug fuel first (joined ls) ls.length (tab.map (·.pos))
                (c.found m (offset + first).toNat)
            else visit mem debug fuel first (joined ls) ls.length (tab.map (·.pos)) c := by
        intro fuel hf
        rw [List.map_cons, visit, hoffs fuel hf]
        simp only [hne, hmatch, if_false]
        rfl
      have htab' : ∀ x ∈ tab, x.Holds mem first := fun x hx => htab x (by simp [hx])
      by_cases hend : ls <:+ e.labels
      · -- all labels match: the loop breaks
        have hk1 : k1 = ls.length := hfull.mpr hend
        have hlspos : 0 < ls.length := List.length_pos_iff.mpr hls
        obtain ⟨h0, -⟩ | ⟨hk1pos, hs1, hsh⟩ := hcase
        · omega
        · have hm : m = (joined ls).length := (hs1.full_iff hv hls).mpr hk1
          have hlt : c.suffixLen < m := by
            have h1 := hs.len_le
            have h2 := mt (hs.full_iff hv hls).mp (by omega)
            omega
          refine ⟨N, m, (offset + first).toNat, k1, hs1, fun fuel hf => ?_, ?_, fun _ => .inr ⟨e, by simp, hsh⟩⟩
          · rw [hpass fuel hf, if_pos hlt, if_pos hm]
          · exact ⟨fun _ => ⟨e, by simp, hend⟩, fun _ => hk1⟩
      · have hrest : first = 0 ∨ Unpointed tab ls := hbase.imp_right fun h => h.2.resolve_left hend
        have hk1 : k1 ≠ ls.length := mt hfull.mp hend
        have hmem_iff : (∃ x ∈ e :: tab, ls <:+ x.labels) ↔ ∃ x ∈ tab, ls <:+ x.labels := by
          simp [hend]
        by_cases hlt : c.suffixLen < m
        · -- a longer match than before
          obtain ⟨-, h0⟩ | ⟨hk1pos, hs1, hsh⟩ := hcase
          · omega
          · have hm : m ≠ (joined ls).length := mt (hs1.full_iff hv hls).mp hk1
            obtain ⟨N', len, off, k', hs', hvis, hiff, -⟩ := visit_spec debug hmem hls hv tab
              (c.found m (offset + first).toNat) k1 hlens htab' hrest hs1 (lt_of_le_of_ne hs1.le hk1)
            refine ⟨max N N', len, off, k', hs', fun fuel hf => ?_, hiff.trans hmem_iff.symm,
              fun _ => .inr ⟨e, by simp, hsh⟩⟩
            rw [hpass fuel (by omega), if_pos hlt, if_neg hm, hvis fuel (by omega)]
            rfl
        · obtain ⟨N', len, off, k', hs', hvis, hiff, hpos⟩ := visit_spec debug hmem hls hv tab c k hlens htab'
            hrest hs hk
          refine ⟨max N N', len, off, k', hs', fun fuel hf => ?_, hiff.trans hmem_iff.symm, fun h => ?_⟩
          · rw [hpass fuel (by omega), if_neg hlt, hvis fuel (by omega)]
          · rcases hpos h with h | ⟨x, hx, hsh⟩
            · exact .inl h
            · exact .inr ⟨x, by simp [hx], hsh⟩

theorem Name.joined_ne_nil (n : Name) (hn : n.labels ≠ []) : joined n.labels ≠ [] := by
  have h1 := two_mul_length_le n.valid
  have h2 := length_joined hn
  have h3 : 0 < n.labels.length := List.length_pos_iff.mpr hn
  intro h
  rw [h] at h2
  simp at h2
  omega

/-- The text without its trailing dot. -/
theorem Name.strip (n : Name) (hn : n.labels ≠ []) :
    (if n.text.getLast? = some 46 then n.text.dropLast else n.text) = joined n.labels := by
  unfold Name.text
  rw [if_neg hn]
  cases n.dotted with
  | true => simp
  | false =>
      obtain ⟨front, l, hl⟩ : ∃ front l, n.labels = front ++ [l] :=
        ⟨_, _, (List.dropLast_append_getLast hn).symm⟩
      have hlast := n.valid l (by simp [hl])
      -- the last byte belongs to a label
      have hne : (joined n.labels).getLast? ≠ some 46 := by
        have hlne : l ≠ [] := List.length_pos_iff.mp hlast.pos
        have hget : (joined n.labels).getLast? = l.getLast? := by
          rw [hl]
          by_cases hf : front = []
          · simp [hf]
          · obtain ⟨b, hb⟩ := Option.ne_none_iff_exists'.mp (mt List.getLast?_eq_none_iff.mp hlne)
            rw [joined_append_singleton hf, List.getLast?_append, hb]
            rfl
        rw [hget]
        intro h
        exact hlast.undotted (List.mem_of_getLast? h)
      simp [hne]

theorem Name.length_text (n : Name) : n.text.length ≤ nameLimit := by
  have hw := n.wire
  unfold Name.text
  split
  · decide
  · rename_i hn
    have := length_joined hn
    simp only [List.length_append]
    split <;> simp <;> omega

theorem Name.text_ne_nil (n : Name) : n.text ≠ [] := by
  unfold Name.text
  split
  · simp
  · rename_i hn
    simp [n.joined_ne_nil hn]

theorem prepare_root {c : DnCompressor} {n : Name} (hn : n.labels = []) (fuel : Nat) :
    prepare mem debug fuel c n.text = some (.ok (c, .ok 1)) := by
  simp [prepare, Name.text, hn, nameLimit]

/-- **`prepare` on a name with labels** terminates with a value. -/
theorem prepare_spec (debug : Bool) {c : DnCompressor} {tab : List Entry} (n : Name) (hn : n.labels ≠ [])
    (hmem : mem.length < 0x4000) (hclean : c.suffixLen = 0 ∧ c.suffixOff = 0)
    (hlens : c.lens.length = 127) (hptrs : c.dnptrs = tab.map (·.pos))
    (htab : ∀ e ∈ tab, e.Holds mem (c.dnptrs.headD 0))
    (hbase : c.dnptrs.headD 0 = 0 ∨ Unpointed tab n.labels) :
    ∃ fuel lens len off k, Suffix mem n.labels len off k ∧ lens.length = 127 ∧
      (∀ i, i < n.labels.length → lens[i]? = n.labels[i]?.map fun l => UInt8.ofNat l.length) ∧
      prepare mem debug fuel c n.text = some (.ok
        (⟨joined n.labels, lens, c.dnptrs, len, off⟩, .ok (encodedSize (joined n.labels) len))) ∧
      (k = n.labels.length ↔ ∃ e ∈ tab, n.labels <:+ e.labels) ∧
      (0 < k → ∃ e ∈ tab, Shares e.labels n.labels) := by
  obtain ⟨lens, hget, hlen, -, hat⟩ := getLabelLens_joined n.labels c.lens 0 hn
    (fun l hl => (n.valid l hl).undotted) (fun l hl => (n.valid l hl).le) (by rw [hlens]; have := n.length_le; omega)
  have hat' : ∀ i, i < n.labels.length → lens[i]? = n.labels[i]?.map fun l => UInt8.ofNat l.length := by
    simpa using hat
  have hpos : 0 < n.labels.length := List.length_pos_iff.mpr hn
  have hs0 : Suffix mem n.labels c.suffixLen c.suffixOff 0 := by
    rw [hclean.1, hclean.2]; exact suffix_none mem n.labels
  obtain ⟨N, len, off, k, hs, hvis, hfull, hshare⟩ := visit_spec debug hmem hn n.valid tab
    { c with lens := lens } 0 hat' htab hbase hs0 hpos
  refine ⟨N, lens, len, off, k, hs, hlen.trans hlens, hat', ?_, hfull, fun h => ?_⟩
  · have hcond : ¬ (n.text = [] ∨ nameLimit < n.text.length) := by
      have := n.length_text
      simp [n.text_ne_nil]
      omega
    rw [prepare, if_neg hcond]
    simp only [n.strip hn, n.joined_ne_nil hn, if_false, hget, Nat.zero_add, hpos.ne']
    have hvisN := hvis N le_rfl
    rw [← hptrs] at hvisN
    rw [hvisN]
    rfl
  · exact (hshare h).resolve_left (by simp)

/-! ## §4 — `compress`. -/

/-- The labels in wire form. -/
def wire (ls : List Bytes) : Bytes := (ls.map fun l => UInt8.ofNat l.length :: l).flatten

@[simp] theorem wire_nil : wire [] = [] := rfl

@[simp] theorem wire_cons (l : Bytes) (ls : List Bytes) :
    wire (l :: ls) = UInt8.ofNat l.length :: l ++ wire ls := by
  simp [wire]

@[simp] theorem length_wire (ls : List Bytes) : (wire ls).length = wireLen ls := by
  induction ls with
  | nil => rfl
  | cons l ls ih => simp [ih]; omega

theorem store_length {α : Type} (a rest : List α) (x b : α) (i : Nat) (hi : i = a.length) :
    store (a ++ x :: rest) i b = .ok (a ++ b :: rest) := by
  subst hi
  simp [store]

/-- The loop that overwrites the byte in front of each label with its length. -/
theorem writeLens_spec {lens : List UInt8} (rest : Bytes) :
    ∀ (fs : List Bytes) (done : Bytes) (x : UInt8) (fuel j stop : Nat), fs ≠ [] →
      (∀ l ∈ fs, ValidLabel l) → stop = done.length + (joined fs).length → fs.length ≤ fuel →
      (∀ i, i < fs.length → lens[j + i]? = fs[i]?.map fun l => UInt8.ofNat l.length) →
      writeLens lens stop fuel j done.length (done ++ x :: joined fs ++ rest) =
        .ok (done ++ wire fs ++ rest, done.length + wireLen fs)
  | [], _, _, _, _, _, h, _, _, _, _ => absurd rfl h
  | l :: fs, done, x, fuel, j, stop, _, hv, hstop, hfuel, hlens => by
      have hl := hv l (by simp)
      obtain ⟨fuel, rfl⟩ : ∃ f, fuel = f + 1 := ⟨fuel - 1, by simp at hfuel; omega⟩
      have hj : lens[j]? = some (UInt8.ofNat l.length) := by simpa using hlens 0 (by simp)
      have hb := toNat_ofNat_label hl.le
      have hlt : done.length < stop := by
        have := hl.pos
        rw [hstop]
        by_cases hfs : fs = []
        · simp [hfs]; omega
        · rw [joined_cons l hfs, List.length_append, List.length_append]; omega
      have hlen' : (done ++ UInt8.ofNat l.length :: l).length = done.length + l.length + 1 := by simp; omega
      rw [writeLens, if_pos hlt, hj]
      simp only [List.append_assoc, List.cons_append, hb, store_length done _ x _ _ rfl, Except.bind]
      by_cases hfs : fs = []
      · subst hfs
        rw [joined_singleton] at hstop ⊢
        have hend : writeLens lens stop fuel (j + 1) (done.length + l.length + 1)
            (done ++ UInt8.ofNat l.length :: (l ++ rest)) =
            .ok (done ++ UInt8.ofNat l.length :: (l ++ rest), done.length + l.length + 1) := by
          cases fuel with
          | zero => rfl
          | succ f => rw [writeLens, if_neg (by omega)]
        rw [hend]
        simp [Nat.add_assoc]
      · have ih := writeLens_spec rest fs (done ++ UInt8.ofNat l.length :: l) 46 fuel (j + 1) stop hfs
          (fun r hr => hv r (by simp [hr]))
          (by rw [hstop, joined_cons l hfs]; simp; omega) (by simpa using hfuel)
          (by
            intro i hi
            have := hlens (i + 1) (by simpa using hi)
            simpa [Nat.add_assoc, Nat.add_comm 1] using this)
        rw [hlen'] at ih
        rw [joined_cons l hfs]
        simp only [List.append_assoc, List.cons_append, List.nil_append] at ih ⊢
        rw [ih]
        simp [Nat.add_assoc, Nat.add_comm, Nat.add_left_comm]

/-- The bytes that end an encoded name: a pointer to its known suffix, or the zero byte. -/
def ending (k off : Nat) : Bytes :=
  if k = 0 then [0] else [UInt8.ofNat (0xc0 ||| off >>> 8), UInt8.ofNat off]

theorem joined_append {a b : List Bytes} (ha : a ≠ []) (hb : b ≠ []) :
    joined (a ++ b) = joined a ++ [46] ++ joined b := by
  induction a with
  | nil => exact absurd rfl ha
  | cons l a ih =>
      by_cases h : a = []
      · simp [h, joined_cons l hb]
      · rw [List.cons_append, joined_cons l (by simp [h]), ih h, joined_cons l h]
        simp

theorem joined_take_leads (ls : List Bytes) (j : Nat) : joined (ls.take j) <+: joined ls := by
  by_cases h1 : ls.take j = []
  · rw [h1]; exact List.nil_prefix
  by_cases h2 : ls.drop j = []
  · have he : ls.take j = ls := List.take_of_length_le (List.drop_eq_nil_iff.mp h2)
    exact he.symm ▸ List.prefix_rfl
  · have h := joined_append h1 h2
    rw [List.take_append_drop] at h
    exact ⟨[46] ++ joined (ls.drop j), by rw [h]; simp⟩

theorem readN_of_leads {a b : Bytes} (h : a <+: b) {n : Nat} (hn : n = a.length) : readN b 0 n = some a := by
  obtain ⟨t, rfl⟩ := h
  subst hn
  simp [readN]

/-- The size `prepare` announces. -/
theorem Suffix.encodedSize (h : Suffix mem ls len off k) (hls : ls ≠ []) (hv : ∀ l ∈ ls, ValidLabel l)
    (hsize : (joined ls).length < 2 ^ 16) :
    Dns.encodedSize (joined ls) len = wireLen (ls.take (ls.length - k)) + (ending k off).length := by
  have hle := h.len_le
  have hfront := h.front
  have hfull := h.full_iff hv hls
  have hpos := h.pos_iff hv
  unfold Dns.encodedSize
  rw [sizeSub_of_le hle (by omega), ← hfront]
  unfold ending
  by_cases hk : k = ls.length
  · have hkpos : 0 < k := by rw [hk]; exact List.length_pos_iff.mpr hls
    have hlen := hfull.mpr hk
    have hz : ls.take (ls.length - k) = [] := by simp [hk]
    rw [hz, if_neg (by omega), if_neg (by omega)]
    rfl
  · have hne : ls.take (ls.length - k) ≠ [] := by
      have := h.le
      simp [hls]
      omega
    have hj := length_joined hne
    have hmod : (joined (ls.take (ls.length - k))).length < 2 ^ 16 := by omega
    by_cases h0 : k = 0
    · rw [if_pos h0, if_neg (by omega)]
      simp only [List.length_singleton]
      omega
    · rw [if_neg h0, if_pos (by omega)]
      simp only [List.length_cons, List.length_nil]
      omega

/-- The text of `front` copied behind a free byte, and its length bytes: `e` bytes stay. -/
theorem copyTo_writeLens {lens : List UInt8} {dst : Bytes} {front : List Bytes} {e : Nat}
    (hv : ∀ l ∈ front, ValidLabel l) (he : 1 ≤ e) (hdst : dst.length = wireLen front + e)
    (hlens : ∀ i, i < front.length → lens[i]? = front[i]?.map fun l => UInt8.ofNat l.length) :
    ∃ dst' rest, rest.length = e ∧ copyTo dst 1 (joined front) = .ok dst' ∧
      writeLens lens (joined front).length (joined front).length 0 0 dst' =
        .ok (wire front ++ rest, wireLen front) := by
  obtain ⟨x, tail, rfl⟩ := List.exists_cons_of_length_pos (show 0 < dst.length by omega)
  simp only [List.length_cons] at hdst
  by_cases hfn : front = []
  · subst hfn
    exact ⟨x :: tail, x :: tail, by simpa using hdst, by simp [copyTo, joined], rfl⟩
  · have hj := length_joined hfn
    have h2 := two_mul_length_le hv
    refine ⟨[] ++ x :: joined front ++ tail.drop (joined front).length,
      tail.drop (joined front).length, by simp; omega, ?_, ?_⟩
    · have hle : (joined front).length ≤ tail.length := by omega
      simp [copyTo, hle, Nat.add_comm 1]
    · have hw := writeLens_spec (tail.drop (joined front).length) front [] x
        (joined front).length 0 (joined front).length hfn hv (by simp) (by omega) (by simpa using hlens)
      simpa using hw

/-- The end of a name without a known suffix. -/
theorem finish_plain {c : DnCompressor} {pos i : Nat} {done : Bytes} {r : UInt8}
    (hlen : c.suffixLen = 0) (hoff : c.suffixOff = 0) (hi : i = done.length) (h2 : 2 ≤ i)
    (hcap : c.dnptrs.length < dnptrsMax) :
    c.finish debug pos (done ++ [r]) i =
      .ok (⟨[], c.lens, c.dnptrs ++ [pos], 0, 0⟩, done ++ [0], i + 1) := by
  have hst : store (done ++ [r]) i (UInt8.ofNat c.suffixOff) = .ok (done ++ [0]) := by
    rw [hoff]; exact store_length done [] r _ i hi
  have hgt : i + 1 > 2 := by omega
  simp only [DnCompressor.finish, hlen, ne_eq, not_true_eq_false, if_false, Except.bind, hst,
    if_pos hgt, DnCompressor.addDnptr, if_pos hcap, Except.map, DnCompressor.reset]

/-- The end of a name with a known suffix; a bare pointer is not recorded. -/
theorem finish_pointer {c : DnCompressor} {pos i : Nat} {done : Bytes} {r1 r2 : UInt8}
    (hlen : 0 < c.suffixLen) (hi : i = done.length) (hcap : c.dnptrs.length < dnptrsMax) :
    c.finish debug pos (done ++ [r1, r2]) i =
      .ok (⟨[], c.lens, if i = 0 then c.dnptrs else c.dnptrs ++ [pos], 0, 0⟩,
        done ++ [UInt8.ofNat (0xc0 ||| c.suffixOff >>> 8), UInt8.ofNat c.suffixOff], i + 2) := by
  have hst1 := store_length done [r2] r1 (UInt8.ofNat (0xc0 ||| c.suffixOff >>> 8)) i hi
  have hst2 := store_length (done ++ [UInt8.ofNat (0xc0 ||| c.suffixOff >>> 8)]) [] r2
    (UInt8.ofNat c.suffixOff) (i + 1) (by simp [hi])
  simp only [List.append_assoc, List.singleton_append] at hst2
  simp only [DnCompressor.finish, ne_eq, hlen.ne', not_false_eq_true, if_true, hst1, Except.map,
    Except.bind, hst2]
  by_cases h0 : i = 0
  · simp only [h0, Nat.zero_add, gt_iff_lt, Nat.lt_irrefl, if_false, if_true, DnCompressor.reset]
  · have hgt : i + 1 + 1 > 2 := by omega
    simp only [if_pos hgt, DnCompressor.addDnptr, if_pos hcap, DnCompressor.reset, if_neg h0]

/-- **What `compress` writes**: the labels in front of the known suffix, then the ending, and nothing
else; a name that is not just a pointer is recorded. -/
theorem compress_spec (debug : Bool) (c : DnCompressor) (pos : Nat) (dst : Bytes) (hls : ls ≠ [])
    (hv : ∀ l ∈ ls, ValidLabel l) (hsize : (joined ls).length < 2 ^ 16)
    (hs : Suffix mem ls c.suffixLen c.suffixOff k) (hsrc : c.src = joined ls)
    (hlens : ∀ i, i < ls.length → c.lens[i]? = ls[i]?.map fun l => UInt8.ofNat l.length)
    (hdst : dst.length = wireLen (ls.take (ls.length - k)) + (ending k c.suffixOff).length)
    (hcap : c.dnptrs.length < dnptrsMax) :
    compress debug c pos dst = .ok
      (⟨[], c.lens, if k = ls.length then c.dnptrs else c.dnptrs ++ [pos], 0, 0⟩,
        wire (ls.take (ls.length - k)) ++ ending k c.suffixOff, dst.length) := by
  have hle := hs.le
  have hlspos : 0 < ls.length := List.length_pos_iff.mpr hls
  have hn : sizeSub c.src.length c.suffixLen = (joined (ls.take (ls.length - k))).length := by
    rw [hsrc, sizeSub_of_le hs.len_le (by omega), hs.front]
  have hne : c.src ≠ [] := by
    have h1 := length_joined hls
    have h2 := two_mul_length_le hv
    rw [hsrc, ← List.length_pos_iff]
    omega
  have hread : readN c.src 0 (joined (ls.take (ls.length - k))).length =
      some (joined (ls.take (ls.length - k))) := by
    rw [hsrc]; exact readN_of_leads (joined_take_leads ls _) rfl
  have hflen : (ls.take (ls.length - k)).length = ls.length - k := by simp
  have hfv : ∀ l ∈ ls.take (ls.length - k), ValidLabel l := fun l hl => hv l (List.mem_of_mem_take hl)
  have h2 := two_mul_length_le hfv
  have hflens : ∀ i, i < (ls.take (ls.length - k)).length →
      c.lens[i]? = (ls.take (ls.length - k))[i]?.map fun l => UInt8.ofNat l.length := by
    intro i hi
    rw [hlens i (by omega), List.getElem?_take_of_lt (by omega)]
  have hone : 1 ≤ (ending k c.suffixOff).length := by unfold ending; split <;> simp
  obtain ⟨dst', rest, hrest, hcopy, hwl⟩ := copyTo_writeLens hfv hone hdst hflens
  have hrun : compress debug c pos dst = c.finish debug pos (wire (ls.take (ls.length - k)) ++ rest)
      (wireLen (ls.take (ls.length - k))) := by
    rw [compress, if_neg hne, hn, hread]
    simp only [hcopy, Except.bind, hwl]
  rw [hrun]
  by_cases hk : k = 0
  · -- no known suffix: the name ends in a zero byte
    obtain ⟨hlen0, hoff0⟩ := hs.none hk
    have hend : ending k c.suffixOff = [0] := if_pos hk
    obtain ⟨r, rfl⟩ : ∃ r, rest = [r] := List.length_eq_one_iff.mp (by rw [hrest, hend]; rfl)
    rw [finish_plain hlen0 hoff0 (length_wire _).symm (by omega) hcap, hdst, hend,
      if_neg (show k ≠ ls.length by omega)]
    rfl
  · have hlen := (hs.pos_iff hv).mpr (Nat.pos_of_ne_zero hk)
    have hend : ending k c.suffixOff =
        [UInt8.ofNat (0xc0 ||| c.suffixOff >>> 8), UInt8.ofNat c.suffixOff] := if_neg hk
    obtain ⟨r1, r2, rfl⟩ : ∃ r1 r2, rest = [r1, r2] := List.length_eq_two.mp (by rw [hrest, hend]; rfl)
    have hzero : wireLen (ls.take (ls.length - k)) = 0 ↔ k = ls.length := by
      constructor
      · intro h; omega
      · intro h; simp [h]
    rw [finish_pointer hlen (length_wire _).symm hcap, hdst, hend]
    simp only [hzero]
    rfl

end NetCpp.Dns
