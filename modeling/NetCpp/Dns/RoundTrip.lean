/-
# NetCpp.Dns.RoundTrip — names through `DnCompressor` and back through `DnDecompressor`.

Names are appended one after another to a message that starts with any header: `prepare` announces a
size, `compress` writes that many bytes over whatever the memory held.  `RoundTrips` is the contract: the
message outgrows 14-bit pointers, or every name was written in the announced size and is read back from
the finished message by both overloads of `decompress`.

The contract fails.  `get_offs` counts the targets of pointers from the first recorded name instead of
the start of the message, so that a search which meets a recorded name ENDING IN A POINTER reads the
wrong place (`round_trip_fails`: it is caught in a loop).  `Harmless` says of a header and a list of names
that no search does; then the contract holds (`round_trip_of_harmless`).
-/
import NetCpp.Dns.Suffix

namespace NetCpp.Dns

open NetCpp.Lib

variable {mem : Bytes} {debug : Bool} {ls : List Bytes} {len off k : Nat}

/-! ## §1 — the contract. -/

/-- The message so far and the compressor. -/
structure Session where
  mem : Bytes
  c : DnCompressor

/-- `n` bytes of the memory behind the message, as they were before. -/
def freshBytes (fresh : Nat → UInt8) (pos n : Nat) : Bytes := (List.range n).map fun i => fresh (pos + i)

/-- `prepare(name)` terminates with the value `n` and `compress` then writes exactly `n` bytes. -/
def Appended (debug : Bool) (fresh : Nat → UInt8) (s : Session) (name : Bytes) (n : Nat) (s' : Session) :
    Prop :=
  ∃ fuel c c' bytes, prepare s.mem debug fuel s.c name = some (.ok (c, .ok n)) ∧
    compress debug c s.mem.length (freshBytes fresh s.mem.length n) = .ok (c', bytes, n) ∧
    s' = ⟨s.mem ++ bytes, c'⟩

/-- A name in the message: its position, its size and its labels. -/
structure Item where
  pos : Nat
  size : Nat
  labels : List Bytes

/-- Names appended one after another. -/
inductive Appends (debug : Bool) (fresh : Nat → UInt8) : Session → List Name → Session → List Item → Prop
  | nil (s : Session) : Appends debug fresh s [] s []
  | cons {s s1 s' : Session} {name : Name} {names : List Name} {n : Nat} {items : List Item} :
      Appended debug fresh s name.text n s1 → Appends debug fresh s1 names s' items →
      Appends debug fresh s (name :: names) s' (⟨s.mem.length, n, name.labels⟩ :: items)

/-- Both overloads read the item back: no error, its size consumed, its labels with a dot each. -/
def DecodesTo (msg : Bytes) (debug : Bool) (i : Item) : Prop :=
  (∃ c, Halts (spanBody msg debug i.pos) (enter i.pos) (.returned none c) ∧
    c.dn = spelled i.labels ∧ c.taken = i.size) ∧
  ∃ c, Halts (ptrBody msg debug) (enter i.pos) (.returned none c) ∧
    c.dn = spelled i.labels ∧ c.taken = i.size

/-- **Name compression round-trips** on `names` behind `header`, unless the message outgrows the
pointers. -/
def RoundTrips (debug : Bool) (fresh : Nat → UInt8) (header : Bytes) (names : List Name) : Prop :=
  (∃ pre s items, pre <+: names ∧ Appends debug fresh ⟨header, .init⟩ pre s items ∧
    0x4000 ≤ s.mem.length) ∨
  ∃ s items, Appends debug fresh ⟨header, .init⟩ names s items ∧ s.mem.length < 0x4000 ∧
    ∀ i ∈ items, DecodesTo s.mem debug i

/-! ## §2 — the condition. -/

/-- `ls` is recorded after the names `earlier`, and ends in a pointer. -/
def Pointed (earlier : List (List Bytes)) (ls : List Bytes) : Prop :=
  ls ≠ [] ∧ (∀ e ∈ earlier, ¬ ls <:+ e) ∧ ∃ e ∈ earlier, Shares e ls

/-- **No search follows a pointer from the wrong base**: the first name is recorded at offset 0, or
every name after one that ends in a pointer is the root or already found in front of it. -/
def Harmless (header : Bytes) (names : List (List Bytes)) : Prop :=
  (header = [] ∧ ∃ ls, names.head? = some ls ∧ ls ≠ []) ∨
  ∀ pre a mid b post, names = pre ++ a :: mid ++ b :: post → Pointed pre a → b = [] ∨ ∃ e ∈ pre, b <:+ e

/-- The table of recorded names after the names `earlier`. -/
inductive Tracks : List (List Bytes) → List Entry → Prop
  | nil : Tracks [] []
  | skip {earlier : List (List Bytes)} {tab : List Entry} {ls : List Bytes} : Tracks earlier tab →
      (ls = [] ∨ ∃ e ∈ tab, ls <:+ e.labels) → Tracks (earlier ++ [ls]) tab
  | add {earlier : List (List Bytes)} {tab : List Entry} {e : Entry} : Tracks earlier tab →
      e.labels ≠ [] → (∀ x ∈ tab, ¬ e.labels <:+ x.labels) →
      (e.ptr = true → ∃ x ∈ tab, Shares x.labels e.labels) → Tracks (earlier ++ [e.labels]) (tab ++ [e])

section Tracks

variable {earlier : List (List Bytes)} {tab : List Entry}

/-- Every name ends some recorded name. -/
theorem Tracks.found (h : Tracks earlier tab) : ∀ ls ∈ earlier, ls ≠ [] → ∃ e ∈ tab, ls <:+ e.labels := by
  induction h with
  | nil => simp
  | skip _ hls ih =>
      intro l hl hne
      rcases List.mem_append.mp hl with hl | hl
      · exact ih l hl hne
      · obtain rfl : l = _ := by simpa using hl
        exact hls.resolve_left hne
  | @add earlier tab e _ _ _ _ ih =>
      intro l hl hne
      rcases List.mem_append.mp hl with hl | hl
      · obtain ⟨x, hx, hs⟩ := ih l hl hne
        exact ⟨x, by simp [hx], hs⟩
      · obtain rfl : l = e.labels := by simpa using hl
        exact ⟨e, by simp, List.suffix_refl _⟩

theorem Tracks.labels_mem (h : Tracks earlier tab) : ∀ e ∈ tab, e.labels ∈ earlier := by
  induction h with
  | nil => simp
  | skip _ _ ih => intro e he; exact List.mem_append_left _ (ih e he)
  | add _ _ _ _ ih =>
      intro e he
      rcases List.mem_append.mp he with he | he
      · exact List.mem_append_left _ (ih e he)
      · obtain rfl : e = _ := by simpa using he
        simp

theorem Tracks.length_le (h : Tracks earlier tab) : tab.length ≤ earlier.length := by
  induction h with
  | nil => simp
  | skip _ _ ih => simp; omega
  | add _ _ _ _ ih => simpa using ih

/-- The condition on the names, carried over to the table that the search for `ls` walks over. -/
theorem Tracks.unpointed (h : Tracks earlier tab) (hne : ls ≠ [])
    (hcond : ∀ pre a mid, earlier = pre ++ a :: mid → Pointed pre a → ∃ e ∈ pre, ls <:+ e) :
    Unpointed tab ls := by
  induction h with
  | nil => trivial
  | @skip earlier tab l _ _ ih =>
      exact ih fun pre a mid he hp => hcond pre a (mid ++ [l]) (by rw [he]; simp) hp
  | @add earlier tab e ht hlab hnew hshare ih =>
      rw [unpointed_append_singleton]
      refine ⟨ih fun pre a mid he hp => hcond pre a (mid ++ [e.labels]) (by rw [he]; simp) hp, ?_⟩
      cases hptr : e.ptr with
      | false => exact .inr rfl
      | true =>
          -- `e` ends in a pointer, so by the condition `ls` is found in front of it
          obtain ⟨x, hx, hxs⟩ := hshare hptr
          have hrec : ∀ y ∈ earlier, ¬ e.labels <:+ y := by
            intro y hy hsuf
            have hyne : y ≠ [] := by rintro rfl; exact hlab (List.suffix_nil.mp hsuf)
            obtain ⟨z, hz, hyz⟩ := ht.found y hy hyne
            exact hnew z hz (hsuf.trans hyz)
          obtain ⟨y, hy, hys⟩ := hcond earlier e.labels [] (by simp)
            ⟨hlab, hrec, x.labels, ht.labels_mem x hx, hxs⟩
          have hyne : y ≠ [] := by rintro rfl; exact hne (List.suffix_nil.mp hys)
          obtain ⟨z, hz, hyz⟩ := ht.found y hy hyne
          exact .inl ⟨z, hz, hys.trans hyz⟩

end Tracks

/-! ## §3 — one name. -/

theorem pointer_bytes (h : off < 0x4000) :
    high (UInt8.ofNat (0xc0 ||| off >>> 8)) = 0xc0 ∧
      target (UInt8.ofNat (0xc0 ||| off >>> 8)) (UInt8.ofNat off) = off := by
  have key : ∀ q : Fin 64, high (UInt8.ofNat (0xc0 ||| q.val)) = 0xc0 ∧
      (UInt8.ofNat (0xc0 ||| q.val)).toNat &&& 0x3f = q.val := by decide
  have hq : off >>> 8 < 64 := by rw [Nat.shiftRight_eq_div_pow]; omega
  obtain ⟨h1, h2⟩ := key ⟨off >>> 8, hq⟩
  refine ⟨h1, ?_⟩
  simp only at h2
  have hlow : (UInt8.ofNat off).toNat = off % 256 := by simp [UInt8.toNat_ofNat']
  rw [target, h2, hlow, ← Nat.shiftLeft_add_eq_or_of_lt (by omega), Nat.shiftRight_eq_div_pow,
    Nat.shiftLeft_eq]
  omega

/-- The labels `fs` in wire form, in front of a name. -/
theorem NameAt.of_wire {back : List Bytes} {os : List Nat} {size : Nat} {ptr : Bool} (post : Bytes) :
    ∀ (fs : List Bytes) (pre : Bytes), (∀ l ∈ fs, ValidLabel l) → mem = pre ++ wire fs ++ post →
      NameAt mem (pre.length + wireLen fs) back os size ptr →
      ∃ os', NameAt mem pre.length (fs ++ back) os' (wireLen fs + size) ptr
  | [], _, _, _, h => ⟨os, by simpa using h⟩
  | l :: fs, pre, hv, hmem, h => by
      have hl := hv l (by simp)
      obtain ⟨os', hos⟩ := NameAt.of_wire post fs (pre ++ UInt8.ofNat l.length :: l)
        (fun r hr => hv r (by simp [hr])) (by rw [hmem]; simp) (by
          simp only [wireLen_cons, List.length_append, List.length_cons] at h ⊢
          simpa [Nat.add_assoc, Nat.add_comm, Nat.add_left_comm] using h)
      have hat : LabelAt mem pre.length l := by
        refine ⟨?_, ?_, hl.pos, hl.le⟩
        · rw [hmem]; simp
        · have hsplit : mem = (pre ++ [UInt8.ofNat l.length]) ++ (l ++ (wire fs ++ post)) := by
            rw [hmem]; simp
          have hidx : pre.length + 1 = (pre ++ [UInt8.ofNat l.length]).length := by simp
          rw [readN, hsplit, hidx, if_pos (by simp; omega), List.drop_left, List.take_left]
      rw [List.length_append, List.length_cons, ← Nat.add_assoc] at hos
      have hname := NameAt.label hat hos
      have hsize : 1 + l.length + (wireLen fs + size) = wireLen (l :: fs) + size := by
        rw [wireLen_cons]; omega
      rw [hsize] at hname
      exact ⟨_, hname⟩

/-- **The bytes `compress` writes are the name.** -/
theorem Suffix.nameAt (h : Suffix mem ls len off k) (hv : ∀ l ∈ ls, ValidLabel l)
    (hmem : mem.length < 0x4000) :
    ∃ os, NameAt (mem ++ (wire (ls.take (ls.length - k)) ++ ending k off)) mem.length ls os
      (wireLen (ls.take (ls.length - k)) + (ending k off).length) (decide (0 < k)) := by
  have hfv : ∀ l ∈ ls.take (ls.length - k), ValidLabel l := fun l hl => hv l (List.mem_of_mem_take hl)
  have hbytes : mem ++ (wire (ls.take (ls.length - k)) ++ ending k off) =
      mem ++ wire (ls.take (ls.length - k)) ++ ending k off := by simp
  have hpos : ∀ i, (mem ++ (wire (ls.take (ls.length - k)) ++ ending k off))[
      mem.length + wireLen (ls.take (ls.length - k)) + i]? = (ending k off)[i]? := by
    intro i
    rw [hbytes, List.getElem?_append_right (by simp)]
    congr 1
    simp
  have hat : ∃ os, NameAt (mem ++ (wire (ls.take (ls.length - k)) ++ ending k off))
      (mem.length + wireLen (ls.take (ls.length - k))) (ls.drop (ls.length - k)) os
      (ending k off).length (decide (0 < k)) := by
    rcases Nat.eq_zero_or_pos k with hk | hk
    · subst hk
      refine ⟨[], ?_⟩
      have := hpos 0
      simp only [ending, if_true, Nat.add_zero] at this ⊢
      simpa using NameAt.root this
    · obtain ⟨os, size, ptr, hname, hlt⟩ := h.name hk
      obtain ⟨hh, ht⟩ := pointer_bytes (show off < 0x4000 by omega)
      have hend : ending k off = [UInt8.ofNat (0xc0 ||| off >>> 8), UInt8.ofNat off] := if_neg hk.ne'
      have hb := hpos 0
      have hb1 := hpos 1
      rw [hend] at hb hb1 ⊢
      refine ⟨os, ?_⟩
      have hne : ls.drop (ls.length - k) ≠ [] := by
        have := h.le
        simp
        omega
      have hp := NameAt.pointer hb hh hb1 hne (by rw [ht]; exact hname.append _)
      simpa [hk] using hp
  obtain ⟨os, hos⟩ := hat
  obtain ⟨os', hos'⟩ := NameAt.of_wire (ending k off) (ls.take (ls.length - k)) mem hfv hbytes hos
  rw [List.take_append_drop] at hos'
  exact ⟨os', hos'⟩

theorem NameAt.decodesTo {i : Item} {os : List Nat} {ptr : Bool}
    (h : NameAt mem i.pos i.labels os i.size ptr) (hmem : mem.length < 0x4000)
    (hfit : wireLen i.labels ≤ nameLimit) : DecodesTo mem debug i := by
  have hr : Route mem debug .own i.pos i.size (spelled i.labels) none := by
    simpa [Pc.counted] using h.route hmem .own (by simp)
  have hfit' : (enter i.pos).dn.length + (spelled i.labels).length ≤ nameLimit := by
    rw [length_spelled]; simpa [enter] using hfit
  constructor
  · obtain ⟨c, hc, hdn, ht⟩ := (walks_spanBody mem debug i.pos).halts hr (enter i.pos) (fun _ => rfl) rfl rfl
      hfit'
    exact ⟨c, hc, by simpa [enter] using hdn, by simpa [enter] using ht⟩
  · obtain ⟨c, hc, hdn, ht⟩ := (walks_ptrBody mem debug).halts hr (enter i.pos) trivial rfl rfl hfit'
    exact ⟨c, hc, by simpa [enter] using hdn, by simpa [enter] using ht⟩

/-! ## §4 — a session. -/

/-- What holds between two names: the table describes the message, the compressor is reset. -/
structure SessionInv (header : Bytes) (earlier : List (List Bytes)) (s : Session) (tab : List Entry) :
    Prop where
  tracks : Tracks earlier tab
  ptrs : s.c.dnptrs = tab.map (·.pos)
  clean : s.c.src = [] ∧ s.c.suffixLen = 0 ∧ s.c.suffixOff = 0
  lens : s.c.lens.length = 127
  entries : ∀ e ∈ tab, e.Holds s.mem (s.c.dnptrs.headD 0)
  below : s.c.dnptrs.headD 0 ≤ s.mem.length
  start : earlier = [] → s.mem = header
  base : header = [] → (∀ ls, earlier.head? = some ls → ls ≠ []) → s.c.dnptrs.headD 0 = 0

variable {header : Bytes} {earlier : List (List Bytes)} {s s' : Session} {tab : List Entry}
  {fresh : Nat → UInt8}

theorem sessionInv_init (header : Bytes) : SessionInv header [] ⟨header, .init⟩ [] where
  tracks := .nil
  ptrs := rfl
  clean := ⟨rfl, rfl, rfl⟩
  lens := by simp [DnCompressor.init]
  entries := by simp
  below := Nat.zero_le _
  start := fun _ => rfl
  base := fun _ _ => rfl

theorem Entry.Holds.append {e : Entry} {first : Nat} (h : e.Holds mem first) (more : Bytes) :
    e.Holds (mem ++ more) first := by
  obtain ⟨os, size, hn⟩ := h.name
  exact ⟨h.ne, h.length, h.base, os, size, hn.append more⟩

/-- The next name is not recorded. -/
theorem SessionInv.skip {more : Bytes} {lens : List UInt8} (h : SessionInv header earlier s tab)
    (hls : ls = [] ∨ ∃ e ∈ tab, ls <:+ e.labels) (hlens : lens.length = 127) :
    SessionInv header (earlier ++ [ls]) ⟨s.mem ++ more, ⟨[], lens, s.c.dnptrs, 0, 0⟩⟩ tab where
  tracks := h.tracks.skip hls
  ptrs := h.ptrs
  clean := ⟨rfl, rfl, rfl⟩
  lens := hlens
  entries := fun e he => (h.entries e he).append more
  below := h.below.trans (by simp)
  start := by simp
  base := by
    intro hh hne
    refine h.base hh fun l hl => hne l ?_
    rw [List.head?_append, hl]; rfl

/-- The next name is recorded where it was written. -/
theorem SessionInv.add {more : Bytes} {lens : List UInt8} (h : SessionInv header earlier s tab)
    (e : Entry) (hlens : lens.length = 127) (hpos : e.pos = s.mem.length)
    (hne : e.labels ≠ []) (hnew : ∀ x ∈ tab, ¬ e.labels <:+ x.labels)
    (hshare : e.ptr = true → ∃ x ∈ tab, Shares x.labels e.labels) (hlen : e.labels.length ≤ 127)
    (hname : ∃ os size, NameAt (s.mem ++ more) e.pos e.labels os size e.ptr) :
    SessionInv header (earlier ++ [e.labels])
      ⟨s.mem ++ more, ⟨[], lens, s.c.dnptrs ++ [s.mem.length], 0, 0⟩⟩ (tab ++ [e]) := by
  -- the base stays, or it is the new name
  have hhead : (s.c.dnptrs ++ [s.mem.length]).headD 0 =
      if s.c.dnptrs = [] then s.mem.length else s.c.dnptrs.headD 0 := by
    cases s.c.dnptrs <;> simp
  have hbelow := h.below
  refine ⟨h.tracks.add hne hnew hshare, by simp [h.ptrs, hpos], ⟨rfl, rfl, rfl⟩, hlens, ?_, ?_, by simp, ?_⟩
  · intro x hx
    simp only [hhead]
    rcases List.mem_append.mp hx with hx | hx
    · have htab : s.c.dnptrs ≠ [] := by rw [h.ptrs]; simp; exact List.ne_nil_of_mem hx
      rw [if_neg htab]
      exact (h.entries x hx).append more
    · obtain rfl : x = e := by simpa using hx
      refine ⟨hne, hlen, ?_, hname⟩
      rw [hpos]
      split <;> omega
  · simp only [hhead, List.length_append]
    split <;> omega
  · intro hh hroots
    simp only [hhead]
    split
    · rename_i hnil
      have htab : tab = [] := by simpa [h.ptrs] using hnil
      -- nothing recorded: the names before were roots, so there were none
      have hearlier : earlier = [] := by
        cases he : earlier with
        | nil => rfl
        | cons l rest =>
            have hl := hroots l (by simp [he])
            obtain ⟨x, hx, -⟩ := h.tracks.found l (by simp [he]) hl
            rw [htab] at hx; cases hx
      rw [h.start hearlier, hh]; rfl
    · refine h.base hh fun l hl => hroots l ?_
      rw [List.head?_append, hl]; rfl

@[simp] theorem length_freshBytes (fresh : Nat → UInt8) (pos n : Nat) :
    (freshBytes fresh pos n).length = n := by
  simp [freshBytes]

/-- **One more name.** It is appended, it stands in the message, and the session goes on. -/
theorem SessionInv.append (h : SessionInv header earlier s tab) (debug : Bool) (fresh : Nat → UInt8)
    (name : Name) (hmem : s.mem.length < 0x4000) (hcount : earlier.length < dnptrsMax)
    (hsearch : s.c.dnptrs.headD 0 = 0 ∨ (name.labels ≠ [] → Unpointed tab name.labels)) :
    ∃ n s' tab', Appended debug fresh s name.text n s' ∧
      SessionInv header (earlier ++ [name.labels]) s' tab' ∧ s.mem <+: s'.mem ∧
      ∃ os ptr, NameAt s'.mem s.mem.length name.labels os n ptr := by
  by_cases hroot : name.labels = []
  · have hst : store (freshBytes fresh s.mem.length 1) 0 0 = .ok [0] := by
      simp [store, freshBytes]
    have hsame : s.c = ⟨[], s.c.lens, s.c.dnptrs, 0, 0⟩ := by
      cases hc : s.c
      have := h.clean
      simp_all
    refine ⟨1, ⟨s.mem ++ [0], s.c⟩, tab, ⟨0, s.c, s.c, [0], prepare_root hroot 0, ?_, rfl⟩, ?_,
      List.prefix_append _ _, [], false, ?_⟩
    · rw [compress, if_pos h.clean.1, hst]; rfl
    · rw [hsame]; exact h.skip (.inl hroot) h.lens
    · rw [hroot]; exact .root (by simp)
  · obtain ⟨fuel, lens, len, off, k, hs, hlens, hat, hprep, hfull, hshare⟩ := prepare_spec debug name hroot
      hmem h.clean.2 h.lens h.ptrs h.entries (hsearch.imp_right (· hroot))
    have hsize : (joined name.labels).length < 2 ^ 16 := by
      have := length_joined hroot
      have := name.wire
      unfold nameLimit at this
      omega
    have henc := hs.encodedSize hroot name.valid hsize
    have hcap : s.c.dnptrs.length < dnptrsMax := by
      rw [h.ptrs, List.length_map]
      exact h.tracks.length_le.trans_lt hcount
    obtain ⟨os, hname⟩ := hs.nameAt name.valid hmem
    rw [← henc] at hname
    have hcomp := compress_spec debug ⟨joined name.labels, lens, s.c.dnptrs, len, off⟩ s.mem.length
      (freshBytes fresh s.mem.length (encodedSize (joined name.labels) len)) hroot name.valid hsize
      hs rfl hat (by rw [length_freshBytes, henc]) hcap
    rw [length_freshBytes] at hcomp
    by_cases hk : k = name.labels.length
    · rw [if_pos hk] at hcomp
      exact ⟨_, _, tab, ⟨fuel, _, _, _, hprep, hcomp, rfl⟩, h.skip (.inr (hfull.mp hk)) hlens,
        List.prefix_append _ _, os, _, hname⟩
    · rw [if_neg hk] at hcomp
      refine ⟨_, _, tab ++ [⟨s.mem.length, name.labels, decide (0 < k)⟩],
        ⟨fuel, _, _, _, hprep, hcomp, rfl⟩, ?_, List.prefix_append _ _, os, _, hname⟩
      refine h.add ⟨s.mem.length, name.labels, decide (0 < k)⟩ hlens rfl hroot ?_
        (fun hptr => hshare (by simpa using hptr)) name.length_le ⟨os, _, hname⟩
      intro x hx hsuf
      exact hk (hfull.mpr ⟨x, hx, hsuf⟩)

/-- The search for the next name is right when the names are harmless. -/
theorem SessionInv.search {names : List (List Bytes)} {post : List (List Bytes)}
    (h : SessionInv header earlier s tab) (hnames : names = earlier ++ ls :: post)
    (hh : Harmless header names) :
    s.c.dnptrs.headD 0 = 0 ∨ (ls ≠ [] → Unpointed tab ls) := by
  rcases hh with ⟨hhead, l, hl, hne⟩ | hcond
  · refine .inl (h.base hhead fun r hr => ?_)
    rw [hnames, List.head?_append, hr] at hl
    obtain rfl : r = l := by simpa using hl
    exact hne
  · refine .inr fun hne => h.tracks.unpointed hne fun pre a mid he hp => ?_
    exact (hcond pre a mid ls post (by rw [hnames, he]) hp).resolve_left hne

/-- **The rest of a session**, by induction on the names still to come. -/
theorem SessionInv.run (debug : Bool) (fresh : Nat → UInt8) {names : List (List Bytes)}
    (hcount : names.length ≤ dnptrsMax) (hh : Harmless header names) :
    ∀ (post : List Name) (earlier : List (List Bytes)) (s : Session) (tab : List Entry),
      names = earlier ++ post.map (·.labels) → SessionInv header earlier s tab →
      s.mem.length < 0x4000 →
      (∃ pre s' items, pre <+: post ∧ Appends debug fresh s pre s' items ∧ 0x4000 ≤ s'.mem.length) ∨
      ∃ s' items, Appends debug fresh s post s' items ∧ s'.mem.length < 0x4000 ∧ s.mem <+: s'.mem ∧
        ∀ i ∈ items, DecodesTo s'.mem debug i
  | [], _, s, _, _, _, hmem => .inr ⟨s, [], .nil s, hmem, List.prefix_refl _, by simp⟩
  | name :: post, earlier, s, tab, hnames, h, hmem => by
      have hlen : earlier.length < dnptrsMax := by
        have := congrArg List.length hnames
        simp at this
        omega
      obtain ⟨n, s1, tab', happ, h1, hpre, os, ptr, hname⟩ :=
        h.append debug fresh name hmem hlen (h.search (by simpa using hnames) hh)
      by_cases hbig : 0x4000 ≤ s1.mem.length
      · exact .inl ⟨[name], s1, _, by simp, .cons happ (.nil s1), hbig⟩
      rcases SessionInv.run debug fresh hcount hh post (earlier ++ [name.labels]) s1 tab'
        (by simpa using hnames) h1 (by omega) with
        ⟨pre, s', items, hp, ha, hs'⟩ | ⟨s', items, ha, hs', hpre', hdec⟩
      · exact .inl ⟨name :: pre, s', _, by simpa using hp, .cons happ ha, hs'⟩
      · refine .inr ⟨s', _, .cons happ ha, hs', hpre.trans hpre', ?_⟩
        intro i hi
        rcases List.mem_cons.mp hi with rfl | hi
        · obtain ⟨more, hmore⟩ := hpre'
          have hname' := hname.append more
          rw [hmore] at hname'
          exact hname'.decodesTo hs' (by have := name.wire; simp only; omega)
        · exact hdec i hi

/-- **Compression round-trips** for every header and every list of at most 20 names that is harmless. -/
theorem round_trip_of_harmless (debug : Bool) (fresh : Nat → UInt8) (header : Bytes) (names : List Name)
    (hcount : names.length ≤ 20) (hh : Harmless header (names.map (·.labels))) :
    RoundTrips debug fresh header names := by
  by_cases hmem : header.length < 0x4000
  · rcases SessionInv.run debug fresh (by simpa [dnptrsMax] using hcount) hh names [] ⟨header, .init⟩ [] rfl
      (sessionInv_init header) hmem with hbig | ⟨s, items, ha, hs, -, hdec⟩
    · exact .inl hbig
    · exact .inr ⟨s, items, ha, hs, hdec⟩
  · exact .inl ⟨[], _, [], List.nil_prefix, .nil _, by simpa using hmem⟩

/-- `www.a.`, `download.a`, `download.a` again, the root and `www.a` behind an empty header. -/
def wwwA : Name := ⟨[[119, 119, 119], [97]], true, by decide, by decide⟩

def downloadA : Name := ⟨[[100, 111, 119, 110, 108, 111, 97, 100], [97]], false, by decide, by decide⟩

def root : Name := ⟨[], true, by decide, by decide⟩

def justB : Name := ⟨[[98]], false, by decide, by decide⟩

theorem round_trip_of_five_names :
    Harmless [] ([wwwA, downloadA, downloadA, root, wwwA].map (·.labels)) ∧
      RoundTrips true (fun _ => 0) [] [wwwA, downloadA, downloadA, root, wwwA] := by
  have hh : Harmless [] ([wwwA, downloadA, downloadA, root, wwwA].map (·.labels)) :=
    .inl ⟨rfl, _, rfl, by decide⟩
  exact ⟨hh, round_trip_of_harmless true (fun _ => 0) [] _ (by decide) hh⟩

/-! ## §5 — where it fails. -/

theorem visit_mono {fuel fuel' first cnt : Nat} {src : Bytes}
    {r : Except Fault (DnCompressor × Option Errc)} (hf : fuel ≤ fuel') :
    ∀ (todo : List Nat) (c : DnCompressor), visit mem debug fuel first src cnt todo c = some r →
      visit mem debug fuel' first src cnt todo c = some r
  | [], _, h => h
  | p :: todo, c, h => by
      unfold visit at h ⊢
      cases hl : loop (getOffsBody mem debug first) fuel (p, []) with
      | none => rw [hl] at h; cases h
      | some o =>
          rw [loop_mono hf hl]
          rw [hl] at h
          revert h
          cases o with
          | error f => exact id
          | ok offs =>
              dsimp only
              split
              · exact id
              · split
                · exact id
                · split
                  · split
                    · exact id
                    · exact visit_mono hf todo _
                  · exact visit_mono hf todo _

theorem prepare_mono {fuel fuel' : Nat} {c : DnCompressor} {src : Bytes}
    {r : Except Fault (DnCompressor × Except Errc Nat)} (hf : fuel ≤ fuel')
    (h : prepare mem debug fuel c src = some r) : prepare mem debug fuel' c src = some r := by
  unfold prepare at h ⊢
  revert h
  split
  · exact id
  · generalize (if src.getLast? = some 46 then src.dropLast else src) = text
    dsimp only
    split
    · exact id
    · split
      · exact id
      · rename_i lens cnt _
        split
        · exact id
        · cases hv : visit mem debug fuel (c.dnptrs.headD 0) text cnt c.dnptrs { c with lens := lens } with
          | none => exact fun h => by cases h
          | some o => rw [visit_mono hf _ _ hv]; exact id

/-- Appending a name has one outcome. -/
theorem Appended.unique {name : Bytes} {n n' : Nat} {s s1 s2 : Session}
    (h : Appended debug fresh s name n s1) (h' : Appended debug fresh s name n' s2) : s1 = s2 := by
  obtain ⟨f, c, d, bytes, hp, hc, rfl⟩ := h
  obtain ⟨f', c', d', bytes', hp', hc', rfl⟩ := h'
  have hp := prepare_mono (le_max_left f f') hp
  have hp' := prepare_mono (le_max_right f f') hp'
  rw [hp] at hp'
  obtain ⟨rfl, rfl⟩ : c = c' ∧ n = n' := by simpa using hp'
  rw [hc] at hc'
  obtain ⟨rfl, rfl⟩ : d = d' ∧ bytes = bytes' := by simpa using hc'
  rfl

def header12 : Bytes := List.replicate 12 0

def afterWww : Session :=
  ⟨header12 ++ [3, 119, 119, 119, 1, 97, 0], ⟨[], 3 :: 1 :: List.replicate 125 0, [12], 0, 0⟩⟩

/-- The pointer `c0 10` at offset 28 says 16, and `get_offs` reads it as 12 + 16. -/
def afterDownload : Session :=
  ⟨header12 ++ [3, 119, 119, 119, 1, 97, 0, 8, 100, 111, 119, 110, 108, 111, 97, 100, 192, 16],
    ⟨[], 8 :: 1 :: List.replicate 125 0, [12, 19], 0, 0⟩⟩

theorem appended_wwwA : Appended true (fun _ => 0) ⟨header12, .init⟩ wwwA.text 7 afterWww :=
  ⟨50, ⟨joined wwwA.labels, 3 :: 1 :: List.replicate 125 0, [], 0, 0⟩, afterWww.c,
    [3, 119, 119, 119, 1, 97, 0], by decide +kernel, by decide +kernel, rfl⟩

theorem appended_downloadA : Appended true (fun _ => 0) afterWww downloadA.text 11 afterDownload :=
  ⟨50, ⟨joined downloadA.labels, 8 :: 1 :: List.replicate 125 0, [12], 2, 16⟩, afterDownload.c,
    [8, 100, 111, 119, 110, 108, 111, 97, 100, 192, 16], by decide +kernel, by decide +kernel,
    by simp [afterWww, afterDownload]⟩

theorem getOffs_loops (fuel : Nat) :
    loop (getOffsBody afterDownload.mem true 12) fuel (19, []) = none := by
  have hgo : getOffsBody afterDownload.mem true 12 (19, []) = .go (28, [7]) := by decide
  have hself : getOffsBody afterDownload.mem true 12 (28, [7]) = .go (28, [7]) := by decide
  cases h : loop (getOffsBody afterDownload.mem true 12) fuel (19, []) with
  | none => rfl
  | some r =>
      refine absurd ⟨fuel, h⟩ (not_halts_of_invariant (fun s => s = (19, []) ∨ s = (28, [7])) ?_
        (.inl rfl) r)
      rintro s (rfl | rfl)
      · exact ⟨_, hgo, .inr rfl⟩
      · exact ⟨_, hself, .inr rfl⟩

/-- The next `prepare` does not return. -/
theorem not_appended_justB (n : Nat) (s : Session) :
    ¬ Appended true (fun _ => 0) afterDownload justB.text n s := by
  rintro ⟨fuel, c, c', bytes, hp, -⟩
  have hfirst : ∀ r, loop (getOffsBody afterDownload.mem true 12) fuel (12, []) = some r →
      r = .ok [0, 4] := by
    intro r hr
    have h50 : loop (getOffsBody afterDownload.mem true 12) 50 (12, []) = some (.ok [0, 4]) := by
      decide
    have h1 := loop_mono (le_max_left fuel 50) hr
    have h2 := loop_mono (le_max_right fuel 50) h50
    rw [h1] at h2
    simpa using h2
  have hlens : getLabelLens afterDownload.c.lens 0 0 [98] =
      .ok (1 :: 1 :: List.replicate 125 0, 1) := by decide +kernel
  have hmatch : matchGo afterDownload.mem 12 [98] (1 :: 1 :: List.replicate 125 0) [0, 4] 1 2 1 0 0 =
      .ok (0, 0) := by decide +kernel
  -- the search passes `www.a` and is caught in `download.a`
  have hvisit : visit afterDownload.mem true fuel 12 [98] 1 [12, 19]
      ⟨[], 1 :: 1 :: List.replicate 125 0, [12, 19], 0, 0⟩ = none := by
    rw [visit]
    cases hr : loop (getOffsBody afterDownload.mem true 12) fuel (12, []) with
    | none => rfl
    | some r =>
        obtain rfl := hfirst r hr
        simp only [List.length_cons, List.length_nil, hmatch, visit, getOffs_loops]
        simp
  have hprep : prepare afterDownload.mem true fuel afterDownload.c justB.text = none := by
    have htext : justB.text = [98] := by decide
    rw [htext, prepare, if_neg (by decide)]
    simp only [show ¬ ([98] : Bytes).getLast? = some 46 by decide, if_false, hlens]
    rw [if_neg (by decide), if_neg (by decide)]
    have : visit afterDownload.mem true fuel (afterDownload.c.dnptrs.headD 0) [98] 1
        afterDownload.c.dnptrs { afterDownload.c with lens := 1 :: 1 :: List.replicate 125 0 } = none := hvisit
    rw [this]
  rw [hprep] at hp
  cases hp

/-- **The search that never ends.** Behind a 12-byte header, after `www.a.` and `download.a`, the
`prepare` of any further name (`b` here) follows the pointer of `download.a` from the wrong base to
itself. -/
theorem round_trip_fails :
    ¬ ∀ (debug : Bool) (fresh : Nat → UInt8) (header : Bytes) (names : List Name),
      names.length ≤ 20 → RoundTrips debug fresh header names := by
  intro h
  have stuck : ∀ (names : List Name) (s : Session) (items : List Item),
      ¬ Appends true (fun _ => 0) ⟨header12, .init⟩ (wwwA :: downloadA :: justB :: names) s items := by
    intro names s items ha
    cases ha with
    | cons h1 ha =>
        obtain rfl := h1.unique appended_wwwA
        cases ha with
        | cons h2 ha =>
            obtain rfl := h2.unique appended_downloadA
            cases ha with
            | cons h3 _ => exact not_appended_justB _ _ h3
  rcases h true (fun _ => 0) header12 [wwwA, downloadA, justB] (by decide) with
    ⟨pre, s, items, hpre, ha, hbig⟩ | ⟨s, items, ha, -⟩
  · -- the message stays small as long as it grows at all
    have hcases : pre = [] ∨ pre = [wwwA] ∨ pre = [wwwA, downloadA] ∨ pre = [wwwA, downloadA, justB] := by
      have := List.prefix_iff_eq_take.mp hpre
      have hlen := hpre.length_le
      generalize pre.length = m at this hlen
      subst this
      simp only [List.length_cons, List.length_nil] at hlen
      interval_cases m <;> simp
    rcases hcases with rfl | rfl | rfl | rfl
    · cases ha
      exact absurd hbig (by decide)
    · cases ha with
      | cons h1 ha =>
          obtain rfl := h1.unique appended_wwwA
          cases ha
          exact absurd hbig (by decide)
    · cases ha with
      | cons h1 ha =>
          obtain rfl := h1.unique appended_wwwA
          cases ha with
          | cons h2 ha =>
              obtain rfl := h2.unique appended_downloadA
              cases ha
              exact absurd hbig (by decide)
    · exact stuck [] s items ha
  · exact stuck [] s items ha

end NetCpp.Dns
