/-
# NetCpp.Compose.SharedMemoryLedger — the machine of `shared_memory` keeps the ledger.

`ledger` reads a ledger off a state: a handle holds a share of the object it points to unless its thread is in
`limbo` with it, and a thread disposes of an object between the `fetch_sub` that returned 1 and `delete _ref_count`.
`Ctl` is about control alone: who may change which handle, and what a handle looks like at each program counter.
Every step keeps `Ctl` and is, on the ledger, no step or one of the ledger's own.
-/
import NetCpp.Compose.SharedMemory

namespace NetCpp.SharedMemory

open NetCpp.Lib

variable {Th H : Type}

/-! ## §1 — control. -/

def Next.Ok (handle : H → Slot) (h : H) : Next H → Prop
  | .take g => h ≠ g ∧ handle g ≠ .absent
  | _ => True

/-- What the handles of an operation look like. -/
def Pc.Ok (handle : H → Slot) : Pc H → Prop
  | .idle | .load _ _ => True
  | .inc h g => handle h = handle g
  | .take h g => h ≠ g ∧ handle g ≠ .absent
  | .dec h k => handle h ≠ .absent ∧ k.Ok handle h
  | .delRaw h k => (∃ o, handle h = .live (some o) (some o)) ∧ k.Ok handle h
  | .delRef h k => (∃ o, handle h = .live none (some o)) ∧ k.Ok handle h

section Pcs

variable {p : Pc H} {h x : H} {k : Next H} {handle handle' : H → Slot}

theorem Next.Ok.congr (hw : ∀ x ∈ (Pc.dec h k).writes, handle' x = handle x) (hk : k.Ok handle h) : k.Ok handle' h := by
  cases k with
  | drop => trivial
  | load g => trivial
  | take g => exact ⟨hk.1, by rw [hw g (List.mem_cons_of_mem h List.mem_cons_self)]; exact hk.2⟩

theorem writes_delRaw : (Pc.delRaw h k).writes = (Pc.dec h k).writes := by
  cases k <;> rfl

theorem writes_delRef : (Pc.delRef h k).writes = (Pc.dec h k).writes := by
  cases k <;> rfl

theorem reads_delRaw : (Pc.delRaw h k).reads = (Pc.dec h k).reads := by
  cases k <;> rfl

theorem reads_delRef : (Pc.delRef h k).reads = (Pc.dec h k).reads := by
  cases k <;> rfl

theorem mem_writes_dec : h ∈ (Pc.dec h k).writes := by
  cases k <;> exact List.mem_cons_self

/-- What a program counter says is about the handles it uses. -/
theorem Pc.Ok.congr (hw : ∀ x ∈ p.writes, handle' x = handle x) (hr : ∀ g, p.reads = some g → handle' g = handle g)
    (hp : p.Ok handle) : p.Ok handle' := by
  cases p with
  | idle => trivial
  | load h g => trivial
  | inc h g =>
    show handle' h = handle' g
    rw [hw h List.mem_cons_self, hr g rfl]
    exact hp
  | take h g => exact ⟨hp.1, by rw [hw g (List.mem_cons_of_mem h List.mem_cons_self)]; exact hp.2⟩
  | dec h k => exact ⟨by rw [hw h mem_writes_dec]; exact hp.1, hp.2.congr hw⟩
  | delRaw h k =>
    rw [writes_delRaw] at hw
    exact ⟨by rw [hw h mem_writes_dec]; exact hp.1, hp.2.congr hw⟩
  | delRef h k =>
    rw [writes_delRef] at hw
    exact ⟨by rw [hw h mem_writes_dec]; exact hp.1, hp.2.congr hw⟩

theorem mem_writes_dec_iff : x ∈ (Pc.dec h k).writes ↔ x = h ∨ k = .take x := by
  cases k with
  | drop => simp [Pc.writes]
  | load g => simp [Pc.writes]
  | take g => simp [Pc.writes, eq_comm]

end Pcs

variable [DecidableEq H]

section Limbo

variable {p : Pc H} {x : H}

theorem mem_writes_of_limbo (hx : p.limbo x = true) : x ∈ p.writes := by
  cases p with
  | idle => cases hx
  | load h g =>
    obtain rfl := of_decide_eq_true hx
    exact List.mem_cons_self
  | inc h g =>
    obtain rfl := of_decide_eq_true hx
    exact List.mem_cons_self
  | take h g =>
    obtain rfl := of_decide_eq_true hx
    exact List.mem_cons_self
  | dec h k => cases hx
  | delRaw h k =>
    obtain rfl := of_decide_eq_true hx
    cases k <;> exact List.mem_cons_self
  | delRef h k =>
    obtain rfl := of_decide_eq_true hx
    cases k <;> exact List.mem_cons_self

theorem limbo_idle (x : H) : Pc.idle.limbo x = false := rfl

theorem limbo_of_not_mem (hx : x ∉ p.writes) : p.limbo x = false := by
  cases hl : p.limbo x with
  | false => rfl
  | true => exact absurd (mem_writes_of_limbo hl) hx

end Limbo

structure Ctl (C : Program Th H) (s : State Th H) : Prop where
  own : ∀ t, ∀ x ∈ (s.pc t).writes, C.thread x = t
  frozen : ∀ t g, (s.pc t).reads = some g → s.handle g ≠ .absent ∧ ∀ t', g ∉ (s.pc t').writes
  ok : ∀ t, (s.pc t).Ok s.handle
  paired : ∀ h raw ref, s.handle h = .live raw ref → (s.pc (C.thread h)).limbo h = false → raw = ref

variable {C : Program Th H} {s s' : State Th H} {t : Th} {p : Pc H}

/-- Nobody else changes or copies from what `t` changes. -/
theorem Ctl.others (hs : Ctl C s) {x : H} (hx : x ∈ (s.pc t).writes) {t' : Th} (hne : t' ≠ t) :
    x ∉ (s.pc t').writes ∧ (s.pc t').reads ≠ some x := by
  constructor
  · intro hx'
    exact hne ((hs.own t' x hx').symm.trans (hs.own t x hx))
  · intro hread
    exact (hs.frozen t' x hread).2 t hx

variable [DecidableEq Th]

/-- **One step of a running operation**: it changes its own handles, and gives up reading and writing only. -/
structure Advance (s s' : State Th H) (t : Th) (p : Pc H) : Prop where
  pc : s'.pc = Function.update s.pc t p
  handle : ∀ x, x ∉ (s.pc t).writes → s'.handle x = s.handle x
  writes : ∀ x ∈ p.writes, x ∈ (s.pc t).writes
  reads : ∀ g, p.reads = some g → (s.pc t).reads = some g
  ok : p.Ok s'.handle
  paired : ∀ x ∈ (s.pc t).writes, ∀ raw ref, s'.handle x = .live raw ref → p.limbo x = false → raw = ref

theorem Ctl.advance (hs : Ctl C s) (ha : Advance s s' t p) : Ctl C s' := by
  obtain ⟨hpc, hh, hw, hr, hok, hpair⟩ := ha
  have hself : s'.pc t = p := by rw [hpc, Function.update_self]
  have hother : ∀ t', t' ≠ t → s'.pc t' = s.pc t' := by
    intro t' hne
    rw [hpc, Function.update_of_ne hne]
  have hsub : ∀ t' x, x ∈ (s'.pc t').writes → x ∈ (s.pc t').writes := by
    intro t' x hx
    by_cases heq : t' = t
    · subst heq
      rw [hself] at hx
      exact hw x hx
    · rwa [hother t' heq] at hx
  have hreads : ∀ t' g, (s'.pc t').reads = some g → (s.pc t').reads = some g := by
    intro t' g hg
    by_cases heq : t' = t
    · subst heq
      rw [hself] at hg
      exact hr g hg
    · rwa [hother t' heq] at hg
  constructor
  case own => exact fun t' x hx => hs.own t' x (hsub t' x hx)
  case frozen =>
    intro t' g hg
    obtain ⟨hlive, hfree⟩ := hs.frozen t' g (hreads t' g hg)
    refine ⟨?_, fun t'' hx => hfree t'' (hsub t'' g hx)⟩
    rw [hh g (hfree t)]
    exact hlive
  case ok =>
    intro t'
    by_cases heq : t' = t
    · subst heq
      rw [hself]
      exact hok
    · rw [hother t' heq]
      apply Pc.Ok.congr _ _ (hs.ok t')
      · intro x hx
        exact hh x fun hx' => (hs.others hx' heq).1 hx
      · intro g hg
        exact hh g ((hs.frozen t' g hg).2 t)
  case paired =>
    intro x raw ref hx hlimbo
    by_cases hmem : x ∈ (s.pc t).writes
    · rw [hs.own t x hmem, hself] at hlimbo
      exact hpair x hmem raw ref hx hlimbo
    · rw [hh x hmem] at hx
      apply hs.paired x raw ref hx
      by_cases heq : C.thread x = t
      · rw [heq]
        exact limbo_of_not_mem hmem
      · rw [hother _ heq] at hlimbo
        exact hlimbo

/-- **An operation starts.** -/
theorem Ctl.enter (hs : Ctl C s) (hidle : s.pc t = .idle)
    (hw : ∀ x ∈ p.writes, C.thread x = t ∧ ∀ t', (s.pc t').reads ≠ some x)
    (hr : ∀ g, p.reads = some g → s.handle g ≠ .absent ∧ (∀ t', g ∉ (s.pc t').writes) ∧ g ∉ p.writes)
    (hok : p.Ok s.handle) : Ctl C (s.goto t p) := by
  have hself : (s.goto t p).pc t = p := Function.update_self ..
  have hother : ∀ t', t' ≠ t → (s.goto t p).pc t' = s.pc t' := fun t' hne => Function.update_of_ne hne ..
  constructor
  case own =>
    intro t' x hx
    by_cases heq : t' = t
    · subst heq
      rw [hself] at hx
      exact (hw x hx).1
    · rw [hother t' heq] at hx
      exact hs.own t' x hx
  case frozen =>
    intro t' g hg
    by_cases heq : t' = t
    · subst heq
      rw [hself] at hg
      obtain ⟨hlive, hfree, hown⟩ := hr g hg
      refine ⟨hlive, ?_⟩
      intro t''
      by_cases heq' : t'' = t'
      · subst heq'
        rw [hself]
        exact hown
      · rw [hother t'' heq']
        exact hfree t''
    · rw [hother t' heq] at hg
      obtain ⟨hlive, hfree⟩ := hs.frozen t' g hg
      refine ⟨hlive, ?_⟩
      intro t''
      by_cases heq' : t'' = t
      · subst heq'
        rw [hself]
        intro hx
        exact (hw g hx).2 t' hg
      · rw [hother t'' heq']
        exact hfree t''
  case ok =>
    intro t'
    by_cases heq : t' = t
    · subst heq
      rw [hself]
      exact hok
    · rw [hother t' heq]
      exact hs.ok t'
  case paired =>
    intro x raw ref hx hlimbo
    apply hs.paired x raw ref hx
    by_cases heq : C.thread x = t
    · rw [heq, hidle]
      rfl
    · rw [hother _ heq] at hlimbo
      exact hlimbo

/-! ## §2 — the ledger of a state. -/

/-- What a thread at `p` is disposing of. -/
def disposal (handle : H → Slot) : Pc H → Option (Nat × Bool)
  | .delRaw h _ => (handle h).refCount.map (·, true)
  | .delRef h _ => (handle h).refCount.map (·, false)
  | _ => none

/-- **Who owns what.** -/
def ledger (C : Program Th H) (s : State Th H) : Ledger H Th where
  held x := if (s.pc (C.thread x)).limbo x then none else (s.handle x).refCount
  disposing t := disposal s.handle (s.pc t)
  count := s.count
  alive := s.object
  next := s.next
  deleted := s.deleted

structure Inv [Fintype H] (C : Program Th H) (s : State Th H) : Prop where
  ctl : Ctl C s
  ok : (ledger C s).Ok
  good : s.bad = false

section Ledgers

variable {h g x : H} {L : Ledger H Th}

omit [DecidableEq Th] in
theorem held_of_not_limbo (hx : (s.pc (C.thread x)).limbo x = false) :
    (ledger C s).held x = (s.handle x).refCount := if_neg (by rw [hx]; exact Bool.false_ne_true)

omit [DecidableEq H] [DecidableEq Th] in
theorem disposal_congr {handle handle' : H → Slot} (hw : ∀ x ∈ p.writes, handle' x = handle x) :
    disposal handle' p = disposal handle p := by
  cases p with
  | delRaw h k =>
    rw [writes_delRaw] at hw
    rw [disposal, hw h mem_writes_dec]
    rfl
  | delRef h k =>
    rw [writes_delRef] at hw
    rw [disposal, hw h mem_writes_dec]
    rfl
  | _ => rfl

omit [DecidableEq Th] in
theorem held_in_limbo (hs : Ctl C s) (hl : (s.pc t).limbo h = true) : (ledger C s).held h = none := by
  show (if (s.pc (C.thread h)).limbo h then none else _) = none
  rw [hs.own t h (mem_writes_of_limbo hl), if_pos hl]

omit [DecidableEq Th] in
/-- A handle that the operation uses and that is not in limbo. -/
theorem held_of_writes (hs : Ctl C s) (hw : h ∈ (s.pc t).writes) (hl : (s.pc t).limbo h = false) {raw ref : Option Nat}
    (hh : s.handle h = .live raw ref) : (ledger C s).held h = ref ∧ raw = ref := by
  have hthread := hs.own t h hw
  constructor
  · rw [held_of_not_limbo, hh]
    · rfl
    · rwa [hthread]
  · apply hs.paired h raw ref hh
    rwa [hthread]

omit [DecidableEq Th] in
/-- **The source of a copy keeps its share** while it is copied from. -/
theorem held_of_reads (hs : Ctl C s) (hr : (s.pc t).reads = some g) {raw ref : Option Nat}
    (hg : s.handle g = .live raw ref) : (ledger C s).held g = ref ∧ raw = ref := by
  have hl := limbo_of_not_mem ((hs.frozen t g hr).2 (C.thread g))
  constructor
  · rw [held_of_not_limbo hl, hg]
    rfl
  · exact hs.paired g raw ref hg hl

omit [DecidableEq Th] in
/-- A counter outside the disposal. -/
theorem disposing_none (hp : disposal s.handle (s.pc t) = none) : (ledger C s).disposing t = none := hp

/-- A step of `t` is `L` on the ledger when it is on the handles of its operation. -/
theorem ledger_advance (hs : Ctl C s) (ha : Advance s s' t p)
    (hheld : ∀ x ∈ (s.pc t).writes, (if p.limbo x then none else (s'.handle x).refCount) = L.held x)
    (hrest : ∀ x, x ∉ (s.pc t).writes → L.held x = (ledger C s).held x) (hdis : disposal s'.handle p = L.disposing t)
    (hothers : ∀ t', t' ≠ t → L.disposing t' = (ledger C s).disposing t') (hcount : s'.count = L.count)
    (halive : s'.object = L.alive) (hnext : s'.next = L.next) (hdeleted : s'.deleted = L.deleted) : ledger C s' = L := by
  obtain ⟨hpc, hh, hw, -, -, -⟩ := ha
  apply Ledger.ext
  · funext x
    show (if (s'.pc (C.thread x)).limbo x then none else (s'.handle x).refCount) = _
    by_cases hx : x ∈ (s.pc t).writes
    · rw [hs.own t x hx, hpc, Function.update_self]
      exact hheld x hx
    · rw [hrest x hx, hh x hx, hpc]
      by_cases heq : C.thread x = t
      · rw [heq, Function.update_self, if_neg, held_of_not_limbo]
        · rw [heq]
          exact limbo_of_not_mem hx
        · rw [limbo_of_not_mem fun hx' => hx (hw x hx')]
          exact Bool.false_ne_true
      · rw [Function.update_of_ne heq]
        rfl
  · funext t'
    show disposal s'.handle (s'.pc t') = _
    by_cases heq : t' = t
    · subst heq
      rw [hpc, Function.update_self]
      exact hdis
    · rw [hothers t' heq, hpc, Function.update_of_ne heq]
      apply disposal_congr
      intro x hx
      exact hh x fun hx' => (hs.others hx' heq).1 hx
  · exact hcount
  · exact halive
  · exact hnext
  · exact hdeleted

/-- Behind `_dec()`. -/
def Next.pc (h : H) : Next H → Pc H
  | .drop => .idle
  | .load g => .load h g
  | .take g => .take h g

omit [DecidableEq H] [DecidableEq Th] in
theorem disposal_pc (handle : H → Slot) (k : Next H) : disposal handle (k.pc h) = none := by
  cases k <;> rfl

theorem resume_eq (s : State Th H) (t : Th) (h : H) (k : Next H) : ∃ handle,
    s.resume t h k = { s with handle := handle }.goto t (k.pc h) ∧ (∀ x, x ≠ h → handle x = s.handle x) ∧
      (if (k.pc h).limbo h then none else (handle h).refCount) = none := by
  cases k with
  | drop =>
    refine ⟨Function.update s.handle h .absent, rfl, fun x hx => Function.update_of_ne hx .., ?_⟩
    rw [Function.update_self]
    rfl
  | load g => exact ⟨s.handle, rfl, fun x _ => rfl, if_pos (decide_eq_true rfl)⟩
  | take g => exact ⟨s.handle, rfl, fun x _ => rfl, if_pos (decide_eq_true rfl)⟩

end Ledgers

/-! ## §3 — the steps of a running operation. -/

section Steps

variable [Fintype H] {h g : H} {k : Next H} {L : Ledger H Th}

theorem Inv.advance (hs : Inv C s) (ha : Advance s s' t p) (hL : L.Ok)
    (hheld : ∀ x ∈ (s.pc t).writes, (if p.limbo x then none else (s'.handle x).refCount) = L.held x)
    (hrest : ∀ x, x ∉ (s.pc t).writes → L.held x = (ledger C s).held x) (hdis : disposal s'.handle p = L.disposing t)
    (hothers : ∀ t', t' ≠ t → L.disposing t' = (ledger C s).disposing t') (hcount : s'.count = L.count)
    (halive : s'.object = L.alive) (hnext : s'.next = L.next) (hdeleted : s'.deleted = L.deleted)
    (hgood : s'.bad = false) : Inv C s' := by
  refine ⟨hs.ctl.advance ha, ?_, hgood⟩
  rw [ledger_advance hs.ctl ha hheld hrest hdis hothers hcount halive hnext hdeleted]
  exact hL

theorem Inv.load (hs : Inv C s) (hp : s.pc t = .load h g) : Inv C (s.load t h g) := by
  have hr : (s.pc t).reads = some g := by rw [hp]; rfl
  obtain ⟨hlive, hfree⟩ := hs.ctl.frozen t g hr
  have hw : ∀ x, x ∈ (s.pc t).writes ↔ x = h := by
    intro x
    rw [hp]
    exact List.mem_singleton
  have hne : g ≠ h := fun heq => hfree t ((hw g).mpr heq)
  cases hg : s.handle g with
  | absent => exact absurd hg hlive
  | live raw ref =>
    rw [State.load, hg]
    have ha : Advance s ((s.set h (.live raw ref)).goto t (.inc h g)) t (.inc h g) := by
      constructor
      · rfl
      · exact fun x hx => Function.update_of_ne (fun heq => hx ((hw x).mpr heq)) ..
      · exact fun x hx => (hw x).mpr (List.mem_singleton.mp hx)
      · exact fun g' hg' => hr.trans hg'
      · show Function.update s.handle h _ h = Function.update s.handle h _ g
        rw [Function.update_self, Function.update_of_ne hne, hg]
      · intro x hx raw' ref' _ hl
        rw [(hw x).mp hx] at hl
        exact absurd hl (by simp [Pc.limbo])
    apply hs.advance ha hs.ok
    · intro x hx
      obtain rfl := (hw x).mp hx
      rw [held_in_limbo hs.ctl (by rw [hp]; exact decide_eq_true rfl)]
      exact if_pos (decide_eq_true rfl)
    · exact fun x _ => rfl
    · exact (disposing_none (C := C) (by rw [hp]; rfl)).symm
    · exact fun t' _ => rfl
    all_goals first | rfl | exact hs.good

theorem Inv.inc (hs : Inv C s) (hcard : Fintype.card H < 2 ^ 32) (hp : s.pc t = .inc h g) : Inv C (s.inc t h) := by
  have hr : (s.pc t).reads = some g := by rw [hp]; rfl
  obtain ⟨hlive, hfree⟩ := hs.ctl.frozen t g hr
  have hw : ∀ x, x ∈ (s.pc t).writes ↔ x = h := by
    intro x
    rw [hp]
    exact List.mem_singleton
  have hsame : s.handle h = s.handle g := by
    have := hs.ctl.ok t
    rw [hp] at this
    exact this
  have hlimbo : (ledger C s).held h = none := held_in_limbo hs.ctl (by rw [hp]; exact decide_eq_true rfl)
  have hdis : (ledger C s).disposing t = none := disposing_none (by rw [hp]; rfl)
  have ha : ∀ count, Advance s ({ s with count := count }.goto t .idle) t .idle := by
    intro count
    constructor
    · rfl
    · exact fun x _ => rfl
    · exact fun x hx => by cases hx
    · exact fun g' hg' => by cases hg'
    · trivial
    · intro x hx raw ref hx' _
      obtain rfl := (hw x).mp hx
      exact (held_of_reads hs.ctl hr (hsame.symm.trans hx')).2
  cases hg : s.handle g with
  | absent => exact absurd hg hlive
  | live raw ref =>
    have hheld := (held_of_reads hs.ctl hr hg).1
    rw [hg] at hsame
    rw [State.inc, hsame]
    cases ref with
    | none =>
      -- an empty handle: nothing to count
      apply hs.advance (ha s.count) hs.ok
      · intro x hx
        obtain rfl := (hw x).mp hx
        rw [hlimbo]
        show (s.handle x).refCount = none
        rw [hsame]
        rfl
      · exact fun x _ => rfl
      · exact hdis.symm
      · exact fun t' _ => rfl
      all_goals first | rfl | exact hs.good
    | some o =>
      obtain ⟨c, hc, halive⟩ := hs.ok.of_held hheld
      have hL := hs.ok.share hlimbo hheld hc
      -- there are fewer than 2^32 handles, so the count does not wrap
      have hmod : (c + 1 + 1) % 2 ^ 32 = c + 1 + 1 := by
        have hnew : ((ledger C s).share h o (c + 1)).count o = some (c + 1 + 1) := Function.update_self ..
        have := hL.counted o _ hnew
        have := Ledger.holders_le ((ledger C s).share h o (c + 1)).held o
        exact Nat.mod_eq_of_lt (by omega)
      have hc' : s.count o = some (c + 1) := hc
      simp only [hc', hmod, State.touch_of_alive (s := s) halive]
      apply hs.advance (ha _) hL
      · intro x hx
        obtain rfl := (hw x).mp hx
        have hnew : ((ledger C s).share x o (c + 1)).held x = some o := Function.update_self ..
        rw [hnew]
        show (s.handle x).refCount = some o
        rw [hsame]
        rfl
      · exact fun x hx => Function.update_of_ne (fun heq => hx ((hw x).mpr heq)) ..
      · exact hdis.symm
      · exact fun t' _ => rfl
      all_goals first | rfl | exact hs.good

theorem Inv.take (hs : Inv C s) (hp : s.pc t = .take h g) : Inv C (s.take t h g) := by
  obtain ⟨hne, hlive⟩ : h ≠ g ∧ s.handle g ≠ .absent := by
    have := hs.ctl.ok t
    rw [hp] at this
    exact this
  have hw : ∀ x, x ∈ (s.pc t).writes ↔ x = h ∨ x = g := by
    intro x
    rw [hp]
    simp [Pc.writes]
  have hlg : (s.pc t).limbo g = false := by
    rw [hp]
    exact decide_eq_false hne.symm
  have hlimbo : (ledger C s).held h = none := held_in_limbo hs.ctl (by rw [hp]; exact decide_eq_true rfl)
  cases hg : s.handle g with
  | absent => exact absurd hg hlive
  | live raw ref =>
    obtain ⟨hheld, hpair⟩ := held_of_writes hs.ctl ((hw g).mpr (.inr rfl)) hlg hg
    rw [State.take, hg]
    have hh : (((s.set g (.live none none)).set h (.live raw ref)).goto t .idle).handle h = .live raw ref :=
      Function.update_self ..
    have hg' : (((s.set g (.live none none)).set h (.live raw ref)).goto t .idle).handle g = .live none none := by
      show Function.update (Function.update s.handle g _) h _ g = _
      rw [Function.update_of_ne hne.symm, Function.update_self]
    -- the two pointers change places in one step: no other thread touches either handle
    have ha : Advance s (((s.set g (.live none none)).set h (.live raw ref)).goto t .idle) t .idle := by
      constructor
      · rfl
      · intro x hx
        rw [hw, not_or] at hx
        show Function.update (Function.update s.handle g _) h _ x = _
        rw [Function.update_of_ne hx.1, Function.update_of_ne hx.2]
      · exact fun x hx => by cases hx
      · exact fun g' hg' => by cases hg'
      · trivial
      · intro x hx raw' ref' hx' _
        rcases (hw x).mp hx with rfl | rfl
        · rw [hh] at hx'
          cases hx'
          exact hpair
        · rw [hg'] at hx'
          cases hx'
          rfl
    have hheld' : ((ledger C s).transfer h g).held =
        Function.update (Function.update (ledger C s).held h ((ledger C s).held g)) g none := rfl
    apply hs.advance ha (hs.ok.transfer hlimbo hne)
    · intro x hx
      rw [hheld', limbo_idle, if_neg Bool.false_ne_true]
      rcases (hw x).mp hx with rfl | rfl
      · rw [hh, Function.update_of_ne hne, Function.update_self, hheld]
        rfl
      · rw [hg', Function.update_self]
        rfl
    · intro x hx
      rw [hw, not_or] at hx
      rw [hheld', Function.update_of_ne hx.2, Function.update_of_ne hx.1]
    · exact (disposing_none (C := C) (by rw [hp]; rfl)).symm
    · exact fun t' _ => rfl
    all_goals first | rfl | exact hs.good

/-- **`_dec()` returns**, in a state that differs from `s` in `h`, the counts and the objects only. -/
theorem Inv.resume (hs : Inv C s) {s₁ : State Th H} (hw : (s.pc t).writes = (Pc.dec h k).writes)
    (hr : (s.pc t).reads = (Pc.dec h k).reads) (hl : ∀ x, x ≠ h → (s.pc t).limbo x = false) (hk : k.Ok s.handle h)
    (hpc : s₁.pc = s.pc) (hh : ∀ x, x ≠ h → s₁.handle x = s.handle x) (hL : L.Ok) (hheld : L.held h = none)
    (hrest : ∀ x, x ≠ h → L.held x = (ledger C s).held x) (hdis : L.disposing t = none)
    (hothers : ∀ t', t' ≠ t → L.disposing t' = (ledger C s).disposing t') (hcount : s₁.count = L.count)
    (halive : s₁.object = L.alive) (hnext : s₁.next = L.next) (hdeleted : s₁.deleted = L.deleted)
    (hgood : s₁.bad = false) : Inv C (s₁.resume t h k) := by
  obtain ⟨handle, heq, hhandle, hnone⟩ := resume_eq s₁ t h k
  have hsame : ∀ x, x ≠ h → handle x = s.handle x := fun x hx => (hhandle x hx).trans (hh x hx)
  have hmem : h ∈ (s.pc t).writes := by
    rw [hw]
    exact mem_writes_dec
  -- the other handle that the operation changes is the one it takes from
  have hother : ∀ x ∈ (s.pc t).writes, x ≠ h → k = .take x ∧ (k.pc h).limbo x = false := by
    intro x hx hne
    rw [hw] at hx
    have hkx := (mem_writes_dec_iff.mp hx).resolve_left hne
    subst hkx
    exact ⟨rfl, decide_eq_false hne⟩
  rw [heq]
  have ha : Advance s ({ s₁ with handle := handle }.goto t (k.pc h)) t (k.pc h) := by
    constructor
    case pc =>
      show Function.update s₁.pc t _ = _
      rw [hpc]
    case handle => exact fun x hx => hsame x fun heq => hx (heq ▸ hmem)
    case writes =>
      intro x hx
      rw [hw]
      cases k with
      | drop => cases hx
      | load g => exact hx
      | take g => exact hx
    case reads =>
      intro g hg
      rw [hr]
      cases k with
      | drop => cases hg
      | load g => exact hg
      | take g => cases hg
    case ok =>
      cases k with
      | drop => trivial
      | load g => trivial
      | take g => exact ⟨hk.1, by show handle g ≠ _; rw [hsame g hk.1.symm]; exact hk.2⟩
    case paired =>
      intro x hx raw ref hx' hlimbo
      by_cases hxh : x = h
      · subst hxh
        rw [hlimbo] at hnone
        have hx'' : handle x = .live raw ref := hx'
        rw [hx'', if_neg Bool.false_ne_true] at hnone
        cases k with
        | drop =>
          have : handle x = .absent := congrFun (congrArg State.handle heq).symm x |>.trans (Function.update_self ..)
          rw [this] at hx''
          cases hx''
        | load g => exact absurd hlimbo (by simp [Next.pc, Pc.limbo])
        | take g => exact absurd hlimbo (by simp [Next.pc, Pc.limbo])
      · have hx'' : handle x = .live raw ref := hx'
        rw [hsame x hxh] at hx''
        exact (held_of_writes hs.ctl hx (hl x hxh) hx'').2
  apply hs.advance ha hL
  · intro x hx
    by_cases hxh : x = h
    · subst hxh
      rw [hheld]
      exact hnone
    · rw [(hother x hx hxh).2, if_neg Bool.false_ne_true, hrest x hxh]
      show (handle x).refCount = _
      rw [hsame x hxh, held_of_not_limbo]
      rw [hs.ctl.own t x hx]
      exact hl x hxh
  · exact fun x hx => hrest x fun heq => hx (heq ▸ hmem)
  · rw [hdis]
    exact disposal_pc handle k
  · exact hothers
  · exact hcount
  · exact halive
  · exact hnext
  · exact hdeleted
  · exact hgood

theorem Inv.dec (hs : Inv C s) (hcard : Fintype.card H < 2 ^ 32) (hp : s.pc t = .dec h k) : Inv C (s.dec t h k) := by
  obtain ⟨hlive, hk⟩ : s.handle h ≠ .absent ∧ k.Ok s.handle h := by
    have := hs.ctl.ok t
    rw [hp] at this
    exact this
  have hw : (s.pc t).writes = (Pc.dec h k).writes := by rw [hp]
  have hr : (s.pc t).reads = (Pc.dec h k).reads := by rw [hp]
  have hl : ∀ x, (s.pc t).limbo x = false := by
    intro x
    rw [hp]
    rfl
  have hmem : h ∈ (s.pc t).writes := by
    rw [hw]
    exact mem_writes_dec
  have hdis : (ledger C s).disposing t = none := disposing_none (by rw [hp]; rfl)
  cases hh : s.handle h with
  | absent => exact absurd hh hlive
  | live raw ref =>
    obtain ⟨hheld, rfl⟩ := held_of_writes hs.ctl hmem (hl h) hh
    rw [State.dec, hh]
    cases raw with
    | none =>
      exact hs.resume hw hr (fun x _ => hl x) hk rfl (fun x _ => rfl) hs.ok hheld (fun x _ => rfl) hdis (fun t' _ => rfl) rfl
        rfl rfl rfl hs.good
    | some o =>
      obtain ⟨c, hc, halive⟩ := hs.ok.of_held hheld
      -- `fetch_sub(1)` adds 2^32 - 1
      have hmod : (c + 1 + (2 ^ 32 - 1)) % 2 ^ 32 = c := by
        have := hs.ok.counted o (c + 1) hc
        have := Ledger.holders_le (ledger C s).held o
        omega
      have hc' : s.count o = some (c + 1) := hc
      have hoff : ∀ x, x ≠ h → ((ledger C s).letGo h o c).held x = (ledger C s).held x :=
        fun x hne => Function.update_of_ne hne ..
      have hat : ((ledger C s).letGo h o c).held h = none := Function.update_self ..
      simp only [hc', hmod, State.touch_of_alive (s := s) halive]
      by_cases hone : c + 1 = 1
      · -- the last share
        obtain rfl : c = 0 := by omega
        have hdelRaw : (Pc.delRaw h k).limbo h = true := decide_eq_true rfl
        rw [if_pos hone]
        have ha : Advance s ({ s with count := Function.update s.count o (some 0) }.goto t (.delRaw h k)) t (.delRaw h k) := by
          constructor
          case pc => rfl
          case handle => exact fun x _ => rfl
          case writes =>
            intro x hx
            rwa [writes_delRaw, ← hw] at hx
          case reads =>
            intro g hg
            rwa [reads_delRaw, ← hr] at hg
          case ok => exact ⟨⟨o, hh⟩, hk⟩
          case paired =>
            intro x hx raw ref hx' _
            exact (held_of_writes hs.ctl hx (hl x) hx').2
        apply hs.advance ha (hs.ok.letLast hheld hc hdis)
        · intro x hx
          show _ = ((ledger C s).letGo h o 0).held x
          by_cases hxh : x = h
          · subst hxh
            rw [hat, if_pos hdelRaw]
          · rw [hoff x hxh, if_neg, held_of_not_limbo]
            · rfl
            · rw [hs.ctl.own t x hx]
              exact hl x
            · exact fun h' => hxh (of_decide_eq_true h')
        · exact fun x hx => hoff x fun heq => hx (heq ▸ hmem)
        · have hnew : (((ledger C s).letGo h o 0).dispose t o).disposing t = some (o, true) := Function.update_self ..
          rw [hnew]
          show (s.handle h).refCount.map _ = _
          rw [hh]
          rfl
        · exact fun t' hne => Function.update_of_ne hne ..
        all_goals first | rfl | exact hs.good
      · rw [if_neg hone]
        -- others still hold it
        have hL := hs.ok.letGo hheld hc (by omega)
        exact hs.resume (L := (ledger C s).letGo h o c) hw hr (fun x _ => hl x) hk rfl (fun x _ => rfl) hL hat hoff hdis
          (fun t' _ => rfl) rfl rfl rfl rfl hs.good

theorem Inv.delRaw (hs : Inv C s) (hp : s.pc t = .delRaw h k) : Inv C (s.delRaw t h k) := by
  obtain ⟨⟨o, hh⟩, hk⟩ : (∃ o, s.handle h = .live (some o) (some o)) ∧ k.Ok s.handle h := by
    have := hs.ctl.ok t
    rw [hp] at this
    exact this
  have hw : (s.pc t).writes = (Pc.dec h k).writes := by
    rw [hp]
    exact writes_delRaw
  have hmem : h ∈ (s.pc t).writes := by
    rw [hw]
    exact mem_writes_dec
  have hl : ∀ x, x ≠ h → (s.pc t).limbo x = false := by
    intro x hne
    rw [hp]
    exact decide_eq_false hne
  have hheld : (ledger C s).held h = none := held_in_limbo hs.ctl (by rw [hp]; exact decide_eq_true rfl)
  have hdis : (ledger C s).disposing t = some (o, true) := by
    show disposal s.handle (s.pc t) = _
    rw [hp, disposal, hh]
    rfl
  have halive : s.object o = true := (hs.ok.zero t o true hdis).2
  have hat : Function.update s.handle h (.live none (some o)) h = .live none (some o) := Function.update_self ..
  have hoff : ∀ x, x ≠ h → Function.update s.handle h (.live none (some o)) x = s.handle x :=
    fun x hne => Function.update_of_ne hne ..
  rw [State.delRaw, hh]
  show Inv C (if s.object o then _ else _)
  rw [if_pos halive]
  -- the ledger deletes the object; its count is still there
  apply @Inv.advance _ _ _ _ _ _ t (.delRef h k) _ _ _ hs _ (hs.ok.deleteObject hdis)
  · intro x hx
    show _ = (ledger C s).held x
    by_cases hxh : x = h
    · subst hxh
      rw [hheld]
      exact if_pos (decide_eq_true rfl)
    · have hnot : (Pc.delRef h k).limbo x = false := decide_eq_false hxh
      rw [hnot, if_neg Bool.false_ne_true, held_of_not_limbo]
      · exact congrArg Slot.refCount (hoff x hxh)
      · rw [hs.ctl.own t x hx]
        exact hl x hxh
  · exact fun x _ => rfl
  · have hnew : ((ledger C s).deleteObject t o).disposing t = some (o, false) := Function.update_self ..
    rw [hnew]
    show (Function.update s.handle h (.live none (some o)) h).refCount.map _ = _
    rw [hat]
    rfl
  · exact fun t' hne => Function.update_of_ne hne ..
  · rfl
  · rfl
  · rfl
  · rfl
  · exact hs.good
  · constructor
    case pc => rfl
    case handle => exact fun x hx => hoff x fun heq => hx (heq ▸ hmem)
    case writes =>
      intro x hx
      rwa [writes_delRef, ← hw] at hx
    case reads =>
      intro g hg
      rw [hp, reads_delRaw, ← hg, reads_delRef]
    case ok =>
      refine ⟨⟨o, hat⟩, ?_⟩
      cases k with
      | drop => trivial
      | load g => trivial
      | take g => exact ⟨hk.1, by show Function.update s.handle h _ g ≠ _; rw [hoff g hk.1.symm]; exact hk.2⟩
    case paired =>
      intro x hx raw ref hx' hlimbo
      have hxh : x ≠ h := fun heq => by rw [heq] at hlimbo; exact absurd hlimbo (by simp [Pc.limbo])
      have hx'' : Function.update s.handle h (.live none (some o)) x = .live raw ref := hx'
      rw [hoff x hxh] at hx''
      exact (held_of_writes hs.ctl hx (hl x hxh) hx'').2

theorem Inv.delRef (hs : Inv C s) (hp : s.pc t = .delRef h k) : Inv C (s.delRef t h k) := by
  obtain ⟨⟨o, hh⟩, hk⟩ : (∃ o, s.handle h = .live none (some o)) ∧ k.Ok s.handle h := by
    have := hs.ctl.ok t
    rw [hp] at this
    exact this
  have hdis : (ledger C s).disposing t = some (o, false) := by
    show disposal s.handle (s.pc t) = _
    rw [hp, disposal, hh]
    rfl
  have hzero : s.count o = some 0 := (hs.ok.zero t o false hdis).1
  rw [State.delRef, hh]
  simp only [hzero]
  apply hs.resume (L := (ledger C s).deleteCount t o)
  · rw [hp]
    exact writes_delRef
  · rw [hp]
    exact reads_delRef
  · intro x hne
    rw [hp]
    exact decide_eq_false hne
  · exact hk
  · rfl
  · exact fun x hne => Function.update_of_ne hne ..
  · exact hs.ok.deleteCount hdis
  · exact held_in_limbo hs.ctl (by rw [hp]; exact decide_eq_true rfl)
  · exact fun x _ => rfl
  · exact Function.update_self ..
  · exact fun t' hne => Function.update_of_ne hne ..
  · rfl
  · rfl
  · rfl
  · rfl
  · exact hs.good

end Steps

/-! ## §4 — the calls. -/

section Calls

variable [Fintype H] {h g : H} {op : Op H}

omit [DecidableEq H] [DecidableEq Th] [Fintype H] in
/-- The source of a constructor is not what it constructs. -/
theorem source_ne (habs : s.handle h = .absent) (hlive : s.handle g ≠ .absent) : h ≠ g := by
  rintro rfl
  exact hlive habs

omit [DecidableEq Th] [Fintype H] in
/-- **What an operation is like when it starts.** -/
theorem begin_spec (ht : Typed C s op) :
    (∀ x ∈ op.begin.writes, x ∈ op.changes) ∧
      (∀ g, op.begin.reads = some g → s.handle g ≠ .absent ∧ g ∉ op.begin.writes) ∧ op.begin.Ok s.handle ∧
      (∀ x, op.begin.limbo x = true → s.handle x = .absent) ∧ disposal s.handle op.begin = none := by
  have hload : ∀ h g : H, s.handle h = .absent → s.handle g ≠ .absent →
      (∀ g', (Pc.load h g).reads = some g' → s.handle g' ≠ .absent ∧ g' ∉ (Pc.load h g).writes) ∧
        ∀ x, (Pc.load h g).limbo x = true → s.handle x = .absent := by
    intro h g habs hlive
    constructor
    · intro g' hg'
      obtain rfl := Option.some.inj hg'
      exact ⟨hlive, fun hmem => source_ne habs hlive (List.mem_singleton.mp hmem).symm⟩
    · intro x hx
      rwa [of_decide_eq_true hx]
  have htake : ∀ h g : H, s.handle h = .absent → ∀ x, (Pc.take h g).limbo x = true → s.handle x = .absent := by
    intro h g habs x hx
    rwa [of_decide_eq_true hx]
  cases op with
  | default h =>
    exact ⟨fun x hx => (by cases hx), fun g hg => (by cases hg), trivial, fun x hx => (by cases hx), rfl⟩
  | copy h g => exact ⟨fun x hx => hx, (hload h g ht.1 ht.2.1).1, trivial, (hload h g ht.1 ht.2.1).2, rfl⟩
  | copyFrom h g => exact ⟨fun x hx => hx, (hload h g ht.1 ht.2.1).1, trivial, (hload h g ht.1 ht.2.1).2, rfl⟩
  | move h g =>
    exact ⟨fun x hx => hx, fun g hg => (by cases hg), ⟨source_ne ht.1 ht.2.1, ht.2.1⟩, htake h g ht.1, rfl⟩
  | moveFrom h g =>
    exact ⟨fun x hx => hx, fun g hg => (by cases hg), ⟨source_ne ht.1 ht.2.1, ht.2.1⟩, htake h g ht.1, rfl⟩
  | intoDyn h g const =>
    cases const with
    | true => exact ⟨fun x hx => hx, (hload h g ht.1 ht.2.1).1, trivial, (hload h g ht.1 ht.2.1).2, rfl⟩
    | false =>
      exact ⟨fun x hx => hx, fun g hg => (by cases hg), ⟨source_ne ht.1 ht.2.1, ht.2.1⟩, htake h g ht.1, rfl⟩
  | copyAssign h g =>
    by_cases heq : h = g
    · rw [Op.begin, if_pos heq]
      exact ⟨fun x hx => (by cases hx), fun g hg => (by cases hg), trivial, fun x hx => (by cases hx), rfl⟩
    · rw [Op.begin, if_neg heq]
      refine ⟨fun x hx => hx, ?_, ⟨ht.1, trivial⟩, fun x hx => (by cases hx), rfl⟩
      intro g' hg'
      obtain rfl := Option.some.inj hg'
      exact ⟨ht.2.1, fun hmem => heq (List.mem_singleton.mp hmem).symm⟩
  | moveAssign h g =>
    by_cases heq : h = g
    · rw [Op.begin, if_pos heq]
      exact ⟨fun x hx => (by cases hx), fun g hg => (by cases hg), trivial, fun x hx => (by cases hx), rfl⟩
    · rw [Op.begin, if_neg heq]
      exact ⟨fun x hx => hx, fun g hg => (by cases hg), ⟨ht.1, heq, ht.2.1⟩, fun x hx => (by cases hx), rfl⟩
  | destroy h => exact ⟨fun x hx => hx, fun g hg => (by cases hg), ⟨ht, trivial⟩, fun x hx => (by cases hx), rfl⟩

/-- The operations other than the default construction. -/
theorem Inv.begin (hs : Inv C s) (hidle : s.pc t = .idle) (ht : Typed C s op) (ha : Apart C s t op) :
    Inv C (s.goto t op.begin) := by
  obtain ⟨hwrites, hreads, hok, hlimbo, hdis⟩ := begin_spec ht
  refine ⟨?_, ?_, hs.good⟩
  · apply hs.ctl.enter hidle
    · exact fun x hx => ha.1 x (hwrites x hx)
    · exact fun g hg => ⟨(hreads g hg).1, ha.2 g hg, (hreads g hg).2⟩
    · exact hok
  · have heq : ledger C (s.goto t op.begin) = ledger C s := by
      apply Ledger.ext
      · funext x
        show (if (Function.update s.pc t op.begin (C.thread x)).limbo x then none else (s.handle x).refCount) =
          if (s.pc (C.thread x)).limbo x then none else (s.handle x).refCount
        by_cases hx : C.thread x = t
        · rw [hx, Function.update_self, hidle, limbo_idle, if_neg Bool.false_ne_true]
          by_cases hl : op.begin.limbo x = true
          · rw [if_pos hl, hlimbo x hl]
            rfl
          · rw [if_neg hl]
        · rw [Function.update_of_ne hx]
      · funext t'
        show disposal s.handle (Function.update s.pc t op.begin t') = disposal s.handle (s.pc t')
        by_cases hne : t' = t
        · subst hne
          rw [Function.update_self, hdis, hidle]
          rfl
        · rw [Function.update_of_ne hne]
      all_goals rfl
    rw [heq]
    exact hs.ok

omit [DecidableEq Th] in
/-- `shared_memory()`. -/
theorem Inv.default (hs : Inv C s) (hidle : s.pc t = .idle) (habs : s.handle h = .absent) (hown : C.thread h = t) :
    Inv C (s.alloc h) := by
  have hat : Function.update s.handle h (.live (some s.next) (some s.next)) h = .live (some s.next) (some s.next) :=
    Function.update_self ..
  have hoff : ∀ x, x ≠ h → Function.update s.handle h (.live (some s.next) (some s.next)) x = s.handle x :=
    fun x hne => Function.update_of_ne hne ..
  -- no operation uses the handle
  have hwrites : ∀ t', h ∉ (s.pc t').writes := by
    intro t' hmem
    rw [← hs.ctl.own t' h hmem, hown, hidle] at hmem
    cases hmem
  have hreads : ∀ t', (s.pc t').reads ≠ some h := fun t' hr => (hs.ctl.frozen t' h hr).1 habs
  have hsame : ∀ t', ∀ x ∈ (s.pc t').writes, Function.update s.handle h (.live (some s.next) (some s.next)) x = s.handle x :=
    fun t' x hx => hoff x fun heq => hwrites t' (heq ▸ hx)
  have hl : (s.pc (C.thread h)).limbo h = false := limbo_of_not_mem (hwrites _)
  have hheld : (ledger C s).held h = none := by
    rw [held_of_not_limbo hl, habs]
    rfl
  refine ⟨?_, ?_, hs.good⟩
  · constructor
    case own => exact hs.ctl.own
    case frozen =>
      intro t' g hg
      obtain ⟨hlive, hfree⟩ := hs.ctl.frozen t' g hg
      refine ⟨?_, hfree⟩
      show Function.update s.handle h _ g ≠ _
      rw [hoff g fun heq => hreads t' (heq ▸ hg)]
      exact hlive
    case ok =>
      intro t'
      exact (hs.ctl.ok t').congr (hsame t') fun g hg => hoff g fun heq => hreads t' (heq ▸ hg)
    case paired =>
      intro x raw ref hx hlimbo
      have hx' : Function.update s.handle h (.live (some s.next) (some s.next)) x = .live raw ref := hx
      by_cases heq : x = h
      · subst heq
        rw [hat, Slot.live.injEq] at hx'
        exact hx'.1.symm.trans hx'.2
      · rw [hoff x heq] at hx'
        exact hs.ctl.paired x raw ref hx' hlimbo
  · have heq : ledger C (s.alloc h) = (ledger C s).alloc h := by
      apply Ledger.ext
      · funext x
        show (if (s.pc (C.thread x)).limbo x then none else (Function.update s.handle h _ x).refCount) =
          Function.update (ledger C s).held h (some s.next) x
        by_cases hx : x = h
        · subst hx
          rw [hl, if_neg Bool.false_ne_true, hat, Function.update_self]
          rfl
        · rw [hoff x hx, Function.update_of_ne hx]
          rfl
      · funext t'
        exact disposal_congr (hsame t')
      all_goals rfl
    rw [heq]
    exact hs.ok.alloc hheld

omit [DecidableEq Th] [Fintype H] in
/-- A handle that nobody is changing is as the ledger says. -/
theorem held_of_free (hs : Ctl C s) (hfree : ∀ t', h ∉ (s.pc t').writes) {raw ref : Option Nat}
    (hh : s.handle h = .live raw ref) : (ledger C s).held h = ref ∧ raw = ref := by
  have hl := limbo_of_not_mem (hfree (C.thread h))
  constructor
  · rw [held_of_not_limbo hl, hh]
    rfl
  · exact hs.paired h raw ref hh hl

omit [DecidableEq Th] in
theorem Inv.get (hs : Inv C s) {o : Nat} {ref : Option Nat} (hh : s.handle h = .live (some o) ref)
    (hfree : ∀ t', h ∉ (s.pc t').writes) : s.get h = s := by
  obtain ⟨hheld, rfl⟩ := held_of_free hs.ctl hfree hh
  obtain ⟨-, -, halive⟩ := hs.ok.of_held hheld
  rw [State.get, hh]
  exact if_pos halive

omit [DecidableEq Th] in
/-- `use_count()`. -/
theorem Inv.useCount (hs : Inv C s) (hlive : s.handle h ≠ .absent) (hfree : ∀ t', h ∉ (s.pc t').writes) :
    s.useCount h = s := by
  cases hh : s.handle h with
  | absent => exact absurd hh hlive
  | live raw ref =>
    obtain ⟨hheld, rfl⟩ := held_of_free hs.ctl hfree hh
    rw [State.useCount, hh]
    cases raw with
    | none => rfl
    | some o =>
      obtain ⟨c, hc, halive⟩ := hs.ok.of_held hheld
      have hc' : s.count o ≠ none := by
        rw [show s.count o = some (c + 1) from hc]
        exact Option.some_ne_none _
      show (if s.count o = none then s.fault else s.touch o) = s
      rw [if_neg hc']
      exact State.touch_of_alive halive

/-- **One step keeps the ledger.** -/
theorem Inv.step (hs : Inv C s) (hcard : Fintype.card H < 2 ^ 32) {a : Act Th H} (hl : Legal C s a)
    (hstep : step s a = some s') : Inv C s' := by
  cases a with
  | call t op =>
    cases hp : s.pc t with
    | idle =>
      simp only [SharedMemory.step, hp] at hstep
      obtain rfl := Option.some.inj hstep
      cases op with
      | default h => exact hs.default hp hl.1 (hl.2.1 h List.mem_cons_self).1
      | _ => exact hs.begin hp hl.1 hl.2
    | _ =>
      simp only [SharedMemory.step, hp] at hstep
      cases hstep
  | step t =>
    cases hp : s.pc t with
    | idle =>
      simp only [SharedMemory.step, hp] at hstep
      cases hstep
    | load h g =>
      simp only [SharedMemory.step, hp] at hstep
      obtain rfl := Option.some.inj hstep
      exact hs.load hp
    | inc h g =>
      simp only [SharedMemory.step, hp] at hstep
      obtain rfl := Option.some.inj hstep
      exact hs.inc hcard hp
    | take h g =>
      simp only [SharedMemory.step, hp] at hstep
      obtain rfl := Option.some.inj hstep
      exact hs.take hp
    | dec h k =>
      simp only [SharedMemory.step, hp] at hstep
      obtain rfl := Option.some.inj hstep
      exact hs.dec hcard hp
    | delRaw h k =>
      simp only [SharedMemory.step, hp] at hstep
      obtain rfl := Option.some.inj hstep
      exact hs.delRaw hp
    | delRef h k =>
      simp only [SharedMemory.step, hp] at hstep
      obtain rfl := Option.some.inj hstep
      exact hs.delRef hp
  | get t h =>
    obtain ⟨⟨o, ref, hh⟩, hfree⟩ := hl
    cases hp : s.pc t with
    | idle =>
      simp only [SharedMemory.step, hp] at hstep
      obtain rfl := Option.some.inj hstep
      rw [hs.get hh hfree]
      exact hs
    | _ =>
      simp only [SharedMemory.step, hp] at hstep
      cases hstep
  | useCount t h =>
    cases hp : s.pc t with
    | idle =>
      simp only [SharedMemory.step, hp] at hstep
      obtain rfl := Option.some.inj hstep
      rw [hs.useCount hl.1 hl.2]
      exact hs
    | _ =>
      simp only [SharedMemory.step, hp] at hstep
      cases hstep

/-! ## §5 — the runs. -/

omit [DecidableEq Th] in
theorem inv_init : Inv C (init : State Th H) := by
  have hzero : ∀ o, Ledger.holders (ledger C (init : State Th H)).held o = 0 :=
    fun o => threadCount_const (· == some o) none rfl
  refine ⟨?_, ?_, rfl⟩
  · constructor
    case own => exact fun t x hx => (by cases hx)
    case frozen => exact fun t g hg => (by cases hg)
    case ok => exact fun t => trivial
    case paired => exact fun h raw ref hh => (by cases hh)
  · constructor
    case counted => exact fun o c hc => (by cases hc)
    case unheld => exact fun o _ => hzero o
    case zero => exact fun t o b ht => (by cases ht)
    case disposed => exact fun o hc => (by cases hc)
    case unique => exact fun t t' o b b' ht => (by cases ht)
    case alive => exact fun o c hc => (by cases hc)
    case gone => exact fun o _ => rfl
    case fresh => exact fun o _ => rfl
    case log =>
      intro o
      constructor
      · intro hmem
        cases hmem
      · intro hlt
        exact absurd hlt.1 (Nat.not_lt_zero o)
    case once => exact List.nodup_nil

theorem inv_of_run (hcard : Fintype.card H < 2 ^ 32) (hr : Run step (Legal C) init s) : Inv C s := by
  apply hr.invariant
  · intro s a s' hs hl hstep
    exact hs.step hcard hl hstep
  · exact inv_init

omit [DecidableEq Th] in
/-- What the ledger says about the handles. -/
theorem Inv.safe (hs : Inv C s) : Safe C s := by
  have hheld : (∀ t, s.pc t = .idle) → (ledger C s).held = fun h => (s.handle h).refCount := by
    intro hidle
    funext h
    apply held_of_not_limbo
    rw [hidle]
    rfl
  constructor
  case good => exact hs.good
  case once => exact hs.ok.once
  case last =>
    intro t o hmem h raw hh
    have hdead : s.object o = false := ((hs.ok.log o).mp (List.mem_map.mpr ⟨(t, o), hmem, rfl⟩)).2
    by_contra hl
    have hheld : (ledger C s).held h = some o := by
      rw [held_of_not_limbo (Bool.eq_false_of_not_eq_true hl), hh]
      rfl
    obtain ⟨-, -, halive⟩ := hs.ok.of_held hheld
    exact absurd (hdead.symm.trans halive) Bool.false_ne_true
  case quiet =>
    intro hidle o ho
    have howners : owners s o = Ledger.holders (ledger C s).held o := by
      rw [hheld hidle]
      rfl
    cases hc : s.count o with
    | none =>
      right
      have hdead : s.object o = false := hs.ok.gone o hc
      refine ⟨rfl, ?_, hdead, (hs.ok.log o).mpr ⟨ho, hdead⟩⟩
      rw [howners]
      exact hs.ok.unheld o hc
    | some c =>
      left
      have hcount := hs.ok.counted o c hc
      cases c with
      | zero =>
        -- somebody is disposing of it
        obtain ⟨t, b, ht⟩ := hs.ok.disposed o hc
        have ht' : disposal s.handle (s.pc t) = some (o, b) := ht
        rw [hidle t] at ht'
        cases ht'
      | succ c =>
        rw [howners, ← hcount]
        exact ⟨rfl, Nat.succ_pos c, hs.ok.alive o c hc⟩
  case paired =>
    intro hidle h raw ref hh
    apply hs.ctl.paired h raw ref hh
    rw [hidle]
    rfl

/-- **In every interleaving of any number of threads** with fewer than 2^32 handles, an object is deleted exactly once,
after its last owner let go, nothing is touched after that, and between the operations the count is that of the
owners. -/
theorem safe_of_run (C : Program Th H) (hcard : Fintype.card H < 2 ^ 32) (hr : Run step (Legal C) init s) : Safe C s :=
  (inv_of_run hcard hr).safe

end Calls

/-- Two threads with a handle each. -/
def twoThreads : Program (Fin 2) (Fin 2) := ⟨id, Unit, fun _ => (), fun _ _ => True⟩

/-- The second thread copies the handle of the first one. -/
theorem copied_safe : ∃ s : State (Fin 2) (Fin 2),
    exec step init [.call 0 (.default 0), .call 1 (.copy 1 0), .step 1, .step 1] = some s ∧ s.count 0 = some 2 ∧
      Safe twoThreads s := by
  refine ⟨_, rfl, rfl, safe_of_run twoThreads (by decide) ?_⟩
  have hdefault : Legal twoThreads init (.call 0 (.default 0)) := by
    refine ⟨rfl, ?_, fun g hg => (by cases hg)⟩
    intro x hx
    obtain rfl := List.mem_singleton.mp hx
    exact ⟨rfl, fun t' h => (by cases h)⟩
  have hcopy : Legal twoThreads (init.alloc 0) (.call 1 (.copy 1 0)) := by
    refine ⟨⟨rfl, fun h => (by cases h), rfl⟩, ?_, fun g _ t' h => (by cases h)⟩
    intro x hx
    obtain rfl := List.mem_singleton.mp hx
    exact ⟨rfl, fun t' h => (by cases h)⟩
  have hrun : Run step (Legal twoThreads) init (init.alloc 0) := (Run.refl _).tail _ hdefault rfl
  have hstep : ∀ s : State (Fin 2) (Fin 2), Legal twoThreads s (.step 1) := fun _ => trivial
  exact ((hrun.tail _ hcopy rfl).tail (.step 1) (hstep _) rfl).tail (.step 1) (hstep _) rfl

end NetCpp.SharedMemory
