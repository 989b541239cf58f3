/-
# NetCpp.Wheel.Rc — handles on counted objects.

`include/xsl/wheel/rc.h`.  A handle is a pointer `inner_` to an `Inner`, the object together with its `ref_count`, or
null.  The handles are the `n` names `Fin n`; the storage of one is on its own or inside an object (a member of `T`, an
element of a vector that `T` holds), and then `~T` destroys it.  `delete inner_` ends the object's life and runs the
destructors of the handles inside, which may let go of further objects: `destroyAll` keeps the list of the destructors
that are still to run.  The handles that `T` constructs inside an object count as constructed after it.  A count is a
natural number: there are fewer than 2^64 handles.

A fault is what the program must not do: `++inner_->ref_count` on a null handle, the count of an object that is not
alive, a handle whose life has ended.  Two operations can run into one: a copy of an empty handle, and an assignment
that lets go of its old object before it reads the other handle, when one of the two lives in what is destroyed.
`counted_of_run` is about every run without those.
-/
import NetCpp.Lib.Transition

namespace NetCpp.Wheel.Rc

open NetCpp.Lib

/-! ## §1 — handles and objects. -/

/-- The storage of a handle: no handle, or one that lives in the object `home` (if any), with its `inner_`. -/
inductive Slot
  | absent
  | live (home inner : Option Nat)
  deriving DecidableEq

structure Inner (T : Type) where
  value : T
  refCount : Nat

structure State (n : Nat) (T : Type) where
  slot : Fin n → Slot
  heap : Nat → Option (Inner T)
  /-- where the next object will be -/
  next : Nat

inductive Fault
  /-- `inner_->ref_count` of a null handle -/
  | null
  /-- the count of an object that is not alive -/
  | dead
  /-- a handle that is not alive -/
  | gone
  deriving DecidableEq

variable {n : Nat} {T : Type}

def init (n : Nat) (T : Type) : State n T := ⟨fun _ => .absent, fun _ => none, 0⟩

namespace State

/-- The handle `h` is not alive any more. -/
def kill (s : State n T) (h : Fin n) : State n T := { s with slot := Function.update s.slot h .absent }

def construct (s : State n T) (h : Fin n) (home inner : Option Nat) : State n T :=
  { s with slot := Function.update s.slot h (.live home inner) }

/-- `inner_`. -/
def inner (s : State n T) (h : Fin n) : Except Fault (Option Nat) :=
  match s.slot h with
  | .absent => .error .gone
  | .live _ inner => .ok inner

/-- `inner_ = ..`. -/
def setInner (s : State n T) (h : Fin n) (inner : Option Nat) : Except Fault (State n T) :=
  match s.slot h with
  | .absent => .error .gone
  | .live home _ => .ok (s.construct h home inner)

def setCount (s : State n T) (o : Nat) (i : Inner T) (refCount : Nat) : State n T :=
  { s with heap := Function.update s.heap o (some { i with refCount }) }

/-- `new Inner(..)`. -/
def alloc (s : State n T) (value : T) : State n T :=
  { s with heap := Function.update s.heap s.next (some ⟨value, 1⟩), next := s.next + 1 }

/-- The life of the object `o` ends. -/
def free (s : State n T) (o : Nat) : State n T := { s with heap := Function.update s.heap o none }

/-- The handles inside the object `o`. -/
def members (s : State n T) (o : Nat) : List (Fin n) :=
  (List.finRange n).filter fun h => match s.slot h with
    | .absent => false
    | .live home _ => home == some o

theorem kill_slot (s : State n T) (h k : Fin n) : (s.kill h).slot k = if k = h then .absent else s.slot k :=
  Function.update_apply ..

theorem construct_slot (s : State n T) (h : Fin n) (home inner : Option Nat) (k : Fin n) :
    (s.construct h home inner).slot k = if k = h then .live home inner else s.slot k := Function.update_apply ..

theorem free_heap (s : State n T) (o o' : Nat) : (s.free o).heap o' = if o' = o then none else s.heap o' :=
  Function.update_apply ..

theorem alloc_heap (s : State n T) (value : T) (o : Nat) :
    (s.alloc value).heap o = if o = s.next then some ⟨value, 1⟩ else s.heap o := Function.update_apply ..

theorem setCount_heap (s : State n T) (o : Nat) (i : Inner T) (c o' : Nat) :
    (s.setCount o i c).heap o' = if o' = o then some { i with refCount := c } else s.heap o' := Function.update_apply ..

end State

/-! ## §2 — the operations. -/

/-- `++inner_->ref_count`. -/
def retain (s : State n T) : Option Nat → Except Fault (State n T)
  | none => .error .null
  | some o => match s.heap o with
    | none => .error .dead
    | some i => .ok (s.setCount o i (i.refCount + 1))

/-- `if (--inner_->ref_count == 0) delete inner_;`, up to the destructors of the handles inside: those come before the
ones that are already to run. -/
def letGo (s : State n T) (o : Nat) (pending : List (Fin n)) : Except Fault (State n T × List (Fin n)) :=
  match s.heap o with
  | none => .error .dead
  | some i =>
    if i.refCount = 1 then .ok (s.free o, s.members o ++ pending)
    else .ok (s.setCount o i (i.refCount - 1), pending)

/-- The destructors that are still to run; each ends the life of a handle. -/
def destroyAll : Nat → State n T → List (Fin n) → Except Fault (State n T)
  | _, s, [] => .ok s
  | 0, _, _ :: _ => .error .gone
  | fuel + 1, s, h :: pending =>
    match s.slot h with
    | .absent => .error .gone
    | .live _ none => destroyAll fuel (s.kill h) pending
    | .live _ (some o) => do
      let (s, pending) ← letGo (s.kill h) o pending
      destroyAll fuel s pending

/-- `if (inner_ && --inner_->ref_count == 0) delete inner_;`. -/
def release (s : State n T) : Option Nat → Except Fault (State n T)
  | none => .ok s
  | some o => do
    let (s, pending) ← letGo s o []
    destroyAll n s pending

/-- The operations; a constructor is told where the new handle is. -/
inductive Op (n : Nat) (T : Type)
  | default (h : Fin n) (home : Option Nat)
  | make (h : Fin n) (home : Option Nat) (value : T)
  | copy (h : Fin n) (home : Option Nat) (other : Fin n)
  | move (h : Fin n) (home : Option Nat) (other : Fin n)
  | copyAssign (h other : Fin n)
  | moveAssign (h other : Fin n)
  | destroy (h : Fin n)

def apply (s : State n T) : Op n T → Except Fault (State n T)
  | .default h home => .ok (s.construct h home none)
  | .make h home value => .ok ((s.alloc value).construct h home (some s.next))
  | .copy h home other => do
    let inner ← s.inner other
    let s ← retain s inner
    .ok (s.construct h home inner)
  | .move h home other => do
    let inner ← s.inner other
    let s ← s.setInner other none
    .ok (s.construct h home inner)
  | .copyAssign h other =>
    if h = other then .ok s
    else do
      let s ← release s (← s.inner h)
      let inner ← s.inner other
      let s ← s.setInner h inner
      retain s inner
  | .moveAssign h other =>
    if h = other then .ok s
    else do
      let s ← release s (← s.inner h)
      let inner ← s.inner other
      let s ← s.setInner other none
      s.setInner h inner
  | .destroy h => do
    let inner ← s.inner h
    release (s.kill h) inner

/-- What the language asks for: a constructor runs on storage that holds no handle and, inside an object, while that
object is alive; the other operations run on handles that are alive. -/
def Legal (s : State n T) : Op n T → Prop
  | .default h home | .make h home _ => s.slot h = .absent ∧ ∀ o, home = some o → s.heap o ≠ none
  | .copy h home other | .move h home other =>
    s.slot h = .absent ∧ (∀ o, home = some o → s.heap o ≠ none) ∧ s.slot other ≠ .absent
  | .copyAssign h other | .moveAssign h other => s.slot h ≠ .absent ∧ s.slot other ≠ .absent
  | .destroy h => s.slot h ≠ .absent

/-! ## §3 — what the handles promise. -/

def Slot.owns (o : Nat) : Slot → Bool
  | .absent => false
  | .live _ inner => inner == some o

/-- The number of handles that own `o`. -/
def owners (s : State n T) (o : Nat) : Nat := threadCount (Slot.owns o) s.slot

/-- **An object is alive as long as it has owners, and its count is their number.** -/
structure Counted (s : State n T) : Prop where
  count : ∀ o i, s.heap o = some i → i.refCount = owners s o
  alive : ∀ o, s.heap o ≠ none ↔ 0 < owners s o

/-- What the handles of an operation own after it. -/
def Gives (s : State n T) : Op n T → State n T → Prop
  | .default h home, t => t.slot h = .live home none
  | .make h home value, t =>
    ∃ o, s.heap o = none ∧ t.slot h = .live home (some o) ∧ t.heap o = some ⟨value, 1⟩
  | .copy h home other, t => ∃ inner, s.inner other = .ok inner ∧ t.slot h = .live home inner
  | .move h home other, t =>
    ∃ inner, s.inner other = .ok inner ∧ t.slot h = .live home inner ∧ t.inner other = .ok none
  | .copyAssign h other, t => t.inner h = s.inner other
  | .moveAssign h other, t => t.inner h = s.inner other ∧ (h ≠ other → t.inner other = .ok none)
  | .destroy h, t => t.slot h = .absent

/-- No fault, counts that are right again, and the handles as they should be. -/
def Holds (s : State n T) (op : Op n T) : Prop := ∃ t, apply s op = .ok t ∧ Counted t ∧ Gives s op t

/-! ## §4 — the runs it is kept on. -/

/-- The objects that are destroyed when the handle `h` lets go: all their owners are `h`, or inside such objects. -/
inductive Doomed (s : State n T) (h : Fin n) : Nat → Prop
  | last (o : Nat) (holder : Fin n → Nat) (alive : s.heap o ≠ none)
      (inside : ∀ k, (s.slot k).owns o = true → k ≠ h → ∃ inner, s.slot k = .live (some (holder k)) inner)
      (doomed : ∀ k, (s.slot k).owns o = true → k ≠ h → Doomed s h (holder k)) : Doomed s h o

/-- Letting go of what `h` owns does not destroy `k`. -/
def Outlives (s : State n T) (h k : Fin n) : Prop :=
  ∀ o inner, s.slot k = .live (some o) inner → ¬ Doomed s h o

/-- A copy is made of a handle that owns an object, and an assignment destroys neither of its handles. -/
def Sound (s : State n T) : Op n T → Prop
  | .copy _ _ other => s.inner other ≠ .ok none
  | .copyAssign h other => h = other ∨ s.inner other ≠ .ok none ∧ Outlives s h h ∧ Outlives s h other
  | .moveAssign h other => h = other ∨ Outlives s h h ∧ Outlives s h other
  | _ => True

def step (s : State n T) (op : Op n T) : Option (State n T) := (apply s op).toOption

/-! ## §5 — counting owners. -/

/-- The owners of `o` other than `h`. -/
def ownersBut (s : State n T) (h : Fin n) (o : Nat) : Nat :=
  threadCount (Slot.owns o) (Function.update s.slot h .absent)

/-- The count of `o`; 0 where there is no object. -/
def countAt (s : State n T) (o : Nat) : Nat := (s.heap o).elim 0 Inner.refCount

theorem owns_live (o : Nat) (home inner : Option Nat) :
    ((Slot.live home inner).owns o).toNat = if inner = some o then 1 else 0 := by
  rw [Slot.owns, Bool.toNat]
  by_cases h : inner = some o
  · simp [h]
  · rw [if_neg h, beq_eq_false_iff_ne.mpr h]
    rfl

theorem ownersBut_add (s : State n T) (h : Fin n) (o : Nat) :
    ownersBut s h o + ((s.slot h).owns o).toNat = owners s o :=
  threadCount_update (Slot.owns o) s.slot h .absent

theorem owners_construct (s : State n T) (h : Fin n) (home inner : Option Nat) (o : Nat) :
    owners (s.construct h home inner) o = ownersBut s h o + if inner = some o then 1 else 0 := by
  have := ownersBut_add (s.construct h home inner) h o
  rw [State.construct_slot, if_pos rfl, owns_live, ownersBut, State.construct, Function.update_idem] at this
  exact this.symm

theorem ownersBut_kill {s : State n T} {h k : Fin n} (hne : k ≠ h) (o : Nat) :
    ownersBut (s.kill k) h o + ((s.slot k).owns o).toNat = ownersBut s h o := by
  have := threadCount_update (Slot.owns o) (Function.update s.slot h .absent) k .absent
  rw [Function.update_of_ne hne, Function.update_comm hne.symm] at this
  exact this

theorem ownersBut_kill_self (s : State n T) (h : Fin n) (o : Nat) : ownersBut (s.kill h) h o = ownersBut s h o := by
  rw [ownersBut, State.kill, Function.update_idem]
  rfl

/-- `o` has an owner. -/
theorem ownersBut_pos {s : State n T} {h k : Fin n} {o : Nat} (hne : k ≠ h) (hk : (s.slot k).owns o = true) :
    0 < ownersBut s h o := by
  have := ownersBut_kill hne (s := s) o
  rw [hk] at this
  simp only [Bool.toNat_true] at this
  omega

theorem countAt_free (s : State n T) (o o' : Nat) : countAt (s.free o) o' = if o' = o then 0 else countAt s o' := by
  rw [countAt, State.free_heap]
  split <;> rfl

theorem countAt_setCount (s : State n T) (o : Nat) (i : Inner T) (c o' : Nat) :
    countAt (s.setCount o i c) o' = if o' = o then c else countAt s o' := by
  rw [countAt, State.setCount_heap]
  split <;> rfl

theorem heap_of_count_pos {s : State n T} {o : Nat} (h : 0 < countAt s o) : ∃ i, s.heap o = some i := by
  rw [countAt] at h
  cases hi : s.heap o with
  | none =>
    rw [hi] at h
    cases h
  | some i => exact ⟨i, rfl⟩

theorem countAt_of_heap {s : State n T} {o : Nat} {i : Inner T} (h : s.heap o = some i) : countAt s o = i.refCount := by
  rw [countAt, h]
  rfl

/-! ## §6 — what a release destroys. -/

/-- `D` holds of all that is destroyed when `h` lets go, and not of the home of `h`. -/
structure Closed (s₀ : State n T) (h : Fin n) (D : Nat → Prop) : Prop where
  housed : ∀ k o inner, s₀.slot k = .live (some o) inner → s₀.heap o ≠ none
  apart : ∀ o inner, s₀.slot h = .live (some o) inner → ¬ D o
  closed : ∀ o, s₀.heap o ≠ none → (∀ k, (s₀.slot k).owns o = true → k ≠ h →
    ∃ o' inner, s₀.slot k = .live (some o') inner ∧ D o') → D o

/-- While the destructors in `pending` are still to run: the counts, without `h` and with one too many for `extra`,
and what has been destroyed since `s₀`. -/
structure Cascade (s₀ : State n T) (h : Fin n) (D : Nat → Prop) (s : State n T) (pending : List (Fin n))
    (extra : Option Nat) : Prop where
  count : ∀ o, countAt s o = ownersBut s h o + if extra = some o then 1 else 0
  positive : ∀ o i, s.heap o = some i → 0 < i.refCount
  housed : ∀ k o inner, s.slot k = .live (some o) inner → s.heap o = none → k ∈ pending
  nodup : pending.Nodup
  inside : ∀ k ∈ pending, ∃ o inner, s.slot k = .live (some o) inner ∧ s.heap o = none
  slots : ∀ k, s.slot k = s₀.slot k ∨ s.slot k = .absent ∧ ∃ o inner, s₀.slot k = .live (some o) inner ∧ D o
  freed : ∀ o, s.heap o = none → s₀.heap o = none ∨ D o
  old : ∀ o, s.heap o ≠ none → s₀.heap o ≠ none
  next : s.next = s₀.next

section Release

variable {s₀ s : State n T} {h k : Fin n} {D : Nat → Prop} {pending : List (Fin n)} {extra : Option Nat} {o : Nat}

theorem mem_members {s : State n T} {o : Nat} {k : Fin n} :
    k ∈ s.members o ↔ ∃ inner, s.slot k = .live (some o) inner := by
  rw [State.members, List.mem_filter]
  cases s.slot k with
  | absent => simp
  | live home inner => simp

/-- A handle that is destroyed is inside what is destroyed. -/
theorem Cascade.pending_doomed (hJ : Cascade s₀ h D s pending extra) (hc : Closed s₀ h D) (hk : k ∈ pending) :
    (∃ o inner, s₀.slot k = .live (some o) inner ∧ D o) ∧ k ≠ h := by
  obtain ⟨o, inner, hslot, hdead⟩ := hJ.inside k hk
  have hsame : s₀.slot k = .live (some o) inner := by
    rcases hJ.slots k with hs | ⟨hs, -⟩
    · rw [← hs, hslot]
    · rw [hs] at hslot
      cases hslot
  have hD : D o := (hJ.freed o hdead).resolve_left (hc.housed k o inner hsame)
  refine ⟨⟨o, inner, hsame, hD⟩, ?_⟩
  rintro rfl
  exact hc.apart o inner hsame hD

/-- An object that nobody owns any more is one of those. -/
theorem Cascade.doomed (hJ : Cascade s₀ h D s pending extra) (hc : Closed s₀ h D) (halive : s.heap o ≠ none)
    (hnone : ownersBut s h o = 0) : D o := by
  apply hc.closed o (hJ.old o halive)
  intro k hk hne
  rcases hJ.slots k with hs | ⟨-, hD⟩
  · rw [← hs] at hk
    have := ownersBut_pos hne hk
    omega
  · exact hD

/-- The object that is being let go has one owner more than there are handles left to it. -/
theorem Cascade.owner (hJ : Cascade s₀ h D s pending (some o)) :
    (∃ i, s.heap o = some i ∧ i.refCount = ownersBut s h o + 1) ∧ ∀ o', o' ≠ o → countAt s o' = ownersBut s h o' := by
  constructor
  · have hcount := hJ.count o
    rw [if_pos rfl] at hcount
    obtain ⟨i, hi⟩ := heap_of_count_pos (s := s) (o := o) (by omega)
    rw [countAt_of_heap hi] at hcount
    exact ⟨i, hi, hcount⟩
  · intro o' hne
    have := hJ.count o'
    rw [if_neg fun heq => hne (Option.some.inj heq).symm] at this
    exact this

/-- The last owner lets go: the object ends, and the handles inside it are to be destroyed. -/
theorem Cascade.free {i : Inner T} (hJ : Cascade s₀ h D s pending (some o)) (hi : s.heap o = some i)
    (hnone : ownersBut s h o = 0) (hD : D o) : Cascade s₀ h D (s.free o) (s.members o ++ pending) none := by
  constructor
  case count =>
    intro o'
    rw [countAt_free, if_neg (Option.some_ne_none o').symm]
    by_cases heq : o' = o
    · subst heq
      rw [if_pos rfl]
      exact hnone.symm
    · rw [if_neg heq]
      exact hJ.owner.2 o' heq
  case positive =>
    intro o' i' hi'
    rw [State.free_heap] at hi'
    split at hi'
    · cases hi'
    · exact hJ.positive o' i' hi'
  case housed =>
    intro k o' inner hslot hdead
    rw [State.free_heap] at hdead
    split at hdead
    · next heq =>
      subst heq
      exact List.mem_append_left _ (mem_members.mpr ⟨inner, hslot⟩)
    · exact List.mem_append_right _ (hJ.housed k o' inner hslot hdead)
  case nodup =>
    rw [List.nodup_append']
    refine ⟨(List.nodup_finRange n).filter _, hJ.nodup, ?_⟩
    intro k hk hk'
    -- a handle inside `o`, which was alive
    obtain ⟨inner, hslot⟩ := mem_members.mp hk
    obtain ⟨o', inner', hslot', hdead⟩ := hJ.inside k hk'
    rw [hslot, Slot.live.injEq, Option.some.injEq] at hslot'
    rw [← hslot'.1, hi] at hdead
    cases hdead
  case inside =>
    intro k hk
    rcases List.mem_append.mp hk with hk | hk
    · obtain ⟨inner, hslot⟩ := mem_members.mp hk
      exact ⟨o, inner, hslot, by rw [State.free_heap, if_pos rfl]⟩
    · obtain ⟨o', inner, hslot, hdead⟩ := hJ.inside k hk
      refine ⟨o', inner, hslot, ?_⟩
      rw [State.free_heap]
      split
      · rfl
      · exact hdead
  case slots => exact hJ.slots
  case freed =>
    intro o' hdead
    rw [State.free_heap] at hdead
    split at hdead
    · next heq => exact .inr (heq ▸ hD)
    · exact hJ.freed o' hdead
  case old =>
    intro o' halive
    rw [State.free_heap] at halive
    split at halive
    · exact absurd rfl halive
    · exact hJ.old o' halive
  case next => exact hJ.next

/-- Another owner remains. -/
theorem Cascade.decrement {i : Inner T} (hJ : Cascade s₀ h D s pending (some o)) (hi : s.heap o = some i)
    (hcount : i.refCount = ownersBut s h o + 1) (hmore : i.refCount ≠ 1) :
    Cascade s₀ h D (s.setCount o i (i.refCount - 1)) pending none := by
  have hheap : ∀ o', (s.setCount o i (i.refCount - 1)).heap o' = none ↔ s.heap o' = none := by
    intro o'
    rw [State.setCount_heap]
    split
    · next heq => simp [heq, hi]
    · rfl
  constructor
  case count =>
    intro o'
    rw [countAt_setCount, if_neg (Option.some_ne_none o').symm]
    by_cases heq : o' = o
    · subst heq
      rw [if_pos rfl]
      show i.refCount - 1 = ownersBut s h o' + 0
      omega
    · rw [if_neg heq]
      exact hJ.owner.2 o' heq
  case positive =>
    intro o' i' hi'
    rw [State.setCount_heap] at hi'
    split at hi'
    · obtain rfl := Option.some.inj hi'
      have := hJ.positive o i hi
      show 0 < i.refCount - 1
      omega
    · exact hJ.positive o' i' hi'
  case housed =>
    intro k o' inner hslot hdead
    exact hJ.housed k o' inner hslot ((hheap o').mp hdead)
  case nodup => exact hJ.nodup
  case inside =>
    intro k hk
    obtain ⟨o', inner, hslot, hdead⟩ := hJ.inside k hk
    exact ⟨o', inner, hslot, (hheap o').mpr hdead⟩
  case slots => exact hJ.slots
  case freed =>
    intro o' hdead
    exact hJ.freed o' ((hheap o').mp hdead)
  case old =>
    intro o' halive
    exact hJ.old o' fun hdead => halive ((hheap o').mpr hdead)
  case next => exact hJ.next

theorem letGo_spec (hJ : Cascade s₀ h D s pending (some o)) (hc : Closed s₀ h D) :
    ∃ t rest, letGo s o pending = .ok (t, rest) ∧ Cascade s₀ h D t rest none ∧ t.slot = s.slot := by
  obtain ⟨i, hi, hcount⟩ := hJ.owner.1
  rw [letGo, hi]
  by_cases hone : i.refCount = 1
  · have hnone : ownersBut s h o = 0 := by omega
    have hD : D o := hJ.doomed hc (by rw [hi]; exact Option.some_ne_none i) hnone
    exact ⟨s.free o, s.members o ++ pending, if_pos hone, hJ.free hi hnone hD, rfl⟩
  · exact ⟨s.setCount o i (i.refCount - 1), pending, if_neg hone, hJ.decrement hi hcount hone, rfl⟩

/-- The destructor of the first of `pending` starts. -/
theorem Cascade.kill (hJ : Cascade s₀ h D s (k :: pending) none) (hc : Closed s₀ h D) {home inner : Option Nat}
    (hslot : s.slot k = .live home inner) : Cascade s₀ h D (s.kill k) pending inner := by
  obtain ⟨⟨o₀, inner₀, hk₀, hD⟩, hne⟩ := hJ.pending_doomed hc List.mem_cons_self
  have hnodup := List.nodup_cons.mp hJ.nodup
  constructor
  case count =>
    intro o
    have hkill := ownersBut_kill hne (s := s) o
    rw [hslot, owns_live] at hkill
    have := hJ.count o
    rw [if_neg (Option.some_ne_none o).symm] at this
    show countAt s o = _
    omega
  case positive => exact hJ.positive
  case housed =>
    intro k' o inner' hslot' hdead
    rw [State.kill_slot] at hslot'
    split at hslot'
    · cases hslot'
    · next hne' => exact (List.mem_cons.mp (hJ.housed k' o inner' hslot' hdead)).resolve_left hne'
  case nodup => exact hnodup.2
  case inside =>
    intro k' hk'
    obtain ⟨o, inner', hslot', hdead⟩ := hJ.inside k' (List.mem_cons_of_mem k hk')
    refine ⟨o, inner', ?_, hdead⟩
    rw [State.kill_slot, if_neg]
    · exact hslot'
    · rintro rfl
      exact hnodup.1 hk'
  case slots =>
    intro k'
    rw [State.kill_slot]
    split
    · next heq => exact .inr ⟨rfl, o₀, inner₀, heq ▸ hk₀, hD⟩
    · exact hJ.slots k'
  case freed => exact hJ.freed
  case old => exact hJ.old
  case next => exact hJ.next

def Slot.isLive : Slot → Bool
  | .absent => false
  | .live _ _ => true

/-- Every destructor ends the life of a handle. -/
theorem live_kill {s : State n T} {k : Fin n} {home inner : Option Nat} (hslot : s.slot k = .live home inner) :
    threadCount Slot.isLive (s.kill k).slot + 1 = threadCount Slot.isLive s.slot := by
  have := threadCount_update Slot.isLive s.slot k .absent
  rw [hslot] at this
  exact this

/-- **The destructors run to the end.** -/
theorem destroyAll_spec (hc : Closed s₀ h D) {fuel : Nat} (hJ : Cascade s₀ h D s pending none)
    (hfuel : threadCount Slot.isLive s.slot ≤ fuel) :
    ∃ t, destroyAll fuel s pending = .ok t ∧ Cascade s₀ h D t [] none := by
  induction fuel generalizing s pending with
  | zero =>
    cases pending with
    | nil => exact ⟨s, rfl, hJ⟩
    | cons k pending =>
      obtain ⟨o, inner, hslot, -⟩ := hJ.inside k List.mem_cons_self
      have := live_kill hslot
      omega
  | succ fuel ih =>
    cases pending with
    | nil => exact ⟨s, rfl, hJ⟩
    | cons k pending =>
      obtain ⟨home, inner, hslot, -⟩ := hJ.inside k List.mem_cons_self
      have hlive := live_kill hslot
      have hkill := hJ.kill hc hslot
      rw [destroyAll, hslot]
      cases inner with
      | none => exact ih hkill (by omega)
      | some o =>
        obtain ⟨t, rest, hgo, hJ', hsame⟩ := letGo_spec hkill hc
        show ∃ u, (letGo (s.kill k) o pending >>= fun p => destroyAll fuel p.1 p.2) = .ok u ∧ _
        rw [hgo]
        exact ih hJ' (by rw [hsame]; omega)

theorem live_le (s : State n T) : threadCount Slot.isLive s.slot ≤ n := by
  have := Finset.card_filter_le (Finset.univ : Finset (Fin n)) fun h => Slot.isLive (s.slot h) = true
  rw [Finset.card_univ, Fintype.card_fin] at this
  exact this

theorem release_spec (hc : Closed s₀ h D) (hJ : Cascade s₀ h D s₀ [] extra) :
    ∃ t, release s₀ extra = .ok t ∧ Cascade s₀ h D t [] none := by
  cases extra with
  | none => exact ⟨s₀, rfl, hJ⟩
  | some o =>
    obtain ⟨t, rest, hgo, hJ', hsame⟩ := letGo_spec hJ hc
    show ∃ u, (letGo s₀ o [] >>= fun p => destroyAll n p.1 p.2) = .ok u ∧ _
    rw [hgo]
    exact destroyAll_spec hc hJ' (live_le t)

end Release

/-! ## §7 — what one operation keeps. -/

/-- Between the operations. -/
structure Inv (s : State n T) : Prop where
  count : ∀ o, countAt s o = owners s o
  positive : ∀ o i, s.heap o = some i → 0 < i.refCount
  housed : ∀ k o inner, s.slot k = .live (some o) inner → s.heap o ≠ none
  fresh : ∀ o, s.next ≤ o → s.heap o = none

/-- The handle `h` is about to be written; the counts are those without it. -/
structure Ready (s : State n T) (h : Fin n) : Prop where
  count : ∀ o, countAt s o = ownersBut s h o
  positive : ∀ o i, s.heap o = some i → 0 < i.refCount
  housed : ∀ k o inner, s.slot k = .live (some o) inner → s.heap o ≠ none
  fresh : ∀ o, s.next ≤ o → s.heap o = none

section Steps

variable {s t : State n T} {h k other : Fin n} {home inner : Option Nat} {D : Nat → Prop}

theorem Inv.counted (hs : Inv s) : Counted s := by
  constructor
  · intro o i hi
    rw [← hs.count, countAt_of_heap hi]
  · intro o
    rw [← hs.count]
    constructor
    · intro halive
      obtain ⟨i, hi⟩ := Option.ne_none_iff_exists'.mp halive
      rw [countAt_of_heap hi]
      exact hs.positive o i hi
    · intro hpos
      obtain ⟨i, hi⟩ := heap_of_count_pos hpos
      rw [hi]
      exact Option.some_ne_none i

theorem inv_init : Inv (init n T) where
  count _ := (threadCount_const _ _ rfl).symm
  positive _ _ hi := by cases hi
  housed _ _ _ hslot := by cases hslot
  fresh _ _ := rfl

/-- Storage that holds no handle. -/
theorem ownersBut_absent (habs : s.slot h = .absent) (o : Nat) : ownersBut s h o = owners s o := by
  have := ownersBut_add s h o
  rw [habs] at this
  exact this

theorem Inv.ready (hs : Inv s) (habs : s.slot h = .absent) : Ready s h where
  count o := by rw [ownersBut_absent habs, hs.count]
  positive := hs.positive
  housed := hs.housed
  fresh := hs.fresh

theorem Ready.inv (hr : Ready s h) (habs : s.slot h = .absent) : Inv s where
  count o := by rw [← ownersBut_absent habs, hr.count]
  positive := hr.positive
  housed := hr.housed
  fresh := hr.fresh

/-- What `h` owned is let go. -/
theorem Inv.cascade (hs : Inv s) (hslot : s.slot h = .live home inner) : Cascade s h D s [] inner where
  count o := by rw [hs.count, ← ownersBut_add s h, hslot, owns_live]
  positive := hs.positive
  housed k o inner' hk hdead := absurd hdead (hs.housed k o inner' hk)
  nodup := List.nodup_nil
  inside _ hk := by cases hk
  slots _ := .inl rfl
  freed _ hdead := .inl hdead
  old _ halive := halive
  next := rfl

theorem Inv.cascade_kill (hs : Inv s) (hslot : s.slot h = .live home inner) :
    Cascade (s.kill h) h D (s.kill h) [] inner where
  count o := by
    rw [ownersBut_kill_self]
    exact (hs.cascade (D := D) hslot).count o
  positive := hs.positive
  housed k o inner' hk hdead := by
    rw [State.kill_slot] at hk
    split at hk
    · cases hk
    · exact absurd hdead (hs.housed k o inner' hk)
  nodup := List.nodup_nil
  inside _ hk := by cases hk
  slots _ := .inl rfl
  freed _ hdead := .inl hdead
  old _ halive := halive
  next := rfl

theorem Cascade.ready {s₀ : State n T} (hJ : Cascade s₀ h D t [] none) (hfresh : ∀ o, s₀.next ≤ o → s₀.heap o = none) :
    Ready t h where
  count o := by
    rw [hJ.count, if_neg (Option.some_ne_none o).symm]
    rfl
  positive := hJ.positive
  housed k o inner' hk hdead := by cases hJ.housed k o inner' hk hdead
  fresh o hle := by
    rw [hJ.next] at hle
    by_contra halive
    exact hJ.old o halive (hfresh o hle)

theorem inner_of_slot (hslot : s.slot k = .live home inner) : s.inner k = .ok inner := by
  rw [State.inner, hslot]

theorem setInner_of_slot (hslot : s.slot k = .live home inner) (inner' : Option Nat) :
    s.setInner k inner' = .ok (s.construct k home inner') := by
  rw [State.setInner, hslot]

theorem slot_live (hslot : s.slot k ≠ .absent) : ∃ home inner, s.slot k = .live home inner := by
  cases hk : s.slot k with
  | absent => exact absurd hk hslot
  | live home inner => exact ⟨home, inner, rfl⟩

theorem housed_construct (hs : ∀ k o inner, s.slot k = .live (some o) inner → s.heap o ≠ none)
    (hhome : ∀ o, home = some o → s.heap o ≠ none) (k : Fin n) (o : Nat) (inner' : Option Nat)
    (hslot : (s.construct h home inner).slot k = .live (some o) inner') : s.heap o ≠ none := by
  rw [State.construct_slot] at hslot
  split at hslot
  · rw [Slot.live.injEq] at hslot
    exact hhome o hslot.1
  · exact hs k o inner' hslot

/-- `h` is empty. -/
theorem Ready.empty (hr : Ready s h) (hhome : ∀ o, home = some o → s.heap o ≠ none) : Inv (s.construct h home none) where
  count o := by
    rw [owners_construct, if_neg (Option.some_ne_none o).symm]
    exact hr.count o
  positive := hr.positive
  housed := housed_construct hr.housed hhome
  fresh := hr.fresh

/-- `h` shares the object of `other`. -/
theorem Ready.share (hr : Ready s h) {ho : Option Nat} {o : Nat} (hother : s.slot other = .live ho (some o))
    (hne : other ≠ h) (hhome : ∀ o, home = some o → s.heap o ≠ none) :
    ∃ i, s.heap o = some i ∧ Inv ((s.setCount o i (i.refCount + 1)).construct h home (some o)) := by
  have hown : (s.slot other).owns o = true := by
    rw [hother]
    exact beq_self_eq_true (some o)
  obtain ⟨i, hi⟩ := heap_of_count_pos (s := s) (o := o) (by rw [hr.count]; exact ownersBut_pos hne hown)
  have hheap : ∀ o', s.heap o' ≠ none → (s.setCount o i (i.refCount + 1)).heap o' ≠ none := by
    intro o' halive
    rw [State.setCount_heap]
    split
    · exact Option.some_ne_none _
    · exact halive
  refine ⟨i, hi, ?_⟩
  constructor
  case count =>
    intro o'
    rw [owners_construct]
    show countAt (s.setCount o i (i.refCount + 1)) o' = ownersBut s h o' + _
    rw [countAt_setCount, ← hr.count]
    by_cases heq : o' = o
    · subst heq
      rw [if_pos rfl, if_pos rfl, countAt_of_heap hi]
    · rw [if_neg heq, if_neg fun he => heq (Option.some.inj he).symm]
      rfl
  case positive =>
    intro o' i' hi'
    rw [State.construct, State.setCount_heap] at hi'
    split at hi'
    · obtain rfl := Option.some.inj hi'
      exact Nat.succ_pos i.refCount
    · exact hr.positive o' i' hi'
  case housed =>
    apply housed_construct
    · intro k o' inner' hk
      exact hheap o' (hr.housed k o' inner' hk)
    · intro o' ho'
      exact hheap o' (hhome o' ho')
  case fresh =>
    intro o' hle
    have hdead : s.heap o' = none := hr.fresh o' hle
    have hne' : o' ≠ o := by
      rintro rfl
      rw [hi] at hdead
      cases hdead
    rw [State.construct, State.setCount_heap, if_neg hne']
    exact hdead

/-- `h` takes the object of `other`. -/
theorem Ready.take (hr : Ready s h) {ho : Option Nat} (hother : s.slot other = .live ho inner) (hne : other ≠ h)
    (hhome : ∀ o, home = some o → s.heap o ≠ none) : Inv ((s.construct other ho none).construct h home inner) where
  count o := by
    have hmove := threadCount_update (Slot.owns o) (Function.update s.slot h .absent) other (.live ho none)
    rw [Function.update_of_ne hne, hother, owns_live, owns_live, if_neg (Option.some_ne_none o).symm,
      Function.update_comm hne.symm] at hmove
    rw [owners_construct]
    exact (hr.count o).trans hmove.symm
  positive := hr.positive
  housed := by
    apply housed_construct
    · apply housed_construct hr.housed
      rintro o rfl
      exact hr.housed other o inner hother
    · exact hhome
  fresh := hr.fresh

/-- What is destroyed when `h` lets go of its object. -/
theorem Inv.closed (hs : Inv s) (hself : Outlives s h h) : Closed s h (Doomed s h) where
  housed := hs.housed
  apart := hself
  closed o halive hall := by
    choose! holder inner hslot hdoomed using hall
    exact .last o holder halive (fun k hk hne => ⟨inner k, hslot k hk hne⟩) hdoomed

/-- **An assignment that destroys neither of its handles** finds them as they were. -/
theorem Inv.release (hs : Inv s) (hslot : s.slot h = .live home inner) (hself : Outlives s h h)
    (hother : Outlives s h other) :
    ∃ t, release s inner = .ok t ∧ Ready t h ∧ t.slot h = s.slot h ∧ t.slot other = s.slot other := by
  obtain ⟨t, ht, hJ⟩ := release_spec (hs.closed hself) (hs.cascade hslot)
  have hsame : ∀ k, Outlives s h k → t.slot k = s.slot k := by
    intro k hk
    rcases hJ.slots k with hsame | ⟨-, o, inner', hk', hdoomed⟩
    · exact hsame
    · exact absurd hdoomed (hk o inner' hk')
  exact ⟨t, ht, hJ.ready hs.fresh, hsame h hself, hsame other hother⟩

/-! ## §8 — the operations one by one. -/

theorem default_holds (hs : Inv s) (hl : Legal s (.default h home)) :
    ∃ t, apply s (.default h home) = .ok t ∧ Inv t ∧ Gives s (.default h home) t :=
  ⟨_, rfl, (hs.ready hl.1).empty hl.2, by rw [Gives, State.construct_slot, if_pos rfl]⟩

theorem make_holds (hs : Inv s) (value : T) (hl : Legal s (.make h home value)) :
    ∃ t, apply s (.make h home value) = .ok t ∧ Inv t ∧ Gives s (.make h home value) t := by
  have hdead : s.heap s.next = none := hs.fresh s.next (Nat.le_refl _)
  have hkeep : ∀ o, s.heap o ≠ none → (s.alloc value).heap o ≠ none := by
    intro o halive
    rw [State.alloc_heap]
    split
    · exact Option.some_ne_none _
    · exact halive
  refine ⟨_, rfl, ?_, ?_⟩
  · constructor
    case count =>
      intro o
      rw [owners_construct]
      show countAt (s.alloc value) o = ownersBut s h o + _
      rw [← (hs.ready hl.1).count, countAt, State.alloc_heap]
      by_cases heq : o = s.next
      · subst heq
        rw [if_pos rfl, if_pos rfl, countAt, hdead]
        rfl
      · rw [if_neg heq, if_neg fun he => heq (Option.some.inj he).symm]
        rfl
    case positive =>
      intro o i hi
      rw [State.construct, State.alloc_heap] at hi
      split at hi
      · obtain rfl := Option.some.inj hi
        exact Nat.one_pos
      · exact hs.positive o i hi
    case housed =>
      apply housed_construct
      · intro k o inner' hk
        exact hkeep o (hs.housed k o inner' hk)
      · intro o ho
        exact hkeep o (hl.2 o ho)
    case fresh =>
      intro o hle
      have hlt : s.next < o := hle
      rw [State.construct, State.alloc_heap, if_neg (by omega)]
      exact hs.fresh o (by omega)
  · refine ⟨s.next, hdead, ?_, ?_⟩
    · rw [State.construct_slot, if_pos rfl]
    · rw [State.construct, State.alloc_heap, if_pos rfl]

theorem copy_holds (hs : Inv s) (hl : Legal s (.copy h home other)) (hne : s.inner other ≠ .ok none) :
    ∃ t, apply s (.copy h home other) = .ok t ∧ Inv t ∧ Gives s (.copy h home other) t := by
  obtain ⟨habs, hhome, hlive⟩ := hl
  obtain ⟨ho, inner, hother⟩ := slot_live hlive
  have hinner := inner_of_slot hother
  have hdiff : other ≠ h := by
    rintro rfl
    exact hlive habs
  cases inner with
  | none => exact absurd hinner hne
  | some o =>
    obtain ⟨i, hi, hinv⟩ := (hs.ready habs).share hother hdiff hhome
    refine ⟨_, ?_, hinv, some o, hinner, ?_⟩
    · rw [apply, hinner]
      show (retain s (some o) >>= fun t => _) = _
      rw [retain, hi]
      rfl
    · rw [State.construct_slot, if_pos rfl]

theorem move_holds (hs : Inv s) (hl : Legal s (.move h home other)) :
    ∃ t, apply s (.move h home other) = .ok t ∧ Inv t ∧ Gives s (.move h home other) t := by
  obtain ⟨habs, hhome, hlive⟩ := hl
  obtain ⟨ho, inner, hother⟩ := slot_live hlive
  have hdiff : other ≠ h := by
    rintro rfl
    exact hlive habs
  refine ⟨_, ?_, (hs.ready habs).take hother hdiff hhome, inner, inner_of_slot hother, ?_, ?_⟩
  · rw [apply, inner_of_slot hother]
    show (s.setInner other none >>= fun t => _) = _
    rw [setInner_of_slot hother]
    rfl
  · rw [State.construct_slot, if_pos rfl]
  · apply @inner_of_slot _ _ _ _ ho
    rw [State.construct_slot, if_neg hdiff, State.construct_slot, if_pos rfl]

theorem copyAssign_holds (hs : Inv s) (hl : Legal s (.copyAssign h other)) (hsound : Sound s (.copyAssign h other)) :
    ∃ t, apply s (.copyAssign h other) = .ok t ∧ Inv t ∧ Gives s (.copyAssign h other) t := by
  by_cases heq : h = other
  · subst heq
    exact ⟨s, if_pos rfl, hs, rfl⟩
  · obtain ⟨hne, hself, hout⟩ := hsound.resolve_left heq
    obtain ⟨home, old, hslot⟩ := slot_live hl.1
    obtain ⟨ho, inner, hother⟩ := slot_live hl.2
    have hinner := inner_of_slot hother
    cases inner with
    | none => exact absurd hinner hne
    | some o =>
      obtain ⟨t, ht, hr, hsame, hsame'⟩ := hs.release hslot hself hout
      rw [hslot] at hsame
      rw [hother] at hsame'
      have hhome : ∀ o, home = some o → t.heap o ≠ none := by
        rintro o rfl
        exact hr.housed h o old hsame
      obtain ⟨i, hi, hinv⟩ := hr.share hsame' (Ne.symm heq) hhome
      refine ⟨_, ?_, hinv, ?_⟩
      · rw [apply, if_neg heq, inner_of_slot hslot]
        show (release s old >>= fun t => _) = _
        rw [ht]
        show (t.inner other >>= fun inner => _) = _
        rw [inner_of_slot hsame']
        show (t.setInner h (some o) >>= fun u => retain u (some o)) = _
        rw [setInner_of_slot hsame]
        show retain (t.construct h home (some o)) (some o) = _
        have hi' : (t.construct h home (some o)).heap o = some i := hi
        rw [retain, hi']
        rfl
      · show State.inner _ h = s.inner other
        rw [hinner]
        apply @inner_of_slot _ _ _ _ home
        rw [State.construct_slot, if_pos rfl]

theorem moveAssign_holds (hs : Inv s) (hl : Legal s (.moveAssign h other)) (hsound : Sound s (.moveAssign h other)) :
    ∃ t, apply s (.moveAssign h other) = .ok t ∧ Inv t ∧ Gives s (.moveAssign h other) t := by
  by_cases heq : h = other
  · subst heq
    exact ⟨s, if_pos rfl, hs, rfl, fun hne => absurd rfl hne⟩
  · obtain ⟨hself, hout⟩ := hsound.resolve_left heq
    obtain ⟨home, old, hslot⟩ := slot_live hl.1
    obtain ⟨ho, inner, hother⟩ := slot_live hl.2
    obtain ⟨t, ht, hr, hsame, hsame'⟩ := hs.release hslot hself hout
    rw [hslot] at hsame
    rw [hother] at hsame'
    have hhome : ∀ o, home = some o → t.heap o ≠ none := by
      rintro o rfl
      exact hr.housed h o old hsame
    have hinv := hr.take hsame' (Ne.symm heq) hhome
    have hthis : (t.construct other ho none).slot h = .live home old := by
      rw [State.construct_slot, if_neg heq, hsame]
    refine ⟨_, ?_, hinv, ?_, ?_⟩
    · rw [apply, if_neg heq, inner_of_slot hslot]
      show (release s old >>= fun t => _) = _
      rw [ht]
      show (t.inner other >>= fun inner => _) = _
      rw [inner_of_slot hsame']
      show (t.setInner other none >>= fun u => u.setInner h inner) = _
      rw [setInner_of_slot hsame']
      exact setInner_of_slot hthis inner
    · rw [inner_of_slot hother]
      apply @inner_of_slot _ _ _ _ home
      rw [State.construct_slot, if_pos rfl]
    · intro _
      apply @inner_of_slot _ _ _ _ ho
      rw [State.construct_slot, if_neg (Ne.symm heq), State.construct_slot, if_pos rfl]

theorem destroy_holds (hs : Inv s) (hl : Legal s (.destroy h)) :
    ∃ t, apply s (.destroy h : Op n T) = .ok t ∧ Inv t ∧ Gives s (.destroy h) t := by
  obtain ⟨home, inner, hslot⟩ := slot_live hl
  have habs : (s.kill h).slot h = .absent := by
    rw [State.kill_slot, if_pos rfl]
  have hJ := hs.cascade_kill (D := fun _ => True) hslot
  have hc : Closed (s.kill h) h (fun _ => True) := by
    constructor
    · intro k o inner' hk hdead
      cases hJ.housed k o inner' hk hdead
    · intro o inner' hh
      rw [habs] at hh
      cases hh
    · intros
      trivial
  obtain ⟨t, ht, hJ'⟩ := release_spec hc hJ
  have hgone : t.slot h = .absent := by
    rcases hJ'.slots h with hsame | ⟨hgone, -⟩
    · rw [hsame, habs]
    · exact hgone
  refine ⟨t, ?_, (hJ'.ready hs.fresh).inv hgone, hgone⟩
  rw [apply, inner_of_slot hslot]
  exact ht

end Steps

/-- **What one operation keeps.** -/
theorem apply_spec {s : State n T} (hs : Inv s) (op : Op n T) (hl : Legal s op) (hsound : Sound s op) :
    ∃ t, apply s op = .ok t ∧ Inv t ∧ Gives s op t := by
  cases op with
  | default h home => exact default_holds hs hl
  | make h home value => exact make_holds hs value hl
  | copy h home other => exact copy_holds hs hl hsound
  | move h home other => exact move_holds hs hl
  | copyAssign h other => exact copyAssign_holds hs hl hsound
  | moveAssign h other => exact moveAssign_holds hs hl hsound
  | destroy h => exact destroy_holds hs hl

theorem inv_of_run {s : State n T} (h : Run step (fun s op => Legal s op ∧ Sound s op) (init n T) s) : Inv s := by
  apply h.invariant
  · intro s op t hs hop hstep
    obtain ⟨u, hu, hinv, -⟩ := apply_spec hs op hop.1 hop.2
    rw [step, hu] at hstep
    exact Option.some.inj hstep ▸ hinv
  · exact inv_init

/-- **In every run without a copy of an empty handle and without an assignment that destroys one of its handles**, the
counts are those of the owners, and every such operation does what it should. -/
theorem counted_of_run {s : State n T} (h : Run step (fun s op => Legal s op ∧ Sound s op) (init n T) s) :
    Counted s ∧ ∀ op, Legal s op → Sound s op → Holds s op := by
  have hs := inv_of_run h
  refine ⟨hs.counted, ?_⟩
  intro op hl hsound
  obtain ⟨t, ht, hinv, hgives⟩ := apply_spec hs op hl hsound
  exact ⟨t, ht, hinv.counted, hgives⟩

/-! ## §9 — three short runs. -/

/-- `Rc<int> rc1(42);` -/
def one : State 2 Int := ((init 2 Int).alloc 42).construct ⟨0, Nat.zero_lt_two⟩ none (some 0)

/-- `Rc<int> rc1;` -/
def empty : State 2 Int := (init 2 Int).construct ⟨0, Nat.zero_lt_two⟩ none none

/-- A list of two nodes: the handle in the first owns the second. -/
def list : State 2 Int :=
  (((init 2 Int).alloc 1).construct ⟨0, Nat.zero_lt_two⟩ none (some 0)).alloc 2
    |>.construct ⟨1, Nat.one_lt_two⟩ (some 0) (some 1)

/-- Storage on its own. -/
theorem outside (s : State n T) : ∀ o, none = some o → s.heap o ≠ none := by
  intro o h
  cases h

/-- `Rc<int> rc2 = rc1;` -/
theorem one_counted : Counted one ∧ Holds one (.copy 1 none 0) := by
  have hrun : Run step (fun s op => Legal s op ∧ Sound s op) (init 2 Int) one :=
    (Run.refl _).tail (.make 0 none 42) ⟨⟨rfl, outside _⟩, trivial⟩ rfl
  have hlegal : Legal one (.copy 1 none 0) := ⟨rfl, outside _, by decide⟩
  have hsound : Sound one (.copy 1 none 0) := fun h => by cases h
  exact ⟨(counted_of_run hrun).1, (counted_of_run hrun).2 _ hlegal hsound⟩

/-- **A copy of an empty handle writes through a null pointer**, and `head = std::move(head->next)` reads a handle that
it has destroyed. -/
theorem copy_of_empty_faults :
    (Run step Legal (init 2 Int) empty ∧ Legal empty (.copy 1 none 0) ∧ apply empty (.copy 1 none 0) = .error .null ∧
        ¬ Holds empty (.copy 1 none 0)) ∧
      Run step Legal (init 2 Int) list ∧ Legal list (.moveAssign 0 1) ∧ apply list (.moveAssign 0 1) = .error .gone ∧
        ¬ Holds list (.moveAssign 0 1) := by
  have hempty : apply empty (.copy 1 none 0) = .error .null := rfl
  have hlist : apply list (.moveAssign 0 1) = .error .gone := rfl
  have hone : Run step Legal (init 2 Int) _ :=
    (Run.refl _).tail (.make 0 none 1) ⟨rfl, outside _⟩ rfl
  refine ⟨⟨?_, ⟨rfl, outside _, by decide⟩, hempty, ?_⟩, ?_, ⟨by decide, by decide⟩,
    hlist, ?_⟩
  · exact (Run.refl _).tail (.default 0 none) ⟨rfl, outside _⟩ rfl
  · rintro ⟨t, ht, -⟩
    rw [hempty] at ht
    cases ht
  · exact hone.tail (.make 1 (some 0) 2) ⟨rfl, fun o h => by cases h; exact Option.some_ne_none _⟩ rfl
  · rintro ⟨t, ht, -⟩
    rw [hlist] at ht
    cases ht

end NetCpp.Wheel.Rc
