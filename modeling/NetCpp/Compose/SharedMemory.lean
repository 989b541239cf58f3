/-
# NetCpp.Compose.SharedMemory — counted handles, shared between threads.

`shared_memory` of `include/xsl/compose.h`: a handle is a pointer `_raw` to an object and a pointer `_ref_count` to an
atomic count, two allocations of one default construction.  Every `fetch_add`, every `fetch_sub` and every `delete` is
one step of the interleaving; what a thread does to its own handles in between is part of a step.

* A handle belongs to one thread, which alone changes it; the sources of copies may be the handles of other threads,
  as long as nobody changes them meanwhile (`Apart`).  No handle lives inside a managed object.
* A handle on a base type has the same two pointers: conversion copies or moves them (`copyFrom`, `moveFrom`, and
  `into_dyn`, which copies when it is called on a const handle).
* A step that would touch an object or a count that is not there sets `bad`, and so does one that reads or changes the
  count of an object that has been deleted.

The machine refines `NetCpp.Lib.Ledger`: a handle holds a share from the `fetch_add` (or the move) that gives it one to
the `fetch_sub` that takes it.  `safe_of_run` is about any number of threads, any number of handles below 2^32 and any
interleaving.
-/
import NetCpp.Lib.Ledger

namespace NetCpp.SharedMemory

open NetCpp.Lib

/-! ## §1 — handles and program counters. -/

/-- `_raw` and `_ref_count`, or no handle. -/
inductive Slot
  | absent
  | live (raw refCount : Option Nat)

/-- The object whose count the handle points to. -/
def Slot.refCount : Slot → Option Nat
  | .absent => none
  | .live _ refCount => refCount

/-- What comes behind `_dec()`. -/
inductive Next (H : Type)
  /-- the end of `~shared_memory` -/
  | drop
  | load (other : H)
  | take (other : H)

/-- Where a thread is. -/
inductive Pc (H : Type)
  | idle
  /-- `_raw = other._raw`, `_ref_count = other._ref_count` -/
  | load (h other : H)
  /-- `_inc()`; `other` is still a source of this operation -/
  | inc (h other : H)
  /-- `std::exchange(other._raw, nullptr)` and the same for `_ref_count` -/
  | take (h other : H)
  /-- `_dec()` -/
  | dec (h : H) (k : Next H)
  /-- `delete _raw; _raw = nullptr` -/
  | delRaw (h : H) (k : Next H)
  /-- `delete _ref_count; _ref_count = nullptr` -/
  | delRef (h : H) (k : Next H)

inductive Op (H : Type)
  | default (h : H)
  | copy (h other : H)
  | copyFrom (h other : H)
  | move (h other : H)
  | moveFrom (h other : H)
  | intoDyn (h self : H) (const : Bool)
  | copyAssign (h other : H)
  | moveAssign (h other : H)
  | destroy (h : H)

inductive Act (Th H : Type)
  | call (t : Th) (op : Op H)
  | step (t : Th)
  /-- `*h`, `h->..` -/
  | get (t : Th) (h : H)
  | useCount (t : Th) (h : H)

/-- Whose the handles are, and what they point to. -/
structure Program (Th H : Type) where
  thread : H → Th
  Ty : Type
  type : H → Ty
  /-- `std::derived_from` -/
  derived : Ty → Ty → Prop

structure State (Th H : Type) where
  handle : H → Slot
  /-- `*_raw` is there -/
  object : Nat → Bool
  /-- `*_ref_count` -/
  count : Nat → Option Nat
  /-- where the next object and its count will be -/
  next : Nat
  pc : Th → Pc H
  /-- history: which thread deleted which object -/
  deleted : List (Th × Nat)
  /-- something was touched after it was deleted -/
  bad : Bool

variable {Th H : Type}

def init : State Th H := ⟨fun _ => .absent, fun _ => false, fun _ => none, 0, fun _ => .idle, [], false⟩

namespace Pc

/-- Inside an operation on `h`, at a point where `h` holds no share: it has let go, or has not been counted yet. -/
def limbo [DecidableEq H] : Pc H → H → Bool
  | .load h _, x | .inc h _, x | .take h _, x | .delRaw h _, x | .delRef h _, x => x = h
  | .idle, _ | .dec _ _, _ => false

/-- The handle that the operation still copies from. -/
def reads : Pc H → Option H
  | .load _ g | .inc _ g | .dec _ (.load g) | .delRaw _ (.load g) | .delRef _ (.load g) => some g
  | _ => none

/-- The handles that it still changes. -/
def writes : Pc H → List H
  | .idle => []
  | .load h _ | .inc h _ => [h]
  | .take h g => [h, g]
  | .dec h (.take g) | .delRaw h (.take g) | .delRef h (.take g) => [h, g]
  | .dec h _ | .delRaw h _ | .delRef h _ => [h]

end Pc

/-- Where an operation starts. -/
def Op.begin [DecidableEq H] : Op H → Pc H
  | .default _ => .idle
  | .copy h g | .copyFrom h g | .intoDyn h g true => .load h g
  | .move h g | .moveFrom h g | .intoDyn h g false => .take h g
  | .copyAssign h g => if h = g then .idle else .dec h (.load g)
  | .moveAssign h g => if h = g then .idle else .dec h (.take g)
  | .destroy h => .dec h .drop

/-! ## §2 — the steps. -/

section Step

variable [DecidableEq Th] [DecidableEq H]

namespace State

def fault (s : State Th H) : State Th H := { s with bad := true }

/-- The count of `o` is read or changed. -/
def touch (s : State Th H) (o : Nat) : State Th H := { s with bad := s.bad || !s.object o }

def goto (s : State Th H) (t : Th) (p : Pc H) : State Th H := { s with pc := Function.update s.pc t p }

def set (s : State Th H) (h : H) (c : Slot) : State Th H := { s with handle := Function.update s.handle h c }

/-- `shared_memory()`: `new T{}` and `new std::atomic<unsigned>{1}`. -/
def alloc (s : State Th H) (h : H) : State Th H :=
  { s with
    handle := Function.update s.handle h (.live (some s.next) (some s.next))
    object := Function.update s.object s.next true
    count := Function.update s.count s.next (some 1)
    next := s.next + 1 }

/-- An operation starts; a default construction is one step. -/
def call (s : State Th H) (t : Th) : Op H → State Th H
  | .default h => s.alloc h
  | op => s.goto t op.begin

def load (s : State Th H) (t : Th) (h g : H) : State Th H :=
  match s.handle g with
  | .absent => s.fault
  | .live raw ref => (s.set h (.live raw ref)).goto t (.inc h g)

/-- `if (_ref_count) _ref_count->fetch_add(1)`. -/
def inc (s : State Th H) (t : Th) (h : H) : State Th H :=
  match s.handle h with
  | .absent => s.fault
  | .live _ none => s.goto t .idle
  | .live _ (some o) => match s.count o with
    | none => s.fault
    | some c => { s.touch o with count := Function.update s.count o (some ((c + 1) % 2 ^ 32)) }.goto t .idle

def take (s : State Th H) (t : Th) (h g : H) : State Th H :=
  match s.handle g with
  | .absent => s.fault
  | .live raw ref => ((s.set g (.live none none)).set h (.live raw ref)).goto t .idle

/-- `_dec()` has returned. -/
def resume (s : State Th H) (t : Th) (h : H) : Next H → State Th H
  | .drop => (s.set h .absent).goto t .idle
  | .load g => s.goto t (.load h g)
  | .take g => s.goto t (.take h g)

/-- `if (!_ref_count) return; if (_ref_count->fetch_sub(1) != 1) return;`. -/
def dec (s : State Th H) (t : Th) (h : H) (k : Next H) : State Th H :=
  match s.handle h with
  | .absent => s.fault
  | .live _ none => s.resume t h k
  | .live _ (some o) => match s.count o with
    | none => s.fault
    | some c =>
      let s := { s.touch o with count := Function.update s.count o (some ((c + (2 ^ 32 - 1)) % 2 ^ 32)) }
      if c = 1 then s.goto t (.delRaw h k) else s.resume t h k

/-- Deleting a null pointer does nothing. -/
def delRaw (s : State Th H) (t : Th) (h : H) (k : Next H) : State Th H :=
  match s.handle h with
  | .absent => s.fault
  | .live none _ => s.goto t (.delRef h k)
  | .live (some o) ref =>
    if s.object o then
      ({ s with object := Function.update s.object o false, deleted := s.deleted ++ [(t, o)] }.set h (.live none ref)).goto
        t (.delRef h k)
    else s.fault

def delRef (s : State Th H) (t : Th) (h : H) (k : Next H) : State Th H :=
  match s.handle h with
  | .absent => s.fault
  | .live _ none => s.resume t h k
  | .live raw (some o) => match s.count o with
    | none => s.fault
    | some _ => ({ s with count := Function.update s.count o none }.set h (.live raw none)).resume t h k

/-- The object of `h` is read or changed. -/
def get (s : State Th H) (h : H) : State Th H :=
  match s.handle h with
  | .live (some o) _ => if s.object o then s else s.fault
  | _ => s.fault

/-- `use_count()`. -/
def useCount (s : State Th H) (h : H) : State Th H :=
  match s.handle h with
  | .absent => s.fault
  | .live _ none => s
  | .live _ (some o) => if s.count o = none then s.fault else s.touch o

omit [DecidableEq Th] [DecidableEq H] in
theorem touch_of_alive {s : State Th H} {o : Nat} (halive : s.object o = true) : s.touch o = s := by
  rw [touch, halive, Bool.not_true, Bool.or_false]

end State

def step (s : State Th H) : Act Th H → Option (State Th H)
  | .call t op => match s.pc t with
    | .idle => some (s.call t op)
    | _ => none
  | .step t => match s.pc t with
    | .idle => none
    | .load h g => some (s.load t h g)
    | .inc h _ => some (s.inc t h)
    | .take h g => some (s.take t h g)
    | .dec h k => some (s.dec t h k)
    | .delRaw h k => some (s.delRaw t h k)
    | .delRef h k => some (s.delRef t h k)
  | .get t h => match s.pc t with
    | .idle => some (s.get h)
    | _ => none
  | .useCount t h => match s.pc t with
    | .idle => some (s.useCount h)
    | _ => none

end Step

/-! ## §3 — the programs. -/

section Programs

variable [DecidableEq H] (C : Program Th H) (s : State Th H)

/-- What the language and its types ask for. -/
def Typed : Op H → Prop
  | .default h => s.handle h = .absent
  | .copy h g | .move h g => s.handle h = .absent ∧ s.handle g ≠ .absent ∧ C.type g = C.type h
  | .copyFrom h g | .moveFrom h g | .intoDyn h g _ =>
    s.handle h = .absent ∧ s.handle g ≠ .absent ∧ C.derived (C.type g) (C.type h)
  | .copyAssign h g | .moveAssign h g => s.handle h ≠ .absent ∧ s.handle g ≠ .absent ∧ C.type g = C.type h
  | .destroy h => s.handle h ≠ .absent

/-- The handles that an operation changes. -/
def Op.changes : Op H → List H
  | .default h | .copy h _ | .copyFrom h _ | .intoDyn h _ true | .copyAssign h _ | .destroy h => [h]
  | .move h g | .moveFrom h g | .intoDyn h g false | .moveAssign h g => [h, g]

/-- Each thread changes its own handles, and none that another one is copying from; nobody is changing the handle it
copies from. -/
def Apart (t : Th) (op : Op H) : Prop :=
  (∀ x ∈ op.changes, C.thread x = t ∧ ∀ t', (s.pc t').reads ≠ some x) ∧
    ∀ g, op.begin.reads = some g → ∀ t', g ∉ (s.pc t').writes

def Legal : Act Th H → Prop
  | .call t op => Typed C s op ∧ Apart C s t op
  | .step _ => True
  | .get _ h => (∃ o ref, s.handle h = .live (some o) ref) ∧ ∀ t', h ∉ (s.pc t').writes
  | .useCount _ h => s.handle h ≠ .absent ∧ ∀ t', h ∉ (s.pc t').writes

/-! ## §4 — what is promised. -/

/-- The number of handles that own `o`. -/
def owners [Fintype H] (o : Nat) : Nat := Ledger.holders (fun h => (s.handle h).refCount) o

/-- **The object is deleted exactly once and never early.** -/
structure Safe [Fintype H] : Prop where
  /-- nothing is touched after it was deleted -/
  good : s.bad = false
  /-- no object is deleted twice, by one thread or by two -/
  once : (s.deleted.map Prod.snd).Nodup
  /-- what is deleted has no owner any more: a handle that still points to it has let go -/
  last : ∀ t o, (t, o) ∈ s.deleted → ∀ h raw, s.handle h = .live raw (some o) → (s.pc (C.thread h)).limbo h = true
  /-- while nothing is in progress, an object is there with the count of its owners, or it has none and is deleted -/
  quiet : (∀ t, s.pc t = .idle) → ∀ o < s.next,
    (s.count o = some (owners s o) ∧ 0 < owners s o ∧ s.object o = true) ∨
      (s.count o = none ∧ owners s o = 0 ∧ s.object o = false ∧ o ∈ s.deleted.map Prod.snd)
  /-- and a handle owns the object it points to -/
  paired : (∀ t, s.pc t = .idle) → ∀ h raw ref, s.handle h = .live raw ref → raw = ref

end Programs

end NetCpp.SharedMemory
