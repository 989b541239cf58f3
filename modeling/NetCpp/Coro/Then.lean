/-
# NetCpp.Coro.Then — the transforms behind `task.then(t1)…then(tn)`.

`include/xsl/coro/core/then.h`.  A `ThenAwaiter` keeps its transforms in a tuple, the one attached LAST in front, and
`await_resume` applies them by a recursion on the index: `_apply` when the base returns a value, `_apply_void` when it
returns none.  A result type is `void` or the type of a value; a transform may read and write what the transforms
share, and may throw.

`Chain.run` is what the chain is for: the transforms in the order they were attached, each on the result of the one
before.  `_apply_void` asks for the TYPE of the inner application and, when that is `void`, calls the transform
without evaluating it: `run_iff` says which chains that spares.
-/
import Mathlib

namespace NetCpp.Coro.ThenAwaiter

/-! ## §1 — transforms and their tuple. -/

section Types

variable {ι : Type} (El : ι → Type) (σ ε : Type)

inductive ResultType (ι : Type)
  | void
  | value (i : ι)

/-- What a result is; that of `void` is nothing. -/
abbrev ResultType.Carrier : ResultType ι → Type
  | .void => Unit
  | .value i => El i

/-- A callable object: on the result of type `s`, or without an argument. -/
abbrev Transform (s t : ResultType ι) := s.Carrier El → EStateM ε σ (t.Carrier El)

/-- One call of a transform: which one in the order they were attached, and what it was given. -/
structure Call where
  position : Nat
  type : ResultType ι
  arg : type.Carrier El

/-- A part of `await_resume`, with the calls it makes. -/
abbrev Run (α : Type) := EStateM ε (σ × List (Call El)) α

/-- `std::tuple<T0, T1, ..>` on a base: `T0` takes what `T1` returns. -/
inductive Transforms (base : ResultType ι) : ResultType ι → Type
  | nil : Transforms base base
  | cons {s t : ResultType ι} (f : Transform El σ ε s t) (rest : Transforms base s) : Transforms base t

/-- `t1, …, tn` in the order they are attached. -/
inductive Chain : ResultType ι → ResultType ι → Type
  | nil (s : ResultType ι) : Chain s s
  | cons {s t u : ResultType ι} (f : Transform El σ ε s t) (rest : Chain t u) : Chain s u

end Types

variable {ι : Type} {El : ι → Type} {σ ε : Type} {base s t u : ResultType ι}

namespace Transforms

/-- `std::tuple_size`. -/
def size {t : ResultType ι} : Transforms El σ ε base t → Nat
  | .nil => 0
  | .cons _ rest => rest.size + 1

/-- What the transforms take. -/
def inputs {t : ResultType ι} : Transforms El σ ε base t → List (ResultType ι)
  | .nil => []
  | .cons (s := s) _ rest => s :: rest.inputs

/-- `then(next)`: in front of the tuple. -/
def attach (ts : Transforms El σ ε base s) (next : Transform El σ ε s t) : Transforms El σ ε base t := .cons next ts

end Transforms

/-- `awaiter.then(t1)…then(tn)`. -/
def attachAll {s t : ResultType ι} : Transforms El σ ε base s → Chain El σ ε s t → Transforms El σ ε base t
  | ts, .nil _ => ts
  | ts, .cons f rest => attachAll (ts.attach f) rest

/-! ## §2 — `await_resume`. -/

/-- The call of the transform number `position`. -/
def call (position : Nat) (f : Transform El σ ε s t) (x : s.Carrier El) : Run El σ ε (t.Carrier El) :=
  fun w => match f x w.1 with
    | .ok y shared => .ok y (shared, w.2 ++ [⟨position, s, x⟩])
    | .error e shared => .error e (shared, w.2 ++ [⟨position, s, x⟩])

/-- `_apply`: none where it does not compile, since a `void` expression is no argument. -/
def apply {t : ResultType ι} : Transforms El σ ε base t → Option (base.Carrier El → Run El σ ε (t.Carrier El))
  | .nil => some pure
  | .cons (s := .void) _ _ => none
  | .cons (s := .value _) f rest => (apply rest).map fun inner x => inner x >>= call (rest.size + 1) f

/-- `_apply_void`. -/
def applyVoid {t : ResultType ι} : Transforms El σ ε .void t → Run El σ ε (t.Carrier El)
  | .nil => pure ()
  | .cons f .nil => call 1 f ()
  | .cons (s := .void) f (.cons _ rest) => call (rest.size + 2) f ()
  | .cons (s := .value _) f (.cons g rest) => applyVoid (.cons g rest) >>= call (rest.size + 2) f

/-- `await_resume`, behind the one of the base, which has returned `x`. -/
def awaitResume : {base : ResultType ι} → Transforms El σ ε base t →
    Option (base.Carrier El → Run El σ ε (t.Carrier El))
  | .void, ts => some fun _ => applyVoid ts
  | .value _, ts => apply ts

/-! ## §3 — what the chain is for. -/

/-- The transforms one after another, the first of them number `position`. -/
def Chain.run {s t : ResultType ι} (position : Nat) : Chain El σ ε s t → s.Carrier El → Run El σ ε (t.Carrier El)
  | .nil _, x => pure x
  | .cons f rest, x => call position f x >>= rest.run (position + 1)

def Chain.inputs {s t : ResultType ι} : Chain El σ ε s t → List (ResultType ι)
  | .nil _ => []
  | .cons (s := s) _ rest => s :: rest.inputs

/-- Every transform but the last returns a value: every one but the first takes one. -/
def Chain.Fed (c : Chain El σ ε s t) : Prop := ∀ r ∈ c.inputs.tail, r ≠ .void

/-- The calls behind a result. -/
def calls {α : Type} : EStateM.Result ε (σ × List (Call El)) α → List (Call El)
  | .ok _ w => w.2
  | .error _ w => w.2

/-! ## §4 — runs only add calls. -/

section Logs

variable {α β : Type}

/-- `m` keeps the calls that were made before it. -/
def Extends (m : Run El σ ε α) : Prop := ∀ w, ∃ more, calls (m w) = w.2 ++ more

/-- `m` calls a transform, and the number of the first one is in `P`. -/
def StartsIn (P : Nat → Prop) (m : Run El σ ε α) : Prop :=
  ∀ w, ∃ k more, calls (m w) = w.2 ++ k :: more ∧ P k.position

theorem extends_pure (x : α) : Extends (pure x : Run El σ ε α) := fun w => ⟨[], (List.append_nil w.2).symm⟩

theorem calls_call (position : Nat) (f : Transform El σ ε s t) (x : s.Carrier El) (w : σ × List (Call El)) :
    calls (call position f x w) = w.2 ++ [⟨position, s, x⟩] := by
  rw [call]
  cases f x w.1 <;> rfl

theorem extends_call (position : Nat) (f : Transform El σ ε s t) (x : s.Carrier El) : Extends (call position f x) :=
  fun w => ⟨_, calls_call position f x w⟩

theorem startsIn_call {P : Nat → Prop} {position : Nat} (hP : P position) (f : Transform El σ ε s t)
    (x : s.Carrier El) : StartsIn P (call position f x) :=
  fun w => ⟨⟨position, s, x⟩, [], calls_call position f x w, hP⟩

/-- What comes behind `m` runs where `m` has returned, or not at all. -/
theorem calls_bind {m : Run El σ ε α} {k : α → Run El σ ε β} (hk : ∀ a, Extends (k a)) (w : σ × List (Call El)) :
    ∃ more, calls ((m >>= k) w) = calls (m w) ++ more := by
  show ∃ more, calls (EStateM.bind m k w) = _
  rw [EStateM.bind]
  cases m w with
  | ok a w' => exact hk a w'
  | error e w' => exact ⟨[], (List.append_nil _).symm⟩

theorem Extends.bind {m : Run El σ ε α} {k : α → Run El σ ε β} (hm : Extends m) (hk : ∀ a, Extends (k a)) :
    Extends (m >>= k) := by
  intro w
  obtain ⟨first, hfirst⟩ := hm w
  obtain ⟨more, hmore⟩ := @calls_bind _ _ _ _ _ _ m k hk w
  refine ⟨first ++ more, ?_⟩
  rw [hmore, hfirst, List.append_assoc]

theorem StartsIn.bind {P : Nat → Prop} {m : Run El σ ε α} {k : α → Run El σ ε β} (hm : StartsIn P m)
    (hk : ∀ a, Extends (k a)) : StartsIn P (m >>= k) := by
  intro w
  obtain ⟨c, first, hfirst, hP⟩ := hm w
  obtain ⟨more, hmore⟩ := @calls_bind _ _ _ _ _ _ m k hk w
  refine ⟨c, first ++ more, ?_, hP⟩
  rw [hmore, hfirst, List.append_assoc, List.cons_append]

/-- Runs whose first calls differ, differ. -/
theorem StartsIn.ne {P Q : Nat → Prop} {m n : Run El σ ε α} (hm : StartsIn P m) (hn : StartsIn Q n)
    (hPQ : ∀ i, P i → ¬ Q i) (w : σ × List (Call El)) : m w ≠ n w := by
  intro h
  obtain ⟨c, more, hc, hP⟩ := hm w
  obtain ⟨d, more', hd, hQ⟩ := hn w
  rw [h, hd] at hc
  obtain ⟨rfl, -⟩ := List.cons.inj (List.append_cancel_left hc)
  exact hPQ _ hP hQ

end Logs

theorem Chain.extends_run (c : Chain El σ ε s t) (position : Nat) (x : s.Carrier El) : Extends (c.run position x) := by
  induction c generalizing position with
  | nil s => exact extends_pure x
  | cons f rest ih =>
    apply Extends.bind (extends_call position f x)
    intro y
    exact ih (position + 1) y

theorem Chain.startsIn_run {c : Chain El σ ε s t} (hne : c.inputs ≠ []) (x : s.Carrier El) :
    StartsIn (· = 1) (c.run 1 x) := by
  cases c with
  | nil => exact absurd rfl hne
  | cons f rest =>
    have hfirst : StartsIn (· = 1) (call 1 f x) := @startsIn_call _ _ _ _ _ _ (· = 1) 1 rfl f x
    apply hfirst.bind
    intro y
    exact rest.extends_run 2 y

/-! ## §5 — the tuple, read from behind. -/

namespace Transforms

/-- The transforms from the last of the tuple to the first. -/
def run {t : ResultType ι} : Transforms El σ ε base t → base.Carrier El → Run El σ ε (t.Carrier El)
  | .nil, x => pure x
  | .cons f rest, x => rest.run x >>= call (rest.size + 1) f

end Transforms

/-- **Attaching in front and running from behind is running in the order of the chain.** -/
theorem run_attachAll (c : Chain El σ ε s t) (ts : Transforms El σ ε base s) (x : base.Carrier El) :
    (attachAll ts c).run x = ts.run x >>= c.run (ts.size + 1) := by
  induction c with
  | nil s => exact (bind_pure (ts.run x)).symm
  | cons f rest ih =>
    rw [attachAll, ih (ts.attach f)]
    exact bind_assoc (ts.run x) (call (ts.size + 1) f) (rest.run (ts.size + 2))

theorem inputs_attachAll (c : Chain El σ ε s t) (ts : Transforms El σ ε base s) :
    (attachAll ts c).inputs = c.inputs.reverse ++ ts.inputs := by
  induction c with
  | nil s => rfl
  | cons f rest ih =>
    rw [attachAll, ih (ts.attach f), Chain.inputs, List.reverse_cons, List.append_assoc]
    rfl

theorem fed_attachAll (c : Chain El σ ε s t) :
    (∀ r ∈ (attachAll (.nil : Transforms El σ ε s s) c).inputs.dropLast, r ≠ .void) ↔ c.Fed := by
  rw [inputs_attachAll, Transforms.inputs, List.append_nil, List.dropLast_reverse, Chain.Fed]
  simp only [List.mem_reverse]

/-- A tuple that `_apply` compiles for takes values, and they are passed on. -/
theorem apply_some {ts : Transforms El σ ε base t} {f : base.Carrier El → Run El σ ε (t.Carrier El)}
    (h : apply ts = some f) : (∀ r ∈ ts.inputs, r ≠ .void) ∧ f = ts.run := by
  induction ts with
  | nil =>
    obtain rfl := Option.some.inj h
    exact ⟨fun r hr => absurd hr (List.not_mem_nil), rfl⟩
  | @cons s t g rest ih =>
    cases s with
    | void => cases h
    | value i =>
      rw [apply, Option.map_eq_some_iff] at h
      obtain ⟨inner, hinner, rfl⟩ := h
      obtain ⟨hvalues, rfl⟩ := ih hinner
      refine ⟨?_, rfl⟩
      intro r hr
      rcases List.mem_cons.mp hr with rfl | hr
      · exact fun h => (by cases h)
      · exact hvalues r hr

/-- Where every inner application returns a value, `_apply_void` evaluates it. -/
theorem applyVoid_run {ts : Transforms El σ ε .void t} (h : ∀ r ∈ ts.inputs.dropLast, r ≠ .void) :
    applyVoid ts = ts.run () := by
  induction ts with
  | nil => rfl
  | @cons s t f rest ih =>
    cases rest with
    | nil => exact (pure_bind () (call 1 f)).symm
    | cons g rest =>
      have hs : s ≠ .void := h s List.mem_cons_self
      have hrest := ih fun r hr => h r (List.mem_cons_of_mem _ hr)
      cases s with
      | void => exact absurd rfl hs
      | value i =>
        rw [applyVoid, hrest]
        rfl

/-- **Where one of them returns `void`, the transforms in front of it are never called.** -/
theorem applyVoid_skips {ts : Transforms El σ ε .void t} (h : ¬ ∀ r ∈ ts.inputs.dropLast, r ≠ .void) :
    StartsIn (1 < ·) (applyVoid ts) := by
  induction ts with
  | nil => exact absurd (fun r hr => absurd hr List.not_mem_nil) h
  | @cons s t f rest ih =>
    cases rest with
    | nil => exact absurd (fun r hr => absurd hr List.not_mem_nil) h
    | cons g rest =>
      cases s with
      | void => exact startsIn_call (show 1 < rest.size + 2 by omega) f ()
      | value i =>
        have hrest : ¬ ∀ r ∈ (Transforms.cons g rest).inputs.dropLast, r ≠ .void := by
          intro hall
          apply h
          intro r hr
          rcases List.mem_cons.mp hr with rfl | hr
          · exact fun h => (by cases h)
          · exact hall r hr
        apply StartsIn.bind (ih hrest)
        intro y
        exact extends_call (rest.size + 2) f y

/-- **`await_resume` runs the chain if and only if every transform but the last returns a value.** -/
theorem awaitResume_runs_iff (c : Chain El σ ε base t) (hne : c.inputs ≠ [])
    {prog : base.Carrier El → Run El σ ε (t.Carrier El)} (hprog : awaitResume (attachAll .nil c) = some prog)
    (x : base.Carrier El) (w : σ × List (Call El)) : prog x w = c.run 1 x w ↔ c.Fed := by
  have hrun : (attachAll .nil c).run x = c.run 1 x := by
    rw [run_attachAll]
    exact pure_bind x (c.run 1)
  cases base with
  | value i =>
    -- on the result of a value base only values are passed on
    obtain ⟨hvalues, rfl⟩ := apply_some hprog
    have hfed : c.Fed := (fed_attachAll c).mp fun r hr => hvalues r (List.mem_of_mem_dropLast hr)
    exact iff_of_true (congrFun hrun w) hfed
  | void =>
    obtain rfl := Option.some.inj hprog
    constructor
    · intro heq
      by_contra hfed
      have hskips := applyVoid_skips fun h => hfed ((fed_attachAll c).mp h)
      exact hskips.ne (Chain.startsIn_run hne ()) (fun i hi => (by omega : i ≠ 1)) w heq
    · intro hfed
      show applyVoid (attachAll .nil c) w = _
      rw [applyVoid_run ((fed_attachAll c).mpr hfed)]
      exact congrFun hrun w

/-! ## §6 — two chains. -/

/-- Results are `int`s; nothing is shared or thrown. -/
abbrev Ints (s t : ResultType Unit) : Type := Chain (fun _ => Int) Unit Empty s t

/-- `then([](int x) { return x * 2; }).then([](int x) { return x + 3; })`. -/
def doubleAddThree : Ints (.value ()) (.value ()) :=
  .cons (t := .value ()) (fun (x : Int) => pure (x * 2)) (.cons (fun (x : Int) => pure (x + 3)) (.nil _))

/-- `then([] {}).then([] { return 2; })`. -/
def nothingThenTwo : Ints .void (.value ()) :=
  .cons (t := .void) (fun _ => pure ()) (.cons (fun _ => pure (2 : Int)) (.nil _))

theorem doubleAddThree_runs : ∃ prog, awaitResume (attachAll .nil doubleAddThree) = some prog ∧
    (prog (1 : Int) ((), []) = doubleAddThree.run 1 (1 : Int) ((), []) ↔ doubleAddThree.Fed) :=
  ⟨_, rfl, awaitResume_runs_iff doubleAddThree (List.cons_ne_nil _ _) rfl (1 : Int) ((), [])⟩

/-- **The empty transform is not called**: the only call is that of the one behind it. -/
theorem nothingThenTwo_skips : ∃ prog, awaitResume (attachAll .nil nothingThenTwo) = some prog ∧
    (calls (prog () ((), []))).map Call.position = [2] ∧
    (calls (nothingThenTwo.run 1 () ((), []))).map Call.position = [1, 2] ∧
    prog () ((), []) ≠ nothingThenTwo.run 1 () ((), []) := by
  have hprog : (calls (applyVoid (attachAll .nil nothingThenTwo) ((), []))).map Call.position = [2] := rfl
  have hchain : (calls (nothingThenTwo.run 1 () ((), []))).map Call.position = [1, 2] := rfl
  refine ⟨fun _ => applyVoid (attachAll .nil nothingThenTwo), rfl, hprog, hchain, ?_⟩
  intro h
  have hcalls := congrArg (fun r => (calls r).map Call.position) h
  exact absurd (hprog.symm.trans (hcalls.trans hchain)) (by decide)

end NetCpp.Coro.ThenAwaiter
