/-
# NetCpp.Wheel.FixedVector — is a `FixedVector` a value?

`include/xsl/wheel/vec.h`: a `FixedVector` is a `std::unique_ptr<T[]>` and a size, two members that the special member
functions handle apart.  Buffers are on a heap, so that sharing one would show; `junk` is what `new T[size]` leaves in
a buffer.

The reference is a list for every vector (`Op.lists`).  Two operations do not follow it.  `operator=(const&)` copies
`*this` and never looks at its argument; the defaulted moves take the buffer but leave the size behind.
`agrees_of_run` says when they do: a copy assignment of equal contents, and a move out of an empty vector.
-/
import NetCpp.Lib.Transition

namespace NetCpp.Wheel.FixedVector

open NetCpp.Lib

/-! ## §1 — vectors and buffers. -/

/-- `_data` and `_size`. -/
structure Vec where
  data : Option Nat
  size : Nat

structure State (H T : Type) where
  /-- the vectors that are alive -/
  slot : H → Option Vec
  /-- the buffers -/
  heap : Nat → Option (List T)
  next : Nat

inductive Fault
  /-- a read or write through a null buffer -/
  | null
  /-- a buffer that was deleted -/
  | dangling
  /-- outside the buffer -/
  | beyond
  /-- a vector that is not alive -/
  | gone

variable {H T : Type}

def init : State H T := ⟨fun _ => none, fun _ => none, 0⟩

/-- `new T[size]`. -/
def fresh (junk : Nat → T) (size : Nat) : List T := (List.range size).map junk

/-- `std::copy`, and the loop over the initializer list: from place `i` on. -/
def copyTo : List T → Nat → List T → List T
  | [], _, buf => buf
  | x :: xs, i, buf => copyTo xs (i + 1) (buf.set i x)

/-- `for (auto i = 0uz; i < size; ++i) _data[i] = value;`, `n` turns before the end. -/
def fill (value : T) : Nat → Nat → List T → List T
  | 0, _, buf => buf
  | n + 1, i, buf => fill value n (i + 1) (buf.set i value)

section Defs

variable [DecidableEq H]

namespace State

def vec (s : State H T) (h : H) : Except Fault Vec :=
  match s.slot h with
  | none => .error .gone
  | some v => .ok v

/-- The buffer behind a pointer. -/
def buffer (s : State H T) : Option Nat → Except Fault (List T)
  | none => .error .null
  | some a => match s.heap a with
    | none => .error .dangling
    | some buf => .ok buf

/-- The elements from `begin()` to `end()`. -/
def elements (s : State H T) (v : Vec) : Except Fault (List T) :=
  if v.size = 0 then .ok []
  else do
    let buf ← s.buffer v.data
    if v.size ≤ buf.length then .ok (buf.take v.size) else .error .beyond

/-- `at(i)`, read. -/
def elementAt (s : State H T) (h : H) (i : Nat) : Except Fault T := do
  let v ← s.vec h
  let buf ← s.buffer v.data
  match buf[i]? with
  | none => .error .beyond
  | some x => .ok x

def put (s : State H T) (h : H) (v : Vec) : State H T := { s with slot := Function.update s.slot h (some v) }

/-- A vector on a new buffer. -/
def construct (s : State H T) (h : H) (buf : List T) (size : Nat) : State H T :=
  { slot := Function.update s.slot h (some ⟨some s.next, size⟩)
    heap := Function.update s.heap s.next (some buf)
    next := s.next + 1 }

/-- `delete[]`. -/
def delete (s : State H T) : Option Nat → Except Fault (State H T)
  | none => .ok s
  | some a => match s.heap a with
    | none => .error .dangling
    | some _ => .ok { s with heap := Function.update s.heap a none }

end State

/-! ## §2 — the operations. -/

inductive Op (H T : Type)
  | default (h : H)
  | sized (h : H) (size : Nat) (junk : Nat → T)
  | filled (h : H) (size : Nat) (value : T) (junk : Nat → T)
  | ofList (h : H) (il : List T) (junk : Nat → T)
  | ofVector (h : H) (vec : List T) (junk : Nat → T)
  | copy (h other : H) (junk : Nat → T)
  | move (h other : H)
  | copyAssign (h other : H) (junk : Nat → T)
  | moveAssign (h other : H)
  | write (h : H) (i : Nat) (value : T)
  | destroy (h : H)

def apply (s : State H T) : Op H T → Except Fault (State H T)
  | .default h => .ok (s.put h ⟨none, 0⟩)
  | .sized h size junk => .ok (s.construct h (fresh junk size) size)
  | .filled h size value junk => .ok (s.construct h (fill value size 0 (fresh junk size)) size)
  | .ofList h il junk => .ok (s.construct h (copyTo il 0 (fresh junk il.length)) il.length)
  | .ofVector h vec junk => .ok (s.construct h (copyTo vec 0 (fresh junk vec.length)) vec.length)
  | .copy h other junk => do
    let v ← s.vec other
    let xs ← s.elements v
    .ok (s.construct h (copyTo xs 0 (fresh junk v.size)) v.size)
  | .move h other => do
    let v ← s.vec other
    .ok ((s.put other { v with data := none }).put h v)
  -- `FixedVector tmp(*this); *this = std::move(tmp);`: the argument has no name in the source
  | .copyAssign h _ junk => do
    let this ← s.vec h
    let xs ← s.elements this
    (s.construct h (copyTo xs 0 (fresh junk this.size)) this.size).delete this.data
  | .moveAssign h other => do
    -- `_data = std::move(other._data)` releases first and deletes the old buffer last
    let v ← s.vec other
    let s := s.put other { v with data := none }
    let this ← s.vec h
    (s.put h v).delete this.data
  | .write h i value => do
    let v ← s.vec h
    match v.data with
    | none => .error .null
    | some a => match s.heap a with
      | none => .error .dangling
      | some buf =>
        if i < buf.length then .ok { s with heap := Function.update s.heap a (some (buf.set i value)) }
        else .error .beyond
  | .destroy h => do
    let v ← s.vec h
    { s with slot := Function.update s.slot h none }.delete v.data

/-- What the language asks for, and `assert(i < self._size)`. -/
def Legal (s : State H T) : Op H T → Prop
  | .default h | .sized h _ _ | .filled h _ _ _ | .ofList h _ _ | .ofVector h _ _ => s.slot h = none
  | .copy h other _ | .move h other => s.slot h = none ∧ s.slot other ≠ none
  | .copyAssign h other _ | .moveAssign h other => s.slot h ≠ none ∧ s.slot other ≠ none
  | .write h i _ => ∃ v, s.slot h = some v ∧ i < v.size
  | .destroy h => s.slot h ≠ none

/-! ## §3 — the same on lists. -/

/-- **The operations on a list for every vector.** -/
def Op.lists (r : H → Option (List T)) : Op H T → H → Option (List T)
  | .default h => Function.update r h (some [])
  | .sized h size junk => Function.update r h (some ((List.range size).map junk))
  | .filled h size value _ => Function.update r h (some (List.replicate size value))
  | .ofList h il _ => Function.update r h (some il)
  | .ofVector h vec _ => Function.update r h (some vec)
  | .copy h other _ => Function.update r h (r other)
  | .move h other => Function.update (Function.update r other (some [])) h (r other)
  | .copyAssign h other _ => Function.update r h (r other)
  | .moveAssign h other => if h = other then r else Function.update (Function.update r other (some [])) h (r other)
  | .write h i value => Function.update r h ((r h).map (·.set i value))
  | .destroy h => Function.update r h none

/-- **The vectors look like the lists**: the same ones are alive, with the same size and the same elements. -/
def Agrees (s : State H T) (r : H → Option (List T)) : Prop :=
  ∀ h, (r h = none → s.slot h = none) ∧
    ∀ xs, r h = some xs → ∃ v, s.slot h = some v ∧ v.size = xs.length ∧ ∀ i x, xs[i]? = some x → s.elementAt h i = .ok x

/-- The operation does what it does on lists. -/
def Holds (s : State H T) (r : H → Option (List T)) (op : Op H T) : Prop :=
  ∃ t, apply s op = .ok t ∧ Agrees t (op.lists r)

/-- A copy assignment finds what it should leave, and a move finds nothing to take. -/
def Sound (s : State H T) : Op H T → Prop
  | .copyAssign h other _ => (s.vec h >>= s.elements) = (s.vec other >>= s.elements)
  | .move _ other => ∀ v, s.slot other = some v → v.size = 0
  | .moveAssign h other => h = other ∨ ∀ v, s.slot other = some v → v.size = 0
  | _ => True

/-- Both sides at once. -/
def step (p : State H T × (H → Option (List T))) (op : Op H T) : Option (State H T × (H → Option (List T))) :=
  (apply p.1 op).toOption.map fun t => (t, op.lists p.2)

end Defs

/-! ## §4 — the loops. -/

theorem copyTo_append (pre xs rest : List T) (h : xs.length ≤ rest.length) :
    copyTo xs pre.length (pre ++ rest) = pre ++ xs ++ rest.drop xs.length := by
  induction xs generalizing pre rest with
  | nil =>
    rw [List.append_nil]
    rfl
  | cons x xs ih =>
    cases rest with
    | nil => cases h
    | cons y rest =>
      have hset : (pre ++ y :: rest).set pre.length x = (pre ++ [x]) ++ rest := by
        rw [List.set_append_right _ _ (Nat.le_refl _), Nat.sub_self, List.set_cons_zero, List.append_assoc]
        rfl
      have hlen : pre.length + 1 = (pre ++ [x]).length := by rw [List.length_append, List.length_singleton]
      rw [copyTo, hset, hlen, ih (pre ++ [x]) rest (Nat.le_of_succ_le_succ h)]
      simp only [List.append_assoc, List.cons_append, List.nil_append, List.length_cons, List.drop_succ_cons]

theorem length_fresh (junk : Nat → T) (size : Nat) : (fresh junk size).length = size := by
  rw [fresh, List.length_map, List.length_range]

/-- A new buffer is filled. -/
theorem copyTo_fresh (xs : List T) (junk : Nat → T) : copyTo xs 0 (fresh junk xs.length) = xs := by
  have := copyTo_append [] xs (fresh junk xs.length) (Nat.le_of_eq (length_fresh junk _).symm)
  rw [List.nil_append, List.length_nil, List.nil_append] at this
  rw [this, List.drop_of_length_le (Nat.le_of_eq (length_fresh junk _)), List.append_nil]

theorem fill_eq (value : T) (n i : Nat) (buf : List T) : fill value n i buf = copyTo (List.replicate n value) i buf := by
  induction n generalizing i buf with
  | zero => rfl
  | succ n ih =>
    rw [fill, ih, List.replicate_succ]
    rfl

theorem fill_fresh (value : T) (size : Nat) (junk : Nat → T) :
    fill value size 0 (fresh junk size) = List.replicate size value := by
  have := copyTo_fresh (List.replicate size value) junk
  rw [List.length_replicate] at this
  rw [fill_eq, this]

/-! ## §5 — every vector has a buffer of its own. -/

/-- What a pointer holds. -/
def BufOk (heap : Nat → Option (List T)) : Option Nat → List T → Prop
  | none, xs => xs = []
  | some a, xs => heap a = some xs

structure Inv (s : State H T) (r : H → Option (List T)) : Prop where
  dead : ∀ h, r h = none → s.slot h = none
  alive : ∀ h xs, r h = some xs → ∃ data, s.slot h = some ⟨data, xs.length⟩ ∧ BufOk s.heap data xs
  unique : ∀ h h' v v' a, s.slot h = some v → s.slot h' = some v' → v.data = some a → v'.data = some a → h = h'
  fresh : ∀ h v a, s.slot h = some v → v.data = some a → a < s.next

section Keeps

variable {s t : State H T} {r : H → Option (List T)} {h other : H} {v : Vec} {xs : List T}

theorem inv_init : Inv (init : State H T) (fun _ => none) where
  dead _ _ := rfl
  alive _ _ hr := by cases hr
  unique _ _ _ _ _ hv := by cases hv
  fresh _ _ _ hv := by cases hv

/-- A vector that is alive, and its list. -/
theorem Inv.of_slot (hs : Inv s r) (hv : s.slot h = some v) :
    ∃ xs, r h = some xs ∧ v.size = xs.length ∧ BufOk s.heap v.data xs := by
  cases hr : r h with
  | none =>
    rw [hs.dead h hr] at hv
    cases hv
  | some xs =>
    obtain ⟨data, hslot, hbuf⟩ := hs.alive h xs hr
    obtain rfl := Option.some.inj (hv.symm.trans hslot)
    exact ⟨xs, rfl, rfl, hbuf⟩

theorem Inv.elements (hs : Inv s r) (hv : s.slot h = some v) (hr : r h = some xs) : s.elements v = .ok xs := by
  obtain ⟨xs', hr', hsize, hbuf⟩ := hs.of_slot hv
  obtain rfl := Option.some.inj (hr.symm.trans hr')
  rw [State.elements, hsize]
  by_cases hzero : xs.length = 0
  · rw [if_pos hzero, List.eq_nil_of_length_eq_zero hzero]
  · rw [if_neg hzero]
    cases hd : v.data with
    | none =>
      rw [hd] at hbuf
      exact absurd (congrArg List.length hbuf) hzero
    | some a =>
      rw [hd] at hbuf
      have hheap : s.heap a = some xs := hbuf
      rw [State.buffer, hheap]
      show (if xs.length ≤ xs.length then _ else _) = _
      rw [if_pos (Nat.le_refl _), List.take_length]

/-- **The vectors look like the lists.** -/
theorem Inv.agrees (hs : Inv s r) : Agrees s r := by
  intro h
  refine ⟨hs.dead h, ?_⟩
  intro xs hr
  obtain ⟨data, hslot, hbuf⟩ := hs.alive h xs hr
  refine ⟨_, hslot, rfl, ?_⟩
  intro i x hx
  rw [State.elementAt, State.vec, hslot]
  cases data with
  | none =>
    rw [show xs = [] from hbuf] at hx
    cases hx
  | some a =>
    have hheap : s.heap a = some xs := hbuf
    simp only [bind, Except.bind, State.buffer, hheap, hx]

/-- A buffer that no vector uses is deleted. -/
theorem Inv.delete (hs : Inv s r) (data : Option Nat) (hfree : ∀ a, data = some a → (∃ buf, s.heap a = some buf) ∧
    ∀ h v, s.slot h = some v → v.data ≠ some a) : ∃ t, s.delete data = .ok t ∧ Inv t r := by
  cases data with
  | none => exact ⟨s, rfl, hs⟩
  | some a =>
    obtain ⟨⟨buf, hbuf⟩, hno⟩ := hfree a rfl
    refine ⟨_, by rw [State.delete, hbuf], ?_⟩
    constructor
    case dead => exact hs.dead
    case alive =>
      intro h ys hr
      obtain ⟨data, hslot, hok⟩ := hs.alive h ys hr
      refine ⟨data, hslot, ?_⟩
      cases data with
      | none => exact hok
      | some b =>
        have hne : b ≠ a := fun heq => hno h _ hslot (congrArg some heq)
        exact (Function.update_of_ne hne ..).trans hok
    case unique => exact hs.unique
    case fresh => exact hs.fresh

theorem delete_slot {data : Option Nat} (ht : s.delete data = .ok t) : t.slot = s.slot := by
  cases data with
  | none =>
    obtain rfl := Except.ok.inj ht
    rfl
  | some a =>
    rw [State.delete] at ht
    cases hbuf : s.heap a with
    | none =>
      rw [hbuf] at ht
      cases ht
    | some buf =>
      rw [hbuf] at ht
      obtain rfl := Except.ok.inj ht
      rfl

theorem vec_of_slot (hv : s.slot h = some v) : s.vec h = .ok v := by
  rw [State.vec, hv]

/-- What a vector holds. -/
theorem Inv.contents (hs : Inv s r) (hv : s.slot h = some v) (hr : r h = some xs) :
    (s.vec h >>= s.elements) = .ok xs := by
  rw [vec_of_slot hv]
  exact hs.elements hv hr

/-- A vector looks like one list only. -/
theorem Agrees.unique {r' : H → Option (List T)} {ys : List T} (ha : Agrees s r) (ha' : Agrees s r') (hr : r h = some xs)
    (hr' : r' h = some ys) : xs = ys := by
  obtain ⟨v, hv, hsize, hget⟩ := (ha h).2 xs hr
  obtain ⟨v', hv', hsize', hget'⟩ := (ha' h).2 ys hr'
  obtain rfl := Option.some.inj (hv.symm.trans hv')
  apply List.ext_getElem
  · exact hsize.symm.trans hsize'
  · intro i hi hi'
    have hx := hget i _ (List.getElem?_eq_getElem hi)
    have hy := hget' i _ (List.getElem?_eq_getElem hi')
    exact Except.ok.inj (hx.symm.trans hy)

variable [DecidableEq H]

/-- A vector on a new buffer. -/
theorem Inv.construct (hs : Inv s r) (h : H) (xs : List T) :
    Inv (s.construct h xs xs.length) (Function.update r h (some xs)) := by
  have hnew : ∀ h' v a, s.slot h' = some v → v.data = some a → a ≠ s.next := by
    rintro h' v a hv ha rfl
    exact Nat.lt_irrefl _ (hs.fresh h' v _ hv ha)
  have hat : Function.update s.slot h (some ⟨some s.next, xs.length⟩) h = some ⟨some s.next, xs.length⟩ :=
    Function.update_self ..
  have hoff : ∀ h', h' ≠ h → Function.update s.slot h (some ⟨some s.next, xs.length⟩) h' = s.slot h' :=
    fun h' hne => Function.update_of_ne hne ..
  -- what a vector of the new state holds
  have hdata : ∀ h' v, (s.construct h xs xs.length).slot h' = some v → (h' = h ∧ v.data = some s.next) ∨
      (h' ≠ h ∧ s.slot h' = some v) := by
    intro h' v hv
    have hv' : Function.update s.slot h (some ⟨some s.next, xs.length⟩) h' = some v := hv
    by_cases heq : h' = h
    · subst heq
      rw [hat] at hv'
      obtain rfl := Option.some.inj hv'
      exact .inl ⟨rfl, rfl⟩
    · rw [hoff h' heq] at hv'
      exact .inr ⟨heq, hv'⟩
  constructor
  case dead =>
    intro h' hr
    by_cases heq : h' = h
    · subst heq
      rw [Function.update_self] at hr
      cases hr
    · rw [Function.update_of_ne heq] at hr
      exact (hoff h' heq).trans (hs.dead h' hr)
  case alive =>
    intro h' ys hr
    by_cases heq : h' = h
    · subst heq
      rw [Function.update_self] at hr
      obtain rfl := Option.some.inj hr
      exact ⟨some s.next, hat, Function.update_self ..⟩
    · rw [Function.update_of_ne heq] at hr
      obtain ⟨data, hslot, hbuf⟩ := hs.alive h' ys hr
      refine ⟨data, (hoff h' heq).trans hslot, ?_⟩
      cases data with
      | none => exact hbuf
      | some a => exact (Function.update_of_ne (hnew h' _ a hslot rfl) ..).trans hbuf
  case unique =>
    intro h₁ h₂ v₁ v₂ a hv₁ hv₂ ha₁ ha₂
    rcases hdata h₁ v₁ hv₁ with ⟨rfl, hd₁⟩ | ⟨-, hs₁⟩
    · rcases hdata h₂ v₂ hv₂ with ⟨rfl, -⟩ | ⟨-, hs₂⟩
      · rfl
      · rw [hd₁, Option.some.injEq] at ha₁
        exact absurd ha₁.symm (hnew h₂ v₂ a hs₂ ha₂)
    · rcases hdata h₂ v₂ hv₂ with ⟨rfl, hd₂⟩ | ⟨-, hs₂⟩
      · rw [hd₂, Option.some.injEq] at ha₂
        exact absurd ha₂.symm (hnew h₁ v₁ a hs₁ ha₁)
      · exact hs.unique h₁ h₂ v₁ v₂ a hs₁ hs₂ ha₁ ha₂
  case fresh =>
    intro h' v' a hv ha
    show a < s.next + 1
    rcases hdata h' v' hv with ⟨-, hd⟩ | ⟨-, hs'⟩
    · rw [hd, Option.some.injEq] at ha
      omega
    · have := hs.fresh h' v' a hs' ha
      omega

/-- The buffer of `other` goes to `h`; nothing is left behind only where there was nothing. -/
theorem Inv.moved (hs : Inv s r) (hne : h ≠ other) (hv : s.slot other = some v) (hzero : v.size = 0) :
    Inv ((s.put other { v with data := none }).put h v) (Function.update (Function.update r other (some [])) h (r other)) := by
  obtain ⟨xs, hr, hsize, hbuf⟩ := hs.of_slot hv
  have hh : ((s.put other { v with data := none }).put h v).slot h = some v := Function.update_self ..
  have hother : ((s.put other { v with data := none }).put h v).slot other = some ⟨none, v.size⟩ := by
    show Function.update (Function.update s.slot other _) h _ other = _
    rw [Function.update_of_ne hne.symm, Function.update_self]
  have hoff : ∀ x, x ≠ h → x ≠ other → ((s.put other { v with data := none }).put h v).slot x = s.slot x := by
    intro x hxh hxo
    show Function.update (Function.update s.slot other _) h _ x = _
    rw [Function.update_of_ne hxh, Function.update_of_ne hxo]
  -- a buffer of the new state, and the vector that had it
  have horigin : ∀ x w a, ((s.put other { v with data := none }).put h v).slot x = some w → w.data = some a →
      (x = h ∧ v.data = some a) ∨ (x ≠ h ∧ x ≠ other ∧ s.slot x = some w) := by
    intro x w a hw ha
    by_cases hxh : x = h
    · subst hxh
      rw [hh, Option.some.injEq] at hw
      subst hw
      exact .inl ⟨rfl, ha⟩
    · by_cases hxo : x = other
      · subst hxo
        rw [hother, Option.some.injEq] at hw
        subst hw
        cases ha
      · exact .inr ⟨hxh, hxo, (hoff x hxh hxo).symm.trans hw⟩
  constructor
  case dead =>
    intro x hrx
    by_cases hxh : x = h
    · subst hxh
      rw [Function.update_self, hr] at hrx
      cases hrx
    · by_cases hxo : x = other
      · subst hxo
        rw [Function.update_of_ne hxh, Function.update_self] at hrx
        cases hrx
      · rw [Function.update_of_ne hxh, Function.update_of_ne hxo] at hrx
        rw [hoff x hxh hxo]
        exact hs.dead x hrx
  case alive =>
    intro x ys hrx
    by_cases hxh : x = h
    · subst hxh
      rw [Function.update_self, hr, Option.some.injEq] at hrx
      subst hrx
      refine ⟨v.data, ?_, hbuf⟩
      rw [hh, ← hsize]
    · by_cases hxo : x = other
      · subst hxo
        rw [Function.update_of_ne hxh, Function.update_self, Option.some.injEq] at hrx
        subst hrx
        refine ⟨none, ?_, rfl⟩
        rw [hother, hzero]
        rfl
      · rw [Function.update_of_ne hxh, Function.update_of_ne hxo] at hrx
        obtain ⟨data, hslot, hok⟩ := hs.alive x ys hrx
        exact ⟨data, (hoff x hxh hxo).trans hslot, hok⟩
  case unique =>
    intro x y w w' a hw hw' ha ha'
    rcases horigin x w a hw ha with ⟨rfl, hva⟩ | ⟨-, hxo, hsx⟩
    · -- the buffer of `h` was that of `other`, which nobody else had
      rcases horigin y w' a hw' ha' with ⟨rfl, -⟩ | ⟨-, hyo, hsy⟩
      · rfl
      · exact absurd (hs.unique y other w' v a hsy hv ha' hva) hyo
    · rcases horigin y w' a hw' ha' with ⟨rfl, hva⟩ | ⟨-, -, hsy⟩
      · exact absurd (hs.unique x other w v a hsx hv ha hva) hxo
      · exact hs.unique x y w w' a hsx hsy ha ha'
  case fresh =>
    intro x w a hw ha
    rcases horigin x w a hw ha with ⟨-, hva⟩ | ⟨-, -, hsx⟩
    · exact hs.fresh other v a hv hva
    · exact hs.fresh x w a hsx ha

/-- The life of `h` ends. -/
theorem Inv.removed (hs : Inv s r) (h : H) :
    Inv { s with slot := Function.update s.slot h none } (Function.update r h none) := by
  have hold : ∀ x w, Function.update s.slot h none x = some w → x ≠ h ∧ s.slot x = some w := by
    intro x w hw
    by_cases hxh : x = h
    · subst hxh
      rw [Function.update_self] at hw
      cases hw
    · rw [Function.update_of_ne hxh] at hw
      exact ⟨hxh, hw⟩
  constructor
  case dead =>
    intro x hr
    show Function.update s.slot h none x = none
    by_cases hxh : x = h
    · subst hxh
      exact Function.update_self ..
    · rw [Function.update_of_ne hxh] at hr
      rw [Function.update_of_ne hxh]
      exact hs.dead x hr
  case alive =>
    intro x ys hr
    by_cases hxh : x = h
    · subst hxh
      rw [Function.update_self] at hr
      cases hr
    · rw [Function.update_of_ne hxh] at hr
      obtain ⟨data, hslot, hok⟩ := hs.alive x ys hr
      exact ⟨data, (Function.update_of_ne hxh ..).trans hslot, hok⟩
  case unique => exact fun x y w w' a hw hw' => hs.unique x y w w' a (hold x w hw).2 (hold y w' hw').2
  case fresh => exact fun x w a hw => hs.fresh x w a (hold x w hw).2

/-- **An element is written**, in the buffer of one vector. -/
theorem Inv.written (hs : Inv s r) {a i : Nat} {value : T} (hv : s.slot h = some v) (hd : v.data = some a)
    (hr : r h = some xs) :
    Inv { s with heap := Function.update s.heap a (some (xs.set i value)) }
      (Function.update r h ((r h).map (·.set i value))) := by
  constructor
  case dead =>
    intro x hrx
    by_cases hxh : x = h
    · subst hxh
      rw [Function.update_self, hr] at hrx
      cases hrx
    · rw [Function.update_of_ne hxh] at hrx
      exact hs.dead x hrx
  case alive =>
    intro x ys hrx
    by_cases hxh : x = h
    · subst hxh
      rw [Function.update_self, hr, Option.map_some, Option.some.injEq] at hrx
      subst hrx
      obtain ⟨xs', hr', hsize, -⟩ := hs.of_slot hv
      obtain rfl := Option.some.inj (hr.symm.trans hr')
      refine ⟨some a, ?_, Function.update_self ..⟩
      rw [List.length_set, ← hsize, ← hd]
      exact hv
    · rw [Function.update_of_ne hxh] at hrx
      obtain ⟨data, hslot, hok⟩ := hs.alive x ys hrx
      refine ⟨data, hslot, ?_⟩
      cases data with
      | none => exact hok
      | some b =>
        have hne : b ≠ a := by
          rintro rfl
          exact hxh (hs.unique x h _ v b hslot hv rfl hd)
        exact (Function.update_of_ne hne ..).trans hok
  case unique => exact hs.unique
  case fresh => exact hs.fresh

end Keeps

/-! ## §6 — the operations one by one. -/

section Ops

variable [DecidableEq H] {s t : State H T} {r : H → Option (List T)} {h other : H} {v w : Vec} {xs ys : List T} {junk : Nat → T}

/-- The operation succeeds, and is what it is on lists. -/
def Follows (s : State H T) (r : H → Option (List T)) (op : Op H T) : Prop := ∃ t, apply s op = .ok t ∧ Inv t (op.lists r)

theorem default_follows (hs : Inv s r) (hl : Legal s (.default h : Op H T)) : Follows s r (.default h) := by
  have habs : s.slot h = none := hl
  refine ⟨_, rfl, ?_⟩
  have hold : ∀ x u a, (s.put h ⟨none, 0⟩).slot x = some u → u.data = some a → s.slot x = some u := by
    intro x u a hu ha
    have hu' : Function.update s.slot h (some ⟨none, 0⟩) x = some u := hu
    by_cases hxh : x = h
    · subst hxh
      rw [Function.update_self, Option.some.injEq] at hu'
      subst hu'
      cases ha
    · rwa [Function.update_of_ne hxh] at hu'
  constructor
  case dead =>
    intro x hr
    show Function.update s.slot h _ x = none
    by_cases hxh : x = h
    · subst hxh
      rw [Op.lists, Function.update_self] at hr
      cases hr
    · rw [Op.lists, Function.update_of_ne hxh] at hr
      rw [Function.update_of_ne hxh]
      exact hs.dead x hr
  case alive =>
    intro x zs hr
    by_cases hxh : x = h
    · subst hxh
      rw [Op.lists, Function.update_self, Option.some.injEq] at hr
      subst hr
      exact ⟨none, Function.update_self .., rfl⟩
    · rw [Op.lists, Function.update_of_ne hxh] at hr
      obtain ⟨data, hslot, hok⟩ := hs.alive x zs hr
      exact ⟨data, (Function.update_of_ne hxh ..).trans hslot, hok⟩
  case unique => exact fun x y u u' a hu hu' ha ha' => hs.unique x y u u' a (hold x u a hu ha) (hold y u' a hu' ha') ha ha'
  case fresh => exact fun x u a hu ha => hs.fresh x u a (hold x u a hu ha) ha

theorem sized_follows (hs : Inv s r) (size : Nat) : Follows s r (.sized h size junk) := by
  have hinv := hs.construct h (fresh junk size)
  rw [length_fresh] at hinv
  exact ⟨_, rfl, hinv⟩

theorem filled_follows (hs : Inv s r) (size : Nat) (value : T) : Follows s r (.filled h size value junk) := by
  have hinv := hs.construct h (List.replicate size value)
  rw [List.length_replicate] at hinv
  refine ⟨_, rfl, ?_⟩
  rw [fill_fresh]
  exact hinv

theorem ofList_follows (hs : Inv s r) (il : List T) : Follows s r (.ofList h il junk) := by
  refine ⟨_, rfl, ?_⟩
  rw [copyTo_fresh]
  exact hs.construct h il

theorem ofVector_follows (hs : Inv s r) (vec : List T) : Follows s r (.ofVector h vec junk) := by
  refine ⟨_, rfl, ?_⟩
  rw [copyTo_fresh]
  exact hs.construct h vec

theorem copy_follows (hs : Inv s r) (hl : Legal s (.copy h other junk)) : Follows s r (.copy h other junk) := by
  obtain ⟨v, hv⟩ := Option.ne_none_iff_exists'.mp hl.2
  obtain ⟨xs, hr, hsize, -⟩ := hs.of_slot hv
  refine ⟨s.construct h xs xs.length, ?_, ?_⟩
  · rw [apply, vec_of_slot hv]
    show (s.elements v >>= fun xs => _) = _
    rw [hs.elements hv hr]
    show Except.ok (s.construct h (copyTo xs 0 (fresh junk v.size)) v.size) = _
    rw [hsize, copyTo_fresh]
  · rw [Op.lists, hr]
    exact hs.construct h xs

theorem move_follows (hs : Inv s r) (hl : Legal s (.move h other : Op H T)) (hzero : ∀ v, s.slot other = some v → v.size = 0) :
    Follows s r (.move h other) := by
  obtain ⟨v, hv⟩ := Option.ne_none_iff_exists'.mp hl.2
  have hne : h ≠ other := by
    rintro rfl
    exact hl.2 hl.1
  refine ⟨_, ?_, hs.moved hne hv (hzero v hv)⟩
  rw [apply, vec_of_slot hv]
  rfl

/-- **A copy assignment copies the vector onto itself.** -/
theorem copyAssign_spec (hs : Inv s r) (other : H) (junk : Nat → T) (hv : s.slot h = some v) (hr : r h = some xs) :
    ∃ t, apply s (.copyAssign h other junk) = .ok t ∧ Inv t (Function.update r h (some xs)) := by
  obtain ⟨xs', hr', hsize, hbuf⟩ := hs.of_slot hv
  obtain rfl := Option.some.inj (hr.symm.trans hr')
  have hinv := hs.construct h xs
  obtain ⟨t, ht, hinv'⟩ := hinv.delete v.data (by
    intro a ha
    have halt : a < s.next := hs.fresh h v a hv ha
    rw [ha] at hbuf
    refine ⟨⟨xs, (Function.update_of_ne (Nat.ne_of_lt halt) ..).trans hbuf⟩, ?_⟩
    intro x u hu hua
    have hu' : Function.update s.slot h (some ⟨some s.next, xs.length⟩) x = some u := hu
    by_cases hxh : x = h
    · subst hxh
      rw [Function.update_self, Option.some.injEq] at hu'
      subst hu'
      exact Nat.ne_of_lt halt (Option.some.inj hua).symm
    · rw [Function.update_of_ne hxh] at hu'
      exact hxh (hs.unique x h u v a hu' hv hua ha))
  refine ⟨t, ?_, hinv'⟩
  rw [apply, vec_of_slot hv]
  show (s.elements v >>= fun xs => _) = _
  rw [hs.elements hv hr]
  show (s.construct h (copyTo xs 0 (fresh junk v.size)) v.size).delete v.data = _
  rw [hsize, copyTo_fresh]
  exact ht

/-- A move assignment to itself. -/
theorem moveAssign_self (hv : s.slot h = some v) : apply s (.moveAssign h h : Op H T) = .ok s := by
  have hthis : (s.put h { v with data := none }).slot h = some { v with data := none } := Function.update_self ..
  rw [apply, vec_of_slot hv]
  show ((s.put h { v with data := none }).vec h >>= fun this => _) = _
  rw [vec_of_slot hthis]
  show Except.ok ((s.put h { v with data := none }).put h v) = .ok s
  have hslot : Function.update (Function.update s.slot h (some { v with data := none })) h (some v) = s.slot := by
    rw [Function.update_idem, ← hv, Function.update_eq_self]
  rw [State.put, State.put]
  show Except.ok { s with slot := Function.update (Function.update s.slot h _) h (some v) } = _
  rw [hslot]

theorem moveAssign_apply (hne : h ≠ other) (hv : s.slot other = some v) (hw : s.slot h = some w) :
    apply s (.moveAssign h other : Op H T) = ((s.put other { v with data := none }).put h v).delete w.data := by
  have hthis : (s.put other { v with data := none }).slot h = some w := (Function.update_of_ne hne ..).trans hw
  rw [apply, vec_of_slot hv]
  show ((s.put other { v with data := none }).vec h >>= fun this => _) = _
  rw [vec_of_slot hthis]
  rfl

theorem moveAssign_follows (hs : Inv s r) (hl : Legal s (.moveAssign h other : Op H T))
    (hsound : h = other ∨ ∀ v, s.slot other = some v → v.size = 0) : Follows s r (.moveAssign h other) := by
  obtain ⟨w, hw⟩ := Option.ne_none_iff_exists'.mp hl.1
  obtain ⟨v, hv⟩ := Option.ne_none_iff_exists'.mp hl.2
  by_cases heq : h = other
  · subst heq
    refine ⟨s, moveAssign_self hw, ?_⟩
    rw [Op.lists, if_pos rfl]
    exact hs
  · have hinv := hs.moved heq hv (hsound.resolve_left heq v hv)
    obtain ⟨zs, -, -, hbuf⟩ := hs.of_slot hw
    obtain ⟨t, ht, hinv'⟩ := hinv.delete w.data (by
      intro a ha
      rw [ha] at hbuf
      refine ⟨⟨zs, hbuf⟩, ?_⟩
      intro x u hu hua
      have hu' : Function.update (Function.update s.slot other (some ⟨none, v.size⟩)) h (some v) x = some u := hu
      by_cases hxh : x = h
      · subst hxh
        rw [Function.update_self, Option.some.injEq] at hu'
        subst hu'
        exact heq (hs.unique x other w v a hw hv ha hua)
      · rw [Function.update_of_ne hxh] at hu'
        by_cases hxo : x = other
        · subst hxo
          rw [Function.update_self, Option.some.injEq] at hu'
          subst hu'
          cases hua
        · rw [Function.update_of_ne hxo] at hu'
          exact hxh (hs.unique x h u w a hu' hw hua ha))
    refine ⟨t, (moveAssign_apply heq hv hw).trans ht, ?_⟩
    rw [Op.lists, if_neg heq]
    exact hinv'

theorem write_follows (hs : Inv s r) {i : Nat} {value : T} (hl : Legal s (.write h i value)) :
    Follows s r (.write h i value) := by
  obtain ⟨v, hv, hi⟩ := hl
  obtain ⟨xs, hr, hsize, hbuf⟩ := hs.of_slot hv
  cases hd : v.data with
  | none =>
    rw [hd] at hbuf
    rw [show xs = [] from hbuf] at hsize
    rw [hsize] at hi
    cases hi
  | some a =>
    rw [hd] at hbuf
    have hheap : s.heap a = some xs := hbuf
    refine ⟨_, ?_, hs.written hv hd hr⟩
    rw [apply, vec_of_slot hv]
    simp only [bind, Except.bind, hd, hheap]
    rw [if_pos (by omega)]

theorem destroy_follows (hs : Inv s r) (hl : Legal s (.destroy h : Op H T)) : Follows s r (.destroy h) := by
  obtain ⟨v, hv⟩ := Option.ne_none_iff_exists'.mp hl
  obtain ⟨xs, -, -, hbuf⟩ := hs.of_slot hv
  obtain ⟨t, ht, hinv⟩ := (hs.removed h).delete v.data (by
    intro a ha
    rw [ha] at hbuf
    refine ⟨⟨xs, hbuf⟩, ?_⟩
    intro x u hu hua
    have hu' : Function.update s.slot h none x = some u := hu
    by_cases hxh : x = h
    · subst hxh
      rw [Function.update_self] at hu'
      cases hu'
    · rw [Function.update_of_ne hxh] at hu'
      exact hxh (hs.unique x h u v a hu' hv hua ha))
  refine ⟨t, ?_, hinv⟩
  rw [apply, vec_of_slot hv]
  exact ht

/-- **A sound operation does what it does on lists.** -/
theorem follows_of_sound (hs : Inv s r) {op : Op H T} (hl : Legal s op) (hsound : Sound s op) : Follows s r op := by
  cases op with
  | default h => exact default_follows hs hl
  | sized h size junk => exact sized_follows hs size
  | filled h size value junk => exact filled_follows hs size value
  | ofList h il junk => exact ofList_follows hs il
  | ofVector h vec junk => exact ofVector_follows hs vec
  | copy h other junk => exact copy_follows hs hl
  | move h other => exact move_follows hs hl hsound
  | copyAssign h other junk =>
    obtain ⟨w, hw⟩ := Option.ne_none_iff_exists'.mp hl.1
    obtain ⟨v, hv⟩ := Option.ne_none_iff_exists'.mp hl.2
    obtain ⟨xs, hr, -⟩ := hs.of_slot hw
    obtain ⟨ys, hr', -⟩ := hs.of_slot hv
    have heq : (s.vec h >>= s.elements) = (s.vec other >>= s.elements) := hsound
    rw [hs.contents hw hr, hs.contents hv hr', Except.ok.injEq] at heq
    obtain ⟨t, ht, hinv⟩ := copyAssign_spec hs other junk hw hr
    refine ⟨t, ht, ?_⟩
    rw [Op.lists, hr', ← heq]
    exact hinv
  | moveAssign h other => exact moveAssign_follows hs hl hsound
  | write h i value => exact write_follows hs hl
  | destroy h => exact destroy_follows hs hl

/-- **The others show.** -/
theorem sound_of_holds (hs : Inv s r) {op : Op H T} (hl : Legal s op) (hholds : Holds s r op) : Sound s op := by
  obtain ⟨t, ht, hagrees⟩ := hholds
  cases op with
  | move h other =>
    intro v hv
    have hne : other ≠ h := by
      rintro rfl
      exact hl.2 hl.1
    rw [apply, vec_of_slot hv] at ht
    obtain rfl := Except.ok.inj ht
    obtain ⟨u, hu, hsize, -⟩ := (hagrees other).2 [] (by rw [Op.lists, Function.update_of_ne hne, Function.update_self])
    have hu' : Function.update (Function.update s.slot other (some ⟨none, v.size⟩)) h (some v) other = some u := hu
    rw [Function.update_of_ne hne, Function.update_self, Option.some.injEq] at hu'
    subst hu'
    exact hsize
  | copyAssign h other junk =>
    obtain ⟨w, hw⟩ := Option.ne_none_iff_exists'.mp hl.1
    obtain ⟨v, hv⟩ := Option.ne_none_iff_exists'.mp hl.2
    obtain ⟨xs, hr, -⟩ := hs.of_slot hw
    obtain ⟨ys, hr', -⟩ := hs.of_slot hv
    obtain ⟨u, hu, hinv⟩ := copyAssign_spec hs other junk hw hr
    obtain rfl := Except.ok.inj (ht.symm.trans hu)
    have hlists : Op.lists r (.copyAssign h other junk) h = some ys := by
      rw [Op.lists, Function.update_self, hr']
    have heq : xs = ys := hinv.agrees.unique hagrees (Function.update_self ..) hlists
    show (s.vec h >>= s.elements) = (s.vec other >>= s.elements)
    rw [hs.contents hw hr, hs.contents hv hr', heq]
  | moveAssign h other =>
    by_cases heq : h = other
    · exact .inl heq
    · right
      intro v hv
      obtain ⟨w, hw⟩ := Option.ne_none_iff_exists'.mp hl.1
      rw [moveAssign_apply heq hv hw] at ht
      obtain ⟨u, hu, hsize, -⟩ := (hagrees other).2 [] (by
        rw [Op.lists, if_neg heq, Function.update_of_ne (Ne.symm heq), Function.update_self])
      have hu' : Function.update (Function.update s.slot other (some ⟨none, v.size⟩)) h (some v) other = some u := by
        rw [delete_slot ht] at hu
        exact hu
      rw [Function.update_of_ne (Ne.symm heq), Function.update_self, Option.some.injEq] at hu'
      subst hu'
      exact hsize
  | _ => trivial

end Ops

/-! ## §7 — the runs. -/

variable [DecidableEq H]

theorem inv_of_run {p : State H T × (H → Option (List T))}
    (hr : Run step (fun p op => Legal p.1 op ∧ Sound p.1 op) (init, fun _ => none) p) : Inv p.1 p.2 := by
  apply @Run.invariant _ _ step _ _ _ (fun p => Inv p.1 p.2) _ _ hr
  · intro p op q hs hop hstep
    obtain ⟨t, ht, hinv⟩ := follows_of_sound hs hop.1 hop.2
    rw [step, ht] at hstep
    obtain rfl := Option.some.inj hstep
    exact hinv
  · exact inv_init

/-- **In a run whose copy assignments are between equal vectors and whose moves are out of empty ones**, the vectors are
lists; the next operation does what it does on lists if and only if it is one of those. -/
theorem agrees_of_run {p : State H T × (H → Option (List T))}
    (hr : Run step (fun p op => Legal p.1 op ∧ Sound p.1 op) (init, fun _ => none) p) :
    Agrees p.1 p.2 ∧ ∀ op, Legal p.1 op → (Holds p.1 p.2 op ↔ Sound p.1 op) := by
  have hs := inv_of_run hr
  refine ⟨hs.agrees, ?_⟩
  intro op hl
  constructor
  · exact sound_of_holds hs hl
  · intro hsound
    obtain ⟨t, ht, hinv⟩ := follows_of_sound hs hl hsound
    exact ⟨t, ht, hinv.agrees⟩

/-! ## §8 — two vectors. -/

/-- `FixedVector<int> a{1}, b{2};` -/
def ab : State Bool Int × (Bool → Option (List Int)) :=
  ((init.construct false [1] 1).construct true [2] 1,
    Function.update (Function.update (fun _ => none) false (some [1])) true (some [2]))

theorem ab_run : Run step (fun p op => Legal p.1 op ∧ Sound p.1 op) (init, fun _ => none) ab := by
  have ha : Run step (fun p op => Legal p.1 op ∧ Sound p.1 op) (init, fun _ => none)
      ((init : State Bool Int).construct false [1] 1, Function.update (fun _ => none) false (some [1])) :=
    (Run.refl _).tail (.ofList false [1] fun _ => 0) ⟨rfl, trivial⟩ rfl
  exact ha.tail (.ofList true [2] fun _ => 0) ⟨rfl, trivial⟩ rfl

/-- `b[0] = 7` is what it is on lists. -/
theorem ab_agrees : Agrees ab.1 ab.2 ∧ (Holds ab.1 ab.2 (.write true 0 7) ↔ Sound ab.1 (.write true 0 7)) := by
  have hrun := agrees_of_run ab_run
  exact ⟨hrun.1, hrun.2 _ ⟨⟨some 1, 1⟩, rfl, Nat.one_pos⟩⟩

/-- **After `a = b` the vector `a` still holds 1, and after `FixedVector c(std::move(b))` the size of `b` is still 1**,
without a buffer behind it. -/
theorem assignment_ignores :
    (∃ t, apply ab.1 (.copyAssign false true fun _ => 0) = .ok t ∧ t.elementAt false 0 = .ok 1 ∧
        ab.1.elementAt true 0 = .ok 2 ∧ ¬ Holds ab.1 ab.2 (.copyAssign false true fun _ => 0)) ∧
      ∃ t, apply ab.1 (.moveAssign false true) = .ok t ∧ t.slot true = some ⟨none, 1⟩ ∧
        t.elementAt true 0 = .error .null ∧ ¬ Holds ab.1 ab.2 (.moveAssign false true) := by
  have hs := inv_of_run ab_run
  have hlive : ∀ h, ab.1.slot h ≠ none := by
    intro h
    cases h <;> exact Option.some_ne_none _
  refine ⟨⟨_, rfl, rfl, rfl, ?_⟩, ⟨_, rfl, rfl, rfl, ?_⟩⟩
  · have hlegal : Legal ab.1 (.copyAssign false true fun _ => 0) := ⟨hlive false, hlive true⟩
    intro hholds
    have heq : (Except.ok [1] : Except Fault (List Int)) = .ok [2] := sound_of_holds hs hlegal hholds
    exact absurd (Except.ok.inj heq) (by decide)
  · have hlegal : Legal ab.1 (.moveAssign false true) := ⟨hlive false, hlive true⟩
    intro hholds
    have hsound := sound_of_holds hs hlegal hholds
    exact absurd (hsound.resolve_left Bool.false_ne_true ⟨some 1, 1⟩ rfl) Nat.one_ne_zero

end NetCpp.Wheel.FixedVector
