/-
# NetCpp.Lib.Fallible — steps that may not come to their end.

A step is an `Except`.  What the code returns as an error is its own type; a `Fault` is what it has no answer to: a
read or a write outside an object has no meaning, and a failed assertion ends the program.  Nothing is claimed behind
one.
-/
import NetCpp.Lib.Bytes

namespace NetCpp.Lib

inductive Fault
  | read
  | write
  /-- a span cut out of a shorter one -/
  | subspan
  /-- the text of the assertion; an `assert` has none -/
  | assertion (msg : Bytes := [])
  deriving DecidableEq, Repr

variable {ε α β : Type} {x : Except ε α} {f : α → Except ε β}

/-- A sequence of two fallible steps succeeds when both do. -/
theorem bind_eq_ok {r : β} : x >>= f = .ok r ↔ ∃ a, x = .ok a ∧ f a = .ok r := by
  cases x with
  | error e => simp [bind, Except.bind]
  | ok a => simp [bind, Except.bind]

/-- A sequence ends early when its first step does, or the one behind it. -/
theorem bind_eq_error {e : ε} : x >>= f = .error e ↔ x = .error e ∨ ∃ a, x = .ok a ∧ f a = .error e := by
  cases x with
  | error e' => simp [bind, Except.bind]
  | ok a => simp [bind, Except.bind]

end NetCpp.Lib
