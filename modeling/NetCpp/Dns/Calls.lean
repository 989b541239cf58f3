/-
# NetCpp.Dns.Calls — a message, its compressor and the calls on it.

`include/xsl/net/dns/utils.h` and `src/net/dns/utils.cpp`.  The message grows: by what `compress` writes at its end,
and by what the caller writes there.  `compress` is called only after a `prepare` that returned a value; that is the
`ready` of a state, and nothing in the object.
-/
import NetCpp.Dns.Search
import NetCpp.Lib.Transition

namespace NetCpp.Dns

open NetCpp.Lib

/-! ## §1 — the machine. -/

structure Writing where
  mem : Bytes
  c : DnCompressor
  /-- the last call was a `prepare` that returned a value -/
  ready : Bool
  deriving DecidableEq

inductive Act
  /-- with a bound on the passes of `get_offs` -/
  | prepare (fuel : Nat) (name : Bytes)
  /-- over the memory `dst` behind the message -/
  | compress (dst : Bytes)
  | write (more : Bytes)

/-- One call; none when it does not return or goes outside an array. -/
def step (debug : Bool) (s : Writing) : Act → Option Writing
  | .prepare fuel name =>
      match prepare s.mem debug fuel s.c name with
      | some (.ok (c, .ok _)) => some ⟨s.mem, c, true⟩
      | some (.ok (c, .error _)) => some ⟨s.mem, c, false⟩
      | some (.error _) | none => none
  | .compress dst =>
      if s.ready then
        match compress debug s.c s.mem.length dst with
        | .ok (c, bytes, n) => some ⟨s.mem ++ bytes.take n, c, false⟩
        | .error _ => none
      else none
  | .write more => some { s with mem := s.mem ++ more }

/-- A fresh compressor behind a header. -/
def start (header : Bytes) : Writing := ⟨header, .init, false⟩

/-- **What a call does.** -/
theorem step_cases {debug : Bool} {s t : Writing} {a : Act} (h : step debug s a = some t) :
    (∃ fuel name c r, a = .prepare fuel name ∧ prepare s.mem debug fuel s.c name = some (.ok (c, r)) ∧
        t.mem = s.mem ∧ t.c = c ∧ (t.ready = true ↔ ∃ n, r = .ok n)) ∨
      (∃ dst c bytes n, a = .compress dst ∧ s.ready = true ∧
        compress debug s.c s.mem.length dst = .ok (c, bytes, n) ∧ t = ⟨s.mem ++ bytes.take n, c, false⟩) ∨
      ∃ more, a = .write more ∧ t = { s with mem := s.mem ++ more } := by
  cases a with
  | prepare fuel name =>
      left
      rw [step] at h
      cases hp : prepare s.mem debug fuel s.c name with
      | none => rw [hp] at h; cases h
      | some r =>
          cases r with
          | error f => rw [hp] at h; cases h
          | ok x =>
              obtain ⟨c, r⟩ := x
              rw [hp] at h
              cases r with
              | ok n =>
                  obtain rfl : ⟨s.mem, c, true⟩ = t := Option.some.inj h
                  exact ⟨fuel, name, c, .ok n, rfl, hp, rfl, rfl, by simp⟩
              | error ec =>
                  obtain rfl : ⟨s.mem, c, false⟩ = t := Option.some.inj h
                  exact ⟨fuel, name, c, .error ec, rfl, hp, rfl, rfl, by simp⟩
  | compress dst =>
      right; left
      rw [step] at h
      split at h
      · rename_i hready
        cases hc : compress debug s.c s.mem.length dst with
        | error f => rw [hc] at h; cases h
        | ok r =>
            obtain ⟨c, bytes, n⟩ := r
            rw [hc] at h
            exact ⟨dst, c, bytes, n, rfl, hready, hc, (Option.some.inj h).symm⟩
      · cases h
  | write more => exact Or.inr (Or.inr ⟨more, rfl, (Option.some.inj h).symm⟩)

/-! ## §2 — what the calls keep. -/

variable {mem dst : Bytes} {debug : Bool} {fuel pos : Nat} {c c' : DnCompressor} {name : Bytes}

/-- What a search that returns has made of the object. -/
theorem searched_ok {src : Bytes} {r : Except Errc Nat} (htab : Tabled c.lens (labelsOf src))
    (h : searched mem debug fuel c src = some (.ok (c', r))) :
    ∃ best e, scan src.length (answers mem debug fuel c.dnptrs src) (c.suffixLen, c.suffixOff) = some (.ok (best, e)) ∧
      c' = ⟨if e then c.src else src, c.lens, c.dnptrs, best.1, best.2⟩ ∧
      r = if e then .error .illegalByteSequence else .ok (encodedSize src best.1) := by
  rw [searched_eq mem debug fuel htab] at h
  cases hs : scan src.length (answers mem debug fuel c.dnptrs src) (c.suffixLen, c.suffixOff) with
  | none => rw [hs] at h; cases h
  | some x =>
      rw [hs] at h
      cases x with
      | error f => cases h
      | ok x =>
          obtain ⟨best, e⟩ := x
          refine ⟨best, e, rfl, ?_⟩
          cases e <;>
            simp only [Option.map_some, Except.map, settle, DnCompressor.found, Option.some.injEq, Except.ok.injEq,
              Prod.mk.injEq, if_true, Bool.false_eq_true, if_false] at h ⊢ <;>
            exact ⟨h.1.symm, h.2.symm⟩

/-- **What a `prepare` that returns has done**: nothing, overwritten the table, or searched. -/
theorem prepare_ok {r : Except Errc Nat} (hlen : c.lens.length = 127)
    (h : prepare mem debug fuel c name = some (.ok (c', r))) :
    ((name = [] ∨ nameLimit < name.length) ∧ c' = c ∧ r = .error .invalidArgument) ∨
      (name = [46] ∧ c' = c ∧ r = .ok 1) ∨
      (undotted name ≠ [] ∧ name.length ≤ nameLimit ∧ ∃ lens k, lens.length = 127 ∧
        getLabelLens c.lens 0 0 (undotted name) = .ok (lens, k) ∧
        ((LongLabel (undotted name) ∧ c' = { c with lens := lens } ∧ r = .error .invalidArgument) ∨
          ((∀ l ∈ labelsOf (undotted name), l.length ≤ labelLimit) ∧ (labelsOf (undotted name)).length ≤ 127 ∧
            Tabled lens (labelsOf (undotted name)) ∧ ∃ best e,
              scan (undotted name).length (answers mem debug fuel c.dnptrs (undotted name))
                (c.suffixLen, c.suffixOff) = some (.ok (best, e)) ∧
              c' = ⟨if e then c.src else undotted name, lens, c.dnptrs, best.1, best.2⟩ ∧
              r = if e then .error .illegalByteSequence else .ok (encodedSize (undotted name) best.1)))) := by
  rcases prepare_cases hlen mem debug fuel name with ⟨hbad, hp⟩ | ⟨hroot, hp⟩ |
    ⟨hroot, hle, ⟨hlong, lens, hl, hg, hp⟩ | ⟨-, -, hp⟩ | ⟨hshort, hfew, lens, hl, htab, hg, hp⟩⟩
  · rw [hp] at h
    cases h
    exact Or.inl ⟨hbad, rfl, rfl⟩
  · rw [hp] at h
    cases h
    exact Or.inr (Or.inl ⟨hroot, rfl, rfl⟩)
  · rw [hp] at h
    cases h
    exact Or.inr (Or.inr ⟨hroot, hle, lens, _, hl, hg, Or.inl ⟨hlong, rfl, rfl⟩⟩)
  · rw [hp] at h
    cases h
  · rw [hp] at h
    obtain ⟨best, e, hs, hc, hr⟩ := searched_ok htab h
    exact Or.inr (Or.inr ⟨hroot, hle, lens, _, hl, hg, Or.inr ⟨hshort, hfew, htab, best, e, hs, hc, hr⟩⟩)

/-- `prepare` records nothing and keeps the size of the table. -/
theorem prepare_keeps {r : Except Errc Nat} (hlen : c.lens.length = 127)
    (h : prepare mem debug fuel c name = some (.ok (c', r))) : c'.lens.length = 127 ∧ c'.dnptrs = c.dnptrs := by
  rcases prepare_ok hlen h with ⟨-, rfl, -⟩ | ⟨-, rfl, -⟩ |
    ⟨-, -, lens, -, hl, -, ⟨-, rfl, -⟩ | ⟨-, -, -, best, e, -, rfl, -⟩⟩
  · exact ⟨hlen, rfl⟩
  · exact ⟨hlen, rfl⟩
  · exact ⟨hl, rfl⟩
  · exact ⟨hl, rfl⟩

/-- **What a `compress` that comes to its end leaves**: an object with nothing prepared, and one more recorded name
when more than two bytes were written. -/
theorem finish_ok {i n : Nat} {bytes : Bytes} (h : c.finish debug pos dst i = .ok (c', bytes, n)) :
    c' = ⟨[], c.lens, if 2 < n then c.dnptrs ++ [pos] else c.dnptrs, 0, 0⟩ ∧
      (2 < n → c.dnptrs.length < dnptrsMax) ∧
      ((c.suffixLen ≠ 0 ∧ n = i + 2 ∧ i + 1 < dst.length ∧
          bytes = (dst.set i (UInt8.ofNat (0xc0 ||| c.suffixOff >>> 8))).set (i + 1) (UInt8.ofNat c.suffixOff)) ∨
        (c.suffixLen = 0 ∧ n = i + 1 ∧ i < dst.length ∧ bytes = dst.set i (UInt8.ofNat c.suffixOff))) := by
  have hrecord : ∀ {m : Nat} {d : Bytes}, (if m > 2 then c.addDnptr debug pos else Except.ok c).map
      (fun c => (c.reset, d, m)) = .ok (c', bytes, n) →
      n = m ∧ bytes = d ∧ (2 < m → c.dnptrs.length < dnptrsMax) ∧
        c' = ⟨[], c.lens, if 2 < m then c.dnptrs ++ [pos] else c.dnptrs, 0, 0⟩ := by
    intro m d hm
    by_cases h2 : m > 2
    · rw [if_pos h2, DnCompressor.addDnptr] at hm
      by_cases hcap : c.dnptrs.length < dnptrsMax
      · rw [if_pos hcap] at hm
        cases hm
        exact ⟨rfl, rfl, fun _ => hcap, by rw [if_pos h2]; rfl⟩
      · rw [if_neg hcap] at hm
        cases hm
    · rw [if_neg h2] at hm
      cases hm
      exact ⟨rfl, rfl, fun hlt => absurd hlt h2, by rw [if_neg h2]; rfl⟩
  rw [DnCompressor.finish] at h
  by_cases hlen : c.suffixLen = 0
  · rw [if_neg (by simpa using hlen)] at h
    simp only [Except.bind] at h
    by_cases hi : i < dst.length
    · rw [store_of_lt hi] at h
      obtain ⟨rfl, rfl, hcap, hc⟩ := hrecord h
      exact ⟨hc, hcap, Or.inr ⟨hlen, rfl, hi, rfl⟩⟩
    · rw [store, if_neg hi] at h
      cases h
  · rw [if_pos hlen] at h
    by_cases hi : i < dst.length
    · rw [store_of_lt hi] at h
      simp only [Except.map, Except.bind] at h
      by_cases hi' : i + 1 < (dst.set i (UInt8.ofNat (0xc0 ||| c.suffixOff >>> 8))).length
      · rw [store_of_lt hi'] at h
        obtain ⟨rfl, rfl, hcap, hc⟩ := hrecord h
        exact ⟨hc, hcap, Or.inl ⟨hlen, rfl, by simpa using hi', rfl⟩⟩
      · rw [store, if_neg hi'] at h
        cases h
    · rw [store, if_neg hi] at h
      cases h

/-- **The ways of a `compress` that returns**: the root's zero byte, or the four parts. -/
theorem compress_ok {n : Nat} {bytes : Bytes} (h : compress debug c pos dst = .ok (c', bytes, n)) :
    (c.src = [] ∧ c' = c ∧ n = 1 ∧ 0 < dst.length ∧ bytes = dst.set 0 0) ∨
      (c.src ≠ [] ∧ ∃ text copied lensed i, readN c.src 0 (sizeSub c.src.length c.suffixLen) = some text ∧
        copyTo dst 1 text = .ok copied ∧
        writeLens c.lens (sizeSub c.src.length c.suffixLen) (sizeSub c.src.length c.suffixLen) 0 0 copied =
          .ok (lensed, i) ∧ c.finish debug pos lensed i = .ok (c', bytes, n)) := by
  rw [compress] at h
  by_cases hsrc : c.src = []
  · left
    rw [if_pos hsrc, store] at h
    by_cases hd : 0 < dst.length
    · rw [if_pos hd] at h
      cases h
      exact ⟨hsrc, rfl, rfl, hd, rfl⟩
    · rw [if_neg hd] at h
      cases h
  · right
    rw [if_neg hsrc] at h
    refine ⟨hsrc, ?_⟩
    cases hread : readN c.src 0 (sizeSub c.src.length c.suffixLen) with
    | none => rw [hread] at h; cases h
    | some text =>
        rw [hread] at h
        obtain ⟨copied, hcopy, h⟩ := bind_eq_ok.mp h
        obtain ⟨⟨lensed, i⟩, hw, hf⟩ := bind_eq_ok.mp h
        exact ⟨text, copied, lensed, i, rfl, hcopy, hw, hf⟩

/-- `compress` keeps the table of label lengths. -/
theorem compress_keeps {n : Nat} {bytes : Bytes} (h : compress debug c pos dst = .ok (c', bytes, n)) :
    c'.lens = c.lens := by
  rcases compress_ok h with ⟨-, rfl, -⟩ | ⟨-, text, copied, lensed, i, -, -, -, hf⟩
  · rfl
  · rw [(finish_ok hf).1]

/-- A call keeps the size of the table of label lengths. -/
theorem step_keeps {s t : Writing} {a : Act} (hlen : s.c.lens.length = 127) (hs : step debug s a = some t) :
    t.c.lens.length = 127 := by
  rcases step_cases hs with ⟨fuel, name, c, r, -, hp, -, rfl, -⟩ | ⟨dst, c, bytes, n, -, -, hc, rfl⟩ | ⟨more, -, rfl⟩
  · exact (prepare_keeps hlen hp).1
  · show c.lens.length = 127
    rw [compress_keeps hc]
    exact hlen
  · exact hlen

/-- **The table of label lengths keeps its size** over every run. -/
theorem lens_of_reachable {header : Bytes} {s : Writing} (h : Reachable (step debug) (start header) s) :
    s.c.lens.length = 127 := by
  apply @Run.invariant _ _ (step debug) _ _ s (fun s => s.c.lens.length = 127) _ _ h
  · intro s a t hlen _ hs
    exact step_keeps hlen hs
  · simp [start, DnCompressor.init]

end NetCpp.Dns
