/-
# NetCpp.Dns.Skip — `skip_dn` and `skip_question` against `decompress`.

`include/xsl/net/dns/utils.h` and `include/xsl/net/dns/proto/question.h`.  `skip_dn` walks over the name's own bytes
as `decompress` does, and tests the byte in front of each label in its own way: what is not exactly `c0` is no pointer
to it, although only the two high bits make one.  A pointer to offset 256 or behind is refused as a reserved byte.

`Own` is the part of a walk both have in common, the labels in front of whatever ends the name's own bytes; `Route.own`
cuts a route there, and `skip_of_sign` says what `skip_dn` does with each end.
-/
import NetCpp.Dns.Overloads
import NetCpp.Dns.Names

namespace NetCpp.Dns

open NetCpp.Lib

/-! ## §1 — the walkers. -/

/-- How `skip_dn` and `skip_question` come back: with the place where the span then begins, or an error. -/
inductive Skipped
  | rest (pos : Nat)
  | error (ec : Errc)
  | fault (f : Fault)
  deriving DecidableEq, Repr

section

variable (msg : Bytes)

/-- `src = src.subspan(n)`, where `src` reaches from `pos` to the end of the message. -/
def skipTo (pos n : Nat) : Skipped := if pos + n ≤ msg.length then .rest (pos + n) else .fault .subspan

/-- One pass of the loop of `skip_dn` on the span that begins at `start`. -/
def skipBody (start offset : Nat) : Next Nat Skipped :=
  match msg[start + offset]? with
  | none => .stop (.fault .read)
  | some b =>
      if b = 0 then .stop (skipTo msg start (offset + 1))
      else if high b ≠ 0 then
        if b ≠ 0xc0 then .stop (.error .illegalByteSequence) else .stop (skipTo msg start (offset + 1 + 1))
      else .go (offset + b.toNat + 1)

/-- `skip_dn` -/
def SkipDn (start : Nat) (r : Skipped) : Prop := Halts (skipBody msg start) 0 r

/-- What `skip_question` makes of it. -/
def Skipped.question : Skipped → Skipped
  | .rest pos => skipTo msg pos 4
  | r => r

/-- `skip_question` -/
def SkipQuestion (start : Nat) (r : Skipped) : Prop := ∃ s, SkipDn msg start s ∧ r = s.question msg

/-- **The labels `ls` stand at `pos`**, one behind the other: the name's own bytes in front of what ends them. -/
def Own : Nat → List Bytes → Prop
  | _, [] => True
  | pos, l :: ls => sign msg .own pos = some (.label l) ∧ Own (pos + l.length + 1) ls

end

variable {msg : Bytes} {debug : Bool} {start pos used : Nat} {ls : List Bytes} {text : Bytes}

/-! ## §2 — where the walks part. -/

/-- Nothing counts behind a pointer. -/
theorem Route.uncounted {pc : Pc} {ec : Option Errc} (h : Route msg debug pc pos used text ec) (hpc : pc ≠ .own) :
    used = 0 := by
  induction h with
  | finish _ => exact if_neg hpc
  | reserved _ => exact if_neg hpc
  | @label pc _ _ _ _ _ _ _ _ ih =>
    have hnext : pc.afterLabel ≠ .own := by
      cases pc with
      | own => exact absurd rfl hpc
      | head => simp [Pc.afterLabel]
      | jump => simp [Pc.afterLabel]
    rw [ih hnext, Pc.counted, if_neg hpc]
  | @pointer pc _ _ _ _ _ _ _ ih =>
    have hnext : pc.afterPointer ≠ .own := by
      cases pc with
      | own => simp [Pc.afterPointer]
      | head => simp [Pc.afterPointer]
      | jump => simp [Pc.afterPointer]
    rw [ih hnext, Pc.counted, if_neg hpc]

/-- A route leaves the name's own bytes at a zero byte, a reserved one or a pointer. -/
theorem Route.own {ec : Option Errc} (h : Route msg debug .own pos used text ec) :
    ∃ ls rest, Own msg pos ls ∧ text = spelled ls ++ rest ∧ (debug = true → ∀ n < ls.length, pos + wireLen (ls.take n) < 0x4000) ∧
      ((sign msg .own (pos + wireLen ls) = some .finish ∧ used = wireLen ls + 1 ∧ ec = none) ∨
        (sign msg .own (pos + wireLen ls) = some .reserved ∧ used = wireLen ls + 1 ∧ ec = some .illegalByteSequence) ∨
        ∃ dest, sign msg .own (pos + wireLen ls) = some (.pointer dest) ∧ used = wireLen ls + 2) := by
  generalize hpc : Pc.own = pc at h
  induction h with
  | finish hs =>
    subst hpc
    exact ⟨[], [], trivial, rfl, by simp, Or.inl ⟨hs, rfl, rfl⟩⟩
  | reserved hs =>
    subst hpc
    exact ⟨[], [], trivial, rfl, by simp, Or.inr (Or.inl ⟨hs, rfl, rfl⟩)⟩
  | @label pc pos used l text ec hs hd _ ih =>
    subst hpc
    obtain ⟨ls, rest, hown, htext, hlow, hend⟩ := ih rfl
    have hat : pos + wireLen (l :: ls) = pos + l.length + 1 + wireLen ls := by
      rw [wireLen_cons]
      omega
    refine ⟨l :: ls, rest, ⟨hs, hown⟩, ?_, ?_, ?_⟩
    · rw [htext]
      simp [spelled]
    · intro hdebug n hn
      cases n with
      | zero => exact hd hdebug
      | succ n =>
        have := hlow hdebug n (by simpa using hn)
        rw [List.take_succ_cons, wireLen_cons]
        omega
    · rw [hat]
      have hcount : Pc.own.counted (1 + l.length) = 1 + l.length := rfl
      rw [hcount, wireLen_cons]
      rcases hend with ⟨hs, hu, he⟩ | ⟨hs, hu, he⟩ | ⟨dest, hs, hu⟩
      · exact Or.inl ⟨hs, by omega, he⟩
      · exact Or.inr (Or.inl ⟨hs, by omega, he⟩)
      · exact Or.inr (Or.inr ⟨dest, hs, by omega⟩)
  | @pointer pc pos dest used text ec hs hr _ =>
    subst hpc
    refine ⟨[], text, trivial, rfl, by simp, Or.inr (Or.inr ⟨dest, hs, ?_⟩)⟩
    rw [hr.uncounted (by simp [Pc.afterPointer])]
    rfl

/-- Labels in front of a route. -/
theorem Own.route {ec : Option Errc} (h : Own msg pos ls)
    (hlow : debug = true → ∀ n < ls.length, pos + wireLen (ls.take n) < 0x4000)
    (hend : Route msg debug .own (pos + wireLen ls) used text ec) :
    Route msg debug .own pos (wireLen ls + used) (spelled ls ++ text) ec := by
  induction ls generalizing pos with
  | nil => simpa [spelled] using hend
  | cons l ls ih =>
    obtain ⟨hs, hown⟩ := h
    have hat : pos + l.length + 1 + wireLen ls = pos + wireLen (l :: ls) := by
      rw [wireLen_cons]
      omega
    have hrest : Route msg debug .own (pos + l.length + 1) (wireLen ls + used) (spelled ls ++ text) ec := by
      apply ih hown
      · intro hdebug n hn
        have hbelow := hlow hdebug (n + 1) (by simpa using hn)
        rw [List.take_succ_cons, wireLen_cons] at hbelow
        omega
      · rw [hat]
        exact hend
    have hroute := Route.label hs (fun hdebug => by simpa using hlow hdebug 0 (by simp)) hrest
    have hused : Pc.own.counted (1 + l.length) + (wireLen ls + used) = wireLen (l :: ls) + used := by
      rw [wireLen_cons, Pc.counted, if_pos rfl]
      omega
    rw [hused] at hroute
    simpa [spelled] using hroute

/-- The labels in front of what ends the name's own bytes are determined by the message. -/
theorem Own.unique {ls' : List Bytes} {g g' : Sign} (h : Own msg pos ls) (h' : Own msg pos ls')
    (hs : sign msg .own (pos + wireLen ls) = some g) (hs' : sign msg .own (pos + wireLen ls') = some g')
    (hg : ∀ l, g ≠ .label l) (hg' : ∀ l, g' ≠ .label l) : ls = ls' := by
  induction ls generalizing pos ls' with
  | nil =>
    cases ls' with
    | nil => rfl
    | cons l' ls' =>
      have hsame := hs.symm.trans h'.1
      exact absurd (Option.some.inj hsame) (hg l')
  | cons l ls ih =>
    cases ls' with
    | nil =>
      have hsame := hs'.symm.trans h.1
      exact absurd (Option.some.inj hsame) (hg' l)
    | cons l' ls' =>
      obtain rfl : l = l' := by
        have hsame := h.1.symm.trans h'.1
        exact Sign.label.inj (Option.some.inj hsame)
      rw [wireLen_cons, ← Nat.add_assoc, ← Nat.add_assoc] at hs hs'
      rw [ih h.2 h'.2 hs hs']

/-! ## §3 — `skip_dn` -/

theorem skipTo_of_lt {n : Nat} (h : pos + n < msg.length) : skipTo msg pos (n + 1) = .rest (pos + n + 1) := by
  rw [skipTo, if_pos (by omega), Nat.add_assoc]

/-- `skip_dn` goes over the labels. -/
theorem Own.skip {offset : Nat} {r : Skipped} (h : Own msg (start + offset) ls)
    (hend : skipBody msg start (offset + wireLen ls) = .stop r) : Halts (skipBody msg start) offset r := by
  induction ls generalizing offset with
  | nil => exact .stop hend
  | cons l ls ih =>
    obtain ⟨hs, hown⟩ := h
    obtain ⟨b, hb, h0, hz, hread⟩ := sign_some hs
    have hlen := (readN_eq_some hread).2.2
    have hne : b ≠ 0 := fun hb0 => h0 ⟨hb0, by simp⟩
    have hgo : skipBody msg start offset = .go (offset + l.length + 1) := by
      rw [hlen]
      simp [skipBody, hb, hne, hz]
    have hnext : Halts (skipBody msg start) (offset + l.length + 1) r := by
      apply ih
      · rw [← Nat.add_assoc, ← Nat.add_assoc]
        exact hown
      · rw [← hend, wireLen_cons, Nat.add_assoc, Nat.add_assoc, Nat.add_assoc]
    exact hnext.go hgo

set_option maxRecDepth 8000 in
/-- A pointer that begins with exactly `c0` leads to one of the first 256 bytes. -/
theorem target_lt_iff {b b1 : UInt8} (h : high b = 0xc0) : target b b1 < 256 ↔ b = 0xc0 := by
  have key : ∀ n : Fin 256, high (UInt8.ofNat n) = 0xc0 → (n.val &&& 0x3f = 0 ↔ UInt8.ofNat n.val = 0xc0) := by decide
  have hb := key ⟨b.toNat, b.toNat_lt⟩ (by simpa using h)
  simp only [UInt8.ofNat_toNat] at hb
  have hlow := b1.toNat_lt
  rw [← hb, target, ← Nat.shiftLeft_add_eq_or_of_lt (by omega), Nat.shiftLeft_eq]
  omega

/-- **What `skip_dn` does with each end** of the name's own bytes. -/
theorem skip_of_sign {g : Sign} (h : Own msg start ls) (hs : sign msg .own (start + wireLen ls) = some g) :
    (g = .finish → SkipDn msg start (.rest (start + wireLen ls + 1))) ∧
      (g = .reserved → SkipDn msg start (.error .illegalByteSequence)) ∧
      ∀ dest, g = .pointer dest →
        SkipDn msg start (if dest < 256 then .rest (start + wireLen ls + 2) else .error .illegalByteSequence) := by
  obtain ⟨b, hb, hg⟩ := sign_some hs
  have hlt := lt_of_getElem? msg hb
  have hstop : ∀ r, skipBody msg start (wireLen ls) = .stop r → SkipDn msg start r := by
    intro r hr
    have hown : Own msg (start + 0) ls := h
    exact hown.skip (by rw [Nat.zero_add, hr])
  refine ⟨?_, ?_, ?_⟩
  · rintro rfl
    obtain ⟨rfl, -⟩ := hg
    apply hstop
    simp only [skipBody, hb, if_true, skipTo_of_lt hlt]
  · rintro rfl
    obtain ⟨hz, hp⟩ := hg
    have hne : b ≠ 0xc0 := by
      rintro rfl
      exact hp (by decide)
    apply hstop
    simp [skipBody, hb, ne_zero_of_high hz, hz, hne]
  · rintro dest rfl
    obtain ⟨hp, b1, hb1, rfl⟩ := hg
    have hz : high b ≠ 0 := by
      rw [hp]
      decide
    have hlt1 := lt_of_getElem? msg hb1
    apply hstop
    simp only [skipBody, hb, ne_zero_of_high hz, hz, target_lt_iff hp, if_false, ne_eq, not_false_eq_true, if_true]
    by_cases hc : b = 0xc0
    · rw [if_neg (not_not.mpr hc), if_pos hc, skipTo_of_lt (by omega)]
      rfl
    · rw [if_pos hc, if_neg hc]

/-- `skip_dn` comes back in one way. -/
theorem SkipDn.unique {r r' : Skipped} (h : SkipDn msg start r) (h' : SkipDn msg start r') : r = r' := by
  obtain ⟨n, hn⟩ := h
  obtain ⟨m, hm⟩ := h'
  have hn' := loop_mono (le_max_left n m) hn
  rw [loop_mono (le_max_right n m) hm] at hn'
  exact (Option.some.inj hn').symm

/-! ## §4 — against `decompress`. -/

/-- A pointer at the end of the name's own bytes leads to one of the first 256 bytes. -/
def Near (msg : Bytes) (start : Nat) : Prop :=
  ∀ ls dest, Own msg start ls → sign msg .own (start + wireLen ls) = some (.pointer dest) → dest < 256

/-- The labels `ls` fit into the buffer, and a debug build lets them stand where they are. -/
def Fits (debug : Bool) (start : Nat) (ls : List Bytes) : Prop :=
  wireLen ls ≤ nameLimit ∧ (debug = true → ∀ n < ls.length, start + wireLen (ls.take n) < 0x4000)

/-- **The skips advance over what `decompress` decodes**, and both refuse a reserved byte. -/
structure SkipsAlike (msg : Bytes) (debug : Bool) (start : Nat) : Prop where
  along : ∀ o size o', Call (spanBody msg debug start) start o none size o' →
    SkipDn msg start (.rest (start + size)) ∧ SkipQuestion msg start (.rest (start + size + 4))
  refuse : ∀ ls, Own msg start ls → sign msg .own (start + wireLen ls) = some .reserved →
    SkipDn msg start (.error .illegalByteSequence) ∧
      ∀ o, (∃ size o', Call (spanBody msg debug start) start o (some .illegalByteSequence) size o') ∧
        ∃ size o', Call (ptrBody msg debug) start o (some .illegalByteSequence) size o'

/-- What `skip_dn` says to a name that a route lays out. -/
theorem Route.skip (h : Route msg debug .own start used text none) :
    (Near msg start → SkipDn msg start (.rest (start + used))) ∧ (SkipDn msg start (.rest (start + used)) → Near msg start) := by
  obtain ⟨ls, rest, hown, -, -, hend⟩ := h.own
  rcases hend with ⟨hs, rfl, -⟩ | ⟨-, -, hec⟩ | ⟨dest, hs, rfl⟩
  · -- a zero byte: there is no pointer
    refine ⟨fun _ => (skip_of_sign hown hs).1 rfl, fun _ ls' dest' hown' hs' => ?_⟩
    obtain rfl := hown.unique hown' hs hs' (by simp) (by simp)
    rw [hs] at hs'
    cases hs'
  · cases hec
  · have hskip := (skip_of_sign hown hs).2.2 dest rfl
    constructor
    · intro hnear
      rw [if_pos (hnear ls dest hown hs)] at hskip
      exact hskip
    · intro hrest ls' dest' hown' hs'
      obtain rfl := hown.unique hown' hs hs' (by simp) (by simp)
      obtain rfl : dest = dest' := Sign.pointer.inj (Option.some.inj (hs.symm.trans hs'))
      by_contra hfar
      rw [if_neg hfar] at hskip
      cases hskip.unique hrest

/-- `skip_question` leaves four bytes less than `skip_dn` exactly when there are four. -/
theorem SkipDn.question_iff (h : SkipDn msg start (.rest pos)) :
    SkipQuestion msg start (.rest (pos + 4)) ↔ pos + 4 ≤ msg.length := by
  constructor
  · rintro ⟨r, hr, hq⟩
    obtain rfl := h.unique hr
    rw [Skipped.question, skipTo] at hq
    split at hq
    · assumption
    · cases hq
  · intro hle
    exact ⟨_, h, by rw [Skipped.question, skipTo, if_pos hle]⟩

/-- **The skips are right exactly where** a name that can be decoded does not end in a pointer to offset 256 or behind
and leaves four bytes for the question, and the labels in front of a reserved byte fit. -/
theorem skipsAlike_iff (msg : Bytes) (debug : Bool) (start : Nat) :
    SkipsAlike msg debug start ↔
      (∀ used text, Route msg debug .own start used text none → text.length ≤ nameLimit →
        Near msg start ∧ start + used + 4 ≤ msg.length) ∧
      ∀ ls, Own msg start ls → sign msg .own (start + wireLen ls) = some .reserved → Fits debug start ls := by
  have hwspan := walks_spanBody msg debug start
  have hwptr := walks_ptrBody msg debug
  constructor
  · intro h
    constructor
    · intro used text hroute hfit
      obtain ⟨o', hcall, -⟩ := hwspan.call ⟨fun _ => 0, 0⟩ (fun _ => rfl) hroute hfit
      obtain ⟨hskip, hquestion⟩ := h.along _ _ _ hcall
      exact ⟨hroute.skip.2 hskip, hskip.question_iff.mp hquestion⟩
    · intro ls hown hs
      obtain ⟨size, o', hcall⟩ := ((h.refuse ls hown hs).2 ⟨fun _ => 0, 0⟩).1
      obtain ⟨used, text, hroute, hfit⟩ := hwspan.route_of_call (fun _ => rfl) hcall
      obtain ⟨ls', rest, hown', rfl, hlow, hend⟩ := hroute.own
      -- the labels of the route are those in front of the reserved byte
      have hsame : ls' = ls := by
        rcases hend with ⟨hs', -, -⟩ | ⟨hs', -, -⟩ | ⟨dest, hs', -⟩
        · exact hown'.unique hown hs' hs (by simp) (by simp)
        · exact hown'.unique hown hs' hs (by simp) (by simp)
        · exact hown'.unique hown hs' hs (by simp) (by simp)
      subst hsame
      rw [List.length_append, length_spelled] at hfit
      exact ⟨by omega, hlow⟩
  · rintro ⟨hnear, hfits⟩
    constructor
    · intro o size o' hcall
      obtain ⟨used, text, hroute, hfit⟩ := hwspan.route_of_call (fun _ => rfl) hcall
      obtain ⟨o₂, hcall₂, -⟩ := hwspan.call o (fun _ => rfl) hroute hfit
      obtain ⟨-, rfl, -⟩ := hcall.unique hcall₂
      obtain ⟨hn, hroom⟩ := hnear size text hroute hfit
      have hskip := hroute.skip.1 hn
      exact ⟨hskip, hskip.question_iff.mpr hroom⟩
    · intro ls hown hs
      obtain ⟨hlen, hlow⟩ := hfits ls hown hs
      have hroute := hown.route hlow (Route.reserved hs)
      rw [List.append_nil] at hroute
      rw [← length_spelled] at hlen
      refine ⟨(skip_of_sign hown hs).2.1 rfl, fun o => ⟨?_, ?_⟩⟩
      · obtain ⟨o', hcall, -⟩ := hwspan.call o (fun _ => rfl) hroute hlen
        exact ⟨_, _, hcall⟩
      · obtain ⟨o', hcall, -⟩ := hwptr.call o trivial hroute hlen
        exact ⟨_, _, hcall⟩

/-- A message of 256 bytes, the name `a.` behind them, and a question whose name is a pointer to it. -/
def farMessage : Bytes := List.replicate 256 0 ++ [1, 97, 0] ++ [0xc1, 0, 0, 1, 0, 1]

set_option maxRecDepth 8000 in
/-- **The pointer `c1 00`**, which `decompress` follows and `skip_dn` refuses. -/
theorem skip_refuses_far_pointer : ¬ ∀ msg debug start, SkipsAlike msg debug start := by
  intro h
  have hcall : ∃ o', Call (spanBody farMessage false 259) 259 ⟨fun _ => 0, 0⟩ none 2 o' := by
    have hname : Route farMessage false .head 256 0 [97, 46] none := by
      have hlabel : sign farMessage .head 256 = some (.label [97]) := by decide
      exact Route.label hlabel (by decide) (Route.finish (by decide))
    have hpointer : sign farMessage .own 259 = some (.pointer 256) := by decide
    have hroute : Route farMessage false .own 259 2 [97, 46] none := Route.pointer hpointer hname
    obtain ⟨o', hcall, -⟩ := (walks_spanBody farMessage false 259).call ⟨fun _ => 0, 0⟩ (fun _ => rfl) hroute (by decide)
    exact ⟨o', hcall⟩
  obtain ⟨o', hcall⟩ := hcall
  have hskip : SkipDn farMessage 259 (.error .illegalByteSequence) := .stop (by decide)
  cases ((h farMessage false 259).along _ _ _ hcall).1.unique hskip

end NetCpp.Dns
