/-
# NetCpp.Dns.Abandoned — what a `prepare` leaves for the next one.

`src/net/dns/utils.cpp`.  `prepare` is meant to be called and, when its size does not suit, called again with another
name.  But the best match stays in the object and is the START of the next search, and the root, for which `prepare`
returns before it looks at the object, is written as whatever name was prepared before.

`Forgotten` says when none of it shows: it compares what the recorded names answer to the two names.
-/
import NetCpp.Dns.Calls

namespace NetCpp.Dns

open NetCpp.Lib Answer

variable {mem dst a b : Bytes} {debug : Bool} {fuel pos : Nat} {c d c1 : DnCompressor}

/-! ## §1 — all but the table. -/

/-- The object without the table of label lengths, which every search overwrites. -/
def DnCompressor.bare (c : DnCompressor) : DnCompressor := { c with lens := [] }

/-- All that the table is not. -/
theorem bare_inj (h : d.bare = c.bare) :
    d.src = c.src ∧ d.dnptrs = c.dnptrs ∧ d.suffixLen = c.suffixLen ∧ d.suffixOff = c.suffixOff := by
  simpa [DnCompressor.bare] using h

/-- What `compress` returns, the table aside. -/
def bared (r : DnCompressor × Bytes × Nat) : DnCompressor × Bytes × Nat := (r.1.bare, r.2)

theorem bind_map_congr {α β γ : Type} {x : Except Fault α} {f g : α → Except Fault β} {k : β → γ}
    (h : ∀ y, (f y).map k = (g y).map k) : (x.bind f).map k = (x.bind g).map k := by
  cases x with
  | error e => rfl
  | ok y => exact h y

theorem finish_lens (lens : List UInt8) (dst : Bytes) (i : Nat) :
    (({ c with lens := lens } : DnCompressor).finish debug pos dst i).map bared =
      (c.finish debug pos dst i).map bared := by
  rw [DnCompressor.finish, DnCompressor.finish]
  apply bind_map_congr
  rintro ⟨dst, i⟩
  apply bind_map_congr
  intro dst
  by_cases h2 : i + 1 > 2
  · rw [if_pos h2, if_pos h2, DnCompressor.addDnptr, DnCompressor.addDnptr]
    by_cases hcap : c.dnptrs.length < dnptrsMax
    · rw [if_pos hcap, if_pos hcap]
      rfl
    · rw [if_neg hcap, if_neg hcap]
  · rw [if_neg h2, if_neg h2]
    rfl

/-- The length bytes come from the entries of the labels. -/
theorem writeLens_congr {lens lens' : List UInt8} {ls : List Bytes} {stop : Nat} (htab : Tabled lens ls)
    (htab' : Tabled lens' ls) (hle : ∀ l ∈ ls, l.length ≤ labelLimit) (hstop : stop ≤ wireLen ls) (fuel j : Nat)
    (dst : Bytes) :
    writeLens lens stop fuel j (wireLen (ls.take j)) dst = writeLens lens' stop fuel j (wireLen (ls.take j)) dst := by
  induction fuel generalizing j dst with
  | zero => rfl
  | succ fuel ih =>
      rw [writeLens, writeLens]
      by_cases hi : wireLen (ls.take j) < stop
      · -- in front of `stop` there is a label left
        have hj : j < ls.length := by
          by_contra hge
          rw [List.take_of_length_le (Nat.le_of_not_lt hge)] at hi
          omega
        rw [if_pos hi, if_pos hi, htab' j hj, htab j hj, List.getElem?_eq_getElem hj]
        have hb := toNat_ofNat_label (hle ls[j] (List.getElem_mem hj))
        have hnext : wireLen (ls.take j) + ls[j].length + 1 = wireLen (ls.take (j + 1)) := by
          rw [List.take_succ_eq_append_getElem hj, wireLen_append, wireLen_cons, wireLen_nil]
          rfl
        simp only [Option.map_some, hb, hnext, ih]
      · rw [if_neg hi, if_neg hi]

/-- **`compress` does not show the rest of the table**, only the lengths of the labels it writes. -/
theorem compress_lens {lens : List UInt8} (htab : Tabled c.lens (labelsOf c.src)) (htab' : Tabled lens (labelsOf c.src))
    (hle : ∀ l ∈ labelsOf c.src, l.length ≤ labelLimit) (pos : Nat) (dst : Bytes) :
    (compress debug { c with lens := lens } pos dst).map bared = (compress debug c pos dst).map bared := by
  rw [compress, compress]
  by_cases hsrc : c.src = []
  · rw [if_pos hsrc, if_pos hsrc]
    cases store dst 0 0 <;> rfl
  · rw [if_neg hsrc, if_neg hsrc]
    cases hread : readN c.src 0 (sizeSub c.src.length c.suffixLen) with
    | none => rfl
    | some text =>
        have hstop : sizeSub c.src.length c.suffixLen ≤ wireLen (labelsOf c.src) := by
          obtain ⟨hfit, -, -⟩ := readN_eq_some hread
          have := length_labelsOf c.src
          omega
        apply bind_map_congr
        intro copied
        have hw := writeLens_congr htab htab' hle hstop (sizeSub c.src.length c.suffixLen) 0 copied
        rw [List.take_zero, wireLen_nil] at hw
        show ((writeLens lens _ _ 0 0 copied).bind _).map bared = _
        rw [← hw]
        apply bind_map_congr
        rintro ⟨lensed, i⟩
        exact finish_lens lens lensed i

/-! ## §2 — the answer of `prepare`. -/

/-- What the best match makes of the answer; none when the search was refused. -/
def announced (src : Bytes) : Option (Nat × Nat) → Except Errc Nat
  | none => .error .illegalByteSequence
  | some best => .ok (encodedSize src best.1)

/-- **What `prepare` returns for a name that is looked up** is read off the ending of the scan. -/
theorem result_of_sought (hlen : c.lens.length = 127) (hb : Sought b) :
    (prepare mem debug fuel c b).map (·.map Prod.snd) =
      (Lib.ending (undotted b).length (answers mem debug fuel c.dnptrs (undotted b)) (c.suffixLen, c.suffixOff)).map
        (·.map (announced (undotted b))) := by
  obtain ⟨hroot, hle, hshort, hfew⟩ := hb
  rcases prepare_cases hlen mem debug fuel b with ⟨hbad, -⟩ | ⟨rfl, -⟩ |
    ⟨-, -, ⟨hlong, -⟩ | ⟨-, hmany, -⟩ | ⟨-, -, lens, -, htab, -, hp⟩⟩
  · rcases hbad with rfl | hgt
    · exact absurd rfl hroot
    · omega
  · exact absurd rfl hroot
  · exact absurd hlong hshort
  · omega
  · rw [hp, searched_eq mem debug fuel htab, Lib.ending]
    cases scan (undotted b).length (answers mem debug fuel c.dnptrs (undotted b)) (c.suffixLen, c.suffixOff) with
    | none => rfl
    | some r =>
        cases r with
        | error f => rfl
        | ok r =>
            obtain ⟨best, e⟩ := r
            cases e <;> rfl

/-- Every other name gets the same answer from every object. -/
theorem result_of_not_sought (hc : c.lens.length = 127) (hd : d.lens.length = 127) (hb : ¬ Sought b) :
    (prepare mem debug fuel d b).map (·.map Prod.snd) = (prepare mem debug fuel c b).map (·.map Prod.snd) := by
  by_cases hbad : b = [] ∨ nameLimit < b.length
  · rw [prepare, prepare, if_pos hbad, if_pos hbad]
    rfl
  by_cases hroot : b = [46]
  · subst hroot
    rfl
  have hne : undotted b ≠ [] := by
    intro h
    rcases (undotted_eq_nil_iff b).mp h with rfl | rfl
    · exact hbad (Or.inl rfl)
    · exact hroot rfl
  have hle : b.length ≤ nameLimit := by omega
  -- refused for a label, or behind the table
  have hout : ∀ {c : DnCompressor}, c.lens.length = 127 → (prepare mem debug fuel c b).map (·.map Prod.snd) =
      some (if LongLabel (undotted b) then .ok (.error .invalidArgument) else .error .write) := by
    intro c hlen
    rcases prepare_cases hlen mem debug fuel b with ⟨h, -⟩ | ⟨h, -⟩ |
      ⟨-, -, ⟨hlong, lens, -, -, hp⟩ | ⟨hlong, -, hp⟩ | ⟨hshort, hfew, -⟩⟩
    · exact absurd h hbad
    · exact absurd h hroot
    · rw [hp, if_pos hlong]
      rfl
    · rw [hp, if_neg hlong]
      rfl
    · exact absurd ⟨hne, hle, not_longLabel hshort, hfew⟩ hb
  rw [hout hc, hout hd]

/-! ## §3 — one object in the place of another. -/

/-- **The name `b` gets from `c1` what it gets from `c`**: the same answer, and when that is a value, the same bytes
from the `compress` behind it, which leaves the same object but for the table. -/
structure LastWins (mem : Bytes) (debug : Bool) (fuel : Nat) (c c1 : DnCompressor) (b : Bytes) : Prop where
  result : (prepare mem debug fuel c1 b).map (·.map Prod.snd) = (prepare mem debug fuel c b).map (·.map Prod.snd)
  written : ∀ c2 c3 n m, prepare mem debug fuel c b = some (.ok (c2, .ok n)) →
    prepare mem debug fuel c1 b = some (.ok (c3, .ok m)) →
    ∀ pos dst, (compress debug c3 pos dst).map bared = (compress debug c2 pos dst).map bared

/-- Two searches with the same ending prepare the same. -/
theorem lastWins_of_ending (hc : c.lens.length = 127) (hd : d.lens.length = 127) (hptrs : d.dnptrs = c.dnptrs)
    (hroot : b = [46] → c.src = [] ∧ d.bare = c.bare)
    (hend : Sought b → Lib.ending (undotted b).length (answers mem debug fuel c.dnptrs (undotted b)) (d.suffixLen, d.suffixOff) =
      Lib.ending (undotted b).length (answers mem debug fuel c.dnptrs (undotted b)) (c.suffixLen, c.suffixOff)) :
    LastWins mem debug fuel c d b := by
  constructor
  · by_cases hb : Sought b
    · rw [result_of_sought hc hb, result_of_sought hd hb, hptrs, hend hb]
    · exact result_of_not_sought hc hd hb
  · intro c2 c3 n m hpc hpd pos dst
    rcases prepare_ok hc hpc with ⟨-, -, hr⟩ | ⟨rfl, rfl, -⟩ | ⟨hne, hle, lens, -, -, -, ⟨-, -, hr⟩ | hsearch⟩
    · cases hr
    · -- the root: nothing is prepared, and a zero byte is written
      obtain ⟨hsrc, hbare⟩ := hroot rfl
      obtain rfl : c3 = d := by
        rw [show prepare mem debug fuel d [46] = some (.ok (d, .ok 1)) from rfl] at hpd
        cases hpd
        rfl
      have hsrc3 : c3.src = [] := by rw [(bare_inj hbare).1, hsrc]
      rw [compress, compress, if_pos hsrc, if_pos hsrc3]
      cases store dst 0 0 with
      | error f => rfl
      | ok bytes => exact congrArg (fun c => Except.ok (c, bytes, 1)) hbare
    · cases hr
    · obtain ⟨hshort, hfew, htab, best, e, hs, rfl, hr⟩ := hsearch
      have hb : Sought b := ⟨hne, hle, not_longLabel hshort, hfew⟩
      rcases prepare_ok hd hpd with ⟨-, -, hr'⟩ | ⟨rfl, -⟩ | ⟨-, -, lens', -, -, -, ⟨-, -, hr'⟩ | hsearch'⟩
      · cases hr'
      · exact absurd rfl hne
      · cases hr'
      · obtain ⟨-, -, htab', best', e', hs', rfl, hr'⟩ := hsearch'
        have hsame := hend hb
        rw [hptrs] at hs'
        rw [Lib.ending, Lib.ending, hs, hs'] at hsame
        cases e with
        | true => cases hr
        | false =>
            cases e' with
            | true => cases hr'
            | false =>
                obtain rfl : best' = best := by simpa [judge, Except.map] using hsame
                rw [hptrs]
                exact compress_lens (c := ⟨undotted b, lens, c.dnptrs, best'.1, best'.2⟩) htab htab' hshort pos dst

/-- **Objects that are the same but for the table** prepare every name alike, once nothing is prepared. -/
theorem lastWins_of_bare (hc : c.lens.length = 127) (hd : d.lens.length = 127) (hsrc : c.src = [])
    (h : d.bare = c.bare) (b : Bytes) : LastWins mem debug fuel c d b := by
  obtain ⟨-, hptrs, hlen, hoff⟩ := bare_inj h
  apply lastWins_of_ending hc hd hptrs (fun _ => ⟨hsrc, h⟩)
  intro _
  rw [hlen, hoff]

/-! ## §4 — the first name forgotten. -/

/-- **When the first name does not show.** -/
inductive Forgotten (mem : Bytes) (debug : Bool) (fuel : Nat) (c : DnCompressor) (a b : Bytes) : Prop
  /-- it was refused at once, or was the root -/
  | untouched : a = [] ∨ nameLimit < a.length ∨ a = [46] → Forgotten mem debug fuel c a b
  /-- the second one is refused, whatever the object -/
  | refused : b ≠ [46] → ¬ Sought b → Forgotten mem debug fuel c a b
  /-- it was refused for a label: the table is all that was overwritten -/
  | label : LongLabel (undotted a) → (b = [46] → c.src = []) → Forgotten mem debug fuel c a b
  /-- in front of the root: nothing was prepared before, and the search found nothing longer and was refused -/
  | root {r : Answer Fault Nat} {pre post : List (Answer Fault Nat)} : b = [46] → c.src = [] →
      answers mem debug fuel c.dnptrs (undotted a) = pre ++ r :: post → r.isFound = false →
      (∀ m x, .found m x ∈ pre → m ≤ c.suffixLen) → Forgotten mem debug fuel c a b
  /-- the matches of the second one overrule its own -/
  | search : b ≠ [46] → Overruled (undotted a).length (undotted b).length c.suffixLen
      (answers mem debug fuel c.dnptrs (undotted a)) (answers mem debug fuel c.dnptrs (undotted b)) →
      Forgotten mem debug fuel c a b

/-- A search that is over in front of no answer but a match, and found nothing longer, kept what it started from. -/
theorem scan_keeps {size : Nat} {r : Answer Fault Nat} {pre post : List (Answer Fault Nat)} {best best' : Nat × Nat}
    {e : Bool} (hr : r.isFound = false) (hpre : ∀ m x, .found m x ∈ pre → m ≤ best.1)
    (h : scan size (pre ++ r :: post) best = some (.ok (best', e))) : best' = best ∧ e = true := by
  refine ⟨?_, refused_of_unread hr (fun y hy => hpre size y hy) h⟩
  rcases best_of_scan h with rfl | ⟨hgt, hmem⟩
  · rfl
  · have hin : Answer.found best'.1 best'.2 ∈ pre := by
      have hstop : (pre ++ r :: post).takeWhile isFound <+: pre := by
        rw [List.takeWhile_append, List.takeWhile_cons, if_neg (show ¬ r.isFound = true by simp [hr])]
        split
        · rw [List.append_nil]
        · exact List.takeWhile_prefix isFound
      exact hstop.subset hmem
    exact absurd (hpre _ _ hin) (Nat.not_le.mpr hgt)

/-- **The last `prepare` wins** where the first name is forgotten, in every state the calls can reach. -/
theorem last_prepare_wins {header : Bytes} {s : Writing} {r : Except Errc Nat}
    (hs : Reachable (step debug) (start header) s) (ha : prepare s.mem debug fuel s.c a = some (.ok (c1, r)))
    (h : Forgotten s.mem debug fuel s.c a b) : LastWins s.mem debug fuel s.c c1 b := by
  have hlen := lens_of_reachable hs
  obtain ⟨hlen1, hptrs⟩ := prepare_keeps hlen ha
  by_cases hsame : c1 = s.c
  · rw [hsame]
    exact ⟨rfl, fun c2 c3 n m h2 h3 pos dst => by
      rw [h2] at h3
      cases h3
      rfl⟩
  rcases prepare_ok hlen ha with ⟨-, hc, -⟩ | ⟨-, hc, -⟩ | ⟨hne, hle, lens, -, -, -, hrest⟩
  · exact absurd hc hsame
  · exact absurd hc hsame
  have hout : ¬ (a = [] ∨ nameLimit < a.length ∨ a = [46]) := by
    rintro (rfl | hgt | rfl)
    · exact hne rfl
    · omega
    · exact hne rfl
  rcases hrest with ⟨-, rfl, -⟩ | ⟨hshort, -, -, best, e, hscan, rfl, -⟩
  · -- refused for a label
    have hb : b = [46] → s.c.src = [] := by
      cases h with
      | untouched h => exact absurd h hout
      | refused hb _ => exact fun h => absurd h hb
      | label _ hb => exact hb
      | root _ hsrc => exact fun _ => hsrc
      | search hb _ => exact fun h => absurd h hb
    exact lastWins_of_ending hlen hlen1 rfl (fun h => ⟨hb h, rfl⟩) fun _ => rfl
  · have hlong := not_longLabel hshort
    apply lastWins_of_ending hlen hlen1 rfl
    · -- in front of the root
      intro hroot
      cases h with
      | untouched h => exact absurd h hout
      | refused hb _ => exact absurd hroot hb
      | label h _ => exact absurd h hlong
      | root _ hsrc hans hr hpre =>
          rw [hans] at hscan
          obtain ⟨rfl, rfl⟩ := scan_keeps hr hpre hscan
          exact ⟨hsrc, rfl⟩
      | search hb _ => exact absurd hroot hb
    · -- in front of a name that is looked up
      intro hsought
      cases h with
      | untouched h => exact absurd h hout
      | refused _ hb => exact absurd hsought hb
      | label h _ => exact absurd h hlong
      | root hb _ => exact absurd (hb ▸ rfl) hsought.1
      | search _ hover => exact ending_overruled hscan (answers_le hsought.labels_le) hover

/-- `b` behind an abandoned `a`, of which nothing was recorded. -/
theorem last_prepare_wins_fresh :
    ∃ c1, prepare [] true 0 (start []).c [97] = some (.ok (c1, .ok 3)) ∧ LastWins [] true 0 (start []).c c1 [98] := by
  have ha : prepare [] true 0 (start []).c [97] =
      some (.ok (⟨[97], 1 :: List.replicate 126 0, [], 0, 0⟩, .ok 3)) := by decide +kernel
  have h0 : Reachable (step true) (start []) (start []) := Run.refl _
  refine ⟨_, ha, last_prepare_wins h0 ha (.search (by decide) ?_)⟩
  apply Overruled.shorter
  intro m x hm
  cases hm

/-- **A longer match shows**: behind the recorded `www.a`, the name `b` takes three bytes, and 2^64 - 2 behind an
abandoned `www.a`. -/
theorem longer_match_shows :
    ∃ s c1 r, Reachable (step true) (start (List.replicate 12 0)) s ∧
      prepare s.mem true 9 s.c [119, 119, 119, 46, 97] = some (.ok (c1, r)) ∧ ¬ LastWins s.mem true 9 s.c c1 [98] := by
  have hs : exec (step true) (start (List.replicate 12 0))
      [.prepare 9 [119, 119, 119, 46, 97], .compress (List.replicate 7 0)] =
      some ⟨List.replicate 12 0 ++ [3, 119, 119, 119, 1, 97, 0], ⟨[], 3 :: 1 :: List.replicate 125 0, [12], 0, 0⟩,
        false⟩ := by decide +kernel
  refine ⟨_, ⟨[119, 119, 119, 46, 97], 3 :: 1 :: List.replicate 125 0, [12], 5, 12⟩, .ok 2, reachable_of_exec hs,
    by decide +kernel, ?_⟩
  intro h
  have hres := h.result
  revert hres
  decide +kernel

end NetCpp.Dns
