/-
# NetCpp.Lib.Scan — the first longest match among a list of answers.

A table is gone through entry by entry, and each gives an answer: a match of some length, which is kept when it is
LONGER than the best so far; nothing, which refuses the whole; a fault; or no answer at all.  A match of full length
`size` ends the scan.

The scan starts from a best that may be left over from another one.  `ending_overruled` says when that does not
show: `Overruled` compares the answers of the two scans, not their results.
-/
import Mathlib

namespace NetCpp.Lib

variable {ε β : Type*}

/-- What one entry answers. -/
inductive Answer (ε β : Type*)
  | pending
  | fault (e : ε)
  | refused
  | found (m : Nat) (x : β)

namespace Answer

def isFound : Answer ε β → Bool
  | found _ _ => true
  | pending | fault _ | refused => false

theorem eq_found {r : Answer ε β} (h : r.isFound = true) : ∃ m x, r = found m x := by
  cases r with
  | found m x => exact ⟨m, x, rfl⟩
  | pending => cases h
  | fault e => cases h
  | refused => cases h

end Answer

open Answer

/-- The scan: the best and whether it was refused; `none` without an answer. -/
def scan (size : Nat) : List (Answer ε β) → Nat × β → Option (Except ε ((Nat × β) × Bool))
  | [], best => some (.ok (best, false))
  | .pending :: _, _ => none
  | .fault e :: _, _ => some (.error e)
  | .refused :: _, best => some (.ok (best, true))
  | .found m x :: rest, best =>
      if best.1 < m then
        if m = size then some (.ok ((m, x), false)) else scan size rest (m, x)
      else scan size rest best

/-- The best, unless it was refused. -/
def judge (r : (Nat × β) × Bool) : Option (Nat × β) := if r.2 then none else some r.1

/-- How a scan ends. -/
def ending (size : Nat) (rs : List (Answer ε β)) (best : Nat × β) : Option (Except ε (Option (Nat × β))) :=
  (scan size rs best).map (·.map judge)

variable {size m : Nat} {x : β} {rs pre post : List (Answer ε β)} {b b1 b2 : Nat × β} {r : Answer ε β}

theorem scan_longer (h : b.1 < m) (hm : m ≠ size) : scan size (.found m x :: rs) b = scan size rs (m, x) := by
  rw [scan, if_pos h, if_neg hm]

theorem scan_full (h : b.1 < size) : scan size (.found size x :: rs) b = some (.ok ((size, x), false)) := by
  rw [scan, if_pos h, if_pos rfl]

theorem scan_shorter (h : m ≤ b.1) : scan size (.found m x :: rs) b = scan size rs b := by
  rw [scan, if_neg (Nat.not_lt.mpr h)]

/-- An answer that is no match ends the scan, whatever the best. -/
theorem ending_not_found (h : r.isFound = false) (b1 b2 : Nat × β) :
    ending size (r :: rs) b1 = ending size (r :: rs) b2 := by
  cases r with
  | found m x => cases h
  | pending => rfl
  | fault e => rfl
  | refused => rfl

/-! ## Two starts. -/

/-- **A match longer than both starts** makes them the same. -/
theorem ending_of_longer (hsize : ∀ m x, .found m x ∈ rs → m ≤ size)
    (h : ∃ m x, .found m x ∈ rs ∧ b1.1 < m ∧ b2.1 < m) : ending size rs b1 = ending size rs b2 := by
  induction rs generalizing b1 b2 with
  | nil => simp at h
  | cons r rs ih =>
      cases hr : r.isFound with
      | false => exact ending_not_found hr b1 b2
      | true =>
          obtain ⟨n, y, rfl⟩ := eq_found hr
          have hsize' : ∀ m x, .found m x ∈ rs → m ≤ size := fun m x hm => hsize m x (by simp [hm])
          by_cases hboth : b1.1 < n ∧ b2.1 < n
          · rw [ending, ending, scan, if_pos hboth.1, scan, if_pos hboth.2]
          · -- the longer match is further on
            obtain ⟨m, x, hmem, h1, h2⟩ := h
            rw [List.mem_cons] at hmem
            have hrest : .found m x ∈ rs := by
              rcases hmem with heq | hmem
              · obtain ⟨rfl, rfl⟩ : m = n ∧ x = y := by simpa using heq
                exact absurd ⟨h1, h2⟩ hboth
              · exact hmem
            have hm := hsize' m x hrest
            have hstep : ∀ b : Nat × β, b.1 < m → (b1.1 ≥ n ∨ b2.1 ≥ n) →
                ∃ b' : Nat × β, b'.1 < m ∧ ending size (.found n y :: rs) b = ending size rs b' := by
              intro b hb hge
              by_cases hlt : b.1 < n
              · have hn : n < m := by omega
                exact ⟨(n, y), hn, by rw [ending, scan_longer hlt (by omega), ending]⟩
              · exact ⟨b, hb, by rw [ending, scan_shorter (by omega), ending]⟩
            obtain ⟨b1', h1', he1⟩ := hstep b1 h1 (by omega)
            obtain ⟨b2', h2', he2⟩ := hstep b2 h2 (by omega)
            rw [he1, he2]
            exact ih hsize' ⟨m, x, hrest, h1', h2'⟩

/-- **A start that is the first longest match itself** does not show. -/
theorem ending_of_same (hpre : ∀ n y, .found n y ∈ pre → n < m) (hb : b.1 < m)
    (hsize : ∀ n y, .found n y ∈ pre ++ .found m x :: post → n ≤ size)
    (hpost : m = size → ∀ r ∈ post, r.isFound = true) :
    ending size (pre ++ .found m x :: post) b = ending size (pre ++ .found m x :: post) (m, x) := by
  induction pre generalizing b with
  | nil =>
      rw [List.nil_append, ending, ending, scan_shorter (b := (m, x)) (le_refl m)]
      by_cases hm : m = size
      · -- the scan from `b` is over, the other one finds nothing longer
        subst hm
        have hall : ∀ rest : List (Answer ε β), (∀ r ∈ rest, r.isFound = true) →
            (∀ n y, .found n y ∈ rest → n ≤ m) → scan m rest (m, x) = some (.ok ((m, x), false)) := by
          intro rest
          induction rest with
          | nil => exact fun _ _ => rfl
          | cons r rest ih =>
              intro hfound hle
              obtain ⟨n, y, rfl⟩ := eq_found (hfound r (by simp))
              rw [scan_shorter (hle n y (by simp))]
              exact ih (fun r hr => hfound r (by simp [hr])) fun n y hn => hle n y (by simp [hn])
        rw [scan_full hb, hall post (hpost rfl) fun n y hn => hsize n y (by simp [hn])]
      · rw [scan_longer hb hm]
  | cons r pre ih =>
      have hpre' : ∀ n y, .found n y ∈ pre → n < m := fun n y hn => hpre n y (by simp [hn])
      have hsize' : ∀ n y, .found n y ∈ pre ++ .found m x :: post → n ≤ size := by
        intro n y hn
        exact hsize n y (by rw [List.cons_append]; exact List.mem_cons_of_mem _ hn)
      rw [List.cons_append]
      cases hr : r.isFound with
      | false => exact ending_not_found hr _ _
      | true =>
          obtain ⟨n, y, rfl⟩ := eq_found hr
          have hn := hpre n y (by simp)
          have hm : m ≤ size := hsize' m x (by simp)
          rw [ending, ending, scan_shorter (b := (m, x)) (Nat.le_of_lt hn), ← ending, ← ending]
          by_cases hlt : b.1 < n
          · rw [ending, scan_longer hlt (by omega), ← ending]
            exact ih hpre' hn hsize'
          · rw [ending, scan_shorter (by omega), ← ending]
            exact ih hpre' hb hsize'

/-- **An answer that is no match**, reached from the lower start, is reached from the higher one. -/
theorem ending_of_unread (hr : r.isFound = false) (hpre : ∀ y, .found size y ∈ pre → size ≤ b1.1) (hle : b1.1 ≤ b2.1) :
    ending size (pre ++ r :: post) b1 = ending size (pre ++ r :: post) b2 := by
  induction pre generalizing b1 b2 with
  | nil => exact ending_not_found hr b1 b2
  | cons q pre ih =>
      rw [List.cons_append]
      cases hq : q.isFound with
      | false => exact ending_not_found hq b1 b2
      | true =>
          obtain ⟨n, y, rfl⟩ := eq_found hq
          have hn : n = size → size ≤ b1.1 := by
            rintro rfl
            exact hpre y (by simp)
          have hstep : ∀ b : Nat × β, b1.1 ≤ b.1 → ∃ b' : Nat × β, b'.1 = max b.1 n ∧
              ending size (.found n y :: (pre ++ r :: post)) b = ending size (pre ++ r :: post) b' := by
            intro b hb
            by_cases hlt : b.1 < n
            · exact ⟨(n, y), by show n = _; omega, by rw [ending, scan_longer hlt (by omega), ending]⟩
            · exact ⟨b, by omega, by rw [ending, scan_shorter (by omega), ending]⟩
          obtain ⟨b1', h1, he1⟩ := hstep b1 le_rfl
          obtain ⟨b2', h2, he2⟩ := hstep b2 hle
          rw [he1, he2]
          apply ih
          · intro z hz
            have := hpre z (by simp [hz])
            omega
          · omega

/-! ## What a scan leaves. -/

variable {b' : Nat × β} {e : Bool}

/-- The best is the start or a longer match. -/
theorem best_of_scan (h : scan size rs b = some (.ok (b', e))) :
    b' = b ∨ b.1 < b'.1 ∧ .found b'.1 b'.2 ∈ rs.takeWhile isFound := by
  induction rs generalizing b with
  | nil =>
      obtain ⟨rfl, -⟩ : b = b' ∧ false = e := by simpa [scan] using h
      exact Or.inl rfl
  | cons r rs ih =>
      cases r with
      | pending => cases h
      | fault f => cases h
      | refused =>
          obtain ⟨rfl, -⟩ : b = b' ∧ true = e := by simpa [scan] using h
          exact Or.inl rfl
      | found n y =>
          have hin : ∀ {z : Answer ε β}, z = .found n y ∨ z ∈ rs.takeWhile isFound →
              z ∈ (Answer.found n y :: rs).takeWhile isFound := by
            intro z hz
            rw [List.takeWhile_cons, if_pos (show (Answer.found n y : Answer ε β).isFound = true from rfl), List.mem_cons]
            exact hz
          by_cases hlt : b.1 < n
          · right
            by_cases hn : n = size
            · rw [scan, if_pos hlt, if_pos hn] at h
              obtain ⟨rfl, -⟩ : (n, y) = b' ∧ false = e := by simpa using h
              exact ⟨hlt, hin (Or.inl rfl)⟩
            · rw [scan_longer hlt hn] at h
              rcases ih h with rfl | ⟨hgt, hmem⟩
              · exact ⟨hlt, hin (Or.inl rfl)⟩
              · exact ⟨hlt.trans hgt, hin (Or.inr hmem)⟩
          · rw [scan_shorter (Nat.le_of_not_lt hlt)] at h
            rcases ih h with rfl | ⟨hgt, hmem⟩
            · exact Or.inl rfl
            · exact Or.inr ⟨hgt, hin (Or.inr hmem)⟩

/-- **The first longest match** is what a scan leaves. -/
theorem best_of_first (hpre : ∀ r ∈ pre, ∃ n y, r = .found n y ∧ n < m) (hb : b.1 < m) (hm : m ≤ size)
    (hpost : ∀ n y, .found n y ∈ post.takeWhile isFound → n ≤ m)
    (h : scan size (pre ++ .found m x :: post) b = some (.ok (b', e))) : b' = (m, x) := by
  induction pre generalizing b with
  | nil =>
      rw [List.nil_append] at h
      by_cases hms : m = size
      · rw [scan, if_pos hb, if_pos hms] at h
        obtain ⟨rfl, -⟩ : (m, x) = b' ∧ false = e := by simpa using h
        rfl
      · rw [scan_longer hb hms] at h
        rcases best_of_scan h with rfl | ⟨hgt, hmem⟩
        · rfl
        · exact absurd (hpost _ _ hmem) (Nat.not_le.mpr hgt)
  | cons r pre ih =>
      obtain ⟨n, y, rfl, hn⟩ := hpre r (by simp)
      have hpre' : ∀ r ∈ pre, ∃ n y, r = .found n y ∧ n < m := fun r hr => hpre r (by simp [hr])
      rw [List.cons_append] at h
      by_cases hlt : b.1 < n
      · rw [scan_longer hlt (by omega)] at h
        exact ih hpre' hn h
      · rw [scan_shorter (by omega)] at h
        exact ih hpre' hb h

/-- A scan that is over in front of no answer but a match was refused. -/
theorem refused_of_unread (hr : r.isFound = false) (hpre : ∀ y, .found size y ∈ pre → size ≤ b.1)
    (h : scan size (pre ++ r :: post) b = some (.ok (b', e))) : e = true := by
  induction pre generalizing b with
  | nil =>
      cases r with
      | found m x => cases hr
      | pending => cases h
      | fault f => cases h
      | refused =>
          obtain ⟨-, rfl⟩ : b = b' ∧ true = e := by simpa [scan] using h
          rfl
  | cons q pre ih =>
      rw [List.cons_append] at h
      cases q with
      | pending => cases h
      | fault f => cases h
      | refused =>
          obtain ⟨-, rfl⟩ : b = b' ∧ true = e := by simpa [scan] using h
          rfl
      | found n y =>
          have hn : n = size → size ≤ b.1 := by
            rintro rfl
            exact hpre y (by simp)
          have hpre' : ∀ z, .found size z ∈ pre → size ≤ b.1 := fun z hz => hpre z (by simp [hz])
          by_cases hlt : b.1 < n
          · rw [scan_longer hlt (by omega)] at h
            exact ih (fun z hz => (hpre' z hz).trans (Nat.le_of_lt hlt)) h
          · rw [scan_shorter (by omega)] at h
            exact ih hpre' h

/-- **What holds of every answer the scan gets to** holds of the fault it ends with and of the best it leaves. It gets
to an answer behind matches only, none of which is of full length and longer than the start. -/
theorem scan_of_reached {P : Answer ε β → Prop} (hsize : ∀ m x, .found m x ∈ rs → m ≤ size)
    (hP : ∀ pre r post, rs = pre ++ r :: post → (∀ q ∈ pre, q.isFound = true) →
      (b.1 < size → ∀ x, .found size x ∉ pre) → P r) :
    (∀ f, scan size rs b = some (.error f) → P (.fault f)) ∧
      ∀ b' e, scan size rs b = some (.ok (b', e)) → b' = b ∨ b.1 < b'.1 ∧ P (.found b'.1 b'.2) := by
  induction rs generalizing b with
  | nil =>
      refine ⟨fun f h => (by cases h), fun b' e h => ?_⟩
      obtain ⟨rfl, -⟩ : b = b' ∧ false = e := by simpa [scan] using h
      exact Or.inl rfl
  | cons r rs ih =>
      have hr : P r := hP [] r rs rfl (by simp) fun _ x => List.not_mem_nil
      cases r with
      | pending => exact ⟨fun f h => (by cases h), fun b' e h => (by cases h)⟩
      | fault g =>
          refine ⟨fun f h => ?_, fun b' e h => (by cases h)⟩
          obtain rfl : g = f := by simpa [scan] using h
          exact hr
      | refused =>
          refine ⟨fun f h => (by cases h), fun b' e h => ?_⟩
          obtain ⟨rfl, -⟩ : b = b' ∧ true = e := by simpa [scan] using h
          exact Or.inl rfl
      | found n y =>
          have hn : n ≤ size := hsize n y (by simp)
          have hsize' : ∀ m x, .found m x ∈ rs → m ≤ size := fun m x hm => hsize m x (by simp [hm])
          have hrest : ∀ c : Nat × β, (b.1 < size → n = size → ¬ b.1 < n) → (b.1 < size → c.1 < size) →
              ∀ pre r post, rs = pre ++ r :: post → (∀ q ∈ pre, q.isFound = true) →
                (c.1 < size → ∀ x, .found size x ∉ pre) → P r := by
            intro c hfull hc pre r post heq hfound hpre
            apply hP (.found n y :: pre) r post (by rw [heq, List.cons_append])
            · intro q hq
              rcases List.mem_cons.mp hq with rfl | hq
              · rfl
              · exact hfound q hq
            intro hb x hx
            rcases List.mem_cons.mp hx with hx | hx
            · obtain ⟨rfl, rfl⟩ : size = n ∧ x = y := by simpa using hx
              exact hfull hb rfl hb
            · exact hpre (hc hb) x hx
          by_cases hlt : b.1 < n
          · by_cases hfull : n = size
            · subst hfull
              rw [scan_full hlt]
              refine ⟨fun f h => (by cases h), fun b' e h => ?_⟩
              obtain ⟨rfl, -⟩ : (n, y) = b' ∧ false = e := by simpa using h
              exact Or.inr ⟨hlt, hr⟩
            · rw [scan_longer hlt hfull]
              obtain ⟨hfault, hbest⟩ := ih hsize' (hrest (n, y) (fun _ h => absurd h hfull)
                fun _ => lt_of_le_of_ne hn hfull)
              refine ⟨hfault, fun b' e h => Or.inr ?_⟩
              rcases hbest b' e h with rfl | ⟨hgt, hp⟩
              · exact ⟨hlt, hr⟩
              · exact ⟨hlt.trans hgt, hp⟩
          · rw [scan_shorter (Nat.le_of_not_lt hlt)]
            exact ih hsize' (hrest b (fun _ _ => hlt) id)

/-! ## A scan behind another one. -/

/-- **What the scan of `as` leaves does not show** in the scan of `bs`, which would have started with length `L`. -/
inductive Overruled (sizeA size L : Nat) (as bs : List (Answer ε β)) : Prop
  /-- nothing is left -/
  | shorter : (∀ m x, .found m x ∈ as.takeWhile isFound → m ≤ L) → Overruled sizeA size L as bs
  | longer {m : Nat} {x : β} : .found m x ∈ bs → (∀ n y, .found n y ∈ as.takeWhile isFound → n < m) →
      Overruled sizeA size L as bs
  /-- the first longest match of both -/
  | same {m : Nat} {x : β} {preA postA preB postB : List (Answer ε β)} :
      as = preA ++ .found m x :: postA → bs = preB ++ .found m x :: postB → L < m → m ≤ sizeA →
      (∀ r ∈ preA, ∃ n y, r = .found n y ∧ n < m) → (∀ n y, .found n y ∈ postA.takeWhile isFound → n ≤ m) →
      (∀ n y, .found n y ∈ preB → n < m) → (m = size → ∀ r ∈ postB, r.isFound = true) →
      Overruled sizeA size L as bs
  /-- the scan of `bs` does not get through -/
  | unread {r : Answer ε β} {pre post : List (Answer ε β)} : bs = pre ++ r :: post → r.isFound = false →
      (∀ y, .found size y ∈ pre → size ≤ L) → Overruled sizeA size L as bs

/-- **A scan that is overruled** leaves the ending of the next one as it was. -/
theorem ending_overruled {sizeA : Nat} {as bs : List (Answer ε β)} (ha : scan sizeA as b = some (.ok (b', e)))
    (hbs : ∀ m x, .found m x ∈ bs → m ≤ size) (h : Overruled sizeA size b.1 as bs) :
    ending size bs b' = ending size bs b := by
  have hbest := best_of_scan ha
  cases h with
  | shorter h =>
      rcases hbest with rfl | ⟨hgt, hmem⟩
      · rfl
      · exact absurd (h _ _ hmem) (Nat.not_le.mpr hgt)
  | @longer m x hm h =>
      rcases hbest with rfl | ⟨hgt, hmem⟩
      · rfl
      · have hlt := h _ _ hmem
        exact ending_of_longer hbs ⟨m, x, hm, hlt, hgt.trans hlt⟩
  | @same m x preA postA preB postB hA hB hL hmA hpreA hpostA hpreB hpostB =>
      subst hA hB
      obtain rfl := best_of_first hpreA hL hmA hpostA ha
      exact (ending_of_same hpreB hL hbs hpostB).symm
  | @unread r pre post hB hr hpre =>
      subst hB
      apply (ending_of_unread hr hpre _).symm
      rcases hbest with rfl | ⟨hgt, -⟩
      · exact le_rfl
      · exact Nat.le_of_lt hgt

end NetCpp.Lib
