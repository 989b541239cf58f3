/-
# NetCpp.Lib.Regex — regular expressions with captures, matched by backtracking.

`run` is the matcher of the ECMAScript grammar that `std::regex` uses by default: alternatives are tried in
order, `star` and `opt` are GREEDY, an iteration of `star` that consumes nothing is refused, and the first way
that lets the rest match wins.  A matcher takes the position, what is left of the input, the captures so far
and a continuation.  The captures of `groups` are pairs of positions.

Completeness is by rules that say when the greedy way is the one found; an expression without captures inside a
`star` needs no others.  Soundness is once for all: what a match consumes is in the `lang`uage of the expression.
-/
import Mathlib

namespace NetCpp.Lib

variable {α β : Type*}

/-- The captures: begin and end of a group that took part in the match. -/
abbrev Caps := Nat → Option (Nat × Nat)

/-- `caps` with group `n` at `s`. -/
def Caps.set (n : Nat) (s : Nat × Nat) (caps : Caps) : Caps := fun i => if i = n then some s else caps i

@[simp] theorem Caps.set_self (n : Nat) (s : Nat × Nat) (caps : Caps) : Caps.set n s caps n = some s := if_pos rfl

@[simp] theorem Caps.set_of_ne {n i : Nat} (h : i ≠ n) (s : Nat × Nat) (caps : Caps) :
    Caps.set n s caps i = caps i := if_neg h

/-- The captures of the groups behind the first `d`. -/
def Caps.behind (d : Nat) (caps : Caps) : Caps := fun i => caps (i + d)

inductive Re (α : Type*)
  | bol
  | cls (p : α → Bool)
  | seq (r s : Re α)
  | alt (r s : Re α)
  | opt (r : Re α)
  | star (r : Re α)
  | group (n : Nat) (r : Re α)

namespace Re

/-- A matcher with a continuation for what follows. -/
abbrev Matcher (α β : Type*) := Nat → List α → Caps → (Nat → List α → Caps → Option β) → Option β

/-- At most `n` iterations of `m`, as many as let the rest match. -/
def iterate (m : Matcher α β) : Nat → Matcher α β
  | 0, pos, rest, caps, k => k pos rest caps
  | n + 1, pos, rest, caps, k =>
      (m pos rest caps fun pos' rest' caps' =>
        if rest'.length < rest.length then iterate m n pos' rest' caps' k else none).or (k pos rest caps)

def run : Re α → Matcher α β
  | .bol, pos, rest, caps, k => if pos = 0 then k pos rest caps else none
  | .cls p, pos, b :: rest, caps, k => if p b then k (pos + 1) rest caps else none
  | .cls _, _, [], _, _ => none
  | .seq r s, pos, rest, caps, k => r.run pos rest caps fun pos' rest' caps' => s.run pos' rest' caps' k
  | .alt r s, pos, rest, caps, k => (r.run pos rest caps k).or (s.run pos rest caps k)
  | .opt r, pos, rest, caps, k => (r.run pos rest caps k).or (k pos rest caps)
  | .star r, pos, rest, caps, k => iterate (run r) rest.length pos rest caps k
  | .group n r, pos, rest, caps, k =>
      r.run pos rest caps fun pos' rest' caps' => k pos' rest' fun i => if i = n then some (pos, pos') else caps' i

/-- `std::regex_match`: the whole input. -/
def fullMatch (r : Re α) (s : List α) : Option Caps :=
  r.run 0 s (fun _ => none) fun _ rest caps => if rest = [] then some caps else none

variable {m : Matcher α β} {k : Nat → List α → Caps → Option β} {pos : Nat} {rest : List α} {caps : Caps} {r : β}

/-- **The greedy way**: an iteration that the rest of the match accepts is taken. -/
theorem iterate_step {n pos' : Nat} {rest' : List α} {caps' : Caps} (hlt : rest'.length < rest.length)
    (hm : ∀ k', k' pos' rest' caps' = some r → m pos rest caps k' = some r)
    (h : iterate m n pos' rest' caps' k = some r) : iterate m (n + 1) pos rest caps k = some r := by
  rw [iterate, hm _ (by rw [if_pos hlt]; exact h), Option.some_or]

/-- When no iteration is possible, what follows is tried. -/
theorem iterate_stop (n : Nat) (hm : ∀ k', m pos rest caps k' = none) (h : k pos rest caps = some r) :
    iterate m n pos rest caps k = some r := by
  cases n with
  | zero => exact h
  | succ n => rw [iterate, hm, Option.none_or, h]

/-- **A starred class takes the whole run** of elements in it, when what follows then matches. -/
theorem run_star_cls {p : α → Bool} (t : List α) (ht : ∀ b ∈ t, p b = true) (hrest : ∀ b ∈ rest.head?, p b = false)
    (h : k (pos + t.length) rest caps = some r) : (star (cls p)).run pos (t ++ rest) caps k = some r := by
  have hgo : ∀ n, t.length ≤ n → iterate (run (cls p)) n pos (t ++ rest) caps k = some r := by
    induction t generalizing pos with
    | nil =>
        intro n _
        apply iterate_stop n _ h
        intro k'
        cases rest with
        | nil => rfl
        | cons b rest => simp [run, hrest b (by simp)]
    | cons b t ih =>
        intro n hn
        obtain ⟨n, rfl⟩ : ∃ j, n = j + 1 := ⟨n - 1, by simp at hn; omega⟩
        have hlen : (t ++ rest).length < (b :: t ++ rest).length := by simp
        have hrest' : iterate (run (cls p)) n (pos + 1) (t ++ rest) caps k = some r := by
          apply ih (fun c hc => ht c (by simp [hc]))
          · rw [show pos + 1 + t.length = pos + (b :: t).length by simp; omega]; exact h
          · simpa using hn
        exact iterate_step hlen (fun k' hk' => by simpa [run, ht b (by simp)] using hk') hrest'
  exact hgo _ (by simp)

theorem run_group (n : Nat) (e : Re α) :
    (group n e).run pos rest caps k =
      e.run pos rest caps fun pos' rest' caps' => k pos' rest' (Caps.set n (pos, pos') caps') := rfl

theorem run_seq (e f : Re α) :
    (seq e f).run pos rest caps k = e.run pos rest caps fun pos' rest' caps' => f.run pos' rest' caps' k := rfl

/-- One element of a class. -/
theorem run_cls_cons {p : α → Bool} {b : α} (hb : p b = true) (h : k (pos + 1) rest caps = some r) :
    (cls p).run pos (b :: rest) caps k = some r := by
  rw [run, if_pos hb]
  exact h

theorem run_opt_some {e : Re α} (h : e.run pos rest caps k = some r) : (opt e).run pos rest caps k = some r := by
  rw [run, h, Option.some_or]

theorem run_opt_none {e : Re α} (he : e.run pos rest caps k = none) (h : k pos rest caps = some r) :
    (opt e).run pos rest caps k = some r := by
  rw [run, he, Option.none_or, h]

/-! ## The language of an expression. -/

/-- The texts an expression consumes. -/
def lang : Re α → Language α
  | .bol => 1
  | .cls p => {t | ∃ b, p b = true ∧ t = [b]}
  | .seq r s => r.lang * s.lang
  | .alt r s => r.lang + s.lang
  | .opt r => 1 + r.lang
  | .star r => KStar.kstar r.lang
  | .group _ r => r.lang

/-- A matcher that consumes only texts of `L` before it asks what follows. -/
def Consumes (m : Matcher α β) (L : Language α) : Prop :=
  ∀ ⦃pos rest caps k x⦄, m pos rest caps k = some x →
    ∃ t u caps', rest = t ++ u ∧ t ∈ L ∧ k (pos + t.length) u caps' = some x

/-- A group of `caps'` is one of `caps`, or lies between `lo` and `hi`. -/
def Captured (lo hi : Nat) (caps caps' : Caps) : Prop :=
  ∀ n s, caps' n = some s → caps n = some s ∨ lo ≤ s.1 ∧ s.1 ≤ s.2 ∧ s.2 ≤ hi

theorem Captured.refl (lo hi : Nat) (caps : Caps) : Captured lo hi caps caps := fun _ _ h => Or.inl h

theorem Captured.trans {lo mid hi : Nat} {a b c : Caps} (hlo : lo ≤ mid) (hhi : mid ≤ hi) (hab : Captured lo mid a b)
    (hbc : Captured mid hi b c) : Captured lo hi a c := by
  intro n s h
  rcases hbc n s h with h | ⟨h1, h2, h3⟩
  · rcases hab n s h with h | ⟨h1, h2, h3⟩
    · exact Or.inl h
    · exact Or.inr ⟨h1, h2, h3.trans hhi⟩
  · exact Or.inr ⟨hlo.trans h1, h2, h3⟩

/-- A matcher that moreover captures only parts of what it consumes. -/
def Reads (m : Matcher α β) (L : Language α) : Prop :=
  ∀ ⦃pos rest caps k x⦄, m pos rest caps k = some x →
    ∃ t u caps', rest = t ++ u ∧ t ∈ L ∧ Captured pos (pos + t.length) caps caps' ∧
      k (pos + t.length) u caps' = some x

theorem Reads.consumes {L : Language α} (hm : Reads m L) : Consumes m L := by
  intro pos rest caps k x h
  obtain ⟨t, u, caps', hr, ht, -, h⟩ := hm h
  exact ⟨t, u, caps', hr, ht, h⟩

/-- Two matchers, the second on what the first leaves. -/
theorem Reads.seq {m' : Matcher α β} {L L' : Language α} (hm : Reads m L) (hm' : Reads m' L') :
    Reads (fun pos rest caps k => m pos rest caps fun pos' rest' caps' => m' pos' rest' caps' k) (L * L') := by
  intro pos rest caps k x h
  obtain ⟨t, u, caps', rfl, ht, hc, h⟩ := hm h
  obtain ⟨t', u', caps'', rfl, ht', hc', h⟩ := hm' h
  have hlen : pos + (t ++ t').length = pos + t.length + t'.length := by
    rw [List.length_append]
    omega
  refine ⟨t ++ t', u', caps'', by simp, Language.append_mem_mul ht ht', ?_, ?_⟩
  · rw [hlen]
    exact hc.trans (by omega) (by omega) hc'
  · rw [hlen]
    exact h

/-- A matcher that consumes nothing. -/
theorem reads_nil {L : Language α} (hL : [] ∈ L) {pos : Nat} {rest : List α} {caps : Caps}
    {k : Nat → List α → Caps → Option β} {x : β} (h : k pos rest caps = some x) :
    ∃ t u caps', rest = t ++ u ∧ t ∈ L ∧ Captured pos (pos + t.length) caps caps' ∧ k (pos + t.length) u caps' = some x :=
  ⟨[], rest, caps, rfl, hL, .refl _ _ _, h⟩

theorem Reads.iterate {L : Language α} (hm : Reads m L) (n : Nat) : Reads (iterate m n) (KStar.kstar L) := by
  induction n with
  | zero =>
      intro pos rest caps k x h
      exact reads_nil (Language.nil_mem_kstar L) h
  | succ n ih =>
      intro pos rest caps k x h
      rw [Re.iterate, Option.or_eq_some_iff] at h
      rcases h with h | ⟨-, h⟩
      · obtain ⟨t, u, caps', rfl, ht, hc, h⟩ := hm h
        split at h
        · obtain ⟨t', u', caps'', rfl, ht', hc', h⟩ := ih h
          have hlen : pos + (t ++ t').length = pos + t.length + t'.length := by
            rw [List.length_append]
            omega
          refine ⟨t ++ t', u', caps'', by simp, ?_, ?_, ?_⟩
          · rw [← Language.one_add_self_mul_kstar_eq_kstar L]
            exact Or.inr (Language.append_mem_mul ht ht')
          · rw [hlen]
            exact hc.trans (by omega) (by omega) hc'
          · rw [hlen]
            exact h
        · cases h
      · exact reads_nil (Language.nil_mem_kstar L) h

/-- **Soundness**: an expression consumes texts of its language, and its groups are parts of them. -/
theorem run_reads (e : Re α) : Reads (e.run (β := β)) e.lang := by
  induction e with
  | bol =>
      intro pos rest caps k x h
      rw [run] at h
      split at h
      · exact reads_nil (show [] ∈ lang (bol : Re α) from rfl) h
      · cases h
  | cls p =>
      intro pos rest caps k x h
      cases rest with
      | nil => cases h
      | cons b rest =>
          rw [run] at h
          split at h
          · rename_i hb
            exact ⟨[b], rest, caps, rfl, ⟨b, hb, rfl⟩, .refl _ _ _, h⟩
          · cases h
  | seq e f ihe ihf => exact ihe.seq ihf
  | alt e f ihe ihf =>
      intro pos rest caps k x h
      rw [run, Option.or_eq_some_iff] at h
      rcases h with h | ⟨-, h⟩
      · obtain ⟨t, u, caps', hr, ht, h⟩ := ihe h
        exact ⟨t, u, caps', hr, Or.inl ht, h⟩
      · obtain ⟨t, u, caps', hr, ht, h⟩ := ihf h
        exact ⟨t, u, caps', hr, Or.inr ht, h⟩
  | opt e ih =>
      intro pos rest caps k x h
      rw [run, Option.or_eq_some_iff] at h
      rcases h with h | ⟨-, h⟩
      · obtain ⟨t, u, caps', hr, ht, h⟩ := ih h
        exact ⟨t, u, caps', hr, Or.inr ht, h⟩
      · exact reads_nil (Or.inl rfl) h
  | star e ih =>
      intro pos rest caps k x h
      exact ih.iterate rest.length h
  | group n e ih =>
      intro pos rest caps k x h
      obtain ⟨t, u, caps', hr, ht, hc, h⟩ := ih h
      refine ⟨t, u, _, hr, ht, ?_, h⟩
      -- the group itself is what was consumed
      intro i s hs
      by_cases hi : i = n
      · obtain rfl : (pos, pos + t.length) = s := by simpa [hi] using hs
        exact Or.inr ⟨le_rfl, Nat.le_add_right _ _, le_rfl⟩
      · exact hc i s (by simpa [hi] using hs)

theorem run_consumes (e : Re α) : Consumes (e.run (β := β)) e.lang := e.run_reads.consumes

/-- A text that is matched is in the language. -/
theorem mem_lang_of_fullMatch {e : Re α} {s : List α} {caps : Caps} (h : e.fullMatch s = some caps) : s ∈ e.lang := by
  obtain ⟨t, u, caps', rfl, ht, h⟩ := run_consumes e h
  split at h
  · rename_i hu
    rw [hu, List.append_nil]
    exact ht
  · cases h

theorem forall_of_mem_star_cls {p : α → Bool} {t : List α} (h : t ∈ (star (cls p)).lang) : ∀ b ∈ t, p b = true := by
  obtain ⟨ts, rfl, hts⟩ := Language.mem_kstar.mp h
  intro b hb
  obtain ⟨u, hu, hbu⟩ := List.mem_flatten.mp hb
  obtain ⟨c, hc, rfl⟩ := hts u hu
  rw [List.mem_singleton.mp hbu]
  exact hc

/-! ## Numbering the groups from elsewhere. -/

/-- The expression with `d` added to the numbers of its groups. -/
def shift (d : Nat) : Re α → Re α
  | .bol => .bol
  | .cls p => .cls p
  | .seq r s => .seq (r.shift d) (s.shift d)
  | .alt r s => .alt (r.shift d) (s.shift d)
  | .opt r => .opt (r.shift d)
  | .star r => .star (r.shift d)
  | .group n r => .group (n + d) (r.shift d)

/-- `k'` answers what `k` does, from the captures behind `d`. -/
def Shifted {γ : Type*} (d : Nat) (g : β → γ) (k : Nat → List α → Caps → Option β)
    (k' : Nat → List α → Caps → Option γ) : Prop :=
  ∀ pos rest caps, (k pos rest caps).map g = k' pos rest (Caps.behind d caps)

theorem Shifted.iterate {γ : Type*} {d : Nat} {g : β → γ} {m : Matcher α β} {m' : Matcher α γ}
    (hm : ∀ {k k'}, Shifted d g k k' → Shifted d g (fun pos rest caps => m pos rest caps k)
      fun pos rest caps => m' pos rest caps k') (n : Nat) {k : Nat → List α → Caps → Option β}
    {k' : Nat → List α → Caps → Option γ} (hk : Shifted d g k k') :
    Shifted d g (fun pos rest caps => iterate m n pos rest caps k) fun pos rest caps => iterate m' n pos rest caps k' := by
  induction n with
  | zero => exact hk
  | succ n ih =>
      intro pos rest caps
      -- the next pass, which only goes on where something was taken
      have hnext : Shifted d g
          (fun pos' rest' caps' => if rest'.length < rest.length then Re.iterate m n pos' rest' caps' k else none)
          (fun pos' rest' caps' => if rest'.length < rest.length then Re.iterate m' n pos' rest' caps' k' else none) := by
        intro pos' rest' caps'
        by_cases hlt : rest'.length < rest.length
        · simp only [if_pos hlt]
          exact ih pos' rest' caps'
        · simp only [if_neg hlt]
          rfl
      have hstep := hm hnext
      show ((m pos rest caps _).or (k pos rest caps)).map g = (m' pos rest _ _).or (k' pos rest _)
      rw [Option.map_or, hk pos rest caps, hstep pos rest caps]

/-- **The numbers of the groups do not matter** to what is matched. -/
theorem run_shift {γ : Type*} (e : Re α) {d : Nat} {g : β → γ} {k : Nat → List α → Caps → Option β}
    {k' : Nat → List α → Caps → Option γ} (hk : Shifted d g k k') :
    Shifted d g (fun pos rest caps => (e.shift d).run pos rest caps k) fun pos rest caps => e.run pos rest caps k' := by
  induction e generalizing k k' with
  | bol =>
      intro pos rest caps
      simp only [shift, run]
      split
      · exact hk pos rest caps
      · rfl
  | cls p =>
      intro pos rest caps
      cases rest with
      | nil => rfl
      | cons b rest =>
          simp only [shift, run]
          split
          · exact hk (pos + 1) rest caps
          · rfl
  | seq r s ihr ihs => exact ihr (ihs hk)
  | alt r s ihr ihs =>
      intro pos rest caps
      simp only [shift, run, Option.map_or]
      rw [ihr hk pos rest caps, ihs hk pos rest caps]
  | opt r ih =>
      intro pos rest caps
      simp only [shift, run, Option.map_or]
      rw [ih hk pos rest caps, hk pos rest caps]
  | star r ih =>
      intro pos rest caps
      exact Shifted.iterate ih rest.length hk pos rest caps
  | group n r ih =>
      intro pos rest caps
      apply ih
      intro pos' rest' caps'
      rw [hk]
      congr 1
      funext i
      simp [Caps.behind]

theorem fullMatch_shift (e : Re α) (d : Nat) (s : List α) :
    ((e.shift d).fullMatch s).map (Caps.behind d) = e.fullMatch s := by
  apply e.run_shift
  intro pos rest caps
  by_cases h : rest = []
  · simp only [if_pos h]
    rfl
  · simp only [if_neg h]
    rfl

/-! ## Searching. -/

/-- What `std::regex_search` finds: the first place at which the expression matches; the captures, the position
behind the match and what is left there. -/
def search (r : Re α) : Nat → List α → Option (Caps × Nat × List α)
  | pos, [] => r.run pos [] (fun _ => none) fun pos' rest caps => some (caps, pos', rest)
  | pos, b :: s =>
      (r.run pos (b :: s) (fun _ => none) fun pos' rest caps => some (caps, pos', rest)).or (r.search (pos + 1) s)

/-- The matches a `std::regex_iterator` goes through in fewer than `n` steps, each found behind the one before; for
an expression that does not match the empty text. -/
def searchAll (r : Re α) : Nat → Nat → List α → Option (List Caps)
  | 0, _, _ => none
  | n + 1, pos, s =>
      match r.search pos s with
      | none => some []
      | some (caps, pos', rest) => (r.searchAll n pos' rest).map (caps :: ·)

/-- Groups that lie between `lo` and `hi`. -/
def Within (lo hi : Nat) (caps : Caps) : Prop := ∀ n s, caps n = some s → lo ≤ s.1 ∧ s.1 ≤ s.2 ∧ s.2 ≤ hi

theorem Within.mono {lo lo' hi hi' : Nat} {caps : Caps} (h : Within lo hi caps) (hlo : lo' ≤ lo) (hhi : hi ≤ hi') :
    Within lo' hi' caps := by
  intro n s hs
  obtain ⟨h1, h2, h3⟩ := h n s hs
  exact ⟨hlo.trans h1, h2, h3.trans hhi⟩

theorem search_of_run {e : Re α} {pos : Nat} {s : List α} {x : Caps × Nat × List α}
    (h : (e.run pos s (fun _ => none) fun pos' rest caps => some (caps, pos', rest)) = some x) :
    e.search pos s = some x := by
  cases s with
  | nil => exact h
  | cons b s => rw [search, h, Option.some_or]

/-- A match at the place where it is found. -/
theorem read_of_run {e : Re α} {pos pos' : Nat} {s rest : List α} {caps : Caps}
    (h : (e.run pos s (fun _ => none) fun pos' rest caps => some (caps, pos', rest)) = some (caps, pos', rest)) :
    ∃ t ∈ e.lang, s = t ++ rest ∧ pos' = pos + t.length ∧ Within pos pos' caps := by
  obtain ⟨t, u, caps', hs, ht, hc, h⟩ := e.run_reads h
  obtain ⟨rfl, rfl, rfl⟩ : caps' = caps ∧ pos + t.length = pos' ∧ u = rest := by simpa using h
  refine ⟨t, ht, hs, rfl, ?_⟩
  intro n x hx
  exact (hc n x hx).resolve_left (by simp)

/-- **What a search finds**: a text of the language, with the groups in it. -/
theorem search_spec {e : Re α} {pos pos' : Nat} {s rest : List α} {caps : Caps}
    (h : e.search pos s = some (caps, pos', rest)) :
    ∃ pre, ∃ t ∈ e.lang, s = pre ++ (t ++ rest) ∧ pos' = pos + pre.length + t.length ∧
      Within (pos + pre.length) pos' caps := by
  induction s generalizing pos with
  | nil =>
      obtain ⟨t, ht, hs, hpos, hw⟩ := read_of_run h
      exact ⟨[], t, ht, hs, hpos, hw⟩
  | cons b s ih =>
      rw [search, Option.or_eq_some_iff] at h
      rcases h with h | ⟨-, h⟩
      · obtain ⟨t, ht, hs, hpos, hw⟩ := read_of_run h
        exact ⟨[], t, ht, hs, hpos, hw⟩
      · obtain ⟨pre, t, ht, rfl, hpos, hw⟩ := ih h
        have hlen : pos + 1 + pre.length = pos + (b :: pre).length := by
          rw [List.length_cons]
          omega
        rw [hlen] at hpos hw
        exact ⟨b :: pre, t, ht, rfl, hpos, hw⟩

/-- **The iterator comes to an end**, with all groups inside what was searched. -/
theorem searchAll_spec {e : Re α} (hne : [] ∉ e.lang) {n : Nat} (pos : Nat) {s : List α} (hn : s.length < n) :
    ∃ all, e.searchAll n pos s = some all ∧ ∀ caps ∈ all, Within pos (pos + s.length) caps := by
  induction n generalizing pos s with
  | zero => cases hn
  | succ n ih =>
      rw [searchAll]
      cases h : e.search pos s with
      | none => exact ⟨[], rfl, by simp⟩
      | some x =>
          obtain ⟨caps, pos', rest⟩ := x
          obtain ⟨pre, t, ht, rfl, rfl, hw⟩ := search_spec h
          have hpos : t.length ≠ 0 := by
            intro h0
            rw [List.length_eq_zero_iff.mp h0] at ht
            exact hne ht
          simp only [List.length_append] at hn ⊢
          obtain ⟨all, hall, hwall⟩ := ih (pos + pre.length + t.length) (s := rest) (by omega)
          simp only [hall, Option.map_some]
          refine ⟨caps :: all, rfl, ?_⟩
          rw [List.forall_mem_cons]
          constructor
          · exact hw.mono (by omega) (by omega)
          · intro c hc
            exact (hwall c hc).mono (by omega) (by omega)

/-- One match in front of the others. -/
theorem searchAll_cons {e : Re α} {n pos pos' : Nat} {s rest : List α} {caps : Caps} {all : List Caps}
    (h : e.search pos s = some (caps, pos', rest)) (hall : e.searchAll n pos' rest = some all) :
    e.searchAll (n + 1) pos s = some (caps :: all) := by
  rw [searchAll, h]
  simp only [hall, Option.map_some]

end Re

end NetCpp.Lib
