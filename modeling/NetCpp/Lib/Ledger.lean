/-
# NetCpp.Lib.Ledger — objects that are owned in shares.

A ledger says which object each HANDLE holds a share of, keeps a count beside every object, and knows which THREAD is
disposing of an object whose last share was given up.  Giving up the last share and disposing of the object are
different steps, and the object goes before its count does; in between other threads take their own steps.

`Ok` is what the steps keep: the count is the number of the holders, and an object whose count is 0 is in the hands of
exactly one thread.  A program that counts references refines the ledger.
-/
import NetCpp.Lib.Transition

namespace NetCpp.Lib

@[ext]
structure Ledger (ι τ : Type*) where
  /-- what a handle holds a share of -/
  held : ι → Option Nat
  /-- what a thread is disposing of, and whether the object itself is still there -/
  disposing : τ → Option (Nat × Bool)
  count : Nat → Option Nat
  alive : Nat → Bool
  /-- objects that were never allocated begin here -/
  next : Nat
  /-- history: who disposed of which object -/
  deleted : List (τ × Nat)

namespace Ledger

variable {ι τ : Type*}

/-! ## The steps. -/

section Defs

variable [DecidableEq ι] [DecidableEq τ]

/-- A new object, held by `i`. -/
def alloc (L : Ledger ι τ) (i : ι) : Ledger ι τ :=
  { L with
    held := Function.update L.held i (some L.next)
    count := Function.update L.count L.next (some 1)
    alive := Function.update L.alive L.next true
    next := L.next + 1 }

/-- `i` gets a share of `o`, whose count is `c`. -/
def share (L : Ledger ι τ) (i : ι) (o c : Nat) : Ledger ι τ :=
  { L with held := Function.update L.held i (some o), count := Function.update L.count o (some (c + 1)) }

/-- `i` gives up its share of `o`, whose count is `c + 1`. -/
def letGo (L : Ledger ι τ) (i : ι) (o c : Nat) : Ledger ι τ :=
  { L with held := Function.update L.held i none, count := Function.update L.count o (some c) }

/-- `t` disposes of `o`. -/
def dispose (L : Ledger ι τ) (t : τ) (o : Nat) : Ledger ι τ :=
  { L with disposing := Function.update L.disposing t (some (o, true)) }

/-- The share of `j` goes to `i`. -/
def transfer (L : Ledger ι τ) (i j : ι) : Ledger ι τ :=
  { L with held := Function.update (Function.update L.held i (L.held j)) j none }

/-- `t` deletes the object. -/
def deleteObject (L : Ledger ι τ) (t : τ) (o : Nat) : Ledger ι τ :=
  { L with
    disposing := Function.update L.disposing t (some (o, false))
    alive := Function.update L.alive o false
    deleted := L.deleted ++ [(t, o)] }

/-- `t` deletes the count. -/
def deleteCount (L : Ledger ι τ) (t : τ) (o : Nat) : Ledger ι τ :=
  { L with disposing := Function.update L.disposing t none, count := Function.update L.count o none }

end Defs

/-! ## What they keep. -/

variable [Fintype ι]

/-- How many handles hold a share of `o`. -/
def holders (held : ι → Option Nat) (o : Nat) : Nat := threadCount (· == some o) held

theorem holders_le (held : ι → Option Nat) (o : Nat) : holders held o ≤ Fintype.card ι := by
  rw [holders, threadCount, ← Finset.card_univ]
  exact Finset.card_filter_le _ _

structure Ok (L : Ledger ι τ) : Prop where
  counted : ∀ o c, L.count o = some c → c = holders L.held o
  unheld : ∀ o, L.count o = none → holders L.held o = 0
  zero : ∀ t o b, L.disposing t = some (o, b) → L.count o = some 0 ∧ L.alive o = b
  disposed : ∀ o, L.count o = some 0 → ∃ t b, L.disposing t = some (o, b)
  unique : ∀ t t' o b b', L.disposing t = some (o, b) → L.disposing t' = some (o, b') → t = t'
  alive : ∀ o c, L.count o = some (c + 1) → L.alive o = true
  gone : ∀ o, L.count o = none → L.alive o = false
  fresh : ∀ o, L.next ≤ o → L.count o = none
  log : ∀ o, o ∈ L.deleted.map Prod.snd ↔ o < L.next ∧ L.alive o = false
  once : (L.deleted.map Prod.snd).Nodup

variable {L : Ledger ι τ} {i j : ι} {t : τ} {o c : Nat} {held : ι → Option Nat}

/-- The steps that only move shares: the counts follow the holders, and no count reaches 0. -/
theorem Ok.recount (h : Ok L) {held : ι → Option Nat} {count : Nat → Option Nat}
    (hnone : ∀ o, count o = none ↔ L.count o = none)
    (hcount : ∀ o c, count o = some c → c = holders held o)
    (hunheld : ∀ o, L.count o = none → holders held o = 0)
    (hzero : ∀ o, count o = some 0 ↔ L.count o = some 0) :
    Ok { L with held := held, count := count } := by
  constructor
  case counted => exact hcount
  case unheld => exact fun o hc => hunheld o ((hnone o).mp hc)
  case zero => exact fun t o b ht => ⟨(hzero o).mpr (h.zero t o b ht).1, (h.zero t o b ht).2⟩
  case disposed => exact fun o hc => h.disposed o ((hzero o).mp hc)
  case unique => exact h.unique
  case alive =>
    intro o c hc
    have hc' : count o = some (c + 1) := hc
    cases hold : L.count o with
    | none =>
      rw [(hnone o).mpr hold] at hc'
      cases hc'
    | some c' =>
      cases c' with
      | zero =>
        rw [(hzero o).mpr hold] at hc'
        cases hc'
      | succ c' => exact h.alive o c' hold
  case gone => exact fun o hc => h.gone o ((hnone o).mp hc)
  case fresh => exact fun o hle => (hnone o).mpr (h.fresh o hle)
  case log => exact h.log
  case once => exact h.once

section Shares

variable [DecidableEq ι]

theorem holders_update (held : ι → Option Nat) (i : ι) (x : Option Nat) (o : Nat) :
    holders (Function.update held i x) o + (if held i = some o then 1 else 0) =
      holders held o + if x = some o then 1 else 0 := by
  have hnat : ∀ y : Option Nat, (y == some o).toNat = if y = some o then 1 else 0 := by
    intro y
    by_cases h : y = some o
    · rw [if_pos h, beq_iff_eq.mpr h]
      rfl
    · rw [if_neg h, beq_eq_false_iff_ne.mpr h]
      rfl
  have := threadCount_update (· == some o) held i x
  rw [hnat, hnat] at this
  exact this

theorem holders_pos (h : held i = some o) : 0 < holders held o := by
  have := holders_update held i none o
  rw [if_pos h, if_neg (Option.some_ne_none o).symm] at this
  omega

/-- What is held has a count, and is alive. -/
theorem Ok.of_held (h : Ok L) (hi : L.held i = some o) : ∃ c, L.count o = some (c + 1) ∧ L.alive o = true := by
  have hpos := holders_pos hi
  cases hc : L.count o with
  | none =>
    have := h.unheld o hc
    omega
  | some c =>
    have := h.counted o c hc
    obtain ⟨c, rfl⟩ : ∃ c', c = c' + 1 := ⟨c - 1, by omega⟩
    exact ⟨c, rfl, h.alive o c hc⟩

theorem Ok.alloc (h : Ok L) (hi : L.held i = none) : Ok (L.alloc i) := by
  have hnone : ∀ o, L.next ≤ o → L.count o = none := h.fresh
  have hcount : ∀ o, o ≠ L.next → (L.alloc i).count o = L.count o := fun o hne => Function.update_of_ne hne ..
  have hnew : (L.alloc i).count L.next = some 1 := Function.update_self ..
  have halive : ∀ o, o ≠ L.next → (L.alloc i).alive o = L.alive o := fun o hne => Function.update_of_ne hne ..
  have hheld : ∀ o, holders (L.alloc i).held o = holders L.held o + if L.next = o then 1 else 0 := by
    intro o
    have := holders_update L.held i (some L.next) o
    simp only [hi, Option.some.injEq, if_neg (Option.some_ne_none o).symm] at this
    exact this
  constructor
  case counted =>
    intro o c hc
    rw [hheld]
    by_cases heq : o = L.next
    · subst heq
      rw [hnew] at hc
      rw [h.unheld _ (hnone _ (Nat.le_refl _)), if_pos rfl]
      exact (Option.some.inj hc).symm
    · rw [hcount o heq] at hc
      rw [if_neg fun he => heq he.symm]
      exact h.counted o c hc
  case unheld =>
    intro o hc
    rw [hheld]
    by_cases heq : o = L.next
    · subst heq
      rw [hnew] at hc
      cases hc
    · rw [hcount o heq] at hc
      rw [if_neg fun he => heq he.symm]
      exact h.unheld o hc
  case zero =>
    intro t o b ht
    obtain ⟨hzero, hb⟩ := h.zero t o b ht
    have hne : o ≠ L.next := by
      rintro rfl
      rw [hnone _ (Nat.le_refl _)] at hzero
      cases hzero
    rw [hcount o hne, halive o hne]
    exact ⟨hzero, hb⟩
  case disposed =>
    intro o hc
    by_cases heq : o = L.next
    · subst heq
      rw [hnew] at hc
      cases hc
    · rw [hcount o heq] at hc
      exact h.disposed o hc
  case unique => exact h.unique
  case alive =>
    intro o c hc
    by_cases heq : o = L.next
    · subst heq
      exact Function.update_self ..
    · rw [hcount o heq] at hc
      rw [halive o heq]
      exact h.alive o c hc
  case gone =>
    intro o hc
    by_cases heq : o = L.next
    · subst heq
      rw [hnew] at hc
      cases hc
    · rw [hcount o heq] at hc
      rw [halive o heq]
      exact h.gone o hc
  case fresh =>
    intro o hle
    have hlt : L.next < o := hle
    rw [hcount o (by omega)]
    exact hnone o (by omega)
  case log =>
    intro o
    show o ∈ L.deleted.map Prod.snd ↔ o < L.next + 1 ∧ _
    rw [h.log]
    by_cases heq : o = L.next
    · subst heq
      have : (L.alloc i).alive L.next = true := Function.update_self ..
      rw [this]
      simp
    · rw [halive o heq]
      have : o < L.next + 1 ↔ o < L.next := by omega
      rw [this]
  case once => exact h.once

theorem Ok.share (h : Ok L) (hi : L.held i = none) (hj : L.held j = some o) (hc : L.count o = some c) :
    Ok (L.share i o c) := by
  have hpos : c ≠ 0 := by
    have := holders_pos hj
    have := h.counted o c hc
    omega
  have hheld : ∀ o', holders (Function.update L.held i (some o)) o' = holders L.held o' + if o = o' then 1 else 0 := by
    intro o'
    have := holders_update L.held i (some o) o'
    simp only [hi, Option.some.injEq, if_neg (Option.some_ne_none o').symm] at this
    exact this
  have hat : Function.update L.count o (some (c + 1)) o = some (c + 1) := Function.update_self ..
  have hoff : ∀ o', o' ≠ o → Function.update L.count o (some (c + 1)) o' = L.count o' :=
    fun o' hne => Function.update_of_ne hne ..
  apply h.recount
  · intro o'
    by_cases heq : o' = o
    · subst heq
      rw [hat, hc]
      simp
    · rw [hoff o' heq]
  · intro o' c' hc'
    rw [hheld]
    by_cases heq : o' = o
    · subst heq
      rw [hat] at hc'
      rw [if_pos rfl, ← h.counted o' c hc]
      exact (Option.some.inj hc').symm
    · rw [hoff o' heq] at hc'
      rw [if_neg fun he => heq he.symm]
      exact h.counted o' c' hc'
  · intro o' hnone
    have hne : o ≠ o' := by
      rintro rfl
      rw [hc] at hnone
      cases hnone
    rw [hheld, if_neg hne]
    exact h.unheld o' hnone
  · intro o'
    by_cases heq : o' = o
    · subst heq
      rw [hat, hc]
      simpa using hpos
    · rw [hoff o' heq]

/-- One share fewer. -/
theorem holders_letGo (hi : L.held i = some o) (o' : Nat) :
    holders (L.letGo i o c).held o' + (if o = o' then 1 else 0) = holders L.held o' := by
  have := holders_update L.held i none o'
  simp only [hi, Option.some.injEq, if_neg (Option.some_ne_none o').symm] at this
  exact this

/-- Letting go lowers the count and the number of holders together. -/
theorem Ok.counted_letGo (h : Ok L) (hi : L.held i = some o) (hc : L.count o = some (c + 1)) :
    ∀ o' c', (L.letGo i o c).count o' = some c' → c' = holders (L.letGo i o c).held o' := by
  intro o' c' hc'
  have hsum := holders_letGo (c := c) hi o'
  have hcount : Function.update L.count o (some c) o' = some c' := hc'
  by_cases heq : o' = o
  · subst heq
    rw [Function.update_self] at hcount
    obtain rfl := Option.some.inj hcount
    rw [if_pos rfl, ← h.counted o' (c + 1) hc] at hsum
    exact (Nat.succ.inj hsum).symm
  · rw [Function.update_of_ne heq] at hcount
    rw [if_neg fun he => heq he.symm] at hsum
    exact (h.counted o' c' hcount).trans hsum.symm

theorem Ok.unheld_letGo (h : Ok L) (hi : L.held i = some o) :
    ∀ o', L.count o' = none → holders (L.letGo i o c).held o' = 0 := by
  intro o' hnone
  have hsum := holders_letGo (c := c) hi o'
  have := h.unheld o' hnone
  omega

theorem Ok.letGo (h : Ok L) (hi : L.held i = some o) (hc : L.count o = some (c + 1)) (hpos : c ≠ 0) :
    Ok (L.letGo i o c) := by
  have hat : Function.update L.count o (some c) o = some c := Function.update_self ..
  have hoff : ∀ o', o' ≠ o → Function.update L.count o (some c) o' = L.count o' :=
    fun o' hne => Function.update_of_ne hne ..
  apply h.recount
  · intro o'
    by_cases heq : o' = o
    · subst heq
      rw [hat, hc]
      simp
    · rw [hoff o' heq]
  · exact h.counted_letGo hi hc
  · exact h.unheld_letGo (c := c) hi
  · intro o'
    by_cases heq : o' = o
    · subst heq
      rw [hat, hc]
      simpa using hpos
    · rw [hoff o' heq]

theorem Ok.transfer (h : Ok L) (hi : L.held i = none) (hne : i ≠ j) : Ok (L.transfer i j) := by
  have hheld : ∀ o, holders (Function.update (Function.update L.held i (L.held j)) j none) o = holders L.held o := by
    intro o
    have h₁ := holders_update L.held i (L.held j) o
    have h₂ := holders_update (Function.update L.held i (L.held j)) j none o
    rw [Function.update_of_ne hne.symm, if_neg (Option.some_ne_none o).symm] at h₂
    rw [hi, if_neg (Option.some_ne_none o).symm] at h₁
    omega
  apply h.recount
  · exact fun o => Iff.rfl
  · intro o c hc
    rw [hheld]
    exact h.counted o c hc
  · intro o hc
    rw [hheld]
    exact h.unheld o hc
  · exact fun o => Iff.rfl

end Shares

section Disposal

variable [DecidableEq τ]

theorem Ok.deleteObject (h : Ok L) (ht : L.disposing t = some (o, true)) : Ok (L.deleteObject t o) := by
  obtain ⟨hzero, halive⟩ := h.zero t o true ht
  have hdis : (L.deleteObject t o).disposing t = some (o, false) := Function.update_self ..
  have hdis' : ∀ t', t' ≠ t → (L.deleteObject t o).disposing t' = L.disposing t' :=
    fun t' hne => Function.update_of_ne hne ..
  have hdead : (L.deleteObject t o).alive o = false := Function.update_self ..
  have hoff : ∀ o', o' ≠ o → (L.deleteObject t o).alive o' = L.alive o' := fun o' hne => Function.update_of_ne hne ..
  have hlog : (L.deleteObject t o).deleted.map Prod.snd = L.deleted.map Prod.snd ++ [o] := List.map_append ..
  constructor
  case counted => exact h.counted
  case unheld => exact h.unheld
  case zero =>
    intro t' o' b ht'
    by_cases heq : t' = t
    · subst heq
      rw [hdis, Option.some.injEq, Prod.mk.injEq] at ht'
      obtain ⟨rfl, rfl⟩ := ht'
      exact ⟨hzero, hdead⟩
    · rw [hdis' t' heq] at ht'
      have hne : o' ≠ o := by
        rintro rfl
        exact heq (h.unique t' t o' b true ht' ht)
      rw [hoff o' hne]
      exact h.zero t' o' b ht'
  case disposed =>
    intro o' hc'
    obtain ⟨t', b, ht'⟩ := h.disposed o' hc'
    by_cases heq : t' = t
    · subst heq
      rw [ht, Option.some.injEq, Prod.mk.injEq] at ht'
      exact ⟨t', false, by rw [hdis, ht'.1]⟩
    · exact ⟨t', b, by rw [hdis' t' heq, ht']⟩
  case unique =>
    intro t₁ t₂ o' b b' h₁ h₂
    have hold : ∀ t' b, (L.deleteObject t o).disposing t' = some (o', b) → ∃ b', L.disposing t' = some (o', b') := by
      intro t' b ht'
      by_cases heq : t' = t
      · subst heq
        rw [hdis, Option.some.injEq, Prod.mk.injEq] at ht'
        exact ⟨true, by rw [ht, ht'.1]⟩
      · exact ⟨b, by rw [← hdis' t' heq, ht']⟩
    obtain ⟨b₁, h₁⟩ := hold t₁ b h₁
    obtain ⟨b₂, h₂⟩ := hold t₂ b' h₂
    exact h.unique t₁ t₂ o' b₁ b₂ h₁ h₂
  case alive =>
    intro o' c hc
    have hne : o' ≠ o := by
      rintro rfl
      rw [show L.count o' = some (c + 1) from hc] at hzero
      cases hzero
    rw [hoff o' hne]
    exact h.alive o' c hc
  case gone =>
    intro o' hc
    by_cases heq : o' = o
    · subst heq
      exact hdead
    · rw [hoff o' heq]
      exact h.gone o' hc
  case fresh => exact h.fresh
  case log =>
    intro o'
    rw [hlog, List.mem_append, h.log, List.mem_singleton]
    have hlt : o < L.next := by
      by_contra hle
      rw [h.fresh o (by omega)] at hzero
      cases hzero
    by_cases heq : o' = o
    · subst heq
      exact iff_of_true (.inr rfl) ⟨hlt, hdead⟩
    · rw [hoff o' heq, or_iff_left heq]
      rfl
  case once =>
    rw [hlog, List.nodup_append]
    refine ⟨h.once, List.nodup_singleton o, ?_⟩
    intro x hx y hy
    rw [List.mem_singleton] at hy
    subst hy
    rintro rfl
    rw [((h.log x).mp hx).2] at halive
    cases halive

theorem Ok.deleteCount (h : Ok L) (ht : L.disposing t = some (o, false)) : Ok (L.deleteCount t o) := by
  obtain ⟨hzero, hdead⟩ := h.zero t o false ht
  have hdis : (L.deleteCount t o).disposing t = none := Function.update_self ..
  have hdis' : ∀ t', t' ≠ t → (L.deleteCount t o).disposing t' = L.disposing t' :=
    fun t' hne => Function.update_of_ne hne ..
  have hat : (L.deleteCount t o).count o = none := Function.update_self ..
  have hoff : ∀ o', o' ≠ o → (L.deleteCount t o).count o' = L.count o' := fun o' hne => Function.update_of_ne hne ..
  have hcases : ∀ {o' : Nat} {c : Nat}, (L.deleteCount t o).count o' = some c → L.count o' = some c ∧ o' ≠ o := by
    intro o' c hc
    by_cases heq : o' = o
    · subst heq
      rw [hat] at hc
      cases hc
    · exact ⟨(hoff o' heq).symm.trans hc, heq⟩
  have hothers : ∀ {t' : τ} {o' : Nat} {b : Bool}, (L.deleteCount t o).disposing t' = some (o', b) →
      L.disposing t' = some (o', b) ∧ t' ≠ t := by
    intro t' o' b ht'
    by_cases heq : t' = t
    · subst heq
      rw [hdis] at ht'
      cases ht'
    · exact ⟨(hdis' t' heq).symm.trans ht', heq⟩
  constructor
  case counted => exact fun o' c hc => h.counted o' c (hcases hc).1
  case unheld =>
    intro o' hc
    by_cases heq : o' = o
    · subst heq
      exact (h.counted o' 0 hzero).symm
    · rw [hoff o' heq] at hc
      exact h.unheld o' hc
  case zero =>
    intro t' o' b ht'
    obtain ⟨hold, hne⟩ := hothers ht'
    have hne' : o' ≠ o := by
      rintro rfl
      exact hne (h.unique t' t o' b false hold ht)
    rw [hoff o' hne']
    exact h.zero t' o' b hold
  case disposed =>
    intro o' hc
    obtain ⟨hc, hne⟩ := hcases hc
    obtain ⟨t', b, ht'⟩ := h.disposed o' hc
    refine ⟨t', b, ?_⟩
    rw [hdis']
    · exact ht'
    · rintro rfl
      rw [ht, Option.some.injEq, Prod.mk.injEq] at ht'
      exact hne ht'.1.symm
  case unique => exact fun t₁ t₂ o' b b' h₁ h₂ => h.unique t₁ t₂ o' b b' (hothers h₁).1 (hothers h₂).1
  case alive => exact fun o' c hc => h.alive o' c (hcases hc).1
  case gone =>
    intro o' hc
    by_cases heq : o' = o
    · subst heq
      exact hdead
    · rw [hoff o' heq] at hc
      exact h.gone o' hc
  case fresh =>
    intro o' hle
    by_cases heq : o' = o
    · subst heq
      exact hat
    · rw [hoff o' heq]
      exact h.fresh o' hle
  case log => exact h.log
  case once => exact h.once

variable [DecidableEq ι] in
/-- **The last share**: the thread that gives it up disposes of the object. -/
theorem Ok.letLast (h : Ok L) (hi : L.held i = some o) (hc : L.count o = some 1) (ht : L.disposing t = none) :
    Ok ((L.letGo i o 0).dispose t o) := by
  have hat : ((L.letGo i o 0).dispose t o).count o = some 0 := Function.update_self ..
  have hoff : ∀ o', o' ≠ o → ((L.letGo i o 0).dispose t o).count o' = L.count o' :=
    fun o' hne => Function.update_of_ne hne ..
  have hdis : ((L.letGo i o 0).dispose t o).disposing t = some (o, true) := Function.update_self ..
  have hdis' : ∀ t', t' ≠ t → ((L.letGo i o 0).dispose t o).disposing t' = L.disposing t' :=
    fun t' hne => Function.update_of_ne hne ..
  -- until now nobody disposed of it
  have hnew : ∀ t' b, L.disposing t' ≠ some (o, b) := by
    intro t' b ht'
    rw [(h.zero t' o b ht').1] at hc
    cases hc
  constructor
  case counted => exact h.counted_letGo hi hc
  case unheld =>
    intro o' hc'
    have hne : o' ≠ o := by
      rintro rfl
      rw [hat] at hc'
      cases hc'
    rw [hoff o' hne] at hc'
    exact h.unheld_letGo (c := 0) hi o' hc'
  case zero =>
    intro t' o' b ht'
    by_cases heq : t' = t
    · subst heq
      rw [hdis, Option.some.injEq, Prod.mk.injEq] at ht'
      obtain ⟨rfl, rfl⟩ := ht'
      exact ⟨hat, h.alive o 0 hc⟩
    · rw [hdis' t' heq] at ht'
      have hne : o' ≠ o := by
        rintro rfl
        exact hnew t' b ht'
      rw [hoff o' hne]
      exact h.zero t' o' b ht'
  case disposed =>
    intro o' hc'
    by_cases heq : o' = o
    · subst heq
      exact ⟨t, true, hdis⟩
    · rw [hoff o' heq] at hc'
      obtain ⟨t', b, ht'⟩ := h.disposed o' hc'
      refine ⟨t', b, ?_⟩
      rw [hdis']
      · exact ht'
      · rintro rfl
        rw [ht] at ht'
        cases ht'
  case unique =>
    intro t₁ t₂ o' b b' h₁ h₂
    by_cases heq₁ : t₁ = t
    · by_cases heq₂ : t₂ = t
      · exact heq₁.trans heq₂.symm
      · subst heq₁
        rw [hdis, Option.some.injEq, Prod.mk.injEq] at h₁
        rw [hdis' t₂ heq₂, ← h₁.1] at h₂
        exact absurd h₂ (hnew t₂ b')
    · rw [hdis' t₁ heq₁] at h₁
      by_cases heq₂ : t₂ = t
      · subst heq₂
        rw [hdis, Option.some.injEq, Prod.mk.injEq] at h₂
        rw [← h₂.1] at h₁
        exact absurd h₁ (hnew t₁ b)
      · rw [hdis' t₂ heq₂] at h₂
        exact h.unique t₁ t₂ o' b b' h₁ h₂
  case alive =>
    intro o' c' hc'
    by_cases heq : o' = o
    · subst heq
      rw [hat] at hc'
      cases hc'
    · rw [hoff o' heq] at hc'
      exact h.alive o' c' hc'
  case gone =>
    intro o' hc'
    by_cases heq : o' = o
    · subst heq
      rw [hat] at hc'
      cases hc'
    · rw [hoff o' heq] at hc'
      exact h.gone o' hc'
  case fresh =>
    intro o' hle
    have hne : o' ≠ o := by
      rintro rfl
      rw [h.fresh o' hle] at hc
      cases hc
    rw [hoff o' hne]
    exact h.fresh o' hle
  case log => exact h.log
  case once => exact h.once

end Disposal

end Ledger

end NetCpp.Lib
