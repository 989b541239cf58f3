/-
# NetCpp.Sys.Dispatch — an event reaches the device it was reported for.

`run()` fetches a batch and looks its events up one by one, by descriptor NUMBER.  The pin keeps the device of the
event in hand open, so no `DELETE` hint can hit another device than the one that was found.  What the lookup finds is
another matter: between fetch and lookup a device may be removed and closed, its number given to a new one, and that
one added (`stale_event_hits_new_device`).  The property holds as long as no device is put in the map under a number
for which an event of an earlier device is still in the batch.
-/
import NetCpp.Sys.IoContext

namespace NetCpp.Sys.IOContext

open NetCpp.Lib

variable {n : Nat}

/-- **The event in hand is the pinned device's own**, and a `DELETE` hint is about to remove no other. -/
def OwnEvent (s : State n) : Prop :=
  (∀ e d, s.poller.handling = some (e, d) → d = e.src) ∧
    ∀ e d batch d', s.poller = .removeErase e d batch → s.handlers.lookup e.fd = some d' → d' = e.src

/-- The device a thread's next step puts in the map. -/
def Thread.inserts : Thread → Option Nat
  | .addInsert d => some d
  | _ => none

/-- **No stale event.** The step does not put a device in the map under a number for which the batch still has an event
reported for another device. -/
def NoStale (s : State n) : Action n → Prop
  | .thread t => ∀ d ∈ (s.thread t).inserts, ∀ e ∈ s.poller.pending, e.fd = s.fdOf d → e.src = d
  | _ => True

instance (s : State n) (act : Action n) : Decidable (NoStale s act) :=
  match act with
  | .thread t => inferInstanceAs (Decidable (∀ d ∈ (s.thread t).inserts, _))
  | .openDevice _ _ | .callAdd _ _ | .callDeregister _ _ | .callShutdown _ | .poll _ | .poller | .consumer _ _ _
  | .callCancel _ _ _ | .cancel _ _ _ | .drop _ | .close _ => inferInstanceAs (Decidable True)

/-- What is found under the number of a pending event is the device it was reported for. -/
structure Current (s : State n) : Prop where
  pending : ∀ e ∈ s.poller.pending, ∀ d, s.handlers.lookup e.fd = some d → d = e.src
  inHand : ∀ e d, s.poller.handling = some (e, d) → d = e.src

variable {s s' : State n} {t : Fin n}

/-- The poller keeps its batch, and nothing new is in the map. -/
theorem Current.same (h : Current s) (hp : s'.poller = s.poller)
    (hm : ∀ fd d, s'.handlers.lookup fd = some d → s.handlers.lookup fd = some d) : Current s' := by
  refine ⟨fun e he d hd => ?_, by rw [hp]; exact h.inHand⟩
  rw [hp] at he
  exact h.pending e he d (hm e.fd d hd)

theorem Current.poller (h : Current s) (hs : pollerStep s = some s') : Current s' := by
  have hpending := h.pending
  have hhand := h.inHand
  cases polls hs with
  | exits hp hv => exact ⟨by simp [Poller.pending], by simp [Poller.handling]⟩
  | ends hp => exact ⟨by simp [Poller.pending], by simp [Poller.handling]⟩
  | finds hp hl =>
      rw [hp] at hpending
      refine ⟨fun e he => hpending e (List.mem_cons_of_mem _ he), fun e d hd => ?_⟩
      obtain ⟨rfl, rfl⟩ : _ = e ∧ _ = d := by simpa [Poller.handling] using hd
      exact hpending _ List.mem_cons_self _ hl
  | skips hp hl =>
      rw [hp] at hpending
      exact ⟨fun e he => hpending e (List.mem_cons_of_mem _ he), by simp [Poller.handling]⟩
  | hint hp hm | publishes hp hm | releases hp hsig | released hp | delists hp =>
      rw [hp] at hpending hhand
      exact ⟨hpending, hhand⟩
  | releasing hp hsig => exact h.same rfl fun _ _ hd => hd
  | handled hp =>
      rw [hp] at hpending
      exact ⟨hpending, by simp [Poller.handling]⟩
  | erases hp hl =>
      rw [hp] at hpending
      exact ⟨fun e he d hd => hpending e he d (lookup_eraseKey_some hd).1, by simp [Poller.handling]⟩

theorem Current.works (h : Current s) (hg : NoStale s (.thread t)) (hs : threadStep s t = some s') : Current s' := by
  cases IOContext.works hs with
  | inserts ht =>
      refine ⟨fun e he d hd => ?_, h.inHand⟩
      rcases lookup_insertOrAssign_some hd with ⟨hfd, rfl⟩ | ⟨-, hd⟩
      · exact (hg d (by rw [ht]; rfl) e he hfd).symm
      · exact h.pending e he d hd
  | erases ht hl => exact h.same rfl fun fd d hd => (lookup_eraseKey_some hd).1
  | clears ht hl => exact h.same rfl (by simp)
  | _ => exact h.same rfl fun _ _ hd => hd

/-- **The batch stays current** while no stale event is made. -/
theorem Current.step {act : Action n} (h : Current s) (hw : Sound s) (hg : NoStale s act)
    (hs : step s act = some s') : Current s' := by
  cases act with
  | openDevice fd keys =>
      simp only [IOContext.step] at hs
      split at hs
      · cases hs
      · obtain rfl := Option.some.inj hs
        exact h.same rfl fun _ _ hd => hd
  | callDeregister t d | callShutdown t =>
      simp only [IOContext.step] at hs
      split at hs
      · obtain rfl := Option.some.inj hs
        split
        · exact h.same rfl fun _ _ hd => hd
        · exact h
      · cases hs
  | thread t => exact h.works hg hs
  | poll es =>
      simp only [IOContext.step] at hs
      split at hs
      · obtain ⟨batch, hb, rfl⟩ := Option.map_eq_some_iff.mp hs
        refine ⟨fun e he d hd => ?_, by simp [Poller.handling]⟩
        -- The interest list and the map agree with the descriptor table, so with each other.
        have hsrc := hw.listed _ _ (reported hb e he)
        have hdev := hw.map _ _ hd
        rw [hsrc] at hdev
        exact (Option.some.inj hdev).symm
      · cases hs
  | poller => exact h.poller hs
  | callAdd t d | drop d | close d =>
      simp only [IOContext.step] at hs
      split at hs
      · obtain rfl := Option.some.inj hs
        exact h.same rfl fun _ _ hd => hd
      · cases hs
  | consumer d k i | callCancel t d k =>
      simp only [IOContext.step] at hs
      split at hs
      · obtain ⟨sig, -, rfl⟩ := Option.map_eq_some_iff.mp hs
        exact h.same rfl fun _ _ hd => hd
      · cases hs
  | cancel t d k =>
      obtain ⟨sig, -, rfl⟩ := Option.map_eq_some_iff.mp hs
      exact h.same rfl fun _ _ hd => hd

/-- The pin: what a `DELETE` hint removes is what was found. -/
theorem Current.ownEvent (h : Current s) (hw : Sound s) : OwnEvent s := by
  refine ⟨h.inHand, fun e d batch d' hp hd => ?_⟩
  have hpin := hw.pinned e d (by rw [hp]; rfl)
  have hdev := hw.map _ _ hd
  rw [hpin] at hdev
  obtain rfl := Option.some.inj hdev
  exact h.inHand e d (by rw [hp]; rfl)

/-- **Events reach only the device they were reported for**, in every run without stale events. -/
theorem own_event_of_no_stale (n : Nat) (s : State n) (h : Run step NoStale (init n) s) : OwnEvent s := by
  have hstep : ∀ (s : State n) (act : Action n) (s' : State n), Sound s ∧ Current s → NoStale s act →
      step s act = some s' → Sound s' ∧ Current s' :=
    fun _ _ _ hi hg hs => ⟨hi.1.step hs, hi.2.step hi.1 hg hs⟩
  have hinit : Current (init n) := ⟨by simp [init, Poller.pending], by simp [init, Poller.handling]⟩
  obtain ⟨hw, hc⟩ := h.invariant hstep ⟨sound_init, hinit⟩
  exact hc.ownEvent hw

/-- A device is opened under number 5 and added; it hangs up and is removed by its own event. -/
def hangUp (t : Fin n) : List (Action n) :=
  [.openDevice 5 [Events.IN, Events.OUT], .callAdd t 0, .thread t, .thread t, .thread t,
    .poll [(5, Events.IN ||| Events.HUP)], .poller, .poller, .poller]

theorem own_event_hangUp :
    ∃ s, Run step NoStale (init 1) s ∧ s.poller = .removeErase ⟨5, 0x11, 0⟩ 0 [] ∧ OwnEvent s := by
  obtain ⟨s, hs, h⟩ : ∃ s, exec (guarded step NoStale) (init 1) (hangUp 0) = some s ∧
      s.poller = .removeErase ⟨5, 0x11, 0⟩ 0 [] := ⟨_, rfl, by decide⟩
  have hrun := run_of_exec_guarded hs
  exact ⟨s, hrun, h, own_event_of_no_stale 1 s hrun⟩

/-- The same, but before the lookup the device is deregistered and closed, and a new one gets its number. -/
def reusedNumber (t : Fin n) : List (Action n) :=
  [.openDevice 5 [Events.IN, Events.OUT], .callAdd t 0, .thread t, .thread t, .thread t,
    .poll [(5, Events.IN ||| Events.HUP)], .callDeregister t 0, .thread t, .thread t, .drop 0, .close 0,
    .openDevice 5 [Events.IN, Events.OUT], .callAdd t 1, .thread t, .thread t, .thread t, .poller, .poller, .poller]

theorem stale_event_hits_new_device :
    ¬ ∀ (n : Nat) (s : State n), Reachable step (init n) s → OwnEvent s := by
  intro h
  have hexec : (exec step (init 1) (reusedNumber 0)).map (·.poller.handling) = some (some (⟨5, 0x11, 0⟩, 1)) := by
    decide
  obtain ⟨s, hs, hp⟩ := Option.map_eq_some_iff.mp hexec
  have := (h 1 s (reachable_of_exec hs)).1 _ _ hp
  cases this

end NetCpp.Sys.IOContext
