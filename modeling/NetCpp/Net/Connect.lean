/-
# NetCpp.Net.Connect — connecting to a resolved address list.

`include/xsl/asio/net/socket.h`: `AsyncSocketCreator::ca2_impl` tries the addresses in their order with one device, and
`async_connect` is one try.  What the system answers at each address is the input.

Four things go wrong, each on its own.  `async_connect` returns `unexpected` with the SUCCESS code when `connect`
succeeds at once.  A try that was in progress and failed leaves its descriptor in the device and in the handlers
map, and the next one is put over it (`emplace` runs no destructor).  A list on which nothing was tried ends like
one that connected.  And `ca2_impl` has no `co_return` behind its loop: the promise of `Expected<void, errc>` has no
`return_void`, so the caller finds no result in it.
-/
import Mathlib

namespace NetCpp.Net.Connect

/-! ## §1 — what the system answers. -/

/-- An error code other than `errc{}`. -/
abbrev Errno := { e : Nat // e ≠ 0 }

/-- Behind `EINPROGRESS`: registration, the write signal, and `SO_ERROR`. -/
inductive Progress
  | notAdded (e : Errno)
  | notSignalled
  | soError (e : Errno)
  | established
deriving DecidableEq

/-- What `connect` answers. -/
inductive Answer
  | immediate
  | refused (e : Errno)
  | inProgress (p : Progress)
deriving DecidableEq

/-- One address of the list: `socket` or `inet_n2p` may fail before it is tried. -/
inductive Address
  | noSocket
  | noName (e : Errno)
  | tried (a : Answer)
deriving DecidableEq

/-- The descriptor that the `i`-th `socket` gets is one that is not open. -/
structure Kernel where
  pick : Nat → List Nat → Nat
  fresh : ∀ i fds, pick i fds ∉ fds

/-- A connection is there. -/
def Answer.connects : Answer → Bool
  | .immediate | .inProgress .established => true
  | .refused _ | .inProgress _ => false

/-! ## §2 — the code. -/

/-- The open descriptors, the keys of the device in the handlers map, the descriptor part of the device, and the
`RawOwner` of the try.  `opened` and `connected` say what happened. -/
structure World where
  fds : List Nat
  handlers : List Nat
  device : Option Nat
  owner : Option Nat
  calls : Nat
  opened : List Nat
  connected : List Nat

namespace World

/-- A new device in a process with these descriptors open. -/
def start (others : List Nat) : World := ⟨others, [], none, none, 0, [], []⟩

/-- `socket` succeeds. -/
def socket (K : Kernel) (w : World) : World :=
  { w with
    fds := K.pick w.calls w.fds :: w.fds
    owner := some (K.pick w.calls w.fds)
    calls := w.calls + 1
    opened := K.pick w.calls w.fds :: w.opened }

/-- `~RawOwner`: closes the descriptor, if it is still there. -/
def dropOwner (w : World) : World := { w with fds := w.fds.filter fun fd => some fd ≠ w.owner, owner := none }

/-- `init_async_device` up to `ctx.add`: the descriptor part is constructed over the old one. -/
def emplace (w : World) : World := { w with device := w.owner, owner := none }

def register (w : World) : World := { w with handlers := w.device.toList ++ w.handlers }

end World

/-- What a coroutine leaves in its promise; `missing` when control flows off its end without a `return_void`. -/
inductive Result
  | ok
  | error (ec : Nat)
  | missing
deriving DecidableEq

def ENOTCONN : Nat := 107

/-- `async_connect`. -/
def asyncConnect (w : World) : Answer → World × Except Nat Unit
  | .immediate => (w, .error 0)
  | .refused e => (w, .error e)
  | .inProgress (.notAdded e) => (w.emplace, .error e)
  | .inProgress .notSignalled => (w.emplace.register, .error ENOTCONN)
  | .inProgress (.soError e) => (w.emplace.register, .error e)
  | .inProgress .established => (w.emplace.register, .ok ())

/-- The connection of a try, noted. -/
def World.note (a : Answer) (w : World) : World :=
  { w with connected := (if a.connects then w.owner.toList else []) ++ w.connected }

/-- The loop of `ca2_impl` with its error code, and `CO_ENSEC(ec)` behind it. -/
def ca2Loop (K : Kernel) : List Address → World → Nat → World × Result
  | [], w, ec => (w, if ec = 0 then .missing else .error ec)
  | .noSocket :: as, w, ec => ca2Loop K as { w with calls := w.calls + 1 } ec
  | .noName e :: _, w, _ => ((w.socket K).dropOwner, .error e)
  | .tried a :: as, w, _ =>
      match asyncConnect ((w.socket K).note a) a with
      | (w, .ok ()) => (w.dropOwner, .missing)
      | (w, .error ec) => ca2Loop K as w.dropOwner ec

def ca2Impl (K : Kernel) (others : List Nat) (ais : List Address) : World × Result := ca2Loop K ais (.start others) 0

/-! ## §3 — reporting truthfully and leaking nothing. -/

/-- A call came back without an error if a try connected and with one if none did; the device owns the descriptor
of a try that connected and is registered under it; the others are closed and not in the map. -/
structure Sound (w : World) (r : Result) : Prop where
  ok : r = .ok ↔ w.connected ≠ []
  error : (∃ ec, r = .error ec) ↔ w.connected = []
  owned : ∀ fd ∈ w.connected, w.device = some fd ∧ fd ∈ w.fds ∧ fd ∈ w.handlers
  closed : ∀ fd ∈ w.opened, fd ∉ w.connected → fd ∉ w.fds ∧ fd ∉ w.handlers

/-- The addresses up to the first whose name is rejected: it ends the loop. -/
def reached : List Address → List Address
  | [] => []
  | .noName e :: _ => [.noName e]
  | a :: as => a :: reached as

/-- An address that no `connect` gets through, also not by being in progress. -/
def Address.Dead : Address → Prop
  | .noSocket | .noName _ | .tried (.refused _) => True
  | .tried .immediate | .tried (.inProgress _) => False

/-- **A try reports a connection** exactly when it was in progress and got there. -/
theorem asyncConnect_ok (w : World) (a : Answer) : (asyncConnect w a).2 = .ok () ↔ a = .inProgress .established := by
  cases a with
  | immediate => simp [asyncConnect]
  | refused e => simp [asyncConnect]
  | inProgress p => cases p <;> simp [asyncConnect]

/-- **One try reports truthfully** unless `connect` succeeds at once. -/
theorem asyncConnect_truthful_iff (w : World) (a : Answer) :
    ((asyncConnect w a).2 = .ok () ↔ a.connects = true) ↔ a ≠ .immediate := by
  rw [asyncConnect_ok]
  rcases a with _ | e | _ | _ | _ | _ <;> simp [Answer.connects]

/-- `ca2_impl` never completes without an error. -/
theorem ca2Loop_ne_ok (K : Kernel) (as : List Address) (w : World) (ec : Nat) : (ca2Loop K as w ec).2 ≠ .ok := by
  induction as generalizing w ec with
  | nil =>
      rw [ca2Loop]
      split <;> simp
  | cons a as ih =>
      cases a with
      | noSocket => exact ih _ _
      | noName e => simp [ca2Loop]
      | tried a =>
          rw [ca2Loop]
          split
          · simp
          · exact ih _ _

section Steps

variable {K : Kernel} {w : World} {a : Answer}

@[simp] theorem fds_note : (w.note a).fds = w.fds := rfl
@[simp] theorem opened_note : (w.note a).opened = w.opened := rfl
@[simp] theorem owner_note : (w.note a).owner = w.owner := rfl
@[simp] theorem handlers_note : (w.note a).handlers = w.handlers := rfl

/-- A descriptor that is opened and closed again leaves no trace. -/
theorem fds_dropOwner_socket : ((w.socket K).dropOwner).fds = w.fds := by
  have hne : ∀ fd ∈ w.fds, fd ≠ K.pick w.calls w.fds := by
    rintro fd hfd rfl
    exact K.fresh _ _ hfd
  show (K.pick w.calls w.fds :: w.fds).filter (fun fd => some fd ≠ (w.socket K).owner) = w.fds
  rw [List.filter_cons_of_neg (by simp [World.socket]), List.filter_eq_self]
  intro fd hfd
  simpa [World.socket] using hne fd hfd

/-- What a try does to the world, but for its descriptor. -/
theorem asyncConnect_frame (w : World) (a : Answer) :
    (asyncConnect w a).1.fds = w.fds ∧ (asyncConnect w a).1.opened = w.opened ∧
      (asyncConnect w a).1.connected = w.connected ∧
      ((asyncConnect w a).1.owner = w.owner ∨ (asyncConnect w a).1.owner = none) := by
  rcases a with _ | e | _ | _ | _ | _
  · exact ⟨rfl, rfl, rfl, .inl rfl⟩
  · exact ⟨rfl, rfl, rfl, .inl rfl⟩
  · exact ⟨rfl, rfl, rfl, .inr rfl⟩
  · exact ⟨rfl, rfl, rfl, .inr rfl⟩
  · exact ⟨rfl, rfl, rfl, .inr rfl⟩
  · exact ⟨rfl, rfl, rfl, .inr rfl⟩

/-! ## §4 — when nothing gets through. -/

/-- Nothing that was opened is left. -/
structure Clean (w : World) : Prop where
  connected : w.connected = []
  handlers : w.handlers = []
  closed : ∀ fd ∈ w.opened, fd ∉ w.fds

theorem clean_dropOwner (h : Clean w) : Clean (w.socket K).dropOwner where
  connected := h.connected
  handlers := h.handlers
  closed fd hfd := by
    rw [fds_dropOwner_socket]
    rcases List.mem_cons.mp hfd with rfl | hfd
    · exact K.fresh _ _
    · exact h.closed fd hfd

theorem clean_refused (e : Errno) (h : Clean w) : Clean ((w.socket K).note (.refused e)).dropOwner := by
  have := clean_dropOwner (K := K) h
  exact ⟨this.connected, this.handlers, this.closed⟩

/-- **Dead addresses**: nothing is left, and an error is reported if one of them had more than a missing socket. -/
theorem loop_dead : ∀ (as : List Address) (w : World) (ec : Nat), Clean w → (∀ a ∈ reached as, a.Dead) →
    Clean (ca2Loop K as w ec).1 ∧
      ((∃ e, (ca2Loop K as w ec).2 = .error e) ↔ ec ≠ 0 ∨ ∃ a ∈ reached as, a ≠ .noSocket) := by
  intro as
  induction as with
  | nil =>
      intro w ec hw _
      refine ⟨hw, ?_⟩
      by_cases h0 : ec = 0
      · simp [ca2Loop, reached, h0]
      · simp [ca2Loop, reached, h0]
  | cons a as ih =>
      intro w ec hw hdead
      cases a with
      | noSocket =>
          have hrest : ∀ a ∈ reached as, a.Dead := fun a ha => hdead a (List.mem_cons_of_mem _ ha)
          obtain ⟨hclean, hres⟩ := ih { w with calls := w.calls + 1 } ec ⟨hw.connected, hw.handlers, hw.closed⟩ hrest
          refine ⟨hclean, hres.trans (or_congr_right ?_)⟩
          simp [reached]
      | noName e =>
          refine ⟨clean_dropOwner hw, ?_⟩
          simp [ca2Loop, reached]
      | tried a =>
          have ha : (Address.tried a).Dead := hdead _ List.mem_cons_self
          rcases a with _ | e | p
          · exact absurd ha id
          · have hrest : ∀ a ∈ reached as, a.Dead := fun a ha => hdead a (List.mem_cons_of_mem _ ha)
            obtain ⟨hclean, hres⟩ := ih _ e.1 (clean_refused (K := K) e hw) hrest
            refine ⟨hclean, hres.trans ?_⟩
            have he : e.1 ≠ 0 := e.2
            simp [reached, he]
          · exact absurd ha id

/-! ## §5 — when something does. -/

/-- A connection that cannot be reported any more, or a descriptor that nobody will close. -/
def Bad (w : World) : Prop := w.connected ≠ [] ∨ ∃ fd ∈ w.opened, fd ∈ w.fds ∧ fd ∉ w.connected

theorem bad_socket (h : Bad w) : Bad (w.socket K).dropOwner := by
  rcases h with h | ⟨fd, ho, hf, hc⟩
  · exact .inl h
  · refine .inr ⟨fd, List.mem_cons_of_mem _ ho, ?_, hc⟩
    rw [fds_dropOwner_socket]
    exact hf

/-- A try takes nothing back. -/
theorem bad_try (h : Bad w) (a : Answer) : Bad (asyncConnect ((w.socket K).note a) a).1.dropOwner := by
  obtain ⟨hfds, hopened, hconn, howner⟩ := asyncConnect_frame ((w.socket K).note a) a
  rcases h with h | ⟨fd, ho, hf, hc⟩
  · left
    show (asyncConnect _ a).1.connected ≠ []
    rw [hconn]
    exact List.append_ne_nil_of_right_ne_nil _ h
  · by_cases hconnects : a.connects = true
    · left
      show (asyncConnect _ a).1.connected ≠ []
      rw [hconn]
      simp [World.note, hconnects, World.socket]
    · right
      have hne : fd ≠ K.pick w.calls w.fds := by
        rintro rfl
        exact K.fresh _ _ hf
      refine ⟨fd, ?_, ?_, ?_⟩
      · show fd ∈ (asyncConnect _ a).1.opened
        rw [hopened]
        exact List.mem_cons_of_mem _ ho
      · show fd ∈ (asyncConnect _ a).1.fds.filter _
        rw [hfds, List.mem_filter]
        refine ⟨List.mem_cons_of_mem _ hf, ?_⟩
        rcases howner with h | h
        · rw [h]
          simpa [World.socket] using hne
        · rw [h]
          simp
      · show fd ∉ (asyncConnect _ a).1.connected
        rw [hconn]
        simpa [World.note, hconnects, World.socket] using hc

/-- **A try that gets through `connect`** connects without a report, or leaves its descriptor behind. -/
theorem bad_of_not_dead (w : World) {a : Answer} (ha : ¬ (Address.tried a).Dead) :
    Bad (asyncConnect ((w.socket K).note a) a).1.dropOwner := by
  have hleft : ∀ w' : World, w'.opened = (w.socket K).opened → w'.fds = (w.socket K).fds → w'.owner = none →
      w'.connected = w.connected → Bad w'.dropOwner := by
    intro w' ho hf hown hc
    by_cases hnil : w.connected = []
    · right
      refine ⟨K.pick w.calls w.fds, ?_, ?_, ?_⟩
      · show _ ∈ w'.opened
        rw [ho]
        exact List.mem_cons_self
      · show _ ∈ w'.fds.filter _
        rw [hf, hown, List.mem_filter]
        exact ⟨List.mem_cons_self, by simp⟩
      · show _ ∉ w'.connected
        rw [hc, hnil]
        simp
    · left
      show w'.connected ≠ []
      rw [hc]
      exact hnil
  rcases a with _ | e | _ | _ | _ | _
  · left
    simp [asyncConnect, World.dropOwner, World.note, Answer.connects, World.socket]
  · exact absurd trivial ha
  · exact hleft _ rfl rfl rfl rfl
  · exact hleft _ rfl rfl rfl rfl
  · exact hleft _ rfl rfl rfl rfl
  · left
    simp [asyncConnect, World.dropOwner, World.note, Answer.connects, World.socket, World.emplace, World.register]

theorem loop_bad : ∀ (as : List Address) (w : World) (ec : Nat), (Bad w ∨ ∃ a ∈ reached as, ¬ a.Dead) →
    Bad (ca2Loop K as w ec).1 := by
  intro as
  induction as with
  | nil =>
      intro w ec h
      rcases h with h | ⟨a, ha, -⟩
      · exact h
      · cases ha
  | cons a as ih =>
      intro w ec h
      cases a with
      | noSocket =>
          apply ih
          rcases h with h | ⟨a, ha, hd⟩
          · exact .inl h
          · rcases List.mem_cons.mp ha with rfl | ha
            · exact absurd trivial hd
            · exact .inr ⟨a, ha, hd⟩
      | noName e =>
          rcases h with h | ⟨a, ha, hd⟩
          · exact bad_socket h
          · obtain rfl := List.mem_singleton.mp ha
            exact absurd trivial hd
      | tried a =>
          have hnext : Bad (asyncConnect ((w.socket K).note a) a).1.dropOwner ∨ ∃ b ∈ reached as, ¬ b.Dead := by
            rcases h with h | ⟨b, hb, hd⟩
            · exact .inl (bad_try h a)
            · rcases List.mem_cons.mp hb with rfl | hb
              · exact .inl (bad_of_not_dead w hd)
              · exact .inr ⟨b, hb, hd⟩
          rw [ca2Loop]
          split
          · rename_i w' hres
            -- the loop ends with the connection
            have hest : a = .inProgress .established := (asyncConnect_ok _ a).mp (by rw [hres])
            subst hest
            have hbad := bad_of_not_dead (K := K) w (a := .inProgress .established) id
            rw [hres] at hbad
            exact hbad
          · rename_i w' ec' hres
            apply ih
            rw [hres] at hnext
            exact hnext

theorem not_sound_of_bad {r : Result} (h : Bad w) (hr : r ≠ .ok) : ¬ Sound w r := by
  intro hs
  rcases h with h | ⟨fd, ho, hf, hc⟩
  · exact hr (hs.ok.mpr h)
  · exact (hs.closed fd ho hc).1 hf

end Steps

/-! ## §6 — the exact condition. -/

/-- **Connecting to a resolved address list** reports truthfully and leaks nothing exactly when no `connect` gets
anywhere, not even in progress, and one address at least fails with an error that is kept. -/
theorem ca2Impl_sound_iff (K : Kernel) (others : List Nat) (ais : List Address) :
    Sound (ca2Impl K others ais).1 (ca2Impl K others ais).2 ↔
      (∀ a ∈ reached ais, a.Dead) ∧ ∃ a ∈ reached ais, a ≠ .noSocket := by
  have hne : (ca2Impl K others ais).2 ≠ .ok := ca2Loop_ne_ok K ais _ _
  by_cases hdead : ∀ a ∈ reached ais, a.Dead
  · have hstart : Clean (World.start others) := ⟨rfl, rfl, by simp [World.start]⟩
    obtain ⟨hclean, hres⟩ := loop_dead (K := K) ais (World.start others) 0 hstart hdead
    constructor
    · intro hs
      have herr := hs.error.mpr hclean.connected
      have := hres.mp herr
      exact ⟨hdead, this.resolve_left (by simp)⟩
    · rintro ⟨-, hex⟩
      refine ⟨?_, ?_, ?_, ?_⟩
      · exact iff_of_false hne (not_not.mpr hclean.connected)
      · exact iff_of_true (hres.mpr (.inr hex)) hclean.connected
      · intro fd hfd
        rw [ca2Impl, hclean.connected] at hfd
        cases hfd
      · intro fd hfd _
        refine ⟨hclean.closed fd hfd, ?_⟩
        rw [ca2Impl, hclean.handlers]
        simp
  · refine iff_of_false ?_ fun h => hdead h.1
    obtain ⟨a, ha⟩ := not_forall.mp hdead
    obtain ⟨hmem, hlive⟩ := Classical.not_imp.mp ha
    exact not_sound_of_bad (loop_bad ais _ 0 (.inr ⟨a, hmem, hlive⟩)) hne

/-- The lowest descriptor that is free. -/
def lowest : Kernel where
  pick _ fds := ((List.range (fds.length + 1)).find? fun fd => !fds.contains fd).getD 0
  fresh _ fds := by
    cases hf : (List.range (fds.length + 1)).find? fun fd => !fds.contains fd with
    | some fd =>
        have := List.find?_some hf
        simpa using this
    | none =>
        exfalso
        rw [List.find?_eq_none] at hf
        have hsub : List.range (fds.length + 1) ⊆ fds := fun fd hfd => by simpa using hf fd hfd
        have hlen := (List.subperm_of_subset List.nodup_range hsub).length_le
        simp at hlen

/-- `ECONNREFUSED` at the first address, a connection at the second. -/
def twoAddresses : List Address :=
  [.tried (.inProgress (.soError ⟨111, by decide⟩)), .tried (.inProgress .established)]

/-- The second try connects on descriptor 4.  The descriptor of the first is open and in the map, and nothing is
reported. -/
theorem twoAddresses_unsound :
    (ca2Impl lowest [0, 1, 2] twoAddresses).1.connected = [4] ∧
      3 ∈ (ca2Impl lowest [0, 1, 2] twoAddresses).1.opened ∧ 3 ∈ (ca2Impl lowest [0, 1, 2] twoAddresses).1.fds ∧
      3 ∈ (ca2Impl lowest [0, 1, 2] twoAddresses).1.handlers ∧ (ca2Impl lowest [0, 1, 2] twoAddresses).2 = .missing ∧
      ¬ Sound (ca2Impl lowest [0, 1, 2] twoAddresses).1 (ca2Impl lowest [0, 1, 2] twoAddresses).2 := by
  refine ⟨by decide, by decide, by decide, by decide, by decide, fun h => ?_⟩
  exact absurd (h.closed 3 (by decide) (by decide)).1 (by decide)

end NetCpp.Net.Connect
