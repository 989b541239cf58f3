/-
# NetCpp.Http.Render — `render_head` in memory, beside `to_string`.

`src/asio/http/response.cpp`.  `to_string` appends to a string and cannot fail; `render_head` appends to a buffer of
`cap` bytes, and gives up at the first piece that does not fit.  The two are written one beside the other in the
source, piece by piece, and so they are here: `toString` is the first one, `render` is the chain of `append` calls with
its early returns.

`Appends cap f bs` says of a part of the chain that it appends `bs`, or gives up when `bs` does not fit, without a
copy that reaches `cap`.  It goes along `>=>`.
-/
import NetCpp.Http.ResponsePart
import NetCpp.Lib.Memory

namespace NetCpp.Http

open NetCpp.Lib

/-! ## §1 — the chain. -/

/-- The buffer and `off`.  `copies` is a history variable: where `memcpy` has written, and how much. -/
structure Rendering where
  buf : Block
  off : Nat := 0
  copies : List (Nat × Nat) := []

namespace Rendering

/-- `{buf, off}` -/
def shown (r : Rendering) : Bytes := slice r.buf 0 r.off

/-- `append`; what it leaves behind when it fails is the error. -/
def append (cap : Nat) (sv : Bytes) (r : Rendering) : Except Rendering Rendering :=
  if r.off + sv.length > cap then .error r
  else .ok {
    buf := write r.buf r.off sv
    off := r.off + sv.length
    copies := (r.off, sv.length) :: r.copies }

def appendEntry (cap : Nat) (e : Header) : Rendering → Except Rendering Rendering :=
  append cap e.1 >=> append cap (text ": ") >=> append cap e.2 >=> append cap CRLF

/-- The loop over the entries. -/
def appendEntries (cap : Nat) : List Header → Rendering → Except Rendering Rendering
  | [] => .ok
  | e :: rest => appendEntry cap e >=> appendEntries cap rest

def appendServer (cap : Nat) (headers : SmallHeaderMap) : Rendering → Except Rendering Rendering :=
  if headers.contains (text "Server") then .ok
  else append cap (text "Server: ") >=> append cap API_VERSION >=> append cap CRLF

end Rendering

open Rendering

namespace ResponsePart

def render (cap : Nat) (status : Bytes) (part : ResponsePart) : Rendering → Except Rendering Rendering :=
  append cap part.version.toStringView >=> append cap (text " ") >=> append cap status >=> append cap (text " ") >=>
    append cap part.statusMessage >=> append cap CRLF >=> appendEntries cap part.headers.entries >=>
    appendServer cap part.headers >=> append cap CRLF

/-- `render_head(buf, cap)`: the memory it leaves, and the view it returns. -/
def renderInto (cap : Nat) (buf : Block) (part : ResponsePart) : Except Fault (Rendering × Bytes) := do
  let status ← part.statusCode.toStringView
  match part.render cap status { buf := buf } with
  | .ok r => return (r, r.shown)
  | .error r => return (r, [])

end ResponsePart

/-! ## §2 — what a part of the chain does. -/

namespace Rendering

variable {cap : Nat} {r r' r'' : Rendering}

/-- `r'` comes from `r` by copies in front of `cap`. -/
structure Continues (cap : Nat) (r r' : Rendering) : Prop where
  off_le : r'.off ≤ cap
  copies : ∀ c ∈ r'.copies, c ∈ r.copies ∨ c.1 + c.2 ≤ cap
  beyond : ∀ i, cap ≤ i → r'.buf i = r.buf i

theorem Continues.refl (h : r.off ≤ cap) : Continues cap r r := ⟨h, fun _ hc => Or.inl hc, fun _ _ => rfl⟩

theorem Continues.trans (h : Continues cap r r') (h' : Continues cap r' r'') : Continues cap r r'' where
  off_le := h'.off_le
  copies c hc := by
    rcases h'.copies c hc with hc | hc
    · exact h.copies c hc
    · exact Or.inr hc
  beyond i hi := (h'.beyond i hi).trans (h.beyond i hi)

/-- **`f` appends `bs`**, or gives up when it does not fit. -/
def Appends (cap : Nat) (f : Rendering → Except Rendering Rendering) (bs : Bytes) : Prop :=
  ∀ r, r.off ≤ cap →
    (r.off + bs.length ≤ cap ∧ ∃ r', f r = .ok r' ∧ Continues cap r r' ∧ r'.off = r.off + bs.length ∧
      r'.shown = r.shown ++ bs) ∨
    (cap < r.off + bs.length ∧ ∃ r', f r = .error r' ∧ Continues cap r r')

theorem appends_ok : Appends cap .ok [] := by
  intro r hr
  exact Or.inl ⟨hr, r, rfl, Continues.refl hr, rfl, by rw [List.append_nil]⟩

/-- One piece. -/
theorem appends_append (sv : Bytes) : Appends cap (append cap sv) sv := by
  intro r hr
  by_cases hfit : r.off + sv.length > cap
  · exact Or.inr ⟨hfit, r, if_pos hfit, Continues.refl hr⟩
  · have hle : r.off + sv.length ≤ cap := Nat.le_of_not_lt hfit
    refine Or.inl ⟨hle, _, if_neg hfit, ?_, rfl, ?_⟩
    · constructor
      · exact hle
      · intro c hc
        rcases List.mem_cons.mp hc with rfl | hc
        · exact Or.inr hle
        · exact Or.inl hc
      · intro i hi
        exact dif_neg (by omega)
    · have hslice := slice_write_append r.buf 0 r.off sv
      rw [Nat.zero_add] at hslice
      exact hslice

/-- **Two parts**, one behind the other. -/
theorem Appends.comp {f g : Rendering → Except Rendering Rendering} {bs cs : Bytes} (hf : Appends cap f bs)
    (hg : Appends cap g cs) : Appends cap (f >=> g) (bs ++ cs) := by
  intro r hr
  have hlen : r.off + (bs ++ cs).length = r.off + bs.length + cs.length := by
    rw [List.length_append, Nat.add_assoc]
  have hbind : (f >=> g) r = f r >>= g := rfl
  rw [hlen, hbind]
  -- the second part is not reached when the first gives up
  rcases hf r hr with ⟨-, r₁, hr₁, hcont, hoff, hshown⟩ | ⟨hlt, r₁, hr₁, hcont⟩
  · rw [hr₁, ← hoff]
    rcases hg r₁ hcont.off_le with ⟨hle, r₂, hr₂, hcont₂, hoff₂, hshown₂⟩ | ⟨hlt, r₂, hr₂, hcont₂⟩
    · refine Or.inl ⟨hle, r₂, hr₂, hcont.trans hcont₂, hoff₂, ?_⟩
      rw [hshown₂, hshown, List.append_assoc]
    · exact Or.inr ⟨hlt, r₂, hr₂, hcont.trans hcont₂⟩
  · rw [hr₁]
    exact Or.inr ⟨by omega, r₁, rfl, hcont⟩

theorem appends_entries (entries : List Header) :
    Appends cap (appendEntries cap entries) (entries.flatMap fun e => e.1 ++ (text ": " ++ (e.2 ++ CRLF))) := by
  induction entries with
  | nil => exact appends_ok
  | cons e rest ih =>
    rw [List.flatMap_cons]
    apply Appends.comp _ ih
    apply (appends_append _).comp
    apply (appends_append _).comp
    exact (appends_append _).comp (appends_append _)

theorem appends_server (headers : SmallHeaderMap) :
    Appends cap (appendServer cap headers)
      (if headers.contains (text "Server") then [] else text "Server: " ++ (API_VERSION ++ CRLF)) := by
  unfold appendServer
  by_cases h : headers.contains (text "Server") = true
  · rw [if_pos h, if_pos h]
    exact appends_ok
  · rw [if_neg h, if_neg h]
    apply (appends_append _).comp
    exact (appends_append _).comp (appends_append _)

end Rendering

/-! ## §3 — the head. -/

namespace ResponsePart

theorem flatten_entries (entries : List Header) :
    (entries.flatMap fun e => [e.1, text ": ", e.2, CRLF]).flatten =
      entries.flatMap fun e => e.1 ++ (text ": " ++ (e.2 ++ CRLF)) := by
  induction entries with
  | nil => rfl
  | cons e rest ih =>
    rw [List.flatMap_cons, List.flatten_append, ih, List.flatMap_cons]
    simp

/-- **The chain appends what `to_string` appends.** -/
theorem appends_render {part : ResponsePart} {status head : Bytes} (cap : Nat)
    (hstatus : part.statusCode.toStringView = .ok status) (hhead : part.toString = .ok head) :
    Appends cap (part.render cap status) head := by
  have hpieces : head = part.version.toStringView ++ (text " " ++ (status ++ (text " " ++ (part.statusMessage ++ (CRLF ++
      ((part.headers.entries.flatMap fun e => e.1 ++ (text ": " ++ (e.2 ++ CRLF))) ++
        ((if part.headers.contains (text "Server") then [] else text "Server: " ++ (API_VERSION ++ CRLF)) ++
          CRLF))))))) := by
    rw [toString, pieces, hstatus] at hhead
    rw [← Except.ok.inj hhead]
    by_cases hserver : part.headers.contains (text "Server") = true
    · simp [hserver, flatten_entries]
    · simp [hserver, flatten_entries]
  rw [hpieces]
  apply (appends_append _).comp
  apply (appends_append _).comp
  apply (appends_append _).comp
  apply (appends_append _).comp
  apply (appends_append _).comp
  apply (appends_append _).comp
  apply (appends_entries _).comp
  exact (appends_server _).comp (appends_append _)

/-- **`render_head` against `to_string`**: the same bytes when they fit, the empty view when not, and no copy that
reaches `cap`. -/
theorem renderInto_spec (part : ResponsePart) (cap : Nat) (buf : Block) :
    ∃ head r, part.toString = .ok head ∧ part.renderInto cap buf = .ok (r, if head.length ≤ cap then head else []) ∧
      (∀ c ∈ r.copies, c.1 + c.2 ≤ cap) ∧ ∀ i, cap ≤ i → r.buf i = buf i := by
  obtain ⟨status, hstatus⟩ := part.statusCode.exists_toStringView
  obtain ⟨head, hhead⟩ := part.exists_toString
  rcases appends_render cap hstatus hhead { buf := buf } (Nat.zero_le cap) with
    ⟨hle, r, hr, hcont, hoff, hshown⟩ | ⟨hlt, r, hr, hcont⟩
  · refine ⟨head, r, hhead, ?_, ?_, hcont.beyond⟩
    · rw [Nat.zero_add] at hle
      have hview : r.shown = head := by
        rw [hshown]
        rfl
      rw [renderInto, hstatus, if_pos hle, ← hview]
      simp only [bind, Except.bind, hr]
      rfl
    · intro c hc
      rcases hcont.copies c hc with hc | hc
      · cases hc
      · exact hc
  · refine ⟨head, r, hhead, ?_, ?_, hcont.beyond⟩
    · rw [Nat.zero_add] at hlt
      rw [renderInto, hstatus, if_neg (Nat.not_le.mpr hlt)]
      simp only [bind, Except.bind, hr]
      rfl
    · intro c hc
      rcases hcont.copies c hc with hc | hc
      · cases hc
      · exact hc

end ResponsePart

end NetCpp.Http
