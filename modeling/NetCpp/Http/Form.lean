/-
# NetCpp.Http.Form — the grammar behind the target expressions.

`include/xsl/net/http/request/target.h`.  The four alternatives OVERLAP: `/a#b` is no origin form, and the
authority form takes it as a host; the empty target is an origin form with an empty path.  `Target` lists the
texts of each form with what the alternatives before it leave to it, so that every text that matches is the text
of ONE target, and `matchTarget_bytes` says with which groups.
-/
import NetCpp.Http.Percent

namespace NetCpp.Http

open NetCpp.Lib

/-! ## §1 — the texts of the forms. -/

inductive Target
  | origin (segs : List Bytes) (query : Option Bytes)
  | absolute (scheme : Bytes) (userinfo : Option Bytes) (host : Bytes) (port : Option Bytes) (segs : List Bytes)
      (query : Option Bytes)
  | authority (host : Bytes) (port : Option Bytes)
  | asterisk
deriving DecidableEq, Repr

/-- `user@` -/
def userPart : Option Bytes → Bytes
  | none => []
  | some user => user ++ [64]

/-- `:port` -/
def portPart : Option Bytes → Bytes
  | none => []
  | some port => 58 :: port

/-- The span of the port that ends the host at `n`; a target of `len` bytes. -/
def portSpan (n len : Nat) : Option Bytes → Span
  | none => (len, len)
  | some port => (n + 1, n + 1 + port.length)

namespace Target

/-- Behind `scheme://`. -/
def authorityPart (userinfo : Option Bytes) (host : Bytes) (port : Option Bytes) : Bytes :=
  userPart userinfo ++ (host ++ portPart port)

def bytes : Target → Bytes
  | origin segs query => pathOf segs ++ queryPart query
  | absolute scheme userinfo host port segs query =>
      scheme ++ 58 :: 47 :: 47 :: (authorityPart userinfo host port ++ (pathOf segs ++ queryPart query))
  | authority host port => host ++ portPart port
  | asterisk => [42]

/-- What each alternative takes, and the ones before it do not. -/
def Valid : Target → Prop
  | origin segs query => PathSegs segs ∧ Free (text "#") (query.getD [])
  | absolute scheme userinfo host port segs query =>
      scheme ≠ [] ∧ Free (text ":/?#") scheme ∧ Free (text "/?#@") (userinfo.getD []) ∧
        Free (text "/?#:") host ∧ Free (text "/?#") (port.getD []) ∧
        -- the user is everything up to the first `@`
        (userinfo = none → 64 ∉ host ++ portPart port) ∧ PathSegs segs ∧ Free (text "#") (query.getD [])
  | authority host port =>
      Free (text ":*") host ∧ (∀ b ∈ port.getD [], 48 ≤ b ∧ b ≤ 57) ∧
        -- what looks like an origin form is one, unless there is a `#` in it
        (35 ∈ host ∨ host.head? ≠ some 47 ∧ host.head? ≠ some 63 ∧ (host = [] → port ≠ none))
  | asterisk => True

/-- The form of the target, with the places of its parts. -/
def form : Target → Form
  | origin segs query => .origin (0, (pathOf segs).length) (querySpan (pathOf segs).length query)
  | absolute scheme userinfo host port segs query =>
      let h := scheme.length + 3 + (userPart userinfo).length
      let p := scheme.length + 3 + (authorityPart userinfo host port).length
      let e := p + (pathOf segs).length
      .absolute (0, scheme.length) (h, h + host.length) (portSpan (h + host.length) (e + (queryPart query).length) port)
        (p, e) (querySpan e query)
  | authority host port => .authority (0, host.length) (portSpan host.length host.length port)
  | asterisk => .asterisk

end Target

/-! ## §2 — what matches is the text of a target. -/

theorem mem_lang_char {c : Char} {t : Bytes} (h : t ∈ (char c).lang) : t = [c.toNat.toUInt8] := by
  obtain ⟨b, hb, rfl⟩ := h
  rw [beq_iff_eq.mp hb]

theorem free_of_mem_star {s : String} {t : Bytes} (h : t ∈ (Re.star (noneOf s)).lang) : Free (text s) t := by
  intro b hb
  simpa using Re.forall_of_mem_star_cls h b hb

theorem exists_segs {t : Bytes} (h : t ∈ pathRe.lang) : ∃ segs, PathSegs segs ∧ t = pathOf segs := by
  obtain ⟨ts, rfl, hts⟩ := Language.mem_kstar.mp h
  clear h
  induction ts with
  | nil => exact ⟨[], by simp [PathSegs], rfl⟩
  | cons y ts ih =>
      obtain ⟨segs, hsegs, he⟩ := ih fun u hu => hts u (List.mem_cons_of_mem _ hu)
      obtain ⟨u, hu, s, hs, rfl⟩ := hts y List.mem_cons_self
      obtain rfl := mem_lang_char hu
      refine ⟨s :: segs, ?_, ?_⟩
      · intro s' hs' b hb
        rcases List.mem_cons.mp hs' with rfl | hs'
        · exact noneOf_path.mp (by simpa using free_of_mem_star hs b hb)
        · exact hsegs s' hs' b hb
      · rw [List.flatten_cons, he, pathOf_cons]
        rfl

theorem exists_query {n : Nat} {t : Bytes} (h : t ∈ (queryRe n).lang) :
    ∃ query : Option Bytes, Free (text "#") (query.getD []) ∧ t = queryPart query := by
  rcases h with h | h
  · exact ⟨none, by simp [Free], h⟩
  · obtain ⟨u, hu, q, hq, rfl⟩ := h
    obtain rfl := mem_lang_char hu
    exact ⟨some q, free_of_mem_star hq, rfl⟩

theorem exists_port {e : Re UInt8} {n : Nat} {t : Bytes} (h : t ∈ (Re.opt (.seq (char ':') (.group n e))).lang) :
    ∃ port : Option Bytes, (∀ p, port = some p → p ∈ e.lang) ∧ t = portPart port := by
  rcases h with h | h
  · exact ⟨none, by simp, h⟩
  · obtain ⟨u, hu, p, hp, rfl⟩ := h
    obtain rfl := mem_lang_char hu
    exact ⟨some p, by rintro _ ⟨⟩; exact hp, rfl⟩

theorem Free.append {cs s t : Bytes} (hs : Free cs s) (ht : Free cs t) : Free cs (s ++ t) := by
  intro b hb
  rcases List.mem_append.mp hb with h | h
  · exact hs b h
  · exact ht b h

theorem Free.mono {cs cs' s : Bytes} (h : Free cs s) (hsub : ∀ b ∈ cs', b ∈ cs) : Free cs' s :=
  fun b hb hc => h b hb (hsub b hc)

theorem Free.of_append {cs s t : Bytes} (h : Free cs (s ++ t)) : Free cs s ∧ Free cs t :=
  ⟨fun b hb => h b (List.mem_append_left _ hb), fun b hb => h b (List.mem_append_right _ hb)⟩

theorem Free.insert {cs s : Bytes} {c : UInt8} (h : Free cs s) (hc : c ∉ s) {cs' : Bytes}
    (hcs : ∀ b ∈ cs', b = c ∨ b ∈ cs) : Free cs' s := by
  intro b hb hb'
  rcases hcs b hb' with rfl | hbc
  · exact hc hb
  · exact h b hb hbc

/-- **Every authority is read in one way**: the user up to the first `@`, then the host up to the first colon. -/
theorem exists_authorityPart {t : Bytes} (h : Free (text "/?#") t) :
    ∃ userinfo host port, t = Target.authorityPart userinfo host port ∧ Free (text "/?#@") (userinfo.getD []) ∧
      Free (text "/?#:") host ∧ Free (text "/?#") (port.getD []) ∧ (userinfo = none → 64 ∉ host ++ portPart port) := by
  have hhost : ∀ u : Bytes, Free (text "/?#") u →
      ∃ host port, u = host ++ portPart port ∧ Free (text "/?#:") host ∧ Free (text "/?#") (port.getD []) := by
    intro u hu
    rcases cut_at 58 u with h58 | ⟨host, port, h58, rfl⟩
    · exact ⟨u, none, by simp [portPart], hu.insert h58 (by decide +kernel), by simp [Free]⟩
    · obtain ⟨h1, h2⟩ := hu.of_append
      exact ⟨host, some port, rfl, h1.insert h58 (by decide +kernel), fun b hb => h2 b (List.mem_cons_of_mem _ hb)⟩
  rcases cut_at 64 t with h64 | ⟨user, u, h64, rfl⟩
  · obtain ⟨host, port, rfl, h1, h2⟩ := hhost t h
    exact ⟨none, host, port, rfl, by simp [Free], h1, h2, fun _ => h64⟩
  · obtain ⟨h0, hu⟩ := h.of_append
    obtain ⟨host, port, rfl, h1, h2⟩ := hhost u fun b hb => hu b (List.mem_cons_of_mem _ hb)
    exact ⟨some user, host, port, by simp [Target.authorityPart, userPart], h0.insert h64 (by decide +kernel), h1, h2, nofun⟩

/-- A text that begins like an origin form and has no `#` is one. -/
theorem exists_origin {t : Bytes} (h35 : 35 ∉ t) (hhead : t = [] ∨ t.head? = some 47 ∨ t.head? = some 63) :
    ∃ T : Target, T.Valid ∧ T.bytes = t := by
  have hpath : ∀ p : Bytes, 35 ∉ p → 63 ∉ p → (p = [] ∨ p.head? = some 47) → ∃ segs, PathSegs segs ∧ p = pathOf segs := by
    intro p hp35 hp63 hp
    rcases hp with rfl | hp
    · exact ⟨[], by simp [PathSegs], rfl⟩
    · refine ⟨segments p, ?_, (pathOf_segments hp).symm⟩
      intro s hs b hb
      have hbp : b ∈ p := by
        rw [← pathOf_segments hp]
        exact List.mem_flatMap.mpr ⟨s, hs, List.mem_cons_of_mem _ hb⟩
      refine ⟨?_, ?_, ?_⟩
      · rintro rfl; exact plain_segments p s hs hb
      · rintro rfl; exact hp63 hbp
      · rintro rfl; exact hp35 hbp
  have htext : text "#" = [35] := by decide
  rcases cut_at 63 t with h63 | ⟨p, q, h63, rfl⟩
  · obtain ⟨segs, hsegs, rfl⟩ := hpath t h35 h63 (by
      rcases hhead with h | h | h
      · exact Or.inl h
      · exact Or.inr h
      · exact absurd (List.mem_of_mem_head? h) h63)
    exact ⟨.origin segs none, ⟨hsegs, by simp [Free]⟩, by simp [Target.bytes, queryPart]⟩
  · obtain ⟨segs, hsegs, rfl⟩ := hpath p (fun h => h35 (List.mem_append_left _ h)) h63 (by
      cases p with
      | nil => exact Or.inl rfl
      | cons b p =>
          rcases hhead with h | h | h
          · cases h
          · exact Or.inr h
          · exact absurd (by simpa using h.symm) (List.ne_of_not_mem_cons h63))
    refine ⟨.origin segs (some q), ⟨hsegs, ?_⟩, rfl⟩
    intro b hb
    rw [htext, List.mem_singleton]
    rintro rfl
    exact h35 (List.mem_append_right _ (List.mem_cons_of_mem _ hb))

/-- **A text of the absolute form** is read in one way, its user and host told apart anew. -/
theorem exists_absolute {bytes : Bytes} (h : bytes ∈ absoluteRe.lang) :
    ∃ scheme userinfo host port segs query, (Target.absolute scheme userinfo host port segs query).Valid ∧
      (Target.absolute scheme userinfo host port segs query).bytes = bytes := by
  obtain ⟨_, rfl, _, ⟨scheme, hs, _, ⟨c1, hc1, _, ⟨c2, hc2, _, ⟨c3, hc3, _, ⟨user, hu, _, ⟨host, hh, _,
    ⟨port, hp, _, ⟨p, hpath, q, hq, rfl⟩, rfl⟩, rfl⟩, rfl⟩, rfl⟩, rfl⟩, rfl⟩, rfl⟩, rfl⟩ := h
  obtain rfl := mem_lang_char hc1
  obtain rfl := mem_lang_char hc2
  obtain rfl := mem_lang_char hc3
  obtain ⟨segs, hsegs, rfl⟩ := exists_segs hpath
  obtain ⟨query, hquery, rfl⟩ := exists_query hq
  obtain ⟨port, hport, rfl⟩ := exists_port hp
  have huser : Free (text "/?#") user := by
    rcases hu with hu | ⟨u, hu, _, hat, rfl⟩
    · rw [show user = [] from hu]
      simp [Free]
    · obtain rfl := mem_lang_char hat
      exact ((free_of_mem_star hu).mono (by decide +kernel)).append (by decide +kernel)
  have hport' : Free (text "/?#") (portPart port) := by
    cases port with
    | none => simp [portPart, Free]
    | some p =>
        intro b hb
        rcases List.mem_cons.mp hb with rfl | hb
        · decide
        · exact free_of_mem_star (hport p rfl) b hb
  have hscheme : scheme ≠ [] ∧ Free (text ":/?#") scheme := by
    obtain ⟨_, ⟨b, hb, rfl⟩, s, hs, rfl⟩ := hs
    refine ⟨by simp, ?_⟩
    intro c hc
    rcases List.mem_cons.mp hc with rfl | hc
    · simpa using hb
    · exact free_of_mem_star hs c hc
  obtain ⟨userinfo, host', port', he, h1, h2, h3, h4⟩ := exists_authorityPart
    (huser.append (((free_of_mem_star hh).mono (by decide +kernel)).append hport'))
  refine ⟨scheme, userinfo, host', port', segs, query,
    ⟨hscheme.1, hscheme.2, h1, h2, h3, h4, hsegs, hquery⟩, ?_⟩
  rw [Target.bytes, ← he]
  simp only [List.nil_append, List.append_assoc]
  rfl

/-- **What an expression matches is the text of a target.** -/
theorem exists_target {bytes : Bytes} (h : bytes ∈ targetRe.lang) : ∃ T : Target, T.Valid ∧ T.bytes = bytes := by
  rcases h with h | h | h | h
  · -- the origin form
    obtain ⟨_, rfl, _, ⟨p, hp, q, hq, rfl⟩, rfl⟩ := h
    obtain ⟨segs, hsegs, rfl⟩ := exists_segs hp
    obtain ⟨query, hquery, rfl⟩ := exists_query hq
    exact ⟨.origin segs query, ⟨hsegs, hquery⟩, rfl⟩
  · obtain ⟨scheme, userinfo, host, port, segs, query, h⟩ := exists_absolute h
    exact ⟨.absolute scheme userinfo host port segs query, h⟩
  · -- the authority form, or an origin form
    obtain ⟨_, rfl, _, ⟨host, hh, _, hp, rfl⟩, rfl⟩ := h
    obtain ⟨port, hport, rfl⟩ := exists_port hp
    have hdigits : ∀ b ∈ port.getD [], 48 ≤ b ∧ b ≤ 57 := by
      cases port with
      | none => simp
      | some p => simpa [digit] using Re.forall_of_mem_star_cls (hport p rfl)
    by_cases hlike : 35 ∉ host ∧ (host.head? = some 47 ∨ host.head? = some 63 ∨ host = [] ∧ port = none)
    · obtain ⟨h35, hhead⟩ := hlike
      show ∃ T : Target, T.Valid ∧ T.bytes = host ++ portPart port
      apply exists_origin
      · intro h
        rcases List.mem_append.mp h with h | h
        · exact h35 h
        · cases port with
          | none => cases h
          | some p =>
              rcases List.mem_cons.mp h with h | h
              · cases h
              · exact absurd (hdigits 35 h) (by decide)
      · rcases hhead with h | h | ⟨rfl, rfl⟩
        · exact Or.inr (Or.inl (by rw [List.head?_append, h]; rfl))
        · exact Or.inr (Or.inr (by rw [List.head?_append, h]; rfl))
        · exact Or.inl rfl
    · refine ⟨.authority host port, ⟨free_of_mem_star hh, hdigits, ?_⟩, rfl⟩
      by_cases h35 : 35 ∈ host
      · exact Or.inl h35
      · right
        refine ⟨fun h => hlike ⟨h35, Or.inl h⟩, fun h => hlike ⟨h35, Or.inr (Or.inl h)⟩, ?_⟩
        exact fun hn hp => hlike ⟨h35, Or.inr (Or.inr ⟨hn, hp⟩)⟩
  · obtain ⟨_, rfl, v, hv, rfl⟩ := h
    exact ⟨.asterisk, trivial, (mem_lang_char hv).symm⟩

/-! ## §3 — the text of a target matches in its own form. -/

/-- The parts of `absoluteRe` behind the scheme, each with what follows it. -/
def pathQueryRe : Re UInt8 := .seq (.group 6 pathRe) (queryRe 7)

def portRe : Re UInt8 := .seq (.opt (.seq (char ':') (.group 5 (.star (noneOf "/?#"))))) pathQueryRe

def hostRe : Re UInt8 := .seq (.group 4 (.star (noneOf "/?#:"))) portRe

def userRe : Re UInt8 := .seq (.opt (.seq (.star (noneOf "/?#@")) (char '@'))) hostRe

section Run

variable {β : Type} {k : Nat → Bytes → Caps → Option β} {pos : Nat} {rest : Bytes} {caps : Caps} {r : β}

theorem run_noneOf {s : String} {b : UInt8} (hb : b ∉ text s) (h : k (pos + 1) rest caps = some r) :
    (noneOf s).run pos (b :: rest) caps k = some r :=
  Re.run_cls_cons (by simpa using hb) h

/-- Behind a path stands its query or nothing, behind an authority a path too. -/
theorem head_pathQuery {segs : List Bytes} {query : Option Bytes} {b : UInt8}
    (h : (pathOf segs ++ queryPart query).head? = some b) : b = 47 ∨ b = 63 := by
  cases segs with
  | nil =>
      cases query with
      | none => cases h
      | some q => exact Or.inr (Option.some.inj h).symm
  | cons s segs => exact Or.inl (by simpa using h.symm)

theorem run_pathQueryRe {segs : List Bytes} {query : Option Bytes} (hs : PathSegs segs)
    (hq : Free (text "#") (query.getD [])) :
    pathQueryRe.run pos (pathOf segs ++ queryPart query) caps stop =
      some (setOpt 7 (query.map fun q => (pos + (pathOf segs).length + 1, pos + (pathOf segs).length + 1 + q.length))
        (Caps.set 6 (pos, pos + (pathOf segs).length) caps)) := by
  exact run_pathQuery 6 7 hs hq

theorem run_portRe {port query : Option Bytes} {segs : List Bytes} (hp : Free (text "/?#") (port.getD []))
    (h : ∀ caps', caps' = setOpt 5 (port.map fun p => (pos + 1, pos + 1 + p.length)) caps →
      pathQueryRe.run (pos + (portPart port).length) (pathOf segs ++ queryPart query) caps' k = some r) :
    portRe.run pos (portPart port ++ (pathOf segs ++ queryPart query)) caps k = some r := by
  rw [portRe, Re.run_seq]
  cases port with
  | none =>
      apply Re.run_opt_none
      · rw [Re.run_seq]
        apply run_char_none
        intro hb
        rcases head_pathQuery hb with h | h <;> exact absurd h (by decide)
      · exact h _ rfl
  | some p =>
      apply Re.run_opt_some
      rw [Re.run_seq]
      apply run_char ':'
      rw [Re.run_group]
      apply Re.run_star_cls p (noneOf_true hp)
      · intro b hb
        rcases head_pathQuery hb with rfl | rfl <;> decide
      · have := h _ rfl
        rw [show pos + (portPart (some p)).length = pos + 1 + p.length by simp [portPart]; omega] at this
        exact this

theorem run_hostRe {host : Bytes} {port query : Option Bytes} {segs : List Bytes} (hh : Free (text "/?#:") host)
    (h : portRe.run (pos + host.length) (portPart port ++ (pathOf segs ++ queryPart query))
      (Caps.set 4 (pos, pos + host.length) caps) k = some r) :
    hostRe.run pos (host ++ (portPart port ++ (pathOf segs ++ queryPart query))) caps k = some r := by
  rw [hostRe, Re.run_seq, Re.run_group]
  apply Re.run_star_cls host (noneOf_true hh)
  · intro b hb
    cases port with
    | none => rcases head_pathQuery hb with rfl | rfl <;> decide
    | some p =>
        obtain rfl : b = 58 := by simpa [portPart] using hb.symm
        decide
  · exact h

/-- **The user is told by its `@`**: without one in the authority, there is no user. -/
theorem run_userRe {userinfo port query : Option Bytes} {host : Bytes} {segs : List Bytes}
    (hu : Free (text "/?#@") (userinfo.getD [])) (hno : userinfo = none → 64 ∉ host ++ portPart port)
    (h : hostRe.run (pos + (userPart userinfo).length) (host ++ (portPart port ++ (pathOf segs ++ queryPart query)))
      caps k = some r) :
    userRe.run pos (userPart userinfo ++ (host ++ (portPart port ++ (pathOf segs ++ queryPart query)))) caps k =
      some r := by
  rw [userRe, Re.run_seq]
  cases userinfo with
  | some u =>
      apply Re.run_opt_some
      rw [Re.run_seq, userPart, List.append_assoc]
      apply Re.run_star_cls u (noneOf_true hu)
      · intro b hb
        obtain rfl : b = 64 := by simpa using hb.symm
        decide
      · apply run_char '@'
        rw [show pos + (userPart (some u)).length = pos + u.length + 1 by simp [userPart]; omega] at h
        exact h
  | none =>
      apply Re.run_opt_none _ h
      rw [Option.eq_none_iff_forall_ne_some]
      intro x hx
      obtain ⟨t, u, _, ht, ⟨v, hv, _, hat, rfl⟩, -⟩ := Re.run_consumes _ hx
      obtain rfl := mem_lang_char hat
      have hv' := free_of_mem_star hv
      -- the `@` would stand in the authority, which has none, or behind a `/` or `?`
      have he : (host ++ portPart port) ++ (pathOf segs ++ queryPart query) = v ++ 64 :: u := by
        simpa [userPart] using ht
      by_cases hlen : v.length < (host ++ portPart port).length
      · have he' : (host ++ portPart port) ++ (pathOf segs ++ queryPart query) = (v ++ [64]) ++ u := by
          simpa using he
        obtain ⟨w, hw, -⟩ := exists_of_append_eq he' (by rw [List.length_append, List.length_singleton]; omega)
        apply hno rfl
        rw [hw]
        simp
      · obtain ⟨w, rfl, hw⟩ := exists_of_append_eq he.symm (Nat.le_of_not_lt hlen)
        cases w with
        | nil =>
            have hb : (pathOf segs ++ queryPart query).head? = some 64 := by rw [← hw]; rfl
            rcases head_pathQuery hb with h | h <;> cases h
        | cons b w =>
            have hb : (pathOf segs ++ queryPart query).head? = some b := by rw [← hw]; rfl
            have hbv := hv' b (by simp)
            rcases head_pathQuery hb with rfl | rfl <;> exact hbv (by decide)

end Run

/-- The captures of an absolute form. -/
def absoluteCaps (scheme : Bytes) (userinfo : Option Bytes) (host : Bytes) (port : Option Bytes) (segs : List Bytes)
    (query : Option Bytes) : Caps :=
  let h := scheme.length + 3 + (userPart userinfo).length
  let p := h + host.length + (portPart port).length
  let e := p + (pathOf segs).length
  setOpt 7 (query.map fun q => (e + 1, e + 1 + q.length)) <| Caps.set 6 (p, e) <|
    setOpt 5 (port.map fun o => (h + host.length + 1, h + host.length + 1 + o.length)) <|
      Caps.set 4 (h, h + host.length) <| Caps.set 3 (0, scheme.length) fun _ => none

theorem run_absoluteRe {scheme : Bytes} {userinfo : Option Bytes} {host : Bytes} {port : Option Bytes}
    {segs : List Bytes} {query : Option Bytes} (h : (Target.absolute scheme userinfo host port segs query).Valid) :
    absoluteRe.run 0 (Target.absolute scheme userinfo host port segs query).bytes (fun _ => none) stop =
      some (absoluteCaps scheme userinfo host port segs query) := by
  obtain ⟨hne, hscheme, huser, hhost, hport, hno, hsegs, hquery⟩ := h
  have hrest : userRe.run (scheme.length + 3)
      (userPart userinfo ++ (host ++ (portPart port ++ (pathOf segs ++ queryPart query))))
      (Caps.set 3 (0, scheme.length) fun _ => none) stop =
      some (absoluteCaps scheme userinfo host port segs query) := by
    apply run_userRe huser hno
    apply run_hostRe hhost
    apply run_portRe hport
    rintro _ rfl
    exact run_pathQueryRe hsegs hquery
  obtain ⟨b, s, rfl⟩ := List.exists_cons_of_ne_nil hne
  have hs : Free (text ":/?#") s := fun c hc => hscheme c (List.mem_cons_of_mem _ hc)
  have hbytes : (Target.absolute (b :: s) userinfo host port segs query).bytes =
      b :: (s ++ 58 :: 47 :: 47 :: (userPart userinfo ++ (host ++ (portPart port ++ (pathOf segs ++ queryPart query))))) := by
    simp [Target.bytes, Target.authorityPart]
  rw [hbytes, absoluteRe, Re.run_seq, Re.run, if_pos rfl, Re.run_seq, Re.run_group, plus, Re.run_seq]
  apply run_noneOf (hscheme b List.mem_cons_self)
  apply Re.run_star_cls s (noneOf_true hs)
  · intro c hc
    obtain rfl : c = 58 := by simpa using hc.symm
    decide
  · rw [Re.run_seq]
    apply run_char ':'
    rw [Re.run_seq]
    apply run_char '/'
    rw [Re.run_seq]
    apply run_char '/'
    rw [show 0 + 1 + s.length = (b :: s).length by simp; omega]
    exact hrest

/-! ## §4 — the alternatives that do not match. -/

theorem run_stop_none {e : Re UInt8} {s : Bytes} {pos : Nat} {caps : Caps} (h : s ∉ e.lang) :
    e.run pos s caps stop = none := by
  rw [Option.eq_none_iff_forall_ne_some]
  intro x hx
  obtain ⟨t, u, caps', rfl, ht, hstop⟩ := Re.run_consumes e hx
  unfold stop at hstop
  split at hstop
  · rename_i hu
    exact h (by rwa [hu, List.append_nil])
  · cases hstop

theorem not_mem_pathOf {segs : List Bytes} (h : PathSegs segs) : 35 ∉ pathOf segs := by
  intro hmem
  obtain ⟨s, hs, hb⟩ := List.mem_flatMap.mp hmem
  rcases List.mem_cons.mp hb with hb | hb
  · cases hb
  · exact (h s hs 35 hb).2.2 rfl

theorem of_mem_originRe {s : Bytes} (h : s ∈ originRe.lang) :
    35 ∉ s ∧ (s = [] ∨ s.head? = some 47 ∨ s.head? = some 63) := by
  obtain ⟨_, rfl, _, ⟨p, hp, q, hq, rfl⟩, rfl⟩ := h
  obtain ⟨segs, hsegs, rfl⟩ := exists_segs hp
  obtain ⟨query, hquery, rfl⟩ := exists_query hq
  show 35 ∉ pathOf segs ++ queryPart query ∧ (pathOf segs ++ queryPart query = [] ∨
    (pathOf segs ++ queryPart query).head? = some 47 ∨ (pathOf segs ++ queryPart query).head? = some 63)
  constructor
  · intro hmem
    rcases List.mem_append.mp hmem with hmem | hmem
    · exact not_mem_pathOf hsegs hmem
    · cases query with
      | none => cases hmem
      | some q =>
          rcases List.mem_cons.mp hmem with hb | hb
          · cases hb
          · exact hquery 35 hb (by decide)
  · cases hb : (pathOf segs ++ queryPart query).head? with
    | none => exact Or.inl (List.head?_eq_none_iff.mp hb)
    | some b => rcases head_pathQuery hb with rfl | rfl <;> simp

theorem of_mem_absoluteRe {s : Bytes} (h : s ∈ absoluteRe.lang) :
    ∃ scheme rest, scheme ≠ [] ∧ 58 ∉ scheme ∧ s = scheme ++ 58 :: 47 :: rest := by
  obtain ⟨_, rfl, _, ⟨scheme, hs, _, ⟨c1, hc1, _, ⟨c2, hc2, rest, -, rfl⟩, rfl⟩, rfl⟩, rfl⟩ := h
  obtain rfl := mem_lang_char hc1
  obtain rfl := mem_lang_char hc2
  obtain ⟨_, ⟨b, hb, rfl⟩, t, ht, rfl⟩ := hs
  refine ⟨b :: t, rest, by simp, ?_, rfl⟩
  intro hmem
  rcases List.mem_cons.mp hmem with rfl | hmem
  · revert hb; decide
  · exact free_of_mem_star ht 58 hmem (by decide)

theorem absolute_not_origin {scheme : Bytes} {userinfo : Option Bytes} {host : Bytes} {port : Option Bytes}
    {segs : List Bytes} {query : Option Bytes} (h : (Target.absolute scheme userinfo host port segs query).Valid) :
    (Target.absolute scheme userinfo host port segs query).bytes ∉ originRe.lang := by
  intro hmem
  obtain ⟨hne, hscheme, -⟩ := h
  obtain ⟨b, s, rfl⟩ := List.exists_cons_of_ne_nil hne
  have hb := hscheme b List.mem_cons_self
  rcases (of_mem_originRe hmem).2 with h | h | h
  · cases h
  · obtain rfl : b = 47 := by simpa [Target.bytes] using h
    exact hb (by decide)
  · obtain rfl : b = 63 := by simpa [Target.bytes] using h
    exact hb (by decide)

section Authority

variable {host : Bytes} {port : Option Bytes}

theorem authority_not_origin (h : (Target.authority host port).Valid) :
    (Target.authority host port).bytes ∉ originRe.lang := by
  intro hmem
  obtain ⟨-, -, h⟩ := h
  obtain ⟨h35, hhead⟩ := of_mem_originRe hmem
  rcases h with h | ⟨h47, h63, hemp⟩
  · exact h35 (List.mem_append_left _ h)
  · have hport : host = [] → ∃ p, port = some p := fun he => Option.ne_none_iff_exists'.mp (hemp he)
    cases host with
    | cons b host =>
        rcases hhead with h | h | h
        · cases h
        · exact h47 h
        · exact h63 h
    | nil =>
        obtain ⟨p, rfl⟩ := hport rfl
        rcases hhead with h | h | h <;> cases h

theorem authority_not_absolute (h : (Target.authority host port).Valid) :
    (Target.authority host port).bytes ∉ absoluteRe.lang := by
  intro hmem
  obtain ⟨hhost, hdigits, -⟩ := h
  obtain ⟨scheme, rest, -, h58, he⟩ := of_mem_absoluteRe hmem
  have hno : 58 ∉ host := fun hb => hhost 58 hb (by decide)
  have he' : host ++ portPart port = scheme ++ 58 :: 47 :: rest := he
  cases port with
  | none =>
      rw [portPart, List.append_nil] at he'
      apply hno
      rw [he']
      simp
  | some p =>
      -- both sides have their first colon at the same place
      have hsplit : host = scheme ∧ p = 47 :: rest := by
        have h1 := findByte_of_append [] p hno
        have h2 := findByte_of_append [] (47 :: rest) h58
        rw [List.nil_append] at h1 h2
        rw [show host ++ 58 :: p = scheme ++ 58 :: 47 :: rest from he', h2] at h1
        have hlen : host.length = scheme.length := by simpa using h1.symm
        obtain ⟨ha, hb⟩ := List.append_inj he' hlen
        exact ⟨ha, (List.cons.inj hb).2⟩
      have := hdigits 47 (by rw [hsplit.2]; simp)
      exact absurd this (by decide)

theorem run_authorityRe (h : (Target.authority host port).Valid) :
    authorityRe.run 0 (Target.authority host port).bytes (fun _ => none) stop =
      some (setOpt 9 (port.map fun p => (host.length + 1, host.length + 1 + p.length))
        (Caps.set 8 (0, host.length) fun _ => none)) := by
  obtain ⟨hhost, hdigits, -⟩ := h
  have hport : (Re.opt (.seq (char ':') (.group 9 (.star digit)))).run host.length (portPart port)
      (Caps.set 8 (0, host.length) fun _ => none) stop =
      some (setOpt 9 (port.map fun p => (host.length + 1, host.length + 1 + p.length))
        (Caps.set 8 (0, host.length) fun _ => none)) := by
    cases port with
    | none =>
        apply Re.run_opt_none
        · rw [Re.run_seq]
          exact run_char_none ':' (by simp [portPart])
        · rfl
    | some p =>
        apply Re.run_opt_some
        rw [Re.run_seq]
        apply run_char ':'
        rw [Re.run_group]
        have hall : ∀ b ∈ p, (48 ≤ b && b ≤ 57 : Bool) = true := by
          intro b hb
          simpa using hdigits b hb
        have hstar : (Re.star digit).run (host.length + 1) (p ++ []) (Caps.set 8 (0, host.length) fun _ => none)
            (fun pos' rest' caps' => stop pos' rest' (Caps.set 9 (host.length + 1, pos') caps')) =
            some (Caps.set 9 (host.length + 1, host.length + 1 + p.length)
              (Caps.set 8 (0, host.length) fun _ => none)) :=
          Re.run_star_cls p hall (by simp) (by simp [stop])
        rwa [List.append_nil] at hstar
  rw [authorityRe, Re.run_seq, Re.run, if_pos rfl, Re.run_seq, Re.run_group]
  apply Re.run_star_cls host (noneOf_true hhost)
  · intro b hb
    cases port with
    | none => cases hb
    | some p =>
        obtain rfl : b = 58 := by simpa [portPart] using hb.symm
        decide
  · rw [Nat.zero_add]
    exact hport

end Authority

/-- **The text of a target matches in its own form**, with its own parts. -/
theorem matchTarget_bytes {T : Target} (h : T.Valid) : matchTarget T.bytes = some T.form := by
  cases T with
  | origin segs query =>
      apply matchTarget_origin segs h.1 query
      rintro q rfl hq
      exact h.2 35 hq (by decide)
  | absolute scheme userinfo host port segs query =>
      have hfull : targetRe.fullMatch (Target.absolute scheme userinfo host port segs query).bytes =
          some (absoluteCaps scheme userinfo host port segs query) := by
        show (targetRe.run 0 _ _ stop) = _
        rw [targetRe, Re.run, run_stop_none (absolute_not_origin h), Option.none_or, Re.run, run_absoluteRe h,
          Option.some_or]
      rw [matchTarget, hfull]
      cases port <;> cases query <;>
        simp [absoluteCaps, Target.form, Target.bytes, Target.authorityPart, portSpan, querySpan, portPart, queryPart] <;>
        omega
  | authority host port =>
      have hfull : targetRe.fullMatch (Target.authority host port).bytes =
          some (setOpt 9 (port.map fun p => (host.length + 1, host.length + 1 + p.length))
            (Caps.set 8 (0, host.length) fun _ => none)) := by
        show (targetRe.run 0 _ _ stop) = _
        rw [targetRe, Re.run, run_stop_none (authority_not_origin h), Option.none_or, Re.run,
          run_stop_none (authority_not_absolute h), Option.none_or, Re.run, run_authorityRe h, Option.some_or]
      rw [matchTarget, hfull]
      cases port <;> simp [Target.form, Target.bytes, portSpan, portPart]
  | asterisk => decide

/-- **A target matches or is the text of none.** -/
theorem matchTarget_cases (bytes : Bytes) :
    (∃ T : Target, T.Valid ∧ T.bytes = bytes ∧ matchTarget bytes = some T.form) ∨
      matchTarget bytes = none ∧ ∀ T : Target, T.Valid → T.bytes ≠ bytes := by
  cases hm : matchTarget bytes with
  | none =>
      refine Or.inr ⟨rfl, ?_⟩
      rintro T hT rfl
      rw [matchTarget_bytes hT] at hm
      cases hm
  | some f =>
      left
      have hlang : bytes ∈ targetRe.lang := by
        rw [matchTarget] at hm
        cases hfull : targetRe.fullMatch bytes with
        | none => rw [hfull] at hm; cases hm
        | some caps => exact Re.mem_lang_of_fullMatch hfull
      obtain ⟨T, hT, rfl⟩ := exists_target hlang
      exact ⟨T, hT, rfl, hm.symm.trans (matchTarget_bytes hT)⟩

/-! ## §5 — the parts of a target. -/

namespace Target

/-- The fields that are decoded. -/
def fields : Target → List Bytes
  | origin segs query | absolute _ _ _ _ segs query => [pathOf segs, query.getD []]
  | authority _ _ | asterisk => []

/-- What the target assigns, with `dec` for the decoding of a field. -/
def partsWith (dec : Bytes → Option Bytes) : Target → Option Parts
  | origin segs query => do return { path := ← dec (pathOf segs), query := ← dec (query.getD []) }
  | absolute scheme _ host port segs query => do
      let p ← dec (pathOf segs)
      return { scheme := scheme, host := host, port := port.getD []
               path := some (if p = [] then text "/" else p), query := ← dec (query.getD []) }
  | authority host port => some { host := host, port := port.getD [] }
  | asterisk => some { path := text "*" }

end Target

theorem fieldAt_middle (pre field post : Bytes) {n : Nat} (hn : n = pre.length) :
    fieldAt (pre ++ (field ++ post)) (n, n + field.length) = field := by
  rw [fieldAt, substr, hn, List.drop_left, Nat.add_sub_cancel_left, List.take_left]

theorem fieldAt_empty (bytes : Bytes) (n : Nat) : fieldAt bytes (n, n) = [] := by
  rw [fieldAt, substr, Nat.sub_self, List.take_zero]

/-- The path and the query at the end of a target. -/
theorem fieldAt_pathQuery (pre : Bytes) (segs : List Bytes) (query : Option Bytes) {n : Nat} (hn : n = pre.length) :
    fieldAt (pre ++ (pathOf segs ++ queryPart query)) (n, n + (pathOf segs).length) = pathOf segs ∧
      fieldAt (pre ++ (pathOf segs ++ queryPart query)) (querySpan (n + (pathOf segs).length) query) =
        query.getD [] := by
  refine ⟨fieldAt_middle pre _ _ hn, ?_⟩
  cases query with
  | none => exact fieldAt_empty _ _
  | some q =>
      have := fieldAt_middle (pre ++ (pathOf segs ++ [63])) q [] (n := n + (pathOf segs).length + 1)
        (by rw [hn]; simp; omega)
      simpa [queryPart, querySpan] using this

theorem fieldAt_port (pre : Bytes) (port : Option Bytes) (post : Bytes) {n : Nat} (hn : n = pre.length)
    (len : Nat) : fieldAt (pre ++ (portPart port ++ post)) (portSpan n len port) = port.getD [] := by
  cases port with
  | none => exact fieldAt_empty _ _
  | some p =>
      have := fieldAt_middle (pre ++ [58]) p post (n := n + 1) (by rw [hn]; simp)
      simpa [portPart, portSpan] using this

/-- The parts of the absolute form at their places. -/
theorem fieldAt_absolute {scheme : Bytes} {userinfo : Option Bytes} {host : Bytes} {port : Option Bytes}
    {segs : List Bytes} {query : Option Bytes} {s h p a q : Span}
    (hform : (Target.absolute scheme userinfo host port segs query).form = .absolute s h p a q) :
    let bytes := (Target.absolute scheme userinfo host port segs query).bytes
    fieldAt bytes s = scheme ∧ fieldAt bytes h = host ∧ fieldAt bytes p = port.getD [] ∧
      fieldAt bytes a = pathOf segs ∧ fieldAt bytes q = query.getD [] := by
  have hscheme := fieldAt_middle [] scheme
    (58 :: 47 :: 47 :: (Target.authorityPart userinfo host port ++ (pathOf segs ++ queryPart query))) (n := 0) rfl
  have hhost := fieldAt_middle (scheme ++ 58 :: 47 :: 47 :: userPart userinfo) host
    (portPart port ++ (pathOf segs ++ queryPart query)) (n := scheme.length + 3 + (userPart userinfo).length)
    (by simp; omega)
  have hport := fieldAt_port (scheme ++ 58 :: 47 :: 47 :: (userPart userinfo ++ host)) port
    (pathOf segs ++ queryPart query) (n := scheme.length + 3 + (userPart userinfo).length + host.length)
    (by simp; omega)
  have hpq := fieldAt_pathQuery (scheme ++ 58 :: 47 :: 47 :: Target.authorityPart userinfo host port) segs query
    (n := scheme.length + 3 + (Target.authorityPart userinfo host port).length) (by simp; omega)
  simp only [Target.authorityPart, List.nil_append, List.append_assoc, List.cons_append, Nat.zero_add]
    at hscheme hhost hport hpq
  simp only [Target.form, Form.absolute.injEq] at hform
  obtain ⟨rfl, rfl, rfl, rfl, rfl⟩ := hform
  simp only [Target.bytes, Target.authorityPart, List.append_assoc]
  exact ⟨hscheme, hhost, hport _, hpq.1, hpq.2⟩

/-- What the form of a target reads from its text. -/
theorem form_spec (T : Target) :
    T.form.parts T.bytes = T.partsWith decoded ∧ T.form.fields T.bytes = T.fields := by
  cases T with
  | origin segs query =>
      have h := fieldAt_pathQuery [] segs query rfl
      simp only [List.nil_append, List.length_nil, Nat.zero_add] at h
      simp only [Target.form, Form.parts, Form.fields, Target.bytes, Target.partsWith, Target.fields, h.1, h.2, and_self]
  | absolute scheme userinfo host port segs query =>
      obtain ⟨hscheme, hhost, hport, hpath, hquery⟩ :=
        @fieldAt_absolute scheme userinfo host port segs query _ _ _ _ _ rfl
      simp only [Target.form, Form.parts, Form.fields, Target.partsWith, Target.fields, hscheme, hhost, hport, hpath,
        hquery, and_self]
  | authority host port =>
      have hhost := fieldAt_middle [] host (portPart port) (n := 0) rfl
      have hport := fieldAt_port host port [] rfl host.length
      simp only [List.nil_append, List.append_nil, Nat.zero_add] at hhost hport
      simp only [Target.form, Form.parts, Form.fields, Target.bytes, Target.partsWith, Target.fields, hhost, hport, and_self]
  | asterisk => exact ⟨rfl, rfl⟩

theorem partsOf_bytes {T : Target} (h : T.Valid) : partsOf T.bytes = T.partsWith decoded := by
  rw [partsOf, matchTarget_bytes h]
  exact (form_spec T).1

theorem fieldsOf_bytes {T : Target} (h : T.Valid) : fieldsOf T.bytes = T.fields := by
  rw [fieldsOf, matchTarget_bytes h]
  exact (form_spec T).2

end NetCpp.Http
