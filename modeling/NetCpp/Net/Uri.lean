/-
# NetCpp.Net.Uri — `AbsoluteUri`: a URL taken apart by one expression.

`include/xsl/net/uri.h` and `src/net/uri.cpp`.  The parts are VIEWS into the URL, here spans of it; a group that
took no part in the match is the empty range at the END of the URL.  `origin_form` is a view too: it begins at
the path and is as long as path and query with ONE byte between them.

The expression is that of the absolute form of a request target with its groups numbered from 1, so the texts it
matches, and the one way each is read, are those of `Target.absolute`.
-/
import NetCpp.Http.Form

namespace NetCpp.Net

open NetCpp.Lib NetCpp.Http

/-! ## §1 — the expression and the views. -/

structure AbsoluteUri where
  scheme : Span
  host : Span
  port : Span
  path : Span
  query : Span
deriving DecidableEq, Repr

namespace AbsoluteUri

/-- `^([^:/?#]+)://(?:(?:[^/?#@]*@)?([^/?#:]*)(?::([^/?#]*))?)((?:/[^/?#]*)*)(?:\?([^#]*))?` -/
def regexRe : Re UInt8 :=
  .seq .bol <| .seq (.group 1 (plus (noneOf ":/?#"))) <| .seq (char ':') <| .seq (char '/') <| .seq (char '/') <|
    .seq (.seq (.opt (.seq (.star (noneOf "/?#@")) (char '@'))) <| .seq (.group 2 (.star (noneOf "/?#:")))
      (.opt (.seq (char ':') (.group 3 (.star (noneOf "/?#")))))) <| .seq (.group 4 pathRe) (queryRe 5)

/-- The constructor from the groups of a match. -/
def ofGroups (sv : Bytes) (output : Caps) : AbsoluteUri :=
  let sub (n : Nat) : Span := (output n).getD (sv.length, sv.length)
  { scheme := sub 1, host := sub 2, port := sub 3, path := sub 4, query := sub 5 }

/-- `AbsoluteUri::match`. -/
def matchUri (sv : Bytes) : Option AbsoluteUri := (regexRe.fullMatch sv).map (ofGroups sv)

/-- `origin_form`: bytes of the URL from `path.data()` on. -/
def originForm (sv : Bytes) (uri : AbsoluteUri) : Bytes :=
  let size (s : Span) : Nat := s.2 - s.1
  substr sv uri.path.1 (size uri.path + if size uri.query = 0 then 0 else size uri.query + 1)

/-! ## §2 — every URL that matches is read in one way. -/

/-- The two expressions differ in the numbers of their groups. -/
theorem fullMatch_absolute (sv : Bytes) : (absoluteRe.fullMatch sv).map (Caps.behind 2) = regexRe.fullMatch sv :=
  regexRe.fullMatch_shift 2 sv

section

variable {scheme : Bytes} {userinfo : Option Bytes} {host : Bytes} {port : Option Bytes} {segs : List Bytes}
  {query : Option Bytes}

/-- **An absolute form is matched**, its parts where the form has them. -/
theorem matchUri_bytes (h : (Target.absolute scheme userinfo host port segs query).Valid) :
    ∃ uri, matchUri (Target.absolute scheme userinfo host port segs query).bytes = some uri ∧
      (Target.absolute scheme userinfo host port segs query).form =
        .absolute uri.scheme uri.host uri.port uri.path uri.query := by
  have hfull : absoluteRe.fullMatch (Target.absolute scheme userinfo host port segs query).bytes =
      some (absoluteCaps scheme userinfo host port segs query) := run_absoluteRe h
  rw [matchUri, ← fullMatch_absolute, hfull]
  refine ⟨_, rfl, ?_⟩
  cases port <;> cases query <;>
    simp [ofGroups, Caps.behind, absoluteCaps, Target.form, Target.bytes, Target.authorityPart, portSpan, querySpan,
      portPart, queryPart] <;>
    omega

/-- Path and query are next to each other, with the `?` between them. -/
theorem originForm_bytes {uri : AbsoluteUri} (hq : query ≠ some [])
    (hform : (Target.absolute scheme userinfo host port segs query).form =
      .absolute uri.scheme uri.host uri.port uri.path uri.query) :
    uri.originForm (Target.absolute scheme userinfo host port segs query).bytes = pathOf segs ++ queryPart query := by
  have hbytes : (Target.absolute scheme userinfo host port segs query).bytes =
      (scheme ++ 58 :: 47 :: 47 :: Target.authorityPart userinfo host port) ++ (pathOf segs ++ queryPart query) := by
    simp [Target.bytes]
  have hpath : uri.path = (scheme.length + 3 + (Target.authorityPart userinfo host port).length,
      scheme.length + 3 + (Target.authorityPart userinfo host port).length + (pathOf segs).length) := by
    simp only [Target.form, Form.absolute.injEq] at hform
    exact hform.2.2.2.1.symm
  have hquery : uri.query.2 - uri.query.1 = (query.getD []).length := by
    simp only [Target.form, Form.absolute.injEq] at hform
    rw [← hform.2.2.2.2]
    cases query <;> simp [querySpan]
  have hlen : (if (query.getD []).length = 0 then 0 else (query.getD []).length + 1) = (queryPart query).length := by
    cases query with
    | none => rfl
    | some q =>
        have hne : q.length ≠ 0 := fun h0 => hq (by rw [List.length_eq_zero_iff.mp h0])
        exact if_neg hne
  simp only [originForm, hbytes, hpath, hquery, hlen]
  rw [substr, List.drop_left' (by simp; omega), Nat.add_sub_cancel_left, ← List.length_append, List.take_length]

end

/-- **Nothing else is matched.** -/
theorem exists_of_matchUri {sv : Bytes} {uri : AbsoluteUri} (h : matchUri sv = some uri) :
    ∃ scheme userinfo host port segs query, (Target.absolute scheme userinfo host port segs query).Valid ∧
      (Target.absolute scheme userinfo host port segs query).bytes = sv ∧
      (Target.absolute scheme userinfo host port segs query).form =
        .absolute uri.scheme uri.host uri.port uri.path uri.query := by
  have hlang : sv ∈ absoluteRe.lang := by
    rw [matchUri, ← fullMatch_absolute, Option.map_map, Option.map_eq_some_iff] at h
    obtain ⟨caps, hcaps, -⟩ := h
    exact Re.mem_lang_of_fullMatch hcaps
  obtain ⟨scheme, userinfo, host, port, segs, query, hvalid, rfl⟩ := exists_absolute hlang
  obtain ⟨uri', huri, hform⟩ := matchUri_bytes hvalid
  obtain rfl : uri' = uri := Option.some.inj (huri.symm.trans h)
  exact ⟨scheme, userinfo, host, port, segs, query, hvalid, rfl, hform⟩

end AbsoluteUri

/-! ## §3 — a URL put together is taken apart again. -/

/-- What a URL is put together from. -/
structure Url where
  scheme : Bytes
  userinfo : Option Bytes
  host : Bytes
  port : Option Bytes
  path : Bytes
  query : Option Bytes
  scheme_ne : scheme ≠ []
  scheme_ok : Free (text ":/?#") scheme
  userinfo_ok : Free (text "/?#@") (userinfo.getD [])
  host_ok : Free (text "/?#:@") host
  port_ok : Free (text "/?#@") (port.getD [])
  path_ok : (path = [] ∨ path.head? = some 47) ∧ Free (text "?#") path
  query_ne : query ≠ some []
  query_ok : Free (text "#") (query.getD [])

namespace Url

/-- `scheme://[userinfo@]host[:port]path[?query]` -/
def bytes (u : Url) : Bytes :=
  u.scheme ++ text "://" ++ userPart u.userinfo ++ u.host ++ portPart u.port ++ u.path ++ queryPart u.query

/-- A path is one of segments. -/
theorem exists_segs (u : Url) : ∃ segs, PathSegs segs ∧ pathOf segs = u.path := by
  obtain ⟨hhead, hfree⟩ := u.path_ok
  rcases hhead with h | h
  · exact ⟨[], by simp [PathSegs], h.symm⟩
  · refine ⟨segments u.path, ?_, pathOf_segments h⟩
    intro s hs b hb
    have hmem : b ∈ u.path := by
      rw [← pathOf_segments h]
      exact List.mem_flatMap.mpr ⟨s, hs, List.mem_cons_of_mem _ hb⟩
    have hfree' := hfree b hmem
    refine ⟨?_, ?_, ?_⟩
    · rintro rfl
      exact plain_segments _ s hs hb
    · rintro rfl
      exact hfree' (by decide)
    · rintro rfl
      exact hfree' (by decide)

/-- There is no `@` behind the one that ends the user. -/
theorem at_not_mem (u : Url) : 64 ∉ u.host ++ portPart u.port := by
  intro hmem
  rcases List.mem_append.mp hmem with h | h
  · exact u.host_ok 64 h (by decide)
  · have hport := u.port_ok
    cases hp : u.port with
    | none => rw [hp] at h; cases h
    | some p =>
        rw [hp] at h hport
        rcases List.mem_cons.mp h with h | h
        · cases h
        · exact hport 64 h (by decide)

/-- **A URL is split into its parts, and `origin_form` puts path and query together again**, whichever of the
optional parts it has. -/
theorem match_parts (u : Url) :
    ∃ uri, AbsoluteUri.matchUri u.bytes = some uri ∧
      fieldAt u.bytes uri.scheme = u.scheme ∧ fieldAt u.bytes uri.host = u.host ∧
      fieldAt u.bytes uri.port = u.port.getD [] ∧ fieldAt u.bytes uri.path = u.path ∧
      fieldAt u.bytes uri.query = u.query.getD [] ∧ uri.originForm u.bytes = u.path ++ queryPart u.query := by
  obtain ⟨segs, hsegs, hpath⟩ := u.exists_segs
  have hvalid : (Target.absolute u.scheme u.userinfo u.host u.port segs u.query).Valid :=
    ⟨u.scheme_ne, u.scheme_ok, u.userinfo_ok, u.host_ok.mono (by decide +kernel), u.port_ok.mono (by decide +kernel),
      fun _ => u.at_not_mem, hsegs, u.query_ok⟩
  have hbytes : (Target.absolute u.scheme u.userinfo u.host u.port segs u.query).bytes = u.bytes := by
    rw [Target.bytes, bytes, hpath, show text "://" = [58, 47, 47] by decide]
    simp [Target.authorityPart]
  obtain ⟨uri, huri, hform⟩ := AbsoluteUri.matchUri_bytes hvalid
  have horigin := AbsoluteUri.originForm_bytes u.query_ne hform
  obtain ⟨h1, h2, h3, h4, h5⟩ := fieldAt_absolute hform
  rw [hbytes] at huri h1 h2 h3 h4 h5 horigin
  rw [hpath] at h4 horigin
  exact ⟨uri, huri, h1, h2, h3, h4, h5, horigin⟩

/-- `http://ann:pw@example.org:8080/a/b%20c?x=1&y=/?` -/
def allParts : Url where
  scheme := text "http"
  userinfo := some (text "ann:pw")
  host := text "example.org"
  port := some (text "8080")
  path := text "/a/b%20c"
  query := some (text "x=1&y=/?")
  scheme_ne := by decide
  scheme_ok := by decide
  userinfo_ok := by decide
  host_ok := by decide
  port_ok := by decide
  path_ok := by decide
  query_ne := by decide
  query_ok := by decide

/-- Every optional part is there, and the query has a slash and a question mark. -/
theorem match_parts_allParts :
    ∃ uri, AbsoluteUri.matchUri (text "http://ann:pw@example.org:8080/a/b%20c?x=1&y=/?") = some uri ∧
      fieldAt allParts.bytes uri.scheme = text "http" ∧ fieldAt allParts.bytes uri.host = text "example.org" ∧
      fieldAt allParts.bytes uri.port = text "8080" ∧ fieldAt allParts.bytes uri.path = text "/a/b%20c" ∧
      fieldAt allParts.bytes uri.query = text "x=1&y=/?" ∧
      uri.originForm allParts.bytes = text "/a/b%20c?x=1&y=/?" := by
  have hbytes : allParts.bytes = text "http://ann:pw@example.org:8080/a/b%20c?x=1&y=/?" := by decide
  obtain ⟨uri, huri, hscheme, hhost, hport, hpath, hquery, horigin⟩ := match_parts allParts
  rw [hbytes] at huri
  exact ⟨uri, huri, hscheme, hhost, hport, hpath, hquery, horigin.trans (by decide)⟩

end Url

/-- The user may look like a host and its port. -/
example : let sv := text "h://a:1@b/c?d"
    (AbsoluteUri.matchUri sv).map (fun uri => (fieldAt sv uri.host, fieldAt sv uri.port, uri.originForm sv)) =
      some (text "b", [], text "/c?d") := by decide

end NetCpp.Net
