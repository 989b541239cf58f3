/-
# NetCpp.Http.Router — `Router` and longest-match routing.

`include/xsl/net/http/router.h`.  A node has exact handlers by last segment, a prefix handler (the
default `Id` for none) and children by segment.  `addExact` and `addPrefix` return a REFERENCE to an
`Id`; here they take what the caller does to it.  `route` walks down, falls back to shallower prefix
handlers and restores `current_path` on the way: the second component of its result.

The functions work on the bytes of a path, with a bound on the depth (a path has fewer segments than
bytes).  §2 reads a path as its list of segments, §3 the tree as two tables over such lists, `exactAt` and
`prefixAt`, and §4 says what `route` answers for any sequence of registrations.
-/
import NetCpp.Lib.Bytes
import NetCpp.Lib.AssocMap

namespace NetCpp.Http

open NetCpp.Lib

/-! ## §1 — the tree. -/

/-- `HttpRouteNode`. -/
inductive Node (Id : Type)
  | mk (handlers : List (Bytes × Id)) (prefixHandler : Id) (children : List (Bytes × Node Id))

variable {Id : Type} [Zero Id]

def Node.empty : Node Id := .mk [] 0 []

def Node.addExactGo (f : Id → Id) : Nat → Bytes → Node Id → Node Id
  | 0, _, node => node
  | fuel + 1, path, .mk handlers prefixHandler children =>
      match findByte path 47 1 with
      | some pos =>
          .mk handlers prefixHandler
            (alter (substr path 1 (pos - 1)) .empty (addExactGo f fuel (path.drop pos)) children)
      | none => .mk (alter (path.drop 1) 0 f handlers) prefixHandler children

def Node.setPrefix (f : Id → Id) : Node Id → Node Id
  | .mk handlers prefixHandler children => .mk handlers (f prefixHandler) children

def Node.addPrefixGo (f : Id → Id) : Nat → Bytes → Node Id → Node Id
  | 0, _, node => node
  | fuel + 1, path, .mk handlers prefixHandler children =>
      if path = [47] then .mk handlers (f prefixHandler) children
      else
        let path := path.drop 1
        match findByte path 47 0 with
        | none => .mk handlers prefixHandler (alter path .empty (Node.setPrefix f) children)
        | some pos =>
            .mk handlers prefixHandler
              (alter (substr path 0 pos) .empty (addPrefixGo f fuel (path.drop pos)) children)

/-- `route`: the `Id` found, and `ctx.current_path` when it returns. -/
def Node.routeGo [DecidableEq Id] : Nat → Node Id → Bytes → Option Id × Bytes
  | 0, _, path => (none, path)
  | fuel + 1, .mk handlers prefixHandler children, path =>
      if path.head? ≠ some 47 then (none, path)
      else
        let fallback := if prefixHandler ≠ 0 then some prefixHandler else none
        match findByte path 47 1 with
        | some pos =>
            match children.lookup (substr path 1 (pos - 1)) with
            | some child =>
                match routeGo fuel child (path.drop pos) with
                | (some id, current) => (some id, current)
                | (none, _) => (fallback, path)
            | none => (fallback, path)
        | none =>
            match handlers.lookup (path.drop 1) with
            | some id => (some id, path)
            | none => (fallback, path)

def Node.addExact (path : Bytes) (f : Id → Id) (node : Node Id) : Node Id :=
  node.addExactGo f path.length path

def Node.addPrefix (path : Bytes) (f : Id → Id) (node : Node Id) : Node Id :=
  node.addPrefixGo f path.length path

def Node.route [DecidableEq Id] (node : Node Id) (path : Bytes) : Option Id × Bytes := node.routeGo path.length path

/-! ## §2 — paths and segments. -/

/-- The path of a list of segments: each with its leading slash. -/
def pathOf (segs : List Bytes) : Bytes := segs.flatMap (47 :: ·)

/-- The segments of a path that starts with a slash. -/
def segments (path : Bytes) : List Bytes := (path.drop 1).splitOn 47

/-- Segments hold no slash. -/
def Plain (segs : List Bytes) : Prop := ∀ s ∈ segs, (47 : UInt8) ∉ s

@[simp] theorem pathOf_nil : pathOf [] = [] := rfl

@[simp] theorem pathOf_cons (s : Bytes) (segs : List Bytes) :
    pathOf (s :: segs) = 47 :: (s ++ pathOf segs) := by
  simp [pathOf]

variable {s t : Bytes} {segs rest : List Bytes}

theorem pathOf_eq_intercalate (s : Bytes) (segs : List Bytes) :
    pathOf (s :: segs) = 47 :: [47].intercalate (s :: segs) := by
  induction segs generalizing s with
  | nil => simp
  | cons t segs ih => rw [pathOf_cons, ih t, List.intercalate_cons_cons]; simp

theorem segments_ne_nil (path : Bytes) : segments path ≠ [] := List.splitOn_ne_nil _ _

theorem segments_pathOf (hs : Plain segs) (hne : segs ≠ []) : segments (pathOf segs) = segs := by
  obtain ⟨s, rest, rfl⟩ := List.exists_cons_of_ne_nil hne
  rw [segments, pathOf_eq_intercalate, List.drop_one, List.tail_cons]
  exact List.splitOn_intercalate 47 hs hne

theorem plain_splitOn (l : Bytes) : Plain (l.splitOn 47) := fun _ hs => not_mem_of_mem_splitOn hs

theorem plain_segments (path : Bytes) : Plain (segments path) := plain_splitOn _

theorem pathOf_segments {path : Bytes} (h : path.head? = some 47) : pathOf (segments path) = path := by
  obtain ⟨b, l, rfl⟩ := List.exists_cons_of_ne_nil (l := path) (by rintro rfl; cases h)
  obtain rfl : b = 47 := by simpa using h
  obtain ⟨s, rest, hs⟩ := List.exists_cons_of_ne_nil (segments_ne_nil (47 :: l))
  rw [hs, pathOf_eq_intercalate, ← hs]
  simp only [segments, List.drop_one, List.tail_cons]
  rw [List.intercalate_splitOn]

/-- `path.find('/', 1)`. -/
theorem findByte_pathOf (hs : 47 ∉ s) (rest : List Bytes) :
    findByte (pathOf (s :: rest)) 47 1 = if rest = [] then none else some (1 + s.length) := by
  cases rest with
  | nil => exact findByte_of_not_mem (by simpa using hs)
  | cons t rest =>
      have := findByte_of_append [47] (t ++ pathOf rest) hs
      simpa using this

theorem length_le_pathOf (segs : List Bytes) : segs.length ≤ (pathOf segs).length := by
  induction segs with
  | nil => simp
  | cons s segs ih => simp; omega

/-! ## §3 — the tree as two tables. -/

/-- The exact entry for a list of segments. -/
def Node.exactAt : Node Id → List Bytes → Option Id
  | _, [] => none
  | .mk handlers _ _, [s] => handlers.lookup s
  | .mk _ _ children, s :: t :: rest => (children.lookup s).bind fun child => child.exactAt (t :: rest)

/-- The prefix handler at a list of segments, the default for none. -/
def Node.prefixAt : Node Id → List Bytes → Id
  | .mk _ prefixHandler _, [] => prefixHandler
  | .mk _ _ children, s :: rest =>
      match children.lookup s with
      | some child => child.prefixAt rest
      | none => 0

/-- The segments a prefix route is registered under: one trailing slash is dropped. -/
def prefixSegs (segs : List Bytes) : List Bytes :=
  if segs.getLast? = some [] then segs.dropLast else segs

variable {node : Node Id} {f : Id → Id} {fuel : Nat}

@[simp] theorem exactAt_empty (segs : List Bytes) : (Node.empty : Node Id).exactAt segs = none := by
  cases segs with
  | nil => rfl
  | cons s rest => cases rest <;> rfl

@[simp] theorem prefixAt_empty (segs : List Bytes) : (Node.empty : Node Id).prefixAt segs = 0 := by
  cases segs <;> rfl

theorem exactAt_cons {s : Bytes} {rest : List Bytes} {h : List (Bytes × Id)} {p : Id}
    {ch : List (Bytes × Node Id)} (hne : rest ≠ []) :
    (Node.mk h p ch).exactAt (s :: rest) = ((ch.lookup s).getD .empty).exactAt rest := by
  obtain ⟨t, rest, rfl⟩ := List.exists_cons_of_ne_nil hne
  simp only [Node.exactAt]
  cases ch.lookup s <;> simp

theorem prefixAt_cons {s : Bytes} {rest : List Bytes} {h : List (Bytes × Id)} {p : Id}
    {ch : List (Bytes × Node Id)} :
    (Node.mk h p ch).prefixAt (s :: rest) = ((ch.lookup s).getD .empty).prefixAt rest := by
  simp only [Node.prefixAt]
  cases ch.lookup s <;> simp

/-- One pass of `add_exact` and `route` over the first segment of a path. -/
theorem substr_pathOf (s : Bytes) (rest : List Bytes) :
    substr (pathOf (s :: rest)) 1 (1 + s.length - 1) = s ∧
      (pathOf (s :: rest)).drop (1 + s.length) = pathOf rest := by
  constructor
  · simp [substr]
  · rw [pathOf_cons, Nat.add_comm, List.drop_succ_cons, List.drop_left]

/-- **`add_exact` touches one exact entry** and no prefix handler. -/
theorem addExactGo_spec : ∀ (segs : List Bytes) (fuel : Nat) (node : Node Id), segs ≠ [] → Plain segs →
    segs.length ≤ fuel →
    (∀ q, (node.addExactGo f fuel (pathOf segs)).exactAt q =
      if q = segs then some (f ((node.exactAt segs).getD 0)) else node.exactAt q) ∧
    ∀ q, (node.addExactGo f fuel (pathOf segs)).prefixAt q = node.prefixAt q
  | [], _, _, h, _, _ => absurd rfl h
  | s :: rest, fuel, .mk h p ch, _, hp, hf => by
      obtain ⟨fuel, rfl⟩ : ∃ n, fuel = n + 1 := ⟨fuel - 1, by simp at hf; omega⟩
      have hs := findByte_pathOf (hp s (by simp)) rest
      by_cases hrest : rest = []
      · subst hrest
        rw [if_pos rfl] at hs
        have hgo : (Node.mk h p ch).addExactGo f (fuel + 1) (pathOf [s]) = .mk (alter s 0 f h) p ch := by
          simp only [Node.addExactGo, hs]
          simp
        rw [hgo]
        constructor
        · intro q
          match q with
          | [] => simp [Node.exactAt]
          | [t] =>
              by_cases ht : t = s
              · subst ht
                simp [Node.exactAt, lookup_alter_self]
              · simp [Node.exactAt, lookup_alter_of_ne ht, ht]
          | t :: u :: q => simp [Node.exactAt]
        · intro q; cases q <;> rfl
      · rw [if_neg hrest] at hs
        obtain ⟨hsub, hdrop⟩ := substr_pathOf s rest
        have hgo : (Node.mk h p ch).addExactGo f (fuel + 1) (pathOf (s :: rest)) =
            .mk h p (alter s .empty (Node.addExactGo f fuel (pathOf rest)) ch) := by
          simp only [Node.addExactGo, hs, hsub, hdrop]
        obtain ⟨he, hpre⟩ := addExactGo_spec rest fuel ((ch.lookup s).getD .empty) hrest
          (fun t ht => hp t (by simp [ht])) (by simpa using hf)
        rw [hgo]
        constructor
        · intro q
          match q with
          | [] => simp [Node.exactAt]
          | [t] => simp [Node.exactAt, Ne.symm hrest]
          | t :: u :: q =>
              simp only [exactAt_cons (show u :: q ≠ [] by simp), exactAt_cons hrest]
              by_cases ht : t = s
              · subst ht
                simp [lookup_alter_self, he]
              · simp [lookup_alter_of_ne ht, ht]
        · intro q
          cases q with
          | nil => rfl
          | cons t q =>
              rw [prefixAt_cons, prefixAt_cons]
              by_cases ht : t = s
              · subst ht
                simp [lookup_alter_self, hpre]
              · simp [lookup_alter_of_ne ht]

omit [Zero Id] in
theorem exactAt_setPrefix (q : List Bytes) : (node.setPrefix f).exactAt q = node.exactAt q := by
  obtain ⟨h, p, ch⟩ := node
  match q with
  | [] => rfl
  | [t] => rfl
  | t :: u :: q => rfl

theorem prefixAt_setPrefix (q : List Bytes) :
    (node.setPrefix f).prefixAt q = if q = [] then f (node.prefixAt []) else node.prefixAt q := by
  obtain ⟨h, p, ch⟩ := node
  cases q <;> simp [Node.setPrefix, Node.prefixAt]

/-- **`add_prefix` touches one prefix handler** and no exact entry. -/
theorem addPrefixGo_spec : ∀ (segs : List Bytes) (fuel : Nat) (node : Node Id), segs ≠ [] → Plain segs →
    segs.length ≤ fuel →
    (∀ q, (node.addPrefixGo f fuel (pathOf segs)).exactAt q = node.exactAt q) ∧
    ∀ q, (node.addPrefixGo f fuel (pathOf segs)).prefixAt q =
      if q = prefixSegs segs then f (node.prefixAt (prefixSegs segs)) else node.prefixAt q := by
  intro segs
  induction segs with
  | nil =>
      intro _ _ h
      exact absurd rfl h
  | cons s rest ih =>
      rintro fuel ⟨h, p, ch⟩ - hp hf
      obtain ⟨fuel, rfl⟩ : ∃ n, fuel = n + 1 := ⟨fuel - 1, by simp at hf; omega⟩
      have hplain := hp s (by simp)
      by_cases hslash : s = [] ∧ rest = []
      · -- the path is a single slash
        obtain ⟨rfl, rfl⟩ := hslash
        have hgo : (Node.mk h p ch).addPrefixGo f (fuel + 1) (pathOf [[]]) =
            Node.setPrefix f (.mk h p ch) := by
          simp [Node.addPrefixGo, Node.setPrefix]
        rw [hgo, show prefixSegs [[]] = [] from rfl]
        exact ⟨exactAt_setPrefix, fun q => prefixAt_setPrefix q⟩
      · have hne : pathOf (s :: rest) ≠ [47] := by
          intro h1
          have hlen := congrArg List.length h1
          have hl := length_le_pathOf rest
          rw [pathOf_cons, List.length_cons, List.length_append, List.length_singleton] at hlen
          exact hslash ⟨List.length_eq_zero_iff.mp (by omega), List.length_eq_zero_iff.mp (by omega)⟩
        -- the child that the rest of the path goes to, and what happens there
        have hchild : ∃ g : Node Id → Node Id,
            (Node.mk h p ch).addPrefixGo f (fuel + 1) (pathOf (s :: rest)) = .mk h p (alter s .empty g ch) ∧
            ∀ c : Node Id, (∀ q, (g c).exactAt q = c.exactAt q) ∧
              ∀ q, (g c).prefixAt q = if s :: q = prefixSegs (s :: rest) then f (c.prefixAt q) else c.prefixAt q := by
          by_cases hrest : rest = []
          · subst hrest
            have hs : s ≠ [] := fun he => hslash ⟨he, rfl⟩
            refine ⟨Node.setPrefix f, ?_, fun c => ⟨exactAt_setPrefix, fun q => ?_⟩⟩
            · have hfind : findByte s 47 0 = none := findByte_of_not_mem (by simpa using hplain)
              have hd : (pathOf [s]).drop 1 = s := by simp
              simp only [Node.addPrefixGo, if_neg hne, hd, hfind]
            · rw [prefixAt_setPrefix]
              have : prefixSegs [s] = [s] := by simp [prefixSegs, hs]
              rw [this]
              by_cases hq : q = [] <;> simp [hq]
          · refine ⟨Node.addPrefixGo f fuel (pathOf rest), ?_, fun c => ?_⟩
            · have hd : (pathOf (s :: rest)).drop 1 = s ++ pathOf rest := by simp
              have hfind : findByte (s ++ pathOf rest) 47 0 = some s.length := by
                obtain ⟨t, rest, rfl⟩ := List.exists_cons_of_ne_nil hrest
                have := findByte_of_append [] (t ++ pathOf rest) hplain
                simpa using this
              have hsub : substr (s ++ pathOf rest) 0 s.length = s := by simp [substr]
              simp only [Node.addPrefixGo, if_neg hne, hd, hfind, hsub, List.drop_left]
            · obtain ⟨he, hpre⟩ := ih fuel c hrest (fun t ht => hp t (by simp [ht]))
                (by simpa using hf)
              refine ⟨he, fun q => ?_⟩
              have hsegs : prefixSegs (s :: rest) = s :: prefixSegs rest := by
                unfold prefixSegs
                rw [List.getLast?_cons_of_ne_nil hrest]
                split
                · rw [List.dropLast_cons_of_ne_nil hrest]
                · rfl
              rw [hpre, hsegs]
              by_cases hq : q = prefixSegs rest <;> simp [hq]
        obtain ⟨g, hgo, hg⟩ := hchild
        rw [hgo]
        constructor
        · intro q
          rcases q with _ | ⟨t, _ | ⟨u, q⟩⟩
          · rfl
          · rfl
          · simp only [exactAt_cons (show u :: q ≠ [] by simp)]
            by_cases ht : t = s
            · subst ht
              simp [lookup_alter_self, (hg _).1]
            · simp [lookup_alter_of_ne ht]
        · intro q
          -- the prefix is not the node's own, so it starts with the segment `s`
          have hne' : prefixSegs (s :: rest) ≠ [] := by
            unfold prefixSegs
            split
            · rename_i hl
              intro hd
              cases rest with
              | nil => exact hslash ⟨by simpa using hl, rfl⟩
              | cons t rest => simp at hd
            · simp
          cases q with
          | nil => simp [Ne.symm hne', Node.prefixAt]
          | cons t q =>
              have hfirst : ∀ P, P = prefixSegs (s :: rest) → P ≠ [] → P.head? = some s := by
                rintro P rfl _
                unfold prefixSegs
                split
                · cases rest with
                  | nil => rename_i hl; exact absurd ⟨by simpa using hl, rfl⟩ hslash
                  | cons t rest => simp
                · rfl
              rw [prefixAt_cons, prefixAt_cons]
              by_cases ht : t = s
              · subst ht
                simp only [lookup_alter_self, Option.getD_some, (hg _).2]
                by_cases hq : t :: q = prefixSegs (t :: rest)
                · rw [if_pos hq, if_pos hq, ← hq, prefixAt_cons]
                · rw [if_neg hq, if_neg hq]
              · have hq : t :: q ≠ prefixSegs (s :: rest) := by
                  intro he
                  have := hfirst _ he (by simp)
                  simp at this
                  exact ht this
                rw [lookup_alter_of_ne ht, if_neg hq]

theorem length_segments_le {path : Bytes} (h : path.head? = some 47) : (segments path).length ≤ path.length := by
  have := length_le_pathOf (segments path)
  rwa [pathOf_segments h] at this

theorem addExact_spec {path : Bytes} (h : path.head? = some 47) (f : Id → Id) (node : Node Id) :
    (∀ q, (node.addExact path f).exactAt q =
      if q = segments path then some (f ((node.exactAt (segments path)).getD 0)) else node.exactAt q) ∧
    ∀ q, (node.addExact path f).prefixAt q = node.prefixAt q := by
  have := addExactGo_spec (f := f) (segments path) path.length node (segments_ne_nil path) (plain_segments path)
    (length_segments_le h)
  rwa [pathOf_segments h] at this

theorem addPrefix_spec {path : Bytes} (h : path.head? = some 47) (f : Id → Id) (node : Node Id) :
    (∀ q, (node.addPrefix path f).exactAt q = node.exactAt q) ∧
    ∀ q, (node.addPrefix path f).prefixAt q =
      if q = prefixSegs (segments path) then f (node.prefixAt (prefixSegs (segments path)))
      else node.prefixAt q := by
  have := addPrefixGo_spec (f := f) (segments path) path.length node (segments_ne_nil path) (plain_segments path)
    (length_segments_le h)
  rwa [pathOf_segments h] at this

/-! ## §4 — `route`. -/

section Route

variable [DecidableEq Id]

/-- **`route` on a list of segments**: the exact entry, else the deepest prefix handler above the last
segment, else nothing. -/
theorem routeGo_spec : ∀ (segs : List Bytes) (fuel : Nat) (node : Node Id), segs ≠ [] → Plain segs →
    segs.length ≤ fuel →
    (∀ id, node.exactAt segs = some id →
      node.routeGo fuel (pathOf segs) = (some id, pathOf (segs.drop (segs.length - 1)))) ∧
    (node.exactAt segs = none → ∀ k < segs.length, node.prefixAt (segs.take k) ≠ 0 →
      (∀ j, k < j → j < segs.length → node.prefixAt (segs.take j) = 0) →
      node.routeGo fuel (pathOf segs) = (some (node.prefixAt (segs.take k)), pathOf (segs.drop k))) ∧
    (node.exactAt segs = none → (∀ k < segs.length, node.prefixAt (segs.take k) = 0) →
      node.routeGo fuel (pathOf segs) = (none, pathOf segs))
  | [], _, _, h, _, _ => absurd rfl h
  | s :: rest, fuel, .mk h p ch, _, hp, hf => by
      obtain ⟨fuel, rfl⟩ : ∃ n, fuel = n + 1 := ⟨fuel - 1, by simp at hf; omega⟩
      have hs := findByte_pathOf (hp s (by simp)) rest
      have hhead : ¬ (pathOf (s :: rest)).head? ≠ some 47 := by simp
      by_cases hrest : rest = []
      · subst hrest
        rw [if_pos rfl] at hs
        -- the last segment: the node's own handlers decide
        have hgo : (Node.mk h p ch).routeGo (fuel + 1) (pathOf [s]) =
            match h.lookup s with
            | some id => (some id, pathOf [s])
            | none => (if p ≠ 0 then some p else none, pathOf [s]) := by
          simp only [Node.routeGo, if_neg hhead, hs]
          simp
        rw [hgo]
        refine ⟨fun id hid => ?_, fun hnone k hk hne _ => ?_, fun hnone hz => ?_⟩
        · rw [show h.lookup s = some id from hid]; rfl
        · obtain rfl : k = 0 := by simpa using hk
          have hne' : p ≠ 0 := hne
          rw [show h.lookup s = none from hnone]
          simp [hne', Node.prefixAt]
        · have hz' : p = 0 := hz 0 (by simp)
          rw [show h.lookup s = none from hnone]
          simp [hz']
      · rw [if_neg hrest] at hs
        obtain ⟨hsub, hdrop⟩ := substr_pathOf s rest
        have hlen : 0 < rest.length := List.length_pos_iff.mpr hrest
        have hgo : (Node.mk h p ch).routeGo (fuel + 1) (pathOf (s :: rest)) =
            match ch.lookup s with
            | some child =>
                match child.routeGo fuel (pathOf rest) with
                | (some id, current) => (some id, current)
                | (none, _) => (if p ≠ 0 then some p else none, pathOf (s :: rest))
            | none => (if p ≠ 0 then some p else none, pathOf (s :: rest)) := by
          simp only [Node.routeGo, if_neg hhead, hs, hsub, hdrop]
        have hex : (Node.mk h p ch).exactAt (s :: rest) = ((ch.lookup s).getD .empty).exactAt rest :=
          exactAt_cons hrest
        rw [hgo, hex]
        cases hch : ch.lookup s with
        | none =>
            -- no child: only the handler of this node can answer
            have hzero : ∀ k, 0 < k → (Node.mk h p ch).prefixAt ((s :: rest).take k) = 0 := by
              intro k hk
              obtain ⟨j, rfl⟩ : ∃ j, k = j + 1 := ⟨k - 1, by omega⟩
              rw [List.take_succ_cons, prefixAt_cons, hch]; simp
            refine ⟨fun id hid => by simp at hid, fun _ k hk hne _ => ?_, fun _ hz => ?_⟩
            · obtain rfl : k = 0 := by
                by_contra hk0
                exact hne (hzero k (by omega))
              have hne' : p ≠ 0 := hne
              simp [hne', Node.prefixAt]
            · have hz' : p = 0 := hz 0 (by simp)
              simp [hz']
        | some child =>
            obtain ⟨h1, h2, h3⟩ := routeGo_spec rest fuel child hrest (fun t ht => hp t (by simp [ht]))
              (by simpa using hf)
            -- prefixes of this path are prefixes of the rest, one segment longer
            have hpre : ∀ k, (Node.mk h p ch).prefixAt ((s :: rest).take (k + 1)) = child.prefixAt (rest.take k) := by
              intro k
              rw [List.take_succ_cons, prefixAt_cons, hch]; rfl
            simp only [Option.getD_some]
            refine ⟨fun id hid => ?_, fun hnone k hk hne hmax => ?_, fun hnone hz => ?_⟩
            · rw [h1 id hid]
              have : (s :: rest).length - 1 = (rest.length - 1) + 1 := by simp; omega
              rw [this, List.drop_succ_cons]
            · cases k with
              | zero =>
                  -- no handler below: back to this node, with the path restored
                  have hne' : p ≠ 0 := hne
                  rw [h3 hnone fun k hk => ?_]
                  · simp [hne', Node.prefixAt]
                  · rw [← hpre k]; exact hmax (k + 1) (by omega) (by simpa using hk)
              | succ k =>
                  have := h2 hnone k (by simpa using hk) (by rw [← hpre k]; exact hne) fun j hkj hj => by
                    rw [← hpre j]; exact hmax (j + 1) (by omega) (by simpa using hj)
                  rw [this, hpre k, List.drop_succ_cons]
            · have hz' : p = 0 := hz 0 (by simp)
              rw [h3 hnone fun k hk => by rw [← hpre k]; exact hz (k + 1) (by simpa using hk)]
              simp [hz']

end Route

/-! ## §5 — registrations. -/

/-- A route registered, and the value its `Id` is then set to. -/
inductive Registration (Id : Type)
  | exact (path : Bytes) (id : Id)
  | leading (path : Bytes) (id : Id)

def Registration.path : Registration Id → Bytes
  | .exact path _ | .leading path _ => path

def Registration.id : Registration Id → Id
  | .exact _ id | .leading _ id => id

def register (node : Node Id) : Registration Id → Node Id
  | .exact path id => node.addExact path fun _ => id
  | .leading path id => node.addPrefix path fun _ => id

def build (rs : List (Registration Id)) : Node Id := rs.foldl register .empty

/-- The `Id` last set for the exact path. -/
def exactId (rs : List (Registration Id)) (path : Bytes) : Option Id :=
  (rs.filterMap fun
    | .exact p id => if p = path then some id else none
    | .leading _ _ => none).getLast?

/-- The `Id` last set for the prefix of these segments. -/
def prefixId (rs : List (Registration Id)) (segs : List Bytes) : Option Id :=
  (rs.filterMap fun
    | .exact _ _ => none
    | .leading p id => if prefixSegs (segments p) = segs then some id else none).getLast?

/-- `P` is a registered prefix and a proper leading segment sequence of `segs`. -/
def Matches (rs : List (Registration Id)) (segs P : List Bytes) : Prop :=
  prefixId rs P ≠ none ∧ P <+: segs ∧ P ≠ segs

omit [Zero Id] in
theorem exactId_append (rs : List (Registration Id)) (r : Registration Id) (path : Bytes) :
    exactId (rs ++ [r]) path =
      match r with
      | .exact p id => if p = path then some id else exactId rs path
      | .leading _ _ => exactId rs path := by
  cases r with
  | exact p id =>
      by_cases h : p = path <;> simp [exactId, List.filterMap_append, h]
  | leading p id => simp [exactId, List.filterMap_append]

omit [Zero Id] in
theorem prefixId_append (rs : List (Registration Id)) (r : Registration Id) (segs : List Bytes) :
    prefixId (rs ++ [r]) segs =
      match r with
      | .exact _ _ => prefixId rs segs
      | .leading p id => if prefixSegs (segments p) = segs then some id else prefixId rs segs := by
  cases r with
  | exact p id => simp [prefixId, List.filterMap_append]
  | leading p id =>
      by_cases h : prefixSegs (segments p) = segs <;> simp [prefixId, List.filterMap_append, h]

omit [Zero Id] in
theorem exists_leading {rs : List (Registration Id)} {segs : List Bytes} {id : Id}
    (h : prefixId rs segs = some id) : ∃ r ∈ rs, r.id = id := by
  have hmem := List.mem_of_getLast? h
  obtain ⟨r, hr, hid⟩ := List.mem_filterMap.mp hmem
  refine ⟨r, hr, ?_⟩
  cases r with
  | exact p i => cases hid
  | leading p i =>
      simp only at hid
      split at hid
      · simpa [Registration.id] using hid
      · cases hid

theorem prefixId_ne_zero {rs : List (Registration Id)} {segs : List Bytes} {id : Id}
    (hrs : ∀ r ∈ rs, r.path.head? = some 47 ∧ r.id ≠ 0) (h : prefixId rs segs = some id) : id ≠ 0 := by
  obtain ⟨r, hr, rfl⟩ := exists_leading h
  exact (hrs r hr).2

/-- **The tables of the tree are the registrations.** -/
theorem tables_build (rs : List (Registration Id)) (hrs : ∀ r ∈ rs, r.path.head? = some 47) :
    (∀ segs, segs ≠ [] → Plain segs → (build rs).exactAt segs = exactId rs (pathOf segs)) ∧
    ∀ segs, (build rs).prefixAt segs = (prefixId rs segs).getD 0 := by
  induction rs using List.reverseRecOn with
  | nil => exact ⟨fun segs _ _ => by simp [build, exactId], fun segs => by simp [build, prefixId]⟩
  | append_singleton rs r ih =>
      obtain ⟨ihe, ihp⟩ := ih fun x hx => hrs x (by simp [hx])
      have hslash := hrs r (by simp)
      have hbuild : build (rs ++ [r]) = register (build rs) r := by simp [build]
      rw [hbuild]
      cases r with
      | exact path id =>
          obtain ⟨he, hp⟩ := addExact_spec (show path.head? = some 47 from hslash) (fun _ => id) (build rs)
          refine ⟨fun segs hne hplain => ?_, fun segs => ?_⟩
          · rw [exactId_append, register, he, ihe segs hne hplain]
            have hiff : segs = segments path ↔ path = pathOf segs := by
              constructor
              · rintro rfl; exact (pathOf_segments hslash).symm
              · rintro rfl; exact (segments_pathOf hplain hne).symm
            simp only [hiff]
          · rw [prefixId_append, register, hp]; exact ihp segs
      | leading path id =>
          obtain ⟨he, hp⟩ := addPrefix_spec (show path.head? = some 47 from hslash) (fun _ => id) (build rs)
          refine ⟨fun segs hne hplain => ?_, fun segs => ?_⟩
          · rw [exactId_append, register, he]; exact ihe segs hne hplain
          · rw [prefixId_append, register, hp]
            by_cases h : segs = prefixSegs (segments path)
            · simp [h]
            · rw [if_neg h, ihp segs]
              simp [Ne.symm h]

section Spec

variable [DecidableEq Id]

/-- **Longest-match routing.** For every sequence of registrations with non-default `Id`s and every
request path: the exact route; else the registered prefix with the most segments that properly leads the
path; else nothing.  On success `current_path` is what follows the matched prefix (for an exact route, the
last segment with its slash); else it is the path. -/
theorem route_longest_match (rs : List (Registration Id))
    (hrs : ∀ r ∈ rs, r.path.head? = some 47 ∧ r.id ≠ 0) (path : Bytes) (hpath : path.head? = some 47) :
    (∀ id, exactId rs path = some id → ∃ current, (build rs).route path = (some id, current) ∧
      pathOf (segments path).dropLast ++ current = path) ∧
    (exactId rs path = none → ∀ P id, Matches rs (segments path) P →
      (∀ Q, Matches rs (segments path) Q → Q.length ≤ P.length) → prefixId rs P = some id →
      ∃ current, (build rs).route path = (some id, current) ∧ pathOf P ++ current = path) ∧
    (exactId rs path = none → (∀ P, ¬ Matches rs (segments path) P) →
      (build rs).route path = (none, path)) := by
  obtain ⟨hexact, hlead⟩ := tables_build rs fun r hr => (hrs r hr).1
  have hsegs := segments_ne_nil path
  have hback := pathOf_segments hpath
  obtain ⟨h1, h2, h3⟩ := routeGo_spec (segments path) path.length (build rs) hsegs (plain_segments path)
    (length_segments_le hpath)
  rw [hback, hexact _ hsegs (plain_segments path), hback] at h1 h2 h3
  have hsplit : ∀ k, pathOf ((segments path).take k) ++ pathOf ((segments path).drop k) = path := by
    intro k
    rw [pathOf, pathOf, ← List.flatMap_append, List.take_append_drop]; exact hback
  -- a prefix handler is set exactly when its prefix is registered
  have hset : ∀ k, (build rs).prefixAt ((segments path).take k) ≠ 0 ↔
      prefixId rs ((segments path).take k) ≠ none := by
    intro k
    rw [hlead]
    cases hid : prefixId rs ((segments path).take k) with
    | none => simp
    | some id => simpa using prefixId_ne_zero hrs hid
  have hmatch : ∀ k, k < (segments path).length → ((build rs).prefixAt ((segments path).take k) ≠ 0 ↔
      Matches rs (segments path) ((segments path).take k)) := by
    intro k hk
    rw [hset k]
    refine ⟨fun h => ⟨h, List.take_prefix _ _, fun he => ?_⟩, fun h => h.1⟩
    have := congrArg List.length he
    simp at this
    omega
  refine ⟨fun id hid => ⟨_, h1 id hid, ?_⟩, fun hnone P id hP hmax hid => ?_, fun hnone hno => ?_⟩
  · rw [List.dropLast_eq_take]; exact hsplit _
  · obtain ⟨hreg, hpre, hne⟩ := hP
    have hPtake := List.prefix_iff_eq_take.mp hpre
    have hPlen : P.length < (segments path).length := by
      refine Nat.lt_of_le_of_ne hpre.length_le fun he => hne ?_
      rw [hPtake, he, List.take_length]
    refine ⟨pathOf ((segments path).drop P.length), ?_, ?_⟩
    · have := h2 hnone P.length hPlen (by rw [hset, ← hPtake]; exact hreg) fun j hj hjl => ?_
      · rw [hlead, ← hPtake, hid] at this
        exact this
      · by_contra hne0
        have := hmax _ ((hmatch j hjl).mp hne0)
        simp at this
        omega
    · have := hsplit P.length
      rwa [← hPtake] at this
  · exact h3 hnone fun k hk => by
      by_contra hne0
      exact hno _ ((hmatch k hk).mp hne0)

/-- `/h/w` exactly, and everything under `/h/`. -/
def helloRoutes : List (Registration Nat) :=
  [.exact (pathOf [[104], [119]]) 1, .leading (pathOf [[104], []]) 2]

theorem route_longest_match_hello :
    ∃ current, (build helloRoutes).route (pathOf [[104], [97], [98]]) = (some 2, current) ∧
      pathOf [[104]] ++ current = pathOf [[104], [97], [98]] := by
  have h := route_longest_match helloRoutes (by decide) (pathOf [[104], [97], [98]]) rfl
  refine h.2.1 (by decide) [[104]] 2 ⟨by decide, by decide, by decide⟩ ?_ (by decide)
  rintro Q ⟨hreg, -, -⟩
  by_contra hlen
  have hQ : ¬ [[104]] = Q := by rintro rfl; simp at hlen
  have hP : prefixSegs (segments [47, 104, 47]) = [[104]] := by decide
  exact hreg (by simp [prefixId, helloRoutes, hP, hQ])

end Spec

end NetCpp.Http
