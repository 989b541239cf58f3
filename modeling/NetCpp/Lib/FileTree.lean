/-
# NetCpp.Lib.FileTree — POSIX paths, and a file tree with symbolic links.

A path is a root directory or none, and the elements behind it; an EMPTY last element stands for a trailing
separator.  A location is a list of names below the root of the tree.  `walk` takes a path to a location the
way a kernel does, element by element, `..` after the links before it are followed.

Two kinds of operation meet here, and their difference is the subject of the module:

* `resolve` (and `status`, `canonical`, `fileSize` on top of it) look at the tree,
* `append`, `lexicallyNormal`, `lexicallyRelative` only look at the text of a path.

`weaklyCanonical` looks at the tree as far as the path exists and at the text from there on.
-/
import NetCpp.Lib.Bytes

namespace NetCpp.Lib

/-! ## §1 — paths. -/

abbrev Name := Bytes

def dot : Name := [46]
def dotdot : Name := [46, 46]

/-- A name that stands for an entry of a directory. -/
def Plain (n : Name) : Prop := n ≠ [] ∧ n ≠ dot ∧ n ≠ dotdot

instance (n : Name) : Decidable (Plain n) := inferInstanceAs (Decidable (_ ∧ _ ∧ _))

structure Path where
  absolute : Bool
  elems : List Name
  deriving DecidableEq, Repr

namespace Path

/-- The path of a text. -/
def ofNative (s : Bytes) : Path :=
  let names := (s.splitOn 47).filter (· ≠ [])
  { absolute := s.head? == some 47
    elems := if names ≠ [] ∧ s.getLast? = some 47 then names ++ [[]] else names }

/-- `native()` -/
def native (p : Path) : Bytes := (if p.absolute then [47] else []) ++ [47].intercalate p.elems

/-- `empty()` -/
def isEmpty (p : Path) : Bool := !p.absolute && p.elems.isEmpty

/-- The elements without a trailing separator. -/
def names (p : Path) : List Name := p.elems.filter (· ≠ [])

/-- The path of one element. -/
def single (e : Name) : Path := { absolute := false, elems := if e = [] then [] else [e] }

/-- `p /= q`: an absolute `q` replaces `p`, an empty one leaves a trailing separator. -/
def append (p q : Path) : Path :=
  if q.absolute then q
  else if q.elems = [] then
    if p.elems.getLast?.any (· ≠ []) then { p with elems := p.elems ++ [[]] } else p
  else { p with elems := p.names ++ q.elems }

/-- `p += ext`, for a text without separator. -/
def concat (p : Path) (ext : Bytes) : Path :=
  { p with elems := p.elems.dropLast ++ [p.elems.getLast?.getD [] ++ ext] }

/-- Where the extension of a file name begins: at its last dot, unless that is its first byte. -/
def extensionAt (n : Name) : Option Nat :=
  if n = dotdot then none
  else ((n.reverse.findIdx? (· == 46)).map fun i => n.length - 1 - i).filter (0 < ·)

/-- `extension()` -/
def extension (p : Path) : Bytes :=
  let n := p.elems.getLast?.getD []
  match extensionAt n with
  | none => []
  | some i => n.drop i

/-- `replace_extension()` -/
def replaceExtension (p : Path) : Path :=
  let n := p.elems.getLast?.getD []
  match extensionAt n with
  | none => p
  | some i => { p with elems := p.elems.dropLast ++ [n.take i] }

/-- One element more on the names of a normal form. -/
def normalStep (absolute : Bool) (acc : List Name) (e : Name) : List Name :=
  if e = [] ∨ e = dot then acc
  else if e = dotdot then
    match acc.getLast? with
    | none => if absolute then acc else [dotdot]
    | some l => if l = dotdot then acc ++ [dotdot] else acc.dropLast
  else acc ++ [e]

/-- `lexically_normal()` -/
def lexicallyNormal (p : Path) : Path :=
  let acc := p.elems.foldl (normalStep p.absolute) []
  if p.isEmpty then p
  else if acc = [] then { absolute := p.absolute, elems := if p.absolute then [] else [dot] }
  else
    -- a separator stays behind what was a directory, but not behind `..`
    let slash := p.elems.getLast?.any (¬ Plain ·) && acc.getLast? != some dotdot
    { absolute := p.absolute, elems := if slash then acc ++ [[]] else acc }

/-- `std::mismatch` -/
def mismatch : List Name → List Name → List Name × List Name
  | a :: as, b :: bs => if a = b then mismatch as bs else (a :: as, b :: bs)
  | as, bs => (as, bs)

/-- How many directories the elements go down. -/
def depth (es : List Name) : Int :=
  (es.map fun e => if e = dotdot then -1 else if e = [] ∨ e = dot then 0 else 1).sum

/-- `p.lexically_relative(base)`; the empty path when there is none. -/
def lexicallyRelative (p base : Path) : Path :=
  let empty : Path := { absolute := false, elems := [] }
  if p.absolute ≠ base.absolute then empty
  else
    let ab := mismatch p.elems base.elems
    if ab.1 = [] ∧ ab.2 = [] then single dot
    else if depth ab.2 = 0 ∧ (ab.1.head?.getD [] = []) then single dot
    else if depth ab.2 < 0 then empty
    else (List.replicate (depth ab.2).toNat dotdot ++ ab.1).foldl (fun r e => r.append (single e)) empty

/-- What `c_str()` shows of the path: it ends at the first NUL. -/
def cStr (p : Path) : Path :=
  { p with elems := (p.elems.takeWhile (0 ∉ ·)) ++
      ((p.elems.dropWhile (0 ∉ ·)).head?.map fun n => n.takeWhile (· ≠ 0)).toList }

end Path

/-! ## §2 — the tree. -/

inductive Entry
  | regular (data : Bytes) (mtime : Nat)
  | directory (mtime : Nat)
  | other (mtime : Nat)
  | symlink (target : Path)
  deriving DecidableEq, Repr

structure FileTree where
  entry : List Name → Option Entry
  /-- whether the process may look names up in the directory -/
  searchable : List Name → Bool
  /-- the current directory -/
  cwd : List Name
  cwd_plain : ∀ n ∈ cwd, Plain n

inductive Errc
  | noSuchFileOrDirectory | notADirectory | isADirectory | permissionDenied | tooManySymbolicLinkLevels
  | notSupported
  deriving DecidableEq, Repr

/-- The errors that mean that there is nothing at the path. -/
def Errc.isNotFound (e : Errc) : Bool := e == .noSuchFileOrDirectory || e == .notADirectory

inductive FileType
  | none | notFound | regular | directory | symlink | other
  deriving DecidableEq, Repr

namespace FileTree

def isDirectory (t : FileTree) (loc : List Name) : Bool :=
  match t.entry loc with
  | some (.directory _) => true
  | _ => false

/-- From `cur`, element by element; `follow` goes on from where a link is, with its target before the rest. -/
def walkWith (t : FileTree) (follow : List Name → List Name → Except Errc (List Name)) :
    List Name → List Name → Except Errc (List Name)
  | cur, [] => .ok cur
  | cur, e :: es =>
      if !t.isDirectory cur then .error .notADirectory
      else if e = [] then walkWith t follow cur es
      else if !t.searchable cur then .error .permissionDenied
      else if e = dot then walkWith t follow cur es
      else if e = dotdot then walkWith t follow cur.dropLast es
      else
        match t.entry (cur ++ [e]) with
        | none => .error .noSuchFileOrDirectory
        | some (.symlink target) => follow (if target.absolute then [] else cur) (target.elems ++ es)
        | some _ => walkWith t follow (cur ++ [e]) es

/-- A walk that follows at most `links` links. -/
def walk (t : FileTree) : Nat → List Name → List Name → Except Errc (List Name)
  | 0 => t.walkWith fun _ _ => .error .tooManySymbolicLinkLevels
  | links + 1 => t.walkWith (t.walk links)

def maxSymlinks : Nat := 40

/-- The location a path leads to. -/
def resolve (t : FileTree) (p : Path) : Except Errc (List Name) :=
  if p.cStr.isEmpty then .error .noSuchFileOrDirectory
  else t.walk maxSymlinks (if p.absolute then [] else t.cwd) p.cStr.elems

/-- `status(p, ec)` -/
def status (t : FileTree) (p : Path) : FileType × Option Errc :=
  match t.resolve p with
  | .error e => (if e.isNotFound then .notFound else .none, some e)
  | .ok loc =>
    match t.entry loc with
    | none => (.notFound, some .noSuchFileOrDirectory)
    | some (.regular _ _) => (.regular, none)
    | some (.directory _) => (.directory, none)
    | some (.other _) => (.other, none)
    | some (.symlink _) => (.symlink, none)

/-- `canonical(p, ec)` -/
def canonical (t : FileTree) (p : Path) : Except Errc Path := do
  return { absolute := true, elems := ← t.resolve p }

/-- The leading elements that exist, and the others. -/
def leading (t : FileTree) : Path → List Name → Except Errc (Path × List Name)
  | result, [] => .ok (result, [])
  | result, e :: es =>
      match (t.status (result.append (.single e))).2 with
      | none => leading t (result.append (.single e)) es
      | some err => if err.isNotFound then .ok (result, e :: es) else .error err

/-- `weakly_canonical(p, ec)` -/
def weaklyCanonical (t : FileTree) (p : Path) : Except Errc Path :=
  match (t.status p).2 with
  | none => t.canonical p
  | some err =>
    if err.isNotFound then do
      let (result, rest) ← t.leading { absolute := p.absolute, elems := [] } p.elems
      let result ← if result.isEmpty then .ok result else t.canonical result
      return (rest.foldl (fun r e => r.append (.single e)) result).lexicallyNormal
    else .error err

/-- `relative(p, base, ec)` -/
def relative (t : FileTree) (p base : Path) : Except Errc Path := do
  let result ← t.weaklyCanonical p
  let cbase ← t.weaklyCanonical base
  return result.lexicallyRelative cbase

/-- `file_size(p, ec)` -/
def fileSize (t : FileTree) (p : Path) : Except Errc Nat := do
  match t.entry (← t.resolve p) with
  | some (.regular data _) => return data.length
  | some (.directory _) => throw .isADirectory
  | some _ => throw .notSupported
  | none => throw .noSuchFileOrDirectory

/-- `last_write_time(p, ec)` -/
def lastWriteTime (t : FileTree) (p : Path) : Except Errc Nat := do
  match t.entry (← t.resolve p) with
  | some (.regular _ mtime) | some (.directory mtime) | some (.other mtime) => return mtime
  | some (.symlink _) => throw .notSupported
  | none => throw .noSuchFileOrDirectory

end FileTree

/-! ## §3 — the text of a path. -/

namespace Path

/-- The elements of a normal form below a root directory. -/
def NormalElems (es : List Name) : Prop := ∀ e ∈ es, e = [] ∨ Plain e

theorem normalStep_plain {acc : List Name} (e : Name) (h : ∀ n ∈ acc, Plain n) :
    ∀ n ∈ normalStep true acc e, Plain n := by
  unfold normalStep
  split
  · exact h
  · rename_i hdot
    split
    · cases hl : acc.getLast? with
      | none => exact h
      | some l =>
        have hplain : Plain l := h l (List.mem_of_getLast? hl)
        simp only [if_neg hplain.2.2]
        exact fun n hn => h n (List.mem_of_mem_dropLast hn)
    · rename_i hdd
      intro n hn
      rcases List.mem_append.mp hn with hn | hn
      · exact h n hn
      · obtain rfl := List.mem_singleton.mp hn
        simp only [not_or] at hdot
        exact ⟨hdot.1, hdot.2, hdd⟩

/-- **Below a root directory a normal form has no `.` and no `..`.** -/
theorem lexicallyNormal_elems {p : Path} (h : p.absolute = true) : NormalElems p.lexicallyNormal.elems := by
  have hacc : ∀ es acc, (∀ n ∈ acc, Plain n) → ∀ n ∈ List.foldl (normalStep true) acc es, Plain n := by
    intro es
    induction es with
    | nil => exact fun acc hacc => hacc
    | cons e es ih => exact fun acc hacc => ih _ (normalStep_plain e hacc)
  have hfold := hacc p.elems [] (by simp)
  intro e he
  unfold lexicallyNormal at he
  simp only [h] at he
  split at he
  · rename_i hempty
    simp [isEmpty, h] at hempty
  · split at he
    · simp at he
    · split at he
      · rcases List.mem_append.mp he with he | he
        · exact .inr (hfold e he)
        · exact .inl (List.mem_singleton.mp he)
      · exact .inr (hfold e he)

theorem lexicallyNormal_absolute {p : Path} : p.lexicallyNormal.absolute = p.absolute := by
  unfold lexicallyNormal
  simp only []
  split_ifs <;> rfl

theorem mismatch_spec (as bs : List Name) :
    ∃ c, as = c ++ (mismatch as bs).1 ∧ bs = c ++ (mismatch as bs).2 := by
  induction as generalizing bs with
  | nil => exact ⟨[], rfl, rfl⟩
  | cons a as ih =>
    cases bs with
    | nil => exact ⟨[], rfl, rfl⟩
    | cons b bs =>
      by_cases hab : a = b
      · obtain ⟨c, ha, hb⟩ := ih bs
        refine ⟨a :: c, ?_, ?_⟩
        · simpa [mismatch, hab] using ha
        · simpa [mismatch, hab] using hb
      · exact ⟨[], by simp [mismatch, hab]⟩

/-- A normal form never goes up, and stays where it is only with empty elements. -/
theorem depth_of_normal {es : List Name} (h : NormalElems es) :
    0 ≤ depth es ∧ (depth es = 0 → ∀ e ∈ es, e = []) := by
  induction es with
  | nil => simp [depth]
  | cons e es ih =>
    obtain ⟨hnonneg, hzero⟩ := ih fun n hn => h n (List.mem_cons_of_mem e hn)
    have hcons : depth (e :: es) = (if e = dotdot then -1 else if e = [] ∨ e = dot then 0 else 1) + depth es := rfl
    rcases h e (List.mem_cons_self ..) with rfl | hplain
    · rw [hcons]
      constructor
      · simpa [dotdot] using hnonneg
      · intro hz n hn
        rcases List.mem_cons.mp hn with rfl | hn
        · rfl
        · exact hzero (by simpa [dotdot] using hz) n hn
    · rw [hcons, if_neg hplain.2.2, if_neg (by simp [hplain.1, hplain.2.1])]
      constructor
      · omega
      · intro hz
        omega

theorem append_single_dotdot {r : Path} {e : Name} (habs : r.absolute = false) (hr : r.elems.head? = some dotdot) :
    (r.append (single e)).absolute = false ∧ (r.append (single e)).elems.head? = some dotdot := by
  obtain ⟨es, hes⟩ : ∃ es, r.elems = dotdot :: es := by
    cases hre : r.elems with
    | nil => simp [hre] at hr
    | cons a es => exact ⟨es, by simpa [hre] using hr⟩
  have hnames : r.names = dotdot :: es.filter (· ≠ []) := by simp [names, hes, dotdot]
  unfold append single
  by_cases he : e = []
  · simp only [he, if_true]
    split_ifs <;> simp_all
  · simp [he, habs, hnames]

theorem foldl_append_dotdot {r : Path} (es : List Name) (habs : r.absolute = false)
    (hr : r.elems.head? = some dotdot) :
    (es.foldl (fun r e => r.append (single e)) r).absolute = false ∧
      (es.foldl (fun r e => r.append (single e)) r).elems.head? = some dotdot := by
  induction es generalizing r with
  | nil => exact ⟨habs, hr⟩
  | cons e es ih =>
    obtain ⟨habs', hr'⟩ := append_single_dotdot (e := e) habs hr
    exact ih habs' hr'

theorem native_dotdot {r : Path} (habs : r.absolute = false) (hr : r.elems.head? = some dotdot) :
    dotdot <+: r.native := by
  cases hre : r.elems with
  | nil => simp [hre] at hr
  | cons a es =>
    obtain rfl : a = dotdot := by simpa [hre] using hr
    cases es with
    | nil => simp [native, habs, hre]
    | cons b es =>
      rw [native, habs, hre, List.intercalate_cons_cons]
      exact ⟨47 :: [47].intercalate (b :: es), by simp⟩

/-- **The containment test.** If the relative path is not empty and does not begin with `..`, the base is a prefix. -/
theorem prefix_of_lexicallyRelative {p base : Path} (hp : ∀ n ∈ p.elems, Plain n)
    (hbase : base.absolute = true → NormalElems base.elems) (habs : p.absolute = true)
    (hne : (p.lexicallyRelative base).isEmpty = false) (hdd : ¬ dotdot <+: (p.lexicallyRelative base).native) :
    base.absolute = true ∧ base.names <+: p.elems := by
  have hb : base.absolute = true := by
    by_contra hb
    simp [lexicallyRelative, habs, hb, isEmpty] at hne
  refine ⟨hb, ?_⟩
  obtain ⟨c, hc, hc'⟩ := mismatch_spec p.elems base.elems
  have hnormal : NormalElems (mismatch p.elems base.elems).2 := by
    intro e he
    apply hbase hb e
    rw [hc']
    exact List.mem_append_right c he
  obtain ⟨hnonneg, hzero⟩ := depth_of_normal hnormal
  by_cases hdepth : depth (mismatch p.elems base.elems).2 = 0
  · -- only empty elements of the base are left: what the two have in common is all of its names
    have hcommon : c.filter (· ≠ []) = c := by
      rw [List.filter_eq_self]
      intro n hn
      simpa using (hp n (by rw [hc]; exact List.mem_append_left _ hn)).1
    have hrest : (mismatch p.elems base.elems).2.filter (· ≠ []) = [] := by
      rw [List.filter_eq_nil_iff]
      intro n hn
      simpa using hzero hdepth n hn
    rw [names, hc', List.filter_append, hcommon, hrest, List.append_nil]
    exact ⟨_, hc.symm⟩
  · -- the relative path begins with a `..` for each name that is left
    exfalso
    have hne' : (mismatch p.elems base.elems).2 ≠ [] := by
      rintro h
      simp [h, depth] at hdepth
    obtain ⟨k, hk⟩ : ∃ k, (depth (mismatch p.elems base.elems).2).toNat = k + 1 :=
      ⟨(depth (mismatch p.elems base.elems).2).toNat - 1, by omega⟩
    apply hdd
    have hfirst := foldl_append_dotdot (r := append { absolute := false, elems := [] } (single dotdot))
      (List.replicate k dotdot ++ (mismatch p.elems base.elems).1) rfl rfl
    simp only [lexicallyRelative, habs, hb, ne_eq, not_true_eq_false, if_false, hne', and_false, hdepth,
      false_and, hnonneg.not_gt, hk, List.replicate_succ, List.cons_append, List.foldl_cons]
    exact native_dotdot hfirst.1 hfirst.2

end Path

/-! ## §4 — what the tree adds. -/

namespace FileTree

variable {t : FileTree} {p base : Path} {loc : List Name}

theorem walkWith_plain {follow : List Name → List Name → Except Errc (List Name)}
    (hfollow : ∀ cur es loc, (∀ n ∈ cur, Plain n) → follow cur es = .ok loc → ∀ n ∈ loc, Plain n)
    (cur es : List Name) (hcur : ∀ n ∈ cur, Plain n) (h : t.walkWith follow cur es = .ok loc) :
    ∀ n ∈ loc, Plain n := by
  induction es generalizing cur with
  | nil =>
    obtain rfl : cur = loc := by simpa [walkWith] using h
    exact hcur
  | cons e es ih =>
    unfold walkWith at h
    split_ifs at h with hdir hempty hsearch hdot hdd
    · exact ih cur hcur h
    · exact ih cur hcur h
    · exact ih cur.dropLast (fun n hn => hcur n (List.mem_of_mem_dropLast hn)) h
    · split at h
      · cases h
      · apply hfollow _ _ _ _ h
        intro n hn
        split at hn
        · cases hn
        · exact hcur n hn
      · apply ih _ _ h
        intro n hn
        rcases List.mem_append.mp hn with hn | hn
        · exact hcur n hn
        · obtain rfl := List.mem_singleton.mp hn
          exact ⟨hempty, hdot, hdd⟩

/-- **A location has no `.` and no `..`**, however the links lead to it. -/
theorem walk_plain (links : Nat) (cur es : List Name) (loc : List Name) (hcur : ∀ n ∈ cur, Plain n)
    (h : t.walk links cur es = .ok loc) : ∀ n ∈ loc, Plain n := by
  induction links generalizing cur es loc with
  | zero => exact walkWith_plain (fun _ _ _ _ h => by cases h) cur es hcur h
  | succ links ih => exact walkWith_plain ih cur es hcur h

theorem resolve_plain (h : t.resolve p = .ok loc) : ∀ n ∈ loc, Plain n := by
  unfold resolve at h
  split at h
  · cases h
  · apply walk_plain _ _ _ _ _ h
    intro n hn
    split at hn
    · cases hn
    · exact t.cwd_plain n hn

/-- What has a status has a location. -/
theorem resolve_of_status (h : (t.status p).2 = none) : ∃ loc, t.resolve p = .ok loc := by
  unfold status at h
  cases hr : t.resolve p with
  | error e => simp [hr] at h
  | ok loc => exact ⟨loc, rfl⟩

/-- The file types a path that is there can have. -/
theorem type_of_status (h : (t.status p).2 = none) : (t.status p).1 ≠ .none ∧ (t.status p).1 ≠ .notFound := by
  obtain ⟨loc, hloc⟩ := resolve_of_status h
  simp only [status, hloc] at h ⊢
  cases he : t.entry loc with
  | none => simp [he] at h
  | some e => cases e <;> simp

/-- A regular file has a size and a time. -/
theorem regular_of_status (h : t.status p = (.regular, none)) :
    ∃ loc size mtime, t.resolve p = .ok loc ∧ t.fileSize p = .ok size ∧ t.lastWriteTime p = .ok mtime := by
  obtain ⟨loc, hloc⟩ := resolve_of_status (by rw [h])
  simp only [status, hloc] at h
  cases he : t.entry loc with
  | none => simp [he] at h
  | some e =>
    cases e with
    | regular data mtime =>
      refine ⟨loc, data.length, mtime, hloc, ?_, ?_⟩
      · simp only [fileSize, hloc, bind, Except.bind, he]
        rfl
      · simp only [lastWriteTime, hloc, bind, Except.bind, he]
        rfl
    | directory mtime | other mtime | symlink target => simp [he] at h

theorem canonical_of_resolve (h : t.resolve p = .ok loc) :
    t.canonical p = .ok { absolute := true, elems := loc } := by
  simp only [canonical, h]
  rfl

/-- **Of a path that exists the weakly canonical form is the canonical one.** -/
theorem weaklyCanonical_of_status (hs : (t.status p).2 = none) (h : t.resolve p = .ok loc) :
    t.weaklyCanonical p = .ok { absolute := true, elems := loc } := by
  simp only [weaklyCanonical, hs, canonical_of_resolve h]

/-- An absolute weakly canonical path is in normal form. -/
theorem weaklyCanonical_elems {w : Path} (h : t.weaklyCanonical p = .ok w) (habs : w.absolute = true) :
    Path.NormalElems w.elems := by
  unfold weaklyCanonical at h
  split at h
  · rename_i hs
    obtain ⟨loc, hloc⟩ := resolve_of_status hs
    rw [canonical_of_resolve hloc] at h
    obtain rfl := Except.ok.inj h
    exact fun e he => .inr (resolve_plain hloc e he)
  · -- the elements that do not exist were put behind the others, and the whole brought into normal form
    obtain ⟨q, rfl⟩ : ∃ q : Path, w = q.lexicallyNormal := by
      simp only [bind, Except.bind, pure, Except.pure] at h
      split at h
      · split at h
        · cases h
        · split_ifs at h
          · exact ⟨_, (Except.ok.inj h).symm⟩
          · split at h
            · cases h
            · exact ⟨_, (Except.ok.inj h).symm⟩
      · cases h
    rw [Path.lexicallyNormal_absolute] at habs
    exact Path.lexicallyNormal_elems habs

/-- **The containment test.** What `relative` puts below the base, without a `..` in front, lies inside the
canonical form of the base. -/
theorem inside_of_relative {rel : Path} (hs : (t.status p).2 = none) (hloc : t.resolve p = .ok loc)
    (h : t.relative p base = .ok rel) (hne : rel.isEmpty = false) (hdd : ¬ dotdot <+: rel.native) :
    ∃ root, t.weaklyCanonical base = .ok root ∧ root.absolute = true ∧ root.names <+: loc := by
  simp only [relative, weaklyCanonical_of_status hs hloc] at h
  cases hb : t.weaklyCanonical base with
  | error e => simp [hb, bind, Except.bind] at h
  | ok root =>
    obtain rfl : Path.lexicallyRelative { absolute := true, elems := loc } root = rel := by
      simpa [hb, bind, Except.bind, pure, Except.pure] using h
    obtain ⟨habs, hprefix⟩ := Path.prefix_of_lexicallyRelative (p := { absolute := true, elems := loc })
      (resolve_plain hloc) (fun habs => weaklyCanonical_elems hb habs) rfl hne hdd
    exact ⟨root, rfl, habs, hprefix⟩

end FileTree

end NetCpp.Lib
