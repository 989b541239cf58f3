/-
# NetCpp.Http.Static — the static file server and its root.

`include/xsl/asio/http/component/static.h`.  `FolderRouteHandler` joins what is left of the request path to
`cfg.path` and hands the result to `sendfile`, which may try a precompressed variant first; `try_sendfile`
brings a path into canonical form, refuses it when that is not below `cfg.path`, and sets up the response.

`sendfile` takes its path by reference and appends the extension of a variant to it.  The path of `FolderRouteHandler` is
a copy; `FileRouteHandler` hands over `cfg.path` itself, so that for a variant the root is the variant (`reference`).

The test is made on the path that was ASKED for.  For a directory the path is changed once more, to the
directory's index, and nothing is tested again: what is sent is whatever the index leads to.
`folder_confined_iff` says that this is the only way out of the root.

`file` in a reply is a history variable: the path whose size (and, unless the method is HEAD, whose bytes) the
reply carries.
-/
import NetCpp.Http.Service
import NetCpp.Http.Accept
import NetCpp.Lib.FileTree

namespace NetCpp.Http

open NetCpp.Lib

/-! ## §1 — configuration, replies. -/

structure StaticFileConfig where
  path : Path
  compressEncodings : List Bytes := []
  directoryIndex : Bytes := text "index.html"

def encodingToExtension : List (Bytes × Bytes) :=
  [(text "br", text ".br"), (text "gzip", text ".gz"), (text "deflate", text ".deflate")]

namespace Status

def forbidden : Status := 403
def methodNotAllowed : Status := 405
def notAcceptable : Status := 406

end Status

/-- `std::sort` of encodings with their weights, the greater weight text first. -/
structure WeightSort where
  run : List (Bytes × Bytes) → List (Bytes × Bytes)
  perm : ∀ l, (run l).Perm l
  sorted : ∀ l, (run l).Pairwise fun a b => ¬ a.2 < b.2

/-- What the handler computes from header values and file names with the help of the library. -/
structure Negotiation where
  sort : WeightSort
  /-- whether `std::from_chars` reads a `float` from the text -/
  readsFloat : Bytes → Bool
  /-- whether the `float w` of a turn of the loop, which is not initialised, is 0; the turn with `n` encodings left -/
  zero : Nat → Bool
  fromDateString : Bytes → Option Nat
  toDateString : Nat → Bytes
  fromExtension : Bytes → Bytes

structure WriteFileHint where
  path : Path
  offset : Nat
  size : Nat

inductive Body
  | none
  | text (body : Bytes)
  | file (hint : WriteFileHint)

structure Reply where
  status : Status
  headers : SmallHeaderMap
  body : Body
  file : Option Path := none

/-- The path of `sendfile` is a reference: to a copy, or to `cfg.path` itself. -/
inductive PathRef
  | copy
  | cfgPath
deriving DecidableEq

/-- The configuration while the path is `path`. -/
def StaticFileConfig.reference (cfg : StaticFileConfig) (ref : PathRef) (path : Path) : StaticFileConfig :=
  match ref with
  | .copy => cfg
  | .cfgPath => { cfg with path := path }

@[simp] theorem StaticFileConfig.reference_copy (cfg : StaticFileConfig) (path : Path) : cfg.reference .copy path = cfg := rfl

/-- How a call ends: with a response set, with a status for the caller, or with an exception. -/
inductive Answer
  | sent (reply : Reply)
  | status (s : Status)
  | thrown

/-- The file a 200 carries. -/
def Answer.carried : Answer → Option Path
  | .sent r => if r.status = .ok then r.file else none
  | .status _ | .thrown => none

theorem Answer.sent_of_carried {answer : Answer} {path : Path} (h : answer.carried = some path) :
    ∃ r, answer = .sent r ∧ r.status = .ok ∧ r.file = some path := by
  cases answer with
  | sent r =>
    by_cases hok : r.status = .ok
    · exact ⟨r, rfl, hok, by simpa [carried, hok] using h⟩
    · simp [carried, hok] at h
  | status s | thrown => cases h

/-- A response with a string body. -/
def Reply.ofText (status : Status) (body : Bytes) (headers : SmallHeaderMap := .empty) : Reply where
  status := status
  headers := headers.emplace (text "Content-Length") (decimal body.length)
  body := .text body

namespace StaticFileServer

variable (env : Negotiation) (fs : FileTree) (cfg : StaticFileConfig) (ctx : HandleContext)

/-! ## §2 — the server. -/

/-- The test on a path: `relative` to the root, not empty, no `..` in front. -/
def contained (path : Path) : Bool :=
  match fs.relative path cfg.path with
  | .error _ => false
  | .ok rel => !rel.isEmpty && !dotdot.isPrefixOf rel.native

/-- The response of a regular file. -/
def ofFile (path : Path) (contentType : Bytes) (fileSize lastModified : Nat) : Reply where
  status := .ok
  headers := ((SmallHeaderMap.empty.emplace (text "Content-Length") (decimal fileSize)).emplace
    (text "Last-Modified") (env.toDateString lastModified)).emplace (text "Content-Type") contentType
  body := if ctx.request.method = .head then .none else .file ⟨path, 0, fileSize⟩
  file := some path

/-- `try_sendfile` from the test of the file type on. -/
def sendRegular (path : Path) (type : FileType) (contentType : Bytes) : Answer :=
  if type ≠ .regular then
    if type = .notFound then .sent (.ofText .notFound (text "File not found")) else .status .internalServerError
  else
    match fs.fileSize path, fs.lastWriteTime path with
    | .ok fileSize, .ok lastModified => .sent (ofFile env ctx path contentType fileSize lastModified)
    | _, _ => .status .internalServerError

def trySendfile (contentType : Bytes) (p : Path) : Answer :=
  match fs.weaklyCanonical p with
  | .error _ => .status .internalServerError
  | .ok path =>
    if contained fs cfg path = false then .sent (.ofText .forbidden (text "Path is not allowed"))
    else if (fs.status path).2 = some .noSuchFileOrDirectory then .sent (.ofText .notFound (text "File not found"))
    else if (fs.status path).2 = some .notADirectory then
      .sent (.ofText .notFound (text "Path is not a directory"))
    else if (fs.status path).2 ≠ none then .status .internalServerError
    else if (fs.status path).1 = .directory then
      if ctx.currentPath.getLast? ≠ some 47 ∨ cfg.directoryIndex = [] then .status .forbidden
      else
        let index := path.append (.ofNative cfg.directoryIndex)
        if (fs.status index).2 = some .noSuchFileOrDirectory then
          .sent (.ofText .forbidden (text "Index file not found"))
        else if (fs.status index).2 ≠ none then .status .internalServerError
        else sendRegular env fs ctx index (fs.status index).1 contentType
    else sendRegular env fs ctx path (fs.status path).1 contentType

/-- `res.ec == errc{} || w == 0`: `from_chars` leaves `w` alone when it fails. -/
def skips (n : Nat) (weight : Bytes) : Bool := env.readsFloat weight || env.zero n

/-- The loop of `sendfile` over the accepted encodings, and the uncompressed file after it. -/
def tryVariants (ref : PathRef) (contentType : Bytes) : List (Bytes × Bytes) → Path → Answer
  | [], path => trySendfile env fs (cfg.reference ref path) ctx contentType path
  | (encoding, weight) :: rest, path =>
    if skips env rest.length weight then tryVariants ref contentType rest path
    else if encoding ∉ cfg.compressEncodings then tryVariants ref contentType rest path
    else
      match encodingToExtension.lookup encoding with
      | none => tryVariants ref contentType rest path
      | some ext =>
        match trySendfile env fs (cfg.reference ref (path.concat ext)) ctx contentType (path.concat ext) with
        | .sent r => .sent { r with headers := r.headers.emplace (text "Content-Encoding") encoding }
        | _ => tryVariants ref contentType rest (path.concat ext).replaceExtension

/-- The paths the loop tries, one after another. -/
def variants : List (Bytes × Bytes) → Path → List Path
  | [], path => [path]
  | (encoding, weight) :: rest, path =>
    if skips env rest.length weight then variants rest path
    else if encoding ∉ cfg.compressEncodings then variants rest path
    else
      match encodingToExtension.lookup encoding with
      | none => variants rest path
      | some ext => path.concat ext :: variants rest (path.concat ext).replaceExtension

/-- `get_header` -/
def getHeader (key : Bytes) : Option Bytes := ctx.request.headers.lookup key

/-- `type_includes` of a media type in a header value. -/
def typeIncludes (value : Bytes) (media : MediaTypeView) (contentType : Bytes) : Bool :=
  if fieldAt value media.mainType = text "*" then true
  else if fieldAt value media.mainType ≠ contentType.takeWhile (· ≠ 47) then false
  else if fieldAt value media.subType = text "*" then true
  else fieldAt value media.subType == (contentType.dropWhile (· ≠ 47)).drop 1

/-- Whether a media type of the `Accept` value includes the content type; `none` when `parse_accept` throws. -/
def acceptable (contentType : Bytes) : Option Bool :=
  match getHeader ctx (text "Accept") with
  | none => some true
  | some value =>
    match parseAccept value with
    | some (.ok views) => some (views.any fun e => typeIncludes value e.1 contentType)
    | _ => none

/-- The conditions of the request; `none` when the file is to be sent. -/
def precondition (contentType : Bytes) (path : Path) : Option Answer :=
  if acceptable ctx contentType = none then some .thrown
  else if acceptable ctx contentType = some false then some (.status .notAcceptable)
  else if (getHeader ctx (text "If-None-Match")).isSome then none
  else
    match getHeader ctx (text "If-Modified-Since") with
    | none => none
    | some since =>
      -- the overload of `last_write_time` that throws
      match fs.lastWriteTime path with
      | .error _ => some .thrown
      | .ok lastModified =>
        if (env.fromDateString since).any (lastModified ≤ ·) then some (.status .notModified) else none

/-- The encodings in a header value, with the texts of their weights; `none` when `parse_accept_encoding` throws. -/
def listedEncodings (value : Bytes) : Option (List (Bytes × Bytes)) :=
  match parseAcceptEncoding value with
  | some (.ok views) => some (views.map fun e => (fieldAt value e.1, (e.2.map (fieldAt value)).getD []))
  | _ => none

/-- The sorted encodings of the request, when compressed files are looked for. -/
def encodings : Option (List (Bytes × Bytes)) :=
  if cfg.compressEncodings = [] then some []
  else
    match getHeader ctx (text "Accept-Encoding") with
    | none => some []
    | some value => (listedEncodings value).map env.sort.run

def sendfile (ref : PathRef) (contentType : Bytes) (path : Path) : Answer :=
  match precondition env fs ctx contentType path with
  | some answer => answer
  | none =>
    match encodings env cfg ctx with
    | none => .thrown
    | some encs => tryVariants env fs cfg ctx ref contentType encs path

end StaticFileServer

open StaticFileServer

variable (env : Negotiation) (fs : FileTree) (cfg : StaticFileConfig) (ctx : HandleContext)

/-- `FileRouteHandler::operator()`; the content type was found when it was made. -/
def FileRouteHandler.call (contentType : Bytes) : Answer := sendfile env fs cfg ctx .cfgPath contentType cfg.path

namespace FolderRouteHandler

/-- `full_path` -/
def fullPath : Path := cfg.path.append (.ofNative (ctx.currentPath.drop 1))

/-- `FolderRouteHandler::operator()` -/
def call : Answer :=
  if ctx.currentPath = [] then .status .notFound
  else if ctx.request.method ≠ .get ∧ ctx.request.method ≠ .head then
    .sent (.ofText .methodNotAllowed (text "Supported methods: GET, HEAD")
      (SmallHeaderMap.empty.emplace (text "Allow") (text "GET, HEAD")))
  else sendfile env fs cfg ctx .copy (env.fromExtension (fullPath cfg ctx).extension) (fullPath cfg ctx)

/-- The paths `try_sendfile` is called on, in order, as long as it gives a status back. -/
def attempts : List Path :=
  if ctx.currentPath = [] then []
  else if ctx.request.method ≠ .get ∧ ctx.request.method ≠ .head then []
  else
    match precondition env fs ctx (env.fromExtension (fullPath cfg ctx).extension) (fullPath cfg ctx) with
    | some _ => []
    | none =>
      match encodings env cfg ctx with
      | none => []
      | some encs => variants env cfg encs (fullPath cfg ctx)

end FolderRouteHandler

namespace StaticFileServer

/-! ## §3 — inside the root. -/

/-- The location lies inside the canonical form of `cfg.path`. -/
def Inside (loc : List Name) : Prop :=
  ∃ root, fs.weaklyCanonical cfg.path = .ok root ∧ root.absolute = true ∧ root.names <+: loc

/-- A 200 carries the size, and the bytes, of a file whose location lies inside the root. -/
def Confined (answer : Answer) : Prop :=
  ∀ r, answer = .sent r → r.status = .ok → ∃ path loc, r.file = some path ∧
    (∀ hint, r.body = .file hint → hint.path = path) ∧ fs.resolve path = .ok loc ∧ Inside fs cfg loc

/-- **The way out.** The path is a directory below the root, asked for with a trailing slash, and its index leads
to a regular file outside. -/
def IndexEscapes (p : Path) : Prop :=
  ∃ path loc, fs.weaklyCanonical p = .ok path ∧ contained fs cfg path = true ∧ fs.status path = (.directory, none) ∧
    ctx.currentPath.getLast? = some 47 ∧ cfg.directoryIndex ≠ [] ∧
    fs.status (path.append (.ofNative cfg.directoryIndex)) = (.regular, none) ∧
    fs.resolve (path.append (.ofNative cfg.directoryIndex)) = .ok loc ∧ ¬ Inside fs cfg loc

/-- What `try_sendfile` has no response for: an error of the file system that does not mean absence, something
that is no regular file, or a directory without an index. -/
def Refused (p : Path) : Prop :=
  match fs.weaklyCanonical p with
  | .error _ => True
  | .ok path =>
    contained fs cfg path = true ∧
      match fs.status path with
      | (_, some e) => e.isNotFound = false
      | (.regular, none) => False
      | (.directory, none) =>
          ctx.currentPath.getLast? ≠ some 47 ∨ cfg.directoryIndex = [] ∨
            match fs.status (path.append (.ofNative cfg.directoryIndex)) with
            | (_, some e) => e ≠ .noSuchFileOrDirectory
            | (type, none) => type ≠ .regular
      | (_, none) => True

/-- Of the paths in order, the first that is not refused does not lead out. -/
def Safe : List Path → Prop
  | [] => True
  | p :: ps => ¬ IndexEscapes fs cfg ctx p ∧ (Refused fs cfg ctx p → Safe ps)

variable {env fs cfg ctx} {p path : Path} {contentType : Bytes}

/-- When `cfg.path` exists, inside means below its location. -/
theorem inside_iff {root loc : List Name} (hs : (fs.status cfg.path).2 = none) (hroot : fs.resolve cfg.path = .ok root) :
    Inside fs cfg loc ↔ root <+: loc := by
  have hw := FileTree.weaklyCanonical_of_status hs hroot
  have hnames : Path.names { absolute := true, elems := root } = root := by
    rw [Path.names, List.filter_eq_self]
    intro n hn
    simpa using (FileTree.resolve_plain hroot n hn).1
  constructor
  · rintro ⟨w, hw', -, hprefix⟩
    obtain rfl := Except.ok.inj (hw.symm.trans hw')
    rwa [hnames] at hprefix
  · intro hprefix
    exact ⟨_, hw, rfl, by rwa [hnames]⟩

theorem inside_of_contained {loc : List Name} (hc : contained fs cfg path = true) (hs : (fs.status path).2 = none)
    (hloc : fs.resolve path = .ok loc) : Inside fs cfg loc := by
  unfold contained at hc
  cases hr : fs.relative path cfg.path with
  | error e => simp [hr] at hc
  | ok rel =>
    rw [hr] at hc
    simp only [Bool.and_eq_true, Bool.not_eq_true', Bool.eq_false_iff, ne_eq, List.isPrefixOf_iff_prefix] at hc
    exact FileTree.inside_of_relative hs hloc hr (Bool.eq_false_iff.mpr hc.1) hc.2

/-- The reply carries the file at `path`. -/
structure Carries (path : Path) (r : Reply) : Prop where
  ok : r.status = .ok
  file : r.file = some path
  bytes : ∀ hint, r.body = .file hint → hint.path = path

theorem carries_ofFile (size mtime : Nat) : Carries path (ofFile env ctx path contentType size mtime) where
  ok := rfl
  file := rfl
  bytes hint hbody := by
    unfold ofFile at hbody
    by_cases hhead : ctx.request.method = .head
    · simp [hhead] at hbody
    · simp only [hhead, if_false, Body.file.injEq] at hbody
      rw [← hbody]

variable (env ctx contentType) in
theorem sendRegular_regular (hs : fs.status path = (.regular, none)) :
    ∃ r, sendRegular env fs ctx path .regular contentType = .sent r ∧ Carries path r := by
  obtain ⟨loc, size, mtime, -, hsize, htime⟩ := FileTree.regular_of_status hs
  refine ⟨ofFile env ctx path contentType size mtime, ?_, carries_ofFile size mtime⟩
  simp [sendRegular, hsize, htime]

/-- Anything else that is there is refused. -/
theorem sendRegular_other {type : FileType} (hs : fs.status path = (type, none)) (ht : type ≠ .regular) :
    sendRegular env fs ctx path type contentType = .status .internalServerError := by
  have hfound := (FileTree.type_of_status (t := fs) (p := path) (by rw [hs])).2
  rw [hs] at hfound
  simp only [sendRegular, ne_eq, ht, not_false_eq_true, if_true]
  exact if_neg hfound

variable (env contentType) in
/-- **What `try_sendfile` gives back as a status**, it has set no response for. -/
theorem trySendfile_of_refused (h : Refused fs cfg ctx p) :
    ∃ s, trySendfile env fs cfg ctx contentType p = .status s := by
  unfold Refused at h
  unfold trySendfile
  cases hw : fs.weaklyCanonical p with
  | error e => exact ⟨_, rfl⟩
  | ok path =>
    simp only [hw] at h
    obtain ⟨hc, h⟩ := h
    rcases hs : fs.status path with ⟨type, - | e⟩
    · by_cases hdir : type = .directory
      · subst hdir
        simp only [hs] at h
        by_cases hidx : ctx.currentPath.getLast? ≠ some 47 ∨ cfg.directoryIndex = []
        · exact ⟨.forbidden, by simp [hc, hs, hidx]⟩
        · rcases hi : fs.status (path.append (.ofNative cfg.directoryIndex)) with ⟨type', - | e'⟩
          · have htype : type' ≠ .regular := by simpa [hi, not_or.mp hidx] using h
            exact ⟨.internalServerError, by simp [hc, hs, hidx, hi, sendRegular_other hi htype]⟩
          · have he' : e' ≠ .noSuchFileOrDirectory := by simpa [hi, not_or.mp hidx] using h
            exact ⟨.internalServerError, by simp [hc, hs, hidx, hi, he']⟩
      · have htype : type ≠ .regular := by
          rintro rfl
          simp [hs] at h
        exact ⟨.internalServerError, by simp [hc, hs, hdir, sendRegular_other hs htype]⟩
    · have he : e ≠ .noSuchFileOrDirectory ∧ e ≠ .notADirectory := by
        simpa [hs, Errc.isNotFound] using h
      exact ⟨.internalServerError, by simp [hc, hs, he]⟩

/-- A response with an error text is no 200. -/
theorem ofText_not_ok {status : Status} {body : Bytes} {headers : SmallHeaderMap} {Q : Prop} (h : status ≠ .ok) :
    (Reply.ofText status body headers).status = .ok → Q := fun hok => absurd hok h

variable (env contentType) in
/-- **What it sets a response for**: an error text, a file inside the root, or the index that leads out. -/
theorem trySendfile_of_not_refused (h : ¬ Refused fs cfg ctx p) :
    ∃ r, trySendfile env fs cfg ctx contentType p = .sent r ∧ (r.status = .ok → ∃ path loc, Carries path r ∧
      fs.resolve path = .ok loc ∧ (Inside fs cfg loc ∨ IndexEscapes fs cfg ctx p)) := by
  unfold Refused at h
  unfold trySendfile
  cases hw : fs.weaklyCanonical p with
  | error e => simp [hw] at h
  | ok path =>
    simp only [hw] at h
    by_cases hc : contained fs cfg path = true
    · rcases hs : fs.status path with ⟨type, - | e⟩
      · by_cases hdir : type = .directory
        · subst hdir
          have hidx : ctx.currentPath.getLast? = some 47 ∧ cfg.directoryIndex ≠ [] := by
            by_contra hidx
            apply h
            simp only [hc, hs, true_and]
            tauto
          rcases hi : fs.status (path.append (.ofNative cfg.directoryIndex)) with ⟨type', - | e'⟩
          · obtain rfl : type' = .regular := by
              by_contra htype
              apply h
              simp [hc, hs, hi, htype]
            obtain ⟨r, hr, hcarries⟩ := sendRegular_regular env ctx contentType hi
            refine ⟨r, by simp [hc, hs, hidx, hi, hr], fun _ => ?_⟩
            obtain ⟨loc, hloc⟩ := FileTree.resolve_of_status (t := fs)
              (p := path.append (.ofNative cfg.directoryIndex)) (by rw [hi])
            refine ⟨_, loc, hcarries, hloc, ?_⟩
            by_cases hin : Inside fs cfg loc
            · exact .inl hin
            · exact .inr ⟨path, loc, hw, hc, hs, hidx.1, hidx.2, hi, hloc, hin⟩
          · obtain rfl : e' = .noSuchFileOrDirectory := by
              by_contra he'
              apply h
              simp [hc, hs, hi, he']
            exact ⟨_, by simp only [hc, hs, hidx, hi]; rfl, ofText_not_ok (by decide)⟩
        · obtain rfl : type = .regular := by
            by_contra htype
            apply h
            cases type <;> simp_all
          obtain ⟨r, hr, hcarries⟩ := sendRegular_regular env ctx contentType hs
          refine ⟨r, by simp [hc, hs, hr], fun _ => ?_⟩
          obtain ⟨loc, hloc⟩ := FileTree.resolve_of_status (t := fs) (p := path) (by rw [hs])
          exact ⟨path, loc, hcarries, hloc, .inl (inside_of_contained hc (by rw [hs]) hloc)⟩
      · have he : e = .noSuchFileOrDirectory ∨ e = .notADirectory := by
          by_contra he
          apply h
          simpa [hc, hs, Errc.isNotFound] using he
        rcases he with rfl | rfl
        · exact ⟨_, by simp only [hc, hs]; rfl, ofText_not_ok (by decide)⟩
        · exact ⟨_, by simp only [hc, hs]; rfl, ofText_not_ok (by decide)⟩
    · exact ⟨_, by simp only [Bool.eq_false_iff.mpr hc]; rfl, ofText_not_ok (by decide)⟩

variable (env contentType) in
/-- An index that leads out is sent. -/
theorem trySendfile_of_escapes (h : IndexEscapes fs cfg ctx p) :
    ∃ r path loc, trySendfile env fs cfg ctx contentType p = .sent r ∧ Carries path r ∧
      fs.resolve path = .ok loc ∧ ¬ Inside fs cfg loc := by
  obtain ⟨path, loc, hw, hc, hs, hslash, hindex, hi, hloc, hout⟩ := h
  obtain ⟨r, hr, hcarries⟩ := sendRegular_regular env ctx contentType hi
  refine ⟨r, _, loc, ?_, hcarries, hloc, hout⟩
  simp [trySendfile, hw, hc, hs, hslash, hindex, hi, hr]

theorem not_refused_of_escapes (h : IndexEscapes fs cfg ctx p) : ¬ Refused fs cfg ctx p := by
  obtain ⟨path, loc, hw, hc, hs, hslash, hindex, hi, -⟩ := h
  simp [Refused, hw, hc, hs, hslash, hindex, hi]

/-- `try_sendfile` on one path. -/
theorem trySendfile_confined_iff :
    Confined fs cfg (trySendfile env fs cfg ctx contentType p) ↔ ¬ IndexEscapes fs cfg ctx p := by
  constructor
  · intro hconf hesc
    obtain ⟨r, path, loc, hr, hcarries, hloc, hout⟩ := trySendfile_of_escapes env contentType hesc
    obtain ⟨path', loc', hfile, -, hloc', hin⟩ := hconf r hr hcarries.ok
    rw [hcarries.file, Option.some.injEq] at hfile
    subst hfile
    rw [hloc, Except.ok.injEq] at hloc'
    subst hloc'
    exact hout hin
  · intro hesc r hr hok
    by_cases href : Refused fs cfg ctx p
    · obtain ⟨s, hs⟩ := trySendfile_of_refused env contentType href
      rw [hs] at hr
      cases hr
    · obtain ⟨r', hr', h⟩ := trySendfile_of_not_refused env contentType href
      rw [hr', Answer.sent.injEq] at hr
      subst hr
      obtain ⟨path, loc, hcarries, hloc, hin⟩ := h hok
      exact ⟨path, loc, hcarries.file, hcarries.bytes, hloc, hin.resolve_right hesc⟩

/-- An answer without a response, or whose response changes only in its headers. -/
theorem confined_status (s : Status) : Confined fs cfg (.status s) := by
  intro r hr
  cases hr

theorem confined_thrown : Confined fs cfg .thrown := by
  intro r hr
  cases hr

theorem confined_headers {r : Reply} {headers : SmallHeaderMap} :
    Confined fs cfg (.sent { r with headers := headers }) ↔ Confined fs cfg (.sent r) := by
  constructor
  · intro h r' hr'
    obtain rfl := Answer.sent.inj hr'
    exact h { r with headers := headers } rfl
  · intro h r' hr'
    obtain rfl := Answer.sent.inj hr'
    exact h r rfl

/-- **The loop over the encodings**, the first path that is not refused decides. -/
theorem tryVariants_confined_iff (encs : List (Bytes × Bytes)) (p : Path) :
    Confined fs cfg (tryVariants env fs cfg ctx .copy contentType encs p) ↔ Safe fs cfg ctx (variants env cfg encs p) := by
  induction encs generalizing p with
  | nil => simpa [tryVariants, variants, Safe] using trySendfile_confined_iff
  | cons enc rest ih =>
    obtain ⟨encoding, weight⟩ := enc
    unfold tryVariants variants
    by_cases hskip : skips env rest.length weight = true
    · simpa only [hskip, if_true] using ih p
    · by_cases hconf : encoding ∉ cfg.compressEncodings
      · simpa only [hskip, hconf, Bool.false_eq_true, not_false_eq_true, if_false, if_true] using ih p
      · simp only [hskip, hconf, Bool.false_eq_true, if_false]
        cases hext : encodingToExtension.lookup encoding with
        | none => exact ih p
        | some ext =>
          have hone : Confined fs cfg (trySendfile env fs cfg ctx contentType (p.concat ext)) ↔
              ¬ IndexEscapes fs cfg ctx (p.concat ext) := trySendfile_confined_iff
          by_cases href : Refused fs cfg ctx (p.concat ext)
          · obtain ⟨s, hs⟩ := trySendfile_of_refused env contentType href
            have hesc : ¬ IndexEscapes fs cfg ctx (p.concat ext) := fun h => not_refused_of_escapes h href
            simpa [hs, Safe, hesc, href] using ih (p.concat ext).replaceExtension
          · obtain ⟨r, hr, -⟩ := trySendfile_of_not_refused env contentType href
            rw [hr] at hone
            simp only [StaticFileConfig.reference_copy, hr, Safe, href, false_imp_iff, and_true]
            exact confined_headers.trans hone

theorem precondition_not_sent {answer : Answer} (h : precondition env fs ctx contentType p = some answer) (r : Reply) :
    answer ≠ .sent r := by
  rintro rfl
  unfold precondition at h
  split_ifs at h
  · cases h
  · cases h
  · split at h
    · cases h
    · split at h
      · cases h
      · split_ifs at h
        cases h

end StaticFileServer

namespace FolderRouteHandler

/-- **Serving stays inside the root exactly when no index leads out.** For every request and every way the
requested path is tried; and for `try_sendfile` on every path. -/
theorem folder_confined_iff :
    (Confined fs cfg (call env fs cfg ctx) ↔ Safe fs cfg ctx (attempts env fs cfg ctx)) ∧
      ∀ contentType p, Confined fs cfg (trySendfile env fs cfg ctx contentType p) ↔ ¬ IndexEscapes fs cfg ctx p := by
  refine ⟨?_, fun _ _ => trySendfile_confined_iff⟩
  unfold call attempts
  split_ifs with hempty hmethod
  · exact iff_of_true (confined_status _) trivial
  · apply iff_of_true _ trivial
    intro r hr hok
    obtain rfl := Answer.sent.inj hr
    exact absurd hok (by decide)
  · unfold sendfile
    cases hpre : precondition env fs ctx (env.fromExtension (fullPath cfg ctx).extension) (fullPath cfg ctx) with
    | none =>
      simp only
      cases encodings env cfg ctx with
      | none => exact iff_of_true confined_thrown trivial
      | some encs => exact tryVariants_confined_iff encs _
    | some answer =>
      apply iff_of_true _ trivial
      intro r hr
      exact absurd hr (precondition_not_sent hpre r)

/-! ## §4 — a page that is a link. -/

/-- Not behind in the order of the sort. -/
def NotLighter (a b : Bytes × Bytes) : Prop := ¬ a.2 < b.2

instance : DecidableRel NotLighter := fun _ _ => inferInstanceAs (Decidable (¬ _))

instance : IsTrans (Bytes × Bytes) NotLighter where
  trans a b c hab hbc := by
    unfold NotLighter at *
    rw [List.not_lt] at *
    exact List.le_trans hbc hab

instance : Std.Total NotLighter where
  total a b := by
    unfold NotLighter
    rw [List.not_lt, List.not_lt]
    exact List.le_total _ _

/-- By insertion. -/
def insertionSort : WeightSort where
  run := List.insertionSort NotLighter
  perm l := List.perm_insertionSort _ l
  sorted l := List.pairwise_insertionSort NotLighter l

def octetStream : Negotiation where
  sort := insertionSort
  readsFloat _ := false
  zero _ := true
  fromDateString _ := none
  toDateString := decimal
  fromExtension _ := text "application/octet-stream"

/-- `/srv/www/index.html` is a link to `/etc/passwd`. -/
def linkedTree : FileTree where
  entry := fun loc => List.lookup loc [
    ([], .directory 0), ([text "srv"], .directory 0), ([text "srv", text "www"], .directory 0),
    ([text "srv", text "www", text "index.html"], .symlink (.ofNative (text "/etc/passwd"))),
    ([text "srv", text "www", text "notes"], .regular (text "notes") 0),
    ([text "etc"], .directory 0), ([text "etc", text "passwd"], .regular (text "root:x:0:0") 0)]
  searchable _ := true
  cwd := []
  cwd_plain := by simp

def wwwConfig : StaticFileConfig where
  path := .ofNative (text "/srv/www")

def getPath (current : String) : HandleContext where
  currentPath := text current
  request := { token := text "GET", path := ⟨[47], rfl⟩, headers := [] }
  response := none

/-- Neither `..` nor an absolute rest of the request path leads out. -/
example : (call octetStream linkedTree wwwConfig (getPath "/../../etc/passwd")).carried = none ∧
    (call octetStream linkedTree wwwConfig (getPath "//etc/passwd")).carried = none ∧
    (call octetStream linkedTree wwwConfig (getPath "/none/../notes")).carried =
      some (.ofNative (text "/srv/www/notes")) := by
  decide +kernel

/-- **A request for the root directory gets a file from outside it.** -/
theorem index_link_escapes :
    (∃ r, call octetStream linkedTree wwwConfig (getPath "/") = .sent r ∧ r.status = .ok ∧
      r.file = some (.ofNative (text "/srv/www/index.html")) ∧
      linkedTree.resolve (.ofNative (text "/srv/www/index.html")) = .ok [text "etc", text "passwd"] ∧
      linkedTree.resolve wwwConfig.path = .ok [text "srv", text "www"]) ∧
      ¬ Confined linkedTree wwwConfig (call octetStream linkedTree wwwConfig (getPath "/")) := by
  have hloc : linkedTree.resolve (.ofNative (text "/srv/www/index.html")) = .ok [text "etc", text "passwd"] := by
    decide +kernel
  have hroot : linkedTree.resolve wwwConfig.path = .ok [text "srv", text "www"] := by decide +kernel
  have hcarried : (call octetStream linkedTree wwwConfig (getPath "/")).carried =
      some (.ofNative (text "/srv/www/index.html")) := by
    decide +kernel
  obtain ⟨r, hr, hok, hfile⟩ := Answer.sent_of_carried hcarried
  refine ⟨⟨r, hr, hok, hfile, hloc, hroot⟩, fun hconf => ?_⟩
  obtain ⟨path, loc, hfile', -, hloc', hin⟩ := hconf r hr hok
  rw [hfile, Option.some.injEq] at hfile'
  subst hfile'
  rw [hloc, Except.ok.injEq] at hloc'
  subst hloc'
  have hprefix := (inside_iff (by decide +kernel) hroot).mp hin
  revert hprefix
  decide

end FolderRouteHandler

end NetCpp.Http
