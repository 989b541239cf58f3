/-
# NetCpp.Http.Negotiate — which precompressed variant `sendfile` picks.

`include/xsl/asio/http/component/static.h`.  What a client asks for is stated on the header value itself: a coding,
and a weight that is a decimal, or 1 when there is none.  The loop of `sendfile` goes through the entries of
`parse_accept_encoding` in the order of their weight TEXTS.  It goes on with the next entry when `from_chars` reads
the weight, where it means when it does not: an entry with a weight is never tried, and one without is tried
when an uninitialised `float` is not 0.

The first entry that is tried decides.  A variant that is not there is answered with an error page, and
`try_sendfile` returns the same for it as for a file.  `FolderRouteHandler` refuses a variant that is not below
its root; the root of `FileRouteHandler` is the variant itself.
-/
import NetCpp.Http.Static

namespace NetCpp.Http

open NetCpp.Lib StaticFileServer

/-! ## §1 — what the client asks for. -/

def IsDigits (s : Bytes) : Prop := ∀ b ∈ s, 48 ≤ b ∧ b ≤ 57

/-- The number the digits stand for. -/
def ofDigits (s : Bytes) : Nat := s.foldl (fun n b => 10 * n + (b.toNat - 48)) 0

/-- `q` is the decimal number `w`: digits, and digits behind a point. -/
def IsDecimal (q : Bytes) (w : ℚ) : Prop :=
  ∃ whole part, whole ≠ [] ∧ IsDigits whole ∧ IsDigits part ∧ (q = whole ∧ part = [] ∨ q = whole ++ 46 :: part) ∧
    w = (ofDigits (whole ++ part) : ℚ) / 10 ^ part.length

/-- An element of the list: a coding, alone or with a weight. -/
def IsEncoding (element coding : Bytes) (w : ℚ) : Prop :=
  ∃ front back, Blanks front ∧ Blanks back ∧
    (element = front ++ coding ++ back ∧ w = 1 ∨
      ∃ mid last q, Blanks mid ∧ Blanks last ∧ IsDecimal q w ∧
        element = front ++ coding ++ back ++ 59 :: (mid ++ text "q=" ++ q ++ last))

/-- The client lists the coding with the weight. -/
def Listed (ctx : HandleContext) (coding : Bytes) (w : ℚ) : Prop :=
  ∃ value, getHeader ctx (text "Accept-Encoding") = some value ∧ ∃ element ∈ value.splitOn 44, IsEncoding element coding w

section Server

variable (env : Negotiation) (fs : FileTree) (cfg : StaticFileConfig) (ctx : HandleContext)

/-- There is a regular file at `q`. -/
def Present (q : Path) : Prop := ∃ path, fs.weaklyCanonical q = .ok path ∧ fs.status path = (.regular, none)

/-- There is nothing at `q`. -/
def Absent (q : Path) : Prop :=
  ∃ path, fs.weaklyCanonical q = .ok path ∧ (fs.status path).2 = some .noSuchFileOrDirectory

/-- `q` is below the root. -/
def Below (q : Path) : Prop := ∃ path, fs.weaklyCanonical q = .ok path ∧ contained fs cfg path = true

/-- **The file system is a set of regular files**: the file that is asked for is there, and every variant of it is
there or is not. -/
structure FixedFiles (p : Path) : Prop where
  present : Present fs p
  variants : ∀ e ∈ encodingToExtension, Present fs (p.concat e.2) ∨ Absent fs (p.concat e.2)

/-- The coding may be used: listed with a weight other than 0, configured, with a variant that exists. -/
structure Eligible (p : Path) (coding : Bytes) (w : ℚ) : Prop where
  listed : Listed ctx coding w
  weight : w ≠ 0
  configured : coding ∈ cfg.compressEncodings
  present : ∃ ext, encodingToExtension.lookup coding = some ext ∧ Present fs (p.concat ext)

/-- No other has a greater weight. -/
def Best (p : Path) (coding : Bytes) : Prop :=
  ∃ w, Eligible fs cfg ctx p coding w ∧ ∀ coding' w', Eligible fs cfg ctx p coding' w' → w' ≤ w

/-- The answer is a 200 with the file at `q`, and names the coding or none. -/
def Serves (q : Path) (coding : Option Bytes) (answer : Answer) : Prop :=
  ∃ r path size, answer = .sent r ∧ fs.weaklyCanonical q = .ok path ∧ fs.status path = (.regular, none) ∧
    fs.fileSize path = .ok size ∧ r.status = .ok ∧
    r.body = (if ctx.request.method = .head then .none else .file ⟨path, 0, size⟩) ∧
    r.headers.entries.lookup (text "Content-Encoding") = coding

/-- **The right variant**: that of a best coding, or the plain file when there is none. -/
def PicksBest (p : Path) (answer : Answer) : Prop :=
  (∃ coding ext, Best fs cfg ctx p coding ∧ encodingToExtension.lookup coding = some ext ∧
      Serves fs ctx (p.concat ext) (some coding) answer) ∨
    (∀ coding w, ¬ Eligible fs cfg ctx p coding w) ∧ Serves fs ctx p none answer

/-! ## §2 — what the loop tries. -/

/-- When the loop is right: of the entries in order, the first that is neither skipped nor unknown is one of a best
coding, with its variant below the root; when there is none, no coding is eligible and the file is below the root. -/
def TriesBest (ref : PathRef) (p : Path) : List (Bytes × Bytes) → Prop
  | [] => Below fs (cfg.reference ref p) p ∧ ∀ coding w, ¬ Eligible fs cfg ctx p coding w
  | (encoding, weight) :: rest =>
    if skips env rest.length weight || !cfg.compressEncodings.contains encoding then TriesBest ref p rest
    else
      (encodingToExtension.lookup encoding).elim (TriesBest ref p rest) fun ext =>
        Below fs (cfg.reference ref (p.concat ext)) (p.concat ext) ∧ Best fs cfg ctx p encoding

variable {env fs cfg ctx} {p q : Path} {contentType : Bytes} {ref : PathRef}

/-! ## §3 — one call of `try_sendfile`. -/

/-- The headers of a file, before a coding is named. -/
theorem lookup_ofFile (path : Path) (size mtime : Nat) :
    (ofFile env ctx path contentType size mtime).headers.entries.lookup (text "Content-Encoding") = none := by
  have hlen : SmallHeaderMap.empty.entries.lookup (text "Content-Length") = none := rfl
  have hmod : (SmallHeaderMap.empty.emplace (text "Content-Length") (decimal size)).entries.lookup
      (text "Last-Modified") = none := by
    rw [SmallHeaderMap.lookup_emplace hlen, if_neg (by decide)]
    rfl
  have htype : ((SmallHeaderMap.empty.emplace (text "Content-Length") (decimal size)).emplace
      (text "Last-Modified") (env.toDateString mtime)).entries.lookup (text "Content-Type") = none := by
    rw [SmallHeaderMap.lookup_emplace hmod, if_neg (by decide), SmallHeaderMap.lookup_emplace hlen,
      if_neg (by decide)]
    rfl
  rw [ofFile]
  simp only
  rw [SmallHeaderMap.lookup_emplace htype, if_neg (by decide), SmallHeaderMap.lookup_emplace hmod,
    if_neg (by decide), SmallHeaderMap.lookup_emplace hlen, if_neg (by decide)]
  rfl

variable (env ctx contentType) in
/-- A regular file below the root is sent, without a coding. -/
theorem serves_of_present (hp : Present fs q) (hb : Below fs cfg q) :
    Serves fs ctx q none (trySendfile env fs cfg ctx contentType q) := by
  obtain ⟨path, hw, hs⟩ := hp
  obtain ⟨path', hw', hc⟩ := hb
  obtain rfl : path = path' := Except.ok.inj (hw.symm.trans hw')
  obtain ⟨loc, size, mtime, -, hsize, htime⟩ := FileTree.regular_of_status hs
  refine ⟨ofFile env ctx path contentType size mtime, path, size, ?_, hw, hs, hsize, rfl, rfl, lookup_ofFile path size mtime⟩
  simp [trySendfile, hw, hc, hs, sendRegular, hsize, htime]

variable (env ctx contentType) in
/-- For a path that is not below the root, or not there, an error page is set up. -/
theorem page_of_not_served (hq : Present fs q ∨ Absent fs q) (hno : ¬ (Present fs q ∧ Below fs cfg q)) :
    ∃ r, trySendfile env fs cfg ctx contentType q = .sent r ∧ r.status ≠ .ok := by
  have hpath : ∃ path, fs.weaklyCanonical q = .ok path ∧
      ((fs.status path).2 = some .noSuchFileOrDirectory ∨ fs.status path = (.regular, none)) := by
    rcases hq with ⟨path, hw, hs⟩ | ⟨path, hw, hs⟩
    · exact ⟨path, hw, Or.inr hs⟩
    · exact ⟨path, hw, Or.inl hs⟩
  obtain ⟨path, hw, hs⟩ := hpath
  by_cases hc : contained fs cfg path = true
  · rcases hs with hs | hs
    · -- absent below the root
      refine ⟨.ofText .notFound (text "File not found"), ?_, by decide⟩
      simp [trySendfile, hw, hc, hs]
    · exact absurd ⟨⟨path, hw, hs⟩, path, hw, hc⟩ hno
  · refine ⟨.ofText .forbidden (text "Path is not allowed"), ?_, by decide⟩
    simp [trySendfile, hw, hc]

/-- A call for a variant that is there or not sets up a response. -/
theorem sent_of_variant (env : Negotiation) (cfg : StaticFileConfig) (ctx : HandleContext) (contentType : Bytes)
    (hq : Present fs q ∨ Absent fs q) : ∃ r, trySendfile env fs cfg ctx contentType q = .sent r := by
  by_cases hserved : Present fs q ∧ Below fs cfg q
  · obtain ⟨r, -, -, hr, -⟩ := serves_of_present env ctx contentType hserved.1 hserved.2
    exact ⟨r, hr⟩
  · obtain ⟨r, hr, -⟩ := page_of_not_served env ctx contentType hq hserved
    exact ⟨r, hr⟩

/-! ## §4 — the loop. -/

/-- The response with the coding named in it. -/
def named (coding : Bytes) (r : Reply) : Reply :=
  { r with headers := r.headers.emplace (text "Content-Encoding") coding }

/-- Naming a coding leaves the rest of a response as it was. -/
theorem serves_named (coding : Bytes) {r : Reply} (h : Serves fs ctx q none (.sent r)) :
    Serves fs ctx q (some coding) (.sent (named coding r)) := by
  obtain ⟨r', path, size, hr, hw, hs, hsize, hok, hbody, hlookup⟩ := h
  obtain rfl := Answer.sent.inj hr
  refine ⟨named coding r, path, size, rfl, hw, hs, hsize, hok, hbody, ?_⟩
  rw [named, SmallHeaderMap.lookup_emplace hlookup, if_pos rfl]

/-- An answer is with one coding, or with none. -/
theorem Serves.coding_unique {answer : Answer} {q' : Path} {coding coding' : Option Bytes}
    (h : Serves fs ctx q coding answer) (h' : Serves fs ctx q' coding' answer) : coding = coding' := by
  obtain ⟨r, -, -, rfl, -, -, -, -, -, hc⟩ := h
  obtain ⟨r', -, -, hr, -, -, -, -, -, hc'⟩ := h'
  obtain rfl := Answer.sent.inj hr
  exact hc.symm.trans hc'

/-- A page is no 200 with a file, with or without a coding. -/
theorem not_serves_page {r : Reply} (hr : r.status ≠ .ok) {coding : Option Bytes} :
    ¬ Serves fs ctx q coding (.sent r) := by
  rintro ⟨r', -, -, he, -, -, -, hok, -⟩
  obtain rfl := Answer.sent.inj he
  exact hr hok

theorem not_picksBest_page {r : Reply} (hr : r.status ≠ .ok) : ¬ PicksBest fs cfg ctx p (.sent r) := by
  rintro (⟨coding, ext, -, -, h⟩ | ⟨-, h⟩)
  · exact not_serves_page hr h
  · exact not_serves_page hr h

/-- **Without a variant** the answer is right exactly when the file may be sent and no coding is eligible. -/
theorem picksBest_plain_iff (hp : Present fs p) :
    PicksBest fs cfg ctx p (trySendfile env fs (cfg.reference ref p) ctx contentType p) ↔
      Below fs (cfg.reference ref p) p ∧ ∀ coding w, ¬ Eligible fs cfg ctx p coding w := by
  by_cases hb : Below fs (cfg.reference ref p) p
  · have hserves := serves_of_present env ctx contentType hp hb
    constructor
    · rintro (⟨coding, ext, -, -, h⟩ | ⟨hno, -⟩)
      · cases hserves.coding_unique h
      · exact ⟨hb, hno⟩
    · rintro ⟨-, hno⟩
      exact Or.inr ⟨hno, hserves⟩
  · obtain ⟨r, hr, hstatus⟩ := page_of_not_served env ctx contentType (Or.inl hp) fun h => hb h.2
    rw [hr]
    exact iff_of_false (not_picksBest_page hstatus) fun h => hb h.1

/-- **With the response for a variant**, a page too, it is right exactly when the variant is below the root and its
coding a best one. -/
theorem picksBest_named_iff (hfix : FixedFiles fs p) {coding ext : Bytes}
    (hext : encodingToExtension.lookup coding = some ext) {r : Reply}
    (hr : trySendfile env fs (cfg.reference ref (p.concat ext)) ctx contentType (p.concat ext) = .sent r) :
    PicksBest fs cfg ctx p (.sent (named coding r)) ↔
      Below fs (cfg.reference ref (p.concat ext)) (p.concat ext) ∧ Best fs cfg ctx p coding := by
  by_cases hserved : Present fs (p.concat ext) ∧ Below fs (cfg.reference ref (p.concat ext)) (p.concat ext)
  · have hserves := serves_of_present env ctx contentType hserved.1 hserved.2
    rw [hr] at hserves
    have hnamed := serves_named coding hserves
    constructor
    · rintro (⟨coding', ext', hbest, -, h⟩ | ⟨-, h⟩)
      · obtain rfl : coding = coding' := Option.some.inj (hnamed.coding_unique h)
        exact ⟨hserved.2, hbest⟩
      · -- the plain file names no coding
        cases hnamed.coding_unique h
    · rintro ⟨-, hbest⟩
      exact Or.inl ⟨coding, ext, hbest, hext, hnamed⟩
  · -- a page is set up, and counts as success
    have hv := hfix.variants (coding, ext) (mem_of_lookup hext)
    obtain ⟨r', hr', hstatus⟩ := page_of_not_served env ctx contentType hv hserved
    obtain rfl := Answer.sent.inj (hr.symm.trans hr')
    have hpage : (named coding r).status ≠ .ok := hstatus
    apply iff_of_false (not_picksBest_page hpage)
    rintro ⟨hbelow, w, helig, -⟩
    obtain ⟨ext', hext', hpresent⟩ := helig.present
    obtain rfl : ext = ext' := Option.some.inj (hext.symm.trans hext')
    exact hserved ⟨hpresent, hbelow⟩

/-- **The loop.** The first entry that is tried decides. -/
theorem picksBest_tryVariants_iff (hfix : FixedFiles fs p) (encs : List (Bytes × Bytes)) :
    PicksBest fs cfg ctx p (tryVariants env fs cfg ctx ref contentType encs p) ↔
      TriesBest env fs cfg ctx ref p encs := by
  induction encs with
  | nil => exact picksBest_plain_iff hfix.present
  | cons enc rest ih =>
    obtain ⟨encoding, weight⟩ := enc
    rw [tryVariants, TriesBest]
    by_cases hskip : skips env rest.length weight = true
    · rw [if_pos hskip, hskip, Bool.true_or, if_pos rfl]
      exact ih
    · rw [if_neg hskip, Bool.eq_false_iff.mpr hskip, Bool.false_or]
      by_cases hconf : encoding ∈ cfg.compressEncodings
      · rw [if_neg (not_not.mpr hconf), List.contains_iff_mem.mpr hconf, Bool.not_true, if_neg Bool.false_ne_true]
        cases hext : encodingToExtension.lookup encoding with
        | none => exact ih
        | some ext =>
          -- whatever is set up for the variant ends the loop
          have hv := hfix.variants (encoding, ext) (mem_of_lookup hext)
          obtain ⟨r, hr⟩ := sent_of_variant env (cfg.reference ref (p.concat ext)) ctx contentType hv
          simp only [hr]
          exact picksBest_named_iff hfix hext hr
      · have hcontains : cfg.compressEncodings.contains encoding = false := by
          rw [← Bool.not_eq_true, List.contains_iff_mem]
          exact hconf
        rw [if_pos hconf, hcontains, Bool.not_false, if_pos rfl]
        exact ih

/-- What is no response is not right. -/
theorem not_picksBest_of_not_sent {answer : Answer} (h : ∀ r, answer ≠ .sent r) : ¬ PicksBest fs cfg ctx p answer := by
  rintro (⟨-, -, -, -, r, -, -, hr, -⟩ | ⟨-, r, -, -, hr, -⟩)
  · exact h r hr
  · exact h r hr

/-- **The right variant is picked** exactly when the file is to be sent, the header value is read, and the first
entry that is tried is one of a best coding with its variant below the root, or none is tried, none is eligible, and
the file is below the root; for the path of either handler. -/
theorem sendfile_picksBest_iff (env : Negotiation) (fs : FileTree) (cfg : StaticFileConfig) (ctx : HandleContext)
    (ref : PathRef) (contentType : Bytes) (p : Path) (hfix : FixedFiles fs p) :
    PicksBest fs cfg ctx p (sendfile env fs cfg ctx ref contentType p) ↔
      precondition env fs ctx contentType p = none ∧
        ∃ encs, encodings env cfg ctx = some encs ∧ TriesBest env fs cfg ctx ref p encs := by
  rw [sendfile]
  cases hpre : precondition env fs ctx contentType p with
  | some answer => simpa using not_picksBest_of_not_sent (precondition_not_sent hpre)
  | none =>
    simp only [true_and]
    cases hencs : encodings env cfg ctx with
    | none =>
      simp only [reduceCtorEq, false_and, exists_false, iff_false]
      exact not_picksBest_of_not_sent fun r hr => by cases hr
    | some encs =>
      simp only [Option.some.injEq, exists_eq_left']
      exact picksBest_tryVariants_iff hfix encs

end Server

/-! ## §5 — one variant. -/

/-- A `from_chars` that reads what starts with a digit, with `zero` for every `float`. -/
def digitsOnly (zero : Bool) : Negotiation :=
  { FolderRouteHandler.octetStream with
    readsFloat := fun s => s.head?.any fun b => 48 ≤ b && b ≤ 57
    zero := fun _ => zero }

/-- `notes` has a compressed variant, `plain` has none. -/
def gzTree : FileTree :=
  { FolderRouteHandler.linkedTree with
    entry := fun loc => List.lookup loc [
      ([], .directory 0), ([text "srv"], .directory 0), ([text "srv", text "www"], .directory 0),
      ([text "srv", text "www", text "notes"], .regular (text "notes") 0),
      ([text "srv", text "www", text "notes.gz"], .regular (text "n") 0),
      ([text "srv", text "www", text "plain"], .regular (text "plain") 0)] }

def gzipConfig : StaticFileConfig where
  path := .ofNative (text "/srv/www")
  compressEncodings := [text "gzip"]

def getEncoded (current accepted : String) : HandleContext :=
  { FolderRouteHandler.getPath current with
    request := { (FolderRouteHandler.getPath current).request with
      headers := [(text "Accept-Encoding", text accepted)] } }

def notes : Path := .ofNative (text "/srv/www/notes")

def plain : Path := .ofNative (text "/srv/www/plain")

/-- The type of every file of `octetStream`. -/
def octets : Bytes := text "application/octet-stream"

/-- The variants that are not there. -/
theorem absent_variants :
    (gzTree.weaklyCanonical (notes.concat (text ".br")) = .ok (.ofNative (text "/srv/www/notes.br")) ∧
      (gzTree.status (.ofNative (text "/srv/www/notes.br"))).2 = some .noSuchFileOrDirectory) ∧
    (gzTree.weaklyCanonical (notes.concat (text ".deflate")) = .ok (.ofNative (text "/srv/www/notes.deflate")) ∧
      (gzTree.status (.ofNative (text "/srv/www/notes.deflate"))).2 = some .noSuchFileOrDirectory) ∧
    gzTree.weaklyCanonical (plain.concat (text ".gz")) = .ok (.ofNative (text "/srv/www/plain.gz")) ∧
      (gzTree.status (.ofNative (text "/srv/www/plain.gz"))).2 = some .noSuchFileOrDirectory ∧
      contained gzTree gzipConfig (.ofNative (text "/srv/www/plain.gz")) = true := by
  decide +kernel

theorem fixedFiles_notes : FixedFiles gzTree notes where
  present := ⟨notes, rfl, rfl⟩
  variants e he := by
    simp only [encodingToExtension, List.mem_cons, List.not_mem_nil, or_false] at he
    rcases he with rfl | rfl | rfl
    · exact Or.inr ⟨_, absent_variants.1⟩
    · exact Or.inl ⟨.ofNative (text "/srv/www/notes.gz"), rfl, rfl⟩
    · exact Or.inr ⟨_, absent_variants.2.1⟩

/-- Without a weight there is no `float` to be read. -/
theorem skips_without_weight (n : Nat) : skips (digitsOnly false) n [] = false := rfl

theorem gzip_configured : text "gzip" ∈ gzipConfig.compressEncodings := List.mem_singleton.mpr rfl

theorem gzip_extension : encodingToExtension.lookup (text "gzip") = some (text ".gz") := rfl

/-- `gzip` may be used for `notes` when the client lists it. -/
theorem eligible_notes {accepted : String} {w : ℚ} (hw : w ≠ 0)
    (hlisted : Listed (getEncoded "/notes" accepted) (text "gzip") w) :
    Eligible gzTree gzipConfig (getEncoded "/notes" accepted) notes (text "gzip") w where
  listed := hlisted
  weight := hw
  configured := gzip_configured
  present := ⟨text ".gz", gzip_extension, .ofNative (text "/srv/www/notes.gz"), rfl, rfl⟩

/-- A coding alone is listed with 1. -/
theorem listed_gzip : Listed (getEncoded "/notes" "gzip") (text "gzip") 1 := by
  refine ⟨text "gzip", rfl, text "gzip", by decide, [], [], by decide, by decide, Or.inl ⟨?_, rfl⟩⟩
  simp

/-- `1.0` is 1. -/
theorem isDecimal_one : IsDecimal (text "1.0") 1 := by
  refine ⟨text "1", text "0", by decide, ?_, ?_, Or.inr rfl, ?_⟩
  · exact List.forall_mem_singleton.mpr (by decide)
  · exact List.forall_mem_singleton.mpr (by decide)
  · have hdigits : ofDigits (text "1" ++ text "0") = 10 := by decide
    have hlen : (text "0").length = 1 := by decide
    rw [hdigits, hlen]
    norm_num

theorem listed_weighted : Listed (getEncoded "/notes" "gzip;q=1.0") (text "gzip") 1 := by
  refine ⟨text "gzip;q=1.0", rfl, text "gzip;q=1.0", by decide, [], [], by decide, by decide, Or.inr ?_⟩
  exact ⟨[], [], text "1.0", by decide, by decide, isDecimal_one, rfl⟩

/-- The only coding of the value has no weight. -/
theorem weight_of_gzip {coding : Bytes} {w : ℚ} (h : Listed (getEncoded "/notes" "gzip") coding w) : w = 1 := by
  obtain ⟨value, hvalue, element, helem, front, back, -, -, h⟩ := h
  obtain rfl : text "gzip" = value := Option.some.inj hvalue
  have hsplit : (text "gzip").splitOn 44 = [text "gzip"] := rfl
  rw [hsplit, List.mem_singleton] at helem
  rcases h with ⟨-, hw⟩ | ⟨mid, last, q, -, -, -, helem'⟩
  · exact hw
  · have hmem : (59 : UInt8) ∈ text "gzip" := by
      rw [← helem, helem']
      simp
    exact absurd hmem (by decide)

theorem precondition_encoded {env : Negotiation} {current accepted : String} {p : Path} :
    precondition env gzTree (getEncoded current accepted) octets p = none := rfl

/-- The file itself is configured. -/
def notesConfig : StaticFileConfig := { gzipConfig with path := notes }

theorem best_notes {cfg : StaticFileConfig} (hcfg : cfg.compressEncodings = gzipConfig.compressEncodings) :
    Best gzTree cfg (getEncoded "/notes" "gzip") notes (text "gzip") := by
  refine ⟨1, ⟨listed_gzip, one_ne_zero, hcfg ▸ gzip_configured, ⟨text ".gz", gzip_extension, ?_⟩⟩, ?_⟩
  · exact ⟨.ofNative (text "/srv/www/notes.gz"), rfl, rfl⟩
  · intro coding w h
    exact (weight_of_gzip h.listed).le

/-- A coding without a weight is tried, and its variant sent; of the file itself, too. -/
theorem sendfile_picksBest_notes :
    PicksBest gzTree gzipConfig (getEncoded "/notes" "gzip") notes
        (sendfile (digitsOnly false) gzTree gzipConfig (getEncoded "/notes" "gzip") .copy octets notes) ∧
      PicksBest gzTree notesConfig (getEncoded "/notes" "gzip") notes
        (FileRouteHandler.call (digitsOnly false) gzTree notesConfig (getEncoded "/notes" "gzip") octets) := by
  have hcontains := List.contains_iff_mem.mpr gzip_configured
  have hcontains' : notesConfig.compressEncodings.contains (text "gzip") = true := hcontains
  refine ⟨?_, ?_⟩
  · apply (sendfile_picksBest_iff (digitsOnly false) gzTree gzipConfig (getEncoded "/notes" "gzip") .copy octets notes
      fixedFiles_notes).mpr
    refine ⟨precondition_encoded, [(text "gzip", [])], rfl, ?_⟩
    simp only [TriesBest, skips_without_weight, hcontains, Bool.not_true, Bool.or_self, Bool.false_eq_true, if_false,
      gzip_extension]
    exact ⟨⟨.ofNative (text "/srv/www/notes.gz"), rfl, rfl⟩, best_notes rfl⟩
  · apply (sendfile_picksBest_iff (digitsOnly false) gzTree notesConfig (getEncoded "/notes" "gzip") .cfgPath octets notes
      fixedFiles_notes).mpr
    refine ⟨precondition_encoded, [(text "gzip", [])], rfl, ?_⟩
    simp only [TriesBest, skips_without_weight, hcontains', Bool.not_true, Bool.or_self, Bool.false_eq_true, if_false,
      gzip_extension]
    exact ⟨⟨.ofNative (text "/srv/www/notes.gz"), rfl, rfl⟩, best_notes rfl⟩

/-- **A coding with a weight is skipped**, and the page for a variant that is not there is sent as the variant. -/
theorem weighted_skipped_and_page_sent :
    (Eligible gzTree gzipConfig (getEncoded "/notes" "gzip;q=1.0") notes (text "gzip") 1 ∧
      Serves gzTree (getEncoded "/notes" "gzip;q=1.0") notes none
        (sendfile (digitsOnly false) gzTree gzipConfig (getEncoded "/notes" "gzip;q=1.0") .copy octets notes) ∧
      ¬ PicksBest gzTree gzipConfig (getEncoded "/notes" "gzip;q=1.0") notes
        (sendfile (digitsOnly false) gzTree gzipConfig (getEncoded "/notes" "gzip;q=1.0") .copy octets notes)) ∧
    ∃ r, sendfile (digitsOnly false) gzTree gzipConfig (getEncoded "/plain" "gzip") .copy octets plain = .sent r ∧
      r.status = .notFound ∧ r.headers.entries.lookup (text "Content-Encoding") = some (text "gzip") ∧
      ¬ PicksBest gzTree gzipConfig (getEncoded "/plain" "gzip") plain (.sent r) := by
  have helig := eligible_notes one_ne_zero listed_weighted
  have hencs : encodings (digitsOnly false) gzipConfig (getEncoded "/notes" "gzip;q=1.0") =
      some [(text "gzip", text "1.0")] := rfl
  have hplain : sendfile (digitsOnly false) gzTree gzipConfig (getEncoded "/notes" "gzip;q=1.0") .copy octets notes =
      trySendfile (digitsOnly false) gzTree gzipConfig (getEncoded "/notes" "gzip;q=1.0") octets notes := by
    have hskip : skips (digitsOnly false) ([] : List (Bytes × Bytes)).length (text "1.0") = true := rfl
    rw [sendfile, precondition_encoded]
    simp only [hencs, tryVariants, hskip, if_true, StaticFileConfig.reference_copy]
  rw [hplain]
  refine ⟨⟨helig, ?_, ?_⟩, ?_⟩
  · exact serves_of_present _ _ _ fixedFiles_notes.present ⟨notes, rfl, rfl⟩
  · intro hpicks
    rw [← StaticFileConfig.reference_copy gzipConfig notes] at hpicks
    have hno := ((picksBest_plain_iff fixedFiles_notes.present).mp hpicks).2
    exact hno _ _ helig
  · have hencs' : encodings (digitsOnly false) gzipConfig (getEncoded "/plain" "gzip") = some [(text "gzip", [])] := rfl
    obtain ⟨hpath, habsent, hbelow⟩ := absent_variants.2.2
    have hpage : sendfile (digitsOnly false) gzTree gzipConfig (getEncoded "/plain" "gzip") .copy octets plain =
        .sent (named (text "gzip") (.ofText .notFound (text "File not found"))) := by
      rw [sendfile, precondition_encoded]
      simp only [hencs', tryVariants, skips_without_weight, Bool.false_eq_true, if_false, gzip_configured, not_true,
        gzip_extension, StaticFileConfig.reference_copy, trySendfile, hpath, hbelow, Bool.true_eq_false, habsent, if_true]
      rfl
    refine ⟨_, hpage, rfl, rfl, ?_⟩
    have hstatus : (named (text "gzip") (.ofText .notFound (text "File not found"))).status ≠ .ok := by decide
    exact not_picksBest_page hstatus

end NetCpp.Http
