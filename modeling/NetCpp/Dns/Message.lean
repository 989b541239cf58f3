/-
# NetCpp.Dns.Message — a whole message, written and read back.

`include/xsl/net/dns/proto`.  A message is its header, the questions and the records of the three sections, as their
counts in the header say.  Each of the parts behind the header is a name and a body: the name goes through the one
`DnCompressor` of the message, the body is written behind it by `Question::serialize` or `RRSerializer`.  A reader takes
the header, and then with one `DnDecompressor`, whose buffer goes from name to name, each name and the body behind it.

What is written between two names does not disturb the table of the names before (`SessionInv.grow`), so the pointers of
`NetCpp.Dns.RoundTrip` hold in a message as they do among names alone, and under the same condition.
-/
import NetCpp.Dns.Calls
import NetCpp.Dns.RoundTrip
import NetCpp.Dns.Overloads
import NetCpp.Dns.Header
import NetCpp.Dns.Rr

namespace NetCpp.Dns

open NetCpp.Lib

/-! ## §1 — questions. -/

/-- `Question` -/
structure Question where
  type : RrType
  class_ : RrClass
  deriving DecidableEq, Repr

namespace Question

/-- `SIZE` -/
def size : Nat := 4

/-- `serialize(std::span<byte> &)` -/
def serialize (q : Question) (mem : Bytes) (pos : Nat) : Except Fault (Bytes × Nat) :=
  (q.type.serialized mem pos).bind fun (mem, pos) => q.class_.serialized mem pos

/-- `deserialize`: the question and its size. -/
def deserialize (mem : Bytes) (pos : Nat) : Except Fault (Question × Nat) :=
  (codeFromBytes mem pos).bind fun type =>
    (codeFromBytes mem (pos + 2)).map fun class_ => (⟨⟨type⟩, ⟨class_⟩⟩, 4)

/-- The question as it stands in memory. -/
def wire (q : Question) : Bytes := beImage 2 q.type.code ++ beImage 2 q.class_.code

variable (q : Question)

@[simp] theorem length_wire : q.wire.length = size := by
  simp [wire, size]

theorem serialize_eq (pre post : Bytes) {old : Bytes} (hold : old.length = size) :
    q.serialize (pre ++ old ++ post) pre.length = .ok (pre ++ q.wire ++ post, pre.length + size) := by
  have htype := serialized_next pre post old [] (beImage 2 q.type.code) (by simp [hold, size])
  have hclass := serialized_next pre post old ([] ++ beImage 2 q.type.code) (beImage 2 q.class_.code)
    (by simp [hold, size])
  rw [List.append_nil, List.length_nil, List.drop_zero] at htype
  have hdrop : old.drop ([] ++ beImage 2 q.type.code ++ beImage 2 q.class_.code).length = [] := by
    apply List.drop_of_length_le
    simp [hold, size]
  rw [hdrop] at hclass
  simp only [serialize, RrType.serialized, RrClass.serialized, image_htons, htype, Except.bind, hclass]
  simp [wire, size]

theorem deserialize_wire (pre post : Bytes) : deserialize (pre ++ (q.wire ++ post)) pre.length = .ok (q, 4) := by
  have htype := deserialize_between pre (beImage 2 q.class_.code ++ post) (length_beImage 2 q.type.code)
  have hclass := deserialize_between (pre ++ beImage 2 q.type.code) post (length_beImage 2 q.class_.code)
  rw [List.length_append, length_beImage] at hclass
  simp only [wire, List.append_assoc] at hclass ⊢
  simp only [deserialize, codeFromBytes, htype, hclass, Except.map, Except.bind, htons_value_beImage]

end Question

/-! ## §2 — parts. -/

/-- What stands behind a name. -/
inductive Body
  | question (q : Question)
  | record (r : Record)

namespace Body

def size : Body → Nat
  | question _ => Question.size
  | record r => rrHeaderSize + r.rdata.length

def serialize : Body → Bytes → Nat → Except Fault (Bytes × Nat)
  | question q => q.serialize
  | record r => r.serialize

def wire : Body → Bytes
  | question q => q.wire
  | record r => r.wire

/-- The data of a record is not longer than its length can say. -/
def Fits : Body → Prop
  | question _ => True
  | record r => r.rdata.length < 2 ^ 16

/-- The body is read off the span that begins at `pos`, and the span then begins at `next`. -/
def ReadAt (msg : Bytes) (pos : Nat) : Body → (next : Nat) → Prop
  | question q, next => ∃ n, Question.deserialize msg pos = .ok (q, n) ∧ next = pos + n ∧ next ≤ msg.length
  | record r, next => ∃ rr, RR.fromBytes (msg.drop pos) = .ok (rr, msg.drop next) ∧ Shows rr r ∧ next ≤ msg.length

theorem length_wire (b : Body) : b.wire.length = b.size := by
  cases b with
  | question q => exact q.length_wire
  | record r => exact r.length_wire

theorem serialize_eq (b : Body) (pre : Bytes) {old : Bytes} (hold : old.length = b.size) :
    b.serialize (pre ++ old) pre.length = .ok (pre ++ b.wire, pre.length + b.size) := by
  cases b with
  | question q =>
      have h := q.serialize_eq pre [] hold
      rw [List.append_nil, List.append_nil] at h
      exact h
  | record r =>
      have h := r.serialize_eq pre [] (hold.trans r.length_wire.symm)
      rw [List.append_nil, List.append_nil, r.length_wire] at h
      exact h

/-- A record at the front of a span. -/
theorem fromBytes_wire (r : Record) (h : r.rdata.length < 2 ^ 16) (more : Bytes) :
    ∃ rr, RR.fromBytes (r.wire ++ more) = .ok (rr, more) ∧ Shows rr r := by
  have hold : (List.replicate (rrHeaderSize + r.rdata.length) (0 : UInt8)).length = rrHeaderSize + r.rdata.length :=
    List.length_replicate
  obtain ⟨bytes, rr, hwrite, hread, hshows⟩ := r.round_trips h [] _ [] more hold
  have hwire := r.serialize_eq [] [] (hold.trans r.length_wire.symm)
  rw [hwire] at hwrite
  obtain rfl : r.wire = bytes := by simpa using (Prod.mk.inj (Except.ok.inj hwrite)).1
  exact ⟨rr, hread, hshows⟩

theorem readAt_wire (b : Body) (hb : b.Fits) (pre post : Bytes) :
    b.ReadAt (pre ++ (b.wire ++ post)) pre.length (pre.length + b.size) := by
  cases b with
  | question q =>
      refine ⟨4, q.deserialize_wire pre post, rfl, ?_⟩
      simp [wire, size]
  | record r =>
      obtain ⟨rr, hread, hshows⟩ := fromBytes_wire r hb post
      refine ⟨rr, ?_, hshows, ?_⟩
      · rw [List.drop_left, ← List.drop_drop, List.drop_left, size, ← r.length_wire, wire, List.drop_left]
        exact hread
      · simp [wire, size, r.length_wire]

end Body

/-- A name and what stands behind it. -/
structure Part where
  name : Name
  body : Body

/-- The text of the name as `dn()` shows it, and the body. -/
def Part.shown (p : Part) : Bytes × Body := (spelled p.name.labels, p.body)

/-- **One part is appended** to the message: its name and its body. -/
def PartAppended (debug : Bool) (fresh : Nat → UInt8) (s : Session) (p : Part) (s' : Session) : Prop :=
  ∃ n s1 mem, Appended debug fresh s p.name.text n s1 ∧
    p.body.serialize (s1.mem ++ freshBytes fresh s1.mem.length p.body.size) s1.mem.length = .ok (mem, mem.length) ∧
    s' = ⟨mem, s1.c⟩

/-- Parts appended one after another. -/
inductive PartsAppended (debug : Bool) (fresh : Nat → UInt8) : Session → List Part → Session → Prop
  | nil (s : Session) : PartsAppended debug fresh s [] s
  | cons {s s1 s' : Session} {p : Part} {ps : List Part} : PartAppended debug fresh s p s1 →
      PartsAppended debug fresh s1 ps s' → PartsAppended debug fresh s (p :: ps) s'

/-- **One part is read** with the object `o` off the span that begins at `pos`. -/
def PartRead (msg : Bytes) (debug : Bool) (o : DnDecompressor) (pos : Nat) (p : Part) (o' : DnDecompressor) (next : Nat) :
    Prop :=
  ∃ n, Call (spanBody msg debug pos) pos o none n o' ∧ o'.dn = spelled p.name.labels ∧ p.body.ReadAt msg (pos + n) next

/-- Parts read one after another, up to the end of the message. -/
def PartsRead (msg : Bytes) (debug : Bool) : DnDecompressor → Nat → List Part → Prop
  | _, pos, [] => pos = msg.length
  | o, pos, p :: ps => ∃ o' next, PartRead msg debug o pos p o' next ∧ PartsRead msg debug o' next ps

/-! ## §3 — messages. -/

/-- A message; its header counts its parts. -/
structure Message where
  header : Header
  questions : List (Name × Question)
  /-- of the three sections, one behind the other -/
  records : List (Name × Record)
  qdcount : header.qdcount.toNat = questions.length
  rrcount : header.ancount.toNat + header.nscount.toNat + header.arcount.toNat = records.length
  rdlength : ∀ r ∈ records, r.2.rdata.length < 2 ^ 16

namespace Message

variable (m : Message)

def parts : List Part :=
  m.questions.map (fun q => ⟨q.1, .question q.2⟩) ++ m.records.map fun r => ⟨r.1, .record r.2⟩

/-- The header and the parts `ps` have been written. -/
def Written (debug : Bool) (fresh : Nat → UInt8) (ps : List Part) (s : Session) : Prop :=
  ∃ mem, m.header.serializePtr (freshBytes fresh 0 12) 0 = .ok (mem, 12) ∧ PartsAppended debug fresh ⟨mem, .init⟩ ps s

/-- **A reader gets the message**, with any object: its header, then as many parts as it counts. -/
def ReadFrom (msg : Bytes) (debug : Bool) : Prop :=
  Header.deserializePtr msg 0 = .ok (m.header, 12) ∧ ∀ o, PartsRead msg debug o 12 m.parts

/-- What a reader sees of two messages is the same. -/
def SameAs (m m' : Message) : Prop := m.header = m'.header ∧ m.parts.map Part.shown = m'.parts.map Part.shown

/-- **The message round-trips**, unless it outgrows the pointers: a reader gets it, and gets no other. -/
def RoundTrips (debug : Bool) (fresh : Nat → UInt8) : Prop :=
  (∃ ps s, ps <+: m.parts ∧ m.Written debug fresh ps s ∧ 0x4000 ≤ s.mem.length) ∨
    ∃ s, m.Written debug fresh m.parts s ∧ s.mem.length < 0x4000 ∧ m.ReadFrom s.mem debug ∧
      ∀ m' : Message, m'.ReadFrom s.mem debug → m.SameAs m'

theorem fits_parts : ∀ p ∈ m.parts, p.body.Fits := by
  intro p hp
  rcases List.mem_append.mp hp with hp | hp
  · obtain ⟨q, -, rfl⟩ := List.mem_map.mp hp
    trivial
  · obtain ⟨r, hr, rfl⟩ := List.mem_map.mp hp
    exact m.rdlength r hr

end Message

/-! ## §4 — a reader has one outcome. -/

theorem Shows.unique {rr : RR} {r r' : Record} (h : Shows rr r) (h' : Shows rr r') : r = r' := by
  obtain ⟨type, class_, ttl, rdata⟩ := r
  obtain ⟨type', class', ttl', rdata'⟩ := r'
  obtain rfl : type = type' := Except.ok.inj (h.type.symm.trans h'.type)
  obtain rfl : class_ = class' := Except.ok.inj (h.class_.symm.trans h'.class_)
  obtain rfl : ttl = ttl' := Except.ok.inj (h.ttl.symm.trans h'.ttl)
  obtain rfl : rdata = rdata' := Except.ok.inj (h.rdata.symm.trans h'.rdata)
  rfl

def Body.isQuestion : Body → Bool
  | question _ => true
  | record _ => false

section Unique

variable {msg : Bytes} {debug : Bool} {pos next next' : Nat}

theorem Body.ReadAt.unique {b b' : Body} (hk : b.isQuestion = b'.isQuestion) (h : b.ReadAt msg pos next)
    (h' : b'.ReadAt msg pos next') : b = b' ∧ next = next' := by
  cases b with
  | question q =>
      cases b' with
      | question q' =>
          obtain ⟨n, hread, rfl, -⟩ := h
          obtain ⟨n', hread', rfl, -⟩ := h'
          obtain ⟨rfl, rfl⟩ := Prod.mk.inj (Except.ok.inj (hread.symm.trans hread'))
          exact ⟨rfl, rfl⟩
      | record r => cases hk
  | record r =>
      cases b' with
      | question q => cases hk
      | record r' =>
          obtain ⟨rr, hread, hshows, hle⟩ := h
          obtain ⟨rr', hread', hshows', hle'⟩ := h'
          obtain ⟨rfl, hrest⟩ := Prod.mk.inj (Except.ok.inj (hread.symm.trans hread'))
          obtain rfl := hshows.unique hshows'
          have hlen := congrArg List.length hrest
          rw [List.length_drop, List.length_drop] at hlen
          exact ⟨rfl, by omega⟩

theorem PartsRead.unique : ∀ {ps qs : List Part} {o : DnDecompressor} {pos : Nat},
    ps.map (·.body.isQuestion) = qs.map (·.body.isQuestion) → PartsRead msg debug o pos ps →
    PartsRead msg debug o pos qs → ps.map Part.shown = qs.map Part.shown
  | [], [], _, _, _, _, _ => rfl
  | [], q :: qs, _, _, hk, _, _ => by cases hk
  | p :: ps, [], _, _, hk, _, _ => by cases hk
  | p :: ps, q :: qs, o, pos, hk, h, h' => by
      rw [List.map_cons, List.map_cons, List.cons.injEq] at hk
      obtain ⟨o1, next, ⟨n, hcall, hdn, hbody⟩, hrest⟩ := h
      obtain ⟨o2, next', ⟨n', hcall', hdn', hbody'⟩, hrest'⟩ := h'
      obtain ⟨-, rfl, rfl⟩ := hcall.unique hcall'
      obtain ⟨hb, rfl⟩ := hbody.unique hk.1 hbody'
      rw [List.map_cons, List.map_cons, PartsRead.unique hk.2 hrest hrest', Part.shown, Part.shown, ← hdn, hdn', hb]

end Unique

namespace Message

/-- The header says how many questions there are, and how many records. -/
theorem kinds_eq {m m' : Message} (h : m.header = m'.header) :
    m.parts.map (·.body.isQuestion) = m'.parts.map (·.body.isQuestion) := by
  have hq : m.questions.length = m'.questions.length := by rw [← m.qdcount, ← m'.qdcount, h]
  have hr : m.records.length = m'.records.length := by rw [← m.rrcount, ← m'.rrcount, h]
  have hkinds : ∀ m : Message, m.parts.map (·.body.isQuestion) =
      List.replicate m.questions.length true ++ List.replicate m.records.length false := by
    intro m
    simp [parts, Function.comp_def, Body.isQuestion, List.map_const']
  rw [hkinds, hkinds, hq, hr]

/-- **Two messages that are read from the same bytes** are the same to the reader. -/
theorem ReadFrom.sameAs {m m' : Message} {msg : Bytes} {debug : Bool} (o : DnDecompressor) (h : m.ReadFrom msg debug)
    (h' : m'.ReadFrom msg debug) : m.SameAs m' := by
  have hheader : m.header = m'.header := (Prod.mk.inj (Except.ok.inj (h.1.symm.trans h'.1))).1
  exact ⟨hheader, PartsRead.unique (kinds_eq hheader) (h.2 o) (h'.2 o)⟩

end Message

/-! ## §5 — the size of a name. -/

theorem store_ok {α : Type} {dst dst' : List α} {i : Nat} {x : α} (h : store dst i x = .ok dst') :
    dst'.length = dst.length := by
  unfold store at h
  split at h
  · cases h
    exact List.length_set
  · cases h

theorem length_copyTo {dst dst' bs : Bytes} {i : Nat} (h : copyTo dst i bs = .ok dst') : dst'.length = dst.length := by
  unfold copyTo at h
  split at h
  · cases h
    simp only [List.length_append, List.length_take, List.length_drop]
    omega
  · cases h

theorem length_writeLens {lens : List UInt8} {stop fuel : Nat} : ∀ {j i i' : Nat} {dst dst' : Bytes},
    writeLens lens stop fuel j i dst = .ok (dst', i') → dst'.length = dst.length := by
  induction fuel with
  | zero =>
      intro j i i' dst dst' h
      cases h
      rfl
  | succ fuel ih =>
      intro j i i' dst dst' h
      rw [writeLens] at h
      split at h
      · split at h
        · cases h
        · obtain ⟨mid, hst, hrest⟩ := bind_eq_ok.mp h
          rw [ih hrest, store_ok hst]
      · cases h
        rfl

/-- `compress` overwrites memory, and moves nothing. -/
theorem length_compress {debug : Bool} {c c' : DnCompressor} {pos n : Nat} {dst bytes : Bytes}
    (h : compress debug c pos dst = .ok (c', bytes, n)) : bytes.length = dst.length := by
  rcases compress_ok h with ⟨-, -, -, -, rfl⟩ | ⟨-, text, copied, lensed, i, -, hcopy, hlens, hfin⟩
  · exact List.length_set
  · rw [← length_copyTo hcopy, ← length_writeLens hlens]
    obtain ⟨-, -, ⟨-, -, -, rfl⟩ | ⟨-, -, -, rfl⟩⟩ := finish_ok hfin
    · rw [List.length_set, List.length_set]
    · exact List.length_set

theorem Appended.length {debug : Bool} {fresh : Nat → UInt8} {s s' : Session} {name : Bytes} {n : Nat}
    (h : Appended debug fresh s name n s') : s'.mem.length = s.mem.length + n := by
  obtain ⟨fuel, c, c', bytes, -, hc, rfl⟩ := h
  rw [List.length_append, length_compress hc, length_freshBytes]

/-! ## §6 — the session goes on behind a body. -/

variable {debug : Bool} {fresh : Nat → UInt8} {header : Bytes} {earlier : List (List Bytes)} {s s' : Session}
  {tab : List Entry}

/-- Bytes behind a name. -/
theorem SessionInv.grow (h : SessionInv header earlier s tab) (hne : earlier ≠ []) (more : Bytes) :
    SessionInv header earlier ⟨s.mem ++ more, s.c⟩ tab where
  tracks := h.tracks
  ptrs := h.ptrs
  clean := h.clean
  lens := h.lens
  entries e he := (h.entries e he).append more
  below := by
    rw [List.length_append]
    exact Nat.le_add_right_of_le h.below
  start he := absurd he hne
  base := h.base

/-- A name and its body, read off any message that goes on behind them. -/
theorem partRead {msg : Bytes} {p : Part} {n : Nat} {os : List Nat} {ptr : Bool} {front : Bytes}
    (hname : NameAt msg s.mem.length p.name.labels os n ptr) (hmsg : msg.length < 0x4000) (hfront : front.length =
      s.mem.length + n) (hpre : front ++ p.body.wire <+: msg) (hfits : p.body.Fits) (o : DnDecompressor) :
    ∃ o', PartRead msg debug o s.mem.length p o' (front ++ p.body.wire).length := by
  have hroute : Route msg debug .own s.mem.length n (spelled p.name.labels) none := by
    simpa [Pc.counted] using hname.route hmsg .own (by simp)
  have hfit : (spelled p.name.labels).length ≤ nameLimit := by
    have := p.name.wire
    rw [length_spelled]
    omega
  obtain ⟨o', hcall, hdn⟩ := (walks_spanBody msg debug s.mem.length).call o (fun _ => rfl) hroute hfit
  refine ⟨o', n, hcall, hdn, ?_⟩
  obtain ⟨more, rfl⟩ := hpre
  have hread := p.body.readAt_wire hfits front more
  rw [← hfront, List.length_append, p.body.length_wire, List.append_assoc]
  exact hread

/-- **The rest of a message**, by induction on the parts still to come. -/
theorem SessionInv.runParts {names : List (List Bytes)} (hcount : names.length ≤ dnptrsMax) (hh : Harmless header names) :
    ∀ (ps : List Part) (earlier : List (List Bytes)) (s : Session) (tab : List Entry),
      names = earlier ++ ps.map (·.name.labels) → SessionInv header earlier s tab → s.mem.length < 0x4000 →
      (∀ p ∈ ps, p.body.Fits) →
      (∃ pre s', pre <+: ps ∧ PartsAppended debug fresh s pre s' ∧ 0x4000 ≤ s'.mem.length) ∨
      ∃ s', PartsAppended debug fresh s ps s' ∧ s'.mem.length < 0x4000 ∧ s.mem <+: s'.mem ∧
        ∀ o, PartsRead s'.mem debug o s.mem.length ps
  | [], _, s, _, _, _, hmem, _ => .inr ⟨s, .nil s, hmem, List.prefix_refl _, fun _ => rfl⟩
  | p :: ps, earlier, s, tab, hnames, h, hmem, hfits => by
      have hlen : earlier.length < dnptrsMax := by
        have := congrArg List.length hnames
        simp at this
        omega
      obtain ⟨n, s1, tab1, happ, h1, hpre1, os, ptr, hname⟩ :=
        h.append debug fresh p.name hmem hlen (h.search (by simpa using hnames) hh)
      -- the body behind the name
      let s2 : Session := ⟨s1.mem ++ p.body.wire, s1.c⟩
      have hpart : PartAppended debug fresh s p s2 := by
        refine ⟨n, s1, s1.mem ++ p.body.wire, happ, ?_, rfl⟩
        rw [p.body.serialize_eq s1.mem (length_freshBytes _ _ _), List.length_append, p.body.length_wire]
      by_cases hbig : 0x4000 ≤ s2.mem.length
      · exact .inl ⟨[p], s2, by simp, .cons hpart (.nil s2), hbig⟩
      rcases SessionInv.runParts hcount hh ps (earlier ++ [p.name.labels]) s2 tab1 (by simpa using hnames)
        (h1.grow (by simp) _) (Nat.lt_of_not_le hbig) (fun q hq => hfits q (List.mem_cons_of_mem p hq)) with
        ⟨pre, s', hp, ha, hs'⟩ | ⟨s', ha, hs', hpre, hread⟩
      · exact .inl ⟨p :: pre, s', by simpa using hp, .cons hpart ha, hs'⟩
      · refine .inr ⟨s', .cons hpart ha, hs', (hpre1.trans (List.prefix_append _ _)).trans hpre, fun o => ?_⟩
        obtain ⟨more, hmore⟩ := (List.prefix_append s1.mem p.body.wire).trans hpre
        have hname' := hname.append more
        rw [hmore] at hname'
        obtain ⟨o', hpr⟩ := partRead hname' hs' happ.length hpre (hfits p List.mem_cons_self) o
        exact ⟨o', _, hpr, hread o'⟩

/-- **A message round-trips** when it has at most 20 parts and their names are harmless. -/
theorem message_round_trip (debug : Bool) (fresh : Nat → UInt8) (m : Message) (hcount : m.parts.length ≤ 20)
    (hh : Harmless m.header.wire (m.parts.map (·.name.labels))) : m.RoundTrips debug fresh := by
  have hwritten : m.header.serializePtr (freshBytes fresh 0 12) 0 = .ok (m.header.wire, 12) := by
    simpa using (writtenAs_wire [] [] m.header (length_freshBytes fresh 0 12)).2
  have hcount' : (m.parts.map (·.name.labels)).length ≤ dnptrsMax := by
    rw [List.length_map]
    exact hcount
  have hmem : m.header.wire.length < 0x4000 := by
    rw [m.header.length_wire]
    decide
  rcases SessionInv.runParts hcount' hh m.parts [] ⟨m.header.wire, .init⟩ [] rfl (sessionInv_init _) hmem m.fits_parts with
    ⟨ps, s, hp, ha, hs⟩ | ⟨s, ha, hs, hpre, hread⟩
  · exact .inl ⟨ps, s, hp, ⟨_, hwritten, ha⟩, hs⟩
  · have hfrom : m.ReadFrom s.mem debug := by
      constructor
      · obtain ⟨more, hmore⟩ := hpre
        have hhead := (readAs_ofWire [] more m.header.length_wire).2
        rw [m.header.ofWire_wire, List.nil_append, hmore] at hhead
        exact hhead
      · intro o
        have hparts := hread o
        rwa [m.header.length_wire] at hparts
    exact .inr ⟨s, ⟨_, hwritten, ha⟩, hs, hfrom, fun m' h' => hfrom.sameAs ⟨fun _ => 0, 0⟩ h'⟩

/-- The addresses of `www.a.` and `download.a`, asked for the first. -/
def addresses : Message where
  header := ⟨0x1234, Flags.ofU16 0x8180, 1, 1, 0, 1⟩
  questions := [(wwwA, ⟨⟨1⟩, ⟨1⟩⟩)]
  records := [(wwwA, ⟨⟨1⟩, ⟨1⟩, 300, [127, 0, 0, 1]⟩), (downloadA, ⟨⟨1⟩, ⟨1⟩, 60, [127, 0, 0, 2]⟩)]
  qdcount := rfl
  rrcount := rfl
  rdlength := by decide

/-- The last name ends in a pointer, and no name comes behind it. -/
theorem harmless_addresses : Harmless addresses.header.wire (addresses.parts.map (·.name.labels)) := by
  right
  intro pre a mid b post h hp
  obtain ⟨-, hnew, e, he, -⟩ := hp
  cases pre with
  | nil => cases he
  | cons p pre =>
      cases pre with
      | nil =>
          obtain ⟨rfl, rfl, -⟩ : wwwA.labels = p ∧ wwwA.labels = a ∧ _ := by simpa [addresses, Message.parts] using h
          exact absurd (List.suffix_refl _) (hnew _ (by simp))
      | cons q pre =>
          have hlen := congrArg List.length h
          simp [addresses, Message.parts] at hlen
          omega

theorem message_round_trip_addresses : addresses.RoundTrips true fun _ => 0 :=
  message_round_trip true (fun _ => 0) addresses (by decide) harmless_addresses

end NetCpp.Dns
