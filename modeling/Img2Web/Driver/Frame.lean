import Img2Web.Container.Framing
import Img2Web.Driver.Connection
import Img2Web.Driver.Serialization

/-!
`ResponseMessage`, which puts a response together from the chunks that the
socket delivers. The decoder of a body is a parameter; it is given the header.
-/

namespace Img2Web.Driver

open Text Reader Framing

/-- The header of a frame after its version. -/
structure Header where
  flags : Nat
  stream : Int
  opcode : Nat
  length : Int
  deriving DecidableEq

/-- `header_buffer_` and `body` are as far as they have been copied. -/
structure ResponseMessage where
  version : Nat
  header : Header
  received : Nat
  headerSize : Nat
  isHeaderReceived : Bool
  headerBuffer : Bytes
  body : Bytes

namespace ResponseMessage

def new : ResponseMessage := ⟨0, ⟨0, 0, 0, 0⟩, 0, 0, false, [], []⟩

def headerSizeOf (version : Nat) : Nat := if version ≥ 3 then 9 else 8

/-- The opcodes that `allocate_body` has a response for. -/
def allocateBody (opcode : Nat) : Bool := opcode ∈ [0x00, 0x02, 0x03, 0x06, 0x08, 0x0C, 0x0E, 0x10]

def decodeStream (version : Nat) : Reader UInt8 Int :=
  if version ≥ 3 then decodeInt16 else decodeInt8

/-- What follows the version byte. -/
def readHeader (version : Nat) : Reader UInt8 Header := do
  let _ ← take 1
  let flags ← decodeByte
  let stream ← decodeStream version
  let opcode ← decodeByte
  let length ← decodeInt32
  return ⟨flags, stream, opcode, length⟩

variable {ρ : Type} (decodeBody : Nat → Header → Bytes → Option ρ)

/-- The header of a frame is read as it was written. -/
theorem reads_header {version flags opcode : Nat} {stream length : Int} (hflags : flags < 256)
    (hopcode : opcode < 256) (hlow : -2 ^ 31 ≤ length) (hhigh : length < 2 ^ 31)
    {streamBytes : Bytes} (hstream : Reads (decodeStream version) streamBytes stream) :
    Reads (readHeader version)
      (encodeByte version ++ (encodeByte flags ++ (streamBytes ++ (encodeByte opcode ++
        encodeInt32 length)))) ⟨flags, stream, opcode, length⟩ := by
  unfold readHeader
  apply (reads_take (length_encodeUint 1 version)).bind
  apply (reads_uint hflags).bind
  apply hstream.bind
  apply (reads_uint hopcode).bind
  rw [← List.append_nil (encodeInt32 length)]
  exact (reads_int32 hlow hhigh).bind (Reads.pure _)

def message (h : Header) (body : ρ) : Message ρ := ⟨h.stream, h.opcode == 0x0C, body⟩

/-- The version is read from the first byte, but again from the next chunk as
long as it is zero. -/
def startVersion (m : ResponseMessage) (input : Bytes) : ResponseMessage :=
  if m.version = 0 then
    let version := (input.headD 0 &&& 0x7F).toNat
    {m with version := version, headerSize := headerSizeOf version}
  else m

/-- The rest of `input` after its first `taken` bytes belongs to the body. -/
def decodeRest (m : ResponseMessage) (taken : Nat) (rest : Bytes) :
    Outcome ResponseMessage (Message ρ) :=
  let frameSize := m.headerSize + m.header.length.toNat
  if m.received ≥ frameSize then
    let needed := rest.length - (m.received - frameSize)
    match decodeBody m.version m.header (m.body ++ rest.take needed) with
    | some x => .done (taken + needed) (message m.header x)
    | none => .failed
  else .more {m with body := m.body ++ rest}

/-- The header, then the rest. A negative length is no frame of the protocol; here
it fails, where the source allocates or copies as if it were a huge one. -/
def decodeHeader (m : ResponseMessage) (input : Bytes) : Outcome ResponseMessage (Message ρ) :=
  if m.received ≥ m.headerSize then
    let needed := input.length - (m.received - m.headerSize)
    let headerBuffer := m.headerBuffer ++ input.take needed
    match (readHeader m.version).run headerBuffer with
    | none => .failed
    | some (header, _) =>
        if allocateBody header.opcode && decide (0 ≤ header.length) then
          {m with
            headerBuffer := headerBuffer
            header := header
            isHeaderReceived := true}.decodeRest decodeBody needed (input.drop needed)
        else .failed
  else .more {m with headerBuffer := m.headerBuffer ++ input}

def receive (m : ResponseMessage) (size : Nat) : ResponseMessage :=
  {m with received := m.received + size}

def decode (m : ResponseMessage) (input : Bytes) : Outcome ResponseMessage (Message ρ) :=
  let m := m.receive input.length
  if m.isHeaderReceived then m.decodeRest decodeBody 0 input
  else (m.startVersion input).decodeHeader decodeBody input

/-- `response_` of a connection, and the loop of its `consume`. -/
def decoder : Decoder ResponseMessage UInt8 (Message ρ) := ⟨new, decode decodeBody⟩

def versionOf (bs : Bytes) : Nat := (bs.headD 0 &&& 0x7F).toNat

/-- The whole header of a frame. -/
structure Announces (header : Bytes) (h : Header) : Prop where
  version : versionOf header ≠ 0
  size : header.length = headerSizeOf (versionOf header)
  read : ∃ rest, (readHeader (versionOf header)).run header = some (h, rest)

/-- A header of an unknown opcode, which cannot be read, or one that announces
the length of the body after it. -/
def IsFrame (f : Bytes) (v : Option (Message ρ)) : Prop :=
  ∃ header h, Announces header h ∧
    ((allocateBody h.opcode = false ∧ f = header ∧ v = none) ∨
      (allocateBody h.opcode = true ∧ ∃ body, h.length = (body.length : Nat) ∧ f = header ++ body ∧
        v = (decodeBody (versionOf header) h body).map (message h)))

/-- The state after the first bytes of a frame. -/
def after (p : Bytes) : ResponseMessage :=
  if p = [] then new
  else
    let size := headerSizeOf (versionOf p)
    if p.length < size then
      {new with
        version := versionOf p, received := p.length, headerSize := size, headerBuffer := p}
    else
      match (readHeader (versionOf p)).run (p.take size) with
      | none => new
      | some (header, _) =>
          ⟨versionOf p, header, p.length, size, true, p.take size, p.drop size⟩

theorem headerSizeOf_pos (version : Nat) : 0 < headerSizeOf version := by
  unfold headerSizeOf
  split <;> omega

theorem versionOf_append {p : Bytes} (hp : p ≠ []) (q : Bytes) :
    versionOf (p ++ q) = versionOf p := by
  cases p with
  | nil => exact absurd rfl hp
  | cons b p => rfl

theorem after_short {p : Bytes} (hp : p ≠ []) (hshort : p.length < headerSizeOf (versionOf p)) :
    after p = ⟨versionOf p, ⟨0, 0, 0, 0⟩, p.length, headerSizeOf (versionOf p), false, p, []⟩ := by
  simp only [after, if_neg hp, if_pos hshort, new]

theorem Announces.ne_nil {header : Bytes} {h : Header} (hh : Announces header h) :
    header ≠ [] := by
  have hpos := headerSizeOf_pos (versionOf header)
  rw [← hh.size] at hpos
  exact List.length_pos_iff.mp hpos

theorem after_header {header : Bytes} {h : Header} (hh : Announces header h) (body : Bytes) :
    after (header ++ body) = ⟨versionOf header, h, (header ++ body).length, header.length, true,
      header, body⟩ := by
  obtain ⟨rest, hread⟩ := hh.read
  have hlong : ¬ (header ++ body).length < header.length := by
    rw [List.length_append]
    omega
  simp only [after, if_neg (List.append_ne_nil_of_left_ne_nil hh.ne_nil body),
    versionOf_append hh.ne_nil, if_neg hlong, ← hh.size, List.take_left, List.drop_left, hread]

/-- The bytes of the body that have come are those before `rest`, and `rest`. -/
theorem decodeRest_spec (m : ResponseMessage) (taken : Nat) (rest : Bytes)
    (hreceived : m.received = m.headerSize + (m.body ++ rest).length) {length : Nat}
    (hlength : m.header.length = (length : Nat)) (hbody : m.body.length ≤ length) :
    m.decodeRest decodeBody taken rest =
      if (m.body ++ rest).length < length then .more {m with body := m.body ++ rest}
      else
        match decodeBody m.version m.header ((m.body ++ rest).take length) with
        | some x => .done (taken + (length - m.body.length)) (message m.header x)
        | none => .failed := by
  have hsize : m.header.length.toNat = length := by rw [hlength, Int.toNat_natCast]
  rw [List.length_append] at hreceived
  simp only [decodeRest, hsize, hreceived, List.length_append]
  by_cases hshort : m.body.length + rest.length < length
  · rw [if_neg (by omega), if_pos hshort]
  · have hneeded : rest.length - (m.headerSize + (m.body.length + rest.length) -
        (m.headerSize + length)) = length - m.body.length := by omega
    have htake : m.body ++ rest.take (length - m.body.length) =
        (m.body ++ rest).take length := by
      rw [List.take_append, List.take_of_length_le hbody]
    rw [if_pos (by omega), if_neg hshort, hneeded, htake]

/-- A call while the header is not complete. -/
theorem decode_start {p q : Bytes} (hversion : versionOf (p ++ q) ≠ 0)
    (hp : p.length < headerSizeOf (versionOf (p ++ q))) :
    decode decodeBody (after p) q = decodeHeader decodeBody ⟨versionOf (p ++ q), ⟨0, 0, 0, 0⟩,
      (p ++ q).length, headerSizeOf (versionOf (p ++ q)), false, p, []⟩ q := by
  by_cases hnil : p = []
  · subst hnil
    simp [decode, after, new, receive, startVersion, versionOf]
  · rw [versionOf_append hnil] at hversion hp
    rw [versionOf_append hnil, after_short hnil hp, List.length_append]
    exact congrArg (fun m => decodeHeader decodeBody m q) (if_neg hversion)

theorem decode_short {p q : Bytes} (hq : q ≠ []) (hversion : versionOf (p ++ q) ≠ 0)
    (hshort : (p ++ q).length < headerSizeOf (versionOf (p ++ q))) :
    decode decodeBody (after p) q = .more (after (p ++ q)) := by
  have hp : p.length < headerSizeOf (versionOf (p ++ q)) := by
    rw [List.length_append] at hshort
    omega
  rw [decode_start decodeBody hversion hp,
    after_short (List.append_ne_nil_of_right_ne_nil p hq) hshort, decodeHeader,
    if_neg (Nat.not_le.mpr hshort)]

/-- The call in which the header gets complete. -/
theorem decode_header {p q header rest : Bytes} {h : Header} (hh : Announces header h)
    (hstream : p ++ q = header ++ rest) (hp : p.length < header.length) :
    decode decodeBody (after p) q =
      if allocateBody h.opcode && decide (0 ≤ h.length) then
        decodeRest decodeBody ⟨versionOf header, h, (header ++ rest).length, header.length, true,
          header, []⟩ (header.length - p.length) rest
      else .failed := by
  obtain ⟨left, hread⟩ := hh.read
  have hversion : versionOf (p ++ q) = versionOf header := by
    rw [hstream, versionOf_append hh.ne_nil]
  obtain ⟨tail, rfl⟩ : p <+: header :=
    List.prefix_of_prefix_length_le ⟨q, hstream⟩ ⟨rest, rfl⟩ (Nat.le_of_lt hp)
  rw [List.append_assoc, List.append_cancel_left_eq] at hstream
  subst hstream
  rw [decode_start decodeBody (by rw [hversion]; exact hh.version)
    (by rw [hversion, ← hh.size]; exact hp), hversion, ← hh.size, ← List.append_assoc]
  have hneeded : (tail ++ rest).length - ((p ++ tail ++ rest).length - (p ++ tail).length) =
      tail.length := by
    simp only [List.length_append]
    omega
  have htaken : (p ++ tail).length - p.length = tail.length := by
    rw [List.length_append]
    omega
  have hlong : (p ++ tail ++ rest).length ≥ (p ++ tail).length := by
    simp only [List.length_append]
    omega
  simp only [decodeHeader, if_pos hlong, hneeded, List.take_left, List.drop_left, hread, htaken]

/-- A call that reaches beyond the header. -/
theorem decode_body {p q header rest : Bytes} {h : Header} (hh : Announces header h)
    (hopcode : allocateBody h.opcode = true) (hstream : p ++ q = header ++ rest) {length : Nat}
    (hlength : h.length = (length : Nat)) (hp : p.length < header.length + length) :
    decode decodeBody (after p) q =
      if rest.length < length then .more (after (p ++ q))
      else
        match decodeBody (versionOf header) h (rest.take length) with
        | some x => .done (header.length + length - p.length) (message h x)
        | none => .failed := by
  by_cases hcomplete : p.length < header.length
  · have hnonneg : 0 ≤ h.length := by omega
    have htaken : header.length - p.length + (length - 0) = header.length + length - p.length := by
      omega
    rw [decode_header decodeBody hh hstream hcomplete, hopcode, decide_eq_true hnonneg,
      Bool.and_self, if_pos rfl,
      decodeRest_spec decodeBody _ _ _ (by simp) hlength (Nat.zero_le _), hstream,
      after_header hh]
    simp only [List.nil_append, List.length_nil, htaken]
  · obtain ⟨body, rfl⟩ : header <+: p :=
      List.prefix_of_prefix_length_le ⟨rest, rfl⟩ ⟨q, hstream⟩ (Nat.le_of_not_lt hcomplete)
    rw [List.append_assoc, List.append_cancel_left_eq] at hstream
    subst hstream
    rw [List.length_append] at hp
    have hbody : body.length ≤ length := by omega
    have htaken :
        0 + (length - body.length) = header.length + length - (header ++ body).length := by
      rw [List.length_append]
      omega
    have hreceived : (header ++ body).length + q.length = header.length + (body ++ q).length := by
      simp only [List.length_append]
      omega
    rw [List.append_assoc, after_header hh, after_header hh]
    simp only [decode, receive, if_true]
    rw [decodeRest_spec decodeBody _ _ _ hreceived hlength hbody, htaken]
    simp only [List.length_append, Nat.add_assoc]

theorem Announces.unique {header header' : Bytes} {h h' : Header} (hh : Announces header h)
    (hh' : Announces header' h') {rest rest' : Bytes} (heq : header ++ rest = header' ++ rest') :
    header = header' ∧ h = h' := by
  have hversion : versionOf header = versionOf header' := by
    rw [← versionOf_append hh.ne_nil rest, heq, versionOf_append hh'.ne_nil]
  have hsize : header.length = header'.length := by rw [hh.size, hh'.size, hversion]
  obtain rfl := List.append_inj_left heq hsize
  obtain ⟨left, hread⟩ := hh.read
  obtain ⟨left', hread'⟩ := hh'.read
  rw [hread, Option.some_inj, Prod.mk.injEq] at hread'
  exact ⟨rfl, hread'.1⟩

/-- A frame is known from its beginning. -/
theorem isFrame_cancel {f g : Bytes} {u v : Option (Message ρ)} (hf : IsFrame decodeBody f u)
    (hg : IsFrame decodeBody g v) {q r : Bytes} (heq : f ++ q = g ++ r) : f = g ∧ u = v := by
  obtain ⟨header, h, hh, hf⟩ := hf
  obtain ⟨header', h', hh', hg⟩ := hg
  rcases hf with ⟨hopcode, rfl, rfl⟩ | ⟨hopcode, body, hlength, rfl, rfl⟩
  · rcases hg with ⟨hopcode', rfl, rfl⟩ | ⟨hopcode', body', hlength', rfl, rfl⟩
    · exact ⟨(hh.unique hh' heq).1, rfl⟩
    · rw [List.append_assoc] at heq
      obtain ⟨-, rfl⟩ := hh.unique hh' heq
      rw [hopcode] at hopcode'
      exact Bool.noConfusion hopcode'
  · rw [List.append_assoc] at heq
    rcases hg with ⟨hopcode', rfl, rfl⟩ | ⟨hopcode', body', hlength', rfl, rfl⟩
    · obtain ⟨-, rfl⟩ := hh.unique hh' heq
      rw [hopcode] at hopcode'
      exact Bool.noConfusion hopcode'
    · rw [List.append_assoc] at heq
      obtain ⟨rfl, rfl⟩ := hh.unique hh' heq
      rw [List.append_cancel_left_eq] at heq
      rw [hlength, Int.natCast_inj] at hlength'
      obtain rfl := List.append_inj_left heq hlength'
      exact ⟨rfl, rfl⟩

/-- `response_` reads the frames of the binary protocol. -/
theorem decoder_reads : (decoder decodeBody).Reads (IsFrame decodeBody) after := by
  constructor
  case nonempty =>
    rintro f v ⟨header, h, hh, ⟨-, rfl, -⟩ | ⟨-, body, -, rfl, -⟩⟩
    · exact hh.ne_nil
    · exact List.append_ne_nil_of_left_ne_nil hh.ne_nil body
  case prefixFree =>
    rintro f g u v hf hg ⟨q, hq⟩
    rw [← List.append_nil g] at hq
    exact (isFrame_cancel decodeBody hf hg hq).1
  case fresh => rfl
  case more =>
    rintro p q (hnil | ⟨r, v, hr, header, h, hh, hframe⟩) hq
    · exact absurd (List.append_eq_nil_iff.mp hnil).2 hq
    have hstart : ∃ tail, p ++ q ++ r = header ++ tail := by
      rcases hframe with ⟨-, hheader, -⟩ | ⟨-, body, -, hbody, -⟩
      · exact ⟨[], by rw [hheader, List.append_nil]⟩
      · exact ⟨body, hbody⟩
    obtain ⟨tail, htail⟩ := hstart
    by_cases hshort : (p ++ q).length < header.length
    · have hversion : versionOf (p ++ q) = versionOf header := by
        rw [← versionOf_append (List.append_ne_nil_of_right_ne_nil p hq) r, htail,
          versionOf_append hh.ne_nil]
      apply decode_short decodeBody hq
      · rw [hversion]
        exact hh.version
      · rw [hversion, ← hh.size]
        exact hshort
    · obtain ⟨rest, hrest⟩ : header <+: p ++ q :=
        List.prefix_of_prefix_length_le ⟨tail, rfl⟩ ⟨r, htail⟩ (Nat.le_of_not_lt hshort)
      have hlength := congrArg List.length hrest
      have hpos := List.length_pos_iff.mpr hr
      have hqpos := List.length_pos_iff.mpr hq
      simp only [List.length_append] at hlength
      rcases hframe with ⟨-, hheader, -⟩ | ⟨hopcode, body, hbody, hstream, -⟩
      · -- nothing is left of a header that is complete
        have hwhole := congrArg List.length hheader
        simp only [List.length_append] at hwhole
        omega
      · have hwhole := congrArg List.length hstream
        simp only [List.length_append] at hwhole
        have hdecode := decode_body decodeBody (p := p) (q := q) hh hopcode hrest.symm hbody
          (by omega)
        rw [if_pos (by omega)] at hdecode
        exact hdecode
  case done =>
    rintro p q x rest hq ⟨header, h, hh, ⟨-, -, hnone⟩ | ⟨hopcode, body, hlength, hstream, hx⟩⟩
    · cases hnone
    · have hwhole := congrArg List.length hstream
      have hqpos := List.length_pos_iff.mpr hq
      simp only [List.length_append] at hwhole
      obtain ⟨y, hy, rfl⟩ := Option.map_eq_some_iff.mp hx.symm
      have hcut : p ++ (q ++ rest) = header ++ (body ++ rest) := by
        rw [← List.append_assoc, hstream, List.append_assoc]
      have hdecode := decode_body decodeBody hh hopcode hcut hlength (by omega)
      rw [if_neg (by rw [List.length_append]; omega), List.take_left] at hdecode
      simp only [hy] at hdecode
      rw [show header.length + body.length - p.length = q.length by omega] at hdecode
      exact hdecode
  case failed =>
    rintro p q rest hq
      ⟨header, h, hh, ⟨hopcode, hstream, -⟩ | ⟨hopcode, body, hlength, hstream, hx⟩⟩
    · have hwhole := congrArg List.length hstream
      have hqpos := List.length_pos_iff.mpr hq
      simp only [List.length_append] at hwhole
      have hcut : p ++ (q ++ rest) = header ++ rest := by
        rw [← List.append_assoc, hstream]
      have hdecode := decode_header decodeBody hh hcut (by omega)
      rw [hopcode, Bool.false_and, if_neg (by decide)] at hdecode
      exact hdecode
    · have hwhole := congrArg List.length hstream
      have hqpos := List.length_pos_iff.mpr hq
      simp only [List.length_append] at hwhole
      have hnone := Option.map_eq_none_iff.mp hx.symm
      have hcut : p ++ (q ++ rest) = header ++ (body ++ rest) := by
        rw [← List.append_assoc, hstream, List.append_assoc]
      have hdecode := decode_body decodeBody hh hopcode hcut hlength (by omega)
      rw [if_neg (by rw [List.length_append]; omega), List.take_left] at hdecode
      simp only [hnone] at hdecode
      exact hdecode

/-- However the socket cuts the bytes of a connection into chunks, its messages
are those of the frames, up to the first that cannot be read, and the state is
that of the bytes after them. -/
theorem chunks_read_frames {cs : List Bytes} {messages : List (Message ρ)} {rest : Option Bytes}
    (h : Splits (IsFrame decodeBody) cs.flatten messages rest) :
    (decoder decodeBody).chunks (some new) cs = (messages, rest.map after) :=
  (decoder_reads decodeBody).chunks h

theorem isFrame_ready : IsFrame (fun _ _ body => some body.length)
    [0x84, 0, 0, 0, 2, 0, 0, 0, 1, 5] (some ⟨0, false, 1⟩) := by
  refine ⟨[0x84, 0, 0, 0, 2, 0, 0, 0, 1], ⟨0, 0, 2, 1⟩, ⟨by decide, rfl, [], ?_⟩,
    Or.inr ⟨rfl, [5], rfl, rfl, rfl⟩⟩
  decide +kernel

/-- A frame in three chunks, and the first byte of another. -/
theorem chunks_read_frames_three :
    (decoder fun _ _ body => some body.length).chunks (some new)
      [[0x84, 0, 0], [0, 2, 0, 0, 0], [1, 5, 0x84]] =
      ([⟨0, false, 1⟩], some (after [0x84])) := by
  have htail := Splits.tail (Or.inr ⟨[0, 0, 0, 2, 0, 0, 0, 1, 5], _, by decide, isFrame_ready⟩ :
    Unfinished (IsFrame fun _ _ body => some body.length) [0x84])
  have hsplits := Splits.frame isFrame_ready htail
  exact @chunks_read_frames Nat _ [[0x84, 0, 0], [0, 2, 0, 0, 0], [1, 5, 0x84]] _ _ hsplits

end ResponseMessage

end Img2Web.Driver
