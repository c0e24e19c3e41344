import Img2Web.Driver.Frame

/-!
The frame of a statement: `QueryRequest::encode` under `Handler::encode`. What
the server reads off it is stated from the layout that the source writes down
beside the code. Custom payloads, and the cache of encoded collections, are
left out.
-/

namespace Img2Web.Driver

open Text Reader

/-- A value of a statement. `bytes` are those of the value itself, which is
kept with its length before it. -/
inductive Element where
  | unset
  | null
  | bytes (b : Bytes)
  deriving DecidableEq

/-- Of the statement, and of the handler that sends it. -/
structure QueryRequest where
  query : Bytes
  consistency : Nat
  serialConsistency : Nat
  pageSize : Int
  pagingState : Bytes
  timestamp : Int
  skipMetadata : Bool
  hasNamesForValues : Bool
  valueNames : List Bytes
  elements : List Element

inductive EncodeError where
  | unsupportedProtocol
  | parameterUnset (index : Nat)
  deriving DecidableEq

def int64Min : Int := -2 ^ 63

def Element.encode : Element → Bytes
  | .unset => encodeInt32 (-2)
  | .null => encodeInt32 (-1)
  | .bytes b => encodeInt32 b.length ++ b

def queryFlags (values skipMetadata pageSize pagingState serialConsistency timestamp names : Bool) :
    Nat :=
  (if skipMetadata then 0x02 else 0) ||| (if names then 0x40 else 0) |||
    (if values then 0x01 else 0) ||| (if pageSize then 0x04 else 0) |||
    (if pagingState then 0x08 else 0) ||| (if serialConsistency then 0x10 else 0) |||
    (if timestamp then 0x20 else 0)

namespace QueryRequest

/-- `Statement::copy_buffers`, from value `i` on. -/
def copyBuffers (version : Nat) : Nat → List Element → Except EncodeError Bytes
  | _, [] => .ok []
  | i, e :: rest =>
      if e = .unset && version < 4 then .error (.parameterUnset i)
      else
        match copyBuffers version (i + 1) rest with
        | .ok bytes => .ok (e.encode ++ bytes)
        | .error error => .error error

/-- `none` where there are more names than values, or a value is not set: the
source reads on, or an assertion fails. -/
def copyBuffersWithNames : List Bytes → List Element → Option Bytes
  | [], _ => some []
  | _ :: _, [] => none
  | name :: names, e :: rest =>
      if e = .unset then none
      else (copyBuffersWithNames names rest).map fun bytes => encodeString name ++ e.encode ++ bytes

/-- The number of values, and the values. -/
def encodeValues (version : Nat) (r : QueryRequest) : Option (Except EncodeError (Bytes × Bytes)) :=
  if r.hasNamesForValues then
    if version < 3 then some (.error .unsupportedProtocol)
    else
      (copyBuffersWithNames r.valueNames r.elements).map fun bytes =>
        .ok (encodeUint16 r.valueNames.length, bytes)
  else if r.elements.length > 0 then
    match copyBuffers version 0 r.elements with
    | .ok bytes => some (.ok (encodeUint16 r.elements.length, bytes))
    | .error error => some (.error error)
  else some (.ok ([], []))

/-- A `Buffer` of that size, written from its start. Writing past its end fails
an assertion. -/
def fillBuffer (size : Nat) (bytes : Bytes) : Option Bytes :=
  if bytes.length ≤ size then some (bytes ++ List.replicate (size - bytes.length) 0) else none

def sendsTimestamp (version : Nat) (r : QueryRequest) : Bool :=
  version ≥ 3 && r.timestamp ≠ int64Min

def flags (version : Nat) (r : QueryRequest) : Nat :=
  queryFlags (r.elements.length > 0) r.skipMetadata (r.pageSize > 0) (r.pagingState ≠ [])
    (r.serialConsistency ≠ 0) (r.sendsTimestamp version) r.hasNamesForValues

def pagingBufSize (version : Nat) (r : QueryRequest) : Nat :=
  (if r.pageSize > 0 then 4 else 0) + (if r.pagingState ≠ [] then 4 + r.pagingState.length else 0) +
    (if r.serialConsistency ≠ 0 then 2 else 0) + (if r.sendsTimestamp version then 8 else 0)

/-- A page size of zero is written, though the buffer has no room for it. -/
def paging (version : Nat) (r : QueryRequest) : Bytes :=
  (if r.pageSize ≥ 0 then encodeInt32 r.pageSize else []) ++
    (if r.pagingState ≠ [] then encodeInt32 r.pagingState.length ++ r.pagingState else []) ++
    (if r.serialConsistency ≠ 0 then encodeUint16 r.serialConsistency else []) ++
    (if r.sendsTimestamp version then encodeInt64 r.timestamp else [])

/-- The length that is announced, and the bytes that are written. -/
def internalEncode (version : Nat) (r : QueryRequest) : Option (Except EncodeError (Nat × Bytes)) :=
  let size := 4 + r.query.length + 2 + 1 + (if r.elements.length > 0 then 2 else 0)
  match r.encodeValues version with
  | none => none
  | some (.error error) => some (.error error)
  | some (.ok (count, values)) => do
      let query ← fillBuffer size (encodeLongString r.query ++ encodeUint16 r.consistency ++
        encodeByte (r.flags version) ++ count)
      if r.pagingBufSize version > 0 then
        let paging ← fillBuffer (r.pagingBufSize version) (r.paging version)
        return .ok (size + values.length + r.pagingBufSize version, query ++ values ++ paging)
      else return .ok (size + values.length, query ++ values)

/-- `encode`: version 1 knows the query and its consistency only. -/
def encode (version : Nat) (r : QueryRequest) : Option (Except EncodeError (Nat × Bytes)) :=
  if version = 1 then do
    let size := 4 + r.query.length + 2
    let bytes ← fillBuffer size (encodeLongString r.query ++ encodeUint16 r.consistency)
    return .ok (size, bytes)
  else r.internalEncode version

end QueryRequest

def encodeStream (version stream : Nat) : Bytes :=
  if version ≥ 3 then encodeInt16 stream else encodeByte stream

/-- `Handler::encode` of a statement. -/
def encodeFrame (version stream : Nat) (r : QueryRequest) :
    Option (Except EncodeError (Nat × Bytes)) :=
  if version < 1 ∨ version > 4 then some (.error .unsupportedProtocol)
  else
    match r.encode version with
    | none => none
    | some (.error error) => some (.error error)
    | some (.ok (length, bytes)) =>
        let header := encodeByte version ++ encodeByte 0 ++ encodeStream version stream ++
          encodeByte 0x07 ++ encodeInt32 length
        some (.ok (length + ResponseMessage.headerSizeOf version, header ++ bytes))

/-- What the server reads. -/
structure Query where
  query : Bytes
  consistency : Nat
  skipMetadata : Bool
  values : List (Option Bytes × Element)
  pageSize : Option Int
  pagingState : Option Bytes
  serialConsistency : Option Nat
  timestamp : Option Int

namespace Query

def decodeLongString : Reader UInt8 Bytes := do
  let size ← decodeInt32
  if size < 0 then failure else take size.toNat

def decodeElement : Reader UInt8 Element := do
  let size ← decodeInt32
  if size = -1 then return .null
  else if size = -2 then return .unset
  else if size < 0 then failure
  else .bytes <$> take size.toNat

def readValue (named : Bool) : Reader UInt8 (Option Bytes × Element) := do
  let name ← optional named decodeString
  let value ← decodeElement
  return (name, value)

def readValues (named : Bool) : Reader UInt8 (List (Option Bytes × Element)) := do
  let n ← decodeUint16
  many n (readValue named)

/-- <query> [long string] + <consistency> [short], and from version 2 on
<flags> [byte] + <values> and the options for paging. -/
def read (version : Nat) : Reader UInt8 Query := do
  let query ← decodeLongString
  let consistency ← decodeUint16
  if version = 1 then return ⟨query, consistency, false, [], none, none, none, none⟩
  else do
    let flags ← decodeByte
    let values ← optional (flags.testBit 0) (readValues (flags.testBit 6))
    let pageSize ← optional (flags.testBit 2) decodeInt32
    let pagingState ← optional (flags.testBit 3) decodeLongString
    let serialConsistency ← optional (flags.testBit 4) decodeUint16
    let timestamp ← optional (flags.testBit 5) decodeInt64
    return ⟨query, consistency, flags.testBit 1, values.getD [], pageSize, pagingState,
      serialConsistency, timestamp⟩

end Query

namespace QueryRequest

def namedValues (r : QueryRequest) : List (Option Bytes × Element) :=
  if r.hasNamesForValues then (r.valueNames.map some).zip r.elements
  else r.elements.map fun e => (none, e)

/-- The statement as the server is to read it. -/
def sent (version : Nat) (r : QueryRequest) : Query :=
  if version = 1 then ⟨r.query, r.consistency, false, [], none, none, none, none⟩
  else
    { query := r.query
      consistency := r.consistency
      skipMetadata := r.skipMetadata
      values := r.namedValues
      pageSize := if r.pageSize > 0 then some r.pageSize else none
      pagingState := if r.pagingState ≠ [] then some r.pagingState else none
      serialConsistency := if r.serialConsistency ≠ 0 then some r.serialConsistency else none
      timestamp := if r.sendsTimestamp version then some r.timestamp else none }

/-- The types of the fields. -/
structure InRange (r : QueryRequest) : Prop where
  query : r.query.length < 2 ^ 31
  consistency : r.consistency < 2 ^ 16
  serialConsistency : r.serialConsistency < 2 ^ 16
  pageSize : -2 ^ 31 ≤ r.pageSize ∧ r.pageSize < 2 ^ 31
  pagingState : r.pagingState.length < 2 ^ 31
  timestamp : -2 ^ 63 ≤ r.timestamp ∧ r.timestamp < 2 ^ 63
  names : ∀ name ∈ r.valueNames, name.length < 2 ^ 16
  count : r.elements.length < 2 ^ 16
  elements : ∀ b, .bytes b ∈ r.elements → b.length < 2 ^ 31

theorem queryFlags_testBit (values skipMetadata pageSize pagingState serialConsistency timestamp
    names : Bool) :
    let flags := queryFlags values skipMetadata pageSize pagingState serialConsistency timestamp
      names
    flags < 256 ∧ flags.testBit 0 = values ∧ flags.testBit 1 = skipMetadata ∧
      flags.testBit 2 = pageSize ∧ flags.testBit 3 = pagingState ∧
      flags.testBit 4 = serialConsistency ∧ flags.testBit 5 = timestamp ∧
      flags.testBit 6 = names := by
  revert values skipMetadata pageSize pagingState serialConsistency timestamp names
  decide

theorem reads_longString {s : Bytes} (hs : s.length < 2 ^ 31) :
    Reads Query.decodeLongString (encodeLongString s) s := by
  apply Reads.bind (reads_int32 (by omega) (by omega))
  rw [if_neg (by omega), Int.toNat_natCast]
  exact reads_take rfl

theorem reads_element {e : Element} (he : ∀ b, e = .bytes b → b.length < 2 ^ 31) :
    Reads Query.decodeElement e.encode e := by
  cases e with
  | unset => exact (reads_int32 (by decide) (by decide)).bind (Reads.pure _)
  | null => exact (reads_int32 (by decide) (by decide)).bind (Reads.pure _)
  | bytes b =>
      have hb := he b rfl
      apply Reads.bind (reads_int32 (by omega) (by omega))
      rw [if_neg (by omega), if_neg (by omega), if_neg (by omega), Int.toNat_natCast]
      exact (reads_take rfl).map _

def encodeValue (v : Option Bytes × Element) : Bytes :=
  (match v.1 with
    | some name => encodeString name
    | none => []) ++ v.2.encode

theorem copyBuffers_ok {version i : Nat} {es : List Element} {bytes : Bytes}
    (h : copyBuffers version i es = .ok bytes) :
    bytes = (es.map fun e => ((none, e) : Option Bytes × Element)).flatMap encodeValue := by
  induction es generalizing i bytes with
  | nil =>
      cases h
      rfl
  | cons e es ih =>
      unfold copyBuffers at h
      split at h
      case isTrue => cases h
      case isFalse =>
        split at h
        case h_1 rest hrest =>
          cases h
          rw [List.map_cons, List.flatMap_cons, ← ih hrest]
          rfl
        case h_2 => cases h

theorem copyBuffersWithNames_some {names : List Bytes} {es : List Element} {bytes : Bytes}
    (h : copyBuffersWithNames names es = some bytes) :
    names.length ≤ es.length ∧ bytes = ((names.map some).zip es).flatMap encodeValue := by
  induction names generalizing es bytes with
  | nil =>
      cases h
      exact ⟨Nat.zero_le _, rfl⟩
  | cons name names ih =>
      cases es with
      | nil => cases h
      | cons e es =>
          unfold copyBuffersWithNames at h
          split at h
          case isTrue => cases h
          case isFalse =>
            obtain ⟨rest, hrest, rfl⟩ := Option.map_eq_some_iff.mp h
            obtain ⟨hle, rfl⟩ := ih hrest
            exact ⟨Nat.succ_le_succ hle, rfl⟩

/-- What `encodeValues` writes. -/
theorem encodeValues_ok {version : Nat} {r : QueryRequest} {count values : Bytes}
    (h : r.encodeValues version = some (.ok (count, values))) :
    values = r.namedValues.flatMap encodeValue ∧
      count = if r.hasNamesForValues || decide (r.elements.length > 0) then
        encodeUint16 r.namedValues.length else [] := by
  unfold encodeValues at h
  cases hnames : r.hasNamesForValues with
  | true =>
      rw [hnames, if_pos rfl] at h
      split at h
      case isTrue => cases h
      case isFalse =>
        obtain ⟨bytes, hbytes, heq⟩ := Option.map_eq_some_iff.mp h
        obtain ⟨hle, rfl⟩ := copyBuffersWithNames_some hbytes
        cases heq
        simp [namedValues, hnames, Nat.min_eq_left hle]
  | false =>
      simp only [hnames, Bool.false_eq_true, if_false] at h
      split at h
      case isTrue hsome =>
        split at h
        case h_1 bytes hbytes =>
          cases h
          simp [namedValues, hnames, hsome, copyBuffers_ok hbytes]
        case h_2 => cases h
      case isFalse hnone =>
        cases h
        have hnil : r.elements = [] := List.length_eq_zero_iff.mp (by omega)
        simp [namedValues, hnames, hnil]

theorem reads_value {v : Option Bytes × Element} {named : Bool} (hnamed : v.1.isSome = named)
    (hname : ∀ name, v.1 = some name → name.length < 2 ^ 16)
    (helement : ∀ b, v.2 = .bytes b → b.length < 2 ^ 31) :
    Reads (Query.readValue named) (encodeValue v) v := by
  subst hnamed
  obtain ⟨name, e⟩ := v
  cases name with
  | none =>
      apply Reads.bind (Reads.pure _)
      rw [← List.append_nil e.encode]
      exact (reads_element helement).bind (Reads.pure _)
  | some name =>
      have hread := (reads_string (hname name rfl)).map some
      apply Reads.bind hread
      rw [← List.append_nil e.encode]
      exact (reads_element helement).bind (Reads.pure _)

theorem namedValues_inRange {r : QueryRequest} (hr : r.InRange) :
    r.namedValues.length < 2 ^ 16 ∧ ∀ v ∈ r.namedValues,
      Reads (Query.readValue r.hasNamesForValues) (encodeValue v) v := by
  have hcount := hr.count
  cases hnames : r.hasNamesForValues with
  | true =>
      simp only [namedValues, hnames, if_true, List.length_zip]
      refine ⟨by omega, fun v hv => ?_⟩
      obtain ⟨name, e⟩ := v
      obtain ⟨hname, he⟩ := List.of_mem_zip hv
      obtain ⟨bytes, hbytes, rfl⟩ := List.mem_map.mp hname
      apply reads_value
      · rfl
      · rintro _ ⟨⟩
        exact hr.names bytes hbytes
      · rintro b rfl
        exact hr.elements b he
  | false =>
      simp only [namedValues, hnames, Bool.false_eq_true, if_false, List.length_map]
      refine ⟨hcount, fun v hv => ?_⟩
      obtain ⟨e, he, rfl⟩ := List.mem_map.mp hv
      apply reads_value
      · rfl
      · rintro _ ⟨⟩
      · rintro b rfl
        exact hr.elements b he

theorem reads_values {r : QueryRequest} (hr : r.InRange) :
    Reads (Query.readValues r.hasNamesForValues)
      (encodeUint16 r.namedValues.length ++ r.namedValues.flatMap encodeValue) r.namedValues := by
  obtain ⟨hcount, hvalues⟩ := namedValues_inRange hr
  exact (reads_uint hcount).bind (reads_many hvalues)

/-- The options for paging, without a page size of zero. -/
def options (version : Nat) (r : QueryRequest) : Bytes :=
  (if decide (r.pageSize > 0) then encodeInt32 r.pageSize else []) ++
    ((if decide (r.pagingState ≠ []) then encodeLongString r.pagingState else []) ++
    ((if decide (r.serialConsistency ≠ 0) then encodeUint16 r.serialConsistency else []) ++
    (if r.sendsTimestamp version then encodeInt64 r.timestamp else [])))

def layout (version : Nat) (r : QueryRequest) : Bytes :=
  encodeLongString r.query ++ (encodeUint16 r.consistency ++ (encodeByte (r.flags version) ++
    ((if decide (r.elements.length > 0) then
      encodeUint16 r.namedValues.length ++ r.namedValues.flatMap encodeValue else []) ++
    r.options version)))

theorem reads_layout {version : Nat} {r : QueryRequest} (hversion : version ≠ 1)
    (hr : r.InRange) : Reads (Query.read version) (r.layout version) (r.sent version) := by
  obtain ⟨hflags, hbit0, hbit1, hbit2, hbit3, hbit4, hbit5, hbit6⟩ :=
    queryFlags_testBit (r.elements.length > 0) r.skipMetadata (r.pageSize > 0) (r.pagingState ≠ [])
      (r.serialConsistency ≠ 0) (r.sendsTimestamp version) r.hasNamesForValues
  unfold layout options Query.read
  apply (reads_longString hr.query).bind
  apply (reads_uint hr.consistency).bind
  rw [if_neg hversion]
  apply (reads_uint hflags).bind
  simp only [flags, hbit0, hbit1, hbit2, hbit3, hbit4, hbit5, hbit6]
  apply (reads_optional fun _ => reads_values hr).bind
  apply (reads_optional fun _ => reads_int32 hr.pageSize.1 hr.pageSize.2).bind
  apply (reads_optional fun _ => reads_longString hr.pagingState).bind
  apply (reads_optional fun _ => reads_uint hr.serialConsistency).bind
  rw [← List.append_nil (if r.sendsTimestamp version then encodeInt64 r.timestamp else [])]
  apply (reads_optional fun _ => reads_int64 hr.timestamp.1 hr.timestamp.2).bind
  have hvalues : (if decide (r.elements.length > 0) = true then some r.namedValues else none).getD
      [] = r.namedValues := by
    simp only [decide_eq_true_eq]
    split
    case isTrue => rfl
    case isFalse hnone =>
      have hnil : r.elements = [] := List.length_eq_zero_iff.mp (by omega)
      simp [namedValues, hnil]
  rw [hvalues, sent, if_neg hversion]
  simp only [decide_eq_true_eq]
  exact Reads.pure _

theorem fillBuffer_some {size : Nat} {bytes buffer : Bytes}
    (h : fillBuffer size bytes = some buffer) :
    bytes.length ≤ size ∧ buffer.length = size ∧ (bytes.length = size → buffer = bytes) := by
  unfold fillBuffer at h
  split at h
  case isTrue hle =>
    cases h
    refine ⟨hle, ?_, fun heq => ?_⟩
    · rw [List.length_append, List.length_replicate]
      omega
    · rw [heq, Nat.sub_self, List.replicate_zero, List.append_nil]
  case isFalse => cases h

theorem length_encodeLongString (s : Bytes) : (encodeLongString s).length = 4 + s.length := by
  rw [encodeLongString, List.length_append, encodeInt32, length_encodeInt]

/-- The options for paging fill their buffer, unless a page size of zero does
not fit into it. -/
theorem length_paging (version : Nat) (r : QueryRequest) :
    (r.paging version).length = r.pagingBufSize version + if r.pageSize = 0 then 4 else 0 := by
  have hint : ∀ i, (encodeInt32 i).length = 4 := length_encodeInt 4
  have huint : ∀ n, (encodeUint16 n).length = 2 := length_encodeUint 2
  have hlong : ∀ i, (encodeInt64 i).length = 8 := length_encodeInt 8
  simp only [paging, pagingBufSize, List.length_append, apply_ite List.length, hint, huint, hlong,
    List.length_nil]
  split_ifs <;> omega

theorem paging_eq {version : Nat} {r : QueryRequest} (hpage : r.pageSize ≠ 0) :
    r.paging version = r.options version := by
  have hsign : r.pageSize ≥ 0 ↔ r.pageSize > 0 := by omega
  simp only [paging, options, decide_eq_true_eq, hsign, encodeLongString, List.append_assoc]

theorem options_nil {version : Nat} {r : QueryRequest} (hsize : ¬ r.pagingBufSize version > 0) :
    r.options version = [] := by
  unfold pagingBufSize at hsize
  simp only [options, decide_eq_true_eq]
  split_ifs at hsize ⊢ <;> first | rfl | omega

/-- What is written is the layout, and its length is announced. -/
theorem internalEncode_layout {version n : Nat} {r : QueryRequest} {bytes : Bytes}
    (h : r.internalEncode version = some (.ok (n, bytes))) :
    n = bytes.length ∧ bytes = r.layout version := by
  simp only [internalEncode] at h
  split at h
  case h_1 | h_2 => cases h
  case h_3 count values hvalues =>
    obtain ⟨rfl, hcount⟩ := encodeValues_ok hvalues
    obtain ⟨query, hquery, hrest⟩ := Option.bind_eq_some_iff.mp h
    obtain ⟨hfits, hsize, hexact⟩ := fillBuffer_some hquery
    have hlength : (encodeLongString r.query ++ encodeUint16 r.consistency ++
        encodeByte (r.flags version) ++ count).length =
          4 + r.query.length + 2 + 1 + count.length := by
      simp only [List.length_append, length_encodeLongString, encodeUint16, encodeByte,
        length_encodeUint]
    -- names without values have no room for their number
    have hvalues' : query ++ r.namedValues.flatMap encodeValue =
        encodeLongString r.query ++ (encodeUint16 r.consistency ++ (encodeByte (r.flags version) ++
          (if decide (r.elements.length > 0) then
            encodeUint16 r.namedValues.length ++ r.namedValues.flatMap encodeValue else []))) := by
      simp only [decide_eq_true_eq]
      by_cases hsome : r.elements.length > 0
      · rw [decide_eq_true hsome, Bool.or_true, if_pos rfl] at hcount
        rw [if_pos hsome] at hexact ⊢
        rw [hexact (by rw [hlength, hcount, encodeUint16, length_encodeUint]), hcount]
        simp only [List.append_assoc]
      · rw [if_neg hsome] at hexact hfits ⊢
        rw [hlength] at hfits
        have hnil : count = [] := List.length_eq_zero_iff.mp (by omega)
        have helements : r.elements = [] := List.length_eq_zero_iff.mp (by omega)
        rw [hexact (by rw [hlength, hnil]; rfl), hnil]
        simp [namedValues, helements]
    split at hrest
    case isTrue =>
      obtain ⟨paging, hpaging, hreturn⟩ := Option.bind_eq_some_iff.mp hrest
      obtain ⟨hpagingFits, hpagingSize, hpagingExact⟩ := fillBuffer_some hpaging
      have hpage : r.pageSize ≠ 0 := by
        intro hzero
        rw [length_paging, if_pos hzero] at hpagingFits
        omega
      have hoptions := hpagingExact (by rw [length_paging, if_neg hpage, Nat.add_zero])
      rw [paging_eq hpage] at hoptions
      cases hreturn
      constructor
      · rw [List.length_append, List.length_append, hsize, hpagingSize]
      · rw [hvalues', hoptions, layout]
        simp only [List.append_assoc]
    case isFalse hnone =>
      cases hrest
      constructor
      · rw [List.length_append, hsize]
      · rw [hvalues', layout, options_nil hnone, List.append_nil]

/-- A statement that is written is read as it was sent, and as long as it was
announced. -/
theorem encode_reads {version n : Nat} {r : QueryRequest} {bytes : Bytes} (hr : r.InRange)
    (h : r.encode version = some (.ok (n, bytes))) :
    n = bytes.length ∧ Reads (Query.read version) bytes (r.sent version) := by
  unfold encode at h
  split at h
  case isTrue hversion =>
    obtain ⟨buffer, hbuffer, hreturn⟩ := Option.bind_eq_some_iff.mp h
    obtain ⟨-, hsize, hexact⟩ := fillBuffer_some hbuffer
    have hlength : (encodeLongString r.query ++ encodeUint16 r.consistency).length =
        4 + r.query.length + 2 := by
      simp only [List.length_append, length_encodeLongString, encodeUint16, length_encodeUint]
    have hwritten := hexact hlength
    cases hreturn
    refine ⟨hsize.symm, ?_⟩
    rw [hwritten, Query.read, sent, if_pos hversion]
    apply (reads_longString hr.query).bind
    rw [← List.append_nil (encodeUint16 r.consistency)]
    apply (reads_uint hr.consistency).bind
    rw [if_pos hversion]
    exact Reads.pure _
  case isFalse hversion =>
    obtain ⟨hlength, rfl⟩ := internalEncode_layout h
    exact ⟨hlength, reads_layout hversion hr⟩

end QueryRequest

theorem reads_stream {version stream : Nat}
    (hstream : stream < if version ≥ 3 then 2 ^ 15 else 2 ^ 7) :
    Reads (ResponseMessage.decodeStream version) (encodeStream version stream) stream := by
  unfold ResponseMessage.decodeStream encodeStream
  split at hstream
  case isTrue hversion =>
    rw [if_pos hversion, if_pos hversion]
    have hlow : -2 ^ 15 ≤ (stream : Int) := by omega
    have hhigh : (stream : Int) < 2 ^ 15 := by omega
    exact reads_int16 hlow hhigh
  case isFalse hversion =>
    rw [if_neg hversion, if_neg hversion]
    have hbyte : encodeByte stream = encodeInt 1 stream := by
      have hsame : BigEndian.unsigned 1 stream = stream := by
        simp only [BigEndian.unsigned]
        omega
      rw [encodeInt, hsame]
      rfl
    have hlow : -(256 ^ 1 : Nat) ≤ (stream : Int) * 2 := by omega
    have hhigh : (stream : Int) * 2 < (256 ^ 1 : Nat) := by omega
    rw [hbyte]
    exact reads_int hlow hhigh

open ResponseMessage in
/-- The whole frame: its header announces the body, under the stream that was
asked for, and the body is read as the statement that was sent. -/
theorem encodeFrame_reads {version stream n : Nat} {r : QueryRequest} {frame : Bytes}
    (hr : r.InRange) (hstream : stream < if version ≥ 3 then 2 ^ 15 else 2 ^ 7) (hn : n < 2 ^ 31)
    (h : encodeFrame version stream r = some (.ok (n, frame))) :
    n = frame.length ∧ ∃ header body hdr, frame = header ++ body ∧ Announces header hdr ∧
      hdr = ⟨0, stream, 0x07, body.length⟩ ∧ Reads (Query.read version) body (r.sent version) := by
  simp only [encodeFrame] at h
  split at h
  case isTrue => cases h
  case isFalse hversion =>
    split at h
    case h_1 | h_2 => cases h
    case h_3 length body hbody =>
      obtain ⟨rfl, hreads⟩ := QueryRequest.encode_reads hr hbody
      have hbytes : (encodeByte version ++ encodeByte 0 ++ encodeStream version stream ++
          encodeByte 0x07 ++ encodeInt32 body.length).length = headerSizeOf version := by
        have hlength : (encodeStream version stream).length = if version ≥ 3 then 2 else 1 := by
          unfold encodeStream
          split
          · exact length_encodeInt 2 _
          · exact length_encodeUint 1 _
        simp only [List.length_append, hlength, encodeByte, length_encodeUint, encodeInt32,
          length_encodeInt, headerSizeOf]
        split <;> rfl
      have hhead : versionOf (encodeByte version ++ encodeByte 0 ++ encodeStream version stream ++
          encodeByte 0x07 ++ encodeInt32 body.length) = version := by
        have hne : encodeByte version ≠ [] := List.cons_ne_nil _ _
        simp only [List.append_assoc]
        rw [versionOf_append hne]
        have hcases : version = 1 ∨ version = 2 ∨ version = 3 ∨ version = 4 := by omega
        rcases hcases with rfl | rfl | rfl | rfl <;> decide
      cases h
      refine ⟨by rw [List.length_append, hbytes, Nat.add_comm], _, body, _, rfl, ⟨?_, ?_, [], ?_⟩,
        rfl, hreads⟩
      · rw [hhead]
        omega
      · rw [hhead, hbytes]
      · rw [hhead]
        have hread := reads_header (show 0 < 256 by decide) (show 7 < 256 by decide)
          (show -2 ^ 31 ≤ (body.length : Int) by omega) (by omega) (reads_stream hstream) []
        simpa using hread

/-- A statement with one named value. -/
theorem encodeFrame_reads_named : ∃ n frame,
    n = frame.length ∧ ∃ header body hdr, frame = header ++ body ∧
      ResponseMessage.Announces header hdr ∧ hdr = ⟨0, 300, 0x07, body.length⟩ ∧
      Reads (Query.read 4) body
        ⟨[83], 1, false, [(some [97], .bytes [5])], none, none, none, none⟩ := by
  have hencode : encodeFrame 4 300 ⟨[83], 1, 0, -1, [], int64Min, false, true, [[97]],
      [.bytes [5]]⟩ = some (.ok (27, _)) := rfl
  exact ⟨27, _, encodeFrame_reads (by constructor <;> simp [int64Min]) (by decide) (by decide)
    hencode⟩

end Img2Web.Driver
