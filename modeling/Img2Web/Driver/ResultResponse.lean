import Img2Web.Driver.DataType
import Img2Web.Driver.HashTable

/-!
`ResultResponse`: the body of a result, and the rows in it, which are decoded
when they are asked for. The first row is decoded on its own; `ResultIterator`
goes through the others.
-/

namespace Img2Web.Driver

open Text Reader

/-- A null value has no data. -/
structure Value where
  protocolVersion : Nat
  dataType : DataType
  count : Int
  data : Option Bytes

namespace Value

def null : Value := ⟨0, .null, 0, none⟩

def isNull (v : Value) : Bool := v.data.isNone

def decodeSize (version : Nat) : Reader UInt8 Int :=
  if version ≥ 3 then decodeInt32 else (fun n => (n : Int)) <$> decodeUint16

def members : DataType → Nat
  | .tuple types => types.length
  | .userType _ _ fields => fields.length
  | _ => 0

/-- The constructor of a value. It looks into the type, and takes the number of
its elements off a collection. -/
def new (version : Nat) (type : DataType) (data : Bytes) : Option Value :=
  if type.isNull then none
  else if 0 < data.length ∧ type.isCollection then do
    let (count, data) ← (decodeSize version).run data
    return ⟨version, type, count, some data⟩
  else some ⟨version, type, members type, some data⟩

/-- `cass_value_get_string`; there may be no value. -/
def getString (v : Option Value) : Option Bytes := v.bind (·.data)

end Value

structure ColumnDefinition where
  name : Bytes
  keyspace : Bytes
  table : Bytes
  dataType : DataType

structure ResultMetadata where
  columns : List ColumnDefinition
  index : CaseInsensitiveHashTable

def ResultMetadata.new (columnCount : Nat) : ResultMetadata := ⟨[], .new columnCount⟩

def ResultMetadata.add (m : ResultMetadata) (column : ColumnDefinition) : Option ResultMetadata :=
  (m.index.add column.name).map fun index => ⟨m.columns ++ [column], index⟩

structure ResultResponse where
  protocolVersion : Nat
  kind : Int
  hasMorePages : Bool
  metadata : Option ResultMetadata
  resultMetadata : Option ResultMetadata
  pagingState : Bytes
  prepared : Bytes
  change : Bytes
  keyspace : Bytes
  table : Bytes
  rowCount : Int
  rows : Bytes
  firstRow : List Value
  pkIndices : List Nat

namespace ResultResponse

/-- A response that says no more yet than what it is. -/
def new (version : Nat) (kind : Int) : ResultResponse :=
  ⟨version, kind, false, none, none, [], [], [], [], [], 0, [], [], []⟩

/-- The columns that there are metadata for. -/
def columns (r : ResultResponse) : List ColumnDefinition := (r.metadata.map (·.columns)).getD []

def hasFlag (flags : Int) (flag : Int) : Bool := flags / flag % 2 = 1

/-- A keyspace and a table. -/
def decodeTableSpec : Reader UInt8 (Bytes × Bytes) := do
  let keyspace ← decodeString
  let table ← decodeString
  return (keyspace, table)

def decodeColumn (globalTableSpec : Bool) : Reader UInt8 ColumnDefinition := do
  let spec ← given (!globalTableSpec) decodeTableSpec ([], [])
  let name ← decodeString
  let dataType ← DataType.decode
  return ⟨name, spec.1, spec.2, dataType⟩

def decodeColumns (globalTableSpec : Bool) : Nat → ResultMetadata → Reader UInt8 ResultMetadata
  | 0, metadata => pure metadata
  | n + 1, metadata => do
      let column ← decodeColumn globalTableSpec
      let metadata ← StateT.lift (metadata.add column)
      decodeColumns globalTableSpec n metadata

/-- The memory for a negative number of columns cannot be had. -/
def decodeMetadata (r : ResultResponse) (metadata : Option ResultMetadata)
    (hasPkIndices : Bool) : Reader UInt8 (ResultResponse × Option ResultMetadata) := do
  let flags ← decodeInt32
  let columnCount ← decodeInt32
  let pkIndices ← given hasPkIndices (do many (← decodeInt32).toNat decodeUint16) []
  let pagingState ← given (hasFlag flags 2) ((·.getD []) <$> decodeBytes) r.pagingState
  let r := {r with
    pkIndices := r.pkIndices ++ pkIndices
    hasMorePages := hasFlag flags 2
    pagingState := pagingState}
  if hasFlag flags 4 then return (r, metadata)
  else if columnCount < 0 then failure
  else
    let spec ← given (hasFlag flags 1) decodeTableSpec (r.keyspace, r.table)
    let metadata ← decodeColumns (hasFlag flags 1) columnCount.toNat (.new columnCount.toNat)
    return ({r with keyspace := spec.1, table := spec.2}, some metadata)

def decodeRows (r : ResultResponse) (input : Bytes) : Option ResultResponse := do
  let ((r, metadata), input) ← (r.decodeMetadata r.metadata false).run input
  let (rowCount, input) ← decodeInt32.run input
  return {r with metadata := metadata, rowCount := rowCount, rows := input}

def decodeSetKeyspace (r : ResultResponse) (input : Bytes) : Option ResultResponse := do
  let (keyspace, _) ← decodeString.run input
  return {r with keyspace := keyspace}

def decodePrepared (r : ResultResponse) (version : Nat) (input : Bytes) :
    Option ResultResponse := do
  let (prepared, input) ← decodeString.run input
  let r := {r with prepared := prepared}
  let ((r, metadata), input) ← (r.decodeMetadata r.metadata (version ≥ 4)).run input
  let r := {r with metadata := metadata}
  if version > 1 then
    let ((r, metadata), _) ← (r.decodeMetadata r.resultMetadata false).run input
    return {r with resultMetadata := metadata}
  else return r

def decodeSchemaChange (r : ResultResponse) (input : Bytes) : Option ResultResponse := do
  let (change, input) ← decodeString.run input
  let (keyspace, input) ← decodeString.run input
  let (table, _) ← decodeString.run input
  return {r with change := change, keyspace := keyspace, table := table}

/-- No other kind is asserted. -/
def decode (version : Nat) (input : Bytes) : Option ResultResponse := do
  let (kind, input) ← decodeInt32.run input
  let r := new version kind
  if kind = 1 then return r
  else if kind = 2 then r.decodeRows input
  else if kind = 3 then r.decodeSetKeyspace input
  else if kind = 4 then r.decodePrepared version input
  else if kind = 5 then r.decodeSchemaChange input
  else none

def decodeValue (version : Nat) (type : DataType) : Reader UInt8 Value := do
  let size ← decodeInt32
  if size ≥ 0 then
    let data ← take size.toNat
    StateT.lift (Value.new version type data)
  else return Value.null

def decodeRow (r : ResultResponse) : Reader UInt8 (List Value) :=
  each (fun column => decodeValue r.protocolVersion column.dataType) r.columns

def decodeFirstRow (r : ResultResponse) : Option ResultResponse :=
  if r.rowCount > 0 then do
    let (row, rows) ← r.decodeRow.run r.rows
    return {r with firstRow := row, rows := rows}
  else some r

/-- `Row::get_by_name`. -/
def getByName (r : ResultResponse) (values : List Value) (name : Bytes) :
    Option (Option Value) := do
  let metadata ← r.metadata
  let indices ← metadata.index.getIndices name
  return indices.head?.bind (values[·]?)

end ResultResponse

structure ResultIterator where
  index : Int
  position : Bytes
  values : List Value

namespace ResultIterator

def new (r : ResultResponse) : ResultIterator := ⟨-1, r.rows, []⟩

/-- `none` inside is the end of the rows. -/
def next (r : ResultResponse) (it : ResultIterator) : Option (Option ResultIterator) :=
  if it.index + 1 ≥ r.rowCount then some none
  else if it.index + 1 > 0 then do
    let (values, position) ← r.decodeRow.run it.position
    return some ⟨it.index + 1, position, values⟩
  else some (some {it with index := it.index + 1})

def row (r : ResultResponse) (it : ResultIterator) : List Value :=
  if it.index > 0 then it.values else r.firstRow

/-- `while (cass_iterator_next(rows)) row = cass_iterator_get_row(rows)`. -/
def collect (r : ResultResponse) : Nat → ResultIterator → Option (List (List Value))
  | 0, _ => none
  | fuel + 1, it => do
      match ← it.next r with
      | none => return []
      | some it =>
          let values ← collect r fuel it
          return it.row r :: values

end ResultIterator

/-- A result that the client goes through. -/
def ResultResponse.allRows (r : ResultResponse) : Option (List (List Value)) :=
  (ResultIterator.new r).collect r (r.rowCount.toNat + 1)

end Img2Web.Driver
