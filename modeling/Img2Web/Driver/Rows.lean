import Mathlib.Data.List.Forall2
import Img2Web.Driver.ResultResponse
import Img2Web.Model.Client

/-!
A table of rows, as a server writes it, and what the client of the driver finds
in it: its rows in their order, and in each row its columns by name.
-/

namespace Img2Web.Driver

open Text Reader

/-- A result of kind ROWS. The columns share a keyspace and a table, or each
has its own. -/
structure Rows where
  globalTableSpec : Option (Bytes × Bytes)
  columns : List ColumnDefinition
  pagingState : Option Bytes
  cells : List (List (Option Bytes))

namespace Rows

def encodeColumn (globalTableSpec : Bool) (c : ColumnDefinition) : Bytes :=
  (if globalTableSpec then [] else encodeString c.keyspace ++ encodeString c.table) ++
    (encodeString c.name ++ c.dataType.encode)

def encodeCell : Option Bytes → Bytes
  | none => encodeInt32 (-1)
  | some data => encodeLongString data

def flags (t : Rows) : Int :=
  (if t.globalTableSpec.isSome then 1 else 0) + (if t.pagingState.isSome then 2 else 0)

def encodeMetadata (t : Rows) : Bytes :=
  encodeInt32 t.flags ++ (encodeInt32 t.columns.length ++
    (t.pagingState.elim [] encodeLongString ++
      (t.globalTableSpec.elim [] (fun spec => encodeString spec.1 ++ encodeString spec.2) ++
        t.columns.flatMap (encodeColumn t.globalTableSpec.isSome))))

def encodeCells (cells : List (List (Option Bytes))) : Bytes :=
  cells.flatMap fun row => row.flatMap encodeCell

def encode (t : Rows) : Bytes :=
  encodeInt32 2 ++ (t.encodeMetadata ++ (encodeInt32 t.cells.length ++ encodeCells t.cells))

/-- What the driver makes of a cell. -/
def cellValue (version : Nat) (type : DataType) : Option Bytes → Option Value
  | none => some Value.null
  | some data => Value.new version type data

def rowValues (version : Nat) : List ColumnDefinition → List (Option Bytes) → Option (List Value)
  | [], [] => some []
  | c :: cs, cell :: cells => do
      let value ← cellValue version c.dataType cell
      let values ← rowValues version cs cells
      return value :: values
  | _, _ => none

/-- The sizes fit their places, and no column of a global table names another. -/
structure Encodable (t : Rows) : Prop where
  columns : t.columns.length < 2 ^ 31
  rows : t.cells.length < 2 ^ 31
  names : ∀ c ∈ t.columns, c.name.length < 2 ^ 16
  types : ∀ c ∈ t.columns, c.dataType.Encodable
  keyspaces : ∀ c ∈ t.columns, c.keyspace.length < 2 ^ 16
  tables : ∀ c ∈ t.columns, c.table.length < 2 ^ 16
  globals : ∀ spec ∈ t.globalTableSpec, spec.1.length < 2 ^ 16 ∧ spec.2.length < 2 ^ 16 ∧
    ∀ c ∈ t.columns, c.keyspace = [] ∧ c.table = []
  pagingState : ∀ state ∈ t.pagingState, state.length < 2 ^ 31
  sizes : ∀ row ∈ t.cells, ∀ data, some data ∈ row → data.length < 2 ^ 31

theorem reads_cell {version : Nat} {type : DataType} {cell : Option Bytes} {value : Value}
    (hsize : ∀ data ∈ cell, data.length < 2 ^ 31)
    (hvalue : cellValue version type cell = some value) :
    Reads (ResultResponse.decodeValue version type) (encodeCell cell) value := by
  rw [ResultResponse.decodeValue]
  cases cell with
  | none =>
      obtain rfl := Option.some.inj hvalue
      exact (reads_int32 (i := -1) (by omega) (by omega)).ends (Reads.pure _)
  | some data =>
      have hlength := hsize data rfl
      rw [encodeCell, encodeLongString]
      apply (reads_int32 (by omega) (by omega)).bind
      rw [if_pos (by omega)]
      apply (reads_take (Int.toNat_natCast data.length).symm).ends
      exact Reads.lift hvalue

theorem reads_cells {version : Nat} {cs : List ColumnDefinition} {row : List (Option Bytes)}
    {values : List Value} (hsizes : ∀ data, some data ∈ row → data.length < 2 ^ 31)
    (hvalues : rowValues version cs row = some values) :
    Reads (each (fun c => ResultResponse.decodeValue version c.dataType) cs)
      (row.flatMap encodeCell) values := by
  induction cs generalizing row values with
  | nil =>
      cases row with
      | nil =>
          obtain rfl := Option.some.inj hvalues
          exact Reads.pure _
      | cons cell row => cases hvalues
  | cons c cs ih =>
      cases row with
      | nil => cases hvalues
      | cons cell row =>
          simp only [rowValues, Option.bind_eq_bind, Option.bind_eq_some_iff] at hvalues
          obtain ⟨value, hvalue, rest, hrest, heq⟩ := hvalues
          obtain rfl := Option.some.inj heq
          rw [each, List.flatMap_cons]
          apply (reads_cell (fun data hdata => hsizes data ?_) hvalue).bind
          · exact (ih (fun data hdata => hsizes data (List.mem_cons_of_mem _ hdata)) hrest).yield _
          · rw [Option.mem_def] at hdata
            rw [hdata]
            exact List.mem_cons_self

theorem reads_tableSpec {spec : Bytes × Bytes} (hkeyspace : spec.1.length < 2 ^ 16)
    (htable : spec.2.length < 2 ^ 16) :
    Reads ResultResponse.decodeTableSpec (encodeString spec.1 ++ encodeString spec.2) spec := by
  apply (reads_string hkeyspace).bind
  exact (reads_string htable).yield _

theorem reads_column {t : Rows} (ht : t.Encodable) {c : ColumnDefinition} (hc : c ∈ t.columns) :
    Reads (ResultResponse.decodeColumn t.globalTableSpec.isSome)
      (encodeColumn t.globalTableSpec.isSome c) c := by
  rw [ResultResponse.decodeColumn, encodeColumn]
  have hspec : Reads (given (!t.globalTableSpec.isSome) ResultResponse.decodeTableSpec ([], []))
      (if t.globalTableSpec.isSome then [] else encodeString c.keyspace ++ encodeString c.table)
      (c.keyspace, c.table) := by
    cases hglobal : t.globalTableSpec with
    | some spec =>
        obtain ⟨-, -, hnone⟩ := ht.globals spec hglobal
        obtain ⟨hkeyspace, htable⟩ := hnone c hc
        rw [hkeyspace, htable]
        exact Reads.pure _
    | none =>
        have hown := @reads_tableSpec (c.keyspace, c.table) (ht.keyspaces c hc) (ht.tables c hc)
        exact hown
  apply hspec.bind
  apply (reads_string (ht.names c hc)).bind
  exact (DataType.reads_decode (ht.types c hc)).yield _

/-- The columns are added to the metadata one by one. -/
theorem reads_columns {t : Rows} (ht : t.Encodable) {cs : List ColumnDefinition}
    (hcs : ∀ c ∈ cs, c ∈ t.columns) {m : ResultMetadata} {index : CaseInsensitiveHashTable}
    (hindex : m.index.addAll (cs.map (·.name)) = some index) :
    Reads (ResultResponse.decodeColumns t.globalTableSpec.isSome cs.length m)
      (cs.flatMap (encodeColumn t.globalTableSpec.isSome)) ⟨m.columns ++ cs, index⟩ := by
  induction cs generalizing m with
  | nil =>
      obtain rfl := Option.some.inj hindex
      rw [List.append_nil]
      exact Reads.pure _
  | cons c cs ih =>
      rw [List.map_cons, CaseInsensitiveHashTable.addAll, Option.bind_eq_bind,
        Option.bind_eq_some_iff] at hindex
      obtain ⟨added, hadded, hrest⟩ := hindex
      rw [List.length_cons, ResultResponse.decodeColumns, List.flatMap_cons]
      apply (reads_column ht (hcs c List.mem_cons_self)).bind
      have hadd : m.add c = some ⟨m.columns ++ [c], added⟩ := by
        rw [ResultMetadata.add, hadded, Option.map_some]
      have htail := ih (m := ⟨m.columns ++ [c], added⟩)
        (fun d hd => hcs d (List.mem_cons_of_mem c hd)) hrest
      rw [List.append_assoc, List.singleton_append] at htail
      exact (Reads.lift hadd).bind htail

theorem hasFlag_global (t : Rows) :
    ResultResponse.hasFlag t.flags 1 = t.globalTableSpec.isSome := by
  cases hglobal : t.globalTableSpec <;> cases hpaging : t.pagingState <;>
    simp [flags, hglobal, hpaging, ResultResponse.hasFlag]

theorem hasFlag_paging (t : Rows) :
    ResultResponse.hasFlag t.flags 2 = t.pagingState.isSome := by
  cases hglobal : t.globalTableSpec <;> cases hpaging : t.pagingState <;>
    simp [flags, hglobal, hpaging, ResultResponse.hasFlag]

theorem hasFlag_noMetadata (t : Rows) : ResultResponse.hasFlag t.flags 4 = false := by
  cases hglobal : t.globalTableSpec <;> cases hpaging : t.pagingState <;>
    simp [flags, hglobal, hpaging, ResultResponse.hasFlag]

theorem flags_bounds (t : Rows) : 0 ≤ t.flags ∧ t.flags ≤ 3 := by
  rw [flags]
  split_ifs <;> omega

theorem reads_pagingState {t : Rows} (ht : t.Encodable) (state : Bytes) :
    Reads (given t.pagingState.isSome ((·.getD []) <$> decodeBytes) state)
      (t.pagingState.elim [] encodeLongString) (t.pagingState.getD state) := by
  cases hpaging : t.pagingState with
  | none => exact Reads.pure _
  | some data =>
      have hlength := ht.pagingState data hpaging
      have hbytes : Reads decodeBytes (encodeLongString data) (some data) := by
        apply (reads_int32 (by omega) (by omega)).bind
        rw [if_neg (by omega)]
        exact (reads_take (Int.toNat_natCast data.length).symm).map some
      exact hbytes.map (·.getD [])

theorem reads_metadata {t : Rows} (ht : t.Encodable) (r : ResultResponse)
    (metadata : Option ResultMetadata) {index : CaseInsensitiveHashTable}
    (hindex : (CaseInsensitiveHashTable.new t.columns.length).addAll (t.columns.map (·.name)) =
      some index) :
    Reads (r.decodeMetadata metadata false) t.encodeMetadata
      ({r with
        pkIndices := r.pkIndices ++ []
        hasMorePages := t.pagingState.isSome
        pagingState := t.pagingState.getD r.pagingState
        keyspace := (t.globalTableSpec.getD (r.keyspace, r.table)).1
        table := (t.globalTableSpec.getD (r.keyspace, r.table)).2},
        some ⟨t.columns, index⟩) := by
  have hflags := t.flags_bounds
  have hcount := ht.columns
  rw [ResultResponse.decodeMetadata, encodeMetadata]
  apply (reads_int32 (by omega) (by omega)).bind
  apply (reads_int32 (by omega) (by omega)).bind
  have hnone : Reads (given false (do many (← decodeInt32).toNat decodeUint16) []) [] [] :=
    Reads.pure []
  apply hnone.bind
  rw [hasFlag_paging, hasFlag_noMetadata, hasFlag_global]
  apply (reads_pagingState ht r.pagingState).bind
  rw [if_neg (by decide), if_neg (by omega), Int.toNat_natCast]
  have hspec : Reads (given t.globalTableSpec.isSome ResultResponse.decodeTableSpec
      (r.keyspace, r.table))
      (t.globalTableSpec.elim [] fun spec => encodeString spec.1 ++ encodeString spec.2)
      (t.globalTableSpec.getD (r.keyspace, r.table)) := by
    cases hglobal : t.globalTableSpec with
    | none => exact Reads.pure _
    | some spec =>
        obtain ⟨hkeyspace, htable, -⟩ := ht.globals spec hglobal
        have hread := reads_tableSpec hkeyspace htable
        exact hread
  apply hspec.bind
  exact (reads_columns ht (m := .new t.columns.length) (fun _ hc => hc) hindex).yield _

theorem encodeCells_cons (row : List (Option Bytes)) (cells : List (List (Option Bytes))) :
    encodeCells (row :: cells) = row.flatMap encodeCell ++ encodeCells cells :=
  List.flatMap_cons

/-- The rows behind the one that the iterator is at. -/
theorem collect_rows {r : ResultResponse} {cells : List (List (Option Bytes))}
    {values : List (List Value)}
    (hsizes : ∀ row ∈ cells, ∀ data, some data ∈ row → data.length < 2 ^ 31)
    (hvalues : List.Forall₂ (fun row vs =>
      rowValues r.protocolVersion r.columns row = some vs) cells values)
    {fuel : Nat} (hfuel : cells.length < fuel) {it : ResultIterator} (hstarted : 0 ≤ it.index)
    (hcount : r.rowCount = it.index + 1 + cells.length) (hat : it.position = encodeCells cells) :
    it.collect r fuel = some values := by
  induction hvalues generalizing fuel it with
  | nil =>
      obtain ⟨fuel, rfl⟩ := Nat.exists_eq_succ_of_ne_zero (Nat.ne_of_gt hfuel)
      rw [List.length_nil, Int.natCast_zero, Int.add_zero] at hcount
      rw [ResultIterator.collect, ResultIterator.next, if_pos (by omega)]
      rfl
  | @cons row vs cells values hrow hrest ih =>
      obtain ⟨fuel, rfl⟩ := Nat.exists_eq_succ_of_ne_zero (Nat.ne_zero_of_lt hfuel)
      rw [List.length_cons] at hcount hfuel
      have hread := reads_cells (hsizes row List.mem_cons_self) hrow (encodeCells cells)
      have hnext : it.next r = some (some ⟨it.index + 1, encodeCells cells, vs⟩) := by
        rw [ResultIterator.next, if_neg (by omega), if_pos (by omega), hat, encodeCells_cons,
          ResultResponse.decodeRow, hread]
        rfl
      have htail := @ih (fun row hrow => hsizes row (List.mem_cons_of_mem _ hrow)) fuel (by omega)
        ⟨it.index + 1, encodeCells cells, vs⟩ (Int.le_add_one hstarted)
        (by simp only; omega) rfl
      rw [ResultIterator.collect, hnext]
      simp only [Option.bind_eq_bind, Option.bind_some, htail]
      rw [ResultIterator.row, if_pos (by simp only; omega)]
      rfl

theorem decode_kind (version : Nat) {kind : Int} (hkind : kind = 2) (input : Bytes) :
    ResultResponse.decode version (encodeInt32 kind ++ input) =
      (ResultResponse.new version kind).decodeRows input := by
  have hread := reads_int32 (i := kind) (by omega) (by omega)
  rw [ResultResponse.decode, hread]
  change (if kind = 1 then _ else if kind = 2 then _ else _) = _
  rw [if_neg (by omega), if_pos hkind]

theorem decodeRows_eq {r s : ResultResponse} {metadata : Option ResultMetadata}
    {input rest rows : Bytes} {rowCount : Int}
    (hmetadata : (r.decodeMetadata r.metadata false).run input = some ((s, metadata), rest))
    (hcount : decodeInt32.run rest = some (rowCount, rows)) :
    r.decodeRows input =
      some {s with metadata := metadata, rowCount := rowCount, rows := rows} := by
  rw [ResultResponse.decodeRows, hmetadata]
  simp only [Option.bind_eq_bind, Option.bind_some, hcount]
  rfl

theorem decode_encode {t : Rows} (ht : t.Encodable) (version : Nat)
    {index : CaseInsensitiveHashTable}
    (hindex : (CaseInsensitiveHashTable.new t.columns.length).addAll (t.columns.map (·.name)) =
      some index) :
    ResultResponse.decode version t.encode = some
      {ResultResponse.new version 2 with
        hasMorePages := t.pagingState.isSome
        metadata := some ⟨t.columns, index⟩
        pagingState := t.pagingState.getD []
        keyspace := (t.globalTableSpec.getD ([], [])).1
        table := (t.globalTableSpec.getD ([], [])).2
        rowCount := t.cells.length
        rows := encodeCells t.cells} := by
  have hrows := ht.rows
  have hcount := reads_int32 (i := t.cells.length) (by omega) (by omega)
  have hmetadata := reads_metadata ht (ResultResponse.new version 2) none hindex
  rw [encode, decode_kind version rfl, decodeRows_eq (hmetadata _) (hcount _)]
  rfl

/-- The client finds the rows. -/
theorem allRows_first {r : ResultResponse} {cells : List (List (Option Bytes))}
    {values : List (List Value)}
    (hsizes : ∀ row ∈ cells, ∀ data, some data ∈ row → data.length < 2 ^ 31)
    (hvalues : List.Forall₂ (fun row vs =>
      rowValues r.protocolVersion r.columns row = some vs) cells values)
    (hcount : r.rowCount = cells.length) (hat : r.rows = encodeCells cells) :
    ∃ row rows, r.decodeFirstRow = some {r with firstRow := row, rows := rows} ∧
      {r with firstRow := row, rows := rows}.allRows = some values := by
  cases hvalues with
  | nil =>
      rw [List.length_nil, Int.natCast_zero] at hcount
      refine ⟨r.firstRow, r.rows, ?_, ?_⟩
      · rw [ResultResponse.decodeFirstRow, if_neg (by omega)]
      · change (ResultIterator.new r).collect r (r.rowCount.toNat + 1) = _
        rw [ResultIterator.collect, ResultIterator.next,
          if_pos (show (ResultIterator.new r).index + 1 ≥ r.rowCount by
            rw [hcount]
            exact Int.le_refl 0)]
        rfl
  | @cons row vs cells values hrow hrest =>
      rw [List.length_cons] at hcount
      have hread := reads_cells (hsizes row List.mem_cons_self) hrow (encodeCells cells)
      refine ⟨vs, encodeCells cells, ?_, ?_⟩
      · rw [ResultResponse.decodeFirstRow, if_pos (by omega), hat, encodeCells_cons,
          ResultResponse.decodeRow, hread]
        rfl
      · have htail := @collect_rows {r with firstRow := vs, rows := encodeCells cells} cells values
          (fun row hrow => hsizes row (List.mem_cons_of_mem _ hrow)) hrest (cells.length + 1)
          (Nat.lt_succ_self _) ⟨0, encodeCells cells, []⟩ (Int.le_refl 0)
          (by simp only; omega) rfl
        have hfuel : r.rowCount.toNat = cells.length + 1 := by omega
        have hnext : (ResultIterator.new {r with firstRow := vs, rows := encodeCells cells}).next
            {r with firstRow := vs, rows := encodeCells cells} =
              some (some ⟨0, encodeCells cells, []⟩) := by
          rw [ResultIterator.next, if_neg, if_neg]
          · rfl
          · exact Int.lt_irrefl 0
          · change ¬(-1 + 1 ≥ r.rowCount)
            omega
        rw [ResultResponse.allRows, hfuel, ResultIterator.collect, hnext]
        simp only [Option.bind_eq_bind, Option.bind_some, htail]
        rfl

/-- The value of the first column with the name. -/
def named (t : Rows) (values : List Value) (name : Bytes) : Option (Option Value) :=
  (CaseInsensitiveHashTable.indicesOf (t.columns.map (·.name)) name).map
    fun indices => indices.head?.bind (values[·]?)

/-- A result is read as it was written: the rows in their order, and in each
of them the values by name. -/
theorem rows_read (version : Nat) {t : Rows} (ht : t.Encodable) {values : List (List Value)}
    (hvalues : List.Forall₂ (fun row vs => rowValues version t.columns row = some vs)
      t.cells values) :
    ∃ r, ((ResultResponse.decode version t.encode).bind (·.decodeFirstRow)) = some r ∧
      r.allRows = some values ∧
        r.hasMorePages = t.pagingState.isSome ∧ r.pagingState = t.pagingState.getD [] ∧
          ∀ vs name, r.getByName vs name = t.named vs name := by
  have hcolumns := ht.columns
  obtain ⟨index, hindex, hindices⟩ := CaseInsensitiveHashTable.new_addAll hcolumns
    (show (t.columns.map (·.name)).length < 2 ^ 31 by rwa [List.length_map])
    (by left; rw [List.length_map]; exact le_max_left _ _)
  rw [decode_encode ht version hindex, Option.bind_some]
  obtain ⟨row, rows, hfirst, hall⟩ := @allRows_first
    {ResultResponse.new version 2 with
      hasMorePages := t.pagingState.isSome
      metadata := some ⟨t.columns, index⟩
      pagingState := t.pagingState.getD []
      keyspace := (t.globalTableSpec.getD ([], [])).1
      table := (t.globalTableSpec.getD ([], [])).2
      rowCount := t.cells.length
      rows := encodeCells t.cells} t.cells values ht.sizes hvalues rfl rfl
  refine ⟨_, hfirst, hall, rfl, rfl, fun vs name => ?_⟩
  simp only [ResultResponse.getByName, Option.bind_eq_bind, Option.bind_some, hindices, named]
  rw [Option.map_eq_bind]
  rfl

def loginRows : Rows where
  globalTableSpec := none
  columns := [⟨bytes "login", bytes "img2web", bytes "users", .plain 0x0D⟩,
    ⟨bytes "pair", bytes "img2web", bytes "users", .tuple [.plain 0x09, .plain 0x0D]⟩]
  pagingState := some [1]
  cells := [[some (bytes "ann"), none], [some (bytes "bob"), some [0, 0]]]

theorem rows_read_logins :
    ∃ r, ((ResultResponse.decode 3 loginRows.encode).bind (·.decodeFirstRow)) = some r ∧
      r.allRows = some [[⟨3, .plain 0x0D, 0, some (bytes "ann")⟩, Value.null],
        [⟨3, .plain 0x0D, 0, some (bytes "bob")⟩,
          ⟨3, .tuple [.plain 0x09, .plain 0x0D], 2, some [0, 0]⟩]] ∧
        r.hasMorePages = true ∧ r.pagingState = [1] ∧
          ∀ vs name, r.getByName vs name = loginRows.named vs name := by
  have hplain : DataType.Encodable (.plain 0x0D) := .plain (by decide) (by decide)
  have hpair : DataType.Encodable (.tuple [.plain 0x09, .plain 0x0D]) := by
    apply DataType.Encodable.tuple (by decide)
    simp only [List.forall_mem_cons]
    exact ⟨.plain (by decide) (by decide), hplain, by simp⟩
  have hencodable : loginRows.Encodable := by
    constructor
    case types =>
      simp only [loginRows, List.forall_mem_cons]
      exact ⟨hplain, hpair, by simp⟩
    case globals => simp [loginRows]
    case pagingState => simp [loginRows]
    case sizes => simp [loginRows]; decide
    all_goals decide
  exact rows_read 3 hencodable (.cons rfl (.cons rfl .nil))

/-- To look for the first place of a name is to look for the first pair. -/
theorem range_find_bind (p : Bytes → Bool) (ps : List (Bytes × Value)) :
    ((List.range ps.length).find? fun i => p ((ps.map (·.1)).getD i [])).bind
      (fun i => (ps.map (·.2))[i]?) = (ps.find? fun q => p q.1).map (·.2) := by
  induction ps with
  | nil => rfl
  | cons q ps ih =>
      rw [List.length_cons, List.range_succ_eq_map, List.find?_cons, List.find?_cons,
        List.map_cons, List.map_cons, List.getD_cons_zero]
      cases p q.1 with
      | true => rfl
      | false =>
          rw [List.find?_map]
          simp only [Function.comp_def, Nat.succ_eq_add_one, List.getD_cons_succ]
          rw [Option.bind_map, ← ih]
          rfl

/-- The server's answer to a query of the service. -/
def ofReply (spec : Bytes × Bytes) (columns : List Column) (rows : List CassRow) : Rows where
  globalTableSpec := some spec
  columns := columns.map fun column => ⟨bytes column.name, [], [], .plain 0x0D⟩
  pagingState := none
  cells := rows.map fun row => row.map fun entry => some entry.2

theorem iequals_name (column other : Column) :
    iequals (bytes column.name) (bytes other.name) = decide (column = other) := by
  cases column <;> cases other <;> decide

theorem columnByName_eq (row : CassRow) (column : Column) :
    columnByName row column = (row.find? fun entry => decide (column = entry.1)).map (·.2) := by
  rw [columnByName]
  induction row with
  | nil => rfl
  | cons entry row ih =>
      obtain ⟨first, data⟩ := entry
      rw [List.lookup_cons, List.find?_cons]
      by_cases hfirst : column = first
      · simp [hfirst]
      · rw [beq_eq_false_iff_ne.mpr hfirst, decide_eq_false hfirst, ih]

def loginValue (version : Nat) (data : Bytes) : Value := ⟨version, .plain 0x0D, 0, some data⟩

theorem rowValues_reply (version : Nat) (row : CassRow) :
    rowValues version ((row.map (·.1)).map fun column => ⟨bytes column.name, [], [], .plain 0x0D⟩)
      (row.map fun entry => some entry.2) =
        some (row.map fun entry => loginValue version entry.2) := by
  induction row with
  | nil => rfl
  | cons entry row ih =>
      have hvalue : cellValue version (.plain 0x0D) (some entry.2) =
          some (loginValue version entry.2) := by
        simp [cellValue, Value.new, DataType.isNull, DataType.isCollection, Value.members,
          loginValue]
      simp only [List.map_cons, rowValues, hvalue, ih, Option.bind_eq_bind, Option.bind_some]
      rfl

theorem named_reply (version : Nat) {spec : Bytes × Bytes} {columns : List Column}
    {rows : List CassRow} {row : CassRow} (hrow : row.map (·.1) = columns) (column : Column) :
    ((ofReply spec columns rows).named (row.map fun entry => loginValue version entry.2)
      (bytes column.name)).map Value.getString = some (columnByName row column) := by
  have hplain :
      ¬((bytes column.name).head? = some 34 ∧ (bytes column.name).getLast? = some 34) := by
    cases column <;> decide
  have hfind := range_find_bind (iequals (bytes column.name))
    (row.map fun entry => (bytes entry.1.name, loginValue version entry.2))
  have hnames : (ofReply spec columns rows).columns.map (·.name) =
      row.map fun entry => bytes entry.1.name := by
    rw [ofReply, ← hrow, List.map_map, List.map_map]
    rfl
  simp only [List.map_map, List.length_map, List.find?_map, Function.comp_def, Option.map_map,
    iequals_name] at hfind
  rw [named, CaseInsensitiveHashTable.indicesOf, if_neg hplain, hnames, List.length_map,
    Option.map_some, Option.map_some, List.head?_filter, hfind, columnByName_eq]
  cases row.find? fun entry => decide (column = entry.1) with
  | none => rfl
  | some entry => rfl

/-- A reply that the client of the service goes through is what the driver
finds in the server's answer: each row, and each column of it by its name. -/
theorem reply_read (version : Nat) (spec : Bytes × Bytes) (columns : List Column)
    (rows : List CassRow) (hspec : spec.1.length < 2 ^ 16 ∧ spec.2.length < 2 ^ 16)
    (hcolumns : columns.length < 2 ^ 31) (hrows : rows.length < 2 ^ 31)
    (hshape : ∀ row ∈ rows, row.map (·.1) = columns)
    (hsizes : ∀ row ∈ rows, ∀ entry ∈ row, entry.2.length < 2 ^ 31) :
    ∃ r values, (ResultResponse.decode version (ofReply spec columns rows).encode).bind
        (·.decodeFirstRow) = some r ∧ r.allRows = some values ∧
      List.Forall₂ (fun row vs => ∀ column,
        (r.getByName vs (bytes column.name)).map Value.getString =
          some (columnByName row column)) rows values := by
  have hencodable : (ofReply spec columns rows).Encodable := by
    constructor
    case columns => simpa [ofReply] using hcolumns
    case rows => simpa [ofReply] using hrows
    case globals => simpa [ofReply] using hspec
    case pagingState => simp [ofReply]
    case sizes =>
      intro cells hcells data hdata
      obtain ⟨row, hrow, rfl⟩ := List.mem_map.mp hcells
      obtain ⟨entry, hentry, heq⟩ := List.mem_map.mp hdata
      obtain rfl := Option.some.inj heq
      exact hsizes row hrow entry hentry
    all_goals
      intro c hc
      obtain ⟨column, -, rfl⟩ := List.mem_map.mp hc
    case names => cases column <;> decide
    case types => exact .plain (by decide) (by decide)
    case keyspaces => exact Nat.two_pow_pos 16
    case tables => exact Nat.two_pow_pos 16
  have hvalues : List.Forall₂ (fun row vs =>
      rowValues version (ofReply spec columns rows).columns row = some vs)
      (ofReply spec columns rows).cells
      (rows.map fun row => row.map fun entry => loginValue version entry.2) := by
    rw [ofReply, List.forall₂_map_left_iff, List.forall₂_map_right_iff, List.forall₂_same]
    intro row hrow
    rw [← hshape row hrow]
    exact rowValues_reply version row
  obtain ⟨r, hr, hall, -, -, hnamed⟩ := rows_read version hencodable hvalues
  refine ⟨r, _, hr, hall, ?_⟩
  rw [List.forall₂_map_right_iff, List.forall₂_same]
  intro row hrow column
  rw [hnamed]
  exact named_reply version (hshape row hrow) column

theorem reply_read_logins :
    ∃ r values, (ResultResponse.decode 4
        (ofReply (bytes "img2web", bytes "users") [.login]
          [[(.login, bytes "ann")], [(.login, bytes "bob")]]).encode).bind
        (·.decodeFirstRow) = some r ∧ r.allRows = some values ∧
      List.Forall₂ (fun row vs => ∀ column,
        (r.getByName vs (bytes column.name)).map Value.getString =
          some (columnByName row column))
        [[(.login, bytes "ann")], [(.login, bytes "bob")]] values :=
  reply_read 4 (bytes "img2web", bytes "users") [.login] _ (by decide) (by decide) (by decide)
    (by decide) (by decide)

end Rows

end Img2Web.Driver
