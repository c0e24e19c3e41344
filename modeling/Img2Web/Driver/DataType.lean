import Img2Web.Driver.Serialization

/-!
The types of columns, as `DataTypeDecoder` reads them from the metadata of a
result. Types nest: each level takes two bytes at least, so the bytes there are
bound the recursion.
-/

namespace Img2Web.Driver

open Text Reader

/-- A pointer to a type, which is null for a type that is not known. -/
inductive DataType where
  | null
  | plain (valueType : Nat)
  | custom (className : Bytes)
  | collection (valueType : Nat) (types : List DataType)
  | userType (keyspace typeName : Bytes) (fields : List (Bytes × DataType))
  | tuple (types : List DataType)

namespace DataType

def isCollection : DataType → Bool
  | .collection _ _ => true
  | _ => false

def isNull : DataType → Bool
  | .null => true
  | _ => false

/-- `DataTypeDecoder::decode`. Lists are 0x20, maps 0x21 and sets 0x22, user
types 0x30 and tuples 0x31. -/
def decodeFrom : Nat → Reader UInt8 DataType
  | 0 => failure
  | fuel + 1 => do
      let valueType ← decodeUint16
      if valueType = 0 then return .custom (← decodeString)
      else if valueType = 0x20 ∨ valueType = 0x22 then
        return .collection valueType [← decodeFrom fuel]
      else if valueType = 0x21 then
        let key ← decodeFrom fuel
        let value ← decodeFrom fuel
        return .collection valueType [key, value]
      else if valueType = 0x30 then
        let keyspace ← decodeString
        let typeName ← decodeString
        let n ← decodeUint16
        let fields ← many n do
          let name ← decodeString
          let type ← decodeFrom fuel
          return (name, type)
        return .userType keyspace typeName fields
      else if valueType = 0x31 then
        let n ← decodeUint16
        let types ← many n (decodeFrom fuel)
        return .tuple types
      else return if valueType < 0x32 then .plain valueType else .null

def decode : Reader UInt8 DataType := fun input => decodeFrom input.length input

/-- Types as the protocol writes them. -/
inductive Encodable : DataType → Prop where
  | plain {valueType : Nat} : valueType ∉ [0, 0x20, 0x21, 0x22, 0x30, 0x31] →
      valueType < 0x32 → Encodable (.plain valueType)
  | custom {className : Bytes} : className.length < 2 ^ 16 → Encodable (.custom className)
  | elements {valueType : Nat} {type : DataType} : valueType = 0x20 ∨ valueType = 0x22 →
      Encodable type → Encodable (.collection valueType [type])
  | map {key value : DataType} : Encodable key → Encodable value →
      Encodable (.collection 0x21 [key, value])
  | userType {keyspace typeName : Bytes} {fields : List (Bytes × DataType)} :
      keyspace.length < 2 ^ 16 → typeName.length < 2 ^ 16 → fields.length < 2 ^ 16 →
      (∀ field ∈ fields, field.1.length < 2 ^ 16) → (∀ field ∈ fields, Encodable field.2) →
      Encodable (.userType keyspace typeName fields)
  | tuple {types : List DataType} : types.length < 2 ^ 16 →
      (∀ type ∈ types, Encodable type) → Encodable (.tuple types)

mutual

def encode : DataType → Bytes
  | .null => encodeUint16 0x32
  | .plain valueType => encodeUint16 valueType
  | .custom className => encodeUint16 0 ++ encodeString className
  | .collection valueType types => encodeUint16 valueType ++ encodeTypes types
  | .userType keyspace typeName fields =>
      encodeUint16 0x30 ++ (encodeString keyspace ++ (encodeString typeName ++
        (encodeUint16 fields.length ++ encodeFields fields)))
  | .tuple types => encodeUint16 0x31 ++ (encodeUint16 types.length ++ encodeTypes types)

def encodeTypes : List DataType → Bytes
  | [] => []
  | type :: types => encode type ++ encodeTypes types

def encodeFields : List (Bytes × DataType) → Bytes
  | [] => []
  | (name, type) :: fields => (encodeString name ++ encode type) ++ encodeFields fields

end

theorem encodeTypes_eq (types : List DataType) : encodeTypes types = types.flatMap encode := by
  induction types with
  | nil => rw [encodeTypes, List.flatMap_nil]
  | cons type types ih => rw [encodeTypes, List.flatMap_cons, ih]

theorem encodeFields_eq (fields : List (Bytes × DataType)) :
    encodeFields fields = fields.flatMap fun field => encodeString field.1 ++ encode field.2 := by
  induction fields with
  | nil => rw [encodeFields, List.flatMap_nil]
  | cons field fields ih =>
      obtain ⟨name, type⟩ := field
      rw [encodeFields, List.flatMap_cons, ih]

theorem length_le_flatMap {α : Type} (f : α → Bytes) {x : α} {xs : List α} (hx : x ∈ xs) :
    (f x).length ≤ (xs.flatMap f).length := by
  induction xs with
  | nil => cases hx
  | cons y ys ih =>
      rw [List.flatMap_cons, List.length_append]
      rcases List.mem_cons.mp hx with rfl | hmem
      · omega
      · have := ih hmem
        omega

theorem length_encodeUint16 (n : Nat) : (encodeUint16 n).length = 2 := length_encodeUint 2 n

theorem fuel_succ {type : DataType} {fuel : Nat} (hfuel : (encode type).length ≤ fuel) :
    ∃ n, fuel = n + 1 := by
  apply Nat.exists_eq_succ_of_ne_zero
  cases type <;>
    (simp only [encode, List.length_append, length_encodeUint16] at hfuel; omega)

/-- A type is read back from its bytes if the recursion may go as deep as
there are bytes. -/
theorem Encodable.reads {type : DataType} (htype : Encodable type) {fuel : Nat}
    (hfuel : (encode type).length ≤ fuel) : Reads (decodeFrom fuel) (encode type) type := by
  induction htype generalizing fuel with
  | @plain valueType hplain hknown =>
      obtain ⟨fuel, rfl⟩ := fuel_succ hfuel
      rw [decodeFrom, encode, ← List.append_nil (encodeUint16 valueType)]
      apply (reads_uint (k := 2) (by omega)).bind
      simp only [List.mem_cons, List.not_mem_nil, or_false, not_or] at hplain
      obtain ⟨hcustom, hlist, hmap, hset, huser, htuple⟩ := hplain
      rw [if_neg hcustom, if_neg (not_or.mpr ⟨hlist, hset⟩), if_neg hmap, if_neg huser,
        if_neg htuple, if_pos hknown]
      exact Reads.pure _
  | custom hname =>
      obtain ⟨fuel, rfl⟩ := fuel_succ hfuel
      rw [decodeFrom, encode]
      apply (reads_uint (k := 2) (by omega)).bind
      exact (reads_string hname).yield _
  | @elements valueType type hvalue htype ih =>
      obtain ⟨fuel, rfl⟩ := fuel_succ hfuel
      rw [encode, encodeTypes, encodeTypes, List.length_append, List.append_nil,
        length_encodeUint16] at hfuel
      rw [decodeFrom, encode, encodeTypes, encodeTypes, List.append_nil]
      apply (reads_uint (k := 2) (by omega)).bind
      rw [if_neg (by omega), if_pos hvalue]
      exact (@ih fuel (by omega)).yield _
  | map hkey hvalue ihkey ihvalue =>
      obtain ⟨fuel, rfl⟩ := fuel_succ hfuel
      rw [encode, encodeTypes, encodeTypes, encodeTypes, List.length_append, List.append_nil,
        List.length_append, length_encodeUint16] at hfuel
      rw [decodeFrom, encode, encodeTypes, encodeTypes, encodeTypes, List.append_nil]
      apply (reads_uint (k := 2) (by omega)).bind
      apply (@ihkey fuel (by omega)).bind
      exact (@ihvalue fuel (by omega)).yield _
  | @userType keyspace typeName fields hkeyspace hname hlength hnames htypes ih =>
      obtain ⟨fuel, rfl⟩ := fuel_succ hfuel
      rw [encode, List.length_append, List.length_append, List.length_append, List.length_append,
        length_encodeUint16, encodeFields_eq] at hfuel
      rw [decodeFrom, encode, encodeFields_eq]
      apply (reads_uint (k := 2) (by omega)).bind
      apply (reads_string hkeyspace).bind
      apply (reads_string hname).bind
      apply (reads_uint (k := 2) hlength).bind
      apply Reads.yield
      apply reads_many
      intro field hfield
      have hfits := length_le_flatMap (fun field => encodeString field.1 ++ encode field.2) hfield
      rw [List.length_append] at hfits
      apply (reads_string (hnames field hfield)).bind
      exact (ih field hfield (by omega)).yield _
  | @tuple types hlength htypes ih =>
      obtain ⟨fuel, rfl⟩ := fuel_succ hfuel
      rw [encode, List.length_append, List.length_append, length_encodeUint16,
        encodeTypes_eq] at hfuel
      rw [decodeFrom, encode, encodeTypes_eq]
      apply (reads_uint (k := 2) (by omega)).bind
      apply (reads_uint (k := 2) hlength).bind
      apply Reads.yield
      apply reads_many
      intro type htype
      have hfits := length_le_flatMap encode htype
      exact ih type htype (by omega)

theorem reads_decode {type : DataType} (htype : Encodable type) :
    Reads decode (encode type) type := by
  intro rest
  exact htype.reads (by rw [List.length_append]; omega) rest

end DataType

end Img2Web.Driver
