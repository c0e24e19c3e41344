import Img2Web.Container.BigEndian
import Img2Web.Container.Reader
import Img2Web.Text.Bytes

/-!
The numbers and strings of the binary protocol. A reader that gives nothing
stands for one that reads past the end of its buffer.
-/

namespace Img2Web.Driver

open Text Reader

/-- `value >> 8 * i`, byte by byte. -/
def encodeUint (k : Nat) (n : Nat) : Bytes := BigEndian.bytes k n

def encodeInt (k : Nat) (i : Int) : Bytes := BigEndian.bytes k (BigEndian.unsigned k i)

def decodeUint (k : Nat) : Reader UInt8 Nat := BigEndian.value <$> take k

def decodeInt (k : Nat) : Reader UInt8 Int :=
  (fun bs => BigEndian.signed k (BigEndian.value bs)) <$> take k

def encodeByte : Nat → Bytes := encodeUint 1

def encodeUint16 : Nat → Bytes := encodeUint 2

def encodeInt16 : Int → Bytes := encodeInt 2

def encodeInt32 : Int → Bytes := encodeInt 4

def encodeInt64 : Int → Bytes := encodeInt 8

def decodeByte : Reader UInt8 Nat := decodeUint 1

def decodeInt8 : Reader UInt8 Int := decodeInt 1

def decodeUint16 : Reader UInt8 Nat := decodeUint 2

def decodeInt16 : Reader UInt8 Int := decodeInt 2

def decodeInt32 : Reader UInt8 Int := decodeInt 4

def decodeInt64 : Reader UInt8 Int := decodeInt 8

/-- `Buffer::encode_long_string`. -/
def encodeLongString (s : Bytes) : Bytes := encodeInt32 s.length ++ s

/-- `Buffer::encode_string`, which takes the size for an `uint16_t`. -/
def encodeString (s : Bytes) : Bytes := encodeUint16 s.length ++ s.take (s.length % 2 ^ 16)

def decodeString : Reader UInt8 Bytes := do
  let size ← decodeUint16
  take size

/-- A negative size stands for no value. -/
def decodeBytes : Reader UInt8 (Option Bytes) := do
  let size ← decodeInt32
  if size < 0 then return none
  else some <$> take size.toNat

theorem reads_uint {k n : Nat} (hn : n < 256 ^ k) : Reads (decodeUint k) (encodeUint k n) n := by
  have hread := (reads_take (BigEndian.length_bytes k n)).map BigEndian.value
  rwa [BigEndian.value_bytes_of_lt hn] at hread

theorem reads_int {k : Nat} {i : Int} (hlow : -(256 ^ k : Nat) ≤ i * 2)
    (hhigh : i * 2 < (256 ^ k : Nat)) : Reads (decodeInt k) (encodeInt k i) i := by
  have hread := (reads_take (BigEndian.length_bytes k (BigEndian.unsigned k i))).map
    fun bs => BigEndian.signed k (BigEndian.value bs)
  rwa [BigEndian.signed_value_bytes hlow hhigh] at hread

theorem reads_int16 {i : Int} (hlow : -2 ^ 15 ≤ i) (hhigh : i < 2 ^ 15) :
    Reads decodeInt16 (encodeInt16 i) i := by
  apply reads_int
  · simp only [Nat.reducePow]
    omega
  · simp only [Nat.reducePow]
    omega

theorem reads_int32 {i : Int} (hlow : -2 ^ 31 ≤ i) (hhigh : i < 2 ^ 31) :
    Reads decodeInt32 (encodeInt32 i) i := by
  apply reads_int
  · simp only [Nat.reducePow]
    omega
  · simp only [Nat.reducePow]
    omega

theorem reads_int64 {i : Int} (hlow : -2 ^ 63 ≤ i) (hhigh : i < 2 ^ 63) :
    Reads decodeInt64 (encodeInt64 i) i := by
  apply reads_int
  · simp only [Nat.reducePow]
    omega
  · simp only [Nat.reducePow]
    omega

theorem reads_string {s : Bytes} (hs : s.length < 2 ^ 16) :
    Reads decodeString (encodeString s) s := by
  rw [encodeString, Nat.mod_eq_of_lt hs, List.take_length]
  exact (reads_uint hs).bind (reads_take rfl)

theorem length_encodeUint (k n : Nat) : (encodeUint k n).length = k := BigEndian.length_bytes k n

theorem length_encodeInt (k : Nat) (i : Int) : (encodeInt k i).length = k :=
  BigEndian.length_bytes k _

end Img2Web.Driver
