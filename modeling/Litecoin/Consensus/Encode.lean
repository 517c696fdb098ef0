import Litecoin.Wire.Emission
import Litecoin.Wire.Endian
import Litecoin.Wire.Record

/-! The consensus encoding of integers, variable-length integers, byte arrays and
vectors (`consensus/encode.rs`). -/
namespace Litecoin.Consensus
open Wire

inductive IoError where
  | unexpectedEof
  | other (message : String)
deriving DecidableEq, Repr

/-- `encode::Error`. -/
inductive Error where
  | io (error : IoError)
  | oversizedVectorAllocation (requested max : Nat)
  | invalidChecksum (expected actual : Bytes)
  | nonMinimalVarInt
  | parseFailed (message : String)
  | unsupportedSegwitFlag (flag : UInt8)
deriving DecidableEq, Repr

/-- `MAX_VEC_SIZE`. -/
def maxVecSize : Nat := 4_000_000

/-- `[u8; n]`. -/
abbrev ByteArr (n : Nat) : Type := { bytes : Bytes // bytes.length = n }

/-- `[byte; n]`. -/
def ByteArr.filled (n : Nat) (byte : UInt8) : ByteArr n := ⟨List.replicate n byte, List.length_replicate⟩

/-- `Vec<T>` on a 64-bit target: the length is a `usize`. -/
@[ext] structure Vec (α : Type) where
  toList : List α
  fits : toList.length < 2 ^ 64
deriving DecidableEq

abbrev ByteVec : Type := Vec UInt8

namespace Vec

def empty : Vec α := ⟨[], Nat.two_pow_pos 64⟩

def singleton (a : α) : Vec α := ⟨[a], Nat.one_lt_two_pow (by decide)⟩

def isEmpty (values : Vec α) : Bool := values.toList.isEmpty

def map (f : α → β) (values : Vec α) : Vec β :=
  ⟨values.toList.map f, by rw [List.length_map]; exact values.fits⟩

/-- `values.iter().enumerate().map(…)`. -/
def mapIdx (f : Nat → α → β) (values : Vec α) : Vec β :=
  ⟨values.toList.mapIdx f, by rw [List.length_mapIdx]; exact values.fits⟩

def take (count : Nat) (values : Vec α) : Vec α :=
  ⟨values.toList.take count, (List.length_take_le' count _).trans_lt values.fits⟩

/-- Replaces the element at an index, if there is one. -/
def modify (values : Vec α) (index : Nat) (f : α → α) : Vec α :=
  ⟨values.toList.modify index f, by rw [List.length_modify]; exact values.fits⟩

/-- `values.len() as u64`. -/
def len (values : Vec α) : UInt64 := UInt64.ofNat values.toList.length

theorem len_toNat (values : Vec α) : values.len.toNat = values.toList.length :=
  UInt64.toNat_ofNat_of_lt' values.fits

@[simp] theorem toList_map (f : α → β) (values : Vec α) :
    (values.map f).toList = values.toList.map f := rfl

@[simp] theorem len_map (f : α → β) (values : Vec α) : (values.map f).len = values.len := by
  simp only [len, toList_map, List.length_map]

theorem map_eq_self {f : α → α} {values : Vec α} :
    values.map f = values ↔ ∀ a ∈ values.toList, f a = a := by
  rw [Vec.ext_iff, toList_map]
  have pointwise := List.map_inj_left (f := f) (g := id) (l := values.toList)
  rwa [List.map_id] at pointwise

theorem isEmpty_eq_true {values : Vec α} : values.isEmpty = true ↔ values = empty := by
  rw [Vec.ext_iff, isEmpty, List.isEmpty_iff]
  rfl

end Vec

/-- The default `Decodable::consensus_decode` of a type that only implements the
finite reader. -/
def consensusDecode (d : Decoder Error α) : Decoder Error α := d.take maxVecSize

def deserialize (d : Decoder Error α) (data : Bytes) : Except Error α :=
  d.whole (.parseFailed "data not consumed entirely when explicitly deserializing") data

/-- `serialize`, where an error stands for the panic of its `expect`. -/
def serialize (emission : Emission IoError) : Except IoError Bytes := emission.toBytes

def readExact (n : Nat) : Decoder Error (ByteArr n) := Decoder.exact n (.io .unexpectedEof)

/-- `decoder_fn!`. -/
def readInt (width : Nat) (ofNat : Nat → α) : Decoder Error α :=
  ofNat <$> Decoder.number width (.io .unexpectedEof)

/-- `impl_int_encodable!`. -/
def encodeInt (width : Nat) (toNat : α → Nat) (value : α) : Emission IoError :=
  .counted width (littleEndian width (toNat value))

def readU8 : Decoder Error UInt8 := readInt 1 UInt8.ofNat
def readU16 : Decoder Error UInt16 := readInt 2 UInt16.ofNat
def readU32 : Decoder Error UInt32 := readInt 4 UInt32.ofNat
def readU64 : Decoder Error UInt64 := readInt 8 UInt64.ofNat
def readI32 : Decoder Error Int32 := readInt 4 fun n => (UInt32.ofNat n).toInt32
def readI64 : Decoder Error Int64 := readInt 8 fun n => (UInt64.ofNat n).toInt64

def encodeU8 : UInt8 → Emission IoError := encodeInt 1 UInt8.toNat
def encodeU16 : UInt16 → Emission IoError := encodeInt 2 UInt16.toNat
def encodeU32 : UInt32 → Emission IoError := encodeInt 4 UInt32.toNat
def encodeU64 : UInt64 → Emission IoError := encodeInt 8 UInt64.toNat
def encodeI32 : Int32 → Emission IoError := encodeInt 4 fun n => n.toUInt32.toNat
def encodeI64 : Int64 → Emission IoError := encodeInt 8 fun n => n.toUInt64.toNat

/-- `impl_array!`. -/
def encodeArray (bytes : ByteArr n) : Emission IoError := .counted bytes.val.length bytes.val

namespace VarInt

def size (n : UInt64) : Nat :=
  if n ≤ 0xFC then 1 else if n ≤ 0xFFFF then 3 else if n ≤ 0xFFFFFFFF then 5 else 9

def consensusEncode (n : UInt64) : Emission IoError :=
  if n ≤ 0xFC then .counted 1 (littleEndian 1 n.toUInt8.toNat)
  else if n ≤ 0xFFFF then .counted 3 (0xFD :: littleEndian 2 n.toUInt16.toNat)
  else if n ≤ 0xFFFFFFFF then .counted 5 (0xFE :: littleEndian 4 n.toUInt32.toNat)
  else .counted 9 (0xFF :: littleEndian 8 n.toNat)

def consensusDecode : Decoder Error UInt64 := do
  let n ← readU8
  if n = 0xFF then do
    let x ← readU64
    if x < 0x100000000 then Decoder.fail .nonMinimalVarInt else pure x
  else if n = 0xFE then do
    let x ← readU32
    if x < 0x10000 then Decoder.fail .nonMinimalVarInt else pure x.toUInt64
  else if n = 0xFD then do
    let x ← readU16
    if x < 0xFD then Decoder.fail .nonMinimalVarInt else pure x.toUInt64
  else pure n.toUInt64

end VarInt

/-- `impl_vec!`. -/
def encodeVec (emit : α → Emission IoError) (values : Vec α) : Emission IoError :=
  VarInt.consensusEncode values.len ++ Emission.each emit values.toList

/-- `impl_vec!`. -/
def decodeVec (d : Decoder Error α) : Decoder Error (Vec α) := do
  let len ← VarInt.consensusDecode
  let values ← d.times len.toNat
  pure ⟨values.val, by rw [values.property]; exact len.toNat_lt⟩

def encodeWithSize (data : ByteVec) : Emission IoError :=
  VarInt.consensusEncode data.len ++ .counted data.toList.length data.toList

/-- The chunked loop of `read_bytes_from_finite_reader`; `fuel` bounds the chunks. -/
def readChunks (chunkSize : Nat) (positive : 0 < chunkSize) :
    (fuel len : Nat) → len ≤ fuel → Decoder Error (ByteArr len)
  | _, 0, _ => pure ⟨[], rfl⟩
  | fuel + 1, len + 1, enough => do
    let chunk ← readExact (min (len + 1) chunkSize)
    let rest ← readChunks chunkSize positive fuel (len + 1 - min (len + 1) chunkSize) (by omega)
    pure ⟨chunk.val ++ rest.val, by
      rw [List.length_append, chunk.property, rest.property]; omega⟩

def readBytesFromFiniteReader (len chunkSize : Nat) (positive : 0 < chunkSize) :
    Decoder Error (ByteArr len) :=
  readChunks chunkSize positive len len le_rfl

/-- `Vec<u8>`. -/
def decodeBytes : Decoder Error ByteVec := do
  let len ← VarInt.consensusDecode
  let bytes ← readBytesFromFiniteReader len.toNat (128 * 1024) (by decide)
  pure ⟨bytes.val, by rw [bytes.property]; exact len.toNat_lt⟩

end Litecoin.Consensus
