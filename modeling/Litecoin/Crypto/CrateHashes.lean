import Litecoin.Crypto.HashTypes

/-! The hashes of the `hashes` crate, and that each of them streams the function it is defined as. -/
namespace Litecoin
open Wire Consensus

/-- The types of the crate that are hashes. -/
inductive HashKind where
  | sha256
  | sha512
  | sha384
  | sha512_256
  | sha1
  | ripemd160
  | siphash24
  | sha256d
  | hash160
  | sha256t (tag : Bytes)
  | hmac (T : HashKind)

section
variable [Compression]

namespace Sha256

def hashType : HashType where
  Engine := HashEngine algorithm
  blockSize := 64
  len := 32
  engine := some engine
  input := HashEngine.input
  fromEngine := fromEngine

def streams : hashType.Streams (2 ^ 61) digest where
  Holds := HashEngine.Holds
  start _ := ⟨engine, rfl, HashEngine.holds_default⟩
  input holds bound := holds.input _ (bound.trans (by decide))
  finish := fromEngine_eq

end Sha256

namespace Sha512

/-- The engine with other constants at its start. -/
def startingAt (h : Vector UInt64 8) : Algorithm := { algorithm with h := h }

def ofState (h : Vector UInt64 8) : HashType where
  Engine := HashEngine (startingAt h)
  blockSize := 128
  len := 64
  engine := some (.default _)
  input := HashEngine.input
  fromEngine e := e.finish (fun bits => [List.replicate 8 0, bigEndianBytes 8 bits]) 16

def digestFrom (h : Vector UInt64 8) (message : Bytes) : ByteArr 64 :=
  HashEngine.digest (startingAt h) message (bigEndianBytes 16 (8 * message.length))

def streams (h : Vector UInt64 8) : (ofState h).Streams (2 ^ 61) (digestFrom h) where
  Holds := HashEngine.Holds
  start _ := ⟨_, rfl, HashEngine.holds_default⟩
  input holds bound := holds.input _ (bound.trans (by decide))
  finish {e message} holds bound := by
    have written : [List.replicate 8 0, bigEndianBytes 8 (8 * message.length)].flatten =
        bigEndianBytes 16 (8 * message.length) := by
      rw [bigEndianBytes_wide 8 8 (by omega)]
      simp
    have length : (bigEndianBytes 16 (8 * message.length)).length = 16 := length_bigEndianBytes 16 _
    exact holds.finish bound written length (by decide) (show 2 * 16 ≤ 128 by decide)
      (show 128 ≤ 2 ^ 10 by decide)

def hashType : HashType := ofState algorithm.h

end Sha512

/-- `sha512::HashEngine::sha384`. -/
def Sha384.h : Vector UInt64 8 :=
  #v[0xcbbb9d5dc1059ed8, 0x629a292a367cd507, 0x9159015a3070dd17, 0x152fecd8f70e5939,
    0x67332667ffc00b31, 0x8eb44a8768581511, 0xdb0c2e0d64f98fa7, 0x47b5481dbefa4fa4]

def Sha384.hashType : HashType := (Sha512.ofState h).truncated 48

omit [Compression] in
theorem Sha384.fits : 48 ≤ 64 := by decide

/-- `sha512::HashEngine::sha512_256`. -/
def Sha512_256.h : Vector UInt64 8 :=
  #v[0x22312194fc2bf72c, 0x9f555fa3c84c64c2, 0x2393b86b6f53b151, 0x963877195940eabd,
    0x96283ee2a88effe3, 0xbe5e1e2553863992, 0x2b0199fc2c85b8aa, 0x0eb72ddc81c52ca2]

def Sha512_256.hashType : HashType := (Sha512.ofState h).truncated 32

omit [Compression] in
theorem Sha512_256.fits : 32 ≤ 64 := by decide

namespace Sha1

def hashType : HashType where
  Engine := HashEngine algorithm
  blockSize := 64
  len := 20
  engine := some engine
  input := HashEngine.input
  fromEngine := fromEngine

def streams : hashType.Streams (2 ^ 61) digest where
  Holds := HashEngine.Holds
  start _ := ⟨engine, rfl, HashEngine.holds_default⟩
  input holds bound := holds.input _ (bound.trans (by decide))
  finish := fromEngine_eq

end Sha1

namespace Ripemd160

def hashType : HashType where
  Engine := HashEngine algorithm
  blockSize := 64
  len := 20
  engine := some engine
  input := HashEngine.input
  fromEngine := fromEngine

def streams : hashType.Streams (2 ^ 61) digest where
  Holds := HashEngine.Holds
  start _ := ⟨engine, rfl, HashEngine.holds_default⟩
  input holds bound := holds.input _ (bound.trans (by decide))
  finish := fromEngine_eq

end Ripemd160

namespace SipHash

/-- `Hash::from_u64`. -/
def fromU64 (hash : UInt64) : ByteArr 8 := ⟨littleEndian 8 hash.toNat, littleEndian_length 8 _⟩

def hashType : HashType where
  Engine := HashEngine
  blockSize := 8
  len := 8
  engine := some (.withKeys 0 0)
  input := HashEngine.input true
  fromEngine e := some (fromU64 (fromEngineToU64 e))

def streams : hashType.Streams (2 ^ 61) fun message => fromU64 (sipHash24 0 0 message) where
  Holds e message := e.Holds 0 0 message
  start _ := ⟨_, rfl, HashEngine.holds_withKeys 0 0⟩
  input holds bound := holds.input _ fun _ => bound.trans (by decide)
  finish holds _ := congrArg (fun hash => some (fromU64 hash)) holds.fromEngineToU64

end SipHash

def Sha256d.hashType : HashType := Sha256.hashType.rehashed Sha256.hashType

def Hash160.hashType : HashType := Sha256.hashType.rehashed Ripemd160.hashType

namespace Sha256t

def limit (tag : Bytes) : Nat := if tag.length < 2 ^ 61 then 2 ^ 61 - 64 else 0

omit [Compression] in
theorem lt_limit {tag : Bytes} {length : Nat} (bound : length < limit tag) :
    tag.length < 2 ^ 61 ∧ 64 + length < 2 ^ 61 := by
  rw [limit] at bound
  split_ifs at bound with short
  · exact ⟨short, Nat.add_lt_of_lt_sub' bound⟩
  · contradiction

def digest (tag message : Bytes) : ByteArr 32 :=
  Sha256.digest ((Sha256.digest tag).val ++ (Sha256.digest tag).val ++ message)

theorem length_behind (tag message : Bytes) :
    ((Sha256.digest tag).val ++ (Sha256.digest tag).val ++ message).length = 64 + message.length := by
  rw [List.length_append, List.length_append, (Sha256.digest tag).property]

variable [Sha256.Rounds]

/-- The engine of a tag starts after the tag. -/
def hashType (tag : Bytes) : HashType :=
  { Sha256.hashType with
    engine := do
      let midstate ← Sha256.hashTag true tag
      Sha256.fromMidstate midstate 64 }

theorem engine_eq {tag : Bytes} (short : tag.length < 2 ^ 61) :
    (hashType tag).engine = some (Sha256.tagged tag) := by
  show (Sha256.hashTag true tag).bind (fun midstate => Sha256.fromMidstate midstate 64) = _
  rw [Sha256.hashTag_eq, Sha256.bitLen, if_neg (by omega)]
  exact Sha256.fromMidstate_midstate (Nat.dvd_refl 64)

def streams (tag : Bytes) : (hashType tag).Streams (limit tag) (digest tag) where
  Holds e message := e.Holds ((Sha256.digest tag).val ++ (Sha256.digest tag).val ++ message)
  start some' := by
    refine ⟨Sha256.tagged tag, engine_eq (lt_limit some').1, ?_⟩
    rw [List.append_nil]
    exact Sha256.holds_tagged tag
  input {e message inp} holds bound := by
    rw [← List.append_assoc]
    refine holds.input inp ?_
    rw [List.append_assoc, length_behind]
    exact (lt_limit bound).2.trans (by decide)
  finish {e message} holds bound := by
    refine Sha256.fromEngine_eq holds ?_
    rw [length_behind]
    exact (lt_limit bound).2

end Sha256t

namespace HashKind
variable [Sha256.Rounds]

def hashType : HashKind → HashType
  | sha256 => Sha256.hashType
  | sha512 => Sha512.hashType
  | sha384 => Sha384.hashType
  | sha512_256 => Sha512_256.hashType
  | sha1 => Sha1.hashType
  | ripemd160 => Ripemd160.hashType
  | siphash24 => SipHash.hashType
  | sha256d => Sha256d.hashType
  | hash160 => Hash160.hashType
  | sha256t tag => Sha256t.hashType tag
  | hmac T => T.hashType.hmac

/-- Up to where the length of a message does not overflow. -/
def limit : HashKind → Nat
  | sha256t tag => Sha256t.limit tag
  | hmac T => T.hashType.hmacLimit T.limit
  | _ => 2 ^ 61

/-- The functions, without their engines. -/
def digest : (kind : HashKind) → Bytes → ByteArr kind.hashType.len
  | sha256 => Sha256.digest
  | sha512 => Sha512.digestFrom Sha512.algorithm.h
  | sha384 => fun message => HashType.takeArr Sha384.fits (Sha512.digestFrom Sha384.h message)
  | sha512_256 => fun message => HashType.takeArr Sha512_256.fits (Sha512.digestFrom Sha512_256.h message)
  | sha1 => Sha1.digest
  | ripemd160 => Ripemd160.digest
  | siphash24 => fun message => SipHash.fromU64 (SipHash.sipHash24 0 0 message)
  | sha256d => fun message => Sha256.digest (Sha256.digest message).val
  | hash160 => fun message => Ripemd160.digest (Sha256.digest message).val
  | sha256t tag => Sha256t.digest tag
  | hmac T => rfc2104 T.hashType.blockSize T.digest []

theorem sizes (kind : HashKind) :
    kind.hashType.len ≤ kind.hashType.blockSize ∧ kind.hashType.blockSize ≤ 128 := by
  induction kind with
  | sha256 | sha256d | sha256t => exact (by decide : 32 ≤ 64 ∧ 64 ≤ 128)
  | sha512 => exact (by decide : 64 ≤ 128 ∧ 128 ≤ 128)
  | sha384 => exact (by decide : 48 ≤ 128 ∧ 128 ≤ 128)
  | sha512_256 => exact (by decide : 32 ≤ 128 ∧ 128 ≤ 128)
  | sha1 | ripemd160 | hash160 => exact (by decide : 20 ≤ 64 ∧ 64 ≤ 128)
  | siphash24 => exact (by decide : 8 ≤ 8 ∧ 8 ≤ 128)
  | hmac _ ih => exact ih

def streams : (kind : HashKind) → kind.hashType.Streams kind.limit kind.digest
  | sha256 => Sha256.streams
  | sha512 => Sha512.streams _
  | sha384 => (Sha512.streams _).truncated Sha384.fits
  | sha512_256 => (Sha512.streams _).truncated Sha512_256.fits
  | sha1 => Sha1.streams
  | ripemd160 => Ripemd160.streams
  | siphash24 => SipHash.streams
  | sha256d => Sha256.streams.rehashed Sha256.streams (show 32 < 2 ^ 61 by decide)
  | hash160 => Sha256.streams.rehashed Ripemd160.streams (show 32 < 2 ^ 61 by decide)
  | sha256t tag => Sha256t.streams tag
  | hmac T => T.streams.keyed (fun room => Nat.zero_lt_of_lt (HashType.lt_hmacLimit room).1) T.sizes.1 T.sizes.2

/-- Every hash of the crate, those of other hashes included, computes its function of the message,
however the message is cut up, and so does the HMAC with any key of any of them. -/
theorem hashes_stream (kind : HashKind) (pieces : List Bytes) :
    (pieces.flatten.length < kind.limit →
      kind.hashType.hashByteChunks pieces = some (kind.digest pieces.flatten)) ∧
    ∀ key : Bytes, key.length < kind.limit →
      pieces.flatten.length < kind.hashType.hmacLimit kind.limit →
      (kind.hashType.keyed key).hashByteChunks pieces =
        some (rfc2104 kind.hashType.blockSize kind.digest key pieces.flatten) := by
  obtain ⟨fits, small⟩ := kind.sizes
  exact ⟨kind.streams.chunks, fun key short bound => (kind.streams.keyed (fun _ => short) fits small).chunks bound⟩

end HashKind

variable [Sha256.Rounds]

/-- The hashes that the other modules are given. -/
@[reducible] def Hashes.ofEngines : Hashes where
  ripemd160 := Ripemd160.digest
  sha256 := Sha256.digest
  hash160 := HashKind.digest .hash160
  sha256d := HashKind.digest .sha256d
  tapLeaf := Sha256t.digest "TapLeaf".toUTF8.toList
  tapBranch := Sha256t.digest "TapBranch".toUTF8.toList

end

/-! The hashes on a target without intrinsics, with a test vector of HMAC. -/
namespace Sha256.Software
attribute [local instance] compression shared

def sha256d : Bytes → ByteArr 32 := Hashes.ofEngines.sha256d

/-- `Hi There`, in two pieces. -/
def hiThere : List Bytes := [[0x48, 0x69, 0x20], [0x54, 0x68, 0x65, 0x72, 0x65]]

def hiThereKey : Bytes := List.replicate 20 0x0b

theorem hiThere_streams : hiThere.flatten.length < HashKind.sha256.limit ∧
    HashKind.sha256.hashType.hashByteChunks hiThere = some (HashKind.sha256.digest hiThere.flatten) ∧
    hiThereKey.length < HashKind.sha256.limit ∧
    hiThere.flatten.length < HashKind.sha256.hashType.hmacLimit HashKind.sha256.limit ∧
    ((HashKind.sha256.hashType.keyed hiThereKey).hashByteChunks hiThere).map Subtype.val =
      some [0xb0, 0x34, 0x4c, 0x61, 0xd8, 0xdb, 0x38, 0x53, 0x5c, 0xa8, 0xaf, 0xce, 0xaf, 0x0b, 0xf1, 0x2b,
        0x88, 0x1d, 0xc2, 0x00, 0xc9, 0x83, 0x3d, 0xa7, 0x26, 0xe9, 0x37, 0x6c, 0x2e, 0x32, 0xcf, 0xf7] := by
  have short : hiThere.flatten.length < HashKind.sha256.limit := by decide
  have keyShort : hiThereKey.length < HashKind.sha256.limit := by decide
  have fits : hiThere.flatten.length < HashKind.sha256.hashType.hmacLimit HashKind.sha256.limit := by
    decide
  obtain ⟨plain, keyed⟩ := HashKind.hashes_stream .sha256 hiThere
  refine ⟨short, plain short, keyShort, fits, ?_⟩
  rw [keyed hiThereKey keyShort fits]
  decide +kernel

end Sha256.Software
end Litecoin
