import Litecoin.Consensus.Format
import Litecoin.Crypto.Key
import Mathlib.Data.Nat.Bitwise

/-! Child numbers, key sources and extended public keys (`bip32.rs`). -/
namespace Litecoin.Bip32
open Wire Consensus

/-- The lowest hardened child number, `1 << 31`. -/
def hardenedBit : UInt32 := 0x80000000

theorem testBit_hardenedBit (i : Nat) : hardenedBit.toNat.testBit i = decide (31 = i) := by
  have bit : hardenedBit.toNat = 2 ^ 31 := rfl
  rw [bit, Nat.testBit_two_pow]

/-- The numbers below the bit are those that lack it. -/
theorem lt_hardenedBit_iff (index : UInt32) : index < hardenedBit ↔ index.toNat.testBit 31 = false := by
  have below := index.toNat_lt
  have bit : hardenedBit.toNat = 2 ^ 31 := rfl
  rw [UInt32.lt_iff_toNat_lt, bit, Nat.testBit_eq_decide_div_mod_eq, decide_eq_false_iff_not]
  omega

theorem eq_of_testBit {a b : UInt32} (same : ∀ i, a.toNat.testBit i = b.toNat.testBit i) : a = b :=
  UInt32.toNat_inj.mp (Nat.eq_of_testBit_eq same)

theorem and_hardenedBit (index : UInt32) : index &&& hardenedBit = 0 ↔ index < hardenedBit := by
  rw [lt_hardenedBit_iff]
  constructor
  · intro lacks
    have bit := congrArg (fun n : UInt32 => n.toNat.testBit 31) lacks
    simpa only [UInt32.toNat_and, Nat.testBit_and, testBit_hardenedBit, decide_true, Bool.and_true,
      UInt32.toNat_zero, Nat.zero_testBit] using bit
  · intro low
    refine eq_of_testBit fun i => ?_
    simp only [UInt32.toNat_and, Nat.testBit_and, testBit_hardenedBit, UInt32.toNat_zero,
      Nat.zero_testBit]
    by_cases last : 31 = i
    · subst last
      simp only [low, Bool.false_and]
    · simp only [last, decide_false, Bool.and_false]

/-- Taking the bit away and setting it again. -/
theorem xor_or_hardenedBit {number : UInt32} (high : ¬number < hardenedBit) :
    (number ^^^ hardenedBit) ||| hardenedBit = number := by
  rw [lt_hardenedBit_iff, Bool.not_eq_false] at high
  refine eq_of_testBit fun i => ?_
  simp only [UInt32.toNat_or, UInt32.toNat_xor, Nat.testBit_or, Nat.testBit_xor, testBit_hardenedBit]
  by_cases last : 31 = i
  · subst last
    simp only [high, decide_true, Bool.or_true]
  · simp only [last, decide_false, Bool.xor_false, Bool.or_false]

/-- Setting the bit and taking it away changes a number that had it. -/
theorem or_xor_hardenedBit (index : UInt32) :
    (index ||| hardenedBit) ^^^ hardenedBit = index ↔ index < hardenedBit := by
  rw [lt_hardenedBit_iff]
  constructor
  · intro same
    have bit := congrArg (fun n : UInt32 => n.toNat.testBit 31) same
    simp only [UInt32.toNat_xor, UInt32.toNat_or, Nat.testBit_xor, Nat.testBit_or,
      testBit_hardenedBit, decide_true, Bool.or_true, Bool.xor_self] at bit
    exact bit.symm
  · intro low
    refine eq_of_testBit fun i => ?_
    simp only [UInt32.toNat_xor, UInt32.toNat_or, Nat.testBit_xor, Nat.testBit_or,
      testBit_hardenedBit]
    by_cases last : 31 = i
    · subst last
      simp only [low, decide_true, Bool.or_true, Bool.xor_self]
    · simp only [last, decide_false, Bool.or_false, Bool.xor_false]

theorem or_hardenedBit (index : UInt32) : ¬(index ||| hardenedBit) < hardenedBit := by
  simp only [lt_hardenedBit_iff, UInt32.toNat_or, Nat.testBit_or, testBit_hardenedBit, decide_true,
    Bool.or_true, Bool.true_eq_false, not_false_eq_true]

theorem xor_hardenedBit {number : UInt32} (high : ¬number < hardenedBit) :
    number ^^^ hardenedBit < hardenedBit := by
  rw [lt_hardenedBit_iff, Bool.not_eq_false] at high
  simp only [lt_hardenedBit_iff, UInt32.toNat_xor, Nat.testBit_xor, testBit_hardenedBit, high,
    decide_true, Bool.xor_self]

/-- `ChildNumber`. The index is documented to lie within `[0, 2^31 - 1]`, but the fields are public
and may hold any. -/
inductive ChildNumber where
  | normal (index : UInt32)
  | hardened (index : UInt32)
deriving DecidableEq, Repr

namespace ChildNumber

def index : ChildNumber → UInt32
  | normal index => index
  | hardened index => index

def isHardened : ChildNumber → Bool
  | hardened _ => true
  | normal _ => false

/-- The index is one of the documented ones. -/
def Bounded (child : ChildNumber) : Prop := child.index < hardenedBit

instance (child : ChildNumber) : Decidable child.Bounded := inferInstanceAs (Decidable (_ < _))

/-- `From<u32>`: the top bit tells hardened numbers apart. -/
def fromU32 (number : UInt32) : ChildNumber :=
  if number &&& hardenedBit ≠ 0 then hardened (number ^^^ hardenedBit) else normal number

def toU32 : ChildNumber → UInt32
  | normal index => index
  | hardened index => index ||| hardenedBit

theorem fromU32_of_low {number : UInt32} (low : number < hardenedBit) :
    fromU32 number = normal number := by
  rw [fromU32, if_neg (not_not.mpr ((and_hardenedBit number).mpr low))]

theorem fromU32_of_high {number : UInt32} (high : ¬number < hardenedBit) :
    fromU32 number = hardened (number ^^^ hardenedBit) := by
  rw [fromU32, if_pos fun lacks => high ((and_hardenedBit number).mp lacks)]

theorem bounded_fromU32 (number : UInt32) : (fromU32 number).Bounded := by
  by_cases low : number < hardenedBit
  · rw [fromU32_of_low low]
    exact low
  · rw [fromU32_of_high low]
    exact xor_hardenedBit low

theorem toU32_fromU32 (number : UInt32) : (fromU32 number).toU32 = number := by
  by_cases low : number < hardenedBit
  · rw [fromU32_of_low low, toU32]
  · rw [fromU32_of_high low, toU32, xor_or_hardenedBit low]

/-- The number keeps the index exactly when that is one of the documented ones. -/
theorem fromU32_toU32_iff (child : ChildNumber) : fromU32 child.toU32 = child ↔ child.Bounded := by
  constructor
  · intro same
    exact same ▸ bounded_fromU32 child.toU32
  · intro bounded
    cases child with
    | normal index => exact fromU32_of_low bounded
    | hardened index =>
      rw [toU32, fromU32_of_high (or_hardenedBit index), (or_xor_hardenedBit index).mpr bounded]

theorem fromU32_toU32 {child : ChildNumber} (bounded : child.Bounded) : fromU32 child.toU32 = child :=
  child.fromU32_toU32_iff.mpr bounded

/-- Normal numbers come before hardened ones. -/
instance : Ord ChildNumber := ⟨compareOn fun child => match child with
  | normal index => (false, index)
  | hardened index => (true, index)⟩

instance : Std.TransOrd ChildNumber := inferInstanceAs (Std.TransCmp (compareOn _))

instance : Std.LawfulEqOrd ChildNumber := lawfulEq_compareOn fun child other same => by
  cases child <;> cases other <;> simp_all

end ChildNumber

abbrev Fingerprint : Type := ByteArr 4
abbrev DerivationPath : Type := List ChildNumber
abbrev KeySource : Type := Fingerprint × DerivationPath

/-- Every index of the path is one of the documented ones. -/
def DerivationPath.Bounded (path : DerivationPath) : Prop := ∀ child ∈ path, child.Bounded

namespace ChildNumber

theorem bounded_map_fromU32 (numbers : List UInt32) :
    DerivationPath.Bounded (numbers.map fromU32) := by
  rintro _ member
  obtain ⟨number, -, rfl⟩ := List.mem_map.mp member
  exact bounded_fromU32 number

theorem map_fromU32_toU32 {path : DerivationPath} (bounded : path.Bounded) :
    (path.map toU32).map fromU32 = path := by
  rw [List.map_map]
  exact (List.map_congr_left fun child member => fromU32_toU32 (bounded child member)).trans
    (List.map_id path)

end ChildNumber

inductive NetworkKind where
  | main
  | test
deriving DecidableEq, Repr

namespace NetworkKind

def isTest : NetworkKind → Bool
  | main => false
  | test => true

instance : Ord NetworkKind := ⟨compareOn isTest⟩

instance : Std.TransOrd NetworkKind := inferInstanceAs (Std.TransCmp (compareOn _))

instance : Std.LawfulEqOrd NetworkKind := lawfulEq_compareOn fun kind other same => by
  cases kind <;> cases other <;> simp_all [isTest]

end NetworkKind

def versionBytesMainnetPublic : Bytes := [0x04, 0x88, 0xB2, 0x1E]
def versionBytesTestnetsPublic : Bytes := [0x04, 0x35, 0x87, 0xCF]

/-- `bip32::Error`, as far as decoding a public key and deriving keys report it. -/
inductive Error where
  | cannotDeriveFromHardenedKey
  | maximumDepthExceeded
  | wrongExtendedKeyLength (length : Nat)
  | unknownVersion (version : Bytes)
  | secp256k1
deriving DecidableEq, Repr

variable [Secp256k1]

structure Xpub where
  network : NetworkKind
  depth : UInt8
  parentFingerprint : Fingerprint
  childNumber : ChildNumber
  publicKey : Secp256k1.PublicKey
  chainCode : ByteArr 32

namespace Xpub

instance : Ord Xpub := ⟨compareOn fun key => (key.network, key.depth, key.parentFingerprint,
  key.childNumber, key.publicKey, key.chainCode)⟩

instance : Std.TransOrd Xpub := inferInstanceAs (Std.TransCmp (compareOn _))

instance : Std.LawfulEqOrd Xpub := lawfulEq_compareOn fun key other same => by
  cases key
  cases other
  simpa using same

def versionBytes : NetworkKind → Bytes
  | .main => versionBytesMainnetPublic
  | .test => versionBytesTestnetsPublic

def encode (key : Xpub) : Bytes :=
  versionBytes key.network ++ ([key.depth] ++ (key.parentFingerprint.val ++
  ((littleEndian 4 key.childNumber.toU32.toNat).reverse ++
  (key.chainCode.val ++ (Secp256k1.serialize key.publicKey).val))))

omit [Secp256k1] in
def networkOf (version : Bytes) : Except Error NetworkKind :=
  if version = versionBytesMainnetPublic then .ok .main
  else if version = versionBytesTestnetsPublic then .ok .test
  else .error (.unknownVersion version)

/-- The slices of the 78 bytes follow one another without a gap. -/
def decodeFields (short : Error) : Decoder Error Xpub := do
  let version ← Decoder.exact 4 short
  let network ← Decoder.ofExcept (networkOf version.val)
  let depth ← Decoder.number 1 short
  let parentFingerprint ← Decoder.exact 4 short
  let childNumber ← Decoder.exact 4 short
  let chainCode ← Decoder.exact 32 short
  let publicKey ← Decoder.exact 33 short
  match Secp256k1.publicKeyFromSlice publicKey.val with
  | none => Decoder.fail .secp256k1
  | some publicKey =>
    let childNumber := ChildNumber.fromU32 (UInt32.ofNat (fromLittleEndian childNumber.val.reverse))
    pure { network, depth := UInt8.ofNat depth, parentFingerprint, childNumber, publicKey, chainCode }

def decode (data : Bytes) : Except Error Xpub :=
  let wrongLength := Error.wrongExtendedKeyLength data.length
  if data.length ≠ 78 then .error wrongLength else (decodeFields wrongLength).whole wrongLength data

omit [Secp256k1] in
theorem versionBytes_length (network : NetworkKind) : (versionBytes network).length = 4 := by
  cases network <;> rfl

omit [Secp256k1] in
theorem networkOf_versionBytes (network : NetworkKind) :
    networkOf (versionBytes network) = .ok network := by
  cases network <;> rfl

theorem encode_length (key : Xpub) : key.encode.length = 78 := by
  simp only [encode, List.length_append, versionBytes_length, List.length_singleton,
    key.parentFingerprint.property, List.length_reverse, littleEndian_length,
    key.chainCode.property, (Secp256k1.serialize key.publicKey).property]

/-- An extended key as it is read back, with its child number in the documented range. -/
def restored (key : Xpub) : Xpub := { key with childNumber := .fromU32 key.childNumber.toU32 }

theorem restored_bounded (key : Xpub) : key.restored.childNumber.Bounded :=
  ChildNumber.bounded_fromU32 _

theorem restored_eq_iff (key : Xpub) : key.restored = key ↔ key.childNumber.Bounded := by
  rw [← ChildNumber.fromU32_toU32_iff]
  constructor
  · intro same
    exact congrArg Xpub.childNumber same
  · intro same
    rw [restored, same]

theorem encode_restored (key : Xpub) : key.restored.encode = key.encode := by
  simp only [restored, encode, ChildNumber.toU32_fromU32]

theorem decode_encode_eq [Secp256k1.Lawful] (key : Xpub) : decode key.encode = .ok key.restored := by
  have child : UInt32.ofNat (fromLittleEndian (littleEndian 4 key.childNumber.toU32.toNat)) =
      key.childNumber.toU32 := by
    rw [fromLittleEndian_littleEndian key.childNumber.toU32.toNat_lt, UInt32.ofNat_toNat]
  rw [decode, if_neg (not_not.mpr key.encode_length), Decoder.whole_eq_ok]
  simp only [decodeFields, Decoder.bind_eq_ok, Decoder.exact_eq_ok, Decoder.ofExcept_eq_ok,
    Reads.number _ _ _ _ _]
  refine ⟨⟨_, versionBytes_length key.network⟩, _, rfl, key.network, _,
    ⟨networkOf_versionBytes _, rfl⟩, key.depth.toNat, _,
    ⟨key.depth.toNat_lt, by rw [littleEndian_one]⟩, key.parentFingerprint, _, rfl,
    ⟨(littleEndian 4 key.childNumber.toU32.toNat).reverse, by
      rw [List.length_reverse, littleEndian_length]⟩, _, rfl, key.chainCode, _, rfl,
    Secp256k1.serialize key.publicKey, [], (List.append_nil _).symm, ?_⟩
  simp only [Secp256k1.Lawful.fromSlice_serialize, List.reverse_reverse, child, UInt8.ofNat_toNat]
  rfl

theorem decode_encode_iff [Secp256k1.Lawful] (key : Xpub) :
    decode key.encode = .ok key ↔ key.childNumber.Bounded := by
  rw [decode_encode_eq, Except.ok.injEq]
  exact key.restored_eq_iff

end Xpub
end Litecoin.Bip32
