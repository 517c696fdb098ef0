import Litecoin.Bip32.Derivation

/-! The 78 bytes of an extended key (`bip32.rs`). A public key is spelled in one way.
A private key is spelled in 256 ways, since `Xpriv::decode` skips the byte in front of
the secret that `Xpriv::encode` sets to zero. -/
namespace Litecoin.Bip32
open Wire Consensus

def versionBytesMainnetPrivate : Bytes := [0x04, 0x88, 0xAD, 0xE4]
def versionBytesTestnetsPrivate : Bytes := [0x04, 0x35, 0x83, 0x94]

namespace Xpriv

def versionBytes : NetworkKind → Bytes
  | .main => versionBytesMainnetPrivate
  | .test => versionBytesTestnetsPrivate

def networkOf (version : Bytes) : Except Error NetworkKind :=
  if version = versionBytesMainnetPrivate then .ok .main
  else if version = versionBytesTestnetsPrivate then .ok .test
  else .error (.unknownVersion version)

section
variable [Secp256k1] [Secp256k1.Secrets]

/-- The bytes of a private key with a given byte at position 45. -/
def layout (key : Xpriv) (padding : UInt8) : Bytes :=
  versionBytes key.network ++ ([key.depth] ++ (key.parentFingerprint.val ++
  (toBeBytes key.childNumber.toU32 ++ (key.chainCode.val ++ ([padding] ++
  (Secp256k1.Secrets.secretBytes key.privateKey).val)))))

def encode (key : Xpriv) : Bytes := key.layout 0

/-- As for a public key, but `data[45]` is not looked at. -/
def decodeFields (short : Error) : Decoder Error Xpriv := do
  let version ← Decoder.exact 4 short
  let network ← Decoder.ofExcept (networkOf version.val)
  let depth ← Decoder.number 1 short
  let parentFingerprint ← Decoder.exact 4 short
  let childNumber ← Decoder.exact 4 short
  let chainCode ← Decoder.exact 32 short
  let _ ← Decoder.number 1 short
  let privateKey ← Decoder.exact 32 short
  match Secp256k1.Secrets.secretKeyFromSlice privateKey.val with
  | none => Decoder.fail .secp256k1
  | some privateKey =>
    let childNumber := ChildNumber.fromU32 (UInt32.ofNat (fromLittleEndian childNumber.val.reverse))
    pure { network, depth := UInt8.ofNat depth, parentFingerprint, childNumber, privateKey, chainCode }

def decode (data : Bytes) : Except Error Xpriv :=
  let wrongLength := Error.wrongExtendedKeyLength data.length
  if data.length ≠ 78 then .error wrongLength else (decodeFields wrongLength).whole wrongLength data

end
end Xpriv

/-- A bounded child number is read from its four bytes, and from no others. -/
theorem ChildNumber.fromBeBytes_eq (slice : ByteArr 4) (child : ChildNumber) :
    fromU32 (UInt32.ofNat (fromLittleEndian slice.val.reverse)) = child ↔
      slice.val = toBeBytes child.toU32 ∧ child.Bounded := by
  have bound : fromLittleEndian slice.val.reverse < 2 ^ 32 := by
    have below := fromLittleEndian_lt slice.val.reverse
    rw [List.length_reverse, slice.property] at below
    exact below
  constructor
  · rintro rfl
    refine ⟨?_, bounded_fromU32 _⟩
    rw [toBeBytes, toU32_fromU32, UInt32.toNat_ofNat_of_lt' bound]
    have back := littleEndian_fromLittleEndian slice.val.reverse
    rw [List.length_reverse, slice.property] at back
    rw [back, List.reverse_reverse]
  · rintro ⟨same, bounded⟩
    rw [same, toBeBytes, List.reverse_reverse,
      fromLittleEndian_littleEndian child.toU32.toNat_lt, UInt32.ofNat_toNat, fromU32_toU32 bounded]

theorem number_one_eq_ok {short : Error} {value : Nat} :
    Decoder.number 1 short bytes = .ok (value, rest) ↔
      ∃ byte : UInt8, value = byte.toNat ∧ bytes = [byte] ++ rest := by
  rw [Reads.number 1 short]
  constructor
  · rintro ⟨small, same⟩
    refine ⟨UInt8.ofNat value, (UInt8.toNat_ofNat_of_lt' small).symm, ?_⟩
    rw [same, ← littleEndian_one, UInt8.toNat_ofNat_of_lt' small]
  · rintro ⟨byte, rfl, same⟩
    exact ⟨byte.toNat_lt, by rw [same, littleEndian_one]⟩

/-- The choice of a network by its version bytes, as both kinds of key make it. -/
theorem network_eq_ok {main testnets version : Bytes} {network : NetworkKind}
    (distinct : testnets ≠ main) :
    (if version = main then Except.ok NetworkKind.main
      else if version = testnets then .ok .test
      else .error (Error.unknownVersion version)) = .ok network ↔
    version = if network.isTest then testnets else main := by
  by_cases isMain : version = main
  · subst isMain
    cases network <;> simp [NetworkKind.isTest, distinct.symm]
  · by_cases isTest : version = testnets
    · subst isTest
      cases network <;> simp [NetworkKind.isTest, distinct]
    · cases network <;> simp [NetworkKind.isTest, isMain, isTest]

namespace Xpub

theorem networkOf_eq_ok {version : Bytes} {network : NetworkKind} :
    networkOf version = .ok network ↔ version = versionBytes network := by
  rw [networkOf, network_eq_ok (by decide)]
  cases network <;> rfl

variable [Secp256k1]

theorem publicKeyFromSlice_eq_some [Secp256k1.Lawful] {slice : ByteArr 33}
    {key : Secp256k1.PublicKey} :
    Secp256k1.publicKeyFromSlice slice.val = some key ↔ slice = Secp256k1.serialize key := by
  constructor
  · intro parsed
    exact (Secp256k1.Canonical.serialize_fromSlice slice key parsed).symm
  · rintro rfl
    exact Secp256k1.Lawful.fromSlice_serialize key

/-- A public key is read from its own bytes only. -/
theorem decode_eq_ok [Secp256k1.Lawful] {data : Bytes} {key : Xpub} :
    decode data = .ok key ↔ key.encode = data ∧ key.childNumber.Bounded := by
  constructor
  · intro decoded
    by_cases length : data.length = 78
    case neg =>
      rw [decode, if_pos length] at decoded
      contradiction
    rw [decode, if_neg (not_not.mpr length), Decoder.whole_eq_ok] at decoded
    simp only [decodeFields, Decoder.bind_eq_ok, Decoder.exact_eq_ok, Decoder.ofExcept_eq_ok,
      networkOf_eq_ok, number_one_eq_ok] at decoded
    obtain ⟨version, _, rfl, network, _, ⟨version_eq, rfl⟩, _, _, ⟨depth, rfl, rfl⟩, fingerprint, _,
      rfl, child, _, rfl, chainCode, _, rfl, publicKey, _, rfl, last⟩ := decoded
    cases parsed : Secp256k1.publicKeyFromSlice publicKey.val with
    | none => simp only [parsed, Decoder.fail_eq_ok] at last
    | some point =>
      simp only [parsed, Decoder.pure_eq_ok] at last
      obtain ⟨rfl, rfl⟩ := last
      obtain ⟨number, bounded⟩ := (ChildNumber.fromBeBytes_eq child _).mp rfl
      rw [publicKeyFromSlice_eq_some] at parsed
      refine ⟨?_, bounded⟩
      simp only [encode, UInt8.ofNat_toNat]
      rw [version_eq, parsed, List.append_nil, ← toBeBytes, ← number]
  · rintro ⟨rfl, bounded⟩
    exact key.decode_encode_iff.mpr bounded

end Xpub

namespace Xpriv

theorem networkOf_eq_ok {version : Bytes} {network : NetworkKind} :
    networkOf version = .ok network ↔ version = versionBytes network := by
  rw [networkOf, network_eq_ok (by decide)]
  cases network <;> rfl

variable [Secp256k1] [Secp256k1.Secrets]

theorem secretKeyFromSlice_eq_some [Secp256k1.SecretsInverse] {slice : ByteArr 32}
    {key : Secp256k1.Secrets.SecretKey} :
    Secp256k1.Secrets.secretKeyFromSlice slice.val = some key ↔
      slice = Secp256k1.Secrets.secretBytes key := by
  constructor
  · intro parsed
    exact (Secp256k1.SecretsInverse.secretBytes_fromSlice slice key parsed).symm
  · rintro rfl
    exact Secp256k1.SecretsInverse.secretKeyFromSlice_secretBytes key

theorem layout_length (key : Xpriv) (padding : UInt8) : (key.layout padding).length = 78 := by
  have version : (versionBytes key.network).length = 4 := by cases key.network <;> rfl
  simp only [layout, toBeBytes, List.length_append, version, List.length_singleton,
    key.parentFingerprint.property, List.length_reverse, littleEndian_length,
    key.chainCode.property, (Secp256k1.Secrets.secretBytes key.privateKey).property]

theorem layout_padding (key : Xpriv) (padding : UInt8) : (key.layout padding)[45]? = some padding := by
  have version : (versionBytes key.network).length = 4 := by cases key.network <;> rfl
  have front : (versionBytes key.network ++ ([key.depth] ++ (key.parentFingerprint.val ++
      (toBeBytes key.childNumber.toU32 ++ key.chainCode.val)))).length = 45 := by
    simp only [toBeBytes, List.length_append, version, List.length_singleton,
      key.parentFingerprint.property, List.length_reverse, littleEndian_length,
      key.chainCode.property]
  have split : key.layout padding = (versionBytes key.network ++ ([key.depth] ++
      (key.parentFingerprint.val ++ (toBeBytes key.childNumber.toU32 ++ key.chainCode.val)))) ++
      padding :: (Secp256k1.Secrets.secretBytes key.privateKey).val := by
    simp only [layout, List.append_assoc, List.cons_append, List.nil_append]
  rw [split, List.getElem?_append_right front.le, front]
  rfl

/-- A private key is read from its bytes with any byte at position 45. -/
theorem decode_eq_ok [Secp256k1.SecretsInverse] {data : Bytes} {key : Xpriv} :
    decode data = .ok key ↔ (∃ padding, key.layout padding = data) ∧ key.childNumber.Bounded := by
  constructor
  · intro decoded
    by_cases length : data.length = 78
    case neg =>
      rw [decode, if_pos length] at decoded
      contradiction
    rw [decode, if_neg (not_not.mpr length), Decoder.whole_eq_ok] at decoded
    simp only [decodeFields, Decoder.bind_eq_ok, Decoder.exact_eq_ok, Decoder.ofExcept_eq_ok,
      networkOf_eq_ok, number_one_eq_ok] at decoded
    obtain ⟨version, _, rfl, network, _, ⟨version_eq, rfl⟩, _, _, ⟨depth, rfl, rfl⟩, fingerprint, _,
      rfl, child, _, rfl, chainCode, _, rfl, _, _, ⟨padding, -, rfl⟩, secret, _, rfl, last⟩ := decoded
    cases parsed : Secp256k1.Secrets.secretKeyFromSlice secret.val with
    | none => simp only [parsed, Decoder.fail_eq_ok] at last
    | some scalar =>
      simp only [parsed, Decoder.pure_eq_ok] at last
      obtain ⟨rfl, rfl⟩ := last
      obtain ⟨number, bounded⟩ := (ChildNumber.fromBeBytes_eq child _).mp rfl
      rw [secretKeyFromSlice_eq_some] at parsed
      refine ⟨⟨padding, ?_⟩, bounded⟩
      simp only [layout, UInt8.ofNat_toNat]
      rw [version_eq, parsed, List.append_nil, ← number]
  · rintro ⟨⟨padding, rfl⟩, bounded⟩
    have length : (versionBytes key.network).length = 4 := by cases key.network <;> rfl
    have width : (toBeBytes key.childNumber.toU32).length = 4 := by
      rw [toBeBytes, List.length_reverse, littleEndian_length]
    have number := (ChildNumber.fromBeBytes_eq ⟨_, width⟩ key.childNumber).mpr ⟨rfl, bounded⟩
    rw [decode, if_neg (not_not.mpr (key.layout_length padding)), Decoder.whole_eq_ok]
    simp only [decodeFields, Decoder.bind_eq_ok, Decoder.exact_eq_ok, Decoder.ofExcept_eq_ok,
      networkOf_eq_ok, number_one_eq_ok]
    refine ⟨⟨_, length⟩, _, rfl, key.network, _, ⟨rfl, rfl⟩, _, _, ⟨key.depth, rfl, rfl⟩,
      key.parentFingerprint, _, rfl, ⟨_, width⟩, _, rfl, key.chainCode, _, rfl, _, _, ⟨padding, rfl, rfl⟩,
      Secp256k1.Secrets.secretBytes key.privateKey, [], (List.append_nil _).symm, ?_⟩
    simp only [Secp256k1.SecretsInverse.secretKeyFromSlice_secretBytes, number, UInt8.ofNat_toNat]
    rfl

theorem decode_encode_iff [Secp256k1.SecretsInverse] (key : Xpriv) :
    decode key.encode = .ok key ↔ key.childNumber.Bounded :=
  decode_eq_ok.trans (and_iff_right ⟨0, rfl⟩)

end Xpriv

/-- A private key spelled with a given byte in front of its secret is the key it was
written from exactly when that byte is zero. -/
theorem Xpriv.encode_eq_iff [Secp256k1] [Secp256k1.Secrets] (key : Xpriv) (padding : UInt8) :
    key.encode = key.layout padding ↔ padding = 0 := by
  constructor
  · intro same
    have byte := key.layout_padding padding
    rw [← same, encode, layout_padding] at byte
    exact (Option.some.inj byte).symm
  · rintro rfl
    rfl

/-- Both kinds of extended key survive a round trip exactly when the child number has one of its
documented indices, and a public key has one spelling. A spelling of a private key is the one that
is written exactly when its byte 45 is zero. -/
theorem extended_key_spelled_once_iff [Secp256k1] [Secp256k1.Secrets] [Secp256k1.Lawful]
    [Secp256k1.SecretsInverse] :
    (∀ key : Xpub, Xpub.decode key.encode = .ok key ↔ key.childNumber.Bounded) ∧
    (∀ key : Xpriv, Xpriv.decode key.encode = .ok key ↔ key.childNumber.Bounded) ∧
    (∀ data (key : Xpub), Xpub.decode data = .ok key → key.encode = data) ∧
    (∀ data (key : Xpriv), Xpriv.decode data = .ok key →
      (key.encode = data ↔ data[45]? = some 0)) ∧
    (∀ data other (key : Xpriv), Xpriv.decode data = .ok key → Xpriv.decode other = .ok key →
      (data = other ↔ data[45]? = other[45]?)) := by
  refine ⟨Xpub.decode_encode_iff, Xpriv.decode_encode_iff, ?_, ?_, ?_⟩
  · intro data key decoded
    exact (Xpub.decode_eq_ok.mp decoded).1
  · intro data key decoded
    obtain ⟨⟨padding, rfl⟩, -⟩ := Xpriv.decode_eq_ok.mp decoded
    rw [key.encode_eq_iff, key.layout_padding, Option.some_inj]
  · intro data other key decoded again
    obtain ⟨⟨padding, rfl⟩, -⟩ := Xpriv.decode_eq_ok.mp decoded
    obtain ⟨⟨second, rfl⟩, -⟩ := Xpriv.decode_eq_ok.mp again
    rw [key.layout_padding, key.layout_padding, Option.some_inj]
    constructor
    · intro same
      have byte := key.layout_padding padding
      rw [same, key.layout_padding] at byte
      exact (Option.some.inj byte).symm
    · rintro rfl
      rfl

section
attribute [local instance] Secp256k1.generatorOnly Secp256k1.generatorSecrets
  Secp256k1.generatorOnly_lawful Secp256k1.generatorSecrets_inverse

/-- The key one as a master key with chain code zero. -/
def masterOne : Xpriv where
  network := .main
  depth := 0
  parentFingerprint := ⟨[0, 0, 0, 0], rfl⟩
  childNumber := .normal 0
  privateKey := ()
  chainCode := ⟨0 :: List.replicate 31 0, rfl⟩

/-- Its 78 bytes, with a one in front of the secret. -/
def masterOnePadded : Bytes :=
  [0x04, 0x88, 0xAD, 0xE4] ++ List.replicate 41 0 ++ [1] ++ List.replicate 31 0 ++ [1]

theorem masterOne_layout : masterOne.layout 1 = masterOnePadded := by
  decide

theorem masterOne_spellings :
    Xpub.decode (Xpub.fromPriv masterOne).encode = .ok (Xpub.fromPriv masterOne) ∧
    Xpriv.decode masterOne.encode = .ok masterOne ∧
    Xpriv.decode masterOnePadded = .ok masterOne ∧
    (masterOne.encode = masterOnePadded ↔ masterOnePadded[45]? = some 0) ∧
    (masterOne.encode = masterOnePadded ↔ masterOne.encode[45]? = masterOnePadded[45]?) := by
  have padded : Xpriv.decode masterOnePadded = .ok masterOne :=
    Xpriv.decode_eq_ok.mpr ⟨⟨1, masterOne_layout⟩, by decide⟩
  obtain ⟨publicBack, secretBack, -, written, apart⟩ := extended_key_spelled_once_iff
  have back := (secretBack masterOne).mpr (by decide)
  exact ⟨(publicBack _).mpr (by decide), back, padded, written _ _ padded, apart _ _ _ back padded⟩

/-- That key as a child whose index has the top bit. -/
def wrappedOne : Xpriv := { masterOne with childNumber := .normal hardenedBit }

theorem masterOne_spelled_twice :
    Xpriv.decode masterOnePadded = .ok masterOne ∧ masterOne.encode ≠ masterOnePadded ∧
    Xpriv.decode masterOne.encode = .ok masterOne ∧
    Xpriv.decode wrappedOne.encode ≠ .ok wrappedOne ∧
    Xpub.decode (Xpub.fromPriv wrappedOne).encode ≠ .ok (Xpub.fromPriv wrappedOne) := by
  refine ⟨Xpriv.decode_eq_ok.mpr ⟨⟨1, masterOne_layout⟩, by decide⟩, ?_,
    (Xpriv.decode_encode_iff _).mpr (by decide), ?_, ?_⟩
  · rw [← masterOne_layout, Ne, Xpriv.encode_eq_iff]
    decide
  · rw [Ne, Xpriv.decode_encode_iff]
    decide
  · rw [Ne, Xpub.decode_encode_iff]
    decide

end
end Litecoin.Bip32
