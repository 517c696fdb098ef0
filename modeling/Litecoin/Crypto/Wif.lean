import Litecoin.Base58.RoundTrip
import Litecoin.Psbt.Sign

/-! The wallet import format of private keys (`crypto/key.rs`). -/
namespace Litecoin.Crypto
open Wire Consensus Base58 Bip32 Psbt

inductive FromWifError where
  | base58 (error : Base58.Error)
  | invalidBase58PayloadLength (length : Nat)
  | invalidAddressVersion (invalid : UInt8)
  | secp256k1
deriving DecidableEq, Repr

/-- The prefix of a payload. -/
def wifPrefix : NetworkKind → UInt8
  | .main => 176
  | .test => 239

section
variable [Secp256k1] [Secp256k1.Secrets] [Hashes]

/-- `fmt_wif`. -/
def fmtWif (key : PrivateKey) : Option Bytes :=
  let secret := (Secp256k1.Secrets.secretBytes key.inner).val
  if key.compressed then encodeCheck true (wifPrefix key.network :: (secret ++ [1]))
  else encodeCheck true (wifPrefix key.network :: secret)

def toWif (key : PrivateKey) : Option Bytes := fmtWif key

omit [Hashes] in
/-- Only the length tells whether the key is compressed: a byte past the secret is not read. -/
def fromPayload (data : Bytes) : ExceptT FromWifError Option PrivateKey := do
  let compressed ← liftM (if data.length = 33 then .ok false else if data.length = 34 then .ok true
    else .error (.invalidBase58PayloadLength data.length) : Except FromWifError Bool)
  let first ← orPanic data[0]?
  let network ← liftM (if first = 176 then .ok .main else if first = 239 then .ok .test
    else .error (.invalidAddressVersion first) : Except FromWifError NetworkKind)
  match Secp256k1.Secrets.secretKeyFromSlice ((data.drop 1).take 32) with
  | some inner => pure { compressed, network, inner }
  | none => throw .secp256k1

def fromWif (wif : Bytes) : ExceptT FromWifError Option PrivateKey := do
  let data ← ExceptT.mk ((decodeCheck wif).run.map (Except.mapError FromWifError.base58))
  fromPayload data

/-- A payload with any byte in the place of the compression marker. -/
def wifLayout (key : PrivateKey) (marker : UInt8) : Bytes :=
  wifPrefix key.network :: ((Secp256k1.Secrets.secretBytes key.inner).val ++
    if key.compressed then [marker] else [])

theorem toWif_eq (key : PrivateKey) : toWif key = encodeCheck true (wifLayout key 1) := by
  rw [toWif, fmtWif, wifLayout]
  cases key.compressed with
  | true => rfl
  | false => rw [if_neg Bool.false_ne_true, if_neg Bool.false_ne_true, List.append_nil]

omit [Hashes] in
theorem wifLayout_marker (key : PrivateKey) (marker : UInt8) :
    (wifLayout key marker)[33]? = if key.compressed then some marker else none := by
  have size := (Secp256k1.Secrets.secretBytes key.inner).property
  rw [wifLayout, List.getElem?_cons_succ, List.getElem?_append_right size.le, size]
  cases key.compressed with
  | true => rfl
  | false => rfl

omit [Hashes] in
theorem wifLayout_length (key : PrivateKey) (marker : UInt8) :
    (wifLayout key marker).length = if key.compressed then 34 else 33 := by
  have size := (Secp256k1.Secrets.secretBytes key.inner).property
  rw [wifLayout, List.length_cons, List.length_append, size]
  cases key.compressed with
  | true => rfl
  | false => rfl

omit [Hashes] in
theorem wifLayout_short (key : PrivateKey) (marker : UInt8) : (wifLayout key marker).length < 100 := by
  rw [wifLayout_length]
  split <;> decide

omit [Hashes] in
theorem wifLayout_secret (key : PrivateKey) (marker : UInt8) :
    ((wifLayout key marker).drop 1).take 32 = (Secp256k1.Secrets.secretBytes key.inner).val :=
  List.take_left' (Secp256k1.Secrets.secretBytes key.inner).property

omit [Secp256k1] [Secp256k1.Secrets] [Hashes] in
theorem network_eq_ok {first : UInt8} {network : NetworkKind} :
    (if first = 176 then .ok .main else if first = 239 then .ok .test
      else .error (.invalidAddressVersion first) : Except FromWifError NetworkKind) = .ok network ↔
      first = wifPrefix network := by
  constructor
  · intro found
    split at found
    case isTrue main =>
      obtain rfl := Except.ok.inj found
      exact main
    case isFalse =>
      split at found
      case isTrue test =>
        obtain rfl := Except.ok.inj found
        exact test
      case isFalse => contradiction
  · rintro rfl
    cases network <;> rfl

omit [Secp256k1] [Secp256k1.Secrets] [Hashes] in
theorem compressed_eq_ok {length : Nat} {compressed : Bool} :
    (if length = 33 then .ok false else if length = 34 then .ok true
      else .error (.invalidBase58PayloadLength length) : Except FromWifError Bool) = .ok compressed ↔
      length = if compressed then 34 else 33 := by
  constructor
  · intro found
    split at found
    case isTrue short =>
      obtain rfl := Except.ok.inj found
      exact short
    case isFalse =>
      split at found
      case isTrue long =>
        obtain rfl := Except.ok.inj found
        exact long
      case isFalse => contradiction
  · rintro rfl
    cases compressed <;> rfl

omit [Hashes] in
/-- A key is read from its payload with any marker, and from nothing else. -/
theorem fromPayload_eq_ok [Secp256k1.SecretsInverse] {data : Bytes} {key : PrivateKey} :
    (fromPayload data).run = some (.ok key) ↔ ∃ marker, data = wifLayout key marker := by
  constructor
  · intro accepted
    obtain ⟨compressed, sized, accepted⟩ := run_bind_eq_ok.mp accepted
    obtain ⟨first, headed, accepted⟩ := run_bind_eq_ok.mp accepted
    obtain ⟨network, prefixed, read⟩ := run_bind_eq_ok.mp accepted
    clear accepted
    rw [run_liftM_eq_ok, compressed_eq_ok] at sized
    rw [run_liftM_eq_ok, network_eq_ok] at prefixed
    cases data with
    | nil => cases compressed <;> contradiction
    | cons head tail =>
      obtain rfl : head = first := Except.ok.inj (Option.some.inj headed)
      rw [List.length_cons] at sized
      rw [List.drop_succ_cons, List.drop_zero] at read
      have enough : 32 ≤ tail.length := by
        cases compressed
        · exact (Nat.succ.inj sized).ge
        · exact (Nat.le_succ 32).trans (Nat.succ.inj sized).ge
      have size : (tail.take 32).length = 32 := List.length_take_of_le enough
      cases parsed : Secp256k1.Secrets.secretKeyFromSlice (tail.take 32) with
      | none =>
        rw [parsed] at read
        exact absurd (Option.some.inj read) nofun
      | some inner =>
        rw [parsed] at read
        obtain rfl := run_pure_eq_ok.mp read
        have secret := Secp256k1.SecretsInverse.secretBytes_fromSlice ⟨tail.take 32, size⟩ inner parsed
        have split := List.take_append_drop 32 tail
        have left : (tail.drop 32).length = tail.length - 32 := List.length_drop
        simp only [wifLayout, secret, prefixed]
        cases compressed with
        | false =>
          have none : tail.drop 32 = [] := List.eq_nil_of_length_eq_zero (by simp at sized; omega)
          refine ⟨0, congrArg _ ?_⟩
          rw [none] at split
          exact split.symm
        | true =>
          obtain ⟨marker, one⟩ := List.length_eq_one_iff.mp
            (show (tail.drop 32).length = 1 by simp at sized; omega)
          refine ⟨marker, congrArg _ ?_⟩
          rw [one] at split
          exact split.symm
  · rintro ⟨marker, rfl⟩
    have length := wifLayout_length key marker
    obtain ⟨compressed, network, inner⟩ := key
    rw [fromPayload, compressed_eq_ok.mpr length, lift_ok_bind]
    show ((orPanic (some (wifPrefix network)) >>= _ : ExceptT FromWifError Option PrivateKey)).run = _
    rw [orPanic_bind, network_eq_ok.mpr rfl, lift_ok_bind, wifLayout_secret,
      Secp256k1.SecretsInverse.secretKeyFromSlice_secretBytes]
    rfl

theorem fromWif_eq_ok [Secp256k1.SecretsInverse] {wif : Bytes} {key : PrivateKey} :
    (fromWif wif).run = some (.ok key) ↔
      ∃ marker, (decodeCheck wif).run = some (.ok (wifLayout key marker)) := by
  rw [fromWif, run_bind_eq_ok]
  simp only [run_mapError_eq_ok, fromPayload_eq_ok]
  constructor
  · rintro ⟨_, decoded, marker, rfl⟩
    exact ⟨marker, decoded⟩
  · rintro ⟨marker, decoded⟩
    exact ⟨_, decoded, marker, rfl⟩

/-- Every key survives a round trip, and an accepted text is the one that is written exactly when
the byte after the secret, if there is one, is one. Texts of one key differ in nothing else. -/
theorem wif_spelled_once_iff [Secp256k1.SecretsInverse] :
    (∀ key, ∃ wif, toWif key = some wif ∧ (fromWif wif).run = some (.ok key)) ∧
    (∀ wif payload key, (decodeCheck wif).run = some (.ok payload) →
      (fromWif wif).run = some (.ok key) →
      (toWif key = some wif ↔ ∀ marker ∈ payload[33]?, marker = 1)) ∧
    (∀ wif wif' payload payload' key, (decodeCheck wif).run = some (.ok payload) →
      (decodeCheck wif').run = some (.ok payload') → (fromWif wif).run = some (.ok key) →
      (fromWif wif').run = some (.ok key) → (wif = wif' ↔ payload[33]? = payload'[33]?)) := by
  refine ⟨?_, ?_, ?_⟩
  · intro key
    obtain ⟨wif, written⟩ := @encodeCheck_returns _ true _ (wifLayout_short key 1)
    rw [toWif_eq]
    exact ⟨wif, written, fromWif_eq_ok.mpr ⟨1, (decodeCheck_eq_ok_iff (wifLayout_short key 1)).mpr written⟩⟩
  · intro wif payload key decoded accepted
    obtain ⟨marker, decoded'⟩ := fromWif_eq_ok.mp accepted
    obtain rfl : payload = wifLayout key marker :=
      Except.ok.inj (Option.some.inj (decoded.symm.trans decoded'))
    rw [toWif_eq, ← decodeCheck_eq_ok_iff (wifLayout_short key 1), decoded, wifLayout_marker]
    cases compressed : key.compressed with
    | true =>
      simp only [if_true, Option.mem_some, forall_eq']
      constructor
      · intro same
        have markers := congrArg (·[33]?) (Except.ok.inj (Option.some.inj same))
        simp only [wifLayout_marker, compressed, if_true] at markers
        exact Option.some.inj markers
      · rintro rfl
        rfl
    | false => simp [wifLayout, compressed]
  · intro wif wif' payload payload' key decoded decoded' accepted accepted'
    obtain ⟨marker, found⟩ := fromWif_eq_ok.mp accepted
    obtain ⟨marker', found'⟩ := fromWif_eq_ok.mp accepted'
    obtain rfl := Except.ok.inj (Option.some.inj (decoded.symm.trans found))
    obtain rfl := Except.ok.inj (Option.some.inj (decoded'.symm.trans found'))
    constructor
    · rintro rfl
      rw [Except.ok.inj (Option.some.inj (decoded.symm.trans decoded'))]
    · intro same
      have layouts : wifLayout key marker = wifLayout key marker' := by
        rw [wifLayout_marker, wifLayout_marker] at same
        rw [wifLayout, wifLayout]
        cases compressed : key.compressed with
        | true =>
          simp only [compressed, if_true, Option.some.injEq] at same
          rw [same]
        | false => rfl
      rw [@decodeCheck_eq_ok_iff _ true _ _ (wifLayout_short _ _)] at decoded decoded'
      rw [layouts, decoded'] at decoded
      exact (Option.some.inj decoded).symm

end

section
attribute [local instance] Secp256k1.generatorOnly Secp256k1.generatorSecrets

/-- The payload of the secret key one with a marker. -/
def payloadOfOne (marker : UInt8) : Bytes := 176 :: (Secp256k1.secretOne.val ++ [marker])

/-- The hashes as far as these two payloads need them. -/
@[reducible] def payloadHashes : Hashes :=
  { Hashes.ofEmpty with
    sha256d := fun bytes =>
      if bytes = payloadOfOne 1 then
        ⟨[0xe3, 0x9d, 0x12, 0xa4, 0xb1, 0x28, 0x94, 0x04, 0x65, 0x31, 0xe5, 0x01, 0x05, 0xb5, 0xb9, 0x14,
          0xbe, 0x13, 0x8e, 0x23, 0x06, 0x1f, 0x68, 0x8e, 0x13, 0xc4, 0xfe, 0x81, 0x4b, 0x0c, 0x18, 0xdb], rfl⟩
      else if bytes = payloadOfOne 2 then
        ⟨[0xbc, 0x29, 0xc6, 0xf3, 0xca, 0x74, 0x7c, 0x5e, 0x96, 0xad, 0xde, 0xd0, 0x07, 0xb8, 0xca, 0x5f,
          0xdc, 0x4c, 0x07, 0x12, 0xdc, 0xc4, 0xd2, 0x7c, 0x9a, 0x75, 0x83, 0xcb, 0x26, 0xaf, 0x72, 0xeb], rfl⟩
      else Hashes.ofEmpty.sha256d bytes }

attribute [local instance] payloadHashes

/-- The secret key one as a key of the main network. -/
def keyOne : PrivateKey where
  compressed := true
  network := .main
  inner := ()

def wifOfOne : Bytes := ascii "T33ydQRKp4FCW5LCLLUB7deioUMoveiwekdwUwyfRDeGZm76aUjV"

/-- The text with a marker of two. -/
def wifOfOneMarkedTwo : Bytes := ascii "T33ydQRKp4FCW5LCLLUB7deioUMoveiwekdwUwyfRDeGZmCdd4kA"

theorem payloadOfOne_encoded :
    encodeCheck true (payloadOfOne 1) = some wifOfOne ∧
      encodeCheck true (payloadOfOne 2) = some wifOfOneMarkedTwo := by
  constructor
  · refine (encodeCheck_of_short (by decide)).trans (digitsOf_iff.mp ?_)
    decide
  · refine (encodeCheck_of_short (by decide)).trans (digitsOf_iff.mp ?_)
    decide

/-- Two texts of one key, of which only the first is written. -/
theorem two_wifs_of_one_key :
    (fromWif wifOfOne).run = some (.ok keyOne) ∧
    (fromWif wifOfOneMarkedTwo).run = some (.ok keyOne) ∧
    wifOfOne ≠ wifOfOneMarkedTwo ∧ toWif keyOne = some wifOfOne := by
  have := Secp256k1.generatorSecrets_inverse
  have one := (decodeCheck_eq_ok_iff (by decide)).mpr payloadOfOne_encoded.1
  have two := (decodeCheck_eq_ok_iff (by decide)).mpr payloadOfOne_encoded.2
  refine ⟨fromWif_eq_ok.mpr ⟨1, one⟩, fromWif_eq_ok.mpr ⟨2, two⟩, fun same => ?_,
    (toWif_eq keyOne).trans payloadOfOne_encoded.1⟩
  rw [same, two] at one
  exact absurd (Except.ok.inj (Option.some.inj one)) (by decide)

theorem wif_spelled_once_of_one :
    toWif keyOne = some wifOfOne ↔ ∀ marker ∈ (payloadOfOne 1)[33]?, marker = 1 := by
  have := Secp256k1.generatorSecrets_inverse
  have decoded := (decodeCheck_eq_ok_iff (by decide)).mpr payloadOfOne_encoded.1
  exact wif_spelled_once_iff.2.1 wifOfOne (payloadOfOne 1) keyOne decoded
    (fromWif_eq_ok.mpr ⟨1, decoded⟩)

end
end Litecoin.Crypto
