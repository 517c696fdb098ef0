import Litecoin.Psbt.Sign

/-! The key providers that come with the crate (`psbt/mod.rs`): extended private keys, sets
of them, and maps from keys. -/
namespace Litecoin

/-- What the `secp256k1` crate accepts a signature for. -/
class Secp256k1.Verification [Secp256k1] where
  verifyEcdsa : Consensus.ByteArr 32 → Secp256k1.EcdsaSignature → Secp256k1.PublicKey → Prop
  verifySchnorr : Consensus.ByteArr 32 → Secp256k1.SchnorrSignature → Secp256k1.XOnlyPublicKey → Prop

/-- Two secret keys with one first coordinate differ in the parity of their public keys, and
a signature is accepted under the key of the secret that it is made with. A Schnorr signature
commits to its key. -/
class Secp256k1.SigningLaws [Secp256k1] [Secp256k1.Secrets] [Secp256k1.KeyTweaks]
    [Secp256k1.Signing] [Secp256k1.Verification] : Prop where
  withParity_xOnlyPublicKey : ∀ key : Secp256k1.PublicKey,
    Signing.withParity (Signing.xOnlyPublicKey key).1 (Signing.xOnlyPublicKey key).2 = key
  xOnlyPublicKey_withParity : ∀ (key : Secp256k1.XOnlyPublicKey) (parity : Taproot.Parity),
    Signing.xOnlyPublicKey (Signing.withParity key parity) = (key, parity)
  xOnlyPublicKey_negate : ∀ secret : Secrets.SecretKey,
    Signing.xOnlyPublicKey (Secrets.fromSecretKey (Signing.negate secret)) =
      ((Signing.xOnlyPublicKey (Secrets.fromSecretKey secret)).1,
        !(Signing.xOnlyPublicKey (Secrets.fromSecretKey secret)).2)
  xOnlyOfKeypair_keypair : ∀ secret : Secrets.SecretKey,
    Signing.xOnlyOfKeypair (Signing.keypair secret) =
      Signing.xOnlyPublicKey (Secrets.fromSecretKey secret)
  xOnlyOfKeypair_addXonlyTweak : ∀ (pair : Signing.Keypair) (tweak : KeyTweaks.Scalar),
    (Signing.addXonlyTweak pair tweak).map Signing.xOnlyOfKeypair =
      KeyTweaks.addTweak (Signing.xOnlyOfKeypair pair).1 tweak
  verifyEcdsa_signEcdsa : ∀ (message : Consensus.ByteArr 32) (secret : Secrets.SecretKey),
    Verification.verifyEcdsa message (Signing.signEcdsa message secret) (Secrets.fromSecretKey secret)
  verifySchnorr_signSchnorr : ∀ (n : Nat) (message : Consensus.ByteArr 32) (pair : Signing.Keypair)
    (key : Secp256k1.XOnlyPublicKey),
    Verification.verifySchnorr message (Signing.signSchnorr n message pair) key ↔
      key = (Signing.xOnlyOfKeypair pair).1

namespace Psbt
open Wire Consensus Blockdata Crypto Bip32 Taproot
open Secp256k1 (Signing SigningLaws XOnlyPublicKey)

section
variable [Secp256k1] [Secp256k1.Secrets] [Secp256k1.KeyTweaks] [Secp256k1.Signing]

inductive GetKeyError where
  | bip32 (e : Bip32.Error)
  | notSupported

def PrivateKey.negate (key : PrivateKey) : PrivateKey :=
  { key with inner := Signing.negate key.inner }

/-- `PublicKey::new`. -/
def compressedKey (key : Secp256k1.PublicKey) : PublicKey := { compressed := true, inner := key }

/-! An extended private key. -/

section
variable [Hashes] [Hmac]

omit [Secp256k1.KeyTweaks] [Secp256k1.Signing] [Hashes] [Hmac] in
/-- `to_priv`. -/
def toPriv (xpriv : Xpriv) : PrivateKey where
  compressed := true
  network := xpriv.network
  inner := xpriv.privateKey

omit [Secp256k1.KeyTweaks] [Secp256k1.Signing] in
def derivedPriv (xpriv : Xpriv) (path : DerivationPath) :
    Option (Except GetKeyError (Option PrivateKey)) :=
  (xpriv.derivePriv path).run.map fun derived =>
    (derived.mapError .bip32).map fun k => some (toPriv k)

omit [Secp256k1.KeyTweaks] [Secp256k1.Signing] in
/-- `impl GetKey for Xpriv`. -/
def xprivGetKey (xpriv : Xpriv) : GetKey GetKeyError
  | .pubkey _ => some (.error .notSupported)
  | .xOnlyPubkey _ => some (.error .notSupported)
  | .bip32 (fingerprint, path) =>
    if xpriv.fingerprint = fingerprint then derivedPriv xpriv path
    else if xpriv.parentFingerprint = fingerprint ∧ path.head? = some xpriv.childNumber then
      -- the first step of the path led to this key
      derivedPriv xpriv path.tail
    else some (.ok none)

omit [Secp256k1.KeyTweaks] [Secp256k1.Signing] in
/-- `impl_get_key_for_set!`, for the keys in the order of the set. -/
def setGetKey (xprivs : List Xpriv) : GetKey GetKeyError := fun request =>
  match xprivs with
  | [] => some (.ok none)
  | xpriv :: xprivs => do
    match ← xprivGetKey xpriv request with
    | .ok none => setGetKey xprivs request
    | answer => some answer

end

/-! Maps. -/

/-- `impl_get_key_for_pubkey_map!`. -/
def pubkeyMapGetKey (map : BTreeMap PublicKey PrivateKey) : GetKey GetKeyError
  | .pubkey pk => some (.ok map[pk]?)
  | .xOnlyPubkey xonly =>
    let pubkeyEven := compressedKey (Signing.withParity xonly false)
    match map[pubkeyEven]? with
    | some key => some (.ok (some key))
    | none =>
      let pubkeyOdd := compressedKey (Signing.withParity xonly true)
      some (.ok (map[pubkeyOdd]?.map PrivateKey.negate))
  | .bip32 _ => some (.error .notSupported)

/-- `impl_get_key_for_xonly_map!`. -/
def xonlyMapGetKey (map : BTreeMap XOnlyPublicKey PrivateKey) : GetKey GetKeyError
  | .xOnlyPubkey xonly => some (.ok map[xonly]?)
  | .pubkey pk =>
    let (xonly, parity) := Signing.xOnlyPublicKey pk.inner
    match map[xonly]? with
    | some privKey =>
      let computedPk := privKey.publicKey
      let (_, computedParity) := Signing.xOnlyPublicKey computedPk.inner
      some (.ok (some (if computedParity ≠ parity then privKey.negate else privKey)))
    | none => some (.ok none)
  | .bip32 _ => some (.error .notSupported)

/-! What is asked for is what is answered. -/

/-- The first coordinate of the key that a private key belongs to. -/
def PrivateKey.xOnly (key : PrivateKey) : XOnlyPublicKey :=
  (Signing.xOnlyPublicKey key.publicKey.inner).1

/-- The provider answers a request for a key with the secret of that key. -/
structure Answers (k : GetKey ε) : Prop where
  pubkey : ∀ key sk, k (.pubkey key) = some (.ok (some sk)) → sk.publicKey.inner = key.inner
  xOnlyPubkey : ∀ key sk, k (.xOnlyPubkey key) = some (.ok (some sk)) → sk.xOnly = key

/-- The provider derives no keys. -/
def DerivesNothing (k : GetKey ε) : Prop := ∀ source sk, k (.bip32 source) ≠ some (.ok (some sk))

theorem xprivGetKey_answers [Hashes] [Hmac] (xpriv : Xpriv) : Answers (xprivGetKey xpriv) where
  pubkey _ _ := nofun
  xOnlyPubkey _ _ := nofun

omit [Secp256k1.KeyTweaks] [Secp256k1.Signing] in
/-- A set answers as one of its keys. -/
theorem setGetKey_eq [Hashes] [Hmac] {xprivs : List Xpriv} {request : KeyRequest} {sk : PrivateKey}
    (answered : setGetKey xprivs request = some (.ok (some sk))) :
    ∃ xpriv ∈ xprivs, xprivGetKey xpriv request = some (.ok (some sk)) := by
  induction xprivs with
  | nil => exact absurd answered nofun
  | cons xpriv xprivs ih =>
    rw [setGetKey] at answered
    rcases first : xprivGetKey xpriv request with _ | e | _ | other
    · rw [first] at answered
      contradiction
    · rw [first] at answered
      exact absurd answered nofun
    · rw [first] at answered
      obtain ⟨later, listed, same⟩ := ih answered
      exact ⟨later, List.mem_cons_of_mem _ listed, same⟩
    · rw [first] at answered
      exact ⟨xpriv, List.mem_cons_self, first.trans answered⟩

theorem setGetKey_answers [Hashes] [Hmac] (xprivs : List Xpriv) : Answers (setGetKey xprivs) where
  pubkey key sk answered := by
    obtain ⟨xpriv, -, same⟩ := setGetKey_eq answered
    exact (xprivGetKey_answers xpriv).pubkey key sk same
  xOnlyPubkey key sk answered := by
    obtain ⟨xpriv, -, same⟩ := setGetKey_eq answered
    exact (xprivGetKey_answers xpriv).xOnlyPubkey key sk same

theorem pubkeyMapGetKey_derivesNothing (map : BTreeMap PublicKey PrivateKey) :
    DerivesNothing (pubkeyMapGetKey map) :=
  fun _ _ => nofun

theorem xonlyMapGetKey_derivesNothing (map : BTreeMap XOnlyPublicKey PrivateKey) :
    DerivesNothing (xonlyMapGetKey map) :=
  fun _ _ => nofun

/-- Every secret is filed under its own key. -/
def PubkeysMatch (map : BTreeMap PublicKey PrivateKey) : Prop :=
  ∀ (pk : PublicKey) (sk : PrivateKey), map[pk]? = some sk → sk.publicKey.inner = pk.inner

/-- Every secret, or its negation, is filed under its own key. -/
def XOnlysMatch (map : BTreeMap XOnlyPublicKey PrivateKey) : Prop :=
  ∀ (xonly : XOnlyPublicKey) (sk : PrivateKey), map[xonly]? = some sk → sk.xOnly = xonly

/-- A key provider of the crate. -/
inductive KeyStore where
  | xpriv (xpriv : Xpriv)
  | xprivs (xprivs : List Xpriv)
  | pubkeyMap (map : BTreeMap PublicKey PrivateKey)
  | xonlyMap (map : BTreeMap XOnlyPublicKey PrivateKey)

variable [Secp256k1.Verification] [Secp256k1.SigningLaws]

theorem PrivateKey.xOnly_negate (key : PrivateKey) : key.negate.xOnly = key.xOnly := by
  have negated := congrArg Prod.fst (SigningLaws.xOnlyPublicKey_negate key.inner)
  exact negated

/-- Keys with the same coordinate and parity are equal. -/
theorem eq_of_xOnlyPublicKey {key other : Secp256k1.PublicKey}
    (same : Signing.xOnlyPublicKey key = Signing.xOnlyPublicKey other) : key = other := by
  rw [← SigningLaws.withParity_xOnlyPublicKey key, same, SigningLaws.withParity_xOnlyPublicKey]

theorem pubkeyMapGetKey_answers {map : BTreeMap PublicKey PrivateKey} (matched : PubkeysMatch map) :
    Answers (pubkeyMapGetKey map) where
  pubkey key sk answered := matched key sk (Except.ok.inj (Option.some.inj answered))
  xOnlyPubkey key sk answered := by
    rw [pubkeyMapGetKey] at answered
    cases even : map[compressedKey (Signing.withParity key false)]? with
    | some found =>
      rw [even] at answered
      cases answered
      have own : sk.publicKey.inner = Signing.withParity key false := matched _ _ even
      rw [PrivateKey.xOnly, own, SigningLaws.xOnlyPublicKey_withParity]
    | none =>
      simp only [even, Option.some.injEq, Except.ok.injEq, Option.map_eq_some_iff] at answered
      obtain ⟨found, odd, rfl⟩ := answered
      have own : found.publicKey.inner = Signing.withParity key true := matched _ _ odd
      rw [PrivateKey.xOnly_negate, PrivateKey.xOnly, own, SigningLaws.xOnlyPublicKey_withParity]

theorem xonlyMapGetKey_answers {map : BTreeMap XOnlyPublicKey PrivateKey} (matched : XOnlysMatch map) :
    Answers (xonlyMapGetKey map) where
  xOnlyPubkey key sk answered := matched key sk (Except.ok.inj (Option.some.inj answered))
  pubkey key sk answered := by
    rw [xonlyMapGetKey] at answered
    cases found : map[(Signing.xOnlyPublicKey key.inner).1]? with
    | none =>
      simp only [found] at answered
      exact absurd (Except.ok.inj (Option.some.inj answered)) nofun
    | some privKey =>
      simp only [found, Option.some.injEq, Except.ok.injEq] at answered
      have own : (Signing.xOnlyPublicKey privKey.publicKey.inner).1 =
          (Signing.xOnlyPublicKey key.inner).1 := matched _ _ found
      refine eq_of_xOnlyPublicKey ?_
      by_cases parity : (Signing.xOnlyPublicKey privKey.publicKey.inner).2 =
          (Signing.xOnlyPublicKey key.inner).2
      · rw [if_neg (not_not.mpr parity)] at answered
        subst answered
        exact Prod.ext own parity
      · rw [if_pos parity] at answered
        subst answered
        refine (SigningLaws.xOnlyPublicKey_negate privKey.inner).trans (Prod.ext own ?_)
        exact (Bool.eq_not_iff.mpr (Ne.symm parity)).symm


namespace KeyStore
variable [Hashes] [Hmac]

def getKey : KeyStore → GetKey GetKeyError
  | .xpriv key => xprivGetKey key
  | .xprivs keys => setGetKey keys
  | .pubkeyMap map => pubkeyMapGetKey map
  | .xonlyMap map => xonlyMapGetKey map

def IsMap : KeyStore → Prop
  | .xpriv _ | .xprivs _ => False
  | .pubkeyMap _ | .xonlyMap _ => True

/-- The secrets in a map are filed under their keys. -/
def Matched : KeyStore → Prop
  | .xpriv _ | .xprivs _ => True
  | .pubkeyMap map => PubkeysMatch map
  | .xonlyMap map => XOnlysMatch map

theorem answers {store : KeyStore} (matched : store.Matched) : Answers store.getKey := by
  cases store with
  | xpriv key => exact xprivGetKey_answers key
  | xprivs keys => exact setGetKey_answers keys
  | pubkeyMap map => exact pubkeyMapGetKey_answers matched
  | xonlyMap map => exact xonlyMapGetKey_answers matched

omit [Secp256k1.Verification] [SigningLaws] in
theorem derivesNothing {store : KeyStore} (isMap : store.IsMap) : DerivesNothing store.getKey := by
  cases store with
  | xpriv key => exact isMap.elim
  | xprivs keys => exact isMap.elim
  | pubkeyMap map => exact pubkeyMapGetKey_derivesNothing map
  | xonlyMap map => exact xonlyMapGetKey_derivesNothing map

end KeyStore

end
end Psbt
end Litecoin
