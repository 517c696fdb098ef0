import Litecoin.Bip32
import Litecoin.Crypto.Hashes

/-! Child key derivation (`bip32.rs`). A derivation of private keys has three outcomes:
a key, an error, and the panic of an `expect` that the source calls statistically
impossible. -/
namespace Litecoin.Bip32
open Wire Consensus

def ChildNumber.isNormal (child : ChildNumber) : Bool := !child.isHardened

/-- `u32::to_be_bytes`. -/
def toBeBytes (number : UInt32) : Bytes := (littleEndian 4 number.toNat).reverse

/-- `ChainCode::from_hmac`. -/
def chainCodeFromHmac (hmac : ByteArr 64) : ByteArr 32 :=
  ⟨hmac.val.drop 32, by rw [List.length_drop, hmac.property]⟩

/-- `u8::checked_add(1)` with the error of both derivations. -/
def deeper (depth : UInt8) : Except Error UInt8 :=
  if depth = 255 then .error .maximumDepthExceeded else .ok (depth + 1)

section
variable [Secp256k1] [Secp256k1.Secrets] [Hashes] [Hmac]

structure Xpriv where
  network : NetworkKind
  depth : UInt8
  parentFingerprint : Fingerprint
  childNumber : ChildNumber
  privateKey : Secp256k1.Secrets.SecretKey
  chainCode : ByteArr 32

namespace Xpub

def fromPriv (sk : Xpriv) : Xpub where
  network := sk.network
  depth := sk.depth
  parentFingerprint := sk.parentFingerprint
  childNumber := sk.childNumber
  publicKey := Secp256k1.Secrets.fromSecretKey sk.privateKey
  chainCode := sk.chainCode

def identifier (self : Xpub) : ByteArr 20 :=
  Hashes.hash160 (Secp256k1.serialize self.publicKey).val

def fingerprint (self : Xpub) : Fingerprint :=
  ⟨self.identifier.val.take 4, by rw [List.length_take, self.identifier.property]; rfl⟩

/-- The scalar tweak added to a key to get a child key. -/
def ckdPubTweak (self : Xpub) :
    ChildNumber → Except Error (Secp256k1.Secrets.SecretKey × ByteArr 32)
  | .hardened _ => .error .cannotDeriveFromHardenedKey
  | .normal n =>
    let hmacResult := Hmac.sha512 self.chainCode.val
      ((Secp256k1.serialize self.publicKey).val ++ toBeBytes n)
    match Secp256k1.Secrets.secretKeyFromSlice (hmacResult.val.take 32) with
    | none => .error .secp256k1
    | some privateKey => .ok (privateKey, chainCodeFromHmac hmacResult)

def ckdPub (self : Xpub) (i : ChildNumber) : Except Error Xpub := do
  let (sk, chainCode) ← self.ckdPubTweak i
  let tweaked ← match Secp256k1.Secrets.addExpTweak self.publicKey
      (Secp256k1.Secrets.scalarFromSecretKey sk) with
    | none => .error .secp256k1
    | some tweaked => .ok tweaked
  let depth ← deeper self.depth
  pure { network := self.network, depth, parentFingerprint := self.fingerprint, childNumber := i
         publicKey := tweaked, chainCode }

def derivePub (self : Xpub) (path : DerivationPath) : Except Error Xpub :=
  path.foldlM ckdPub self

end Xpub

namespace Xpriv

/-- What the key's HMAC authenticates: public data for a normal child, the secret for a
hardened one. -/
def hmacInput (self : Xpriv) (i : ChildNumber) : Bytes :=
  (match i with
    | .normal _ => (Secp256k1.serialize (Secp256k1.Secrets.fromSecretKey self.privateKey)).val
    | .hardened _ => [0] ++ (Secp256k1.Secrets.secretBytes self.privateKey).val) ++
  toBeBytes i.toU32

def fingerprint (self : Xpriv) : Fingerprint := (Xpub.fromPriv self).fingerprint

/-- `Option::expect`; the outer `none` is the panic. -/
def expect (value : Option α) : ExceptT Error Option α := ExceptT.lift value

def ckdPriv (self : Xpriv) (i : ChildNumber) : ExceptT Error Option Xpriv := do
  let hmacResult := Hmac.sha512 self.chainCode.val (self.hmacInput i)
  let sk ← expect (Secp256k1.Secrets.secretKeyFromSlice (hmacResult.val.take 32))
  let tweaked ← expect (Secp256k1.Secrets.addTweak sk
    (Secp256k1.Secrets.scalarFromSecretKey self.privateKey))
  let depth ← ExceptT.mk (some (deeper self.depth))
  pure { network := self.network, depth, parentFingerprint := self.fingerprint, childNumber := i
         privateKey := tweaked, chainCode := chainCodeFromHmac hmacResult }

def derivePriv (self : Xpriv) (path : DerivationPath) : ExceptT Error Option Xpriv :=
  path.foldlM ckdPriv self

end Xpriv

namespace Xpriv
omit [Secp256k1] [Secp256k1.Secrets] [Hashes] [Hmac]

theorem expect_none_bind (next : α → ExceptT Error Option β) :
    expect none >>= next = ExceptT.mk none := rfl

theorem ok_bind (value : α) (next : α → Except Error β) : Except.ok value >>= next = next value := rfl

theorem expect_some_bind (value : α) (next : α → ExceptT Error Option β) :
    expect (some value) >>= next = next value := rfl

end Xpriv

/-- What the public chain shows of a private outcome: the public key of a key, an error
as it is, and a failed `expect` as an error of the curve library. -/
def publicOutcome (outcome : ExceptT Error Option Xpriv) : Except Error Xpub :=
  match outcome.run with
  | none => .error .secp256k1
  | some result => result.map Xpub.fromPriv

theorem ckdPub_fromPriv [Secp256k1.Tweaks] (sk : Xpriv) {child : ChildNumber}
    (normal : child.isNormal) :
    (Xpub.fromPriv sk).ckdPub child = publicOutcome (sk.ckdPriv child) := by
  cases child with
  | hardened index => simp [ChildNumber.isNormal, ChildNumber.isHardened] at normal
  | normal index =>
    -- both chains authenticate the same bytes under the same key
    have input : sk.hmacInput (.normal index) =
      (Secp256k1.serialize (Xpub.fromPriv sk).publicKey).val ++ toBeBytes index := rfl
    have chain : (Xpub.fromPriv sk).chainCode = sk.chainCode := rfl
    simp only [Xpub.ckdPub, Xpub.ckdPubTweak, Xpriv.ckdPriv, input, chain]
    generalize Hmac.sha512 _ _ = hmac
    cases Secp256k1.Secrets.secretKeyFromSlice (hmac.val.take 32) with
    | none => rfl
    | some tweak =>
      have tweaked := Secp256k1.Tweaks.fromSecretKey_addTweak sk.privateKey
        (Secp256k1.Secrets.scalarFromSecretKey tweak)
      have key : (Xpub.fromPriv sk).publicKey = Secp256k1.Secrets.fromSecretKey sk.privateKey := rfl
      simp only [Xpriv.ok_bind]
      rw [Xpriv.expect_some_bind, Secp256k1.Tweaks.addTweak_comm, key, ← tweaked]
      cases Secp256k1.Secrets.addTweak sk.privateKey _ with
      | none => rfl
      | some child =>
        rw [Xpriv.expect_some_bind]
        have depth : (Xpub.fromPriv sk).depth = sk.depth := rfl
        rw [depth]
        cases deeper sk.depth <;> rfl

theorem Xpub.derivePub_cons (self : Xpub) (child : ChildNumber) (path : DerivationPath) :
    self.derivePub (child :: path) = self.ckdPub child >>= (derivePub · path) := by
  exact List.foldlM_cons

theorem Xpriv.derivePriv_cons (self : Xpriv) (child : ChildNumber) (path : DerivationPath) :
    self.derivePriv (child :: path) = self.ckdPriv child >>= (derivePriv · path) := by
  exact List.foldlM_cons

/-- Along a path of normal children the public chain shows every private outcome. -/
theorem derivePub_fromPriv [Secp256k1.Tweaks] (sk : Xpriv) {path : DerivationPath}
    (normal : ∀ child ∈ path, child.isNormal) :
    (Xpub.fromPriv sk).derivePub path = publicOutcome (sk.derivePriv path) := by
  induction path generalizing sk with
  | nil => rfl
  | cons child path ih =>
    obtain ⟨first, rest⟩ := List.forall_mem_cons.mp normal
    rw [Xpub.derivePub_cons, Xpriv.derivePriv_cons, ckdPub_fromPriv sk first]
    obtain ⟨outcome, same⟩ : ∃ outcome, sk.ckdPriv child = ExceptT.mk outcome := ⟨_, rfl⟩
    rw [same]
    rcases outcome with _ | e | next
    · rfl
    · rfl
    · exact ih next rest

/-- The only error of a private step is the depth limit. -/
theorem Xpriv.ckdPriv_error {sk : Xpriv} {child : ChildNumber} {e : Error}
    (failed : (sk.ckdPriv child).run = some (.error e)) : e = .maximumDepthExceeded := by
  rw [ckdPriv] at failed
  generalize Hmac.sha512 _ _ = hmac at failed
  cases parsed : Secp256k1.Secrets.secretKeyFromSlice (hmac.val.take 32) with
  | none => simp [parsed, expect_none_bind] at failed
  | some tweak =>
    rw [parsed, expect_some_bind] at failed
    cases tweaked : Secp256k1.Secrets.addTweak tweak
        (Secp256k1.Secrets.scalarFromSecretKey sk.privateKey) with
    | none => simp [tweaked, expect_none_bind] at failed
    | some key =>
      rw [tweaked, expect_some_bind, deeper] at failed
      split at failed
      · exact (Except.error.inj (Option.some.inj failed)).symm
      · exact absurd (Option.some.inj failed) nofun

/-- A failed derivation got through a prefix of the path and failed on the next child. -/
theorem Xpriv.derivePriv_error {sk : Xpriv} {path : DerivationPath} {e : Error}
    (failed : (sk.derivePriv path).run = some (.error e)) :
    ∃ taken child rest last, path = taken ++ child :: rest ∧
      (sk.derivePriv taken).run = some (.ok last) ∧ (last.ckdPriv child).run = some (.error e) := by
  induction path generalizing sk with
  | nil => exact absurd (Option.some.inj failed) nofun
  | cons child path ih =>
    rw [derivePriv_cons] at failed
    obtain ⟨outcome, same⟩ : ∃ outcome, sk.ckdPriv child = ExceptT.mk outcome := ⟨_, rfl⟩
    rw [same] at failed
    rcases outcome with _ | e' | next
    · exact absurd failed nofun
    · exact ⟨[], child, path, sk, rfl, rfl, (congrArg ExceptT.run same).trans failed⟩
    · obtain ⟨taken, last, rest, key, split, through, stopped⟩ := ih failed
      refine ⟨child :: taken, last, rest, key, by rw [split]; rfl, ?_, stopped⟩
      rw [derivePriv_cons, same]
      exact through

theorem Xpub.derivePub_hardened {path : DerivationPath} (hardened : ∃ child ∈ path, ¬ child.isNormal)
    (self : Xpub) : ∃ e, self.derivePub path = .error e := by
  induction path generalizing self with
  | nil => simp at hardened
  | cons child path ih =>
    rw [derivePub_cons]
    cases stepped : self.ckdPub child with
    | error e => exact ⟨e, rfl⟩
    | ok next =>
      have normal : child.isNormal := by
        cases child with
        | normal index => rfl
        | hardened index => simp [ckdPub, ckdPubTweak, bind, Except.bind] at stepped
      obtain ⟨other, member, notNormal⟩ := hardened
      rcases List.mem_cons.mp member with rfl | later
      · exact absurd normal notNormal
      · exact ih ⟨other, later, notNormal⟩ next

/-- Where both chains stop at the depth limit: after the same children, at the same
one. -/
def StopTogether (sk : Xpriv) (path : DerivationPath) : Prop :=
  ∃ taken child rest last, path = taken ++ child :: rest ∧
    (sk.derivePriv taken).run = some (.ok last) ∧
    (last.ckdPriv child).run = some (.error .maximumDepthExceeded) ∧
    (Xpub.fromPriv sk).derivePub taken = .ok (Xpub.fromPriv last) ∧
    (Xpub.fromPriv last).ckdPub child = .error .maximumDepthExceeded

/-- Along normal children the chains agree in every field of the result or stop together
at the depth limit; only where an `expect` of the private chain panics does the public
chain report an error of its own. Paths compose in both chains, and the public chain
fails on hardened children. -/
theorem derivations_commute [Secp256k1.Tweaks] :
    (∀ (sk : Xpriv) (path : DerivationPath), (∀ child ∈ path, child.isNormal) →
      (∀ result, (sk.derivePriv path).run = some result →
        (∃ derived, result = .ok derived ∧
          (Xpub.fromPriv sk).derivePub path = .ok (Xpub.fromPriv derived)) ∨
        (result = .error .maximumDepthExceeded ∧
          (Xpub.fromPriv sk).derivePub path = .error .maximumDepthExceeded ∧
          StopTogether sk path)) ∧
      ((sk.derivePriv path).run = none →
        (Xpub.fromPriv sk).derivePub path = .error .secp256k1)) ∧
    (∀ (sk : Xpriv) (path more : DerivationPath),
      sk.derivePriv (path ++ more) = sk.derivePriv path >>= (Xpriv.derivePriv · more)) ∧
    (∀ (pk : Xpub) (path more : DerivationPath),
      pk.derivePub (path ++ more) = pk.derivePub path >>= (Xpub.derivePub · more)) ∧
    ∀ (pk : Xpub) (path : DerivationPath), (∃ child ∈ path, ¬ child.isNormal) →
      ∃ e, pk.derivePub path = .error e := by
  refine ⟨fun sk path normal => ⟨fun result returned => ?_, fun panicked => ?_⟩, ?_, ?_, ?_⟩
  · have shown := derivePub_fromPriv sk normal
    rw [publicOutcome, returned] at shown
    cases result with
    | ok derived => exact .inl ⟨derived, rfl, shown⟩
    | error e =>
      obtain ⟨taken, child, rest, last, split, through, stopped⟩ := Xpriv.derivePriv_error returned
      obtain rfl := Xpriv.ckdPriv_error stopped
      rw [split] at normal
      obtain ⟨before, after⟩ := List.forall_mem_append.mp normal
      refine .inr ⟨rfl, shown, taken, child, rest, last, split, through, stopped, ?_, ?_⟩
      · rw [derivePub_fromPriv sk before, publicOutcome, through]
        rfl
      · rw [ckdPub_fromPriv last (after child List.mem_cons_self), publicOutcome, stopped]
        rfl
  · rw [derivePub_fromPriv sk normal, publicOutcome, panicked]
  · intro sk path more
    exact List.foldlM_append
  · intro pk path more
    exact List.foldlM_append
  · intro pk path hardened
    exact Xpub.derivePub_hardened hardened pk

end

/-! The keys below `m/0'/1/2'` of the first test vector in `bip32.rs`. -/
namespace Vector
open Secp256k1

def parentKey : Exponent := ⟨0xcbce0d719ecf7431d88e6a89fa1483e02e35092af60c042b1df2ff59fa424dca, by decide⟩
def childKey : Exponent := ⟨0xf479245fb19a38a1954c5c7c0ebab2f9bdfd96a17563ef28a6a4b1a2a764ef4, by decide⟩
def grandchildKey : Exponent := ⟨0x471b76e389e528d6de6d816857e012c5455051cad6660850e58372a6c3e6e7c8, by decide⟩

def parentPublic : ByteArr 33 :=
  ⟨[0x03, 0x57, 0xbf, 0xe1, 0xe3, 0x41, 0xd0, 0x1c, 0x69, 0xfe, 0x56, 0x54, 0x30, 0x99, 0x56, 0xcb,
    0xea, 0x51, 0x68, 0x22, 0xfb, 0xa8, 0xa6, 0x01, 0x74, 0x3a, 0x01, 0x2a, 0x78, 0x96, 0xee, 0x8d,
    0xc2], rfl⟩

def childPublic : ByteArr 33 :=
  ⟨[0x02, 0xe8, 0x44, 0x50, 0x82, 0xa7, 0x2f, 0x29, 0xb7, 0x5c, 0xa4, 0x87, 0x48, 0xa9, 0x14, 0xdf,
    0x60, 0x62, 0x2a, 0x60, 0x9c, 0xac, 0xfc, 0xe8, 0xed, 0x0e, 0x35, 0x80, 0x45, 0x60, 0x74, 0x1d,
    0x29], rfl⟩

def grandchildPublic : ByteArr 33 :=
  ⟨[0x02, 0x2a, 0x47, 0x14, 0x24, 0xda, 0x5e, 0x65, 0x74, 0x99, 0xd1, 0xff, 0x51, 0xcb, 0x43, 0xc4,
    0x74, 0x81, 0xa0, 0x3b, 0x1e, 0x77, 0xf9, 0x51, 0xfe, 0x64, 0xce, 0xc9, 0xf5, 0xa4, 0x8f, 0x70,
    0x11], rfl⟩

def parentChain : ByteArr 32 :=
  ⟨[0x04, 0x46, 0x6b, 0x9c, 0xc8, 0xe1, 0x61, 0xe9, 0x66, 0x40, 0x9c, 0xa5, 0x29, 0x86, 0xc5, 0x84,
    0xf0, 0x7e, 0x9d, 0xc8, 0x1f, 0x73, 0x5d, 0xb6, 0x83, 0xc3, 0xff, 0x6e, 0xc7, 0xb1, 0x50, 0x3f], rfl⟩

def childHmac : ByteArr 64 :=
  ⟨[0x43, 0x79, 0x84, 0xd4, 0x5c, 0x4a, 0x2f, 0x58, 0x40, 0xc6, 0x5b, 0x3d, 0xc6, 0xd7, 0x27, 0x4e,
    0x28, 0x59, 0xad, 0x25, 0xd0, 0x92, 0xdb, 0x03, 0x2c, 0x49, 0xaa, 0x4d, 0x00, 0x6a, 0x42, 0x6b,
    0xcf, 0xb7, 0x18, 0x83, 0xf0, 0x16, 0x76, 0xf5, 0x87, 0xd0, 0x23, 0xcc, 0x53, 0xa3, 0x5b, 0xc7,
    0xf8, 0x8f, 0x72, 0x4b, 0x1f, 0x8c, 0x28, 0x92, 0xac, 0x12, 0x75, 0xac, 0x82, 0x2a, 0x3e, 0xdd], rfl⟩

def grandchildHmac : ByteArr 64 :=
  ⟨[0x37, 0xd3, 0xe4, 0x9d, 0x8e, 0xcb, 0x85, 0x4c, 0xc5, 0x18, 0xbb, 0xa0, 0x96, 0xf4, 0x67, 0x95,
    0xa9, 0x70, 0x78, 0x60, 0xbf, 0x0f, 0xc9, 0x5e, 0x5b, 0x19, 0x27, 0x8c, 0x99, 0x70, 0x98, 0xd4,
    0xc7, 0x83, 0xe6, 0x7b, 0x92, 0x1d, 0x2b, 0xeb, 0x8f, 0x6b, 0x38, 0x9c, 0xc6, 0x46, 0xd7, 0x26,
    0x3b, 0x41, 0x45, 0x70, 0x1d, 0xad, 0xd2, 0x16, 0x15, 0x48, 0xa8, 0xb0, 0x78, 0xe6, 0x5e, 0x9e], rfl⟩

def parentIdentifier : ByteArr 20 :=
  ⟨[0xee, 0x7a, 0xb9, 0x0c, 0xde, 0x56, 0xa8, 0xc0, 0xe2, 0xbb, 0x08, 0x6a, 0xc4, 0x97, 0x48, 0xb8,
    0xdb, 0x9d, 0xce, 0x72], rfl⟩

def childIdentifier : ByteArr 20 :=
  ⟨[0xd8, 0x80, 0xd7, 0xd8, 0x93, 0x84, 0x85, 0x09, 0xa6, 0x2d, 0x8f, 0xb7, 0x4e, 0x32, 0x14, 0x8d,
    0xac, 0x68, 0x41, 0x2f], rfl⟩

/-- The public keys of the three keys above. -/
def serialize (key : Exponent) : ByteArr 33 :=
  if key = parentKey then parentPublic else if key = childKey then childPublic
  else grandchildPublic

@[reducible] def hashes : Hashes :=
  { Hashes.ofEmpty with
    hash160 := fun bytes => if bytes = parentPublic.val then parentIdentifier else childIdentifier }

@[reducible] def hmac : Hmac where
  sha512 key message :=
    if key = parentChain.val ∧ message = parentPublic.val ++ [0, 0, 0, 2] then childHmac
    else grandchildHmac

end Vector

/-- `m/0'/1/2'`. -/
def vectorParent : @Xpriv (Secp256k1.exponents Vector.serialize)
    (Secp256k1.exponentSecrets Vector.serialize) :=
  letI := Secp256k1.exponents Vector.serialize
  letI := Secp256k1.exponentSecrets Vector.serialize
  { network := .main, depth := 3, parentFingerprint := ⟨[0xbe, 0xf5, 0xa2, 0xf9], rfl⟩
    childNumber := .hardened 2, privateKey := Vector.parentKey
    chainCode := Vector.parentChain }

/-- `m/0'/1/2'/2/1000000000`. -/
def vectorGrandchild : @Xpriv (Secp256k1.exponents Vector.serialize)
    (Secp256k1.exponentSecrets Vector.serialize) :=
  letI := Secp256k1.exponents Vector.serialize
  letI := Secp256k1.exponentSecrets Vector.serialize
  { network := .main, depth := 5, parentFingerprint := ⟨[0xd8, 0x80, 0xd7, 0xd8], rfl⟩
    childNumber := .normal 1000000000, privateKey := Vector.grandchildKey
    chainCode := chainCodeFromHmac Vector.grandchildHmac }

def vectorPath : DerivationPath := [.normal 2, .normal 1000000000]

theorem vectorParent_derivePriv :
    letI := Secp256k1.exponents Vector.serialize
    letI := Secp256k1.exponentSecrets Vector.serialize
    letI := Vector.hashes
    letI := Vector.hmac
    (vectorParent.derivePriv vectorPath).run = some (.ok vectorGrandchild) := by
  rfl

theorem vector_commutes :
    letI := Secp256k1.exponents Vector.serialize
    letI := Secp256k1.exponentSecrets Vector.serialize
    letI := Vector.hashes
    letI := Vector.hmac
    (Xpub.fromPriv vectorParent).derivePub vectorPath = .ok (Xpub.fromPriv vectorGrandchild) := by
  let _ := Secp256k1.exponents Vector.serialize
  let _ := Secp256k1.exponentSecrets Vector.serialize
  let _ := Vector.hashes
  let _ := Vector.hmac
  have := Secp256k1.exponents_tweaks Vector.serialize
  obtain ⟨key, same, shown⟩ | ⟨failed, _⟩ :=
    (derivations_commute.1 vectorParent vectorPath (by decide)).1 _ vectorParent_derivePriv
  · obtain rfl := Except.ok.inj same
    exact shown
  · exact absurd failed nofun
end Litecoin.Bip32
