import Litecoin.Address
import Litecoin.Base58
import Litecoin.Bech32

/-! The text of an address: `Display` and `FromStr` (`address/mod.rs`). -/
namespace Litecoin
open Wire Consensus Script Bech32
open Bip32 (NetworkKind)

namespace KnownHrp

/-- `KnownHrp::to_hrp`. -/
def toHrp : KnownHrp → Bytes
  | mainnet => ascii "ltc"
  | testnets => ascii "tltc"
  | regtest => ascii "rltc"

/-- `KnownHrp::from_hrp`; the error carries the human-readable part in lower case. -/
def fromHrp (hrp : Bytes) : Except Bytes KnownHrp :=
  if hrp = ascii "ltc" then .ok mainnet
  else if hrp = ascii "tltc" then .ok testnets
  else if hrp = ascii "rltc" then .ok regtest
  else .error hrp

end KnownHrp

namespace Address

/-- `mweb_hrp_for`. -/
def mwebHrpFor : NetworkKind → Bytes
  | .main => ascii "ltcmweb"
  | .test => ascii "tmweb"

/-- The network of the human-readable part of a stealth address. -/
def mwebNetwork (hrp : Bytes) : Option NetworkKind :=
  if hrp = ascii "ltcmweb" then some .main else if hrp = ascii "tmweb" then some .test else none

def pubkeyAddressPrefix : NetworkKind → UInt8
  | .main => 48
  | .test => 111

def scriptAddressPrefix : NetworkKind → UInt8
  | .main => 50
  | .test => 58

/-- `litecoin_uses_bech32`. -/
def litecoinUsesBech32 : WitnessVersion → Bool
  | .v0 | .v8 | .v9 => true
  | _ => false

/-- The checksum a witness version is written with. -/
def checksumFor (version : WitnessVersion) : ChecksumKind :=
  if litecoinUsesBech32 version then .bech32 else .bech32m

/-- `WitnessVersion::to_fe`. -/
def toFe (version : WitnessVersion) : Fe32 := ⟨version.toNum.toNat, by cases version <;> decide⟩

/-- `address::ParseError`, as far as `from_str` returns it. -/
inductive ParseError where
  | base58 (e : Base58.Error)
  | witnessProgram (e : WitnessProgramError)
  | unknownHrp (hrp : Bytes)
  | legacyAddressTooLong (length : Nat)
  | invalidBase58PayloadLength (length : Nat)
  | invalidLegacyPrefix (invalid : UInt8)
deriving DecidableEq, Repr

variable [Secp256k1] [Bech32]

/-- `litecoin_segwit_encode_lower`. -/
def litecoinSegwitEncodeLower (hrp : Bytes) (version : WitnessVersion) (program : Bytes) : Bytes :=
  if litecoinUsesBech32 version then Bech32.encode .bech32 hrp (toFe version) (bytesToFes program)
  else Bech32.encode .bech32m hrp (toFe version) (bytesToFes program)

/-- `litecoin_segwit_encode_upper`. -/
def litecoinSegwitEncodeUpper (hrp : Bytes) (version : WitnessVersion) (program : Bytes) : Bytes :=
  if litecoinUsesBech32 version then
    upper (Bech32.encode .bech32 hrp (toFe version) (bytesToFes program))
  else upper (Bech32.encode .bech32m hrp (toFe version) (bytesToFes program))

/-- `Display`, with the alternate form set or not. `none` is a panic of the base58 encoder, for
which overflow is checked: nothing so short overflows. -/
def display [Hashes] (alternate : Bool) : Address → Option Bytes
  | p2pkh hash network => Base58.encodeCheck true (pubkeyAddressPrefix network :: hash.val)
  | p2sh hash network => Base58.encodeCheck true (scriptAddressPrefix network :: hash.val)
  | segwit program hrp =>
    if alternate then some (litecoinSegwitEncodeUpper hrp.toHrp program.version program.program)
    else some (litecoinSegwitEncodeLower hrp.toHrp program.version program.program)
  | mweb scan spend network =>
    let bytes := Bech32.encode .bech32 (mwebHrpFor network) .q
      (bytesToFes (scan.val.val ++ spend.val.val))
    if alternate then some (upper bytes) else some bytes

/-- A compressed key from its bytes. -/
def stealthKey (bytes : Bytes) : Option StealthKey :=
  if length : bytes.length = 33 then
    if valid : (Secp256k1.publicKeyFromSlice bytes).isSome then some ⟨⟨bytes, length⟩, valid⟩ else none
  else none

/-- `litecoin_mweb_decode`. -/
def litecoinMwebDecode (s : Bytes) : Option (StealthKey × StealthKey × NetworkKind) := do
  let (hrp, symbols) ← uncheckedHrpstring s
  let network ← mwebNetwork hrp
  if hasValidChecksum .bech32 hrp symbols = false then none else do
    let (version, data) ← (removeChecksum symbols).head?.map (·, (removeChecksum symbols).tail)
    if version.val ≠ 0 then none else do
      let bytes := fesToBytes data
      if bytes.length ≠ 66 then none else do
        let scan ← stealthKey (bytes.take 33)
        let spend ← stealthKey (bytes.drop 33)
        some (scan, spend, network)

/-- `litecoin_segwit_decode`. -/
def litecoinSegwitDecode (s : Bytes) : Option (Bytes × WitnessVersion × Bytes) := do
  let (hrp, symbols) ← uncheckedHrpstring s
  let validBech32 := hasValidChecksum .bech32 hrp symbols
  let validBech32m := hasValidChecksum .bech32m hrp symbols
  if validBech32 = false ∧ validBech32m = false then none else do
    -- Both checksums have six symbols.
    let checked := removeChecksum symbols
    let (versionFe, data) ← checked.head?.map (·, checked.tail)
    let program := fesToBytes data
    let version ← (WitnessVersion.tryFromU8 (UInt8.ofNat versionFe.val)).toOption
    let expectedBech32 := litecoinUsesBech32 version
    if expectedBech32 = true ∧ validBech32 = false then none
    else if expectedBech32 = false ∧ validBech32m = false then none
    else some (hrp, version, program)

/-- The end of `from_str`, where the text is a legacy address. -/
def legacyFromStr [Hashes] (s : Bytes) : ExceptT ParseError Option Address := do
  if 50 < s.length then throw (.legacyAddressTooLong s.length) else do
    let data ← ExceptT.mk ((Base58.decodeCheck s).run.map (Except.mapError ParseError.base58))
    if whole : data.length = 21 then
      let hash : ByteArr 20 := ⟨data.tail, by rw [List.length_tail, whole]⟩
      let leading := data.headD 0
      if leading = 48 then pure (.p2pkh hash .main)
      else if leading = 111 then pure (.p2pkh hash .test)
      else if leading = 50 then pure (.p2sh hash .main)
      else if leading = 58 then pure (.p2sh hash .test)
      -- The prefixes of old script addresses are still read.
      else if leading = 0x05 then pure (.p2sh hash .main)
      else if leading = 0xc4 then pure (.p2sh hash .test)
      else throw (.invalidLegacyPrefix leading)
    else throw (.invalidBase58PayloadLength s.length)

/-- `FromStr for Address`. -/
def fromStr [Hashes] (s : Bytes) : ExceptT ParseError Option Address :=
  match litecoinMwebDecode s with
  | some (scan, spend, network) => pure (.mweb scan spend network)
  | none =>
    match litecoinSegwitDecode s with
    | some (hrp, version, data) => do
      let program ← liftM ((WitnessProgram.new version data).mapError ParseError.witnessProgram)
      let hrp ← liftM ((KnownHrp.fromHrp hrp).mapError ParseError.unknownHrp)
      pure (.segwit program hrp)
    | none => legacyFromStr s

end Address
end Litecoin
