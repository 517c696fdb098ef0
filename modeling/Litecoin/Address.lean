import Litecoin.Bip32
import Litecoin.Script.Template
import Litecoin.Wire.Outcome

/-! Addresses and the output scripts they stand for (`address/mod.rs`). The tag for a checked
network carries no data and is left out. -/
namespace Litecoin
open Wire Consensus Script
open Bip32 (NetworkKind)

inductive Network where
  | bitcoin
  | testnet4
  | signet
  | regtest
deriving DecidableEq, Repr

/-- `From<Network> for NetworkKind`. -/
def Network.kind : Network → NetworkKind
  | .bitcoin => .main
  | .testnet4 | .signet | .regtest => .test

inductive KnownHrp where
  | mainnet
  | testnets
  | regtest
deriving DecidableEq, Repr

/-- `KnownHrp::from_network`. -/
def KnownHrp.fromNetwork : Network → KnownHrp
  | .bitcoin => mainnet
  | .testnet4 | .signet => testnets
  | .regtest => regtest

/-- A compressed public key, as both constructors of a stealth address require. -/
abbrev StealthKey [Secp256k1] : Type :=
  { key : ByteArr 33 // (Secp256k1.publicKeyFromSlice key.val).isSome }

/-- `AddressInner`. -/
inductive Address [Secp256k1] where
  | p2pkh (hash : ByteArr 20) (network : NetworkKind)
  | p2sh (hash : ByteArr 20) (network : NetworkKind)
  | segwit (program : WitnessProgram) (hrp : KnownHrp)
  | mweb (scan spend : StealthKey) (network : NetworkKind)
deriving DecidableEq

namespace Address

/-- A slice of a script as an array; a slice out of range panics. -/
def sliceArray (script : ScriptBuf) (start n : Nat) : Option (ByteArr n) :=
  if length : ((script.drop start).take n).length = n then some ⟨(script.drop start).take n, length⟩
  else none

inductive FromScriptError where
  | unrecognizedScript
  | witnessProgram (e : WitnessProgramError)
  | witnessVersion (e : WitnessVersion.TryFromError)
deriving DecidableEq, Repr

section
variable [Secp256k1]

/-- `Address::from_script`. -/
def fromScript (script : ScriptBuf) (network : Network) : ExceptT FromScriptError Option Address := do
  if ← orPanic script.isP2pkh then do
    let hash ← orPanic (sliceArray script 3 20)
    pure (.p2pkh hash network.kind)
  else if ← orPanic script.isP2sh then do
    let hash ← orPanic (sliceArray script 2 20)
    pure (.p2sh hash network.kind)
  else if ← orPanic script.isWitnessProgram then do
    let opcode ← orPanic script.head?
    let version ← liftM ((WitnessVersion.tryFromOpcode ⟨opcode⟩).mapError FromScriptError.witnessVersion)
    -- `script.as_bytes()[2..]` panics on a shorter script.
    let bytes ← orPanic (if 2 ≤ script.length then some (script.drop 2) else none)
    let program ← liftM ((WitnessProgram.new version bytes).mapError FromScriptError.witnessProgram)
    pure (.segwit program (.fromNetwork network))
  else throw .unrecognizedScript

/-- `Address::script_pubkey`; a stealth address has no script. -/
def scriptPubkey : Address → Option ScriptBuf
  | p2pkh hash _ => ScriptBuf.newP2pkh hash
  | p2sh hash _ => ScriptBuf.newP2sh hash
  | segwit program _ => ScriptBuf.newWitnessProgramUnchecked program.version program.pushBytes
  | mweb _ _ _ => some ScriptBuf.new

/-- The prefix or human-readable part of the address is that of a network. -/
def BelongsTo : Address → Network → Prop
  | p2pkh _ kind, network => kind = network.kind
  | p2sh _ kind, network => kind = network.kind
  | segwit _ hrp, network => hrp = .fromNetwork network
  | mweb _ _ kind, network => kind = network.kind

def isMweb : Address → Bool
  | mweb _ _ _ => true
  | _ => false

end
end Address
end Litecoin
