import Mathlib.Tactic.SplitIfs

/-! The hash types of signatures (`crypto/sighash.rs`). -/
namespace Litecoin.Sighash

inductive EcdsaSighashType where
  | all
  | none
  | single
  | allPlusAnyoneCanPay
  | nonePlusAnyoneCanPay
  | singlePlusAnyoneCanPay
deriving DecidableEq, Repr

namespace EcdsaSighashType

def toU32 : EcdsaSighashType → UInt32
  | all => 0x01
  | none => 0x02
  | single => 0x03
  | allPlusAnyoneCanPay => 0x81
  | nonePlusAnyoneCanPay => 0x82
  | singlePlusAnyoneCanPay => 0x83

def splitAnyonecanpayFlag : EcdsaSighashType → EcdsaSighashType × Bool
  | all => (all, false)
  | none => (none, false)
  | single => (single, false)
  | allPlusAnyoneCanPay => (all, true)
  | nonePlusAnyoneCanPay => (none, true)
  | singlePlusAnyoneCanPay => (single, true)

def isSingle : EcdsaSighashType → Bool
  | single | singlePlusAnyoneCanPay => true
  | _ => false

def fromConsensus (n : UInt32) : EcdsaSighashType :=
  let masked := n &&& (0x1f ||| 0x80)
  if masked = 0x01 then all
  else if masked = 0x02 then none
  else if masked = 0x03 then single
  else if masked = 0x81 then allPlusAnyoneCanPay
  else if masked = 0x82 then nonePlusAnyoneCanPay
  else if masked = 0x83 then singlePlusAnyoneCanPay
  else if masked &&& 0x80 = 0x80 then allPlusAnyoneCanPay
  else all

/-- The error is the non-standard value. -/
def fromStandard (n : UInt32) : Except UInt32 EcdsaSighashType :=
  if n = 0x01 then .ok all
  else if n = 0x02 then .ok none
  else if n = 0x03 then .ok single
  else if n = 0x81 then .ok allPlusAnyoneCanPay
  else if n = 0x82 then .ok nonePlusAnyoneCanPay
  else if n = 0x83 then .ok singlePlusAnyoneCanPay
  else .error n

theorem fromStandard_toU32 (sighashType : EcdsaSighashType) :
    fromStandard sighashType.toU32.toUInt8.toUInt32 = .ok sighashType := by
  cases sighashType <;> rfl

end EcdsaSighashType

inductive TapSighashType where
  | default
  | all
  | none
  | single
  | allPlusAnyoneCanPay
  | nonePlusAnyoneCanPay
  | singlePlusAnyoneCanPay
deriving DecidableEq, Repr

namespace TapSighashType

/-- `sighash_type as u8`. -/
def toU8 : TapSighashType → UInt8
  | default => 0x00
  | all => 0x01
  | none => 0x02
  | single => 0x03
  | allPlusAnyoneCanPay => 0x81
  | nonePlusAnyoneCanPay => 0x82
  | singlePlusAnyoneCanPay => 0x83

def splitAnyonecanpayFlag : TapSighashType → TapSighashType × Bool
  | default => (default, false)
  | all => (all, false)
  | none => (none, false)
  | single => (single, false)
  | allPlusAnyoneCanPay => (all, true)
  | nonePlusAnyoneCanPay => (none, true)
  | singlePlusAnyoneCanPay => (single, true)

/-- The error is the invalid value. -/
def fromConsensusU8 (n : UInt8) : Except UInt32 TapSighashType :=
  if n = 0x00 then .ok default
  else if n = 0x01 then .ok all
  else if n = 0x02 then .ok none
  else if n = 0x03 then .ok single
  else if n = 0x81 then .ok allPlusAnyoneCanPay
  else if n = 0x82 then .ok nonePlusAnyoneCanPay
  else if n = 0x83 then .ok singlePlusAnyoneCanPay
  else .error n.toUInt32

theorem fromConsensusU8_toU8 (sighashType : TapSighashType) :
    fromConsensusU8 sighashType.toU8 = .ok sighashType := by
  cases sighashType <;> rfl

theorem toU8_fromConsensusU8 {n : UInt8} (read : fromConsensusU8 n = .ok sighashType) :
    sighashType.toU8 = n := by
  unfold fromConsensusU8 at read
  split_ifs at read with h0 h1 h2 h3 h4 h5 h6
  all_goals obtain rfl := Except.ok.inj read
  · exact h0.symm
  · exact h1.symm
  · exact h2.symm
  · exact h3.symm
  · exact h4.symm
  · exact h5.symm
  · exact h6.symm

end TapSighashType
end Litecoin.Sighash
