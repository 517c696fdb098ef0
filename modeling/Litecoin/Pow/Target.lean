import Litecoin.Pow.U256

/-! Targets, their compact form and the difficulty adjustment (`pow.rs`,
`consensus/params.rs`). -/
namespace Litecoin.Pow

/-- `CompactTarget(u32)`. -/
abbrev CompactTarget : Type := BitVec 32

/-- The parameters the adjustment reads. -/
structure Params where
  maxAttainableTarget : U256
  powTargetTimespan : BitVec 64
  noPowRetargeting : Bool
deriving DecidableEq

namespace Target

def maxAttainableMainnet : U256 := ⟨0x0ffff0#128 <<< 88, 0⟩

def maxAttainableTestnet : U256 := ⟨0x0fffff#128 <<< 88, 0⟩

def fromCompact (bits : CompactTarget) : U256 :=
  let unshiftedExpt := (bits >>> 24).toNat
  let (mant, expt) :=
    if unshiftedExpt ≤ 3 then ((bits &&& 0xFFFFFF#32) >>> (8 * (3 - unshiftedExpt)), 0)
    else (bits &&& 0xFFFFFF#32, 8 * (unshiftedExpt - 3))
  -- The mantissa is signed but may not be negative.
  if 0x7FFFFF#32 < mant then .zero
  else (U256.ofU128 (mant.setWidth 128)).wrappingShl expt

/-- The value `compact` starts with, for a target of `size` bytes. -/
def leadingBytes (target : U256) (size : Nat) : BitVec 32 :=
  if size ≤ 3 then (target.lowU64 <<< (8 * (3 - size))).setWidth 32
  else (target.wrappingShr (8 * (size - 3))).lowU32

def toCompactLossy (target : U256) : CompactTarget :=
  let size := (target.bits + 7) / 8
  let compact := leadingBytes target size
  if compact &&& 0x00800000#32 ≠ 0 then compact >>> 8 ||| BitVec.ofNat 32 (size + 1) <<< 24
  else compact ||| BitVec.ofNat 32 size <<< 24

def maxTransitionThresholdUnchecked (target : U256) : U256 := target.wrappingShl 2

def maxTransitionThreshold (target : U256) (params : Params) : U256 :=
  let unchecked := maxTransitionThresholdUnchecked target
  if unchecked.le params.maxAttainableTarget then unchecked else params.maxAttainableTarget

end Target

namespace Params

def mainnet : Params where
  maxAttainableTarget := Target.maxAttainableMainnet
  powTargetTimespan := 150 * 2016
  noPowRetargeting := false

def testnet4 : Params where
  maxAttainableTarget := Target.maxAttainableTestnet
  powTargetTimespan := 150 * 2016
  noPowRetargeting := false

end Params

/-- `u64::clamp`, which asserts that the bounds are in order. -/
def clamp (value lower upper : BitVec 64) : Option (BitVec 64) :=
  if upper < lower then none
  else if value < lower then some lower
  else if upper < value then some upper
  else some value

def fromNextWorkRequired (last : CompactTarget) (timespan : BitVec 64) (params : Params) :
    Option CompactTarget :=
  if params.noPowRetargeting then some last
  else do
    let minTimespan := params.powTargetTimespan >>> 2
    let maxTimespan := params.powTargetTimespan <<< 2
    let actualTimespan ← clamp timespan minTimespan maxTimespan
    let prevTarget := Target.fromCompact last
    let maximumRetarget := Target.maxTransitionThreshold prevTarget params
    let retarget ← prevTarget.mul (U256.ofU128 (actualTimespan.setWidth 128))
    let retarget ← retarget.div (U256.ofU128 (params.powTargetTimespan.setWidth 128))
    if maximumRetarget.le retarget then some (Target.toCompactLossy maximumRetarget)
    else some (Target.toCompactLossy retarget)

end Litecoin.Pow
