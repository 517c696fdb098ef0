import Litecoin.Blockdata.Block
import Litecoin.Pow.Target

/-! The difficulty adjustment from the headers at both ends of an epoch (`pow.rs`). -/
namespace Litecoin.Pow
open Blockdata

/-- `current.time - last_epoch_boundary.time`, which panics when it underflows. -/
def netTime (lastEpochBoundary current : Header) : Option UInt32 :=
  if current.time < lastEpochBoundary.time then none
  else some (current.time - lastEpochBoundary.time)

def fromHeaderDifficultyAdjustment (lastEpochBoundary current : Header) (params : Params) :
    Option CompactTarget := do
  let timespan ← netTime lastEpochBoundary current
  fromNextWorkRequired current.bits.toBitVec (timespan.toBitVec.setWidth 64) params

/-- The signed time between two headers, with nothing below zero. -/
def elapsed (lastEpochBoundary current : Header) : Int :=
  max 0 (current.time.toNat - lastEpochBoundary.time.toNat)

/-- The adjustment is that of the elapsed time, and no subtraction underflows. -/
def RetargetsElapsed (lastEpochBoundary current : Header) (params : Params) : Prop :=
  netTime lastEpochBoundary current ≠ none ∧
    fromHeaderDifficultyAdjustment lastEpochBoundary current params =
      fromNextWorkRequired current.bits.toBitVec
        (BitVec.ofInt 64 (elapsed lastEpochBoundary current)) params

variable {lastEpochBoundary current : Header}

theorem netTime_eq_none : netTime lastEpochBoundary current = none ↔
    current.time < lastEpochBoundary.time := by
  rw [netTime]
  split_ifs with earlier
  · exact iff_of_true rfl earlier
  · exact iff_of_false nofun earlier

theorem netTime_eq_elapsed (ordered : lastEpochBoundary.time ≤ current.time) :
    ∃ timespan, netTime lastEpochBoundary current = some timespan ∧
      timespan.toBitVec.setWidth 64 = BitVec.ofInt 64 (elapsed lastEpochBoundary current) := by
  refine ⟨_, if_neg (UInt32.not_lt.mpr ordered), ?_⟩
  have below := UInt32.le_iff_toNat_le.mp ordered
  have range := current.time.toNat_lt
  have signed : elapsed lastEpochBoundary current =
      ((current.time.toNat - lastEpochBoundary.time.toNat : Nat) : Int) := by
    rw [elapsed]
    omega
  rw [signed, BitVec.ofInt_natCast, ← BitVec.toNat_inj, BitVec.toNat_setWidth_of_le (by decide),
    UInt32.toNat_toBitVec, UInt32.toNat_sub_of_le _ _ ordered, BitVec.toNat_ofNat,
    Nat.mod_eq_of_lt (by omega)]

/-- The time between the headers is the elapsed time exactly if they are in order. -/
theorem retargetsElapsed_iff (lastEpochBoundary current : Header) (params : Params) :
    RetargetsElapsed lastEpochBoundary current params ↔ lastEpochBoundary.time ≤ current.time := by
  constructor
  · rintro ⟨some_, _⟩
    exact UInt32.not_lt.mp (mt netTime_eq_none.mpr some_)
  · intro ordered
    obtain ⟨timespan, net, same⟩ := netTime_eq_elapsed ordered
    refine ⟨net ▸ nofun, ?_⟩
    rw [fromHeaderDifficultyAdjustment, net, ← same]
    rfl

/-- A header of the main network's limit with the given time. -/
def limitHeader (time : UInt32) : Header where
  version := 2
  prevBlockhash := ⟨List.replicate 32 3, rfl⟩
  merkleRoot := ⟨List.replicate 32 4, rfl⟩
  time
  bits := 0x1e0ffff0
  nonce := 0

/-- The last block of the epoch is one second older than the first one. -/
theorem limitHeader_not_retargetsElapsed :
    ¬ RetargetsElapsed (limitHeader 1) (limitHeader 0) .mainnet := by
  rintro ⟨some_, _⟩
  exact some_ rfl

end Litecoin.Pow
