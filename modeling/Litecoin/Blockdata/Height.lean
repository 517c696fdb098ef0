import Litecoin.Blockdata.Block
import Litecoin.Script.Number

/-! The block height in the coinbase (`bip34_block_height` of `blockdata/block.rs`). -/
namespace Litecoin.Blockdata
open Wire Consensus Script

inductive Bip34Error where
  | unsupported
  | notPresent
  | unexpectedPush (bytes : Bytes)
  | negativeHeight
deriving DecidableEq

/-- `Version::TWO`. -/
def versionTwo : Int32 := 2

namespace Block

/-- The height that an instruction pushes. -/
def heightOf : Instruction → Except Bip34Error UInt64
  | .pushBytes b => match readScriptint b.val with
    | .error _ => .error (.unexpectedPush b.val)
    | .ok h => if h < 0 then .error .negativeHeight else .ok (UInt64.ofNat h.toNat)
  | .op _ => .error .notPresent

/-- The height that the first instruction of a script pushes. -/
def heightIn (scriptSig : Bytes) : Except Bip34Error UInt64 :=
  match Instructions.next { data := scriptSig, enforceMinimal := true } with
  | none | some (.error _, _) => .error .notPresent
  | some (.ok push, _) => heightOf push

variable [Secp256k1]

def coinbase (block : Block) : Option Transaction := block.txdata.toList.head?

def bip34BlockHeight (block : Block) : Except Bip34Error UInt64 :=
  if block.header.version < versionTwo then .error .unsupported
  else match block.coinbase with
    | none => .error .notPresent
    | some cb => match cb.input.toList.head? with
      | none => .error .notPresent
      | some input => heightIn input.scriptSig.toList

/-- The block is new enough, and its coinbase has the script in its first input. -/
structure Signed (block : Block) (scriptSig : Bytes) : Prop where
  version : versionTwo ≤ block.header.version
  coinbase : ∃ cb input, block.coinbase = some cb ∧ cb.input.toList.head? = some input ∧
    input.scriptSig.toList = scriptSig

theorem Signed.height {block : Block} {scriptSig : Bytes} (signed : block.Signed scriptSig) :
    block.bip34BlockHeight = heightIn scriptSig := by
  obtain ⟨version, cb, input, first, spent, rfl⟩ := signed
  rw [bip34BlockHeight, if_neg (Int32.not_lt.mpr version), first]
  simp only [spent]

theorem signed_of_ok {block : Block} {h : UInt64} (found : block.bip34BlockHeight = .ok h) :
    ∃ scriptSig, block.Signed scriptSig := by
  rw [bip34BlockHeight] at found
  split_ifs at found with old
  cases first : block.coinbase with
  | none => simp [first] at found
  | some cb =>
    cases spent : cb.input.toList.head? with
    | none => simp [first, spent] at found
    | some input => exact ⟨_, Int32.not_lt.mp old, cb, input, first, spent, rfl⟩

end Block

/-- A script starts with a number that is pushed in the shortest way. -/
def StartsWithNumber (h : Int) (script : Bytes) : Prop :=
  ∃ (v : PushBytes) (rest : Bytes), script = pushHeader v.val.length ++ v.val ++ rest ∧
    MinimalForm h v.val ∧ (Instruction.pushBytes v).Minimal

theorem startsWithNumber_of_ok {scriptSig : Bytes} {h : UInt64}
    (found : Block.heightIn scriptSig = .ok h) :
    StartsWithNumber h.toNat scriptSig := by
  rw [Block.heightIn] at found
  cases read : Instructions.next { data := scriptSig, enforceMinimal := true } with
  | none => simp [read] at found
  | some step =>
    obtain ⟨result, after⟩ := step
    cases result with
    | error e => simp [read] at found
    | ok push =>
      simp only [read] at found
      obtain ⟨bytes, -, minimal⟩ := Instructions.next_minimal read
      cases push with
      | op opcode => contradiction
      | pushBytes v =>
        rw [Block.heightOf] at found
        cases number : readScriptint v.val with
        | error e => simp [number] at found
        | ok n =>
          simp only [number] at found
          split_ifs at found with negative
          obtain rfl := Except.ok.inj found
          obtain ⟨form, small⟩ := readScriptint_iff.mp number
          have same : ((UInt64.ofNat n.toNat).toNat : Int) = n := by
            rw [UInt64.toNat_ofNat_of_lt' (by simp [UInt64.size]; omega)]
            omega
          exact ⟨v, after.data, bytes, same.symm ▸ form, minimal⟩

/-- What follows the first instruction does not matter. -/
theorem heightIn_encode {instruction : Instruction} (suffix : Bytes)
    (plain : ∀ opcode, instruction = .op opcode → 0x4e < opcode.code) (minimal : instruction.Minimal) :
    Block.heightIn (instruction.encode ++ suffix) = Block.heightOf instruction := by
  rw [Block.heightIn, Instructions.next_encode instruction suffix plain fun _ => minimal]

/-- What comes out for a height that was pushed as a number. -/
theorem heightIn_pushInt {h : Nat} (fits : h < 2 ^ 31) (suffix : Bytes) :
    ∃ b : Builder, Builder.new.pushInt h = some b ∧
      Block.heightIn (b.script ++ suffix) =
        if 1 ≤ h ∧ h ≤ 16 then .error .notPresent else .ok (UInt64.ofNat h) := by
  have small : (h : Int) = -1 ∨ (1 ≤ (h : Int) ∧ (h : Int) ≤ 16) ↔ 1 ≤ h ∧ h ≤ 16 := by omega
  split_ifs with opcode
  · -- the opcode of the number is no push
    obtain ⟨plain, -⟩ := pushnum_scriptNum (small.mpr opcode)
    refine ⟨_, if_pos (small.mpr opcode), ?_⟩
    exact heightIn_encode suffix (fun _ same => Instruction.op.inj same ▸ plain) trivial
  · obtain ⟨v, written, minimal⟩ := (writeScriptint_iff h).mpr (by omega)
    obtain ⟨short, last, pushed, shortest⟩ :=
      Builder.new.pushInt_bytes written minimal (by omega) (mt small.mp opcode)
    have number := readScriptint_iff.mpr ⟨minimal, (by omega : (h : Int).natAbs < 2 ^ 31)⟩
    refine ⟨_, pushed, (heightIn_encode suffix (by simp) shortest).trans ?_⟩
    simp only [Block.heightOf, number]
    rw [if_neg (by omega), Int.toNat_natCast]

section
variable [Secp256k1]

/-- A height that was pushed as a number is found, unless an opcode stands for it. A height that is
found is the number that the script starts with. -/
theorem height_found_iff :
    (∀ h : Nat, h < 2 ^ 31 → ∀ suffix : Bytes, ∃ b : Builder, Builder.new.pushInt h = some b ∧
      ∀ block : Block, block.Signed (b.script ++ suffix) →
        (block.bip34BlockHeight = .ok (UInt64.ofNat h) ↔ ¬ (1 ≤ h ∧ h ≤ 16))) ∧
    ∀ (block : Block) (h : UInt64), block.bip34BlockHeight = .ok h →
      ∃ scriptSig, block.Signed scriptSig ∧ StartsWithNumber h.toNat scriptSig := by
  constructor
  · intro h fits suffix
    obtain ⟨b, pushed, height⟩ := heightIn_pushInt fits suffix
    refine ⟨b, pushed, fun block signed => ?_⟩
    rw [signed.height, height]
    split_ifs with opcode
    · exact iff_of_false nofun (not_not.mpr opcode)
    · exact iff_of_true rfl opcode
  · intro block h found
    obtain ⟨scriptSig, signed⟩ := Block.signed_of_ok found
    rw [signed.height] at found
    exact ⟨scriptSig, signed, startsWithNumber_of_ok found⟩

end

namespace Height.Sample

attribute [local instance] Secp256k1.generatorOnly

def allZeros : ByteArr 32 := ⟨littleEndian 32 0, littleEndian_length 32 0⟩

/-- A block of one transaction. -/
def block (scriptSig : ByteVec) : Block where
  header := ⟨2, allZeros, allZeros, 0, 0, 0⟩
  txdata := Vec.singleton {
    version := 1
    lockTime := .fromConsensus 0
    input := Vec.singleton {
      previousOutput := ⟨allZeros, 0xFFFFFFFF⟩
      scriptSig
      sequence := 0xFFFFFFFF
      witness := .new }
    output := .empty
    mwTx := none
    isHogEx := false }
  mwebBlock := none

theorem block_signed (scriptSig : ByteVec) : (block scriptSig).Signed scriptSig.toList where
  version := show versionTwo ≤ 2 by decide
  coinbase := ⟨_, _, rfl, rfl, rfl⟩

/-- The script of the block with number 100000, with three more bytes. -/
theorem height100000_found :
    (block ⟨[3, 0xa0, 0x86, 0x01, 7, 7, 7], by decide⟩).bip34BlockHeight = .ok 100000 := by
  obtain ⟨b, pushed, found⟩ := height_found_iff.1 100000 (by decide) [7, 7, 7]
  have script : b.script = [3, 0xa0, 0x86, 0x01] := by
    have built : (Builder.new.pushInt 100000).map Builder.script = some [3, 0xa0, 0x86, 0x01] := by
      decide
    rw [show Builder.new.pushInt 100000 = some b from pushed] at built
    exact Option.some.inj built
  refine (found _ ?_).mpr (by decide)
  rw [script]
  exact block_signed _

/-- The height 5 is an opcode in the script. -/
theorem height5_missing :
    ¬ ∀ h : Nat, h < 2 ^ 31 → ∀ (suffix : Bytes) (b : Builder), Builder.new.pushInt h = some b →
      ∀ block : Block, block.Signed (b.script ++ suffix) →
        block.bip34BlockHeight = .ok (UInt64.ofNat h) := by
  intro claimed
  have found := claimed 5 (by decide) [] ⟨[0x55], some ⟨0x55⟩⟩ rfl (block ⟨[0x55], by decide⟩)
    (block_signed _)
  have missing : (block ⟨[0x55], by decide⟩).bip34BlockHeight = .error .notPresent := by decide
  rw [missing] at found
  contradiction

end Height.Sample

end Litecoin.Blockdata
