import Litecoin.Script.Opcode
import Mathlib.Algebra.Group.Nat.Defs

/-! Scripts as instruction sequences: the reader (`script/instruction.rs`,
`read_uint_iter`) and the writers (`script/owned.rs`, `script/builder.rs`).
A `none` of a writer is a panic. -/
namespace Litecoin.Script
open Wire

/-- `PushBytes`, slices short enough for a four-byte length. -/
abbrev PushBytes : Type := { bytes : Bytes // bytes.length < 0x100000000 }

inductive Instruction where
  | pushBytes (bytes : PushBytes)
  | op (opcode : Opcode)
deriving DecidableEq

/-- `script::Error`, as far as reading instructions and numbers reports it. -/
inductive Error where
  | nonMinimalPush
  | earlyEndOfScript
  | numericOverflow
deriving DecidableEq, Repr

inductive UintError where
  | earlyEndOfScript
  | numericOverflow
deriving DecidableEq, Repr

/-- `usize::checked_shl`, which fails on the shift amount and drops high bits. -/
def checkedShl (value shift : Nat) : Option Nat :=
  if shift < 64 then some (value * 2 ^ shift % 2 ^ 64) else none

/-- `usize::checked_add`. -/
def checkedAdd (value other : Nat) : Option Nat :=
  if value + other < 2 ^ 64 then some (value + other) else none

/-- The loop of `read_uint_iter` at index `i` with `count` bytes to go. -/
def readUintLoop : (count i ret : Nat) → Bytes → Except UintError Nat × Bytes
  | 0, _, ret, data => (.ok ret, data)
  | _ + 1, _, ret, [] => (.ok ret, [])
  | count + 1, i, ret, item :: data =>
    match (checkedShl item.toNat (i * 8)).bind (checkedAdd · ret) with
    | some ret => readUintLoop count (i + 1) ret data
    | none => (.error .numericOverflow, data)

/-- `read_uint_iter`; the second component is where the iterator stands. -/
def readUintIter (data : Bytes) (size : Nat) : Except UintError Nat × Bytes :=
  if data.length < size then (.error .earlyEndOfScript, data)
  else if 65535 / 8 < size then (.error .numericOverflow, data)
  else readUintLoop size 0 0 data

/-- `Instructions`, an iterator over a script. -/
structure Instructions where
  data : Bytes
  enforceMinimal : Bool
deriving DecidableEq

/-- `PushDataLenLen`. -/
inductive PushDataLenLen where
  | one
  | two
  | four

def PushDataLenLen.toUsize : PushDataLenLen → Nat
  | one => 1
  | two => 2
  | four => 4

namespace Instructions

def kill (self : Instructions) : Instructions := { self with data := [] }

def takeSliceOrKill (self : Instructions) (len : UInt32) :
    Except Error PushBytes × Instructions :=
  if len.toNat ≤ self.data.length then
    (.ok ⟨self.data.take len.toNat, by
      have short := List.length_take_le len.toNat self.data
      exact Nat.lt_of_le_of_lt short len.toNat_lt⟩,
      { self with data := self.data.drop len.toNat })
  else (.error .earlyEndOfScript, self.kill)

def nextPushDataLen (self : Instructions) (len : PushDataLenLen) (minPushLen : Nat) :
    Except Error Instruction × Instructions :=
  match readUintIter self.data len.toUsize with
  | (.error .earlyEndOfScript, _) | (.error .numericOverflow, _) =>
    (.error .earlyEndOfScript, self.kill)
  | (.ok n, data) =>
    let self := { self with data }
    if self.enforceMinimal ∧ n < minPushLen then (.error .nonMinimalPush, self.kill)
    else if n < 0x100000000 then
      let (slice, self) := self.takeSliceOrKill (UInt32.ofNat n)
      (slice.map .pushBytes, self)
    else (.error .numericOverflow, self)

/-- A byte that has an opcode of its own: `-1` and `1` to `16`. -/
def isPushnum (byte : UInt8) : Bool := byte = 0x81 || (0 < byte && byte ≤ 16)

def nextPushBytes (self : Instructions) (n : UInt32) : Except Error Instruction × Instructions :=
  let otherwise :=
    let (slice, self) := self.takeSliceOrKill n
    (slice.map .pushBytes, self)
  match self.enforceMinimal, self.data.head?, decide (n = 1), decide (n = 0) with
  | true, some opByte, true, _ =>
    if isPushnum opByte then (.error .nonMinimalPush, self.kill) else otherwise
  | _, none, _, true => (.ok (.pushBytes ⟨[], by decide⟩), self)
  | _, _, _, _ => otherwise

def next (self : Instructions) : Option (Except Error Instruction × Instructions) :=
  match self.data with
  | [] => none
  | byte :: data =>
    let self := { self with data }
    some <| match Opcode.legacyClass ⟨byte⟩ with
      | .pushBytes n => self.nextPushBytes n
      | .ordinary opcode =>
        if opcode.val = Opcode.pushdata1 then self.nextPushDataLen .one 76
        else if opcode.val = Opcode.pushdata2 then self.nextPushDataLen .two 0x100
        else if opcode.val = Opcode.pushdata4 then self.nextPushDataLen .four 0x10000
        else (.ok (.op ⟨byte⟩), self)
      | _ => (.ok (.op ⟨byte⟩), self)

/-- Everything an iterator yields within `fuel` calls. -/
def drain : (fuel : Nat) → Instructions → List (Except Error Instruction)
  | 0, _ => []
  | fuel + 1, self => match self.next with
    | none => []
    | some (result, self) => result :: self.drain fuel

/-- `collect`; every call that yields an item reads a byte. -/
def collect (self : Instructions) : List (Except Error Instruction) :=
  self.drain self.data.length

end Instructions

abbrev ScriptBuf : Type := Bytes

namespace ScriptBuf

def new : ScriptBuf := []

def instructions (script : ScriptBuf) : List (Except Error Instruction) :=
  Instructions.collect { data := script, enforceMinimal := false }

def instructionsMinimal (script : ScriptBuf) : List (Except Error Instruction) :=
  Instructions.collect { data := script, enforceMinimal := true }

def pushOpcode (script : ScriptBuf) (opcode : Opcode) : ScriptBuf := script ++ [opcode.toU8]

def pushSliceNoOpt (script : ScriptBuf) (data : PushBytes) : Option ScriptBuf :=
  let n := data.val.length
  if n < Opcode.pushdata1.code.toNat then some (script ++ [UInt8.ofNat n] ++ data.val)
  else if n < 0x100 then
    some (script ++ [Opcode.pushdata1.toU8, UInt8.ofNat n] ++ data.val)
  else if n < 0x10000 then
    some (script ++ [Opcode.pushdata2.toU8, UInt8.ofNat (n % 0x100), UInt8.ofNat (n / 0x100)]
      ++ data.val)
  else if n < 0x100000000 then
    some (script ++ [Opcode.pushdata4.toU8, UInt8.ofNat (n % 0x100),
      UInt8.ofNat (n / 0x100 % 0x100), UInt8.ofNat (n / 0x10000 % 0x100),
      UInt8.ofNat (n / 0x1000000)] ++ data.val)
  else none

/-- `push_slice`; the reservation before the push changes the capacity alone. -/
def pushSlice (script : ScriptBuf) (data : PushBytes) : Option ScriptBuf :=
  script.pushSliceNoOpt data

def pushInstruction (script : ScriptBuf) : Instruction → Option ScriptBuf
  | .op opcode => some (script.pushOpcode opcode)
  | .pushBytes bytes => script.pushSlice bytes

def pushInstructionNoOpt (script : ScriptBuf) : Instruction → Option ScriptBuf
  | .op opcode => some (script.pushOpcode opcode)
  | .pushBytes bytes => script.pushSliceNoOpt bytes

/-- `reserved_len_for_slice`. -/
def reservedLenForSlice (len : Nat) : Nat :=
  len + if len ≤ 0x4b then 1 else if len ≤ 0xff then 2 else if len ≤ 0xffff then 3 else 5

end ScriptBuf

/-- `script_serialized_len`, what `extend` reserves for an instruction. -/
def Instruction.scriptSerializedLen : Instruction → Nat
  | .op _ => 1
  | .pushBytes bytes => ScriptBuf.reservedLenForSlice bytes.val.length

/-- An iterator over instructions: what it yields, and the upper bound its
`size_hint` reports. The trait asks the bound to be one. -/
structure InstructionIter where
  items : List Instruction
  upper : Option Nat
  bounds : ∀ max ∈ upper, items.length ≤ max

namespace ScriptBuf

/-- The `Extend` implementation: short iterators are buffered in `head`. -/
def extend (script : ScriptBuf) (iter : InstructionIter) : Option ScriptBuf :=
  if (iter.upper.map fun max => decide (max < 6)).getD false then
    let head := iter.items.take 5
    match iter.items.drop 5 with
    | [] => head.foldlM pushInstructionNoOpt script
    | _ :: _ => none
  else iter.items.foldlM pushInstruction script

def fromIter (iter : InstructionIter) : Option ScriptBuf := new.extend iter

end ScriptBuf

/-- The loop of `write_scriptint` and what follows it; `room` counts the slots left in the
eight-byte buffer, and a write past it panics. -/
def writeScriptintLoop (neg : Bool) : (room abs : Nat) → Option Bytes
  | 0, _ => none
  | room + 1, abs =>
    if 0xFF < abs then
      (writeScriptintLoop neg room (abs >>> 8)).map (UInt8.ofNat (abs &&& 0xFF) :: ·)
    else if abs &&& 0x80 ≠ 0 then
      if room = 0 then none else some [UInt8.ofNat abs, if neg then 0x80 else 0]
    else some [UInt8.ofNat (abs ||| if neg then 0x80 else 0)]

def writeScriptint (n : Int) : Option Bytes :=
  if n = 0 then some [] else writeScriptintLoop (n < 0) 8 n.natAbs

/-- `scriptint_parse`; at most four bytes are parsed, so nothing overflows. -/
def scriptintParse (v : Bytes) : Int :=
  let (ret, sh) := v.foldl (fun (acc, sh) n => (acc + (n.toNat <<< sh), sh + 8)) (0, 0)
  if v.getLastD 0 &&& 0x80 ≠ 0 then -(ret &&& (1 <<< (sh - 1)) - 1 : Nat) else ret

def readScriptint (v : Bytes) : Except Error Int :=
  match v.getLast? with
  | none => .ok 0
  | some last =>
    if 4 < v.length then .error .numericOverflow
    else if last &&& 0x7f = 0 ∧ (v.length ≤ 1 ∨ v.getD (v.length - 2) 0 &&& 0x80 = 0) then
      .error .nonMinimalPush
    else .ok (scriptintParse v)

/-- `Builder`: the script so far and the opcode pushed last. -/
structure Builder where
  script : ScriptBuf
  last : Option Opcode

namespace Builder

def new : Builder := ⟨ScriptBuf.new, none⟩

def pushOpcode (self : Builder) (data : Opcode) : Builder :=
  ⟨self.script.pushOpcode data, some data⟩

def pushSlice (self : Builder) (data : PushBytes) : Option Builder :=
  (self.script.pushSlice data).map (⟨·, none⟩)

def pushIntNonMinimal (self : Builder) (data : Int) : Option Builder := do
  let buf ← writeScriptint data
  if fits : buf.length < 0x100000000 then self.pushSlice ⟨buf, fits⟩ else none

def pushInt (self : Builder) (data : Int) : Option Builder :=
  if data = -1 ∨ (1 ≤ data ∧ data ≤ 16) then
    some (self.pushOpcode ⟨UInt8.ofInt (data - 1 + Opcode.pushnum1.toU8.toNat)⟩)
  else if data = 0 then some (self.pushOpcode Opcode.pushbytes0)
  else self.pushIntNonMinimal data

/-- One turn of the loop of `deserialize_script.rs`: one-byte numbers are pushed as
numbers. -/
def pushAgain (self : Builder) : Instruction → Option Builder
  | .op opcode => some (self.pushOpcode opcode)
  | .pushBytes bytes =>
    if bytes.val.length = 1 ∧ bytes.val.head? ≠ some 0x80 ∧ bytes.val.head? ≠ some 0x00 then
      match readScriptint bytes.val with
      | .ok num => self.pushInt num
      | .error _ => self.pushSlice bytes
    else self.pushSlice bytes

end Builder
end Litecoin.Script
