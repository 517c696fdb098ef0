import Litecoin.Script.Number
import Litecoin.Script.Sigops

/-! `OP_VERIFY` and the opcode that the builder remembers (`script/builder.rs`, `script/owned.rs`). -/
namespace Litecoin.Script
open Wire

namespace Opcode

def verify : Opcode := ⟨0x69⟩
def numequal : Opcode := ⟨0x9c⟩
def numequalverify : Opcode := ⟨0x9d⟩

end Opcode

def opcodeToVerify (opcode : Option Opcode) : Option Opcode :=
  opcode.bind fun opcode =>
    if opcode = .equal then some .equalverify
    else if opcode = .numequal then some .numequalverify
    else if opcode = .checksig then some .checksigverify
    else if opcode = .checkmultisig then some .checkmultisigverify
    else none

/-- `Instruction::opcode`. -/
def Instruction.opcode : Instruction → Option Opcode
  | .op opcode => some opcode
  | .pushBytes _ => none

/-- `Instruction::push_bytes`. -/
def Instruction.pushed : Instruction → Option PushBytes
  | .op _ => none
  | .pushBytes bytes => some bytes

namespace ScriptBuf

def lastOpcode (script : ScriptBuf) : Option Opcode :=
  match script.instructions.getLast? with
  | some (.ok (.op opcode)) => some opcode
  | _ => none

/-- `push_verify`; `Vec::pop` does nothing to an empty script. -/
def pushVerify (script : ScriptBuf) (lastOpcode : Option Opcode) : ScriptBuf :=
  match opcodeToVerify lastOpcode with
  | some opcode => pushOpcode script.dropLast opcode
  | none => script.pushOpcode .verify

def scanAndPushVerify (script : ScriptBuf) : ScriptBuf := script.pushVerify script.lastOpcode

/-- The data that a script pushes, in order. -/
def pushes (script : ScriptBuf) : List PushBytes :=
  script.instructions.filterMap fun item => item.toOption.bind Instruction.pushed

end ScriptBuf

namespace Builder

def pushVerify (self : Builder) : Builder :=
  match opcodeToVerify self.last with
  | some opcode => pushOpcode { self with script := self.script.dropLast } opcode
  | none => self.pushOpcode .verify

/-- `From<Vec<u8>>`. -/
def ofVec (v : Bytes) : Builder := ⟨v, ScriptBuf.lastOpcode v⟩

/-- The calls that add to a script. -/
inductive Call where
  | opcode (data : { opcode : Opcode // 0x4e < opcode.code })
  | slice (data : PushBytes)
  | int (data : Int64)
  | verify

def call (self : Builder) : Call → Option Builder
  | .opcode data => some (self.pushOpcode data.val)
  | .slice data => self.pushSlice data
  | .int data => self.pushInt data.toInt
  | .verify => some self.pushVerify

/-- Where a run of calls starts: at no script, or at the bytes that another run has made. -/
inductive Start : Builder → Prop where
  | new : Start new
  | ofVec {self made : Builder} {calls : List Call} : Start self → calls.foldlM call self = some made →
      Start (ofVec made.script)

/-- A builder whose script holds instructions, and whose remembered opcode is the last of them as far
as a verifying form goes. -/
structure Writes (builder : Builder) (items : List Instruction) : Prop where
  script : builder.script = items.flatMap Instruction.encode
  plain : ∀ opcode, Instruction.op opcode ∈ items → 0x4e < opcode.code
  last : opcodeToVerify builder.last = opcodeToVerify (items.getLast?.bind Instruction.opcode)

end Builder

theorem opcodeToVerify_eq_some {opcode : Option Opcode} {verify : Opcode}
    (form : opcodeToVerify opcode = some verify) :
    ∃ plain, opcode = some plain ∧ 0x4e < verify.code := by
  obtain ⟨plain, rfl, shape⟩ := Option.bind_eq_some_iff.mp form
  refine ⟨plain, rfl, ?_⟩
  clear form
  split_ifs at shape <;> obtain rfl := Option.some.inj shape <;> decide

namespace Builder
variable {self after : Builder} {items : List Instruction}

theorem Writes.instructions (writes : self.Writes items) : self.script.instructions =
    items.map .ok := by
  rw [writes.script]
  exact Instructions.collect_encode writes.plain nofun

/-- A reader finds the opcode that is last. -/
theorem Writes.lastOpcode (writes : self.Writes items) :
    self.script.lastOpcode = items.getLast?.bind Instruction.opcode := by
  rw [ScriptBuf.lastOpcode, writes.instructions, List.getLast?_map]
  cases items.getLast? with
  | none => rfl
  | some instruction => cases instruction <;> rfl

theorem Writes.pushes (writes : self.Writes items) :
    self.script.pushes = items.filterMap Instruction.pushed := by
  rw [ScriptBuf.pushes, writes.instructions, List.filterMap_map]
  rfl

/-- One more instruction. -/
theorem Writes.concat (writes : self.Writes items) {instruction : Instruction}
    (script : after.script = self.script ++ instruction.encode)
    (plain : ∀ opcode, instruction = .op opcode → 0x4e < opcode.code)
    (last : opcodeToVerify after.last = opcodeToVerify instruction.opcode) :
    after.Writes (items ++ [instruction]) := by
  refine ⟨?_, fun opcode member => ?_, ?_⟩
  · rw [script, writes.script, List.flatMap_append, List.flatMap_singleton]
  · rcases List.mem_append.mp member with before | this
    · exact writes.plain opcode before
    · exact plain opcode (List.mem_singleton.mp this).symm
  · rw [last, List.getLast?_concat, Option.bind_some]

theorem Writes.pushOpcode (writes : self.Writes items) {opcode : Opcode} (plain : 0x4e < opcode.code) :
    (self.pushOpcode opcode).Writes (items ++ [.op opcode]) :=
  writes.concat rfl (fun _ same => Instruction.op.inj same ▸ plain) rfl

theorem Writes.pushSlice (writes : self.Writes items) {data : PushBytes}
    (pushed : self.pushSlice data = some after) : after.Writes (items ++ [.pushBytes data]) := by
  obtain rfl := Option.some.inj (self.pushSlice_eq data ▸ pushed)
  exact writes.concat rfl nofun rfl

/-- The opcode of a zero is one that pushes data: it has no verifying form. -/
theorem Writes.pushInt (writes : self.Writes items) {n : Int} (pushed : self.pushInt n = some after) :
    ∃ instruction, after.Writes (items ++ [instruction]) := by
  rw [Builder.pushInt] at pushed
  split_ifs at pushed with small zero
  · obtain rfl := Option.some.inj pushed
    exact ⟨_, writes.pushOpcode (pushnum_scriptNum small).1⟩
  · obtain rfl := Option.some.inj pushed
    exact ⟨.pushBytes ⟨[], by decide⟩, writes.concat rfl (by simp) rfl⟩
  · obtain ⟨v, -, pushed⟩ := Option.bind_eq_some_iff.mp pushed
    split_ifs at pushed
    exact ⟨_, writes.pushSlice pushed⟩

/-- Only an opcode gives way to its verifying form: the data stay. -/
theorem Writes.pushVerify (writes : self.Writes items) :
    ∃ verified, self.pushVerify.Writes verified ∧
      verified.filterMap Instruction.pushed = items.filterMap Instruction.pushed := by
  rw [Builder.pushVerify]
  cases form : opcodeToVerify self.last with
  | none => exact ⟨_, writes.pushOpcode (by decide), by simp [Instruction.pushed]⟩
  | some verify =>
    obtain ⟨opcode, last, plain⟩ := opcodeToVerify_eq_some (writes.last.symm.trans form)
    obtain ⟨instruction, final, same⟩ := Option.bind_eq_some_iff.mp last
    obtain ⟨front, rfl⟩ := List.getLast?_eq_some_iff.mp final
    cases instruction with
    | pushBytes data => cases same
    | op opcode =>
      have data : (front ++ [Instruction.op verify]).filterMap Instruction.pushed =
          (front ++ [Instruction.op opcode]).filterMap Instruction.pushed := by
        rw [List.filterMap_append, List.filterMap_append]
        rfl
      refine ⟨_, ⟨?_, fun opcode member => ?_, ?_⟩, data⟩
      · simp [Builder.pushOpcode, ScriptBuf.pushOpcode, writes.script, Instruction.encode, Opcode.toU8]
      · rcases List.mem_append.mp member with before | this
        · exact writes.plain opcode (List.mem_append_left _ before)
        · obtain rfl := Instruction.op.inj (List.mem_singleton.mp this)
          exact plain
      · simp [Builder.pushOpcode, Instruction.opcode]

theorem Writes.call (writes : self.Writes items) {call : Call} (called : self.call call = some after) :
    ∃ items, after.Writes items := by
  cases call with
  | opcode data =>
    obtain rfl := Option.some.inj called
    exact ⟨_, writes.pushOpcode data.property⟩
  | slice data => exact ⟨_, writes.pushSlice called⟩
  | int data =>
    obtain ⟨instruction, written⟩ := writes.pushInt called
    exact ⟨_, written⟩
  | verify =>
    obtain ⟨verified, written, -⟩ := writes.pushVerify
    obtain rfl := Option.some.inj called
    exact ⟨verified, written⟩

theorem Writes.run (writes : self.Writes items) {calls : List Call}
    (run : calls.foldlM Builder.call self = some after) : ∃ items, after.Writes items := by
  induction calls generalizing self items with
  | nil =>
    obtain rfl := Option.some.inj run
    exact ⟨items, writes⟩
  | cons call calls ih =>
    rw [List.foldlM_cons] at run
    obtain ⟨next, called, rest⟩ := Option.bind_eq_some_iff.mp run
    obtain ⟨more, written⟩ := writes.call called
    exact ih written rest

theorem Start.writes (start : Start self) : ∃ items, self.Writes items := by
  induction start with
  | new => exact ⟨[], rfl, nofun, rfl⟩
  | ofVec _ run ih =>
    obtain ⟨items, writes⟩ := ih
    obtain ⟨made, written⟩ := writes.run run
    exact ⟨made, written.script, written.plain, congrArg opcodeToVerify written.lastOpcode⟩

/-- What the builder remembers of its script is what a reader would find there, so that no data are
taken for an opcode. -/
theorem pushVerify_eq_scan (start : Start self) {calls : List Call}
    (run : calls.foldlM call self = some after) :
    after.pushVerify.script = after.script.scanAndPushVerify ∧
      after.pushVerify.script.pushes = after.script.pushes := by
  obtain ⟨items, writes⟩ := start.writes
  obtain ⟨made, written⟩ := writes.run run
  obtain ⟨verified, verifies, data⟩ := written.pushVerify
  refine ⟨?_, by rw [verifies.pushes, data, written.pushes]⟩
  rw [pushVerify, ScriptBuf.scanAndPushVerify, ScriptBuf.pushVerify, written.lastOpcode, ← written.last]
  cases opcodeToVerify after.last <;> rfl

/-- A pushed `0xac` is not taken for `OP_CHECKSIG`. -/
theorem pushVerify_eq_scan_slice : ∃ after, [Call.int 0, .opcode ⟨⟨0xac⟩, by decide⟩, .verify,
      .slice ⟨[0xac], by decide⟩].foldlM call new = some after ∧
    after.pushVerify.script = after.script.scanAndPushVerify ∧
    after.pushVerify.script.pushes = after.script.pushes := by
  obtain ⟨after, run⟩ : ∃ after, [Call.int 0, .opcode ⟨⟨0xac⟩, by decide⟩, .verify,
    .slice ⟨[0xac], by decide⟩].foldlM call new = some after := ⟨_, rfl⟩
  exact ⟨after, run, pushVerify_eq_scan .new run⟩

end Builder
end Litecoin.Script
