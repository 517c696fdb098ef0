import Litecoin.Script.Instruction
import Litecoin.Wire.Endian

/-! Reading back what was pushed, and pushing again what was read minimally. -/
namespace Litecoin.Script
open Wire

/-- The opcode and length bytes that announce a push of `n` bytes. -/
def pushHeader (n : Nat) : Bytes :=
  if n < 76 then littleEndian 1 n
  else if n < 0x100 then Opcode.pushdata1.code :: littleEndian 1 n
  else if n < 0x10000 then Opcode.pushdata2.code :: littleEndian 2 n
  else Opcode.pushdata4.code :: littleEndian 4 n

/-- The bytes one instruction adds to a script. -/
def Instruction.encode : Instruction → Bytes
  | .op opcode => [opcode.code]
  | .pushBytes bytes => pushHeader bytes.val.length ++ bytes.val

/-- No one-byte push of a number that has an opcode. -/
def Instruction.Minimal : Instruction → Prop
  | .op _ => True
  | .pushBytes bytes => ∀ byte, bytes.val = [byte] → Instructions.isPushnum byte = false

theorem ofNat_mod_256 (n : Nat) : UInt8.ofNat (n % 256) = UInt8.ofNat n := by
  apply UInt8.toNat_inj.mp
  simp

namespace ScriptBuf

theorem pushSliceNoOpt_eq (script : ScriptBuf) (data : PushBytes) :
    script.pushSliceNoOpt data = some (script ++ (Instruction.pushBytes data).encode) := by
  have bound := data.property
  have threshold : Opcode.pushdata1.code.toNat = 76 := rfl
  simp only [pushSliceNoOpt, Instruction.encode, pushHeader, littleEndian, Opcode.toU8,
    ofNat_mod_256, Nat.div_div_eq_div_mul, Nat.reduceMul, if_pos bound, threshold]
  split_ifs <;> simp

theorem pushInstruction_eq (script : ScriptBuf) (instruction : Instruction) :
    script.pushInstruction instruction = some (script ++ instruction.encode) := by
  cases instruction with
  | op opcode => rfl
  | pushBytes bytes => exact script.pushSliceNoOpt_eq bytes

theorem pushInstructionNoOpt_eq (script : ScriptBuf) (instruction : Instruction) :
    script.pushInstructionNoOpt instruction = some (script ++ instruction.encode) := by
  cases instruction with
  | op opcode => rfl
  | pushBytes bytes => exact script.pushSliceNoOpt_eq bytes

theorem foldlM_push {push : ScriptBuf → Instruction → Option ScriptBuf}
    (pushes : ∀ script instruction, push script instruction = some (script ++ instruction.encode))
    (script : ScriptBuf) (items : List Instruction) :
    items.foldlM push script = some (script ++ items.flatMap Instruction.encode) := by
  induction items generalizing script with
  | nil => simp
  | cons instruction items ih =>
    rw [List.foldlM_cons, pushes, Option.bind_eq_bind, Option.bind_some, ih]
    simp

/-- Both branches of `extend` append the instructions one after another. -/
theorem extend_eq (script : ScriptBuf) (iter : InstructionIter) :
    script.extend iter = some (script ++ iter.items.flatMap Instruction.encode) := by
  rw [extend]
  split
  · rename_i short
    have few : iter.items.length ≤ 5 := by
      obtain ⟨items, upper, bounds⟩ := iter
      cases upper with
      | none => simp at short
      | some max =>
        have below : max < 6 := by simpa using short
        have bound := bounds max rfl
        simp only
        omega
    simp only [List.drop_eq_nil_of_le few, List.take_of_length_le few]
    exact foldlM_push pushInstructionNoOpt_eq script iter.items
  · exact foldlM_push pushInstruction_eq script iter.items

theorem fromIter_eq (iter : InstructionIter) :
    fromIter iter = some (iter.items.flatMap Instruction.encode) := by
  exact new.extend_eq iter

/-- `extend` reserves exactly what it then pushes. -/
theorem encode_length (instruction : Instruction) :
    instruction.encode.length = instruction.scriptSerializedLen := by
  cases instruction with
  | op opcode => rfl
  | pushBytes bytes =>
    simp only [Instruction.encode, Instruction.scriptSerializedLen, reservedLenForSlice, pushHeader,
      List.length_append]
    split_ifs <;> simp <;> omega

end ScriptBuf

/-- The loop keeps the number read so far below the next byte's weight, so neither
checked operation fails. -/
theorem readUintLoop_eq {count i ret : Nat} {data : Bytes} (within : i + count ≤ 8)
    (small : ret < 256 ^ i) (enough : count ≤ data.length) :
    readUintLoop count i ret data =
      (.ok (ret + 256 ^ i * fromLittleEndian (data.take count)), data.drop count) := by
  induction count generalizing i ret data with
  | zero => simp [readUintLoop, fromLittleEndian]
  | succ count ih =>
    cases data with
    | nil => simp at enough
    | cons item data =>
      have byte := item.toNat_lt
      have weight : 2 ^ (i * 8) = 256 ^ i := by
        rw [Nat.mul_comm, Nat.pow_mul]
      have raised : item.toNat * 256 ^ i + ret < 256 ^ (i + 1) := by
        have scaled : item.toNat * 256 ^ i ≤ 255 * 256 ^ i :=
          Nat.mul_le_mul_right _ (by omega)
        rw [Nat.pow_succ]
        omega
      have room : 256 ^ (i + 1) ≤ 2 ^ 64 := by
        calc 256 ^ (i + 1) ≤ 256 ^ 8 := Nat.pow_le_pow_right (by decide) (by omega)
          _ = 2 ^ 64 := by decide
      have shifted : checkedShl item.toNat (i * 8) = some (item.toNat * 256 ^ i) := by
        rw [checkedShl, if_pos (by omega), weight, Nat.mod_eq_of_lt (by omega)]
      have added : checkedAdd (item.toNat * 256 ^ i) ret = some (item.toNat * 256 ^ i + ret) := by
        rw [checkedAdd, if_pos (by omega)]
      simp only [readUintLoop, shifted, Option.bind_some, added]
      rw [ih (by omega) raised (by simpa using enough)]
      simp only [List.take_succ_cons, List.drop_succ_cons, fromLittleEndian, Nat.pow_succ]
      congr 2
      ring

theorem readUintIter_eq {data : Bytes} {size : Nat} (within : size ≤ 8)
    (enough : size ≤ data.length) :
    readUintIter data size = (.ok (fromLittleEndian (data.take size)), data.drop size) := by
  rw [readUintIter, if_neg (by omega), if_neg (by omega), readUintLoop_eq (by omega) (by simp) enough]
  simp

theorem readUintIter_short {data : Bytes} {size : Nat} (short : data.length < size) :
    readUintIter data size = (.error .earlyEndOfScript, data) := by
  exact if_pos short

namespace Instructions
variable {self after : Instructions} {slice : PushBytes} {rest : Bytes}

theorem takeSliceOrKill_append (data : self.data = slice.val ++ rest) :
    self.takeSliceOrKill (UInt32.ofNat slice.val.length) = (.ok slice, { self with data := rest }) := by
  have length : (UInt32.ofNat slice.val.length).toNat = slice.val.length :=
    UInt32.toNat_ofNat_of_lt' slice.property
  rw [takeSliceOrKill, if_pos (by simp [length, data])]
  simp only [length, data, List.take_left, List.drop_left]

theorem takeSliceOrKill_eq_ok {len : UInt32}
    (taken : self.takeSliceOrKill len = (.ok slice, after)) :
    slice.val.length = len.toNat ∧ self.data = slice.val ++ after.data ∧
      after.enforceMinimal = self.enforceMinimal := by
  rw [takeSliceOrKill] at taken
  split at taken
  · rename_i enough
    obtain ⟨rfl, rfl⟩ := by simpa using taken
    exact ⟨List.length_take_of_le enough, (List.take_append_drop _ _).symm, rfl⟩
  · simp at taken

/-- A slice that was taken comes out as a push. -/
theorem takenOf {len : UInt32} {instruction : Instruction}
    (read : ((self.takeSliceOrKill len).1.map .pushBytes, (self.takeSliceOrKill len).2) =
      (.ok instruction, after)) :
    ∃ slice, self.takeSliceOrKill len = (.ok slice, after) ∧ instruction = .pushBytes slice := by
  rcases taken : self.takeSliceOrKill len with ⟨result, rest⟩
  cases result with
  | error e => simp [taken, Except.map] at read
  | ok slice =>
    obtain ⟨rfl, rfl⟩ := by simpa [taken, Except.map] using read
    exact ⟨slice, rfl, rfl⟩

theorem toUsize_le (len : PushDataLenLen) : len.toUsize ≤ 4 := by
  cases len <;> decide

/-- An announced push is read back; where minimality is asked for, the push has to need the length bytes. -/
theorem nextPushDataLen_append (len : PushDataLenLen) {minPushLen : Nat}
    (needed : self.enforceMinimal = true → minPushLen ≤ slice.val.length)
    (fits : slice.val.length < 256 ^ len.toUsize)
    (data : self.data = littleEndian len.toUsize slice.val.length ++ slice.val ++ rest) :
    self.nextPushDataLen len minPushLen = (.ok (.pushBytes slice), { self with data := rest }) := by
  have small := toUsize_le len
  have read : readUintIter self.data len.toUsize = (.ok slice.val.length, slice.val ++ rest) := by
    rw [readUintIter_eq (by omega) (by simp [data]), data, List.append_assoc,
      List.take_left' (littleEndian_length _ _), List.drop_left' (littleEndian_length _ _),
      fromLittleEndian_littleEndian fits]
  have accepted : ¬ (self.enforceMinimal = true ∧ slice.val.length < minPushLen) :=
    fun ⟨minimal, short⟩ => Nat.not_lt.mpr (needed minimal) short
  simp only [nextPushDataLen, read, if_neg accepted, if_pos slice.property]
  rw [takeSliceOrKill_append rfl]
  rfl

/-- What a minimal reader takes from an announced push. -/
theorem nextPushDataLen_eq_ok {len : PushDataLenLen} {minPushLen : Nat} {instruction : Instruction}
    (minimal : self.enforceMinimal = true)
    (read : self.nextPushDataLen len minPushLen = (.ok instruction, after)) :
    ∃ slice : PushBytes, instruction = .pushBytes slice ∧ minPushLen ≤ slice.val.length ∧
      slice.val.length < 256 ^ len.toUsize ∧ after.enforceMinimal = true ∧
      self.data = littleEndian len.toUsize slice.val.length ++ slice.val ++ after.data := by
  have small := toUsize_le len
  by_cases short : self.data.length < len.toUsize
  · simp [nextPushDataLen, readUintIter_short short] at read
  · simp only [nextPushDataLen, readUintIter_eq (by omega) (Nat.le_of_not_lt short), minimal,
      true_and] at read
    have size : (self.data.take len.toUsize).length = len.toUsize :=
      List.length_take_of_le (Nat.le_of_not_lt short)
    have fits := fromLittleEndian_lt (self.data.take len.toUsize)
    split_ifs at read with tooShort inRange
    · simp at read
    · obtain ⟨slice, taken, rfl⟩ := takenOf read
      obtain ⟨length, rest, same⟩ := takeSliceOrKill_eq_ok taken
      rw [UInt32.toNat_ofNat_of_lt' inRange] at length
      rw [size] at fits
      refine ⟨slice, rfl, by omega, by omega, by simpa [minimal] using same, ?_⟩
      have written := littleEndian_fromLittleEndian (self.data.take len.toUsize)
      rw [size, ← length] at written
      rw [written, List.append_assoc, ← rest, List.take_append_drop]
    · simp at read

/-- A direct push is read back. -/
theorem nextPushBytes_append
    (minimal : self.enforceMinimal = true → (Instruction.pushBytes slice).Minimal)
    (data : self.data = slice.val ++ rest) :
    self.nextPushBytes (UInt32.ofNat slice.val.length) =
      (.ok (.pushBytes slice), { self with data := rest }) := by
  simp only [nextPushBytes, takeSliceOrKill_append data]
  split
  · rename_i opByte enforced first one
    have length : slice.val.length = 1 := by
      have same := congrArg UInt32.toNat (of_decide_eq_true one)
      rwa [UInt32.toNat_ofNat_of_lt' slice.property] at same
    obtain ⟨byte, single⟩ := List.length_eq_one_iff.mp length
    obtain rfl : byte = opByte := by simpa [data, single] using first
    rw [minimal enforced byte single, if_neg Bool.false_ne_true]
    rfl
  · rename_i empty _
    obtain ⟨nothing, none⟩ : slice.val = [] ∧ rest = [] := by
      simpa [data] using List.head?_eq_none_iff.mp empty
    obtain ⟨slice, short⟩ := slice
    obtain ⟨self, enforceMinimal⟩ := self
    simp_all
  · rfl

/-- A direct push takes as many bytes as its opcode says, and a minimal reader refuses
numbers. -/
theorem nextPushBytes_eq_ok {n : UInt32} {instruction : Instruction}
    (minimal : self.enforceMinimal = true)
    (read : self.nextPushBytes n = (.ok instruction, after)) :
    ∃ slice : PushBytes, instruction = .pushBytes slice ∧ slice.val.length = n.toNat ∧
      self.data = slice.val ++ after.data ∧ after.enforceMinimal = true ∧ instruction.Minimal := by
  have ofTaken (read : ((self.takeSliceOrKill n).1.map Instruction.pushBytes,
      (self.takeSliceOrKill n).2) = (.ok instruction, after))
      (number : ∀ byte, self.data.head? = some byte → n = 1 → isPushnum byte = false) :
      ∃ slice : PushBytes, instruction = .pushBytes slice ∧ slice.val.length = n.toNat ∧
        self.data = slice.val ++ after.data ∧ after.enforceMinimal = true ∧ instruction.Minimal := by
    obtain ⟨slice, taken, rfl⟩ := takenOf read
    obtain ⟨length, rest, same⟩ := takeSliceOrKill_eq_ok taken
    refine ⟨slice, rfl, length, rest, same.trans minimal, fun byte single => number byte ?_ ?_⟩
    · rw [rest, single]
      rfl
    · rw [single] at length
      exact UInt32.toNat_inj.mp length.symm
  rw [nextPushBytes] at read
  split at read
  · rename_i opByte _ first _
    split_ifs at read with number
    · simp at read
    · refine ofTaken read fun byte same _ => ?_
      obtain rfl : opByte = byte := Option.some_inj.mp (first.symm.trans same)
      simpa using number
  · rename_i zero
    obtain ⟨rfl, rfl⟩ := by simpa using read
    have zero : n = 0 := of_decide_eq_true zero
    exact ⟨⟨[], by decide⟩, rfl, by simp [zero], by simp, minimal, by simp [Instruction.Minimal]⟩
  · rename_i other _
    refine ofTaken read fun byte same one => ?_
    exact (other byte minimal same (by simp [one])).elim

/-- Where the reader goes after an opcode byte. -/
theorem next_cons (byte : UInt8) (data : Bytes) (enforceMinimal : Bool) :
    next ⟨byte :: data, enforceMinimal⟩ = some (
      if byte ≤ 0x4b then nextPushBytes ⟨data, enforceMinimal⟩ byte.toUInt32
      else if byte = 0x4c then nextPushDataLen ⟨data, enforceMinimal⟩ .one 76
      else if byte = 0x4d then nextPushDataLen ⟨data, enforceMinimal⟩ .two 0x100
      else if byte = 0x4e then nextPushDataLen ⟨data, enforceMinimal⟩ .four 0x10000
      else (.ok (.op ⟨byte⟩), ⟨data, enforceMinimal⟩)) := by
  split_ifs with direct one two four
  · simp [next, Opcode.legacyClass_pushBytes ⟨byte⟩ direct]
  · subst one
    have known : Opcode.legacyClass ⟨0x4c⟩ = _ := Opcode.legacyClass_pushdata1
    simp [next, known]
  · subst two
    have known : Opcode.legacyClass ⟨0x4d⟩ = _ := Opcode.legacyClass_pushdata2
    simp [next, known, Opcode.pushdata1, Opcode.pushdata2]
  · subst four
    have known : Opcode.legacyClass ⟨0x4e⟩ = _ := Opcode.legacyClass_pushdata4
    simp [next, known, Opcode.pushdata1, Opcode.pushdata2, Opcode.pushdata4]
  · have high : Opcode.pushdata4.code < byte := by
      rw [← UInt8.toNat_inj] at one two four
      simp only [UInt8.le_iff_toNat_le, UInt8.lt_iff_toNat_lt, Opcode.pushdata4, UInt8.reduceToNat]
        at direct one two four ⊢
      omega
    have plain := Opcode.legacyClass_isPlain ⟨byte⟩ high
    simp only [next]
    cases known : Opcode.legacyClass ⟨byte⟩ with
    | pushBytes n => simp [known, Class.isPlain] at plain
    | ordinary opcode =>
      rw [known] at plain
      simp only [Class.isPlain, List.mem_cons, List.not_mem_nil, or_false, not_or,
        decide_eq_true_eq] at plain
      simp only [plain.1, plain.2.1, plain.2.2, if_false]
    | _ => rfl

theorem next_pushdata1 (data : Bytes) (enforceMinimal : Bool) :
    next ⟨Opcode.pushdata1.code :: data, enforceMinimal⟩ =
      some (nextPushDataLen ⟨data, enforceMinimal⟩ .one 76) := by
  exact next_cons _ _ _

theorem next_pushdata2 (data : Bytes) (enforceMinimal : Bool) :
    next ⟨Opcode.pushdata2.code :: data, enforceMinimal⟩ =
      some (nextPushDataLen ⟨data, enforceMinimal⟩ .two 0x100) := by
  exact next_cons _ _ _

theorem next_pushdata4 (data : Bytes) (enforceMinimal : Bool) :
    next ⟨Opcode.pushdata4.code :: data, enforceMinimal⟩ =
      some (nextPushDataLen ⟨data, enforceMinimal⟩ .four 0x10000) := by
  exact next_cons _ _ _

theorem next_nil (enforceMinimal : Bool) : next ⟨[], enforceMinimal⟩ = none := rfl

/-- One instruction is read back from the bytes it was written as. -/
theorem next_encode {enforceMinimal : Bool} (instruction : Instruction) (rest : Bytes)
    (plain : ∀ opcode, instruction = .op opcode → 0x4e < opcode.code)
    (minimal : enforceMinimal = true → instruction.Minimal) :
    next ⟨instruction.encode ++ rest, enforceMinimal⟩ = some (.ok instruction,
      ⟨rest, enforceMinimal⟩) := by
  cases instruction with
  | op opcode =>
    have high := plain opcode rfl
    rw [Instruction.encode, List.cons_append, List.nil_append, next_cons]
    rw [UInt8.lt_iff_toNat_lt] at high
    simp only [UInt8.le_iff_toNat_le, ← UInt8.toNat_inj, UInt8.reduceToNat] at high ⊢
    rw [if_neg (by omega), if_neg (by omega), if_neg (by omega), if_neg (by omega)]
  | pushBytes slice =>
    have short := slice.property
    rw [Instruction.encode, pushHeader]
    split_ifs with direct one two
    · have byte : (UInt8.ofNat slice.val.length).toUInt32 = UInt32.ofNat slice.val.length := by
        apply UInt32.toNat_inj.mp
        simp
        omega
      have low : UInt8.ofNat slice.val.length ≤ 0x4b := by
        simp only [UInt8.le_iff_toNat_le, UInt8.toNat_ofNat', UInt8.reduceToNat]
        omega
      simp only [littleEndian, List.cons_append, List.nil_append]
      rw [next_cons, if_pos low, byte, nextPushBytes_append minimal rfl]
    · rw [List.cons_append, List.cons_append, next_pushdata1,
        nextPushDataLen_append .one (fun _ => Nat.not_lt.mp direct) one rfl]
    · rw [List.cons_append, List.cons_append, next_pushdata2,
        nextPushDataLen_append .two (fun _ => Nat.not_lt.mp one) two rfl]
    · rw [List.cons_append, List.cons_append, next_pushdata4,
        nextPushDataLen_append .four (fun _ => Nat.not_lt.mp two) short rfl]

/-- What a minimal reader yields is written as the bytes it took. -/
theorem next_minimal {instruction : Instruction} {data : Bytes}
    (read : next ⟨data, true⟩ = some (.ok instruction, after)) :
    data = instruction.encode ++ after.data ∧ after.enforceMinimal = true ∧ instruction.Minimal := by
  have ofAnnounced {slice : PushBytes} (long : 76 ≤ slice.val.length) :
      (Instruction.pushBytes slice).Minimal := by
    intro byte single
    simp [single] at long
  cases data with
  | nil => simp [next_nil] at read
  | cons byte data =>
    rw [next_cons, Option.some_inj] at read
    split_ifs at read with direct one two four
    · obtain ⟨slice, rfl, length, rest, same⟩ := nextPushBytes_eq_ok rfl read
      have small : slice.val.length = byte.toNat := by simpa using length
      simp only [UInt8.le_iff_toNat_le, UInt8.reduceToNat] at direct
      refine ⟨?_, same⟩
      rw [Instruction.encode, pushHeader, if_pos (by omega), small]
      simpa [littleEndian] using rest
    · obtain ⟨slice, rfl, least, fits, same, rest⟩ := nextPushDataLen_eq_ok rfl read
      have fits : slice.val.length < 0x100 := fits
      refine ⟨?_, same, ofAnnounced least⟩
      rw [Instruction.encode, pushHeader, if_neg (by omega), if_pos fits, one]
      exact congrArg _ rest
    · obtain ⟨slice, rfl, least, fits, same, rest⟩ := nextPushDataLen_eq_ok rfl read
      have fits : slice.val.length < 0x10000 := fits
      refine ⟨?_, same, ofAnnounced (by omega)⟩
      rw [Instruction.encode, pushHeader, if_neg (by omega), if_neg (by omega), if_pos fits, two]
      exact congrArg _ rest
    · obtain ⟨slice, rfl, least, fits, same, rest⟩ := nextPushDataLen_eq_ok rfl read
      refine ⟨?_, same, ofAnnounced (by omega)⟩
      rw [Instruction.encode, pushHeader, if_neg (by omega), if_neg (by omega), if_neg (by omega),
        four]
      exact congrArg _ rest
    · obtain ⟨rfl, rfl⟩ := by simpa using read
      exact ⟨rfl, rfl, trivial⟩

theorem readUintLoop_suffix (count i ret : Nat) (data : Bytes) :
    (readUintLoop count i ret data).2 <:+ data := by
  induction count generalizing i ret data with
  | zero => exact List.suffix_rfl
  | succ count ih =>
    cases data with
    | nil => exact List.suffix_rfl
    | cons item data =>
      rw [readUintLoop]
      split
      · exact (ih _ _ _).trans (List.suffix_cons item data)
      · exact List.suffix_cons item data

theorem readUintIter_suffix (data : Bytes) (size : Nat) : (readUintIter data size).2 <:+ data := by
  rw [readUintIter]
  split_ifs
  · exact List.suffix_rfl
  · exact List.suffix_rfl
  · exact readUintLoop_suffix size 0 0 data

theorem readUintIter_lt {data rest : Bytes} {size n : Nat} (within : size ≤ 4)
    (read : readUintIter data size = (.ok n, rest)) : n < 0x100000000 := by
  by_cases enough : size ≤ data.length
  · rw [readUintIter_eq (within.trans (by decide)) enough] at read
    obtain ⟨rfl, -⟩ := by simpa using read
    have below := fromLittleEndian_lt (data.take size)
    rw [List.length_take_of_le enough] at below
    exact below.trans_le (Nat.pow_le_pow_right (by decide) within)
  · rw [readUintIter_short (Nat.lt_of_not_le enough)] at read
    cases read

/-- What a step leaves: a later part of the script, and nothing after an error. -/
structure Step (before : Instructions) (step : Except Error Instruction × Instructions) : Prop where
  suffix : step.2.data <:+ before.data
  enforceMinimal : step.2.enforceMinimal = before.enforceMinimal
  killed : ∀ e, step.1 = .error e → step.2.data = []

theorem kill_step (self : Instructions) (e : Error) : self.Step (.error e, self.kill) :=
  ⟨List.nil_suffix, rfl, fun _ _ => rfl⟩

theorem takeSliceOrKill_step (self : Instructions) (len : UInt32) :
    self.Step ((self.takeSliceOrKill len).1.map .pushBytes, (self.takeSliceOrKill len).2) := by
  rw [takeSliceOrKill]
  split
  · exact ⟨List.drop_suffix _ _, rfl, nofun⟩
  · exact self.kill_step _

theorem nextPushDataLen_step (self : Instructions) (len : PushDataLenLen) (minPushLen : Nat) :
    self.Step (self.nextPushDataLen len minPushLen) := by
  have before := readUintIter_suffix self.data len.toUsize
  rw [nextPushDataLen]
  split
  · exact self.kill_step _
  · exact self.kill_step _
  · rename_i n data read
    rw [read] at before
    dsimp only at before ⊢
    split_ifs with short fits
    · exact self.kill_step _
    · obtain ⟨suffix, minimal, killed⟩ := takeSliceOrKill_step ⟨data, self.enforceMinimal⟩
        (UInt32.ofNat n)
      exact ⟨suffix.trans before, minimal, killed⟩
    · exact absurd (readUintIter_lt (toUsize_le len) read) fits

theorem nextPushBytes_step (self : Instructions) (n : UInt32) : self.Step (self.nextPushBytes n) := by
  have taken := self.takeSliceOrKill_step n
  rw [nextPushBytes]
  split
  · split
    · exact self.kill_step _
    · exact taken
  · exact ⟨List.suffix_rfl, rfl, nofun⟩
  · exact taken

/-- Whatever `next` yields, an error included, it has read a byte. -/
theorem next_step {result : Except Error Instruction} (read : self.next = some (result, after)) :
    ∃ byte data, self.data = byte :: data ∧ Step ⟨data, self.enforceMinimal⟩ (result, after) := by
  obtain ⟨data, enforceMinimal⟩ := self
  cases data with
  | nil => simp [next_nil] at read
  | cons byte data =>
    refine ⟨byte, data, rfl, ?_⟩
    rw [next_cons, Option.some_inj] at read
    rw [← read]
    split_ifs
    · exact nextPushBytes_step _ _
    · exact nextPushDataLen_step _ _ _
    · exact nextPushDataLen_step _ _ _
    · exact nextPushDataLen_step _ _ _
    · exact ⟨List.suffix_rfl, rfl, nofun⟩

theorem next_shorter {result : Except Error Instruction} (read : self.next = some (result, after)) :
    after.data.length < self.data.length := by
  obtain ⟨byte, data, shape, suffix, -, -⟩ := next_step read
  rw [shape]
  exact Nat.lt_succ_of_le suffix.length_le

theorem drain_nil (fuel : Nat) (enforceMinimal : Bool) : drain fuel ⟨[], enforceMinimal⟩ = [] := by
  cases fuel <;> rfl

/-- Any fuel that covers the remaining bytes yields the same items. -/
theorem drain_eq_drain {fuel other : Nat} (enough : self.data.length ≤ fuel)
    (also : self.data.length ≤ other) : self.drain fuel = self.drain other := by
  induction fuel generalizing self other with
  | zero =>
    obtain ⟨data, enforceMinimal⟩ := self
    obtain rfl : data = [] := List.length_eq_zero_iff.mp (Nat.le_zero.mp enough)
    rw [drain_nil, drain_nil]
  | succ fuel ih =>
    cases other with
    | zero =>
      obtain ⟨data, enforceMinimal⟩ := self
      obtain rfl : data = [] := List.length_eq_zero_iff.mp (Nat.le_zero.mp also)
      rw [drain_nil, drain_nil]
    | succ other =>
      rw [drain, drain]
      cases read : self.next with
      | none => rfl
      | some step =>
        have less := next_shorter read
        exact congrArg _ (ih (by omega) (by omega))

/-- The fuel of `collect` never runs out. -/
theorem collect_of_next {result : Except Error Instruction}
    (read : self.next = some (result, after)) : self.collect = result :: after.collect := by
  have less := next_shorter read
  obtain ⟨fuel, size⟩ := Nat.exists_eq_add_of_lt less
  rw [collect, size, drain, read]
  exact congrArg _ (drain_eq_drain (by omega) (Nat.le_refl _))

theorem collect_nil (enforceMinimal : Bool) : collect ⟨[], enforceMinimal⟩ = [] := rfl

/-- Written instructions are read back in turn. -/
theorem collect_encode {items : List Instruction} {enforceMinimal : Bool}
    (plain : ∀ opcode, Instruction.op opcode ∈ items → 0x4e < opcode.code)
    (minimal : enforceMinimal = true → ∀ item ∈ items, item.Minimal) :
    collect ⟨items.flatMap Instruction.encode, enforceMinimal⟩ = items.map .ok := by
  induction items with
  | nil => rfl
  | cons instruction items ih =>
    have first := next_encode instruction (items.flatMap Instruction.encode)
      (fun opcode same => plain opcode (by simp [same])) fun enforced =>
        minimal enforced _ List.mem_cons_self
    rw [List.flatMap_cons, collect_of_next first, List.map_cons,
      ih (fun opcode member => plain opcode (List.mem_cons_of_mem _ member))
        fun enforced item member => minimal enforced item (List.mem_cons_of_mem _ member)]

/-- A minimal reading determines the bytes read. -/
theorem encode_of_collect {items : List Instruction} {data : Bytes}
    (read : collect ⟨data, true⟩ = items.map .ok) :
    items.flatMap Instruction.encode = data ∧ ∀ item ∈ items, item.Minimal := by
  induction items generalizing data with
  | nil =>
    cases next : next ⟨data, true⟩ with
    | none =>
      cases data with
      | nil => simp
      | cons byte data => simp [next_cons] at next
    | some step => simp [collect_of_next next] at read
  | cons instruction items ih =>
    cases next : next ⟨data, true⟩ with
    | none =>
      cases data with
      | nil => simp [collect_nil] at read
      | cons byte data => simp [next_cons] at next
    | some step =>
      obtain ⟨result, after, minimal⟩ := step
      rw [collect_of_next next, List.map_cons, List.cons.injEq] at read
      obtain ⟨rfl, others⟩ := read
      obtain ⟨split, rfl, first⟩ := next_minimal next
      obtain ⟨bytes, rest⟩ := ih others
      refine ⟨by rw [List.flatMap_cons, bytes, split], ?_⟩
      exact List.forall_mem_cons.mpr ⟨first, rest⟩

end Instructions

namespace Builder

/-- A byte that reads as a number without an opcode is pushed as itself. -/
theorem readScriptint_byte (byte : UInt8) (number : Instructions.isPushnum byte = false)
    (notNegativeZero : byte ≠ 0x80) (notZero : byte ≠ 0) :
    ∃ num, readScriptint [byte] = .ok num ∧ ¬ (num = -1 ∨ (1 ≤ num ∧ num ≤ 16)) ∧ num ≠ 0 ∧
      writeScriptint num = some [byte] := by
  have checked (n : Fin 256) : Instructions.isPushnum (UInt8.ofFin n) = false →
      UInt8.ofFin n ≠ 0x80 → UInt8.ofFin n ≠ 0 →
      (readScriptint [UInt8.ofFin n]).toOption.any fun num =>
        ¬ (num = -1 ∨ (1 ≤ num ∧ num ≤ 16)) ∧ num ≠ 0 ∧
          writeScriptint num = some [UInt8.ofFin n] := by
    revert n
    decide +kernel
  have byteChecked : (readScriptint [byte]).toOption.any _ :=
    checked byte.toFin number notNegativeZero notZero
  cases read : readScriptint [byte] with
  | error e => simp [read, Except.toOption] at byteChecked
  | ok num =>
    rw [read] at byteChecked
    exact ⟨num, rfl, of_decide_eq_true byteChecked⟩

theorem pushSlice_eq (self : Builder) (data : PushBytes) :
    self.pushSlice data = some ⟨self.script ++ (Instruction.pushBytes data).encode, none⟩ := by
  rw [pushSlice, ScriptBuf.pushSlice, ScriptBuf.pushSliceNoOpt_eq, Option.map_some]

theorem pushAgain_eq (self : Builder) (instruction : Instruction) (minimal : instruction.Minimal) :
    ∃ last, self.pushAgain instruction = some ⟨self.script ++ instruction.encode, last⟩ := by
  cases instruction with
  | op opcode => exact ⟨some opcode, rfl⟩
  | pushBytes bytes =>
    refine ⟨none, ?_⟩
    rw [pushAgain]
    split_ifs with single
    · obtain ⟨length, notNegativeZero, notZero⟩ := single
      obtain ⟨byte, only⟩ := List.length_eq_one_iff.mp length
      obtain ⟨num, read, noOpcode, nonzero, written⟩ := readScriptint_byte byte (minimal byte only)
        (by simpa [only] using notNegativeZero) (by simpa [only] using notZero)
      obtain ⟨bytes, fits⟩ := bytes
      obtain rfl : bytes = [byte] := only
      simp only [read, pushInt, if_neg noOpcode, if_neg nonzero, pushIntNonMinimal, written]
      exact self.pushSlice_eq ⟨[byte], fits⟩
    · exact self.pushSlice_eq bytes

theorem foldlM_pushAgain (self : Builder) {items : List Instruction}
    (minimal : ∀ item ∈ items, item.Minimal) :
    (items.foldlM pushAgain self).map script =
      some (self.script ++ items.flatMap Instruction.encode) := by
  induction items generalizing self with
  | nil => simp
  | cons instruction items ih =>
    obtain ⟨first, rest⟩ := List.forall_mem_cons.mp minimal
    obtain ⟨last, pushed⟩ := self.pushAgain_eq instruction first
    rw [List.foldlM_cons, pushed, Option.bind_eq_bind, Option.bind_some, ih _ rest]
    simp

end Builder

/-- Every iterator over plain opcodes and pushes is collected into a script that reads
back as what it yielded, whatever it reports of its size; and a script that reads
minimally is rebuilt from what it yields, by each way of pushing it. -/
theorem instructions_round_trip :
    (∀ iter : InstructionIter, (∀ opcode, Instruction.op opcode ∈ iter.items → 0x4e < opcode.code) →
      ∃ script, ScriptBuf.fromIter iter = some script ∧
        script.instructions = iter.items.map .ok) ∧
    ∀ (script : ScriptBuf) (items : List Instruction),
      script.instructionsMinimal = items.map .ok →
      items.foldlM ScriptBuf.pushInstruction ScriptBuf.new = some script ∧
      (items.foldlM Builder.pushAgain Builder.new).map Builder.script = some script ∧
      ∀ iter : InstructionIter, iter.items = items → ScriptBuf.fromIter iter = some script := by
  constructor
  · intro iter plain
    exact ⟨_, ScriptBuf.fromIter_eq iter, Instructions.collect_encode plain nofun⟩
  · intro script items minimal
    obtain ⟨bytes, each⟩ := Instructions.encode_of_collect minimal
    refine ⟨?_, ?_, ?_⟩
    · rw [ScriptBuf.foldlM_push ScriptBuf.pushInstruction_eq, bytes]
      rfl
    · rw [Builder.foldlM_pushAgain Builder.new each, bytes]
      rfl
    · rintro iter rfl
      rw [ScriptBuf.fromIter_eq, bytes]

/-- A pay-to-pubkey-hash script. -/
def p2pkh : ScriptBuf :=
  [0x76, 0xa9, 0x14] ++ List.replicate 20 0x55 ++ [0x88, 0xac]

def p2pkhItems : List Instruction :=
  [.op ⟨0x76⟩, .op ⟨0xa9⟩, .pushBytes ⟨List.replicate 20 0x55, by decide⟩, .op ⟨0x88⟩, .op ⟨0xac⟩]

/-- The same five instructions through the buffered and the plain branch of `extend`. -/
theorem p2pkh_round_trip :
    (∃ script, ScriptBuf.fromIter ⟨p2pkhItems, some 5, by decide⟩ = some script ∧
      script.instructions = p2pkhItems.map .ok) ∧
    ScriptBuf.fromIter ⟨p2pkhItems, none, by decide⟩ = some p2pkh := by
  obtain ⟨collected, rebuilt⟩ := instructions_round_trip
  refine ⟨collected ⟨p2pkhItems, some 5, by decide⟩ ?_, ?_⟩
  · intro opcode member
    rcases opcode with ⟨code⟩
    simp only [p2pkhItems, List.mem_cons, Instruction.op.injEq, Opcode.mk.injEq, reduceCtorEq,
      List.not_mem_nil, or_false, false_or] at member
    rcases member with rfl | rfl | rfl | rfl <;> decide
  · exact (rebuilt p2pkh p2pkhItems (by decide)).2.2 _ rfl

end Litecoin.Script
