import Litecoin.Script.RoundTrip
import Litecoin.Wire.Radix

/-! Scripts as assembly text (`bytes_to_asm_fmt` of `script/mod.rs`), against the instruction
reader. Text is in bytes, as it is written. -/
namespace Litecoin.Script
open Wire

/-- `write_str`. -/
def str (text : String) : Bytes := text.toByteArray.data.toList

/-- The constants of `all_opcodes!`, by their codes. -/
def opcodeNames : List String :=
  ["OP_PUSHBYTES_0", "OP_PUSHBYTES_1", "OP_PUSHBYTES_2", "OP_PUSHBYTES_3", "OP_PUSHBYTES_4",
    "OP_PUSHBYTES_5", "OP_PUSHBYTES_6", "OP_PUSHBYTES_7", "OP_PUSHBYTES_8", "OP_PUSHBYTES_9",
    "OP_PUSHBYTES_10", "OP_PUSHBYTES_11", "OP_PUSHBYTES_12", "OP_PUSHBYTES_13", "OP_PUSHBYTES_14",
    "OP_PUSHBYTES_15", "OP_PUSHBYTES_16", "OP_PUSHBYTES_17", "OP_PUSHBYTES_18", "OP_PUSHBYTES_19",
    "OP_PUSHBYTES_20", "OP_PUSHBYTES_21", "OP_PUSHBYTES_22", "OP_PUSHBYTES_23", "OP_PUSHBYTES_24",
    "OP_PUSHBYTES_25", "OP_PUSHBYTES_26", "OP_PUSHBYTES_27", "OP_PUSHBYTES_28", "OP_PUSHBYTES_29",
    "OP_PUSHBYTES_30", "OP_PUSHBYTES_31", "OP_PUSHBYTES_32", "OP_PUSHBYTES_33", "OP_PUSHBYTES_34",
    "OP_PUSHBYTES_35", "OP_PUSHBYTES_36", "OP_PUSHBYTES_37", "OP_PUSHBYTES_38", "OP_PUSHBYTES_39",
    "OP_PUSHBYTES_40", "OP_PUSHBYTES_41", "OP_PUSHBYTES_42", "OP_PUSHBYTES_43", "OP_PUSHBYTES_44",
    "OP_PUSHBYTES_45", "OP_PUSHBYTES_46", "OP_PUSHBYTES_47", "OP_PUSHBYTES_48", "OP_PUSHBYTES_49",
    "OP_PUSHBYTES_50", "OP_PUSHBYTES_51", "OP_PUSHBYTES_52", "OP_PUSHBYTES_53", "OP_PUSHBYTES_54",
    "OP_PUSHBYTES_55", "OP_PUSHBYTES_56", "OP_PUSHBYTES_57", "OP_PUSHBYTES_58", "OP_PUSHBYTES_59",
    "OP_PUSHBYTES_60", "OP_PUSHBYTES_61", "OP_PUSHBYTES_62", "OP_PUSHBYTES_63", "OP_PUSHBYTES_64",
    "OP_PUSHBYTES_65", "OP_PUSHBYTES_66", "OP_PUSHBYTES_67", "OP_PUSHBYTES_68", "OP_PUSHBYTES_69",
    "OP_PUSHBYTES_70", "OP_PUSHBYTES_71", "OP_PUSHBYTES_72", "OP_PUSHBYTES_73", "OP_PUSHBYTES_74",
    "OP_PUSHBYTES_75", "OP_PUSHDATA1", "OP_PUSHDATA2", "OP_PUSHDATA4", "OP_PUSHNUM_NEG1",
    "OP_RESERVED", "OP_PUSHNUM_1", "OP_PUSHNUM_2", "OP_PUSHNUM_3", "OP_PUSHNUM_4", "OP_PUSHNUM_5",
    "OP_PUSHNUM_6", "OP_PUSHNUM_7", "OP_PUSHNUM_8", "OP_PUSHNUM_9", "OP_PUSHNUM_10", "OP_PUSHNUM_11",
    "OP_PUSHNUM_12", "OP_PUSHNUM_13", "OP_PUSHNUM_14", "OP_PUSHNUM_15", "OP_PUSHNUM_16", "OP_NOP",
    "OP_VER", "OP_IF", "OP_NOTIF", "OP_VERIF", "OP_VERNOTIF", "OP_ELSE", "OP_ENDIF", "OP_VERIFY",
    "OP_RETURN", "OP_TOALTSTACK", "OP_FROMALTSTACK", "OP_2DROP", "OP_2DUP", "OP_3DUP", "OP_2OVER",
    "OP_2ROT", "OP_2SWAP", "OP_IFDUP", "OP_DEPTH", "OP_DROP", "OP_DUP", "OP_NIP", "OP_OVER", "OP_PICK",
    "OP_ROLL", "OP_ROT", "OP_SWAP", "OP_TUCK", "OP_CAT", "OP_SUBSTR", "OP_LEFT", "OP_RIGHT", "OP_SIZE",
    "OP_INVERT", "OP_AND", "OP_OR", "OP_XOR", "OP_EQUAL", "OP_EQUALVERIFY", "OP_RESERVED1",
    "OP_RESERVED2", "OP_1ADD", "OP_1SUB", "OP_2MUL", "OP_2DIV", "OP_NEGATE", "OP_ABS", "OP_NOT",
    "OP_0NOTEQUAL", "OP_ADD", "OP_SUB", "OP_MUL", "OP_DIV", "OP_MOD", "OP_LSHIFT", "OP_RSHIFT",
    "OP_BOOLAND", "OP_BOOLOR", "OP_NUMEQUAL", "OP_NUMEQUALVERIFY", "OP_NUMNOTEQUAL", "OP_LESSTHAN",
    "OP_GREATERTHAN", "OP_LESSTHANOREQUAL", "OP_GREATERTHANOREQUAL", "OP_MIN", "OP_MAX", "OP_WITHIN",
    "OP_RIPEMD160", "OP_SHA1", "OP_SHA256", "OP_HASH160", "OP_HASH256", "OP_CODESEPARATOR",
    "OP_CHECKSIG", "OP_CHECKSIGVERIFY", "OP_CHECKMULTISIG", "OP_CHECKMULTISIGVERIFY", "OP_NOP1",
    "OP_CLTV", "OP_CSV", "OP_NOP4", "OP_NOP5", "OP_NOP6", "OP_NOP7", "OP_NOP8", "OP_NOP9", "OP_NOP10",
    "OP_CHECKSIGADD", "OP_RETURN_187", "OP_RETURN_188", "OP_RETURN_189", "OP_RETURN_190",
    "OP_RETURN_191", "OP_RETURN_192", "OP_RETURN_193", "OP_RETURN_194", "OP_RETURN_195",
    "OP_RETURN_196", "OP_RETURN_197", "OP_RETURN_198", "OP_RETURN_199", "OP_RETURN_200",
    "OP_RETURN_201", "OP_RETURN_202", "OP_RETURN_203", "OP_RETURN_204", "OP_RETURN_205",
    "OP_RETURN_206", "OP_RETURN_207", "OP_RETURN_208", "OP_RETURN_209", "OP_RETURN_210",
    "OP_RETURN_211", "OP_RETURN_212", "OP_RETURN_213", "OP_RETURN_214", "OP_RETURN_215",
    "OP_RETURN_216", "OP_RETURN_217", "OP_RETURN_218", "OP_RETURN_219", "OP_RETURN_220",
    "OP_RETURN_221", "OP_RETURN_222", "OP_RETURN_223", "OP_RETURN_224", "OP_RETURN_225",
    "OP_RETURN_226", "OP_RETURN_227", "OP_RETURN_228", "OP_RETURN_229", "OP_RETURN_230",
    "OP_RETURN_231", "OP_RETURN_232", "OP_RETURN_233", "OP_RETURN_234", "OP_RETURN_235",
    "OP_RETURN_236", "OP_RETURN_237", "OP_RETURN_238", "OP_RETURN_239", "OP_RETURN_240",
    "OP_RETURN_241", "OP_RETURN_242", "OP_RETURN_243", "OP_RETURN_244", "OP_RETURN_245",
    "OP_RETURN_246", "OP_RETURN_247", "OP_RETURN_248", "OP_RETURN_249", "OP_RETURN_250",
    "OP_RETURN_251", "OP_RETURN_252", "OP_RETURN_253", "OP_RETURN_254", "OP_INVALIDOPCODE"]

/-- `Debug`, which is `Display`. -/
def Opcode.display (opcode : Opcode) : Bytes := (opcodeNames[opcode.code.toNat]?.map str).getD []

inductive Marker where
  | unexpectedEnd
  | pushPastEnd

def Marker.text : Marker → Bytes
  | .unexpectedEnd => str "<unexpected end>"
  | .pushPastEnd => str "<push past end>"

/-- `read_push_data_len!`; what it writes before it breaks the loop is the error. -/
def readPushDataLen (iter : Bytes) (len : Nat) : Except Marker (Nat × Bytes) :=
  match readUintIter iter len with
  | (.ok n, iter) => .ok (n, iter)
  | (.error .earlyEndOfScript, _) => .error .unexpectedEnd
  | (.error .numericOverflow, _) => .error .pushPastEnd

/-- `data_len`, and the iterator behind it. -/
def readDataLen (opcode : Opcode) (iter : Bytes) : Except Marker (Nat × Bytes) :=
  match opcode.legacyClass with
  | .pushBytes n => .ok (n.toNat, iter)
  | _ =>
    if opcode = Opcode.pushdata1 then readPushDataLen iter 1
    else if opcode = Opcode.pushdata2 then readPushDataLen iter 2
    else if opcode = Opcode.pushdata4 then readPushDataLen iter 4
    else .ok (0, iter)

def writeOpcode (opcode : Opcode) : Bytes :=
  if opcode = Opcode.pushbytes0 then str "OP_0" else opcode.display

def hexDigit (digit : Nat) : UInt8 := UInt8.ofNat (hexDigitChar digit).toNat

/-- `{:02x}`. -/
def hexByte (byte : UInt8) : Bytes := [hexDigit (byte.toNat / 16), hexDigit (byte.toNat % 16)]

/-- What is written before an opcode. -/
def separator (atLeastOne : Bool) : Bytes := if atLeastOne then str " " else []

/-- The loop of `bytes_to_asm_fmt`, for so many opcodes at most. -/
def asmLoop : (fuel : Nat) → (iter : Bytes) → (atLeastOne : Bool) → Option Bytes
  | 0, _, _ => none
  | _ + 1, [], _ => some []
  | fuel + 1, byte :: iter, atLeastOne =>
    match readDataLen ⟨byte⟩ iter with
    | .error marker => some marker.text
    | .ok (dataLen, iter) =>
      let shown := separator atLeastOne ++ writeOpcode ⟨byte⟩
      if 0 < dataLen then
        if dataLen ≤ iter.length then
          (asmLoop fuel (iter.drop dataLen) true).map
            (shown ++ str " " ++ (iter.take dataLen).flatMap hexByte ++ ·)
        else some (shown ++ str " " ++ Marker.pushPastEnd.text)
      else (asmLoop fuel iter true).map (shown ++ ·)

/-- `bytes_to_asm_fmt`; every turn of its loop reads a byte. -/
def bytesToAsmFmt (script : Bytes) : Option Bytes := asmLoop (script.length + 1) script false

/-- The bytes that announce the length of a push. -/
def lengthSize (opcode : Opcode) : Nat :=
  if opcode = Opcode.pushdata1 then 1
  else if opcode = Opcode.pushdata2 then 2
  else if opcode = Opcode.pushdata4 then 4
  else 0

theorem lengthSize_le (opcode : Opcode) : lengthSize opcode ≤ 4 := by
  rw [lengthSize]
  split_ifs <;> decide

/-- Only three opcodes announce a length. -/
theorem lengthSize_eq_zero {code : UInt8} (other : code ≤ 0x4b ∨ ¬ code ≤ 0x4e) :
    lengthSize ⟨code⟩ = 0 := by
  simp only [UInt8.le_iff_toNat_le, UInt8.reduceToNat] at other
  simp only [lengthSize, Opcode.pushdata1, Opcode.pushdata2, Opcode.pushdata4, Opcode.mk.injEq,
    ← UInt8.toNat_inj, UInt8.reduceToNat]
  split_ifs <;> omega

/-- The lengths that an opcode can announce. -/
def Announces (opcode : Opcode) (n : Nat) : Prop :=
  if opcode.code ≤ 0x4b then n = opcode.code.toNat else n < 256 ^ lengthSize opcode

theorem Announces.lt {opcode : Opcode} {n : Nat} (announced : Announces opcode n) :
    n < 0x100000000 := by
  rw [Announces] at announced
  split_ifs at announced with direct
  · have code := opcode.code.toNat_lt
    omega
  · have bound : 256 ^ lengthSize opcode ≤ 256 ^ 4 :=
      Nat.pow_le_pow_right (by decide) (lengthSize_le _)
    omega

/-- An opcode above the pushes announces nothing. -/
theorem Announces.eq_zero {opcode : Opcode} {n : Nat} (announced : Announces opcode n)
    (late : ¬ opcode.code ≤ 0x4e) : n = 0 := by
  have direct : ¬ opcode.code ≤ 0x4b := fun direct => late (UInt8.le_trans direct (by decide))
  rw [Announces, if_neg direct, lengthSize_eq_zero (.inr late)] at announced
  exact Nat.lt_one_iff.mp announced

/-- An opcode with the data that it pushes. -/
structure Piece where
  opcode : Opcode
  data : Bytes
  announced : Announces opcode data.length

namespace Piece

def bytes (piece : Piece) : Bytes :=
  piece.opcode.code :: (littleEndian (lengthSize piece.opcode) piece.data.length ++ piece.data)

/-- What the reader takes it for. -/
def instruction (piece : Piece) : Instruction :=
  if piece.opcode.code ≤ 0x4e then .pushBytes ⟨piece.data, piece.announced.lt⟩ else .op piece.opcode

/-- What the printer writes of it, separated. -/
def words (piece : Piece) : List Bytes :=
  writeOpcode piece.opcode :: if piece.data = [] then [] else [piece.data.flatMap hexByte]

end Piece

/-! Where the printer and the reader go after an opcode byte. -/

theorem code_le_of_pushBytes {opcode : Opcode} {n : UInt32}
    (known : opcode.legacyClass = .pushBytes n) : opcode.code ≤ 0x4b := by
  by_contra direct
  simp only [UInt8.not_le, UInt8.lt_iff_toNat_lt, UInt8.reduceToNat] at direct
  by_cases high : Opcode.pushdata4.code < opcode.code
  · have plain := opcode.legacyClass_isPlain high
    rw [known] at plain
    contradiction
  · rw [UInt8.not_lt, UInt8.le_iff_toNat_le, show Opcode.pushdata4.code.toNat = 78 from rfl] at high
    have announces :
        opcode = Opcode.pushdata1 ∨ opcode = Opcode.pushdata2 ∨ opcode = Opcode.pushdata4 := by
      obtain ⟨code⟩ := opcode
      simp only [Opcode.pushdata1, Opcode.pushdata2, Opcode.pushdata4, Opcode.mk.injEq,
        ← UInt8.toNat_inj, UInt8.reduceToNat]
      simp only at direct high
      omega
    obtain rfl | rfl | rfl := announces
    · exact absurd (known.symm.trans Opcode.legacyClass_pushdata1) (by simp)
    · exact absurd (known.symm.trans Opcode.legacyClass_pushdata2) (by simp)
    · exact absurd (known.symm.trans Opcode.legacyClass_pushdata4) (by simp)

theorem readDataLen_eq (byte : UInt8) (iter : Bytes) :
    readDataLen ⟨byte⟩ iter =
      if byte ≤ 0x4b then .ok (byte.toNat, iter)
      else if byte = 0x4c then readPushDataLen iter 1
      else if byte = 0x4d then readPushDataLen iter 2
      else if byte = 0x4e then readPushDataLen iter 4
      else .ok (0, iter) := by
  by_cases direct : byte ≤ 0x4b
  · have known := Opcode.legacyClass_pushBytes ⟨byte⟩ direct
    simp [readDataLen, known, direct]
  · rw [readDataLen, if_neg direct]
    split
    · rename_i n known
      exact absurd (code_le_of_pushBytes known) direct
    · simp only [Opcode.pushdata1, Opcode.pushdata2, Opcode.pushdata4, Opcode.mk.injEq]

namespace Instructions

/-- A push of so many bytes. -/
def take (data : Bytes) (n : Nat) : Except Error Instruction × Instructions :=
  let (slice, self) := takeSliceOrKill ⟨data, false⟩ (UInt32.ofNat n)
  (slice.map .pushBytes, self)

theorem nextPushBytes_relaxed (data : Bytes) (n : UInt32) :
    nextPushBytes ⟨data, false⟩ n = take data n.toNat := by
  rw [take, UInt32.ofNat_toNat, nextPushBytes]
  split
  · contradiction
  · rename_i empty zero
    obtain rfl : data = [] := List.head?_eq_none_iff.mp empty
    obtain rfl : n = 0 := of_decide_eq_true zero
    rfl
  · rfl

theorem nextPushDataLen_relaxed (data : Bytes) (len : PushDataLenLen) (minPushLen : Nat) :
    nextPushDataLen ⟨data, false⟩ len minPushLen =
      if data.length < len.toUsize then (.error .earlyEndOfScript, ⟨[], false⟩)
      else take (data.drop len.toUsize) (fromLittleEndian (data.take len.toUsize)) := by
  have small := toUsize_le len
  by_cases short : data.length < len.toUsize
  · simp [nextPushDataLen, readUintIter_short short, if_pos short, kill]
  · have bound := fromLittleEndian_lt (data.take len.toUsize)
    have fits : fromLittleEndian (data.take len.toUsize) < 0x100000000 := by
      refine Nat.lt_of_lt_of_le bound (Nat.pow_le_pow_right (by decide) (?_ : _ ≤ 4))
      exact Nat.le_trans (List.length_take_le _ _) small
    rw [if_neg short]
    simp only [nextPushDataLen, readUintIter_eq (by omega) (Nat.le_of_not_lt short), Bool.false_eq_true,
      false_and, if_false, if_pos fits]
    rfl

theorem take_of_le {data : Bytes} {n : Nat} (small : n < 0x100000000) (enough : n ≤ data.length) :
    take data n = (.ok (.pushBytes ⟨data.take n, by rwa [List.length_take, min_eq_left enough]⟩),
      ⟨data.drop n, false⟩) := by
  have length : (UInt32.ofNat n).toNat = n := UInt32.toNat_ofNat_of_lt' small
  simp only [take, takeSliceOrKill, length, if_pos enough]
  rfl

theorem take_of_lt {data : Bytes} {n : Nat} (small : n < 0x100000000) (short : data.length < n) :
    take data n = (.error .earlyEndOfScript, ⟨[], false⟩) := by
  have length : (UInt32.ofNat n).toNat = n := UInt32.toNat_ofNat_of_lt' small
  simp only [take, takeSliceOrKill, length, if_neg (Nat.not_le.mpr short)]
  rfl

/-- Both read the length in the same way. -/
theorem readPushDataLen_next (iter : Bytes) (len : PushDataLenLen) (minPushLen : Nat) :
    (readPushDataLen iter len.toUsize = .error .unexpectedEnd ∧
        nextPushDataLen ⟨iter, false⟩ len minPushLen = (.error .earlyEndOfScript, ⟨[], false⟩)) ∨
      ∃ n rest, readPushDataLen iter len.toUsize = .ok (n, rest) ∧
        iter = littleEndian len.toUsize n ++ rest ∧ n < 256 ^ len.toUsize ∧
        nextPushDataLen ⟨iter, false⟩ len minPushLen = take rest n := by
  have small := toUsize_le len
  rw [nextPushDataLen_relaxed, readPushDataLen]
  by_cases short : iter.length < len.toUsize
  · exact .inl ⟨by rw [readUintIter_short short], if_pos short⟩
  · have size : (iter.take len.toUsize).length = len.toUsize := by
      rw [List.length_take]
      omega
    have written := littleEndian_fromLittleEndian (iter.take len.toUsize)
    have bound := fromLittleEndian_lt (iter.take len.toUsize)
    rw [size] at written bound
    refine .inr ⟨_, _, by rw [readUintIter_eq (by omega) (Nat.le_of_not_lt short)], ?_, bound,
      if_neg short⟩
    rw [written, List.take_append_drop]

end Instructions

/-- The printer and the reader find the same length behind an opcode byte, or both miss bytes
of it. -/
def Agrees (byte : UInt8) (iter : Bytes) : Prop :=
  (readDataLen ⟨byte⟩ iter = .error .unexpectedEnd ∧
      Instructions.next ⟨byte :: iter, false⟩ = some (.error .earlyEndOfScript, ⟨[], false⟩)) ∨
    ∃ n rest, readDataLen ⟨byte⟩ iter = .ok (n, rest) ∧
      iter = littleEndian (lengthSize ⟨byte⟩) n ++ rest ∧ Announces ⟨byte⟩ n ∧
      Instructions.next ⟨byte :: iter, false⟩ =
        some (if byte ≤ 0x4e then Instructions.take rest n
          else (.ok (.op ⟨byte⟩), ⟨rest, false⟩))

theorem agrees_of_announced {byte : UInt8} {iter : Bytes} (len : PushDataLenLen) (minPushLen : Nat)
    (size : lengthSize ⟨byte⟩ = len.toUsize) (late : ¬ byte ≤ 0x4b) (push : byte ≤ 0x4e)
    (read : readDataLen ⟨byte⟩ iter = readPushDataLen iter len.toUsize)
    (next : Instructions.next ⟨byte :: iter, false⟩ =
      some (Instructions.nextPushDataLen ⟨iter, false⟩ len minPushLen)) : Agrees byte iter := by
  rw [Agrees, read, next, size]
  obtain ⟨short, stops⟩ | ⟨n, rest, length, split, bound, goes⟩ :=
    Instructions.readPushDataLen_next iter len minPushLen
  · exact .inl ⟨short, by rw [stops]⟩
  · exact .inr ⟨n, rest, length, split, by rwa [Announces, if_neg late, size],
      by rw [goes, if_pos push]⟩

theorem agrees (byte : UInt8) (iter : Bytes) : Agrees byte iter := by
  have read := readDataLen_eq byte iter
  have next := Instructions.next_cons byte iter false
  split_ifs at read next with direct one two four
  · refine .inr ⟨byte.toNat, iter, read, ?_, by rw [Announces, if_pos direct], ?_⟩
    · rw [lengthSize_eq_zero (.inl direct)]
      rfl
    · have push : byte ≤ 0x4e := UInt8.le_trans direct (by decide)
      rw [next, Instructions.nextPushBytes_relaxed, if_pos push, UInt8.toNat_toUInt32]
  · subst one
    exact agrees_of_announced .one 76 rfl (by decide) (by decide) read next
  · subst two
    exact agrees_of_announced .two 0x100 rfl (by decide) (by decide) read next
  · subst four
    exact agrees_of_announced .four 0x10000 rfl (by decide) (by decide) read next
  · have plain : ¬ byte ≤ 0x4e := by
      simp only [UInt8.le_iff_toNat_le, ← UInt8.toNat_inj, UInt8.reduceToNat] at direct one two four ⊢
      omega
    have none := lengthSize_eq_zero (.inr plain)
    refine .inr ⟨0, iter, read, ?_, ?_, by rw [next, if_neg plain]⟩
    · rw [none]
      rfl
    · rw [Announces, if_neg direct, none]
      decide

/-- How a script ends for the printer and the reader. -/
inductive Ending where
  | finished
  | noLength
  | pastEnd (opcode : Opcode)

/-- Words after a separator each, or between separators. -/
def joined : (atLeastOne : Bool) → List Bytes → Bytes
  | _, [] => []
  | atLeastOne, word :: words => separator atLeastOne ++ word ++ joined true words

theorem joined_append (atLeastOne : Bool) (words more : List Bytes) :
    joined atLeastOne (words ++ more) =
      joined atLeastOne words ++ joined (atLeastOne || !words.isEmpty) more := by
  induction words generalizing atLeastOne with
  | nil => simp [joined]
  | cons word words ih => simp [joined, ih]

namespace Ending

def text (atLeastOne : Bool) : Ending → Bytes
  | finished => []
  | noLength => Marker.unexpectedEnd.text
  | pastEnd opcode => joined atLeastOne [writeOpcode opcode, Marker.pushPastEnd.text]

def errors : Ending → List Error
  | finished => []
  | _ => [.earlyEndOfScript]

end Ending

theorem asmLoop_piece {fuel : Nat} {iter rest : Bytes} (piece : Piece) {atLeastOne : Bool}
    (read : readDataLen piece.opcode iter = .ok (piece.data.length, piece.data ++ rest)) :
    asmLoop (fuel + 1) (piece.opcode.code :: iter) atLeastOne =
      (asmLoop fuel rest true).map (joined atLeastOne piece.words ++ ·) := by
  have enough : piece.data.length ≤ (piece.data ++ rest).length := by simp
  simp only [asmLoop, read, if_pos enough, List.take_left, List.drop_left, Piece.words]
  by_cases none : piece.data = []
  · simp [none, joined]
  · rw [if_pos (List.length_pos_of_ne_nil none), if_neg none]
    simp [joined, separator]

/-- A turn of the printer's loop, and the item of the reader there. -/
theorem asmLoop_next (fuel : Nat) (byte : UInt8) (iter : Bytes) (atLeastOne : Bool) :
    (∃ (piece : Piece) (rest : Bytes), byte :: iter = piece.bytes ++ rest ∧
        Instructions.next ⟨byte :: iter, false⟩ = some (.ok piece.instruction, ⟨rest, false⟩) ∧
        asmLoop (fuel + 1) (byte :: iter) atLeastOne =
          (asmLoop fuel rest true).map (joined atLeastOne piece.words ++ ·)) ∨
      ∃ ending : Ending, ending.errors = [.earlyEndOfScript] ∧
        Instructions.next ⟨byte :: iter, false⟩ = some (.error .earlyEndOfScript, ⟨[], false⟩) ∧
        asmLoop (fuel + 1) (byte :: iter) atLeastOne = some (ending.text atLeastOne) := by
  obtain ⟨short, stops⟩ | ⟨n, rest, read, rfl, announced, goes⟩ := agrees byte iter
  · exact .inr ⟨.noLength, rfl, stops, by rw [asmLoop, short]; rfl⟩
  · have small := announced.lt
    by_cases enough : n ≤ rest.length
    · obtain ⟨data, rest, rfl, rfl⟩ : ∃ data after, n = data.length ∧ rest = data ++ after :=
        ⟨rest.take n, rest.drop n, (List.length_take_of_le enough).symm,
          (List.take_append_drop _ _).symm⟩
      refine .inl ⟨⟨⟨byte⟩, data, announced⟩, rest, ?_, ?_,
        asmLoop_piece ⟨⟨byte⟩, data, announced⟩ read⟩
      · simp only [Piece.bytes, List.cons_append, List.append_assoc]
      · rw [goes, Piece.instruction]
        split_ifs with push
        · simp only [Instructions.take_of_le small enough, List.take_left, List.drop_left]
        · obtain rfl : data = [] := List.length_eq_zero_iff.mp (announced.eq_zero push)
          rfl
    · have short := Nat.lt_of_not_le enough
      have push : byte ≤ 0x4e := by
        by_contra late
        exact enough (announced.eq_zero late ▸ Nat.zero_le _)
      refine .inr ⟨.pastEnd ⟨byte⟩, rfl, ?_, ?_⟩
      · rw [goes, if_pos push, Instructions.take_of_lt small short]
      · simp only [asmLoop, read, if_pos (Nat.zero_lt_of_lt short), if_neg enough, Ending.text, joined,
          List.append_assoc, List.append_nil]
        rfl

/-- The printer and the reader go through a script side by side. -/
theorem asmLoop_collect {fuel : Nat} {script : Bytes} (enough : script.length < fuel)
    (atLeastOne : Bool) :
    ∃ (pieces : List Piece) (ending : Ending) (rest : Bytes),
      script = pieces.flatMap Piece.bytes ++ rest ∧ (ending = .finished → rest = []) ∧
      Instructions.collect ⟨script, false⟩ =
        pieces.map (.ok ·.instruction) ++ ending.errors.map .error ∧
      asmLoop fuel script atLeastOne = some (joined atLeastOne (pieces.flatMap Piece.words) ++
        ending.text (atLeastOne || !pieces.isEmpty)) := by
  induction fuel generalizing script atLeastOne with
  | zero => contradiction
  | succ fuel ih =>
    cases script with
    | nil => exact ⟨[], .finished, [], rfl, fun _ => rfl, rfl, rfl⟩
    | cons byte iter =>
      obtain ⟨piece, rest, split, goes, prints⟩ | ⟨ending, fails, stops, prints⟩ :=
        asmLoop_next fuel byte iter atLeastOne
      · have shorter : rest.length < fuel :=
          Nat.lt_of_lt_of_le (Instructions.next_shorter goes) (Nat.le_of_lt_succ enough)
        obtain ⟨pieces, ending, left, follow, whole, items, text⟩ := ih shorter true
        refine ⟨piece :: pieces, ending, left, ?_, whole, ?_, ?_⟩
        · rw [split, follow, List.flatMap_cons, List.append_assoc]
        · rw [Instructions.collect_of_next goes, items]
          rfl
        · rw [prints, text, Option.map_some, List.flatMap_cons, joined_append]
          simp [Piece.words]
      · refine ⟨[], ending, byte :: iter, rfl, ?_, ?_, ?_⟩
        · rintro rfl
          contradiction
        · rw [Instructions.collect_of_next stops, fails]
          rfl
        · rw [prints]
          simp [joined]

/-! The words of a script can be told apart in its text. -/

/-- The names that `writeOpcode` writes, by opcode. -/
def writtenNames : List String := "OP_0" :: opcodeNames.tail

/-- `Nodup`, by a set of bits for the numbers seen. -/
def distinct : (seen : Nat) → List Nat → Bool
  | _, [] => true
  | seen, n :: rest => !seen.testBit n && distinct (seen ||| 2 ^ n) rest

theorem distinct_nodup {seen : Nat} {numbers : List Nat} (apart : distinct seen numbers = true) :
    numbers.Nodup ∧ ∀ n ∈ numbers, seen.testBit n = false := by
  induction numbers generalizing seen with
  | nil => exact ⟨List.nodup_nil, nofun⟩
  | cons n rest ih =>
    obtain ⟨fresh, apart⟩ := Bool.and_eq_true_iff.mp apart
    obtain ⟨nodup, unseen⟩ := ih apart
    have unseen' : ∀ m ∈ rest, seen.testBit m = false ∧ n ≠ m := by
      intro m member
      simpa [Nat.testBit_or, Nat.testBit_two_pow] using unseen m member
    refine ⟨List.nodup_cons.mpr ⟨fun again => (unseen' n again).2 rfl, nodup⟩, fun m member => ?_⟩
    rcases List.mem_cons.mp member with rfl | later
    · simpa using fresh
    · exact (unseen' m later).1

theorem writtenNames_length : writtenNames.length = 256 := by decide +kernel

/-- Read as numbers, the names differ modulo 2769 already. -/
theorem writtenNames_distinct :
    distinct 0 (writtenNames.map fun name => fromLittleEndian (str name) % 2769) = true := by
  decide +kernel

theorem writtenNames_plain : ∀ name ∈ writtenNames,
    (str name).head? = some 0x4f ∧ 0x20 ∉ str name ∧ 0x3e ∉ str name := by
  decide +kernel

theorem writeOpcode_eq (opcode : Opcode) :
    some (writeOpcode opcode) = writtenNames[opcode.code.toNat]?.map str := by
  rw [writeOpcode]
  split_ifs with zero
  · subst zero
    rfl
  · have later : opcode.code.toNat ≠ 0 := by
      intro same
      exact zero (congrArg Opcode.mk (UInt8.toNat_inj.mp same))
    obtain ⟨k, index⟩ := Nat.exists_eq_succ_of_ne_zero later
    have bound : k < opcodeNames.tail.length := by
      have code := opcode.code.toNat_lt
      have size : opcodeNames.tail.length + 1 = 256 := writtenNames_length
      omega
    have names : opcodeNames[k + 1]? = opcodeNames.tail[k]? := rfl
    rw [Opcode.display, writtenNames, index, names, List.getElem?_cons_succ,
      List.getElem?_eq_getElem bound]
    rfl

theorem writeOpcode_plain (opcode : Opcode) : (writeOpcode opcode).head? = some 0x4f ∧
    0x20 ∉ writeOpcode opcode ∧ 0x3e ∉ writeOpcode opcode := by
  obtain ⟨name, found, written⟩ := Option.map_eq_some_iff.mp (writeOpcode_eq opcode).symm
  rw [← written]
  exact writtenNames_plain name (List.mem_of_getElem? found)

theorem writeOpcode_injective : Function.Injective writeOpcode := by
  intro left right same
  have found := congrArg (Option.map (fromLittleEndian · % 2769)) (congrArg some same)
  rw [writeOpcode_eq, writeOpcode_eq, Option.map_map, Option.map_map, ← List.getElem?_map,
    ← List.getElem?_map] at found
  have bound : left.code.toNat < (writtenNames.map ((fromLittleEndian · % 2769) ∘ str)).length := by
    rw [List.length_map, writtenNames_length]
    exact left.code.toNat_lt
  have code := (List.getElem?_inj bound (distinct_nodup writtenNames_distinct).1).mp found
  exact congrArg Opcode.mk (UInt8.toNat_inj.mp code)

theorem hexDigit_plain : ∀ digit < 16, hexDigit digit ∉ [0x20, 0x3e, 0x4f] := by decide

theorem hexDigit_injective : ∀ left < 16, ∀ right < 16,
    hexDigit left = hexDigit right → left = right := by
  decide

theorem hexByte_injective : Function.Injective hexByte := by
  intro left right same
  obtain ⟨high, low⟩ : hexDigit (left.toNat / 16) = hexDigit (right.toNat / 16) ∧
      hexDigit (left.toNat % 16) = hexDigit (right.toNat % 16) := by simpa [hexByte] using same
  have leftLt := left.toNat_lt
  have rightLt := right.toNat_lt
  have high := hexDigit_injective _ (by omega) _ (by omega) high
  have low := hexDigit_injective _ (Nat.mod_lt _ (by decide)) _ (Nat.mod_lt _ (by decide)) low
  apply UInt8.toNat_inj.mp
  omega

theorem mem_flatMap_hexByte {data : Bytes} {byte : UInt8} (member : byte ∈ data.flatMap hexByte) :
    byte ∉ [0x20, 0x3e, 0x4f] := by
  obtain ⟨source, -, member⟩ := List.mem_flatMap.mp member
  have bound := source.toNat_lt
  obtain rfl | rfl : byte = hexDigit (source.toNat / 16) ∨ byte = hexDigit (source.toNat % 16) := by
    simpa [hexByte] using member
  · exact hexDigit_plain _ (by omega)
  · exact hexDigit_plain _ (Nat.mod_lt _ (by decide))

theorem flatMap_hexByte_injective {left right : Bytes}
    (same : left.flatMap hexByte = right.flatMap hexByte) : left = right := by
  induction left generalizing right with
  | nil => cases right with
    | nil => rfl
    | cons byte right => simp [hexByte] at same
  | cons first left ih => cases right with
    | nil => simp [hexByte] at same
    | cons second right =>
      rw [List.flatMap_cons, List.flatMap_cons] at same
      obtain ⟨bytes, others⟩ := List.append_inj same rfl
      rw [hexByte_injective bytes, ih others]

/-- What separates words and what ends a marker occur in no word. -/
structure Plain (word : Bytes) : Prop where
  nonempty : word ≠ []
  unseparated : 0x20 ∉ word
  unmarked : 0x3e ∉ word

namespace Piece

theorem words_plain (piece : Piece) : ∀ word ∈ piece.words, Plain word := by
  obtain ⟨leads, unseparated, unmarked⟩ := writeOpcode_plain piece.opcode
  have name : Plain (writeOpcode piece.opcode) := by
    refine ⟨?_, unseparated, unmarked⟩
    intro none
    simp [none] at leads
  intro word member
  rw [words] at member
  split_ifs at member with none
  · obtain rfl := List.mem_singleton.mp member
    exact name
  · obtain rfl | rfl : word = writeOpcode piece.opcode ∨ word = piece.data.flatMap hexByte := by
      simpa using member
    · exact name
    · refine ⟨?_, fun space => ?_, fun marker => ?_⟩
      · intro empty
        exact none (flatMap_hexByte_injective empty)
      · exact absurd (mem_flatMap_hexByte space) (by decide)
      · exact absurd (mem_flatMap_hexByte marker) (by decide)

/-- The words of pieces begin with the name of an opcode. -/
theorem leads {pieces : List Piece} {word : Bytes} {words : List Bytes}
    (shown : pieces.flatMap Piece.words = word :: words) : word.head? = some 0x4f := by
  cases pieces with
  | nil => contradiction
  | cons piece pieces =>
    obtain ⟨rfl, -⟩ := List.cons_eq_cons.mp shown
    exact (writeOpcode_plain piece.opcode).1

theorem data_not_leads {data : Bytes} : (data.flatMap hexByte).head? ≠ some 0x4f := by
  intro leads
  exact absurd (mem_flatMap_hexByte (List.mem_of_head? leads)) (by decide)

theorem flatMap_words_injective {left right : List Piece}
    (same : left.flatMap words = right.flatMap words) : left = right := by
  induction left generalizing right with
  | nil => cases right with
    | nil => rfl
    | cons second right => contradiction
  | cons first left ih => cases right with
    | nil => contradiction
    | cons second right =>
      obtain ⟨opcode, data, announced⟩ := first
      obtain ⟨opcode', data', announced'⟩ := second
      simp only [List.flatMap_cons, words, List.cons_append, List.cons.injEq] at same
      obtain ⟨name, same⟩ := same
      obtain rfl := writeOpcode_injective name
      split_ifs at same with none none' none'
      · obtain rfl := none
        obtain rfl := none'
        rw [ih same]
      · exact absurd (leads same) data_not_leads
      · exact absurd (leads same.symm) data_not_leads
      · obtain ⟨shown, others⟩ := List.cons_eq_cons.mp same
        obtain rfl := flatMap_hexByte_injective shown
        rw [ih others]

end Piece

theorem joined_false (words : List Bytes) : joined false words = [0x20].intercalate words := by
  have space : str " " = [0x20] := by decide
  have follow (words : List Bytes) (first : Bytes) :
      [0x20].intercalate (first :: words) = first ++ joined true words := by
    induction words generalizing first with
    | nil => simp [joined]
    | cons next words ih =>
      rw [List.intercalate_cons_cons, ih]
      simp [joined, separator, space]
  cases words with
  | nil => rfl
  | cons word words =>
    rw [follow]
    rfl

/-- Text splits into its words again. -/
theorem joined_injective {left right : List Bytes} (plain : ∀ word ∈ left, Plain word)
    (plain' : ∀ word ∈ right, Plain word) (same : joined false left = joined false right) :
    left = right := by
  have empty {words : List Bytes} (plain : ∀ word ∈ words, Plain word)
      (none : joined false words = []) : words = [] := by
    cases words with
    | nil => rfl
    | cons word words =>
      have blank : word = [] := by
        simp only [joined, List.append_eq_nil_iff] at none
        exact none.1.2
      exact absurd blank (plain word List.mem_cons_self).nonempty
  by_cases none : left = []
  · subst none
    exact (empty plain' same.symm).symm
  · have none' : right ≠ [] := by
      rintro rfl
      exact none (empty plain same)
    rw [joined_false, joined_false] at same
    rw [← List.splitOn_intercalate 0x20 (fun word member => (plain word member).unseparated) none,
      same, List.splitOn_intercalate 0x20 (fun word member => (plain' word member).unseparated) none']

theorem joined_unmarked {words : List Bytes} (plain : ∀ word ∈ words, Plain word) (atLeastOne : Bool) :
    0x3e ∉ joined atLeastOne words := by
  have space : 0x3e ∉ separator atLeastOne := by
    cases atLeastOne <;> decide
  induction words generalizing atLeastOne with
  | nil => exact List.not_mem_nil
  | cons word words ih =>
    obtain ⟨first, rest⟩ := List.forall_mem_cons.mp plain
    simp only [joined, List.mem_append, not_or]
    exact ⟨⟨space, first.unmarked⟩, ih rest true (by decide)⟩

/-- An ending leaves a marker exactly where the reader fails. -/
theorem Ending.marked_iff (ending : Ending) (atLeastOne : Bool) {shown : Bytes}
    (unmarked : 0x3e ∉ shown) :
    (∃ marker : Marker, marker.text <:+ shown ++ ending.text atLeastOne) ↔ ending.errors ≠ [] := by
  cases ending with
  | finished =>
    simp only [text, List.append_nil, errors, ne_eq, not_true_eq_false, iff_false]
    rintro ⟨marker, suffix⟩
    have closed : 0x3e ∈ marker.text := by cases marker <;> decide
    exact unmarked (suffix.subset closed)
  | noLength => exact iff_of_true ⟨.unexpectedEnd, List.suffix_append _ _⟩ (List.cons_ne_nil _ _)
  | pastEnd opcode =>
    refine iff_of_true ⟨.pushPastEnd, ?_⟩ (List.cons_ne_nil _ _)
    simp only [text, joined, List.append_nil, ← List.append_assoc]
    exact List.suffix_append _ _

theorem error_mem_iff (pieces : List Piece) (ending : Ending) :
    (∃ e, Except.error e ∈ pieces.map (.ok ·.instruction) ++ ending.errors.map .error) ↔
      ending.errors ≠ [] := by
  simp [List.eq_nil_iff_forall_not_mem]

theorem flatMap_words_plain (pieces : List Piece) :
    ∀ word ∈ pieces.flatMap Piece.words, Plain word := by
  intro word member
  obtain ⟨piece, -, member⟩ := List.mem_flatMap.mp member
  exact piece.words_plain word member

/-- A script that is read to its end consists of the pieces that are printed. -/
theorem exists_pieces {script : ScriptBuf} (reads : ∀ e, .error e ∉ script.instructions) :
    ∃ pieces : List Piece, script = pieces.flatMap Piece.bytes ∧
      bytesToAsmFmt script = some (joined false (pieces.flatMap Piece.words)) := by
  obtain ⟨pieces, ending, rest, split, whole, items, prints⟩ :=
    asmLoop_collect (Nat.lt_succ_self script.length) false
  have fine : ending.errors = [] := by
    by_contra fails
    obtain ⟨e, member⟩ := (error_mem_iff pieces ending).mpr fails
    rw [← items] at member
    exact reads e member
  cases ending with
  | finished =>
    rw [whole rfl, List.append_nil] at split
    exact ⟨pieces, split, by rw [bytesToAsmFmt, prints, Ending.text, List.append_nil]⟩
  | noLength => contradiction
  | pastEnd opcode => contradiction

/-- What `bytes_to_asm_fmt` prints: the instructions that the reader yields, in order, then a
marker exactly if the reader fails. No two scripts that are read to their end print alike. -/
theorem bytesToAsmFmt_agrees :
    (∀ script : ScriptBuf, ∃ text, bytesToAsmFmt script = some text ∧
      ((∃ marker : Marker, marker.text <:+ text) ↔ ∃ e, .error e ∈ script.instructions) ∧
      ∃ (pieces : List Piece) (ending : Ending),
        script.instructions = pieces.map (.ok ·.instruction) ++ ending.errors.map .error ∧
        text = [0x20].intercalate (pieces.flatMap Piece.words) ++ ending.text !pieces.isEmpty) ∧
    ∀ left right : ScriptBuf, (∀ e, .error e ∉ left.instructions) →
      (∀ e, .error e ∉ right.instructions) →
      bytesToAsmFmt left = bytesToAsmFmt right → left = right := by
  constructor
  · intro script
    obtain ⟨pieces, ending, rest, -, -, items, prints⟩ :=
      asmLoop_collect (Nat.lt_succ_self script.length) false
    refine ⟨_, prints, ?_, pieces, ending, items, ?_⟩
    · have unmarked := joined_unmarked (flatMap_words_plain pieces) false
      rw [ending.marked_iff _ unmarked, ScriptBuf.instructions, items, error_mem_iff]
    · rw [joined_false, Bool.false_or]
  · intro left right reads reads' same
    obtain ⟨pieces, rfl, prints⟩ := exists_pieces reads
    obtain ⟨pieces', rfl, prints'⟩ := exists_pieces reads'
    rw [prints, prints', Option.some_inj] at same
    have words := joined_injective (flatMap_words_plain pieces) (flatMap_words_plain pieces') same
    rw [Piece.flatMap_words_injective words]

example : bytesToAsmFmt [0x51, 0x4c, 0x02, 0x01] =
    some (str "OP_PUSHNUM_1 OP_PUSHDATA1 <push past end>") := by
  decide

/-- A script written in two ways, and its text. -/
theorem p2pkh_asm :
    bytesToAsmFmt p2pkh = some (str "OP_DUP OP_HASH160 OP_PUSHBYTES_20 " ++
      List.replicate 40 0x35 ++ str " OP_EQUALVERIFY OP_CHECKSIG") ∧
    p2pkhItems.flatMap Instruction.encode = p2pkh := by
  have reads : p2pkh.instructions = p2pkhItems.map .ok := by decide
  have written : p2pkhItems.flatMap Instruction.encode = p2pkh := by decide
  refine ⟨by decide, bytesToAsmFmt_agrees.2 _ _ ?_ ?_ (by rw [written])⟩
  · simp [written, reads]
  · simp [reads]

end Litecoin.Script
