import Litecoin.Script.Indices
import Litecoin.Wire.SignMagnitude
import Mathlib.Data.List.Induction
import Mathlib.Tactic.IntervalCases

/-! Numbers in scripts: `write_scriptint`, the readers and `Builder::push_int` (`script/mod.rs`,
`script/builder.rs`). -/
namespace Litecoin.Script
open Wire

def readScriptintNonMinimal (v : Bytes) : Except Error Int :=
  if v = [] then .ok 0
  else if 4 < v.length then .error .numericOverflow
  else .ok (scriptintParse v)

/-- `script_num`. -/
def Instruction.scriptNum : Instruction → Option Int
  | .op opcode =>
    let v := opcode.toU8
    if 0x51 ≤ v ∧ v ≤ 0x60 then some (v.toNat - 0x50)
    else if v = 0x4f then some (-1)
    else none
  | .pushBytes bytes => (readScriptintNonMinimal bytes.val).toOption

theorem and_signBit {abs : Nat} (small : abs ≤ 255) : abs &&& 0x80 ≠ 0 ↔ 128 ≤ abs := by
  have all : ∀ abs : Fin 256, abs.val &&& 0x80 ≠ 0 ↔ 128 ≤ abs.val := by decide +kernel
  exact all ⟨abs, Nat.lt_succ_of_le small⟩

theorem or_signBit {abs : Nat} (small : abs < 128) : abs ||| 0x80 = abs + 128 := by
  have all : ∀ abs : Fin 128, abs.val ||| 0x80 = abs.val + 128 := by decide
  exact all ⟨abs, small⟩

theorem least_zero {abs width : Nat} (least : IsLeast { w | abs < signWeight w } width)
    (small : abs < 128) :
    width = 0 := Nat.le_zero.mp (least.2 (show abs < signWeight 0 from small))

theorem least_succ {abs width : Nat} (least : IsLeast { w | abs < signWeight w } width)
    (large : 128 ≤ abs) :
    ∃ narrower, width = narrower + 1 ∧ IsLeast { w | abs / 256 < signWeight w } narrower := by
  have div (w : Nat) : abs < signWeight (w + 1) ↔ abs / 256 < signWeight w := by
    rw [signWeight_succ]
    omega
  obtain ⟨fits, lowest⟩ := least
  cases width with
  | zero => exact absurd (show abs < 128 from fits) (Nat.not_lt.mpr large)
  | succ narrower =>
    exact ⟨narrower, rfl, (div narrower).mp fits, fun w wide => Nat.le_of_succ_le_succ
      (lowest ((div w).mpr wide))⟩

/-- The lowest byte of a number comes off. -/
theorem littleEndian_signed (width abs : Nat) (neg : Bool) :
    littleEndian (width + 2) (abs + if neg then signWeight (width + 1) else 0) =
      UInt8.ofNat (abs % 256) :: littleEndian (width + 1)
        (abs / 256 + if neg then signWeight width else 0) := by
  have byte : UInt8.ofNat (abs + if neg then signWeight (width + 1) else 0) = UInt8.ofNat
    (abs % 256) := by
    rw [← UInt8.toNat_inj, UInt8.toNat_ofNat', UInt8.toNat_ofNat', signWeight_succ]
    split_ifs <;> omega
  have rest : (abs + if neg then signWeight (width + 1) else 0) / 256 =
      abs / 256 + if neg then signWeight width else 0 := by
    rw [signWeight_succ]
    split_ifs <;> omega
  rw [littleEndian, byte, rest]

/-- The bytes written for a magnitude of the least width, as far as there is room. -/
theorem writeScriptintLoop_eq {neg : Bool} {abs width : Nat} (least : IsLeast
    { w | abs < signWeight w } width)
    (room : Nat) : writeScriptintLoop neg room abs =
      if width < room then some (littleEndian (width + 1)
        (abs + if neg then signWeight width else 0)) else none := by
  induction room generalizing abs width with
  | zero => rfl
  | succ room ih =>
    have mask : abs &&& 0xFF = abs % 256 := Nat.and_two_pow_sub_one_eq_mod abs 8
    have shift : abs >>> 8 = abs / 256 := Nat.shiftRight_eq_div_pow abs 8
    rw [writeScriptintLoop, mask, shift]
    by_cases wide : 0xFF < abs
    · obtain ⟨narrower, rfl, lower⟩ := least_succ least (by omega)
      rw [if_pos wide, ih lower, littleEndian_signed]
      split_ifs <;> first | omega | rfl
    rw [if_neg wide]
    by_cases signBit : 128 ≤ abs
    · -- the sign bit is taken, so a byte for the sign alone follows
      obtain ⟨narrower, rfl, lower⟩ := least_succ least signBit
      obtain rfl := least_zero lower (by omega)
      have none : abs / 256 = 0 := by omega
      rw [if_pos ((and_signBit (Nat.not_lt.mp wide)).mpr signBit), littleEndian_signed,
        Nat.mod_eq_of_lt (by omega), none]
      cases room with
      | zero => rfl
      | succ room => cases neg <;> rfl
    · obtain rfl := least_zero least (Nat.not_le.mp signBit)
      rw [if_neg (mt (and_signBit (Nat.not_lt.mp wide)).mp signBit), if_pos (Nat.succ_pos room)]
      cases neg with
      | false => rw [if_neg Bool.false_ne_true, if_neg Bool.false_ne_true, Nat.or_zero]; rfl
      | true => rw [if_pos rfl, if_pos rfl, or_signBit (Nat.not_le.mp signBit)]; rfl

/-- `write_scriptint` writes the minimal form, and only the least integer has no room for it. -/
theorem writeScriptint_iff (n : Int) :
    (∃ v, writeScriptint n = some v ∧ MinimalForm n v) ↔ n.natAbs < 2 ^ 63 := by
  by_cases zero : n = 0
  · subst zero
    exact ⟨fun _ => by decide, fun _ => ⟨[], rfl, minimalForm_zero.mpr rfl⟩⟩
  obtain ⟨width, least⟩ := exists_isLeast n
  have written : writeScriptint n = if width < 8 then some (signedBytes width n) else none := by
    rw [writeScriptint, if_neg zero, writeScriptintLoop_eq least]
    simp only [decide_eq_true_eq]
    rfl
  have room : width < 8 ↔ n.natAbs < 2 ^ 63 := by
    constructor
    · intro narrow
      exact Nat.lt_of_lt_of_le least.1 (signWeight_mono (Nat.le_of_lt_succ narrow))
    · intro fits
      exact Nat.lt_succ_of_le (least.2 (show n.natAbs < signWeight 7 from fits))
  rw [written, ← room]
  constructor
  · rintro ⟨v, found, -⟩
    by_contra wide
    rw [if_neg wide] at found
    contradiction
  · intro narrow
    exact ⟨_, if_pos narrow, (minimalForm_iff zero).mpr ⟨width, rfl, least⟩⟩

theorem magnitude_iff (byte : UInt8) : byte &&& 0x7f = 0 ↔ byte.toNat % 128 = 0 := by
  have all : ∀ n : Fin 256, UInt8.ofFin n &&& 0x7f = 0 ↔ (UInt8.ofFin n).toNat % 128 = 0 :=
    by decide +kernel
  exact all byte.toFin

theorem foldl_scriptint (v : Bytes) (acc sh : Nat) :
    v.foldl (fun (acc, sh) n => (acc + (n.toNat <<< sh), sh + 8)) (acc, sh) =
      (acc + 2 ^ sh * fromLittleEndian v, sh + 8 * v.length) := by
  induction v generalizing acc sh with
  | nil => rfl
  | cons byte rest ih =>
    rw [List.foldl_cons, ih, fromLittleEndian, Nat.shiftLeft_eq, List.length_cons, Nat.pow_add]
    refine Prod.ext ?_ ?_
    · ring
    · dsimp only
      omega

theorem raw_concat (init : Bytes) (last : UInt8) :
    fromLittleEndian (init ++ [last]) = fromLittleEndian init + 256 ^ init.length * last.toNat := by
  rw [fromLittleEndian_append]
  rfl

/-- What is parsed is the number that the bytes denote. -/
theorem scriptintParse_eq (init : Bytes) (last : UInt8) :
    scriptintParse (init ++ [last]) = signMagnitude (init ++ [last]) := by
  have length : (init ++ [last]).length = init.length + 1 := by simp
  have below := fromLittleEndian_lt (init ++ [last])
  have low := fromLittleEndian_lt init
  have weight : 1 <<< (8 * init.length + 7) = signWeight init.length := by
    rw [Nat.one_shiftLeft, signWeight, Nat.pow_add, Nat.pow_mul]
    ring
  have mask : fromLittleEndian (init ++ [last]) &&& signWeight init.length - 1 =
      fromLittleEndian (init ++ [last]) % signWeight init.length := by
    rw [← weight, Nat.one_shiftLeft, Nat.and_two_pow_sub_one_eq_mod]
  have high : 128 ≤ last.toNat ↔ ¬ fromLittleEndian (init ++ [last]) < signWeight init.length := by
    rw [raw_concat, signWeight, Nat.mul_comm 128]
    constructor
    · intro signed
      have product := Nat.mul_le_mul_left (256 ^ init.length) signed
      omega
    · intro signed
      by_contra small
      have product := Nat.mul_le_mul_left (256 ^ init.length) (show last.toNat ≤ 127 by omega)
      omega
  rw [length, ← two_mul_signWeight] at below
  rw [scriptintParse, foldl_scriptint, signMagnitude_of_length length, length]
  simp only [List.getLastD_concat, Nat.zero_add, Nat.pow_zero, Nat.one_mul]
  rw [show 8 * (init.length + 1) - 1 = 8 * init.length + 7 by omega, weight, mask]
  simp only [signBit_iff, high]
  split_ifs with small
  · rfl
  · rw [Nat.mod_eq_sub_mod (Nat.not_lt.mp small), Nat.mod_eq_of_lt (by omega)]

theorem natAbs_signMagnitude_concat (init : Bytes) (last : UInt8) :
    (signMagnitude (init ++ [last])).natAbs = fromLittleEndian init + 256 ^ init.length *
    (last.toNat % 128) := by
  have low := fromLittleEndian_lt init
  have top : 256 ^ init.length * (last.toNat % 128) ≤ 256 ^ init.length * 127 :=
    Nat.mul_le_mul_left _ (by omega)
  have weight : signWeight init.length = 256 ^ init.length * 128 := Nat.mul_comm _ _
  have split : fromLittleEndian init + 256 ^ init.length * last.toNat =
      fromLittleEndian init + 256 ^ init.length * (last.toNat % 128) + 256 ^ init.length * 128 *
        (last.toNat / 128) := by
    nth_rewrite 1 [← Nat.mod_add_div last.toNat 128]
    ring
  have length : (init ++ [last]).length = init.length + 1 := by simp
  rw [natAbs_signMagnitude length, raw_concat, weight, split, Nat.add_mul_mod_self_left,
    Nat.mod_eq_of_lt (by omega)]

/-- A top byte without magnitude after a byte without its top bit is one too many. -/
theorem tooWide_iff (init : Bytes) (prev last : UInt8) :
    last.toNat % 128 = 0 ∧ prev.toNat < 128 ↔
      (signMagnitude (init ++ [prev] ++ [last])).natAbs < signWeight init.length := by
  have magnitude := natAbs_signMagnitude_concat (init ++ [prev]) last
  have low := fromLittleEndian_lt init
  rw [List.length_append, List.length_singleton, raw_concat, Nat.pow_succ] at magnitude
  rw [magnitude, signWeight]
  constructor
  · rintro ⟨zero, small⟩
    have product := Nat.mul_le_mul_left (256 ^ init.length) (Nat.le_of_lt_succ small)
    rw [zero]
    omega
  · intro room
    constructor
    · by_contra some
      have product := Nat.mul_le_mul_left (256 ^ init.length * 256) (Nat.one_le_iff_ne_zero.mpr some)
      omega
    · by_contra large
      have product := Nat.mul_le_mul_left (256 ^ init.length) (Nat.not_lt.mp large)
      omega

/-- The check of minimality: one byte less would have room for the number. -/
theorem nonMinimal_iff (init : Bytes) (last : UInt8) :
    (last &&& 0x7f = 0 ∧ ((init ++ [last]).length ≤ 1 ∨
        (init ++ [last]).getD ((init ++ [last]).length - 2) 0 &&& 0x80 = 0)) ↔
      ¬ MinimalForm (signMagnitude (init ++ [last])) (init ++ [last]) := by
  have length : (init ++ [last]).length = init.length + 1 := by simp
  rw [minimalForm_iff_tight length, magnitude_iff, length]
  cases init using List.reverseRecOn with
  | nil =>
    have value : (signMagnitude ([] ++ [last])).natAbs = last.toNat % 128 := by
      rw [natAbs_signMagnitude_concat]
      simp [fromLittleEndian]
    constructor
    · rintro ⟨zero, -⟩ ⟨one, -⟩
      exact one rfl (by omega)
    · intro short
      refine ⟨by_contra fun some => short ⟨fun _ => ?_, fun narrower same => ?_⟩, .inl (Nat.le_refl _)⟩
      · omega
      · exact absurd same (Nat.succ_ne_zero narrower).symm
  | append_singleton init prev =>
    have before : (init ++ [prev] ++ [last]).getD (init.length + 1 + 1 - 2) 0 = prev := by simp
    have bit : prev &&& 0x80 = 0 ↔ prev.toNat < 128 := by
      rw [← Nat.not_le, ← signBit_iff, not_not]
    rw [List.length_append, List.length_singleton, before, bit, or_iff_right (by omega), tooWide_iff]
    constructor
    · rintro room ⟨-, large⟩
      exact absurd (large init.length rfl) (Nat.not_le.mpr room)
    · intro shorter
      by_contra full
      refine shorter ⟨by omega, fun narrower same => ?_⟩
      obtain rfl : init.length = narrower := by omega
      exact Nat.not_lt.mp full

theorem length_le_four_iff {v : Bytes} {n : Int} (minimal : MinimalForm n v) :
    v.length ≤ 4 ↔ n.natAbs < 2 ^ 31 := by
  constructor
  · intro short
    obtain ⟨rfl, -⟩ := minimal
    cases length : v.length with
    | zero =>
      obtain rfl := List.length_eq_zero_iff.mp length
      exact Nat.two_pow_pos 31
    | succ width => exact Nat.lt_of_lt_of_le (signMagnitude_wide length) (signWeight_mono
      (show width ≤ 3 by omega))
  · intro fits
    have wide : 3 ∈ Wide n := fits
    have le := minimal.shortest _ (signMagnitude_signedBytes wide)
    rwa [length_signedBytes] at le

/-- The strict reader takes the minimal forms of numbers of 31 bits. -/
theorem readScriptint_iff {v : Bytes} {n : Int} :
    readScriptint v = .ok n ↔ MinimalForm n v ∧ n.natAbs < 2 ^ 31 := by
  rw [readScriptint]
  cases v using List.reverseRecOn with
  | nil =>
    constructor
    · rintro ⟨⟩
      exact ⟨minimalForm_zero.mpr rfl, by decide⟩
    · rintro ⟨⟨rfl, -⟩, -⟩
      rfl
  | append_singleton init last =>
    rw [List.getLast?_concat]
    dsimp only
    split_ifs with long test
    · refine ⟨nofun, fun ⟨minimal, fits⟩ => ?_⟩
      exact absurd ((length_le_four_iff minimal).mpr fits) (Nat.not_le.mpr long)
    · refine ⟨nofun, fun ⟨minimal, fits⟩ => ?_⟩
      obtain rfl := minimal.value
      exact absurd minimal ((nonMinimal_iff init last).mp test)
    · have minimal := not_not.mp (mt (nonMinimal_iff init last).mpr test)
      rw [scriptintParse_eq, Except.ok.injEq]
      constructor
      · rintro rfl
        exact ⟨minimal, (length_le_four_iff minimal).mp (Nat.not_lt.mp long)⟩
      · rintro ⟨⟨value, -⟩, -⟩
        exact value

theorem readScriptintNonMinimal_of_read {v : Bytes} {n : Int} (read : readScriptint v = .ok n) :
    readScriptintNonMinimal v = .ok n := by
  rw [readScriptint] at read
  rw [readScriptintNonMinimal]
  cases v using List.reverseRecOn with
  | nil => exact read
  | append_singleton init last =>
    rw [List.getLast?_concat] at read
    dsimp only at read
    rw [if_neg (List.append_ne_nil_of_right_ne_nil _ (List.cons_ne_nil _ _))]
    split_ifs at read ⊢
    exact read

theorem value_of_isPushnum {byte : UInt8} (number : Instructions.isPushnum byte) :
    signMagnitude [byte] = -1 ∨ (1 ≤ signMagnitude [byte] ∧ signMagnitude [byte] ≤ 16) := by
  have all : ∀ n : Fin 256, Instructions.isPushnum (UInt8.ofFin n) →
      signMagnitude [UInt8.ofFin n] = -1 ∨
        (1 ≤ signMagnitude [UInt8.ofFin n] ∧ signMagnitude [UInt8.ofFin n] ≤ 16) := by
    decide +kernel
  exact all byte.toFin number

/-- The opcode of a number that has one. -/
theorem pushnum_scriptNum {n : Int} (small : n = -1 ∨ (1 ≤ n ∧ n ≤ 16)) :
    0x4e < UInt8.ofInt (n - 1 + Opcode.pushnum1.toU8.toNat) ∧
      (Instruction.op ⟨UInt8.ofInt (n - 1 + Opcode.pushnum1.toU8.toNat)⟩).scriptNum = some n := by
  rcases small with rfl | ⟨low, high⟩
  · decide
  · interval_cases n <;> decide

/-- A number without an opcode of its own is pushed as its minimal form. -/
theorem Builder.pushInt_bytes (self : Builder) {n : Int} {v : Bytes} (written : writeScriptint n = some v)
    (minimal : MinimalForm n v) (fits : n.natAbs < 2 ^ 31) (noOpcode : ¬ (n = -1 ∨ (1 ≤ n ∧ n ≤ 16))) :
    ∃ (short : v.length < 0x100000000) (last : Option Opcode), self.pushInt n =
      some ⟨self.script ++ (Instruction.pushBytes ⟨v, short⟩).encode, last⟩ ∧
      (Instruction.pushBytes ⟨v, short⟩).Minimal := by
  have short : v.length < 0x100000000 :=
    Nat.lt_of_le_of_lt ((length_le_four_iff minimal).mpr fits) (by decide)
  rw [pushInt, if_neg noOpcode]
  split_ifs with zero
  · subst zero
    obtain rfl := minimalForm_zero.mp minimal
    exact ⟨short, _, rfl, by simp [Instruction.Minimal]⟩
  · refine ⟨short, none, ?_, fun byte single => ?_⟩
    · rw [pushIntNonMinimal, written, Option.bind_eq_bind, Option.bind_some, dif_pos short,
        pushSlice_eq]
    · obtain rfl : v = [byte] := single
      obtain ⟨rfl, -⟩ := minimal
      exact Bool.eq_false_iff.mpr fun number => noOpcode (value_of_isPushnum number)

/-- What `push_int` adds: an instruction that denotes the number, in minimal form. -/
theorem Builder.pushInt_eq (self : Builder) {n : Int} {v : Bytes} (written : writeScriptint n = some v)
    (minimal : MinimalForm n v) (fits : n.natAbs < 2 ^ 31) :
    ∃ (instruction : Instruction) (last : Option Opcode), self.pushInt n =
      some ⟨self.script ++ instruction.encode, last⟩ ∧
      instruction.scriptNum = some n ∧ instruction.Minimal ∧
      ∀ opcode, instruction = .op opcode → 0x4e < opcode.code := by
  by_cases opcode : n = -1 ∨ (1 ≤ n ∧ n ≤ 16)
  · obtain ⟨plain, number⟩ := pushnum_scriptNum opcode
    rw [pushInt, if_pos opcode]
    exact ⟨.op _, _, rfl, number, trivial, fun _ same => Instruction.op.inj same ▸ plain⟩
  · obtain ⟨short, last, pushed, shortest⟩ := self.pushInt_bytes written minimal fits opcode
    have read := readScriptintNonMinimal_of_read (readScriptint_iff.mpr ⟨minimal, fits⟩)
    refine ⟨.pushBytes ⟨v, short⟩, last, pushed, ?_, shortest, by simp⟩
    rw [Instruction.scriptNum, read]
    rfl

theorem pushInt_instructions {n : Int} (fits : n.natAbs < 2 ^ 31) :
    ∃ (b : Builder) (instruction : Instruction), Builder.new.pushInt n = some b ∧
      b.script.instructions = [.ok instruction] ∧
      instruction.scriptNum = some n ∧ b.script.instructionsMinimal = [.ok instruction] := by
  obtain ⟨v, written, minimal⟩ := (writeScriptint_iff n).mpr (Nat.lt_trans fits (by decide))
  obtain ⟨instruction, last, pushed, number, shortest, plain⟩ :=
    Builder.new.pushInt_eq written minimal fits
  have script : Builder.new.script ++ instruction.encode = [instruction].flatMap Instruction.encode :=
    (List.flatMap_singleton _ _).symm
  have alone : ∀ opcode, Instruction.op opcode ∈ [instruction] → 0x4e < opcode.code :=
    fun opcode member => plain opcode (List.mem_singleton.mp member).symm
  rw [script] at pushed
  refine ⟨_, instruction, pushed, Instructions.collect_encode alone nofun, number, ?_⟩
  exact Instructions.collect_encode alone fun _ => List.forall_mem_singleton.mpr shortest

theorem int64_natAbs_lt_iff (n : Int64) : n.toInt.natAbs < 2 ^ 63 ↔ n ≠ Int64.minValue := by
  have low := n.le_toInt
  have high := n.toInt_lt
  rw [ne_eq, ← Int64.toInt_inj, Int64.toInt_minValue]
  omega

/-- Every integer but the least is written in its minimal form. The strict reader takes exactly the
minimal forms of numbers of 31 bits, the lenient one reads them alike, and `push_int` pushes such a
number as one instruction that denotes it. -/
theorem scriptint_spec (n : Int64) (v : Bytes) :
    ((∃ w, writeScriptint n.toInt = some w ∧ MinimalForm n.toInt w) ↔ n ≠ Int64.minValue) ∧
    (∀ k, readScriptint v = .ok k ↔ MinimalForm k v ∧ k.natAbs < 2 ^ 31) ∧
    (∀ k m, readScriptint v = .ok k → readScriptintNonMinimal v = .ok m → k = m) ∧
    (n.toInt.natAbs < 2 ^ 31 → ∃ (b : Builder) (instruction : Instruction),
      Builder.new.pushInt n.toInt = some b ∧ b.script.instructions = [.ok instruction] ∧
        instruction.scriptNum = some n.toInt ∧ b.script.instructionsMinimal = [.ok instruction]) := by
  refine ⟨?_, fun _ => readScriptint_iff, fun k m strict lenient => ?_, pushInt_instructions⟩
  · rw [writeScriptint_iff, int64_natAbs_lt_iff]
  · rw [readScriptintNonMinimal_of_read strict] at lenient
    exact Except.ok.inj lenient

/-- The magnitude of -255 leaves no room for the sign. -/
theorem scriptint_spec_sign : (∃ w, writeScriptint (-255 : Int64).toInt = some w ∧
      MinimalForm (-255 : Int64).toInt w) ∧
    ∃ (b : Builder) (instruction : Instruction), Builder.new.pushInt (-255 : Int64).toInt = some b ∧
      b.script.instructions = [.ok instruction] ∧
      instruction.scriptNum = some (-255 : Int64).toInt ∧
      b.script.instructionsMinimal = [.ok instruction] :=
  ⟨(scriptint_spec (-255) [0xff, 0x80]).1.mpr (by decide),
    (scriptint_spec (-255) [0xff, 0x80]).2.2.2 (by decide)⟩

/-- The least integer needs a ninth byte for its sign. -/
theorem writeScriptint_minValue :
    ¬ ∀ n : Int64, ∃ v, writeScriptint n.toInt = some v ∧ MinimalForm n.toInt v := by
  intro all
  obtain ⟨v, written, -⟩ := all Int64.minValue
  have full : writeScriptint Int64.minValue.toInt = none := by decide
  rw [full] at written
  contradiction

end Litecoin.Script
