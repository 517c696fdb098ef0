import Litecoin.Consensus.Encode
import Litecoin.Script.RoundTrip

/-! Output scripts of fixed shape: their recognisers, which read bytes at fixed offsets, and
their constructors, which go through the builder (`script/borrowed.rs`, `script/owned.rs`,
`script/witness_version.rs`, `script/witness_program.rs`). -/
namespace Litecoin.Script
open Wire Consensus

namespace Opcode

def dup : Opcode := ⟨0x76⟩
def equal : Opcode := ⟨0x87⟩
def equalverify : Opcode := ⟨0x88⟩
def hash160 : Opcode := ⟨0xa9⟩
def checksig : Opcode := ⟨0xac⟩
def pushbytes2 : Opcode := ⟨0x02⟩
def pushbytes20 : Opcode := ⟨0x14⟩
def pushbytes32 : Opcode := ⟨0x20⟩
def pushbytes40 : Opcode := ⟨0x28⟩

end Opcode

inductive WitnessVersion where
  | v0 | v1 | v2 | v3 | v4 | v5 | v6 | v7 | v8 | v9 | v10 | v11 | v12 | v13 | v14 | v15 | v16
deriving DecidableEq, Repr

namespace WitnessVersion

/-- `witness_version::TryFromError`. -/
structure TryFromError where
  invalid : UInt8
deriving DecidableEq, Repr

def toNum : WitnessVersion → UInt8
  | v0 => 0 | v1 => 1 | v2 => 2 | v3 => 3 | v4 => 4 | v5 => 5 | v6 => 6 | v7 => 7 | v8 => 8 | v9 => 9
  | v10 => 10 | v11 => 11 | v12 => 12 | v13 => 13 | v14 => 14 | v15 => 15 | v16 => 16

/-- `TryFrom<u8>`. -/
def tryFromU8 (no : UInt8) : Except TryFromError WitnessVersion :=
  match no.toNat with
  | 0 => .ok v0
  | 1 => .ok v1
  | 2 => .ok v2
  | 3 => .ok v3
  | 4 => .ok v4
  | 5 => .ok v5
  | 6 => .ok v6
  | 7 => .ok v7
  | 8 => .ok v8
  | 9 => .ok v9
  | 10 => .ok v10
  | 11 => .ok v11
  | 12 => .ok v12
  | 13 => .ok v13
  | 14 => .ok v14
  | 15 => .ok v15
  | 16 => .ok v16
  | _ => .error ⟨no⟩

/-- `TryFrom<Opcode>`. -/
def tryFromOpcode (opcode : Opcode) : Except TryFromError WitnessVersion :=
  if opcode.toU8 = 0 then .ok v0
  else if Opcode.pushnum1.toU8 ≤ opcode.toU8 ∧ opcode.toU8 ≤ Opcode.pushnum16.toU8 then
    tryFromU8 (opcode.toU8 - Opcode.pushnum1.toU8 + 1)
  else .error ⟨opcode.toU8⟩

/-- `From<WitnessVersion> for Opcode`. -/
def toOpcode : WitnessVersion → Opcode
  | v0 => .pushbytes0
  | no => ⟨Opcode.pushnum1.toU8 + no.toNum - 1⟩

theorem tryFromU8_toNum (version : WitnessVersion) : tryFromU8 version.toNum = .ok version := by
  cases version <;> rfl

theorem toNum_tryFromU8 {no : UInt8} {version : WitnessVersion} (read : tryFromU8 no = .ok version) :
    version.toNum = no := by
  apply UInt8.toNat_inj.mp
  unfold tryFromU8 at read
  split at read <;> simp_all [toNum] <;> (subst read; rfl)

theorem tryFromOpcode_toOpcode (version : WitnessVersion) :
    tryFromOpcode version.toOpcode = .ok version := by
  cases version <;> rfl

theorem toOpcode_tryFromOpcode (opcode : Opcode) (version : WitnessVersion)
    (read : tryFromOpcode opcode = .ok version) : version.toOpcode = opcode := by
  have all : ∀ opcode : Opcode, ∀ version ∈ (tryFromOpcode opcode).toOption,
      version.toOpcode = opcode := by
    intro opcode
    refine Opcode.byteCases ?_ opcode
    decide +kernel
  exact all opcode version (by rw [read]; rfl)

end WitnessVersion

/-- `witness_program::Error`. -/
inductive WitnessProgramError where
  | invalidLength (length : Nat)
  | invalidSegwitV0Length (length : Nat)
deriving DecidableEq, Repr

/-- `WitnessProgram`; its constructors keep the bounds on the length. -/
@[ext] structure WitnessProgram where
  version : WitnessVersion
  program : Bytes
  least : 2 ≤ program.length
  most : program.length ≤ 40
  segwitV0 : version = .v0 → program.length = 20 ∨ program.length = 32
deriving DecidableEq, Repr

namespace WitnessProgram

/-- `WitnessProgram::new`. -/
def new (version : WitnessVersion) (bytes : Bytes) : Except WitnessProgramError WitnessProgram :=
  if outside : bytes.length < 2 ∨ 40 < bytes.length then .error (.invalidLength bytes.length)
  else if unusable : version = .v0 ∧ (bytes.length ≠ 20 ∧ bytes.length ≠ 32) then
    .error (.invalidSegwitV0Length bytes.length)
  else .ok {
    version
    program := bytes
    least := by omega
    most := by omega
    segwitV0 := fun zero => by simp only [zero, true_and] at unusable; omega }

theorem new_eq_ok {version : WitnessVersion} {bytes : Bytes} {program : WitnessProgram} :
    new version bytes = .ok program ↔ program.version = version ∧ program.program = bytes := by
  constructor
  · unfold new
    split
    · nofun
    · split
      · nofun
      · intro built
        obtain rfl := Except.ok.inj built
        exact ⟨rfl, rfl⟩
  · rintro ⟨rfl, rfl⟩
    have inside : ¬(program.program.length < 2 ∨ 40 < program.program.length) := by
      have := program.least
      have := program.most
      omega
    have usable : ¬(program.version = .v0 ∧
        (program.program.length ≠ 20 ∧ program.program.length ≠ 32)) := by
      rintro ⟨zero, neither⟩
      rcases program.segwitV0 zero with same | same
      · exact neither.1 same
      · exact neither.2 same
    rw [new, dif_neg inside, dif_neg usable]

/-- `WitnessProgram::program` as `PushBytes`. -/
def pushBytes (program : WitnessProgram) : PushBytes :=
  ⟨program.program, Nat.lt_of_le_of_lt program.most (by decide)⟩

end WitnessProgram

namespace ScriptBuf

/-! ### Recognisers. An index out of range is `none`. -/

/-- `self.0[index] == byte`. -/
def byteIs (script : ScriptBuf) (index : Nat) (opcode : Opcode) : Option Bool :=
  script[index]?.map (· == opcode.toU8)

/-- `&&`, which does not look at its second operand after a `false`. -/
def andThen (first : Option Bool) (second : Option Bool) : Option Bool :=
  first.bind fun holds => if holds then second else some false

def isP2pkh (script : ScriptBuf) : Option Bool :=
  andThen (some (script.length == 25)) <|
  andThen (script.byteIs 0 .dup) <|
  andThen (script.byteIs 1 .hash160) <|
  andThen (script.byteIs 2 .pushbytes20) <|
  andThen (script.byteIs 23 .equalverify) <|
  script.byteIs 24 .checksig

def isP2sh (script : ScriptBuf) : Option Bool :=
  andThen (some (script.length == 23)) <|
  andThen (script.byteIs 0 .hash160) <|
  andThen (script.byteIs 1 .pushbytes20) <|
  script.byteIs 22 .equal

/-- `witness_version`. -/
def witnessVersion (script : ScriptBuf) : Option (Option WitnessVersion) :=
  if script.length < 4 ∨ 42 < script.length then some none else do
    let verOpcode ← script[0]?
    let pushOpbyte ← script[1]?
    if pushOpbyte < Opcode.pushbytes2.toU8 ∨ Opcode.pushbytes40.toU8 < pushOpbyte then some none
    else if script.length - 2 ≠ pushOpbyte.toNat then some none
    else some (WitnessVersion.tryFromOpcode ⟨verOpcode⟩).toOption

def isWitnessProgram (script : ScriptBuf) : Option Bool := script.witnessVersion.map Option.isSome

/-- The shape that `is_p2wsh`, `is_p2wpkh` and `is_p2tr` share. -/
def isVersioned (script : ScriptBuf) (length : Nat) (version : WitnessVersion) (push : Opcode) :
    Option Bool :=
  andThen (some (script.length == length)) <|
  andThen (script.witnessVersion.map (· == some version)) <|
  script.byteIs 1 push

def isP2wsh (script : ScriptBuf) : Option Bool := script.isVersioned 34 .v0 .pushbytes32

def isP2wpkh (script : ScriptBuf) : Option Bool := script.isVersioned 22 .v0 .pushbytes20

def isP2tr (script : ScriptBuf) : Option Bool := script.isVersioned 34 .v1 .pushbytes32

/-! ### Constructors. A panic of the builder or a failed assertion is `none`. -/

/-- A hash as `PushBytes`. -/
def pushHash (hash : ByteArr 20) : PushBytes := ⟨hash.val, by rw [hash.property]; decide⟩

/-- `ScriptBuf::new_p2pkh`. -/
def newP2pkh (pubkeyHash : ByteArr 20) : Option ScriptBuf := do
  let builder := (Builder.new.pushOpcode .dup).pushOpcode .hash160
  let builder ← builder.pushSlice (pushHash pubkeyHash)
  some ((builder.pushOpcode .equalverify).pushOpcode .checksig).script

/-- `ScriptBuf::new_p2sh`. -/
def newP2sh (scriptHash : ByteArr 20) : Option ScriptBuf := do
  let builder ← (Builder.new.pushOpcode .hash160).pushSlice (pushHash scriptHash)
  some (builder.pushOpcode .equal).script

/-- `ScriptBuf::new_witness_program_unchecked`, with its assertions on. -/
def newWitnessProgramUnchecked (version : WitnessVersion) (program : PushBytes) : Option ScriptBuf :=
  let length := program.val.length
  if (2 ≤ length ∧ length ≤ 40) ∧ (version ≠ .v0 ∨ length = 20 ∨ length = 32) then
    ((Builder.new.pushOpcode version.toOpcode).pushSlice program).map Builder.script
  else none

/-! ### The shapes -/

def p2pkhBytes (hash : ByteArr 20) : Bytes := [0x76, 0xa9, 0x14] ++ hash.val ++ [0x88, 0xac]

def p2shBytes (hash : ByteArr 20) : Bytes := [0xa9, 0x14] ++ hash.val ++ [0x87]

def witnessBytes (version : WitnessVersion) (program : Bytes) : Bytes :=
  version.toOpcode.toU8 :: UInt8.ofNat program.length :: program

theorem encode_pushBytes (data : PushBytes) (short : data.val.length < 76) :
    (Instruction.pushBytes data).encode = UInt8.ofNat data.val.length :: data.val := by
  rw [Instruction.encode, pushHeader, if_pos short]
  rfl

theorem newP2pkh_eq (hash : ByteArr 20) : newP2pkh hash = some (p2pkhBytes hash) := by
  have length : (pushHash hash).val.length = 20 := hash.property
  have encoded := encode_pushBytes (pushHash hash) (by omega)
  rw [newP2pkh, Builder.pushSlice_eq, encoded, length]
  simp [Builder.pushOpcode, Builder.new, new, pushOpcode, p2pkhBytes, pushHash, Opcode.toU8, Opcode.dup,
    Opcode.hash160, Opcode.equalverify, Opcode.checksig]

theorem newP2sh_eq (hash : ByteArr 20) : newP2sh hash = some (p2shBytes hash) := by
  have length : (pushHash hash).val.length = 20 := hash.property
  have encoded := encode_pushBytes (pushHash hash) (by omega)
  rw [newP2sh, Builder.pushSlice_eq, encoded, length]
  simp [Builder.pushOpcode, Builder.new, new, pushOpcode, p2shBytes, pushHash, Opcode.toU8,
    Opcode.hash160, Opcode.equal]

theorem newWitnessProgramUnchecked_eq (program : WitnessProgram) :
    newWitnessProgramUnchecked program.version program.pushBytes =
      some (witnessBytes program.version program.program) := by
  have least : 2 ≤ program.pushBytes.val.length := program.least
  have most : program.pushBytes.val.length ≤ 40 := program.most
  have usable : program.version ≠ .v0 ∨ program.pushBytes.val.length = 20 ∨
      program.pushBytes.val.length = 32 := by
    by_cases zero : program.version = .v0
    · exact .inr (program.segwitV0 zero)
    · exact .inl zero
  rw [newWitnessProgramUnchecked, if_pos ⟨⟨least, most⟩, usable⟩, Builder.pushSlice_eq,
    encode_pushBytes _ (by omega)]
  rfl

theorem andThen_eq_true {first second : Option Bool} :
    andThen first second = some true ↔ first = some true ∧ second = some true := by
  rcases first with _ | _ | _ <;> simp [andThen]

theorem byteIs_eq_true {script : ScriptBuf} {index : Nat} {opcode : Opcode} :
    script.byteIs index opcode = some true ↔ script[index]? = some opcode.toU8 := by
  rw [byteIs, Option.map_eq_some_iff]
  constructor
  · rintro ⟨byte, found, same⟩
    rw [found, beq_iff_eq.mp same]
  · intro found
    exact ⟨_, found, beq_self_eq_true _⟩

theorem andThen_returns {first second : Option Bool} (one : first ≠ none)
    (two : first = some true → second ≠ none) : andThen first second ≠ none := by
  rcases first with _ | _ | _
  · exact absurd rfl one
  · nofun
  · exact two rfl

theorem byteIs_returns {script : ScriptBuf} {index : Nat} {opcode : Opcode}
    (inside : index < script.length) : script.byteIs index opcode ≠ none := by
  rw [byteIs, List.getElem?_eq_getElem inside]
  nofun

/-- A list of known length between two known ends. -/
theorem between (script : Bytes) (front back : Nat) (whole : script.length = front + n + back) :
    ∃ middle : ByteArr n, script = script.take front ++ middle.val ++ script.drop (front + n) := by
  refine ⟨⟨(script.drop front).take n, ?_⟩, ?_⟩
  · rw [List.length_take, List.length_drop]
    omega
  · rw [List.append_assoc, ← List.drop_drop, List.take_append_drop, List.take_append_drop]

/-- A test that returns is true or false. -/
theorem test_cases {test : Option Bool} (returns : test ≠ none) :
    test = some true ∨ test = some false := by
  rcases test with _ | _ | _
  · exact absurd rfl returns
  · exact .inr rfl
  · exact .inl rfl

theorem isP2pkh_returns (script : ScriptBuf) : script.isP2pkh ≠ none := by
  refine andThen_returns (Option.some_ne_none _) fun whole => ?_
  have length : script.length = 25 := beq_iff_eq.mp (Option.some.inj whole)
  refine andThen_returns (byteIs_returns (by omega)) fun _ => ?_
  refine andThen_returns (byteIs_returns (by omega)) fun _ => ?_
  refine andThen_returns (byteIs_returns (by omega)) fun _ => ?_
  refine andThen_returns (byteIs_returns (by omega)) fun _ => ?_
  exact byteIs_returns (by omega)

theorem isP2pkh_eq_true {script : ScriptBuf} :
    script.isP2pkh = some true ↔ ∃ hash, script = p2pkhBytes hash := by
  simp only [isP2pkh, andThen_eq_true, byteIs_eq_true, Option.some.injEq, beq_iff_eq]
  constructor
  · rintro ⟨length, dup, hash160, push, equalverify, checksig⟩
    obtain ⟨hash, split⟩ := between (n := 20) script 3 2 (by omega)
    have front : script.take 3 = [0x76, 0xa9, 0x14] := by
      simp only [List.take_add_one, dup, hash160, push]
      rfl
    have back : script.drop 23 = [0x88, 0xac] := by
      rw [List.drop_eq_getElem?_toList_append, List.drop_eq_getElem?_toList_append, equalverify, checksig,
        List.drop_eq_nil_of_le (by omega)]
      rfl
    exact ⟨hash, by rw [split, front, back]; rfl⟩
  · rintro ⟨hash, rfl⟩
    have length := hash.property
    simp [p2pkhBytes, length, Opcode.toU8, Opcode.dup, Opcode.hash160, Opcode.pushbytes20,
      Opcode.equalverify, Opcode.checksig]

theorem isP2sh_returns (script : ScriptBuf) : script.isP2sh ≠ none := by
  refine andThen_returns (Option.some_ne_none _) fun whole => ?_
  have length : script.length = 23 := beq_iff_eq.mp (Option.some.inj whole)
  refine andThen_returns (byteIs_returns (by omega)) fun _ => ?_
  refine andThen_returns (byteIs_returns (by omega)) fun _ => ?_
  exact byteIs_returns (by omega)

theorem isP2sh_eq_true {script : ScriptBuf} :
    script.isP2sh = some true ↔ ∃ hash, script = p2shBytes hash := by
  simp only [isP2sh, andThen_eq_true, byteIs_eq_true, Option.some.injEq, beq_iff_eq]
  constructor
  · rintro ⟨length, hash160, push, equal⟩
    obtain ⟨hash, split⟩ := between (n := 20) script 2 1 (by omega)
    have front : script.take 2 = [0xa9, 0x14] := by
      simp only [List.take_add_one, hash160, push]
      rfl
    have back : script.drop 22 = [0x87] := by
      rw [List.drop_eq_getElem?_toList_append, equal, List.drop_eq_nil_of_le (by omega)]
      rfl
    exact ⟨hash, by rw [split, front, back]; rfl⟩
  · rintro ⟨hash, rfl⟩
    have length := hash.property
    simp [p2shBytes, length, Opcode.toU8, Opcode.hash160, Opcode.pushbytes20, Opcode.equal]

/-- `witness_version` never reads past the script, and it accepts one version opcode before
one push of 2 to 40 bytes that ends the script. -/
theorem witnessVersion_returns (script : ScriptBuf) : script.witnessVersion ≠ none := by
  unfold witnessVersion
  split
  · nofun
  · next long =>
    rw [List.getElem?_eq_getElem (show 0 < script.length by omega),
      List.getElem?_eq_getElem (show 1 < script.length by omega)]
    simp only [Option.bind_eq_bind, Option.bind_some]
    split
    · nofun
    · split <;> nofun

theorem isVersioned_returns (script : ScriptBuf) {length : Nat} (long : 1 < length)
    (version : WitnessVersion) (push : Opcode) : script.isVersioned length version push ≠ none := by
  refine andThen_returns (Option.some_ne_none _) fun whole => ?_
  have same : script.length = length := beq_iff_eq.mp (Option.some.inj whole)
  refine andThen_returns ?_ fun _ => byteIs_returns (by omega)
  rw [Ne, Option.map_eq_none_iff]
  exact script.witnessVersion_returns

theorem isVersioned_eq_false {script : ScriptBuf} {length : Nat} (other : script.length ≠ length)
    (version : WitnessVersion) (push : Opcode) :
    script.isVersioned length version push = some false := by
  rw [isVersioned, beq_eq_false_iff_ne.mpr other]
  rfl

theorem isVersioned_length {script : ScriptBuf} {length : Nat} {version : WitnessVersion}
    {push : Opcode} (found : script.isVersioned length version push = some true) :
    script.length = length :=
  beq_iff_eq.mp (Option.some.inj (andThen_eq_true.mp found).1)

theorem isWitnessProgram_returns (script : ScriptBuf) : script.isWitnessProgram ≠ none := by
  rw [Ne, isWitnessProgram, Option.map_eq_none_iff]
  exact script.witnessVersion_returns

theorem witnessVersion_eq_some {script : ScriptBuf} {version : WitnessVersion} :
    script.witnessVersion = some (some version) ↔
      ∃ program : Bytes, 2 ≤ program.length ∧ program.length ≤ 40 ∧
        script = witnessBytes version program := by
  constructor
  · intro found
    unfold witnessVersion at found
    split at found
    · exact absurd (Option.some.inj found) nofun
    · next long =>
      rcases script with _ | ⟨first, _ | ⟨push, program⟩⟩
      · simp at long
      · simp at long
      · simp only [List.getElem?_cons_zero, List.getElem?_cons_succ, Option.bind_eq_bind,
          Option.bind_some] at found
        split at found
        · exact absurd (Option.some.inj found) nofun
        · split at found
          · exact absurd (Option.some.inj found) nofun
          · next same =>
            simp only [List.length_cons, not_not] at long same
            have length : program.length = push.toNat := by omega
            have read : WitnessVersion.tryFromOpcode ⟨first⟩ = .ok version := by
              rcases parsed : WitnessVersion.tryFromOpcode ⟨first⟩ with e | v
              · simp [parsed, Except.toOption] at found
              · simpa [parsed, Except.toOption] using found
            have opcode := WitnessVersion.toOpcode_tryFromOpcode ⟨first⟩ version read
            refine ⟨program, by omega, by omega, ?_⟩
            rw [witnessBytes, opcode, length, UInt8.ofNat_toNat]
            rfl
  · rintro ⟨program, least, most, rfl⟩
    have push : (UInt8.ofNat program.length).toNat = program.length :=
      UInt8.toNat_ofNat_of_lt' (show program.length < 256 by omega)
    have inside : ¬((witnessBytes version program).length < 4 ∨
        42 < (witnessBytes version program).length) := by
      simp only [witnessBytes, List.length_cons]
      omega
    have bounds : ¬(UInt8.ofNat program.length < Opcode.pushbytes2.toU8 ∨
        Opcode.pushbytes40.toU8 < UInt8.ofNat program.length) := by
      rw [UInt8.lt_iff_toNat_lt, UInt8.lt_iff_toNat_lt, push]
      simp only [Opcode.toU8, Opcode.pushbytes2, Opcode.pushbytes40]
      simp
      omega
    have first : (witnessBytes version program)[0]? = some version.toOpcode.toU8 := rfl
    have second : (witnessBytes version program)[1]? = some (UInt8.ofNat program.length) := rfl
    have fills : ¬(witnessBytes version program).length - 2 ≠ (UInt8.ofNat program.length).toNat := by
      rw [push, not_not]
      rfl
    rw [witnessVersion, if_neg inside, first, second, Option.bind_eq_bind, Option.bind_some,
      Option.bind_some, if_neg bounds, if_neg fills]
    exact congrArg (some ∘ Except.toOption) (WitnessVersion.tryFromOpcode_toOpcode version)

/-- No version opcode starts a script of the other two shapes. -/
theorem witnessBytes_ne (version : WitnessVersion) (program : Bytes) (hash : ByteArr 20) :
    witnessBytes version program ≠ p2pkhBytes hash ∧
      witnessBytes version program ≠ p2shBytes hash := by
  have first : version.toOpcode.toU8 ≠ 0x76 ∧ version.toOpcode.toU8 ≠ 0xa9 := by
    cases version <;> decide
  constructor
  · intro same
    exact first.1 (List.cons.inj same).1
  · intro same
    exact first.2 (List.cons.inj same).1

end ScriptBuf
end Litecoin.Script
