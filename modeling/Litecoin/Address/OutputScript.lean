import Litecoin.Address

/-! Addresses and output scripts are inverse to each other. -/
namespace Litecoin.Address
open Wire Consensus Script

theorem sliceArray_append {front back : Bytes} {middle : ByteArr n} (start : front.length = k) :
    sliceArray (front ++ middle.val ++ back) k n = some middle := by
  have same : ((front ++ middle.val ++ back).drop k).take n = middle.val := by
    rw [List.append_assoc, List.drop_left' start, List.take_left' middle.property]
  rw [sliceArray, dif_pos (by rw [same, middle.property])]
  exact congrArg some (Subtype.ext same)

/-- The scripts that have an address: the two templates with a hash, and a version opcode
before one push of 2 to 40 bytes (20 or 32 for version 0) that fills the script. -/
def Recognised (script : Bytes) : Prop :=
  (∃ hash : ByteArr 20, script = [0x76, 0xa9, 0x14] ++ hash.val ++ [0x88, 0xac]) ∨
  (∃ hash : ByteArr 20, script = [0xa9, 0x14] ++ hash.val ++ [0x87]) ∨
  ∃ (opcode : UInt8) (program : Bytes), (opcode = 0 ∨ 0x51 ≤ opcode ∧ opcode ≤ 0x60) ∧
    2 ≤ program.length ∧ program.length ≤ 40 ∧
    (opcode = 0 → program.length = 20 ∨ program.length = 32) ∧
    script = opcode :: UInt8.ofNat program.length :: program

/-- The opcodes of the witness versions. -/
theorem versionOpcode_iff (opcode : UInt8) :
    (opcode = 0 ∨ 0x51 ≤ opcode ∧ opcode ≤ 0x60) ↔
      ∃ version : WitnessVersion, version.toOpcode.toU8 = opcode := by
  constructor
  · intro range
    have read : (WitnessVersion.tryFromOpcode ⟨opcode⟩).isOk := by
      have all : ∀ opcode : Opcode, (opcode.toU8 = 0 ∨ 0x51 ≤ opcode.toU8 ∧ opcode.toU8 ≤ 0x60) →
          (WitnessVersion.tryFromOpcode opcode).isOk := by
        intro opcode
        refine Opcode.byteCases ?_ opcode
        decide +kernel
      exact all ⟨opcode⟩ range
    rcases parsed : WitnessVersion.tryFromOpcode ⟨opcode⟩ with e | version
    · rw [parsed] at read
      exact absurd read nofun
    · exact ⟨version, congrArg Opcode.toU8 (WitnessVersion.toOpcode_tryFromOpcode _ _ parsed)⟩
  · rintro ⟨version, rfl⟩
    cases version <;> decide

theorem toOpcode_eq_zero {version : WitnessVersion} : version.toOpcode.toU8 = 0 ↔ version = .v0 := by
  cases version <;> decide

theorem recognised_iff {script : Bytes} :
    Recognised script ↔ (∃ hash, script = ScriptBuf.p2pkhBytes hash) ∨
      (∃ hash, script = ScriptBuf.p2shBytes hash) ∨
      ∃ program : WitnessProgram, script = ScriptBuf.witnessBytes program.version program.program := by
  refine or_congr Iff.rfl (or_congr Iff.rfl ?_)
  constructor
  · rintro ⟨opcode, program, range, least, most, segwitV0, rfl⟩
    obtain ⟨version, rfl⟩ := (versionOpcode_iff opcode).mp range
    exact ⟨⟨version, program, least, most, fun zero => segwitV0 (toOpcode_eq_zero.mpr zero)⟩, rfl⟩
  · rintro ⟨program, rfl⟩
    exact ⟨_, program.program, (versionOpcode_iff _).mpr ⟨program.version, rfl⟩, program.least,
      program.most, fun zero => program.segwitV0 (toOpcode_eq_zero.mp zero), rfl⟩

section
variable [Secp256k1]

/-- The script of an address that has one. -/
def scriptBytes : Address → Bytes
  | p2pkh hash _ => ScriptBuf.p2pkhBytes hash
  | p2sh hash _ => ScriptBuf.p2shBytes hash
  | segwit program _ => ScriptBuf.witnessBytes program.version program.program
  | mweb _ _ _ => []

theorem scriptPubkey_eq (address : Address) : address.scriptPubkey = some address.scriptBytes := by
  cases address with
  | p2pkh hash network => exact ScriptBuf.newP2pkh_eq hash
  | p2sh hash network => exact ScriptBuf.newP2sh_eq hash
  | segwit program hrp => exact ScriptBuf.newWitnessProgramUnchecked_eq program
  | mweb scan spend network => rfl

theorem fromScript_p2pkh (hash : ByteArr 20) (network : Network) :
    (fromScript (ScriptBuf.p2pkhBytes hash) network).run = some (.ok (.p2pkh hash network.kind)) := by
  have shape : ScriptBuf.isP2pkh (ScriptBuf.p2pkhBytes hash) = some true :=
    ScriptBuf.isP2pkh_eq_true.mpr ⟨hash, rfl⟩
  have slice : sliceArray (ScriptBuf.p2pkhBytes hash) 3 20 = some hash := sliceArray_append rfl
  rw [fromScript, shape, orPanic_bind, if_pos rfl, slice]
  rfl

theorem fromScript_p2sh (hash : ByteArr 20) (network : Network) :
    (fromScript (ScriptBuf.p2shBytes hash) network).run = some (.ok (.p2sh hash network.kind)) := by
  have length : (ScriptBuf.p2shBytes hash).length = 23 := by simp [ScriptBuf.p2shBytes, hash.property]
  have other : ScriptBuf.isP2pkh (ScriptBuf.p2shBytes hash) = some false := by
    rw [ScriptBuf.isP2pkh, length]
    rfl
  have shape : ScriptBuf.isP2sh (ScriptBuf.p2shBytes hash) = some true :=
    ScriptBuf.isP2sh_eq_true.mpr ⟨hash, rfl⟩
  have slice : sliceArray (ScriptBuf.p2shBytes hash) 2 20 = some hash := sliceArray_append rfl
  rw [fromScript, other, orPanic_bind, if_neg Bool.false_ne_true, shape, orPanic_bind, if_pos rfl, slice]
  rfl

/-- A witness script is read as far as `WitnessProgram::new` accepts its program. -/
theorem fromScript_witness (version : WitnessVersion) {program : Bytes} (network : Network)
    (least : 2 ≤ program.length) (most : program.length ≤ 40) :
    (fromScript (ScriptBuf.witnessBytes version program) network).run =
      match WitnessProgram.new version program with
      | .ok program => some (.ok (.segwit program (.fromNetwork network)))
      | .error e => some (.error (.witnessProgram e)) := by
  have notP2pkh : ScriptBuf.isP2pkh (ScriptBuf.witnessBytes version program) = some false := by
    refine (ScriptBuf.test_cases (ScriptBuf.isP2pkh_returns _)).resolve_left fun shape => ?_
    obtain ⟨hash, same⟩ := ScriptBuf.isP2pkh_eq_true.mp shape
    exact (ScriptBuf.witnessBytes_ne version program hash).1 same
  have notP2sh : ScriptBuf.isP2sh (ScriptBuf.witnessBytes version program) = some false := by
    refine (ScriptBuf.test_cases (ScriptBuf.isP2sh_returns _)).resolve_left fun shape => ?_
    obtain ⟨hash, same⟩ := ScriptBuf.isP2sh_eq_true.mp shape
    exact (ScriptBuf.witnessBytes_ne version program hash).2 same
  have witness : ScriptBuf.isWitnessProgram (ScriptBuf.witnessBytes version program) = some true := by
    rw [ScriptBuf.isWitnessProgram, ScriptBuf.witnessVersion_eq_some.mpr ⟨program, least, most, rfl⟩]
    rfl
  have first : (ScriptBuf.witnessBytes version program).head? = some version.toOpcode.toU8 := rfl
  have parsed : WitnessVersion.tryFromOpcode ⟨version.toOpcode.toU8⟩ = .ok version :=
    WitnessVersion.tryFromOpcode_toOpcode version
  have rest : (if 2 ≤ (ScriptBuf.witnessBytes version program).length then
      some ((ScriptBuf.witnessBytes version program).drop 2) else none) = some program :=
    if_pos (by simp only [ScriptBuf.witnessBytes, List.length_cons]; omega)
  rw [fromScript, notP2pkh, orPanic_bind, if_neg Bool.false_ne_true, notP2sh, orPanic_bind, if_neg Bool.false_ne_true, witness,
    orPanic_bind, if_pos rfl, first, orPanic_bind, parsed, Except.mapError, lift_ok_bind, rest,
    orPanic_bind]
  rcases WitnessProgram.new version program with e | built <;> rfl

theorem fromScript_other {script : Bytes} (network : Network)
    (notP2pkh : ¬∃ hash, script = ScriptBuf.p2pkhBytes hash)
    (notP2sh : ¬∃ hash, script = ScriptBuf.p2shBytes hash)
    (notWitness : ¬∃ (version : WitnessVersion) (program : Bytes), 2 ≤ program.length ∧
      program.length ≤ 40 ∧ script = ScriptBuf.witnessBytes version program) :
    (fromScript script network).run = some (.error .unrecognizedScript) := by
  have one : ScriptBuf.isP2pkh script = some false :=
    (ScriptBuf.test_cases (ScriptBuf.isP2pkh_returns _)).resolve_left
      fun shape => notP2pkh (ScriptBuf.isP2pkh_eq_true.mp shape)
  have two : ScriptBuf.isP2sh script = some false :=
    (ScriptBuf.test_cases (ScriptBuf.isP2sh_returns _)).resolve_left
      fun shape => notP2sh (ScriptBuf.isP2sh_eq_true.mp shape)
  have three : ScriptBuf.isWitnessProgram script = some false := by
    rcases found : ScriptBuf.witnessVersion script with _ | _ | version
    · exact absurd found (ScriptBuf.witnessVersion_returns script)
    · rw [ScriptBuf.isWitnessProgram, found]
      rfl
    · obtain ⟨program, shape⟩ := ScriptBuf.witnessVersion_eq_some.mp found
      exact absurd ⟨version, program, shape⟩ notWitness
  rw [fromScript, one, orPanic_bind, if_neg Bool.false_ne_true, two, orPanic_bind, if_neg Bool.false_ne_true, three, orPanic_bind,
    if_neg Bool.false_ne_true]
  rfl

theorem fromScript_segwit (program : WitnessProgram) (network : Network) :
    (fromScript (ScriptBuf.witnessBytes program.version program.program) network).run =
      some (.ok (.segwit program (.fromNetwork network))) := by
  have built : WitnessProgram.new program.version program.program = .ok program :=
    WitnessProgram.new_eq_ok.mpr ⟨rfl, rfl⟩
  rw [fromScript_witness _ _ program.least program.most, built]

/-- An address with a script is read back from it, for the networks it belongs to. -/
theorem fromScript_scriptBytes (address : Address) (network : Network)
    (onChain : address.isMweb = false) (belongs : address.BelongsTo network) :
    (fromScript address.scriptBytes network).run = some (.ok address) := by
  cases address with
  | p2pkh hash kind =>
    obtain rfl : kind = network.kind := belongs
    exact fromScript_p2pkh hash network
  | p2sh hash kind =>
    obtain rfl : kind = network.kind := belongs
    exact fromScript_p2sh hash network
  | segwit program hrp =>
    obtain rfl : hrp = .fromNetwork network := belongs
    exact fromScript_segwit program network
  | mweb scan spend kind => exact absurd onChain nofun

/-- What `from_script` makes of a script: an address with that script, or an error for a
script that no address has. -/
theorem fromScript_cases (script : Bytes) (network : Network) :
    (∃ address : Address, address.isMweb = false ∧ address.BelongsTo network ∧
      address.scriptBytes = script ∧ Recognised script ∧
      (fromScript script network).run = some (.ok address)) ∨
    ∃ e, ¬Recognised script ∧ (fromScript script network).run = some (.error e) := by
  by_cases notP2pkh : ∃ hash, script = ScriptBuf.p2pkhBytes hash
  · obtain ⟨hash, rfl⟩ := notP2pkh
    exact .inl ⟨p2pkh hash network.kind, rfl, rfl, rfl, .inl ⟨hash, rfl⟩, fromScript_p2pkh hash network⟩
  by_cases notP2sh : ∃ hash, script = ScriptBuf.p2shBytes hash
  · obtain ⟨hash, rfl⟩ := notP2sh
    exact .inl ⟨p2sh hash network.kind, rfl, rfl, rfl, .inr (.inl ⟨hash, rfl⟩),
      fromScript_p2sh hash network⟩
  by_cases notWitness : ∃ (version : WitnessVersion) (program : Bytes), 2 ≤ program.length ∧
      program.length ≤ 40 ∧ script = ScriptBuf.witnessBytes version program
  · obtain ⟨version, program, least, most, rfl⟩ := notWitness
    have read := fromScript_witness version network least most
    rcases built : WitnessProgram.new version program with e | whole
    · rw [built] at read
      refine .inr ⟨.witnessProgram e, fun recognised => ?_, read⟩
      rcases recognised_iff.mp recognised with ⟨hash, same⟩ | ⟨hash, same⟩ | ⟨whole, same⟩
      · exact (ScriptBuf.witnessBytes_ne version program hash).1 same
      · exact (ScriptBuf.witnessBytes_ne version program hash).2 same
      · have opcodes : version.toOpcode = whole.version.toOpcode :=
          congrArg Opcode.mk (List.cons.inj same).1
        have programs : whole.program = program := (List.cons.inj (List.cons.inj same).2).2.symm
        have versions : whole.version = version := by
          have parsed := WitnessVersion.tryFromOpcode_toOpcode whole.version
          rw [← opcodes, WitnessVersion.tryFromOpcode_toOpcode] at parsed
          exact (Except.ok.inj parsed).symm
        have accepted := WitnessProgram.new_eq_ok.mpr ⟨versions, programs⟩
        exact absurd (built.symm.trans accepted) nofun
    · rw [built] at read
      obtain ⟨rfl, rfl⟩ := WitnessProgram.new_eq_ok.mp built
      exact .inl ⟨segwit whole (.fromNetwork network), rfl, rfl, rfl,
        recognised_iff.mpr (.inr (.inr ⟨whole, rfl⟩)), read⟩
  · refine .inr ⟨.unrecognizedScript, fun recognised => ?_,
      fromScript_other network notP2pkh notP2sh notWitness⟩
    rcases recognised_iff.mp recognised with shape | shape | ⟨whole, shape⟩
    · exact notP2pkh shape
    · exact notP2sh shape
    · exact notWitness ⟨whole.version, whole.program, whole.least, whole.most, shape⟩

/-- Addresses and output scripts are inverse: the script of the address of a script is that
script, the address of the script of an address is that address on its own networks, and the
scripts without an address are those of no template. Nothing reads past the end of a script. -/
theorem fromScript_inverse :
    (∀ (script : Bytes) (network : Network) (address : Address),
      (fromScript script network).run = some (.ok address) → address.scriptPubkey = some script) ∧
    (∀ (address : Address) (network : Network), address.isMweb = false → address.BelongsTo network →
      ∃ script, address.scriptPubkey = some script ∧
        (fromScript script network).run = some (.ok address)) ∧
    ∀ (script : Bytes) (network : Network), ∃ result, (fromScript script network).run = some result ∧
      ((∃ e, result = .error e) ↔ ¬Recognised script) := by
  refine ⟨?_, ?_, ?_⟩
  · intro script network address read
    rcases fromScript_cases script network with ⟨other, -, -, bytes, -, same⟩ | ⟨e, -, failed⟩
    · obtain rfl : other = address := Except.ok.inj (Option.some.inj (same.symm.trans read))
      rw [scriptPubkey_eq, bytes]
    · exact absurd (Option.some.inj (failed.symm.trans read)) nofun
  · intro address network onChain belongs
    exact ⟨_, scriptPubkey_eq address, fromScript_scriptBytes address network onChain belongs⟩
  · intro script network
    rcases fromScript_cases script network with ⟨address, -, -, -, recognised, read⟩ | ⟨e, other, failed⟩
    · exact ⟨_, read, ⟨fun ⟨_, failed⟩ => absurd failed nofun, fun other => absurd recognised other⟩⟩
    · exact ⟨_, failed, ⟨fun _ => other, fun _ => ⟨e, rfl⟩⟩⟩

end

section Sample
attribute [local instance] Secp256k1.generatorOnly

/-- The program of `pay_to_anchor_address_regtest`. -/
def anchorProgram : WitnessProgram where
  version := .v1
  program := [78, 115]
  least := by decide
  most := by decide
  segwitV0 := nofun

/-- A pay-to-anchor address on regtest and its script. -/
theorem pay_to_anchor_script :
    (segwit anchorProgram .regtest).scriptPubkey = some [0x51, 0x02, 0x4e, 0x73] ∧
    ∃ script, (segwit anchorProgram .regtest).scriptPubkey = some script ∧
      (fromScript script .regtest).run = some (.ok (segwit anchorProgram .regtest)) := by
  have read : (fromScript [0x51, 0x02, 0x4e, 0x73] .regtest).run =
      some (.ok (segwit anchorProgram .regtest)) := by decide
  exact ⟨fromScript_inverse.1 _ .regtest _ read, fromScript_inverse.2.1 _ .regtest rfl rfl⟩

end Sample

end Litecoin.Address
