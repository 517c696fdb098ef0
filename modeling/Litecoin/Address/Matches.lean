import Litecoin.Address.OutputScript

/-! The test for the script of an address that builds no script (`address/mod.rs`). -/
namespace Litecoin.Address
open Wire Consensus Script

section
variable [Secp256k1]

/-- `matches_script_pubkey`: the template is tested before the slice is compared, and a slice out of
range panics. -/
def matchesScriptPubkey (address : Address) (script : ScriptBuf) : Option Bool :=
  match address with
  | p2pkh hash _ => ScriptBuf.andThen script.isP2pkh ((sliceArray script 3 20).map (· == hash))
  | p2sh hash _ => ScriptBuf.andThen script.isP2sh ((sliceArray script 2 20).map (· == hash))
  | segwit program _ => ScriptBuf.andThen script.isWitnessProgram
      ((if 2 ≤ script.length then some (script.drop 2) else none).map (· == program.program))
  | mweb _ _ _ => some false

/-- The script has the program of the address behind another version. -/
def OtherVersion (address : Address) (script : ScriptBuf) : Prop :=
  match address with
  | segwit program _ => ∃ version, version ≠ program.version ∧
      script = ScriptBuf.witnessBytes version program.program
  | _ => False

omit [Secp256k1] in
theorem sliceArray_p2pkh (hash : ByteArr 20) :
    sliceArray (ScriptBuf.p2pkhBytes hash) 3 20 = some hash := sliceArray_append rfl

omit [Secp256k1] in
theorem sliceArray_p2sh (hash : ByteArr 20) :
    sliceArray (ScriptBuf.p2shBytes hash) 2 20 = some hash := sliceArray_append rfl

omit [Secp256k1] in
theorem isWitnessProgram_eq_true {script : ScriptBuf} : script.isWitnessProgram = some true ↔
    ∃ (version : WitnessVersion) (program : Bytes), 2 ≤ program.length ∧ program.length ≤ 40 ∧
      script = ScriptBuf.witnessBytes version program := by
  rw [ScriptBuf.isWitnessProgram]
  constructor
  · intro shape
    obtain ⟨version, found, some⟩ := Option.map_eq_some_iff.mp shape
    obtain ⟨version, rfl⟩ := Option.isSome_iff_exists.mp some
    exact ⟨version, ScriptBuf.witnessVersion_eq_some.mp found⟩
  · rintro ⟨version, shape⟩
    rw [ScriptBuf.witnessVersion_eq_some.mpr shape]
    rfl

omit [Secp256k1] in
theorem drop_witnessBytes (version : WitnessVersion) (program : Bytes) :
    (if 2 ≤ (ScriptBuf.witnessBytes version program).length then
      some ((ScriptBuf.witnessBytes version program).drop 2) else none) = some program :=
  if_pos (Nat.le_add_left 2 program.length)

/-- No slice is out of range. -/
theorem matchesScriptPubkey_returns (address : Address) (script : ScriptBuf) :
    address.matchesScriptPubkey script ≠ none := by
  cases address with
  | p2pkh hash kind =>
    refine ScriptBuf.andThen_returns script.isP2pkh_returns fun shape => ?_
    obtain ⟨hash', rfl⟩ := ScriptBuf.isP2pkh_eq_true.mp shape
    rw [sliceArray_p2pkh]
    exact Option.some_ne_none _
  | p2sh hash kind =>
    refine ScriptBuf.andThen_returns script.isP2sh_returns fun shape => ?_
    obtain ⟨hash', rfl⟩ := ScriptBuf.isP2sh_eq_true.mp shape
    rw [sliceArray_p2sh]
    exact Option.some_ne_none _
  | segwit program hrp =>
    refine ScriptBuf.andThen_returns script.isWitnessProgram_returns fun shape => ?_
    obtain ⟨version, program', -, -, rfl⟩ := isWitnessProgram_eq_true.mp shape
    rw [drop_witnessBytes]
    exact Option.some_ne_none _
  | mweb scan spend kind => exact Option.some_ne_none _

/-- The templates imply all that is not compared, up to the witness version. -/
theorem matchesScriptPubkey_eq_true {address : Address} {script : ScriptBuf}
    (onChain : address.isMweb = false) : address.matchesScriptPubkey script = some true ↔
      script = address.scriptBytes ∨ OtherVersion address script := by
  cases address with
  | p2pkh hash kind =>
    rw [matchesScriptPubkey, ScriptBuf.andThen_eq_true, ScriptBuf.isP2pkh_eq_true]
    simp only [OtherVersion, or_false]
    constructor
    · rintro ⟨⟨hash', rfl⟩, compared⟩
      rw [sliceArray_p2pkh] at compared
      rw [beq_iff_eq.mp (Option.some.inj compared)]
      rfl
    · rintro rfl
      refine ⟨⟨hash, rfl⟩, ?_⟩
      rw [show scriptBytes (p2pkh hash kind) = ScriptBuf.p2pkhBytes hash from rfl, sliceArray_p2pkh]
      exact congrArg some (beq_self_eq_true hash)
  | p2sh hash kind =>
    rw [matchesScriptPubkey, ScriptBuf.andThen_eq_true, ScriptBuf.isP2sh_eq_true]
    simp only [OtherVersion, or_false]
    constructor
    · rintro ⟨⟨hash', rfl⟩, compared⟩
      rw [sliceArray_p2sh] at compared
      rw [beq_iff_eq.mp (Option.some.inj compared)]
      rfl
    · rintro rfl
      refine ⟨⟨hash, rfl⟩, ?_⟩
      rw [show scriptBytes (p2sh hash kind) = ScriptBuf.p2shBytes hash from rfl, sliceArray_p2sh]
      exact congrArg some (beq_self_eq_true hash)
  | segwit program hrp =>
    rw [matchesScriptPubkey, ScriptBuf.andThen_eq_true, isWitnessProgram_eq_true]
    have versions : (∃ version, script = ScriptBuf.witnessBytes version program.program) ↔
        script = scriptBytes (segwit program hrp) ∨ OtherVersion (segwit program hrp) script := by
      constructor
      · rintro ⟨version, rfl⟩
        by_cases same : version = program.version
        · exact .inl (same ▸ rfl)
        · exact .inr ⟨version, same, rfl⟩
      · rintro (same | ⟨version, -, same⟩)
        · exact ⟨program.version, same⟩
        · exact ⟨version, same⟩
    rw [← versions]
    constructor
    · rintro ⟨⟨version, program', -, -, rfl⟩, compared⟩
      rw [drop_witnessBytes] at compared
      obtain rfl : program' = program.program := beq_iff_eq.mp (Option.some.inj compared)
      exact ⟨version, rfl⟩
    · rintro ⟨version, rfl⟩
      refine ⟨⟨version, program.program, program.least, program.most, rfl⟩, ?_⟩
      rw [drop_witnessBytes]
      exact congrArg some (beq_self_eq_true program.program)
  | mweb scan spend kind => exact absurd onChain nofun

/-- On the addresses of one network the scripts tell the addresses apart. -/
theorem scriptBytes_inj {address other : Address} {network : Network}
    (onChain : address.isMweb = false) (onChain' : other.isMweb = false)
    (belongs : address.BelongsTo network) (belongs' : other.BelongsTo network)
    (same : address.scriptBytes = other.scriptBytes) : address = other := by
  have read := fromScript_scriptBytes address network onChain belongs
  rw [same, fromScript_scriptBytes other network onChain' belongs'] at read
  exact (Except.ok.inj (Option.some.inj read)).symm

theorem otherVersion_ne {address : Address} {script : ScriptBuf} (other : OtherVersion address script) :
    address.scriptBytes ≠ script := by
  cases address with
  | segwit program hrp =>
    obtain ⟨version, different, rfl⟩ := other
    intro same
    refine different ?_
    have opcodes : program.version.toOpcode = version.toOpcode := congrArg Opcode.mk (List.cons.inj same).1
    have parsed := WitnessVersion.tryFromOpcode_toOpcode version
    rw [← opcodes, WitnessVersion.tryFromOpcode_toOpcode] at parsed
    exact (Except.ok.inj parsed).symm
  | p2pkh _ _ | p2sh _ _ | mweb _ _ _ => exact absurd other id

/-- The test agrees with the script of the address except on a witness program of another version
with the same bytes, and so tells the addresses of a network apart on all other scripts. -/
theorem matches_script_pubkey_iff :
    (∀ (address : Address) (script : ScriptBuf), address.isMweb = false →
      ∃ answer, address.matchesScriptPubkey script = some answer ∧
        ((answer = true ↔ address.scriptPubkey = some script) ↔ ¬ OtherVersion address script)) ∧
    ∀ (address other : Address) (network : Network) (script : ScriptBuf),
      address.isMweb = false → other.isMweb = false → address.BelongsTo network →
      other.BelongsTo network → ¬ OtherVersion address script → ¬ OtherVersion other script →
      address.matchesScriptPubkey script = some true →
      other.matchesScriptPubkey script = some true → address = other := by
  constructor
  · intro address script onChain
    obtain ⟨answer, returned⟩ := Option.ne_none_iff_exists'.mp
      (address.matchesScriptPubkey_returns script)
    have spec : address.matchesScriptPubkey script = some true ↔
        script = address.scriptBytes ∨ OtherVersion address script := matchesScriptPubkey_eq_true onChain
    rw [returned, Option.some_inj] at spec
    refine ⟨answer, returned, ?_⟩
    rw [spec, scriptPubkey_eq, Option.some_inj, eq_comm]
    constructor
    · intro same other
      exact otherVersion_ne other (same.mp (.inr other))
    · intro only
      rw [or_iff_left only]
  · intro address other network script onChain onChain' belongs belongs' only only' matched matched'
    have own := (matchesScriptPubkey_eq_true onChain).mp matched
    have own' := (matchesScriptPubkey_eq_true onChain').mp matched'
    exact scriptBytes_inj onChain onChain' belongs belongs'
      ((own.resolve_right only).symm.trans (own'.resolve_right only'))

end

section
attribute [local instance] Secp256k1.generatorOnly

/-- A script of witness version 2 is matched by the address of version 1 with the same program, and
by the one of version 2. -/
theorem anchor_matches_other_version :
    (segwit anchorProgram .mainnet).matchesScriptPubkey [0x52, 0x02, 0x4e, 0x73] = some true ∧
    (segwit anchorProgram .mainnet).scriptPubkey = some [0x51, 0x02, 0x4e, 0x73] ∧
    (segwit { anchorProgram with version := .v2, segwitV0 := nofun } .mainnet).matchesScriptPubkey
      [0x52, 0x02, 0x4e, 0x73] = some true := by
  decide

end
end Litecoin.Address
