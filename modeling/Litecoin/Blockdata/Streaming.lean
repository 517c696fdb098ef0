import Litecoin.Blockdata.TransactionExactness
import Litecoin.Blockdata.Block
import Litecoin.Consensus.Serde
import Litecoin.Io.Scripted

/-! Transactions and blocks from any reader (`blockdata/transaction.rs`, `blockdata/witness.rs`,
`blockdata/mimblewimble.rs`, `blockdata/block.rs`), from hexadecimal digits and through serde. -/
namespace Litecoin
open Wire Consensus Io

namespace Mimblewimble

/-- The loop of `read_amount` and `read_compact_varint`, a byte at a time. -/
def varintProgram (max n : Nat) : Program Error Nat :=
  readU8_streamed.program.bind fun chData =>
    if n > max / 128 then .fail (.parseFailed "MWEB varint overflow")
    else if chData.toNat ≥ 128 then
      if n * 128 + chData.toNat % 128 + 1 > max then .fail (.parseFailed "MWEB varint overflow")
      else varintProgram max (n * 128 + chData.toNat % 128 + 1)
    else .done (n * 128 + chData.toNat % 128)
termination_by max - n
decreasing_by omega

theorem varintProgram_slice (max n : Nat) :
    (varintProgram max n).slice (.io .unexpectedEof) = readVarintLoop max n := by
  induction below : max - n using Nat.strongRecOn generalizing n with
  | ind m ih =>
  rw [varintProgram, Program.slice_bind, readU8_streamed.slice_eq]
  funext bytes
  cases bytes with
  | nil => rfl
  | cons chData rest =>
    have first : readU8 (chData :: rest) = .ok (chData, rest) := by
      have read := readU8_codec.reads.read (a := chData) trivial rest
      rwa [littleEndian_one, List.singleton_append] at read
    simp only [Bind.bind, first, readVarintLoop]
    split
    · rfl
    · split
      · split
        · rfl
        · rw [ih _ (by omega) _ rfl]
      · rfl

theorem varintProgram_proper (max n : Nat) : (varintProgram max n).Proper Error.Own (2 ^ 64) := by
  induction below : max - n using Nat.strongRecOn generalizing n with
  | ind m ih =>
  rw [varintProgram]
  refine readU8_streamed.proper.bind fun chData => ?_
  split
  · exact parseFailed_own _
  · split
    · split
      · exact parseFailed_own _
      · exact ih _ (by omega) _ rfl
    · trivial

def readVarintLoop_streamed (max n : Nat) : Streamed (readVarintLoop max n) where
  program := varintProgram max n
  slice_eq := varintProgram_slice max n
  proper := varintProgram_proper max n

def readAmount_streamed : Streamed readAmount := (readVarintLoop_streamed _ _).map _

def readCompactVarint_streamed : Streamed readCompactVarint := (readVarintLoop_streamed _ _).map _

variable [Secp256k1]

def keyOfSlice_streamed (message : String) (bytes : ByteArr 33) :
    Streamed (match Secp256k1.publicKeyFromSlice bytes.val with
      | some key => pure key
      | none => Decoder.fail (.parseFailed message) : Decoder Error Secp256k1.PublicKey) where
  program := match Secp256k1.publicKeyFromSlice bytes.val with
    | some key => .done key
    | none => .fail (.parseFailed message)
  slice_eq := by
    cases Secp256k1.publicKeyFromSlice bytes.val with
    | none => rfl
    | some key => rfl
  proper := by
    cases Secp256k1.publicKeyFromSlice bytes.val with
    | none => exact parseFailed_own message
    | some key => trivial

def readPublicKey_streamed (message : String) : Streamed (readPublicKey message) :=
  (readExact_streamed 33 (by decide)).bind (keyOfSlice_streamed message)

def PegOutCoin.streamed : Streamed PegOutCoin.consensusDecodeFromFiniteReader :=
  readAmount_streamed.bind fun _ => decodeBytes_streamed.bind fun _ =>
    (Programmed.guard _ _ (parseFailed_own _)).bind fun _ => .pure _

def Kernel.readLockHeight_streamed : Streamed Kernel.readLockHeight :=
  readAmount_streamed.bind fun _ => .ite (fun _ => .fail _ nofun) fun _ => .pure _

def Kernel.streamed : Streamed Kernel.consensusDecodeFromFiniteReader :=
  readU8_streamed.bind fun _ =>
    (readAmount_streamed.gated _).bind fun _ =>
    (readAmount_streamed.gated _).bind fun _ =>
    ((decodeVec_streamed PegOutCoin.streamed).orAbsent _ _).bind fun _ =>
    (Kernel.readLockHeight_streamed.gated _).bind fun _ =>
    ((readPublicKey_streamed _).gated _).bind fun _ =>
    (decodeBytes_streamed.orAbsent _ _).bind fun _ =>
    (readExact_streamed 33 (by decide)).bind fun _ =>
    (readExact_streamed 64 (by decide)).bind fun _ => .pure _

def Input.streamed : Streamed Input.consensusDecodeFromFiniteReader :=
  readU8_streamed.bind fun _ =>
    (readExact_streamed 32 (by decide)).bind fun _ =>
    (readExact_streamed 33 (by decide)).bind fun _ =>
    (readPublicKey_streamed _).bind fun _ =>
    ((readPublicKey_streamed _).gated _).bind fun _ =>
    (decodeBytes_streamed.orAbsent _ _).bind fun _ =>
    (readExact_streamed 64 (by decide)).bind fun _ => .pure _

def OutputMessage.readStandardFields_streamed : Streamed OutputMessage.readStandardFields :=
  (readPublicKey_streamed _).bind fun _ =>
    readU8_streamed.bind fun _ =>
    readU64_streamed.bind fun _ =>
    (readExact_streamed 16 (by decide)).bind fun _ => .pure _

def OutputMessage.streamed : Streamed OutputMessage.consensusDecodeFromFiniteReader :=
  readU8_streamed.bind fun _ =>
    (OutputMessage.readStandardFields_streamed.gated _).bind fun _ =>
    (decodeBytes_streamed.orAbsent _ _).bind fun _ => .pure _

def Output.streamed : Streamed Output.consensusDecodeFromFiniteReader :=
  (readExact_streamed 33 (by decide)).bind fun _ =>
    (readPublicKey_streamed _).bind fun _ =>
    (readPublicKey_streamed _).bind fun _ =>
    OutputMessage.streamed.bind fun _ =>
    (readExact_streamed 675 (by decide)).bind fun _ =>
    (readExact_streamed 64 (by decide)).bind fun _ => .pure _

def TxBody.streamed : Streamed TxBody.consensusDecodeFromFiniteReader :=
  (decodeVec_streamed Input.streamed).bind fun _ =>
    (decodeVec_streamed Output.streamed).bind fun _ =>
    (decodeVec_streamed Kernel.streamed).bind fun _ => .pure _

def Transaction.streamed : Streamed Transaction.consensusDecodeFromFiniteReader :=
  (readExact_streamed 32 (by decide)).bind fun _ =>
    (readExact_streamed 32 (by decide)).bind fun _ =>
    TxBody.streamed.bind fun _ =>
    (Programmed.guard _ _ (parseFailed_own _)).bind fun _ => .pure _

end Mimblewimble

namespace Blockdata
open Mimblewimble (readCompactVarint_streamed)

def LockTime.streamed : Streamed LockTime.consensusDecode := readU32_streamed.map _

def OutPoint.streamed : Streamed OutPoint.consensusDecode :=
  (readExact_streamed 32 (by decide)).bind fun _ => readU32_streamed.bind fun _ => .pure _

def TxIn.streamed : Streamed TxIn.consensusDecodeFromFiniteReader :=
  OutPoint.streamed.bind fun _ => decodeBytes_streamed.bind fun _ =>
    readU32_streamed.bind fun _ => .pure _

def TxOut.streamed : Streamed TxOut.consensusDecodeFromFiniteReader :=
  readU64_streamed.bind fun _ => decodeBytes_streamed.bind fun _ => .pure _

def Packed.decodeElements_streamed (indexSpace : Nat) :
    (remaining i cursor : Nat) → (content : Bytes) →
      Streamed (Packed.decodeElements indexSpace remaining i cursor content)
  | 0, _, _, _ => .pure _
  | remaining + 1, _, _, _ => VarInt.streamed.bind fun elementSize =>
    .ite (fun _ => .fail _ nofun) fun _ =>
    .ite (fun _ => .fail _ nofun) fun _ =>
    .ite (fun _ => .fail _ nofun) fun _ =>
    (readExact_streamed _ elementSize.toNat_lt).bind fun _ =>
    Packed.decodeElements_streamed indexSpace remaining _ _ _

def Packed.streamed : Streamed Packed.consensusDecode :=
  VarInt.streamed.bind fun _ =>
    .ite (fun _ => .fail _ nofun) fun _ =>
    .ite (fun _ => .pure _) fun _ =>
    (Packed.decodeElements_streamed _ _ _ _ _).bind fun _ => .pure _

theorem Witness.packed_mk (packed : Packed)
    (formed : ∃ elements, packed = Packed.pack elements ∧ Packed.Indexed elements.toList) :
    Witness.packed ⟨packed, formed⟩ = packed := rfl

theorem Witness.packed_injective (witness other : Witness) (same : witness.packed = other.packed) :
    witness = other := by
  cases witness
  cases other
  rw [Witness.mk.injEq]
  exact same

theorem Witness.packed_decoded : Witness.packed <$> Witness.consensusDecode = Packed.consensusDecode := by
  funext bytes
  rw [Decoder.map_apply, consensusDecode]
  split
  case h_1 read => exact read.symm
  case h_2 read => exact read.symm

def Witness.streamed : Streamed Witness.consensusDecode :=
  Packed.streamed.attach (fun packed formed => ⟨packed, formed⟩) Witness.packed Witness.packed_mk
    Witness.packed_injective Witness.packed_decoded Packed.pack_of_decoded

def TxIn.fillWitnesses_streamed : (input : List TxIn) → Streamed (Transaction.fillWitnesses input)
  | [] => .pure _
  | _ :: rest => Witness.streamed.bind fun _ => (TxIn.fillWitnesses_streamed rest).bind fun _ => .pure _

def Transaction.decodeWitnesses_streamed (segwitFlag : UInt8) (input : Vec TxIn) :
    Streamed (Transaction.decodeWitnesses segwitFlag input) :=
  .ite (fun _ => (TxIn.fillWitnesses_streamed _).bind fun _ =>
    .ite (fun _ => .fail _ nofun) fun _ => .pure _) fun _ => .pure _

section
variable [Secp256k1]

def Transaction.decodeMwebPart_streamed (segwitFlag : UInt8) (output : Vec TxOut) :
    Streamed (Transaction.decodeMwebPart segwitFlag output) :=
  .ite (fun _ => readU8_streamed.bind fun _ =>
    .ite (fun _ => Mimblewimble.Transaction.streamed.bind fun _ => .pure _) fun _ =>
    .ite (fun _ => .fail _ nofun) fun _ => .pure _) fun _ => .pure _

omit [Secp256k1] in
theorem unsupportedSegwitFlag_own (flag : UInt8) : (Error.unsupportedSegwitFlag flag).Own := nofun

def Transaction.decodeExtended_streamed (version : Int32) :
    Streamed (Transaction.decodeExtended version) :=
  readU8_streamed.bind fun flag => .ite (fun _ => .fail _ (unsupportedSegwitFlag_own flag)) fun _ =>
    (decodeVec_streamed TxIn.streamed).bind fun _ =>
    (decodeVec_streamed TxOut.streamed).bind fun _ =>
    (Transaction.decodeWitnesses_streamed _ _).bind fun _ =>
    (Transaction.decodeMwebPart_streamed _ _).bind fun _ =>
    LockTime.streamed.bind fun _ => .pure _

def Transaction.streamed : Streamed Transaction.consensusDecodeFromFiniteReader :=
  readI32_streamed.bind fun _ => (decodeVec_streamed TxIn.streamed).bind fun _ =>
    .ite (fun _ => Transaction.decodeExtended_streamed _) fun _ =>
    (decodeVec_streamed TxOut.streamed).bind fun _ => LockTime.streamed.bind fun _ => .pure _

def Header.streamed : Streamed Header.consensusDecodeFromFiniteReader :=
  readI32_streamed.bind fun _ =>
    (readExact_streamed 32 (by decide)).bind fun _ =>
    (readExact_streamed 32 (by decide)).bind fun _ =>
    readU32_streamed.bind fun _ => readU32_streamed.bind fun _ => readU32_streamed.bind fun _ => .pure _

def MwebBlockHeader.decodeHeight_streamed : Streamed MwebBlockHeader.decodeHeight :=
  readCompactVarint_streamed.bind fun _ => .ite (fun _ => .pure _) fun _ => .fail _ nofun

def MwebBlockHeader.streamed : Streamed MwebBlockHeader.consensusDecodeFromFiniteReader :=
  MwebBlockHeader.decodeHeight_streamed.bind fun _ =>
    (readExact_streamed 32 (by decide)).bind fun _ =>
    (readExact_streamed 32 (by decide)).bind fun _ =>
    (readExact_streamed 32 (by decide)).bind fun _ =>
    (readExact_streamed 32 (by decide)).bind fun _ =>
    (readExact_streamed 32 (by decide)).bind fun _ =>
    readCompactVarint_streamed.bind fun _ => readCompactVarint_streamed.bind fun _ => .pure _

def MwebBlock.streamed : Streamed MwebBlock.consensusDecodeFromFiniteReader :=
  MwebBlockHeader.streamed.bind fun _ => Mimblewimble.TxBody.streamed.bind fun _ => .pure _

def Block.decodeMwebBlock_streamed (version : Int32) (txdata : List Transaction) :
    Streamed (Block.decodeMwebBlock version txdata) :=
  .ite (fun _ => readU8_streamed.bind fun _ =>
    .ite (fun _ => MwebBlock.streamed.map _) fun _ => .pure _) fun _ => .pure _

def Block.streamed : Streamed Block.consensusDecodeFromFiniteReader :=
  Header.streamed.bind fun _ => (decodeVec_streamed Transaction.streamed).bind fun _ =>
    .ite (fun _ => .fail _ nofun) fun _ =>
    (Block.decodeMwebBlock_streamed _ _).bind fun _ => .pure _

variable {target : Target}

/-- However a source cuts up its bytes and whenever it is interrupted, `consensus_decode` returns
what it returns for a slice with the bytes that the source has left, consumes as many, and reports
the error of a source that breaks when it needs more than that. -/
theorem decoded_from_any_source (wide : target.width = .w64) {σ : Type} [Source target σ] {source : σ}
    (valid : Source.Valid target source) {fuel : Nat} (enough : Source.calls target source < fuel) :
    Decoded target source
      (consensusDecode Transaction.consensusDecodeFromFiniteReader ((Source.prospect target).left source))
      (decodeFrom target fuel Transaction.streamed.program source) ∧
    Decoded target source
      (consensusDecode Block.consensusDecodeFromFiniteReader ((Source.prospect target).left source))
      (decodeFrom target fuel Block.streamed.program source) :=
  ⟨Transaction.streamed.decodes wide valid enough, Block.streamed.decodes wide valid enough⟩

/-- `deserialize_hex` agrees with `deserialize`, and does not panic. -/
theorem read_from_hex (wide : target.width = .w64) {newIter : HexToBytes} {s : String}
    (short : (Serde.Input.str s).Short newIter) :
    ((∀ tx, deserializeHex newIter target Transaction.streamed.program s = .ok tx ↔
        ∃ bytes, newIter s = .ok (bytes.map .ok) ∧
          deserialize Transaction.consensusDecodeFromFiniteReader bytes = .ok tx) ∧
      deserializeHex newIter target Transaction.streamed.program s ≠ .error .panic) ∧
    (∀ block, deserializeHex newIter target Block.streamed.program s = .ok block ↔
        ∃ bytes, newIter s = .ok (bytes.map .ok) ∧
          deserialize Block.consensusDecodeFromFiniteReader bytes = .ok block) ∧
      deserializeHex newIter target Block.streamed.program s ≠ .error .panic :=
  ⟨Transaction.streamed.fromHex wide short, Block.streamed.fromHex wide short⟩

/-- `With::<Hex>::deserialize` agrees with `deserialize` as well, for strings and for sequences of
bytes, and panics exactly when the bytes that are given end before the value does. -/
theorem read_through_serde (wide : target.width = .w64) {newIter : HexToBytes} {input : Serde.Input}
    (short : input.Short newIter) :
    ((∀ tx, Serde.deserialize newIter target Transaction.streamed.program input = .ok tx ↔
        ∃ bytes, input.Spells newIter bytes ∧
          deserialize Transaction.consensusDecodeFromFiniteReader bytes = .ok tx) ∧
      (Serde.deserialize newIter target Transaction.streamed.program input = .error .panic ↔
        ∃ bytes, input.Spells newIter bytes ∧
          deserialize Transaction.consensusDecodeFromFiniteReader bytes =
            .error (.io .unexpectedEof))) ∧
    (∀ block, Serde.deserialize newIter target Block.streamed.program input = .ok block ↔
        ∃ bytes, input.Spells newIter bytes ∧
          deserialize Block.consensusDecodeFromFiniteReader bytes = .ok block) ∧
      (Serde.deserialize newIter target Block.streamed.program input = .error .panic ↔
        ∃ bytes, input.Spells newIter bytes ∧
          deserialize Block.consensusDecodeFromFiniteReader bytes = .error (.io .unexpectedEof)) :=
  ⟨Transaction.streamed.fromSerde wide short, Block.streamed.fromSerde wide short⟩

/-- Digits and serde agree with slices, but for inputs that end before the value does: on those
serde's conversion of errors panics. -/
theorem hex_and_serde_agree_iff (wide : target.width = .w64) {newIter : HexToBytes}
    (documented : newIter.Documented) {input : Serde.Input} (small : input.size ≤ maxVecSize) :
    (input.AgreesWithSlice newIter target Transaction.streamed ↔ ∀ bytes, input.spelled = some bytes →
      deserialize Transaction.consensusDecodeFromFiniteReader bytes ≠ .error (.io .unexpectedEof)) ∧
    (input.AgreesWithSlice newIter target Block.streamed ↔ ∀ bytes, input.spelled = some bytes →
      deserialize Block.consensusDecodeFromFiniteReader bytes ≠ .error (.io .unexpectedEof)) :=
  ⟨Transaction.streamed.agreesWithSlice_iff wide documented small,
    Block.streamed.agreesWithSlice_iff wide documented small⟩

end

namespace Sample

/-- A 64-bit target. -/
def wide : Target := ⟨.w64, true⟩

/-- The bytes of a transaction, in pieces that end where no field does, and with interruptions. -/
def pieces : Scripted where
  script := [.interruption, .piece 1 [0, 0], .piece 0 [0, 8, 0], .interruption, .interruption,
    .piece 1 [0, 0, 0, 0, 0, 0, 0, 0, 0], .interruption, .piece 0 [0, 0, 0, 0], .interruption]
  ending := none

/-- A connection that is lost behind the flag. -/
def torn : Scripted where
  script := [.piece 1 [0], .interruption, .piece 0 [0, 0, 8]]
  ending := some .connectionReset

theorem emptyPeg_taken : consensusDecode
    (@Transaction.consensusDecodeFromFiniteReader Secp256k1.generatorOnly)
    (Transaction.emptyPegBytes 8) = .ok (Transaction.emptyPeg, []) :=
  (consensusDecode_eq _ (by decide)).trans (deserialize_eq_ok.mp Transaction.emptyPeg_read)

theorem torn_short : consensusDecode
    (@Transaction.consensusDecodeFromFiniteReader Secp256k1.generatorOnly) torn.left =
      .error (.io .unexpectedEof) := rfl

theorem emptyPeg_from_pieces :
    let := Secp256k1.generatorOnly
    (∃ next : Scripted, decodeFrom wide 30 Transaction.streamed.program pieces =
      (.ok Transaction.emptyPeg, next) ∧ next.left = []) ∧
    decodeFrom wide 30 Transaction.streamed.program torn =
      (.error (.error (.io .connectionReset)), ⟨[], some .connectionReset⟩) := by
  intro _
  constructor
  · have valid : Source.Valid wide pieces := nofun
    have enough : Source.calls wide pieces < 30 := by decide
    exact (decoded_from_any_source rfl valid enough).1.returned emptyPeg_taken
  · have valid : Source.Valid wide torn := nofun
    have enough : Source.calls wide torn < 30 := by decide
    have within : ((Source.prospect wide).left torn).length < maxVecSize := by decide
    obtain ⟨next, ran, broken⟩ := (decoded_from_any_source rfl valid enough).1.fails torn_short rfl within
    rw [ran, broken]
    rfl

/-- Digits of the bytes of a transaction. -/
def digits : String := "01000000000800010000000000000000000000000000"

/-- The digits from a position on, pair by pair. -/
def hexItems : Nat → Bytes → List (Except InvalidCharError UInt8)
  | pos, high :: low :: digits =>
    (match hexPair high low with
      | some byte => .ok byte
      | none => .error (if asciiHexDigit high = none then ⟨high, pos⟩ else ⟨low, pos + 1⟩)) ::
      hexItems (pos + 2) digits
  | _, _ => []

def hexIter : HexToBytes := fun s =>
  if (stringBytes s).length % 2 = 1 then .error ⟨(stringBytes s).length⟩
  else .ok (hexItems 0 (stringBytes s))

theorem hexItems_pairs (pos : Nat) {digits : Bytes} (even : digits.length % 2 = 0) :
    PairByPair digits (hexItems pos digits) := by
  fun_induction hexItems pos digits with
  | case1 pos high low digits ih =>
    have rest := ih (by simp only [List.length_cons] at even; omega)
    cases spells : hexPair high low with
    | some byte => exact .byte spells rest
    | none => exact .bad _ spells rest
  | case2 digits pos short =>
    match digits with
    | [] => exact .nil
    | [_] => contradiction
    | high :: low :: digits => exact absurd rfl (short high low digits)

theorem hexIter_documented : hexIter.Documented where
  odd s odd := ⟨_, if_pos odd⟩
  even s even := ⟨_, if_neg (by omega), hexItems_pairs 0 even⟩

theorem digits_spelled : (Serde.Input.str digits).spelled = some (Transaction.emptyPegBytes 8) := by
  decide

theorem digits_small : (Serde.Input.str digits).size ≤ maxVecSize := by decide

theorem emptyPeg_from_hex :
    let := Secp256k1.generatorOnly
    deserializeHex hexIter wide Transaction.streamed.program digits = .ok Transaction.emptyPeg := by
  intro _
  have wide64 : wide.width = .w64 := rfl
  have short := Serde.Input.short hexIter_documented digits_small
  exact ((read_from_hex wide64 short).1.1 _).mpr ⟨Transaction.emptyPegBytes 8,
    (Serde.Input.spells_iff hexIter_documented).mpr digits_spelled, Transaction.emptyPeg_read⟩

/-- A single byte is no transaction, and serde is not told so. -/
theorem byte_panics :
    let := Secp256k1.generatorOnly
    Serde.deserialize hexIter wide Transaction.streamed.program (.seq [.ok 1]) =
      .error .panic := by
  intro _
  have wide64 : wide.width = .w64 := rfl
  have short : (Serde.Input.seq [.ok 1]).Short hexIter := by
    change 1 ≤ maxVecSize
    decide
  exact (read_through_serde wide64 short).1.2.mpr ⟨[1], rfl, rfl⟩

theorem digits_agree :
    let := Secp256k1.generatorOnly
    (Serde.Input.str digits).AgreesWithSlice hexIter wide Transaction.streamed := by
  intro _
  have wide64 : wide.width = .w64 := rfl
  refine (hex_and_serde_agree_iff wide64 hexIter_documented digits_small).1.mpr fun bytes spelled => ?_
  obtain rfl := Option.some.inj (digits_spelled.symm.trans spelled)
  rw [Transaction.emptyPeg_read]
  exact nofun

/-- The digits of a single byte make serde panic. -/
theorem truncated_panics :
    let := Secp256k1.generatorOnly
    (Serde.Input.str "01").size ≤ maxVecSize ∧ hexIter.Documented ∧ wide.width = .w64 ∧
      Serde.deserialize hexIter wide Transaction.streamed.program (.str "01") = .error .panic ∧
      ¬(Serde.Input.str "01").AgreesWithSlice hexIter wide Transaction.streamed := by
  intro _
  have wide64 : wide.width = .w64 := rfl
  have small : (Serde.Input.str "01").size ≤ maxVecSize := by decide
  have short := Serde.Input.short hexIter_documented small
  have panics : Serde.deserialize hexIter wide Transaction.streamed.program (.str "01") =
      .error .panic := by
    refine (Transaction.streamed.fromSerde wide64 short).2.mpr ⟨[1], ?_, rfl⟩
    exact (Serde.Input.spells_iff hexIter_documented).mpr (by decide)
  exact ⟨small, hexIter_documented, wide64, panics, fun agrees => agrees.2.2 panics⟩

end Sample
end Blockdata
end Litecoin
