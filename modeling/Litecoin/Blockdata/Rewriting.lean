import Litecoin.Blockdata.BlockExactness
import Litecoin.Consensus.Framing

/-! How transactions and blocks are rewritten when they are read and written again. -/
namespace Litecoin.Blockdata
open Wire Consensus Mimblewimble
variable [Secp256k1]

namespace Transaction

/-- Refuses the two forms in which the writer never puts a transaction. -/
def strictDecode : Decoder Error Transaction :=
  consensusDecodeFromFiniteReader.inForm
    (fun read => !emptyWithBothFlags read && presenceIsBoolean read)
    (.parseFailed "not as the writer puts it")

variable [Secp256k1.Canonical]

theorem span_of_read {tx : Transaction}
    (read : consensusDecodeFromFiniteReader bytes = .ok (tx, rest)) : ∃ span,
      bytes = span ++ rest ∧ deserialize consensusDecodeFromFiniteReader span = .ok tx ∧
        tx.consensusEncode = .written tx.wire := by
  obtain ⟨plain, same⟩ | ⟨segwit, mweb, presence, extended, same⟩ := consensusDecode_eq_ok.mp read
  · refine ⟨_, same, ?_, consensusEncode_eq plain.complete⟩
    exact deserialize_eq_ok.mpr (consensusDecode_eq_ok.mpr (.inl ⟨plain, (List.append_nil _).symm⟩))
  · refine ⟨_, same, ?_, consensusEncode_eq extended.complete⟩
    exact deserialize_eq_ok.mpr (consensusDecode_eq_ok.mpr
      (.inr ⟨segwit, mweb, presence, extended, (List.append_nil _).symm⟩))

theorem rewrites : Rewrites consensusEncode consensusDecodeFromFiniteReader strictDecode
    (fun _ : Transaction => True) where
  known _ := trivial
  rewritten {bytes tx rest} read := by
    obtain ⟨span, rfl, readSpan, emitted⟩ := span_of_read read
    obtain ⟨_, readWire, length⟩ := reread readSpan
    refine ⟨tx.wire, emitted, ?_, fun suffix => ?_, ?_⟩
    · rw [List.length_append, length]
    · exact decoderExtends (deserialize_eq_ok.mp readWire) suffix
    · have taken : (span ++ rest).take ((span ++ rest).length - rest.length) = span := by
        rw [List.length_append, Nat.add_sub_cancel, List.take_left]
      have written := serialize_deserialized_iff readSpan
      rw [emitted, serialize_written] at written
      rw [strictDecode, Decoder.inForm_eq_ok, taken, List.append_cancel_right_eq]
      rw [eq_comm (a := span), written]
      simp [read]
  sound {bytes result} read := (Decoder.inForm_eq_ok.mp read).1

end Transaction

namespace Block

/-- The extension behind the transactions, with a reader for its presence byte. -/
def decodeExtension (readPresent : Decoder Error Bool) (version : Int32)
    (txdata : List Transaction) : Decoder Error (Option MwebBlock) :=
  if blockCarriesMweb version txdata then do
    let present ← readPresent
    if present then some <$> MwebBlock.consensusDecodeFromFiniteReader else pure none
  else pure none

theorem decodeMwebBlock_eq (version : Int32) (txdata : List Transaction) :
    decodeMwebBlock version txdata = decodeExtension readBool version txdata := by
  funext bytes
  rw [decodeMwebBlock, decodeExtension]
  split
  · rw [readBool]
    change (readU8 >>= _) bytes = ((readU8 >>= fun byte => pure (byte != 0)) >>= _) bytes
    simp only [bind]
    cases readU8 bytes with
    | error e => rfl
    | ok result =>
      obtain ⟨present, rest⟩ := result
      by_cases zero : present = 0 <;> simp [pure, zero]
  · rfl

def strictDecode : Decoder Error Block := do
  let header ← Header.consensusDecodeFromFiniteReader
  let txdata ← decodeVec Transaction.strictDecode
  if (txdata.toList.take (txdata.toList.length - 1)).any (·.isHogEx) then
    Decoder.fail (.parseFailed "HogEx must be the last transaction")
  else do
    let mwebBlock ← decodeExtension strictBool header.version txdata.toList
    pure { header, txdata, mwebBlock }

def encodeExtension (mwebBlock : Option MwebBlock) : Emission IoError :=
  match mwebBlock with
  | some mw => encodeU8 1 ++ mw.consensusEncode
  | none => encodeU8 0

/-- The extension without its presence byte. -/
def encodeBody : Option MwebBlock → Emission IoError
  | some mw => mw.consensusEncode
  | none => .written []

theorem encodeExtension_eq (mwebBlock : Option MwebBlock) :
    encodeExtension mwebBlock = encodeBool mwebBlock.isSome ++ encodeBody mwebBlock := by
  cases mwebBlock with
  | none => rfl
  | some mw => rfl

variable [Secp256k1.Canonical]

theorem decodeExtension_rewrites (version : Int32) (txdata : List Transaction) :
    Rewrites (fun mwebBlock => .gated (blockCarriesMweb version txdata) (encodeExtension mwebBlock))
      (decodeExtension readBool version txdata) (decodeExtension strictBool version txdata)
      (fun _ => True) := by
  have body (present : Bool) (_ : True) : Rewrites encodeBody
      (if present then some <$> MwebBlock.consensusDecodeFromFiniteReader else pure none)
      (if present then some <$> MwebBlock.consensusDecodeFromFiniteReader else pure none)
      (fun mwebBlock => mwebBlock.isSome = present) := by
    refine .ite (fun here => ?_) fun absent => ?_
    · subst here
      refine Rewrites.map (.ofReads MwebBlock.reads fun mw valid => ?_) some fun mw _ => ⟨rfl, rfl⟩
      exact MwebBlock.consensusEncode_eq valid.complete
    · have nothing : Rewrites (fun _ => (.written [] : Emission IoError))
          (pure none : Decoder Error (Option MwebBlock)) (pure none)
          (fun mwebBlock => mwebBlock = none) := .done rfl
      refine nothing.weaken fun mwebBlock none => ?_
      subst none
      exact ⟨(Bool.eq_false_iff.mpr absent).symm, rfl⟩
  rw [decodeExtension, decodeExtension]
  cases blockCarriesMweb version txdata with
  | false => exact (Rewrites.done trivial).congr fun _ => rfl
  | true =>
    refine readBool_rewrites.bind body fun present mwebBlock _ some => ⟨trivial, ?_⟩
    rw [← some]
    exact encodeExtension_eq mwebBlock

theorem rewrites : Rewrites consensusEncode consensusDecodeFromFiniteReader strictDecode
    (fun _ : Block => True) := by
  have extension (header : Header) (txdata : Vec Transaction) : Rewrites
      (fun block : Block => .gated (blockCarriesMweb block.header.version block.txdata.toList)
        (encodeExtension block.mwebBlock))
      (if (txdata.toList.take (txdata.toList.length - 1)).any (·.isHogEx) then
          Decoder.fail (.parseFailed "HogEx must be the last transaction")
        else do
          let mwebBlock ← decodeMwebBlock header.version txdata.toList
          pure { header, txdata, mwebBlock })
      (if (txdata.toList.take (txdata.toList.length - 1)).any (·.isHogEx) then
          Decoder.fail (.parseFailed "HogEx must be the last transaction")
        else do
          let mwebBlock ← decodeExtension strictBool header.version txdata.toList
          pure { header, txdata, mwebBlock })
      (fun block => (True ∧ block.header = header) ∧ block.txdata = txdata) := by
    refine .ite (fun _ => .fail _) fun _ => ?_
    rw [decodeMwebBlock_eq]
    exact (decodeExtension_rewrites header.version txdata.toList).finish _ fun mwebBlock _ =>
      ⟨⟨⟨trivial, rfl⟩, rfl⟩, rfl⟩
  refine (Rewrites.field Block.header Header.codec.rewrites fun header _ =>
    .field Block.txdata (decodeVec_rewrites Transaction.rewrites) fun txdata _ =>
    extension header txdata).congr fun block => ?_
  rw [consensusEncode, Emission.append_assoc]
  rfl

end Block
end Litecoin.Blockdata
