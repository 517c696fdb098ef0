import Litecoin.Mimblewimble.Format

/-! What the MWEB writer and reader say about each other. -/
namespace Litecoin.Mimblewimble
open Wire Consensus Secp256k1

section
variable [Secp256k1]

/-- A transaction read through either entry point is written back as the bytes that
were consumed, and those bytes end where the reader stopped. -/
theorem transaction_canonical [Canonical] {d : Decoder Error Transaction}
    {bytes rest : Bytes} {tx : Transaction}
    (entry : d = Transaction.consensusDecodeFromFiniteReader ∨
      d = consensusDecode Transaction.consensusDecodeFromFiniteReader)
    (read : d bytes = .ok (tx, rest)) :
    ∃ image, tx.consensusEncode = .ok (image.length, image) ∧ bytes = image ++ rest ∧
      ∀ suffix, d (image ++ suffix) = .ok (tx, suffix) := by
  obtain ⟨Valid, reads, valid⟩ : ∃ Valid : Transaction → Prop,
      Reads d Transaction.wire Valid ∧ ∀ tx, Valid tx → tx.Valid := by
    obtain rfl | rfl := entry
    · exact ⟨_, Transaction.reads, fun _ valid => valid⟩
    · exact ⟨_, Transaction.reads.take maxVecSize, fun _ valid => valid.1⟩
  obtain ⟨accepted, consumed⟩ := (reads _ _ _).mp read
  exact ⟨tx.wire, Transaction.consensusEncode_eq (valid tx accepted).body.complete, consumed,
    reads.read accepted⟩

end

/-- An input, an output and a kernel with all that their feature bytes can announce. -/
def fullTransaction : @Transaction generatorOnly :=
  letI := generatorOnly
  { kernelOffset := .filled 32 0
    stealthOffset := .filled 32 0
    body := {
      inputs := ⟨[{
        features := 3, outputId := .filled 32 0, commitment := .filled 33 0, inputPublicKey := some ()
        outputPublicKey := (), extraData := ⟨[0xaa, 0xbb], by decide⟩, signature := .filled 64 0 }],
        by decide⟩
      outputs := ⟨[{
        commitment := .filled 33 0, senderPublicKey := (), receiverPublicKey := ()
        message := {
          features := 3
          standardFields := some {
            keyExchangePubkey := (), viewTag := 7, maskedValue := 258, maskedNonce := .filled 16 0 }
          extraData := ⟨[0xcc], by decide⟩ }
        rangeProof := .filled 675 0, signature := .filled 64 0 }], by decide⟩
      kernels := ⟨[{
        features := 0x3f, fee := some 300, pegin := some 7
        pegouts := .singleton { amount := 9, scriptPubKey := .singleton 0x51 }
        lockHeight := some 10, stealthExcess := some (), extraData := ⟨[0xdd], by decide⟩
        excess := .filled 33 0, signature := .filled 64 0 }], by decide⟩ } }

def fullBytes : Bytes :=
  let key := generatorCompressed.val
  let input := [3] ++ List.replicate 65 0 ++ key ++ key ++ [2, 0xaa, 0xbb] ++ List.replicate 64 0
  let output := List.replicate 33 0 ++ key ++ key ++ [3] ++ key ++ [7, 2, 1, 0, 0, 0, 0, 0, 0] ++
    List.replicate 16 0 ++ [1, 0xcc] ++ List.replicate 739 0
  let kernel := [0x3f, 0x81, 0x2c, 7, 1, 9, 1, 0x51, 10] ++ key ++ [1, 0xdd] ++ List.replicate 97 0
  List.replicate 64 0 ++ [1] ++ input ++ [1] ++ output ++ [1] ++ kernel

theorem fullTransaction_read :
    consensusDecode (@Transaction.consensusDecodeFromFiniteReader generatorOnly) (fullBytes ++ [7]) =
      .ok (fullTransaction, [7]) := by
  decide +kernel

theorem transaction_canonical_full :
    ∃ image, @Transaction.consensusEncode generatorOnly fullTransaction =
        .ok (image.length, image) ∧ fullBytes ++ [7] = image ++ [7] ∧
      ∀ suffix, consensusDecode (@Transaction.consensusDecodeFromFiniteReader generatorOnly)
        (image ++ suffix) = .ok (fullTransaction, suffix) :=
  letI := generatorOnly
  haveI := generatorOnly_lawful
  transaction_canonical (.inr rfl) fullTransaction_read

/-- No inputs, no outputs and one kernel without features. -/
def minimalBytes : Bytes := List.replicate 66 0 ++ [1] ++ List.replicate 98 0

def minimalKernel : @Kernel generatorOnly :=
  letI := generatorOnly
  { features := 0, fee := none, pegin := none, pegouts := .empty, lockHeight := none,
    stealthExcess := none, extraData := .empty, excess := .filled 33 0, signature := .filled 64 0 }

def minimalTransaction : @Transaction generatorOnly :=
  letI := generatorOnly
  { kernelOffset := .filled 32 0
    stealthOffset := .filled 32 0
    body := { inputs := .empty, outputs := .empty, kernels := ⟨[minimalKernel], by decide⟩ } }

theorem minimalBytes_read : @Transaction.consensusDecodeFromFiniteReader generatorOnly minimalBytes =
    .ok (minimalTransaction, []) := by
  decide +kernel

end Litecoin.Mimblewimble
