import Litecoin.P2p.Frame

/-! Messages that are framed, written, read and unframed again. -/
namespace Litecoin.P2p
open Wire Consensus Blockdata
open Bip152 (HeaderAndShortIds)

/-- `deserialize(serialize(a))` returns `a`. -/
def RoundTrips (emit : α → Emission IoError) (d : Decoder Error α) (a : α) : Prop :=
  ∃ bytes, serialize (emit a) = .ok bytes ∧ deserialize d bytes = .ok a

theorem RoundTrips.written {emit : α → Emission IoError} {d : Decoder Error α}
    (back : RoundTrips emit d a) (counts : (emit a).Counts) :
    ∃ bytes, emit a = .written bytes ∧ d bytes = .ok (a, []) := by
  obtain ⟨bytes, emitted, read⟩ := back
  obtain ⟨count, emitted⟩ := Emission.toBytes_eq_ok.mp emitted
  exact ⟨bytes, counts.written_of_ok emitted, deserialize_eq_ok.mp read⟩

/-- A value that is read at all is written with the right count. -/
theorem RoundTrips.rewritten {emit : α → Emission IoError} {d strict : Decoder Error α}
    {Known : α → Prop} (back : RoundTrips emit d a) (rewrites : Rewrites emit d strict Known) :
    ∃ bytes, emit a = .written bytes ∧ d bytes = .ok (a, []) := by
  refine back.written ?_
  obtain ⟨bytes, _, read⟩ := back
  obtain ⟨image, rewritten⟩ := rewrites.rewritten (deserialize_eq_ok.mp read)
  rw [rewritten.emitted]
  exact Emission.counts_written _

theorem decodeHeader_codec : Codec encodeHeader decodeHeader (fun header => header.wire ++ [0]) where
  emits header := by
    rw [encodeHeader, Header.codec.emits, readU8_codec.emits, Emission.written_append]
    rfl
  reads := by
    have length (header : Header) : header.wire.length ≤ maxVecSize := by
      simp [Header.wire, maxVecSize, header.prevBlockhash.property, header.merkleRoot.property]
    intro bytes header rest
    simp only [decodeHeader, Consensus.consensusDecode, Decoder.bind_eq_ok, Decoder.ite_eq_ok,
      Decoder.fail_eq_ok, Decoder.pure_eq_ok, Header.codec.reads.take maxVecSize _ _ _,
      readU8_codec.reads _ _ _, littleEndian_one, length, true_and, and_false, false_or, ne_eq,
      Decidable.not_not]
    constructor
    · rintro ⟨_, _, rfl, _, _, rfl, rfl, rfl, rfl⟩
      rw [List.append_assoc]
    · rintro rfl
      exact ⟨header, _, List.append_assoc _ _ _, 0, rest, rfl, rfl, rfl, rfl⟩

theorem counts_encodeList {emit : α → Emission IoError} (counts : ∀ a, (emit a).Counts)
    (values : List α) : (encodeList emit values).Counts :=
  (VarInt.codec.counts _).append (.each counts _)

theorem bytesWire_ne (data : ByteVec) : bytesWire data ≠ data.toList := by
  intro same
  have lengths := congrArg List.length same
  have positive := VarInt.wire_length_pos data.len
  rw [bytesWire, List.length_append] at lengths
  omega

theorem inventories_counts (items : Vec Inventory) :
    (encodeVec Inventory.consensusEncode items).Counts :=
  counts_encodeVec (fun item => by
    rw [Inventory.consensusEncode_eq]
    exact Emission.counts_written _) items

/-- Every header is read back from the message that lists it. -/
theorem headers_written (headers : Vec Header) : ∃ bytes,
    encodeVec encodeHeader headers = .written bytes ∧
      decodeVec decodeHeader bytes = .ok (headers, []) :=
  ⟨_, encodeVec_eq fun header _ => decodeHeader_codec.emits header,
    (decodeVec_reads decodeHeader_codec.reads).read_all fun _ _ => trivial⟩

section
variable [Secp256k1]

theorem counts_transaction (tx : Transaction) : tx.consensusEncode.Counts := by
  intro count bytes emitted
  have written := Transaction.consensusEncode_eq_ok emitted
  rw [emitted, Emission.written, Except.ok.injEq, Prod.mk.injEq] at written
  rw [written.1, written.2]

theorem counts_block (block : Block) : block.consensusEncode.Counts := by
  refine ((Header.codec.counts _).append (counts_encodeVec counts_transaction _)).append (.gated ?_ _)
  cases block.mwebBlock with
  | none => exact readU8_codec.counts _
  | some mw =>
    refine (readU8_codec.counts _).append ?_
    refine (MwebBlockHeader.codec.counts _).append ?_
    intro count bytes emitted
    have written := Mimblewimble.TxBody.consensusEncode_eq (Mimblewimble.TxBody.complete_of_encoded emitted)
    rw [emitted, Emission.written, Except.ok.injEq, Prod.mk.injEq] at written
    rw [written.1, written.2]

theorem counts_cmpctBlock (block : HeaderAndShortIds) : (encodeCmpctBlock block).Counts := by
  have prefilled (prefilled : Bip152.PrefilledTransaction) : (encodePrefilled prefilled).Counts :=
    (VarInt.codec.counts _).append (counts_transaction _)
  have start := (Header.codec.counts block.header).append (readU64_codec.counts block.nonce)
  have shortIds := counts_encodeList (readExact_codec 6).counts block.shortIds
  exact (start.append shortIds).append (counts_encodeList prefilled block.prefilledTxs)

theorem counts_blockTxn (message : BlockTransactions) : message.consensusEncode.Counts :=
  ((readExact_codec 32).counts _).append (counts_encodeVec counts_transaction _)

end

namespace NetworkMessage
variable [Secp256k1] [Layout]

/-- The payload is read back by the codec of its own type. -/
def PayloadRoundTrips : NetworkMessage → Prop
  | .version dat =>
    RoundTrips VersionMessage.consensusEncode VersionMessage.consensusDecodeFromFiniteReader dat
  | .addr dat => RoundTrips (encodeVec encodeTimed) (decodeVec readTimed) dat
  | .inv dat | .getData dat | .notFound dat =>
    RoundTrips (encodeVec Inventory.consensusEncode) (decodeVec Inventory.consensusDecode) dat
  | .getBlocks dat | .getHeaders dat =>
    RoundTrips GetBlocksMessage.consensusEncode GetBlocksMessage.consensusDecodeFromFiniteReader dat
  | .tx dat => RoundTrips Transaction.consensusEncode Transaction.consensusDecodeFromFiniteReader dat
  | .block dat => RoundTrips Block.consensusEncode Block.consensusDecodeFromFiniteReader dat
  | .headers dat =>
    RoundTrips (encodeVec Header.consensusEncode) (decodeVec Header.consensusDecodeFromFiniteReader) dat
  | .ping dat | .pong dat => RoundTrips encodeU64 readU64 dat
  | .merkleBlock dat => RoundTrips MerkleBlock.consensusEncode MerkleBlock.consensusDecode dat
  | .filterLoad dat =>
    RoundTrips FilterLoad.consensusEncode FilterLoad.consensusDecodeFromFiniteReader dat
  | .filterAdd dat =>
    RoundTrips FilterAdd.consensusEncode FilterAdd.consensusDecodeFromFiniteReader dat
  | .getCFilters dat | .getCFHeaders dat =>
    RoundTrips GetCFilters.consensusEncode GetCFilters.consensusDecodeFromFiniteReader dat
  | .cFilter dat => RoundTrips CFilter.consensusEncode CFilter.consensusDecodeFromFiniteReader dat
  | .cFHeaders dat =>
    RoundTrips CFHeaders.consensusEncode CFHeaders.consensusDecodeFromFiniteReader dat
  | .getCFCheckpt dat =>
    RoundTrips GetCFCheckpt.consensusEncode GetCFCheckpt.consensusDecodeFromFiniteReader dat
  | .cFCheckpt dat =>
    RoundTrips CFCheckpt.consensusEncode CFCheckpt.consensusDecodeFromFiniteReader dat
  | .sendCmpct dat =>
    RoundTrips SendCmpct.consensusEncode SendCmpct.consensusDecodeFromFiniteReader dat
  | .cmpctBlock dat =>
    RoundTrips encodeCmpctBlock (decodeCmpctBlock Transaction.consensusDecodeFromFiniteReader) dat
  | .getBlockTxn dat =>
    RoundTrips BlockTransactionsRequest.consensusEncode BlockTransactionsRequest.consensusDecode dat
  | .blockTxn dat => RoundTrips BlockTransactions.consensusEncode
      (decodeBlockTxn Transaction.consensusDecodeFromFiniteReader) dat
  | .alert dat => RoundTrips encodeWithSize decodeBytes dat
  | .reject dat => RoundTrips Reject.consensusEncode Reject.consensusDecodeFromFiniteReader dat
  | .feeFilter dat => RoundTrips encodeI64 readI64 dat
  | .addrV2 dat =>
    RoundTrips (encodeVec AddrV2Message.consensusEncode) (decodeVec AddrV2Message.consensusDecode) dat
  | .verack | .memPool | .sendHeaders | .getAddr | .filterClear | .wtxidRelay | .sendAddrV2
  | .unknown _ _ => True

/-- The arm of the decoder for the command of a message reads what its arm of the encoder
writes. -/
def ArmsAgree (message : NetworkMessage) : Prop :=
  ∃ image d, message.consensusEncode = .written image ∧ decodePayload message.cmd = some d ∧
    d image = .ok (message, [])

theorem armsAgree_of {emit : α → Emission IoError} {d : Decoder Error α} {a : α}
    (make : α → NetworkMessage) (written : ∃ bytes, emit a = .written bytes ∧ d bytes = .ok (a, []))
    (encoder : (make a).consensusEncode = emit a)
    (decoder : decodePayload (make a).cmd = some (make <$> d)) : (make a).ArmsAgree := by
  obtain ⟨bytes, emitted, read⟩ := written
  exact ⟨bytes, _, by rw [encoder, emitted], decoder, Decoder.map_eq_ok.mpr ⟨a, read, rfl⟩⟩

theorem armsAgree_bare {message : NetworkMessage} (encoder : message.consensusEncode = .written [])
    (decoder : decodePayload message.cmd = some (pure message)) : message.ArmsAgree :=
  ⟨[], _, encoder, decoder, rfl⟩

theorem armsAgree {message : NetworkMessage} (known : message.isUnknown = false)
    (back : message.PayloadRoundTrips) : message.ArmsAgree := by
  cases message with
  | version dat => exact armsAgree_of .version (back.rewritten VersionMessage.rewrites) rfl rfl
  | addr dat =>
    exact armsAgree_of .addr (back.rewritten (decodeVec_rewrites readTimed_rewrites)) rfl rfl
  | inv dat => exact armsAgree_of .inv (back.written (inventories_counts dat)) rfl rfl
  | getData dat => exact armsAgree_of .getData (back.written (inventories_counts dat)) rfl rfl
  | notFound dat => exact armsAgree_of .notFound (back.written (inventories_counts dat)) rfl rfl
  | getBlocks dat => exact armsAgree_of .getBlocks (back.rewritten GetBlocksMessage.rewrites) rfl rfl
  | getHeaders dat => exact armsAgree_of .getHeaders (back.rewritten GetBlocksMessage.rewrites) rfl rfl
  | tx dat => exact armsAgree_of .tx (back.written (counts_transaction dat)) rfl rfl
  | block dat => exact armsAgree_of .block (back.written (counts_block dat)) rfl rfl
  | headers dat => exact armsAgree_of .headers (headers_written dat) rfl rfl
  | ping dat => exact armsAgree_of .ping (back.rewritten readU64_codec.rewrites) rfl rfl
  | pong dat => exact armsAgree_of .pong (back.rewritten readU64_codec.rewrites) rfl rfl
  | merkleBlock dat => exact armsAgree_of .merkleBlock (back.rewritten MerkleBlock.rewrites) rfl rfl
  | filterLoad dat => exact armsAgree_of .filterLoad (back.rewritten FilterLoad.rewrites) rfl rfl
  | filterAdd dat => exact armsAgree_of .filterAdd (back.rewritten FilterAdd.rewrites) rfl rfl
  | getCFilters dat => exact armsAgree_of .getCFilters (back.rewritten GetCFilters.rewrites) rfl rfl
  | cFilter dat => exact armsAgree_of .cFilter (back.rewritten CFilter.rewrites) rfl rfl
  | getCFHeaders dat => exact armsAgree_of .getCFHeaders (back.rewritten GetCFilters.rewrites) rfl rfl
  | cFHeaders dat => exact armsAgree_of .cFHeaders (back.rewritten CFHeaders.rewrites) rfl rfl
  | getCFCheckpt dat => exact armsAgree_of .getCFCheckpt (back.rewritten GetCFCheckpt.rewrites) rfl rfl
  | cFCheckpt dat => exact armsAgree_of .cFCheckpt (back.rewritten CFCheckpt.rewrites) rfl rfl
  | sendCmpct dat => exact armsAgree_of .sendCmpct (back.rewritten SendCmpct.rewrites) rfl rfl
  | cmpctBlock dat => exact armsAgree_of .cmpctBlock (back.written (counts_cmpctBlock dat)) rfl rfl
  | getBlockTxn dat =>
    exact armsAgree_of .getBlockTxn (back.rewritten BlockTransactionsRequest.rewrites) rfl rfl
  | blockTxn dat => exact armsAgree_of .blockTxn (back.written (counts_blockTxn dat)) rfl rfl
  | alert dat => exact armsAgree_of .alert (back.rewritten bytes_codec.rewrites) rfl rfl
  | reject dat => exact armsAgree_of .reject (back.rewritten Reject.rewrites) rfl rfl
  | feeFilter dat => exact armsAgree_of .feeFilter (back.rewritten readI64_codec.rewrites) rfl rfl
  | addrV2 dat =>
    exact armsAgree_of .addrV2 (back.rewritten (decodeVec_rewrites AddrV2Message.rewrites)) rfl rfl
  | verack | sendHeaders | memPool | getAddr | wtxidRelay | filterClear | sendAddrV2 =>
    exact armsAgree_bare rfl rfl
  | unknown command payload => exact absurd known.symm Bool.false_ne_true

/-- The command of an unknown message fits its field and is not known. -/
def WellNamed : NetworkMessage → Prop
  | .unknown command _ => CommandString.Plain command.text ∧ command.text ∉ knownCommands
  | _ => True

variable [Hashes]

/-- `deserialize(serialize(RawNetworkMessage::new(magic, message)))` returns the frame, and
the length and the checksum in it are those of the payload behind them. -/
def FrameRoundTrips (magic : ByteArr 4) (message : NetworkMessage) : Prop :=
  ∃ raw bytes, RawNetworkMessage.new magic message = some raw ∧
    serialize raw.consensusEncode = .ok bytes ∧ FieldsMatch bytes ∧
    deserialize RawNetworkMessage.consensusDecodeFromFiniteReader bytes = .ok raw

omit [Layout] in
/-- The frame that is made of a payload, and what is written of it. -/
theorem new_written (magic : ByteArr 4) {message : NetworkMessage} {command : CommandString}
    (named : message.command = .ok command) (plain : CommandString.Plain command.text)
    (written : message.consensusEncode = .written image) (short : 24 + image.length ≤ maxMsgSize) :
    ∃ raw : RawNetworkMessage, RawNetworkMessage.new magic message = some raw ∧
      raw.payload = message ∧ image.length = raw.payloadLen.toNat ∧
      raw.checksum = sha2Checksum image ∧
      serialize raw.consensusEncode =
        .ok (frame raw.magic command.wire raw.payloadLen raw.checksum image) := by
  have fits : image.length < 2 ^ 32 := by
    rw [maxMsgSize] at short
    omega
  refine ⟨⟨magic, message, UInt32.ofNat image.length, sha2Checksum image⟩, ?_, rfl, ?_, rfl, ?_⟩
  · rw [RawNetworkMessage.new, written]
    exact if_pos fits
  · exact (UInt32.toNat_ofNat_of_lt' fits).symm
  · exact RawNetworkMessage.serialize_eq named plain written

/-- What the decoder makes of a frame around `image`. -/
theorem deserialize_frame {raw : RawNetworkMessage} {command : CommandString} {image : Bytes}
    (plain : CommandString.Plain command.text) (length : image.length = raw.payloadLen.toNat)
    (checksum : raw.checksum = sha2Checksum image) :
    deserialize RawNetworkMessage.consensusDecodeFromFiniteReader
        (frame raw.magic command.wire raw.payloadLen raw.checksum image) = .ok raw ↔
      ∀ fits : image.length < 2 ^ 64, ofRawPayload command ⟨image, fits⟩ = .ok raw.payload := by
  have twelve := CommandString.wire_length plain
  rw [deserialize_eq_ok, RawNetworkMessage.consensusDecode_eq_ok]
  constructor
  · rintro ⟨command', data, -, -, parsed, same⟩ fits
    rw [List.append_nil] at same
    have payloads := congrArg (List.drop 24) same
    have commands := congrArg (fun bytes => (bytes.drop 4).take 12) same
    simp only [(drop_frame twelve).1, (drop_frame command'.property).1, List.take_left' twelve,
      List.take_left' command'.property] at commands
    rw [(drop_frame twelve).2.2.2, (drop_frame command'.property).2.2.2] at payloads
    rw [← commands, CommandString.ofRawBytes_wire plain] at parsed
    rwa [show (⟨image, fits⟩ : ByteVec) = data from Vec.ext payloads]
  · intro parsed
    have fits : image.length < 2 ^ 64 := by
      rw [length]
      exact raw.payloadLen.toNat_lt.trans (by decide)
    refine ⟨⟨command.wire, twelve⟩, ⟨image, fits⟩, length, checksum, ?_, by rw [List.append_nil]⟩
    rw [CommandString.ofRawBytes_wire plain]
    exact parsed fits

/-- Exactly the known messages come back; an unknown payload is written behind its length,
and the length is read as part of it. -/
theorem frame_roundTrips_iff (magic : ByteArr 4) (message : NetworkMessage)
    (payload : message.PayloadRoundTrips) (named : message.WellNamed)
    (size : ∀ count image, message.consensusEncode = .ok (count, image) →
      24 + image.length ≤ maxMsgSize) :
    FrameRoundTrips magic message ↔ message.isUnknown = false := by
  constructor
  · intro back
    cases message with
    | unknown command data =>
      obtain ⟨plain, unknown⟩ := named
      have written : (NetworkMessage.unknown command data).consensusEncode = _ :=
        encodeWithSize_eq data
      obtain ⟨raw, made, content, length, checksum, serialized⟩ :=
        new_written magic rfl plain written (size _ _ written)
      obtain ⟨raw', bytes, made', serialized', -, read⟩ := back
      obtain rfl := Option.some.inj (made.symm.trans made')
      obtain rfl := Except.ok.inj (serialized.symm.trans serialized')
      have fits : (bytesWire data).length < 2 ^ 64 := by
        rw [length]
        exact raw.payloadLen.toNat_lt.trans (by decide)
      have parsed := (deserialize_frame plain length checksum).mp read fits
      rw [ofRawPayload, decodePayload_unknown unknown, content] at parsed
      have payloads := (NetworkMessage.unknown.inj (Except.ok.inj parsed)).2
      exact absurd (congrArg Vec.toList payloads) (bytesWire_ne data)
    | _ => rfl
  · intro known
    obtain ⟨image, d, written, arm, read⟩ := armsAgree known payload
    have plain : CommandString.Plain (CommandString.mk message.cmd).text :=
      plain_of_known _ (cmd_mem known)
    obtain ⟨raw, made, rfl, length, checksum, serialized⟩ :=
      new_written magic (command_known known) plain written (size _ _ written)
    refine ⟨raw, _, made, serialized, ?_, ?_⟩
    · exact (fieldsMatch_frame (CommandString.wire_length plain)).mpr ⟨length, checksum⟩
    · refine (deserialize_frame plain length checksum).mpr fun fits => ?_
      rw [ofRawPayload, CommandString.text, arm]
      exact congrArg (Except.map Prod.fst) read

end NetworkMessage

/-! A ping and two hostile payloads, with their hashes. -/
namespace Sample

@[reducible] def hashes : Hashes :=
  { Hashes.ofEmpty with
    sha256d := fun bytes =>
      if bytes = [15, 0, 0, 0, 0, 0, 0, 0] then
        ⟨[0x05, 0x44, 0x1d, 0xc7, 0x3a, 0x00, 0xf9, 0xac, 0x04, 0xbb, 0xff, 0x9c, 0xb6, 0xbe, 0x72,
          0x5b, 0x25, 0xd3, 0x19, 0xb7, 0xaf, 0xda, 0x6b, 0x02, 0x33, 0x95, 0xe7, 0xd0, 0x72, 0x62,
          0xe1, 0xce], rfl⟩
      else if bytes = [3, 1, 2, 3] then
        ⟨[0xdc, 0x35, 0xc9, 0xaa, 0xd1, 0xe8, 0xf5, 0xc1, 0x21, 0x4f, 0x7e, 0xe4, 0x2c, 0x6e, 0xdb,
          0x5f, 0xef, 0x7e, 0xfd, 0x58, 0xab, 0x5d, 0x02, 0xcb, 0xcd, 0xbb, 0x51, 0x37, 0xc7, 0x22,
          0xfd, 0x67], rfl⟩
      else if bytes = [7] then
        ⟨[0xb6, 0xd5, 0x8d, 0xfa, 0x65, 0x47, 0xc1, 0xeb, 0x7f, 0x0d, 0x4f, 0xfd, 0x3e, 0x3b, 0xd6,
          0x45, 0x22, 0x13, 0x21, 0x0e, 0xa5, 0x1b, 0xaa, 0x70, 0xb9, 0x7c, 0x31, 0xf0, 0x11, 0x18,
          0x72, 0x15], rfl⟩
      else Hashes.ofEmpty.sha256d bytes }

attribute [local instance] Secp256k1.generatorOnly hashes Layout.wide

def magic : ByteArr 4 := ⟨[57, 0, 0, 0], rfl⟩

def foo : NetworkMessage := .unknown ⟨"foo"⟩ ⟨[1, 2, 3], by decide⟩

theorem ping_frameRoundTrips : NetworkMessage.FrameRoundTrips magic (.ping 15) := by
  have back : RoundTrips encodeU64 readU64 15 := ⟨[15, 0, 0, 0, 0, 0, 0, 0], rfl, rfl⟩
  refine (NetworkMessage.frame_roundTrips_iff magic (.ping 15) back trivial ?_).mpr rfl
  intro count image written
  obtain ⟨rfl, rfl⟩ := Prod.mk.inj (Except.ok.inj written)
  decide

/-- The length in front of the payload of `foo` becomes a part of it. -/
theorem foo_not_frameRoundTrips :
    ¬∀ (magic : ByteArr 4) (message : NetworkMessage), message.PayloadRoundTrips → message.WellNamed →
      (∀ count image, message.consensusEncode = .ok (count, image) → 24 + image.length ≤ maxMsgSize) →
      NetworkMessage.FrameRoundTrips magic message := by
  intro law
  have named : foo.WellNamed :=
    ⟨CommandString.plain_ofList (by decide) rfl, by simp [NetworkMessage.knownCommands]⟩
  obtain ⟨raw, bytes, made, written, -, read⟩ := law magic foo trivial named fun count image written => by
    obtain ⟨rfl, rfl⟩ := Prod.mk.inj (Except.ok.inj written)
    decide
  obtain rfl := Option.some.inj made
  obtain rfl := Except.ok.inj written
  exact absurd read (by decide)

end Sample
end Litecoin.P2p
