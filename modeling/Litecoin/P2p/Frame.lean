import Litecoin.P2p.Message

/-! The frame around a payload: magic, command, length and checksum. -/
namespace Litecoin.P2p
open Wire Consensus Blockdata

namespace CommandString

/-- At most twelve ASCII characters, none of them NUL. -/
def Plain (text : String) : Prop :=
  text.toList.length ≤ 12 ∧ ∀ c ∈ text.toList, 0 < c.toNat ∧ c.toNat < 128

theorem plain_ofList {chars : List Char} (short : chars.length ≤ 12)
    (isAscii : (chars.all fun c => 0 < c.toNat && c.toNat < 128) = true) :
    Plain (String.ofList chars) := by
  rw [Plain, String.toList_ofList]
  simp only [List.all_eq_true, Bool.and_eq_true, decide_eq_true_eq] at isAscii
  exact ⟨short, isAscii⟩

theorem utf8EncodeChar_ascii {c : Char} (isAscii : c.toNat < 128) :
    String.utf8EncodeChar c = [c.val.toUInt8] := by
  refine String.utf8EncodeChar_eq_singleton (Char.utf8Size_eq_one_iff.mpr ?_)
  rw [UInt32.le_iff_toNat_le]
  exact Nat.le_of_lt_succ isAscii

theorem utf8_ascii {text : String} (isAscii : ∀ c ∈ text.toList, c.toNat < 128) :
    utf8 text = text.toList.map fun c => c.val.toUInt8 := by
  rw [utf8, List.map_eq_flatMap]
  exact List.flatMap_congr fun c member => utf8EncodeChar_ascii (isAscii c member)

/-- The command in a field of twelve bytes. -/
def wire (command : CommandString) : Bytes :=
  utf8 command.text ++ List.replicate (12 - (utf8 command.text).length) 0

theorem utf8_length {text : String} (plain : Plain text) : (utf8 text).length ≤ 12 := by
  rw [utf8_ascii fun c member => (plain.2 c member).2, List.length_map]
  exact plain.1

theorem wire_length {command : CommandString} (plain : Plain command.text) :
    command.wire.length = 12 := by
  have short := utf8_length plain
  rw [wire, List.length_append, List.length_replicate]
  omega

theorem consensusEncode_eq {command : CommandString} (plain : Plain command.text) :
    command.consensusEncode = .written command.wire := by
  rw [consensusEncode]
  exact (if_pos (utf8_length plain)).trans (Emission.counted_eq_written (wire_length plain).symm)

/-- A character as its byte, and the byte as a character again. -/
theorem char_of_byte {c : Char} (plain : 0 < c.toNat ∧ c.toNat < 128) :
    (if 0 < c.val.toUInt8 then some (Char.ofNat c.val.toUInt8.toNat) else none) = some c := by
  have number : c.val.toUInt8.toNat = c.toNat := by
    rw [UInt32.toNat_toUInt8]
    exact Nat.mod_eq_of_lt (plain.2.trans (by decide))
  have positive : 0 < c.val.toUInt8 := by
    rw [UInt8.lt_iff_toNat_lt, number]
    exact plain.1
  rw [if_pos positive, number, Char.ofNat_toNat]

theorem ofRawBytes_wire {command : CommandString} (plain : Plain command.text) :
    ofRawBytes command.wire = command := by
  obtain ⟨text⟩ := command
  have padding (n : Nat) : (List.replicate n (0 : UInt8)).filterMap
      (fun u => if 0 < u then some (Char.ofNat u.toNat) else none) = [] := by
    rw [List.filterMap_replicate_of_none rfl]
  have letters : (utf8 text).filterMap
      (fun u => if 0 < u then some (Char.ofNat u.toNat) else none) = text.toList := by
    rw [utf8_ascii fun c member => (plain.2 c member).2, List.filterMap_map]
    exact (List.filterMap_congr fun c member => char_of_byte (plain.2 c member)).trans List.filterMap_some
  rw [ofRawBytes, wire, List.filterMap_append, padding, letters, List.append_nil, String.ofList_toList]

end CommandString

section
variable [Secp256k1]

namespace NetworkMessage

/-- The commands that the decoder knows. -/
def knownCommands : List String :=
  ["version", "verack", "addr", "inv", "getdata", "notfound", "getblocks", "getheaders", "mempool",
   "block", "headers", "sendheaders", "getaddr", "ping", "pong", "merkleblock", "filterload",
   "filteradd", "filterclear", "tx", "getcfilters", "cfilter", "getcfheaders", "cfheaders",
   "getcfcheckpt", "cfcheckpt", "reject", "alert", "feefilter", "sendcmpct", "cmpctblock",
   "getblocktxn", "blocktxn", "wtxidrelay", "addrv2", "sendaddrv2"]

omit [Secp256k1] in
theorem plain_of_known : ∀ text ∈ knownCommands, CommandString.Plain text := by
  rw [knownCommands]
  iterate 36 refine List.forall_mem_cons.mpr ⟨CommandString.plain_ofList (by decide) rfl, ?_⟩
  exact List.forall_mem_nil _

theorem cmd_mem {message : NetworkMessage} (known : message.isUnknown = false) :
    message.cmd ∈ knownCommands := by
  cases message with
  | unknown _ _ => exact absurd known.symm Bool.false_ne_true
  | _ => simp only [cmd, knownCommands, List.mem_cons, String.reduceEq, true_or, or_true]

/-- The `expect` of `command` does not fail. -/
theorem command_known {message : NetworkMessage} (known : message.isUnknown = false) :
    message.command = .ok ⟨message.cmd⟩ := by
  have tried : message.command = CommandString.tryFromStatic message.cmd := by
    cases message with
    | unknown _ _ => exact absurd known.symm Bool.false_ne_true
    | _ => rfl
  have short := CommandString.utf8_length (plain_of_known _ (cmd_mem known))
  rw [tried, CommandString.tryFromStatic, if_neg (Nat.not_lt.mpr short)]

variable [Layout]

theorem decodePayload_unknown {text : String} (unknown : text ∉ knownCommands) :
    decodePayload text = none := by
  unfold decodePayload
  split
  all_goals first | rfl | exact absurd (by simp [knownCommands]) unknown

end NetworkMessage
end

/-- The four fields in front of a payload. -/
def frame (magic : ByteArr 4) (command : Bytes) (len : UInt32) (checksum : ByteArr 4)
    (payload : Bytes) : Bytes :=
  magic.val ++ (command ++ (littleEndian 4 len.toNat ++ (checksum.val ++ payload)))

/-- The bytes behind the fields of a frame. -/
def framePayload (bytes : Bytes) : Bytes := bytes.drop 24

/-- The length and the checksum that are written in front of a payload are its own. -/
def FieldsMatch [Hashes] (bytes : Bytes) : Prop :=
  24 ≤ bytes.length ∧
  fromLittleEndian ((bytes.drop 16).take 4) = (framePayload bytes).length ∧
  (bytes.drop 20).take 4 = (sha2Checksum (framePayload bytes)).val

section
variable {magic checksum : ByteArr 4} {command payload : Bytes} {len : UInt32}

theorem drop_frame (twelve : command.length = 12) :
    (frame magic command len checksum payload).drop 4 =
        command ++ (littleEndian 4 len.toNat ++ (checksum.val ++ payload)) ∧
      (frame magic command len checksum payload).drop 16 =
        littleEndian 4 len.toNat ++ (checksum.val ++ payload) ∧
      (frame magic command len checksum payload).drop 20 = checksum.val ++ payload ∧
      (frame magic command len checksum payload).drop 24 = payload := by
  have four : (littleEndian 4 len.toNat).length = 4 := littleEndian_length _ _
  have atCommand : (frame magic command len checksum payload).drop 4 =
      command ++ (littleEndian 4 len.toNat ++ (checksum.val ++ payload)) :=
    List.drop_left' magic.property
  have atLen : (frame magic command len checksum payload).drop (4 + 12) =
      littleEndian 4 len.toNat ++ (checksum.val ++ payload) := by
    rw [← List.drop_drop, atCommand, List.drop_left' twelve]
  have atChecksum : (frame magic command len checksum payload).drop (4 + 12 + 4) =
      checksum.val ++ payload := by
    rw [← List.drop_drop, atLen, List.drop_left' four]
  have atPayload : (frame magic command len checksum payload).drop (4 + 12 + 4 + 4) =
      payload := by
    rw [← List.drop_drop, atChecksum, List.drop_left' checksum.property]
  exact ⟨atCommand, atLen, atChecksum, atPayload⟩

theorem frame_length (twelve : command.length = 12) :
    (frame magic command len checksum payload).length = 24 + payload.length := by
  simp only [frame, List.length_append, magic.property, twelve, littleEndian_length,
    checksum.property]
  omega

theorem fieldsMatch_frame [Hashes] (twelve : command.length = 12) :
    FieldsMatch (frame magic command len checksum payload) ↔
      payload.length = len.toNat ∧ checksum = sha2Checksum payload := by
  obtain ⟨-, atLen, atChecksum, atPayload⟩ :=
    @drop_frame magic checksum command payload len twelve
  have four : (littleEndian 4 len.toNat).length = 4 := littleEndian_length _ _
  rw [FieldsMatch, framePayload, atLen, atChecksum, atPayload, List.take_left' four,
    List.take_left' checksum.property, fromLittleEndian_littleEndian len.toNat_lt,
    frame_length twelve, Subtype.ext_iff]
  constructor
  · rintro ⟨-, length, sum⟩
    exact ⟨length.symm, sum⟩
  · rintro ⟨length, sum⟩
    exact ⟨Nat.le_add_right _ _, length.symm, sum⟩

end

namespace RawNetworkMessage
variable [Secp256k1]

theorem encodeFrame_eq {raw : RawNetworkMessage} {command : CommandString} {image : Bytes}
    (plain : CommandString.Plain command.text)
    (written : raw.payload.consensusEncode = .written image) :
    raw.encodeFrame command =
      .written (frame raw.magic command.wire raw.payloadLen raw.checksum image) := by
  rw [encodeFrame, CommandString.consensusEncode_eq plain, (readExact_codec 4).emits,
    (readExact_codec 4).emits, readU32_codec.emits, written]
  simp only [Emission.written_append, frame, List.append_assoc]

theorem serialize_eq {raw : RawNetworkMessage} {command : CommandString} {image : Bytes}
    (named : raw.payload.command = .ok command) (plain : CommandString.Plain command.text)
    (written : raw.payload.consensusEncode = .written image) :
    serialize raw.consensusEncode =
      .ok (frame raw.magic command.wire raw.payloadLen raw.checksum image) := by
  rw [consensusEncode, named]
  exact (serialize_written _ _).mpr rfl |> (congrArg serialize (encodeFrame_eq plain written)).trans

variable [Layout] [Hashes]

/-- The frames that are accepted. -/
theorem consensusDecode_eq_ok {raw : RawNetworkMessage} :
    consensusDecodeFromFiniteReader bytes = .ok (raw, rest) ↔
      ∃ (command : ByteArr 12) (data : ByteVec),
        data.toList.length = raw.payloadLen.toNat ∧ raw.checksum = sha2Checksum data.toList ∧
        NetworkMessage.ofRawPayload (CommandString.ofRawBytes command.val) data = .ok raw.payload ∧
        bytes = frame raw.magic command.val raw.payloadLen raw.checksum (data.toList ++ rest) := by
  simp only [consensusDecodeFromFiniteReader, CommandString.consensusDecode, Decoder.bind_eq_ok,
    Decoder.pure_eq_ok, Decoder.ofExcept_eq_ok, (readExact_codec _).reads _ _ _,
    CheckedData.consensusDecode_eq_ok, true_and]
  constructor
  · rintro ⟨magic, _, rfl, _, _, ⟨command, _, rfl, rfl, rfl⟩, ⟨data, checksum⟩, _,
      ⟨len, length, valid, rfl⟩, payload, _, ⟨parsed, rfl⟩, rfl, rfl⟩
    have number : UInt32.ofNat data.toList.length = len := by rw [length, UInt32.ofNat_toNat]
    exact ⟨command, data, by rw [number, length], valid, parsed, by rw [number]; rfl⟩
  · rintro ⟨command, data, length, valid, parsed, rfl⟩
    refine ⟨raw.magic, _, rfl, _, _, ⟨command, _, rfl, rfl, rfl⟩, ⟨data, raw.checksum⟩, rest,
      ⟨raw.payloadLen, length, valid, rfl⟩, raw.payload, _, ⟨parsed, rfl⟩, ?_, rfl⟩
    rw [length, UInt32.ofNat_toNat]

end RawNetworkMessage
end Litecoin.P2p
