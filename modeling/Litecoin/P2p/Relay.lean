import Litecoin.P2p.RoundTrip

/-! Frames that are received and sent on. -/
namespace Litecoin.P2p
open Wire Consensus Blockdata

theorem CommandString.consensusEncode_length {command : CommandString}
    (emitted : command.consensusEncode = .ok (count, bytes)) : bytes.length = 12 := by
  rw [consensusEncode] at emitted
  split at emitted
  · obtain ⟨-, rfl⟩ := Prod.mk.inj (Except.ok.inj emitted)
    rw [List.length_append, List.length_replicate]
    omega
  · contradiction

namespace NetworkMessage
variable [Secp256k1] [Layout]

/-- Reads a payload only in the form its message is written in. Inventories are not here. -/
def strictPayload (command : String) : Option (Decoder Error NetworkMessage) :=
  match command with
  | "version" => some (.version <$> VersionMessage.strictDecode)
  | "block" => some (.block <$> Block.strictDecode)
  | "tx" => some (.tx <$> Transaction.strictDecode)
  | "sendcmpct" => some (.sendCmpct <$> SendCmpct.strictDecode)
  | "cmpctblock" => some (.cmpctBlock <$> decodeCmpctBlock Transaction.strictDecode)
  | "blocktxn" => some (.blockTxn <$> decodeBlockTxn Transaction.strictDecode)
  | _ => decodePayload command

def inventories : List String := ["inv", "getdata", "notfound"]

/-- An inventory of which the error items come last, with their hashes behind them. -/
def canonicalInventory (payload : Bytes) : Bool :=
  match decodeVec Inventory.consensusDecode payload with
  | .ok (items, rest) => decide (Inventory.TrailingErrors items.toList rest)
  | .error _ => false

/-- The payload has the form in which the message in it is written. -/
def canonical (command : String) (payload : Bytes) : Bool :=
  if command ∈ inventories then canonicalInventory payload
  else match strictPayload command with
    | some strict => (deserialize strict payload).isOk
    | none => false

/-- A known command and what is written of a message that was read from its payload. -/
structure Reemitted (command : String) (payload : Bytes) (message : NetworkMessage)
    (image : Bytes) : Prop where
  cmd : message.cmd = command
  known : message.isUnknown = false
  emitted : message.consensusEncode = .written image
  canonical_iff : canonical command payload = true ↔ payload = image

theorem Reemitted.image_unique (first : Reemitted text payload message image)
    (second : Reemitted text' payload' message image') : image = image' := by
  have same := first.emitted.symm.trans second.emitted
  exact (Prod.mk.inj (Except.ok.inj same)).2

/-- Only commands that the decoder knows have a written form. -/
theorem arm_of_canonical {text : String} (formed : canonical text bytes = true) :
    ∃ d, decodePayload text = some d := by
  rw [canonical] at formed
  split at formed
  · rename_i member
    obtain rfl | rfl | rfl : text = "inv" ∨ text = "getdata" ∨ text = "notfound" := by
      simpa only [inventories, List.mem_cons, List.not_mem_nil, or_false] using member
    all_goals exact ⟨_, rfl⟩
  · split at formed
    · rename_i strict arm
      unfold strictPayload at arm
      split at arm
      all_goals first | exact ⟨_, rfl⟩ | exact ⟨_, arm⟩
    · contradiction

/-- An arm of the decoder beside its strict arm. -/
def ArmRewrites (command : String) (d : Decoder Error NetworkMessage) : Prop :=
  ∃ strict, strictPayload command = some strict ∧
    Rewrites NetworkMessage.consensusEncode d strict
      (fun message => message.cmd = command ∧ message.isUnknown = false)

variable {text : String}

theorem armRewrites_of {emit : α → Emission IoError} {d strict : Decoder Error α} {Known : α → Prop}
    (make : α → NetworkMessage) (rewrites : Rewrites emit d strict Known)
    (arm : strictPayload text = some (make <$> strict))
    (same : ∀ a, ((make a).cmd = text ∧ (make a).isUnknown = false) ∧
      (make a).consensusEncode = emit a) : ArmRewrites text (make <$> d) :=
  ⟨_, arm, rewrites.map make fun a _ => same a⟩

theorem armRewrites_bare {message : NetworkMessage} (arm : strictPayload text = some (pure message))
    (known : message.cmd = text ∧ message.isUnknown = false)
    (empty : message.consensusEncode = .written []) : ArmRewrites text (pure message) := by
  have nothing : Rewrites (fun _ => (.written [] : Emission IoError))
    (pure message : Decoder Error NetworkMessage) (pure message) (fun m => m = message) := .done rfl
  refine ⟨_, arm, nothing.weaken ?_⟩
  rintro _ rfl
  exact ⟨known, empty⟩

variable [Secp256k1.Canonical]

theorem armRewrites {d : Decoder Error NetworkMessage} (arm : decodePayload text = some d)
    (other : text ∉ inventories) : ArmRewrites text d := by
  unfold decodePayload at arm
  split at arm
  all_goals try obtain rfl := Option.some.inj arm
  · exact armRewrites_of .version VersionMessage.rewrites rfl fun _ => ⟨⟨rfl, rfl⟩, rfl⟩
  · exact armRewrites_bare rfl ⟨rfl, rfl⟩ rfl
  · exact armRewrites_of .addr (decodeVec_rewrites readTimed_rewrites) rfl
      fun _ => ⟨⟨rfl, rfl⟩, rfl⟩
  · exact absurd (by decide) other
  · exact absurd (by decide) other
  · exact absurd (by decide) other
  · exact armRewrites_of .getBlocks GetBlocksMessage.rewrites rfl fun _ => ⟨⟨rfl, rfl⟩, rfl⟩
  · exact armRewrites_of .getHeaders GetBlocksMessage.rewrites rfl fun _ => ⟨⟨rfl, rfl⟩, rfl⟩
  · exact armRewrites_bare rfl ⟨rfl, rfl⟩ rfl
  · exact armRewrites_of .block Block.rewrites rfl fun _ => ⟨⟨rfl, rfl⟩, rfl⟩
  · exact armRewrites_of .headers (decodeVec_rewrites decodeHeader_codec.rewrites) rfl
      fun _ => ⟨⟨rfl, rfl⟩, rfl⟩
  · exact armRewrites_bare rfl ⟨rfl, rfl⟩ rfl
  · exact armRewrites_bare rfl ⟨rfl, rfl⟩ rfl
  · exact armRewrites_of .ping readU64_codec.rewrites rfl fun _ => ⟨⟨rfl, rfl⟩, rfl⟩
  · exact armRewrites_of .pong readU64_codec.rewrites rfl fun _ => ⟨⟨rfl, rfl⟩, rfl⟩
  · exact armRewrites_of .merkleBlock MerkleBlock.rewrites rfl fun _ => ⟨⟨rfl, rfl⟩, rfl⟩
  · exact armRewrites_of .filterLoad FilterLoad.rewrites rfl fun _ => ⟨⟨rfl, rfl⟩, rfl⟩
  · exact armRewrites_of .filterAdd FilterAdd.rewrites rfl fun _ => ⟨⟨rfl, rfl⟩, rfl⟩
  · exact armRewrites_bare rfl ⟨rfl, rfl⟩ rfl
  · exact armRewrites_of .tx Transaction.rewrites rfl fun _ => ⟨⟨rfl, rfl⟩, rfl⟩
  · exact armRewrites_of .getCFilters GetCFilters.rewrites rfl fun _ => ⟨⟨rfl, rfl⟩, rfl⟩
  · exact armRewrites_of .cFilter CFilter.rewrites rfl fun _ => ⟨⟨rfl, rfl⟩, rfl⟩
  · exact armRewrites_of .getCFHeaders GetCFilters.rewrites rfl fun _ => ⟨⟨rfl, rfl⟩, rfl⟩
  · exact armRewrites_of .cFHeaders CFHeaders.rewrites rfl fun _ => ⟨⟨rfl, rfl⟩, rfl⟩
  · exact armRewrites_of .getCFCheckpt GetCFCheckpt.rewrites rfl fun _ => ⟨⟨rfl, rfl⟩, rfl⟩
  · exact armRewrites_of .cFCheckpt CFCheckpt.rewrites rfl fun _ => ⟨⟨rfl, rfl⟩, rfl⟩
  · exact armRewrites_of .reject Reject.rewrites rfl fun _ => ⟨⟨rfl, rfl⟩, rfl⟩
  · exact armRewrites_of .alert bytes_codec.rewrites rfl fun _ => ⟨⟨rfl, rfl⟩, rfl⟩
  · exact armRewrites_of .feeFilter readI64_codec.rewrites rfl fun _ => ⟨⟨rfl, rfl⟩, rfl⟩
  · exact armRewrites_of .sendCmpct SendCmpct.rewrites rfl fun _ => ⟨⟨rfl, rfl⟩, rfl⟩
  · exact armRewrites_of .cmpctBlock decodeCmpctBlock_rewrites rfl fun _ => ⟨⟨rfl, rfl⟩, rfl⟩
  · exact armRewrites_of .getBlockTxn BlockTransactionsRequest.rewrites rfl
      fun _ => ⟨⟨rfl, rfl⟩, rfl⟩
  · exact armRewrites_of .blockTxn decodeBlockTxn_rewrites rfl fun _ => ⟨⟨rfl, rfl⟩, rfl⟩
  · exact armRewrites_bare rfl ⟨rfl, rfl⟩ rfl
  · exact armRewrites_of .addrV2 (decodeVec_rewrites AddrV2Message.rewrites) rfl
      fun _ => ⟨⟨rfl, rfl⟩, rfl⟩
  · exact armRewrites_bare rfl ⟨rfl, rfl⟩ rfl
  · contradiction

omit [Secp256k1] [Layout] [Secp256k1.Canonical] in
theorem canonicalInventory_iff {items : Vec Inventory}
    (read : decodeVec Inventory.consensusDecode payload = .ok (items, rest)) :
    canonicalInventory payload = true ↔ Inventory.TrailingErrors items.toList rest := by
  rw [canonicalInventory, read]
  exact decide_eq_true_iff

omit [Secp256k1.Canonical] in
theorem reemitted_inventory (make : Vec Inventory → NetworkMessage) (member : text ∈ inventories)
    (same : ∀ items, ((make items).cmd = text ∧ (make items).isUnknown = false) ∧
      (make items).consensusEncode = encodeVec Inventory.consensusEncode items)
    (read : (make <$> decodeVec Inventory.consensusDecode) bytes = .ok (message, rest)) :
    ∃ image, Reemitted text bytes message image := by
  obtain ⟨items, readItems, rfl⟩ := Decoder.map_eq_ok.mp read
  obtain ⟨image, emitted, errors⟩ := Inventory.decodeVec_rewritten readItems
  obtain ⟨⟨named, known⟩, emits⟩ := same items
  refine ⟨image, named, known, emits.trans emitted, ?_⟩
  rw [canonical, if_pos member, canonicalInventory_iff readItems, errors]

omit [Secp256k1.Canonical] in
theorem canonical_of_strict {strict : Decoder Error NetworkMessage} (other : text ∉ inventories)
    (arm : strictPayload text = some strict) :
    canonical text bytes = true ↔ ∃ message, strict bytes = .ok (message, []) := by
  simp only [canonical, if_neg other, arm, ← deserialize_eq_ok]
  cases deserialize strict bytes with
  | ok message => exact iff_of_true rfl ⟨message, rfl⟩
  | error e => exact iff_of_false Bool.false_ne_true (by simp)

/-- What becomes of a message that was read from a known payload. -/
theorem reemitted {d : Decoder Error NetworkMessage} (arm : decodePayload text = some d)
    (read : d bytes = .ok (message, rest)) : ∃ image, Reemitted text bytes message image := by
  by_cases member : text ∈ inventories
  · obtain rfl | rfl | rfl : text = "inv" ∨ text = "getdata" ∨ text = "notfound" := by
      simpa only [inventories, List.mem_cons, List.not_mem_nil, or_false] using member
    · obtain rfl := Option.some.inj arm
      exact reemitted_inventory .inv member (fun _ => ⟨⟨rfl, rfl⟩, rfl⟩) read
    · obtain rfl := Option.some.inj arm
      exact reemitted_inventory .getData member (fun _ => ⟨⟨rfl, rfl⟩, rfl⟩) read
    · obtain rfl := Option.some.inj arm
      exact reemitted_inventory .notFound member (fun _ => ⟨⟨rfl, rfl⟩, rfl⟩) read
  · obtain ⟨strict, strictArm, rewrites⟩ := armRewrites arm member
    obtain ⟨named, known⟩ := rewrites.known read
    obtain ⟨image, emitted, length, reread, strictly⟩ := rewrites.rewritten read
    refine ⟨image, named, known, emitted, ?_⟩
    rw [canonical_of_strict member strictArm]
    constructor
    · rintro ⟨other, readStrict⟩
      obtain ⟨rfl, rfl⟩ := Prod.mk.inj (Except.ok.inj ((rewrites.sound readStrict).symm.trans read))
      exact (strictly.mp readStrict).trans (List.append_nil image)
    · rintro rfl
      obtain rfl : rest = [] := List.eq_nil_of_length_eq_zero (by omega)
      exact ⟨message, strictly.mpr (List.append_nil bytes).symm⟩

variable [Hashes]

/-- Another payload, in the written form, that has the message, the length and the checksum
of this one. -/
def Collides (command : String) (payload : Bytes) : Prop :=
  ∃ other d message rest rest', other ≠ payload ∧ other.length = payload.length ∧
    sha2Checksum other = sha2Checksum payload ∧ canonical command other = true ∧
    decodePayload command = some d ∧ d other = .ok (message, rest) ∧ d payload = .ok (message, rest')

end NetworkMessage

/-- The command in a frame, without its NULs. -/
def commandOf (bytes : Bytes) : String := (CommandString.ofRawBytes ((bytes.drop 4).take 12)).text

/-- The payload in a frame. -/
def payloadOf (bytes : Bytes) : Bytes :=
  (framePayload bytes).take (fromLittleEndian ((bytes.drop 16).take 4))

namespace RawNetworkMessage
variable [Secp256k1] [Layout] [Hashes]

/-- Sending `raw` on gives a frame that is well formed and that decodes to `raw`. -/
def Relays (raw : RawNetworkMessage) : Prop :=
  ∃ bytes, serialize raw.consensusEncode = .ok bytes ∧ FieldsMatch bytes ∧
    deserialize consensusDecodeFromFiniteReader bytes = .ok raw

variable {text : String} {received image : Bytes}

/-- Where the command is known, the frame stays as it is around the new payload. -/
theorem relays_of_reemitted {raw : RawNetworkMessage} {d : Decoder Error NetworkMessage}
    (arm : NetworkMessage.decodePayload text = some d)
    (reemitted : NetworkMessage.Reemitted text received raw.payload image)
    (length : received.length = raw.payloadLen.toNat) (checksum : raw.checksum = sha2Checksum received) :
    raw.Relays ↔ image.length = received.length ∧ sha2Checksum image = sha2Checksum received ∧
      ∃ rest, d image = .ok (raw.payload, rest) := by
  have named := NetworkMessage.command_known reemitted.known
  have plain := NetworkMessage.plain_of_known _ (NetworkMessage.cmd_mem reemitted.known)
  rw [reemitted.cmd] at named plain
  have serialized := serialize_eq named plain reemitted.emitted
  have parsed (fits : image.length < 2 ^ 64) :
      NetworkMessage.ofRawPayload ⟨text⟩ ⟨image, fits⟩ = .ok raw.payload ↔
        ∃ rest, d image = .ok (raw.payload, rest) := by
    simp only [NetworkMessage.ofRawPayload, arm]
    cases d image with
    | error e => simp [Except.map]
    | ok result =>
      obtain ⟨message, rest⟩ := result
      simp [Except.map]
  have shorter : raw.payloadLen.toNat < 2 ^ 64 := raw.payloadLen.toNat_lt.trans (by decide)
  rw [length, ← checksum, eq_comm (a := sha2Checksum image)]
  constructor
  · rintro ⟨bytes, emitted, fields, read⟩
    obtain rfl := Except.ok.inj (serialized.symm.trans emitted)
    obtain ⟨imageLength, imageChecksum⟩ := (fieldsMatch_frame (CommandString.wire_length plain)).mp fields
    have reread := (NetworkMessage.deserialize_frame plain imageLength imageChecksum).mp read
    have fits : image.length < 2 ^ 64 := by rwa [imageLength]
    exact ⟨imageLength, imageChecksum, (parsed fits).mp (reread fits)⟩
  · rintro ⟨imageLength, imageChecksum, reread⟩
    refine ⟨_, serialized, ?_, ?_⟩
    · exact (fieldsMatch_frame (CommandString.wire_length plain)).mpr ⟨imageLength, imageChecksum⟩
    · exact (NetworkMessage.deserialize_frame plain imageLength imageChecksum).mpr fun fits =>
        (parsed fits).mpr reread

omit [Layout] [Hashes] in
/-- Whatever the command is, it takes up its twelve bytes. -/
theorem frame_of_serialized {raw : RawNetworkMessage} (written : raw.payload.consensusEncode = .written image)
    (serialized : serialize raw.consensusEncode = .ok bytes) : ∃ name : Bytes, name.length = 12 ∧
      bytes = frame raw.magic name raw.payloadLen raw.checksum image := by
  obtain ⟨count, emitted⟩ := Emission.toBytes_eq_ok.mp serialized
  rw [consensusEncode] at emitted
  split at emitted
  · simp only [encodeFrame, written, (readExact_codec 4).emits, readU32_codec.emits,
      Emission.append_eq_ok] at emitted
    obtain ⟨_, _, _, _, ⟨_, _, _, _, ⟨_, _, _, _, ⟨_, _, _, name, ⟨⟩, named, rfl, rfl⟩, ⟨⟩, rfl, rfl⟩, ⟨⟩,
      rfl, rfl⟩, ⟨⟩, rfl, rfl⟩ := emitted
    exact ⟨name, CommandString.consensusEncode_length named, by simp only [frame, List.append_assoc]⟩
  · contradiction

/-- The payload of an unknown command grows by its length when it is written. -/
theorem unknown_not_relays {raw : RawNetworkMessage} {data : ByteVec}
    (unknown : raw.payload = .unknown command data)
    (length : data.toList.length = raw.payloadLen.toNat) : ¬ raw.Relays := by
  rintro ⟨bytes, serialized, fields, -⟩
  have written : raw.payload.consensusEncode = .written (bytesWire data) := by
    rw [unknown]
    exact encodeWithSize_eq data
  obtain ⟨name, twelve, rfl⟩ := frame_of_serialized written serialized
  obtain ⟨longer, -⟩ := (fieldsMatch_frame twelve).mp fields
  have positive := VarInt.wire_length_pos data.len
  rw [bytesWire, List.length_append, ← length] at longer
  omega

/-- The parts of a frame that is accepted, with or without the limit on its size. -/
theorem parts_of_accepted {raw : RawNetworkMessage}
    (accepted : consensusDecodeFromFiniteReader bytes = .ok (raw, rest) ∨
      consensusDecode bytes = .ok (raw, rest)) :
    ∃ data : ByteVec, payloadOf bytes = data.toList ∧ data.toList.length = raw.payloadLen.toNat ∧
      raw.checksum = sha2Checksum data.toList ∧
      NetworkMessage.ofRawPayload ⟨commandOf bytes⟩ data = .ok raw.payload := by
  obtain ⟨rest, read⟩ : ∃ rest, consensusDecodeFromFiniteReader bytes = .ok (raw, rest) := by
    obtain read | read := accepted
    · exact ⟨rest, read⟩
    · obtain ⟨left, read, -⟩ := Decoder.take_eq_ok.mp read
      obtain ⟨command, data, length, checksum, parsed, same⟩ := consensusDecode_eq_ok.mp read
      refine ⟨left ++ bytes.drop maxMsgSize, consensusDecode_eq_ok.mpr
        ⟨command, data, length, checksum, parsed, ?_⟩⟩
      have whole := congrArg (· ++ bytes.drop maxMsgSize) same
      simpa only [List.take_append_drop, frame, List.append_assoc] using whole
  obtain ⟨command, data, length, checksum, parsed, rfl⟩ := consensusDecode_eq_ok.mp read
  obtain ⟨atCommand, atLen, -, atPayload⟩ :=
    @drop_frame raw.magic raw.checksum command.val (data.toList ++ rest) raw.payloadLen command.property
  have four : (littleEndian 4 raw.payloadLen.toNat).length = 4 := littleEndian_length _ _
  refine ⟨data, ?_, length, checksum, ?_⟩
  · rw [payloadOf, framePayload, atPayload, atLen, List.take_left' four,
      fromLittleEndian_littleEndian raw.payloadLen.toNat_lt, List.take_left' length]
  · rwa [commandOf, atCommand, List.take_left' command.property]

variable [Secp256k1.Canonical]

/-- A frame that is accepted and sent on stays well formed exactly where its payload has the
form its message is written in, or has the checksum of a payload that does. -/
theorem relays_iff {raw : RawNetworkMessage}
    (accepted : consensusDecodeFromFiniteReader bytes = .ok (raw, rest) ∨
      consensusDecode bytes = .ok (raw, rest)) :
    raw.Relays ↔ NetworkMessage.canonical (commandOf bytes) (payloadOf bytes) = true ∨
      NetworkMessage.Collides (commandOf bytes) (payloadOf bytes) := by
  obtain ⟨data, payload, length, checksum, parsed⟩ := parts_of_accepted accepted
  rw [payload]
  generalize commandOf bytes = text at parsed ⊢
  cases arm : NetworkMessage.decodePayload text with
  | none =>
    rw [NetworkMessage.ofRawPayload, arm] at parsed
    have unknown := (Except.ok.inj parsed).symm
    refine iff_of_false (unknown_not_relays unknown length) ?_
    have known : ¬ ∃ d, NetworkMessage.decodePayload text = some d := by
      rintro ⟨d, known⟩
      exact absurd (arm.symm.trans known) (by simp)
    rintro (formed | ⟨_, d, _, _, _, -, -, -, -, other, -⟩)
    · exact known (NetworkMessage.arm_of_canonical formed)
    · exact known ⟨d, other⟩
  | some d =>
    rw [NetworkMessage.ofRawPayload, arm] at parsed
    obtain ⟨left, read⟩ : ∃ left, d data.toList = .ok (raw.payload, left) := by
      cases read : d data.toList with
      | error e => simp [read, Except.map] at parsed
      | ok result =>
        obtain ⟨message, left⟩ := result
        simp only [read, Except.map, Except.ok.injEq] at parsed
        exact ⟨left, by rw [parsed]⟩
    obtain ⟨image, reemitted⟩ := NetworkMessage.reemitted arm read
    rw [relays_of_reemitted arm reemitted length checksum, reemitted.canonical_iff]
    constructor
    · rintro ⟨sameLength, sameChecksum, rest, reread⟩
      by_cases same : data.toList = image
      · exact .inl same
      · obtain ⟨_, reemitted'⟩ := NetworkMessage.reemitted arm reread
        obtain rfl := reemitted.image_unique reemitted'
        exact .inr ⟨image, d, raw.payload, rest, left, Ne.symm same, sameLength, sameChecksum,
          reemitted'.canonical_iff.mpr rfl, arm, reread, read⟩
    · rintro (same | ⟨other, d', message, rest, left', -, sameLength, sameChecksum, formed, arm',
        readOther, read'⟩)
      · rw [← same]
        exact ⟨rfl, rfl, left, read⟩
      · obtain rfl := Option.some.inj (arm.symm.trans arm')
        obtain ⟨rfl, -⟩ := Prod.mk.inj (Except.ok.inj (read'.symm.trans read))
        obtain ⟨_, reemitted'⟩ := NetworkMessage.reemitted arm readOther
        obtain rfl := reemitted.image_unique reemitted'
        obtain rfl := reemitted'.canonical_iff.mp formed
        exact ⟨sameLength, sameChecksum, rest, readOther⟩

end RawNetworkMessage

namespace Sample
attribute [local instance] Secp256k1.generatorOnly hashes Layout.wide

/-- The frame of `ping 15`. -/
def pingFrame : Bytes :=
  [57, 0, 0, 0, 0x70, 0x69, 0x6e, 0x67, 0, 0, 0, 0, 0, 0, 0, 0, 8, 0, 0, 0,
   0x05, 0x44, 0x1d, 0xc7, 15, 0, 0, 0, 0, 0, 0, 0]

def pingRaw : RawNetworkMessage where
  magic := magic
  payload := .ping 15
  payloadLen := 8
  checksum := ⟨[0x05, 0x44, 0x1d, 0xc7], rfl⟩

/-- A `verack` with a byte behind it. -/
def longVerackFrame : Bytes :=
  [57, 0, 0, 0, 0x76, 0x65, 0x72, 0x61, 0x63, 0x6b, 0, 0, 0, 0, 0, 0, 1, 0, 0, 0,
   0xb6, 0xd5, 0x8d, 0xfa, 7]

def longVerackRaw : RawNetworkMessage where
  magic := magic
  payload := .verack
  payloadLen := 1
  checksum := ⟨[0xb6, 0xd5, 0x8d, 0xfa], rfl⟩

theorem pingRaw_relays : pingRaw.Relays := by
  have := Secp256k1.generatorOnly_lawful
  have read : RawNetworkMessage.consensusDecodeFromFiniteReader pingFrame = .ok (pingRaw, []) := by
    decide
  exact (RawNetworkMessage.relays_iff (.inl read)).mpr (.inl (by decide))

/-- The frame announces a byte that is not sent on. -/
theorem longVerack_not_relayed : ¬∀ (bytes : Bytes) (raw : RawNetworkMessage) (rest : Bytes),
    RawNetworkMessage.consensusDecodeFromFiniteReader bytes = .ok (raw, rest) → raw.Relays := by
  intro law
  have read : RawNetworkMessage.consensusDecodeFromFiniteReader longVerackFrame =
      .ok (longVerackRaw, []) := by decide
  obtain ⟨bytes, written, fields, -⟩ := law longVerackFrame longVerackRaw [] read
  obtain rfl := Except.ok.inj written
  obtain ⟨-, length, -⟩ := fields
  exact absurd length (by decide)

end Sample
end Litecoin.P2p
