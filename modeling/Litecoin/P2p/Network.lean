import Litecoin.P2p.Address

/-! The messages about peers and about filters (`message_network.rs`, `message_filter.rs`,
`message_bloom.rs`) and the two requests for chains of blocks (`message_blockdata.rs`).
Hashes are their 32 bytes. -/
namespace Litecoin.P2p
open Wire Consensus

structure VersionMessage where
  version : UInt32
  services : ServiceFlags
  timestamp : Int64
  receiver : Address
  sender : Address
  nonce : UInt64
  userAgent : Text
  startHeight : Int32
  relay : Bool
deriving DecidableEq

namespace VersionMessage

def consensusEncode (message : VersionMessage) : Emission IoError :=
  encodeU32 message.version ++
  encodeU64 message.services ++
  encodeI64 message.timestamp ++
  message.receiver.consensusEncode ++
  message.sender.consensusEncode ++
  encodeU64 message.nonce ++
  message.userAgent.consensusEncode ++
  encodeI32 message.startHeight ++
  encodeBool message.relay

/-- The fields in order, with a reader for the last one. -/
def decodeFields (readRelay : Decoder Error Bool) : Decoder Error VersionMessage := do
  let version ← readU32
  let services ← readU64
  let timestamp ← readI64
  let receiver ← Address.consensusDecode
  let sender ← Address.consensusDecode
  let nonce ← readU64
  let userAgent ← Text.consensusDecode
  let startHeight ← readI32
  let relay ← readRelay
  pure { version, services, timestamp, receiver, sender, nonce, userAgent, startHeight, relay }

def consensusDecodeFromFiniteReader : Decoder Error VersionMessage := decodeFields readBool

def strictDecode : Decoder Error VersionMessage := decodeFields strictBool

end VersionMessage

inductive RejectReason where
  | malformed
  | invalid
  | obsolete
  | duplicate
  | nonStandard
  | dust
  | fee
  | checkpoint
deriving DecidableEq

namespace RejectReason

/-- `*self as u8`. -/
def toU8 : RejectReason → UInt8
  | malformed => 0x01
  | invalid => 0x10
  | obsolete => 0x11
  | duplicate => 0x12
  | nonStandard => 0x40
  | dust => 0x41
  | fee => 0x42
  | checkpoint => 0x43

def ofU8 (code : UInt8) : Option RejectReason :=
  if code = 0x01 then some malformed
  else if code = 0x10 then some invalid
  else if code = 0x11 then some obsolete
  else if code = 0x12 then some duplicate
  else if code = 0x40 then some nonStandard
  else if code = 0x41 then some dust
  else if code = 0x42 then some fee
  else if code = 0x43 then some checkpoint
  else none

def consensusEncode (reason : RejectReason) : Emission IoError := .counted 1 [reason.toU8]

end RejectReason

def orFail (message : String) : Option α → Decoder Error α
  | some value => pure value
  | none => Decoder.fail (.parseFailed message)

/-- A byte that stands for a value of an enumeration. -/
def readCode (ofU8 : UInt8 → Option α) (message : String) : Decoder Error α := do
  let code ← readU8
  orFail message (ofU8 code)

def RejectReason.consensusDecode : Decoder Error RejectReason := readCode ofU8 "unknown reject code"

structure Reject where
  message : Text
  ccode : RejectReason
  reason : Text
  hash : ByteArr 32
deriving DecidableEq

namespace Reject

def consensusEncode (reject : Reject) : Emission IoError :=
  reject.message.consensusEncode ++
  reject.ccode.consensusEncode ++
  reject.reason.consensusEncode ++
  encodeArray reject.hash

def consensusDecodeFromFiniteReader : Decoder Error Reject := do
  let message ← Text.consensusDecode
  let ccode ← RejectReason.consensusDecode
  let reason ← Text.consensusDecode
  let hash ← readExact 32
  pure { message, ccode, reason, hash }

end Reject

inductive BloomFlags where
  | none
  | all
  | pubkeyOnly
deriving DecidableEq

namespace BloomFlags

def toU8 : BloomFlags → UInt8
  | none => 0
  | all => 1
  | pubkeyOnly => 2

def ofU8 (code : UInt8) : Option BloomFlags :=
  if code = 0 then some none
  else if code = 1 then some all
  else if code = 2 then some pubkeyOnly
  else .none

def consensusEncode (flags : BloomFlags) : Emission IoError := .counted 1 [flags.toU8]

def consensusDecode : Decoder Error BloomFlags := readCode ofU8 "unknown bloom flag"

end BloomFlags

structure FilterLoad where
  filter : ByteVec
  hashFuncs : UInt32
  tweak : UInt32
  flags : BloomFlags
deriving DecidableEq

namespace FilterLoad

def consensusEncode (load : FilterLoad) : Emission IoError :=
  encodeWithSize load.filter ++ encodeU32 load.hashFuncs ++ encodeU32 load.tweak ++
  load.flags.consensusEncode

def consensusDecodeFromFiniteReader : Decoder Error FilterLoad := do
  let filter ← decodeBytes
  let hashFuncs ← readU32
  let tweak ← readU32
  let flags ← BloomFlags.consensusDecode
  pure { filter, hashFuncs, tweak, flags }

end FilterLoad

structure FilterAdd where
  data : ByteVec
deriving DecidableEq

namespace FilterAdd

def consensusEncode (add : FilterAdd) : Emission IoError := encodeWithSize add.data

def consensusDecodeFromFiniteReader : Decoder Error FilterAdd := do
  let data ← decodeBytes
  pure { data }

end FilterAdd

/-- `GetCFilters` and `GetCFHeaders`, which have the same fields. -/
structure GetCFilters where
  filterType : UInt8
  startHeight : UInt32
  stopHash : ByteArr 32
deriving DecidableEq

namespace GetCFilters

def consensusEncode (request : GetCFilters) : Emission IoError :=
  encodeU8 request.filterType ++ encodeU32 request.startHeight ++ encodeArray request.stopHash

def consensusDecodeFromFiniteReader : Decoder Error GetCFilters := do
  let filterType ← readU8
  let startHeight ← readU32
  let stopHash ← readExact 32
  pure { filterType, startHeight, stopHash }

end GetCFilters

abbrev GetCFHeaders : Type := GetCFilters

structure CFilter where
  filterType : UInt8
  blockHash : ByteArr 32
  filter : ByteVec
deriving DecidableEq

namespace CFilter

def consensusEncode (message : CFilter) : Emission IoError :=
  encodeU8 message.filterType ++ encodeArray message.blockHash ++ encodeWithSize message.filter

def consensusDecodeFromFiniteReader : Decoder Error CFilter := do
  let filterType ← readU8
  let blockHash ← readExact 32
  let filter ← decodeBytes
  pure { filterType, blockHash, filter }

end CFilter

structure CFHeaders where
  filterType : UInt8
  stopHash : ByteArr 32
  previousFilterHeader : ByteArr 32
  filterHashes : Vec (ByteArr 32)
deriving DecidableEq

namespace CFHeaders

def consensusEncode (message : CFHeaders) : Emission IoError :=
  encodeU8 message.filterType ++ encodeArray message.stopHash ++
  encodeArray message.previousFilterHeader ++ encodeVec encodeArray message.filterHashes

def consensusDecodeFromFiniteReader : Decoder Error CFHeaders := do
  let filterType ← readU8
  let stopHash ← readExact 32
  let previousFilterHeader ← readExact 32
  let filterHashes ← decodeVec (readExact 32)
  pure { filterType, stopHash, previousFilterHeader, filterHashes }

end CFHeaders

structure GetCFCheckpt where
  filterType : UInt8
  stopHash : ByteArr 32
deriving DecidableEq

namespace GetCFCheckpt

def consensusEncode (request : GetCFCheckpt) : Emission IoError :=
  encodeU8 request.filterType ++ encodeArray request.stopHash

def consensusDecodeFromFiniteReader : Decoder Error GetCFCheckpt := do
  let filterType ← readU8
  let stopHash ← readExact 32
  pure { filterType, stopHash }

end GetCFCheckpt

structure CFCheckpt where
  filterType : UInt8
  stopHash : ByteArr 32
  filterHeaders : Vec (ByteArr 32)
deriving DecidableEq

namespace CFCheckpt

def consensusEncode (message : CFCheckpt) : Emission IoError :=
  encodeU8 message.filterType ++ encodeArray message.stopHash ++
  encodeVec encodeArray message.filterHeaders

def consensusDecodeFromFiniteReader : Decoder Error CFCheckpt := do
  let filterType ← readU8
  let stopHash ← readExact 32
  let filterHeaders ← decodeVec (readExact 32)
  pure { filterType, stopHash, filterHeaders }

end CFCheckpt

/-- `GetBlocksMessage` and `GetHeadersMessage`, which have the same fields. -/
structure GetBlocksMessage where
  version : UInt32
  locatorHashes : Vec (ByteArr 32)
  stopHash : ByteArr 32
deriving DecidableEq

namespace GetBlocksMessage

def consensusEncode (message : GetBlocksMessage) : Emission IoError :=
  encodeU32 message.version ++ encodeVec encodeArray message.locatorHashes ++
  encodeArray message.stopHash

def consensusDecodeFromFiniteReader : Decoder Error GetBlocksMessage := do
  let version ← readU32
  let locatorHashes ← decodeVec (readExact 32)
  let stopHash ← readExact 32
  pure { version, locatorHashes, stopHash }

end GetBlocksMessage

abbrev GetHeadersMessage : Type := GetBlocksMessage

/-! Only the last byte of a version message has more than one form. -/

theorem VersionMessage.rewrites :
    Rewrites consensusEncode consensusDecodeFromFiniteReader strictDecode (fun _ => True) := by
  refine (Rewrites.field version readU32_codec.rewrites fun _ _ =>
    .field services readU64_codec.rewrites fun _ _ =>
    .field timestamp readI64_codec.rewrites fun _ _ =>
    .field receiver Address.rewrites fun _ _ =>
    .field sender Address.rewrites fun _ _ =>
    .field nonce readU64_codec.rewrites fun _ _ =>
    .field userAgent Text.rewrites fun _ _ =>
    .field startHeight readI32_codec.rewrites fun _ _ =>
    .last relay readBool_rewrites _ fun _ _ =>
      ⟨⟨⟨⟨⟨⟨⟨⟨⟨trivial, rfl⟩, rfl⟩, rfl⟩, rfl⟩, rfl⟩, rfl⟩, rfl⟩, rfl⟩, rfl⟩).congr ?_
  intro message
  simp only [consensusEncode, Emission.append_assoc]

theorem readCode_rewrites {toU8 : α → UInt8} {ofU8 : UInt8 → Option α} (message : String)
    (inverse : ∀ code value, ofU8 code = some value → toU8 value = code) :
    Rewrites (fun value => (.counted 1 [toU8 value] : Emission IoError)) (readCode ofU8 message)
      (readCode ofU8 message) (fun _ => True) := by
  have known (code : UInt8) (_ : True) : Rewrites (fun _ => (.written [] : Emission IoError))
      (orFail message (ofU8 code)) (orFail message (ofU8 code))
      (fun value => ofU8 code = some value) := by
    cases found : ofU8 code with
    | none => exact .fail _
    | some value => exact .done rfl
  refine readU8_codec.rewrites.bind known fun code value _ found => ⟨trivial, ?_⟩
  rw [inverse code value found, Emission.append_nothing, readU8_codec.emits, littleEndian_one]
  rfl

theorem RejectReason.rewrites :
    Rewrites consensusEncode consensusDecode consensusDecode (fun _ => True) := by
  refine readCode_rewrites _ fun code value found => ?_
  revert found
  rw [ofU8]
  split_ifs <;> simp_all <;> rintro rfl <;> rfl

theorem BloomFlags.rewrites :
    Rewrites consensusEncode consensusDecode consensusDecode (fun _ => True) := by
  refine readCode_rewrites _ fun code value found => ?_
  revert found
  rw [ofU8]
  split_ifs <;> simp_all <;> rintro rfl <;> rfl

theorem Reject.rewrites : Rewrites consensusEncode consensusDecodeFromFiniteReader
    consensusDecodeFromFiniteReader (fun _ => True) := by
  refine (Rewrites.field message Text.rewrites fun _ _ =>
    .field ccode RejectReason.rewrites fun _ _ =>
    .field reason Text.rewrites fun _ _ =>
    .last hash (readExact_codec 32).rewrites _ fun _ _ => ⟨⟨⟨⟨trivial, rfl⟩, rfl⟩, rfl⟩, rfl⟩).congr ?_
  intro reject
  simp only [consensusEncode, Emission.append_assoc]

theorem FilterLoad.rewrites : Rewrites consensusEncode consensusDecodeFromFiniteReader
    consensusDecodeFromFiniteReader (fun _ => True) := by
  refine (Rewrites.field filter bytes_codec.rewrites fun _ _ =>
    .field hashFuncs readU32_codec.rewrites fun _ _ =>
    .field tweak readU32_codec.rewrites fun _ _ =>
    .last flags BloomFlags.rewrites _ fun _ _ => ⟨⟨⟨⟨trivial, rfl⟩, rfl⟩, rfl⟩, rfl⟩).congr ?_
  intro load
  simp only [consensusEncode, Emission.append_assoc]

theorem FilterAdd.rewrites : Rewrites consensusEncode consensusDecodeFromFiniteReader
    consensusDecodeFromFiniteReader (fun _ => True) :=
  .last data bytes_codec.rewrites _ fun _ _ => ⟨trivial, rfl⟩

theorem GetCFilters.rewrites : Rewrites consensusEncode consensusDecodeFromFiniteReader
    consensusDecodeFromFiniteReader (fun _ => True) := by
  refine (Rewrites.field filterType readU8_codec.rewrites fun _ _ =>
    .field startHeight readU32_codec.rewrites fun _ _ =>
    .last stopHash (readExact_codec 32).rewrites _ fun _ _ => ⟨⟨⟨trivial, rfl⟩, rfl⟩, rfl⟩).congr ?_
  intro request
  simp only [consensusEncode, Emission.append_assoc]

theorem CFilter.rewrites : Rewrites consensusEncode consensusDecodeFromFiniteReader
    consensusDecodeFromFiniteReader (fun _ => True) := by
  refine (Rewrites.field filterType readU8_codec.rewrites fun _ _ =>
    .field blockHash (readExact_codec 32).rewrites fun _ _ =>
    .last filter bytes_codec.rewrites _ fun _ _ => ⟨⟨⟨trivial, rfl⟩, rfl⟩, rfl⟩).congr ?_
  intro message
  simp only [consensusEncode, Emission.append_assoc]

theorem hashes_rewrites : Rewrites (encodeVec encodeArray) (decodeVec (readExact 32))
    (decodeVec (readExact 32)) (fun _ => True) :=
  (decodeVec_rewrites (readExact_codec 32).rewrites).weaken fun _ _ => ⟨trivial, rfl⟩

theorem CFHeaders.rewrites : Rewrites consensusEncode consensusDecodeFromFiniteReader
    consensusDecodeFromFiniteReader (fun _ => True) := by
  refine (Rewrites.field filterType readU8_codec.rewrites fun _ _ =>
    .field stopHash (readExact_codec 32).rewrites fun _ _ =>
    .field previousFilterHeader (readExact_codec 32).rewrites fun _ _ =>
    .last filterHashes hashes_rewrites _ fun _ _ => ⟨⟨⟨⟨trivial, rfl⟩, rfl⟩, rfl⟩, rfl⟩).congr ?_
  intro message
  simp only [consensusEncode, Emission.append_assoc]

theorem GetCFCheckpt.rewrites : Rewrites consensusEncode consensusDecodeFromFiniteReader
    consensusDecodeFromFiniteReader (fun _ => True) :=
  .field filterType readU8_codec.rewrites fun _ _ =>
    .last stopHash (readExact_codec 32).rewrites _ fun _ _ => ⟨⟨trivial, rfl⟩, rfl⟩

theorem CFCheckpt.rewrites : Rewrites consensusEncode consensusDecodeFromFiniteReader
    consensusDecodeFromFiniteReader (fun _ => True) := by
  refine (Rewrites.field filterType readU8_codec.rewrites fun _ _ =>
    .field stopHash (readExact_codec 32).rewrites fun _ _ =>
    .last filterHeaders hashes_rewrites _ fun _ _ => ⟨⟨⟨trivial, rfl⟩, rfl⟩, rfl⟩).congr ?_
  intro message
  simp only [consensusEncode, Emission.append_assoc]

theorem GetBlocksMessage.rewrites : Rewrites consensusEncode consensusDecodeFromFiniteReader
    consensusDecodeFromFiniteReader (fun _ => True) := by
  refine (Rewrites.field version readU32_codec.rewrites fun _ _ =>
    .field locatorHashes hashes_rewrites fun _ _ =>
    .last stopHash (readExact_codec 32).rewrites _ fun _ _ => ⟨⟨⟨trivial, rfl⟩, rfl⟩, rfl⟩).congr ?_
  intro message
  simp only [consensusEncode, Emission.append_assoc]

end Litecoin.P2p
