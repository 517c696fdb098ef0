import Litecoin.P2p.CompactBlocks
import Litecoin.P2p.Inventory

/-! Network messages (`p2p/message.rs`). An error of a writer also stands for a panic. -/
namespace Litecoin.P2p
open Wire Consensus Blockdata
open Bip152 (HeaderAndShortIds)

/-- `MAX_MSG_SIZE`. -/
def maxMsgSize : Nat := 5_000_000

structure CommandString where
  text : String
deriving DecidableEq

structure CommandStringError where
  cow : String
deriving DecidableEq

namespace CommandString

def tryFromStatic (s : String) : Except CommandStringError CommandString :=
  if 12 < (utf8 s).length then .error ⟨s⟩ else .ok ⟨s⟩

def consensusEncode (command : CommandString) : Emission IoError :=
  let strbytes := utf8 command.text
  if strbytes.length ≤ 12 then .counted 12 (strbytes ++ List.replicate (12 - strbytes.length) 0)
  else .fail (.other "range end index out of range for slice of length 12")

/-- `u as char`, for every byte that is not zero. -/
def ofRawBytes (rawbytes : Bytes) : CommandString :=
  ⟨String.ofList (rawbytes.filterMap fun u => if 0 < u then some (Char.ofNat u.toNat) else none)⟩

def consensusDecode : Decoder Error CommandString := do
  let rawbytes ← readExact 12
  pure (ofRawBytes rawbytes.val)

end CommandString

/-- `HeaderSerializationWrapper`: a number of transactions follows each header. -/
def encodeHeader (header : Header) : Emission IoError := header.consensusEncode ++ encodeU8 0

/-- One round of `HeaderDeserializationWrapper`. -/
def decodeHeader : Decoder Error Header := do
  let header ← Consensus.consensusDecode Header.consensusDecodeFromFiniteReader
  let transactions ← readU8
  if transactions ≠ 0 then
    Decoder.fail (.parseFailed "Headers message should not contain transactions")
  else pure header

variable [Secp256k1]

inductive NetworkMessage where
  | version (message : VersionMessage)
  | verack
  | addr (addresses : Vec (UInt32 × Address))
  | inv (items : Vec Inventory)
  | getData (items : Vec Inventory)
  | notFound (items : Vec Inventory)
  | getBlocks (message : GetBlocksMessage)
  | getHeaders (message : GetHeadersMessage)
  | memPool
  | tx (tx : Transaction)
  | block (block : Block)
  | headers (headers : Vec Header)
  | sendHeaders
  | getAddr
  | ping (nonce : UInt64)
  | pong (nonce : UInt64)
  | merkleBlock (block : MerkleBlock)
  | filterLoad (message : FilterLoad)
  | filterAdd (message : FilterAdd)
  | filterClear
  | getCFilters (message : GetCFilters)
  | cFilter (message : CFilter)
  | getCFHeaders (message : GetCFHeaders)
  | cFHeaders (message : CFHeaders)
  | getCFCheckpt (message : GetCFCheckpt)
  | cFCheckpt (message : CFCheckpt)
  | sendCmpct (message : SendCmpct)
  | cmpctBlock (message : HeaderAndShortIds)
  | getBlockTxn (message : BlockTransactionsRequest)
  | blockTxn (message : BlockTransactions)
  | alert (data : ByteVec)
  | reject (message : Reject)
  | feeFilter (rate : Int64)
  | wtxidRelay
  | addrV2 (addresses : Vec AddrV2Message)
  | sendAddrV2
  | unknown (command : CommandString) (payload : ByteVec)
deriving DecidableEq

namespace NetworkMessage

def cmd : NetworkMessage → String
  | .version _ => "version"
  | .verack => "verack"
  | .addr _ => "addr"
  | .inv _ => "inv"
  | .getData _ => "getdata"
  | .notFound _ => "notfound"
  | .getBlocks _ => "getblocks"
  | .getHeaders _ => "getheaders"
  | .memPool => "mempool"
  | .tx _ => "tx"
  | .block _ => "block"
  | .headers _ => "headers"
  | .sendHeaders => "sendheaders"
  | .getAddr => "getaddr"
  | .ping _ => "ping"
  | .pong _ => "pong"
  | .merkleBlock _ => "merkleblock"
  | .filterLoad _ => "filterload"
  | .filterAdd _ => "filteradd"
  | .filterClear => "filterclear"
  | .getCFilters _ => "getcfilters"
  | .cFilter _ => "cfilter"
  | .getCFHeaders _ => "getcfheaders"
  | .cFHeaders _ => "cfheaders"
  | .getCFCheckpt _ => "getcfcheckpt"
  | .cFCheckpt _ => "cfcheckpt"
  | .sendCmpct _ => "sendcmpct"
  | .cmpctBlock _ => "cmpctblock"
  | .getBlockTxn _ => "getblocktxn"
  | .blockTxn _ => "blocktxn"
  | .alert _ => "alert"
  | .reject _ => "reject"
  | .feeFilter _ => "feefilter"
  | .wtxidRelay => "wtxidrelay"
  | .addrV2 _ => "addrv2"
  | .sendAddrV2 => "sendaddrv2"
  | .unknown _ _ => "unknown"

def isUnknown : NetworkMessage → Bool
  | .unknown _ _ => true
  | _ => false

def command : NetworkMessage → Except CommandStringError CommandString
  | .unknown c _ => .ok c
  | message => CommandString.tryFromStatic message.cmd

def consensusEncode : NetworkMessage → Emission IoError
  | .version dat => dat.consensusEncode
  | .addr dat => encodeVec encodeTimed dat
  | .inv dat => encodeVec Inventory.consensusEncode dat
  | .getData dat => encodeVec Inventory.consensusEncode dat
  | .notFound dat => encodeVec Inventory.consensusEncode dat
  | .getBlocks dat => dat.consensusEncode
  | .getHeaders dat => dat.consensusEncode
  | .tx dat => dat.consensusEncode
  | .block dat => dat.consensusEncode
  | .headers dat => encodeVec encodeHeader dat
  | .ping dat => encodeU64 dat
  | .pong dat => encodeU64 dat
  | .merkleBlock dat => dat.consensusEncode
  | .filterLoad dat => dat.consensusEncode
  | .filterAdd dat => dat.consensusEncode
  | .getCFilters dat => dat.consensusEncode
  | .cFilter dat => dat.consensusEncode
  | .getCFHeaders dat => dat.consensusEncode
  | .cFHeaders dat => dat.consensusEncode
  | .getCFCheckpt dat => dat.consensusEncode
  | .cFCheckpt dat => dat.consensusEncode
  | .sendCmpct dat => dat.consensusEncode
  | .cmpctBlock dat => encodeCmpctBlock dat
  | .getBlockTxn dat => dat.consensusEncode
  | .blockTxn dat => dat.consensusEncode
  | .alert dat => encodeWithSize dat
  | .reject dat => dat.consensusEncode
  | .feeFilter dat => encodeI64 dat
  | .addrV2 dat => encodeVec AddrV2Message.consensusEncode dat
  | .verack | .sendHeaders | .memPool | .getAddr | .wtxidRelay | .filterClear | .sendAddrV2 =>
    .written []
  | .unknown _ data => encodeWithSize data

variable [Layout]

/-- The arms of the decoder that are about a command it knows. -/
def decodePayload (command : String) : Option (Decoder Error NetworkMessage) :=
  match command with
  | "version" => some (.version <$> VersionMessage.consensusDecodeFromFiniteReader)
  | "verack" => some (pure .verack)
  | "addr" => some (.addr <$> decodeVec readTimed)
  | "inv" => some (.inv <$> decodeVec Inventory.consensusDecode)
  | "getdata" => some (.getData <$> decodeVec Inventory.consensusDecode)
  | "notfound" => some (.notFound <$> decodeVec Inventory.consensusDecode)
  | "getblocks" => some (.getBlocks <$> GetBlocksMessage.consensusDecodeFromFiniteReader)
  | "getheaders" => some (.getHeaders <$> GetBlocksMessage.consensusDecodeFromFiniteReader)
  | "mempool" => some (pure .memPool)
  | "block" => some (.block <$> Block.consensusDecodeFromFiniteReader)
  | "headers" => some (.headers <$> decodeVec decodeHeader)
  | "sendheaders" => some (pure .sendHeaders)
  | "getaddr" => some (pure .getAddr)
  | "ping" => some (.ping <$> readU64)
  | "pong" => some (.pong <$> readU64)
  | "merkleblock" => some (.merkleBlock <$> MerkleBlock.consensusDecode)
  | "filterload" => some (.filterLoad <$> FilterLoad.consensusDecodeFromFiniteReader)
  | "filteradd" => some (.filterAdd <$> FilterAdd.consensusDecodeFromFiniteReader)
  | "filterclear" => some (pure .filterClear)
  | "tx" => some (.tx <$> Transaction.consensusDecodeFromFiniteReader)
  | "getcfilters" => some (.getCFilters <$> GetCFilters.consensusDecodeFromFiniteReader)
  | "cfilter" => some (.cFilter <$> CFilter.consensusDecodeFromFiniteReader)
  | "getcfheaders" => some (.getCFHeaders <$> GetCFilters.consensusDecodeFromFiniteReader)
  | "cfheaders" => some (.cFHeaders <$> CFHeaders.consensusDecodeFromFiniteReader)
  | "getcfcheckpt" => some (.getCFCheckpt <$> GetCFCheckpt.consensusDecodeFromFiniteReader)
  | "cfcheckpt" => some (.cFCheckpt <$> CFCheckpt.consensusDecodeFromFiniteReader)
  | "reject" => some (.reject <$> Reject.consensusDecodeFromFiniteReader)
  | "alert" => some (.alert <$> decodeBytes)
  | "feefilter" => some (.feeFilter <$> readI64)
  | "sendcmpct" => some (.sendCmpct <$> SendCmpct.consensusDecodeFromFiniteReader)
  | "cmpctblock" => some (.cmpctBlock <$> decodeCmpctBlock Transaction.consensusDecodeFromFiniteReader)
  | "getblocktxn" => some (.getBlockTxn <$> BlockTransactionsRequest.consensusDecode)
  | "blocktxn" => some (.blockTxn <$> decodeBlockTxn Transaction.consensusDecodeFromFiniteReader)
  | "wtxidrelay" => some (pure .wtxidRelay)
  | "addrv2" => some (.addrV2 <$> decodeVec AddrV2Message.consensusDecode)
  | "sendaddrv2" => some (pure .sendAddrV2)
  | _ => none

/-- A known payload is read from the front of the raw one. -/
def ofRawPayload (cmd : CommandString) (rawPayload : ByteVec) : Except Error NetworkMessage :=
  match decodePayload cmd.text with
  | some d => (d rawPayload.toList).map Prod.fst
  | none => .ok (.unknown cmd rawPayload)

end NetworkMessage

structure RawNetworkMessage where
  magic : ByteArr 4
  payload : NetworkMessage
  payloadLen : UInt32
  checksum : ByteArr 4
deriving DecidableEq

namespace RawNetworkMessage

/-- The frame of a message with the given command. -/
def encodeFrame (raw : RawNetworkMessage) (command : CommandString) : Emission IoError :=
  encodeArray raw.magic ++
  command.consensusEncode ++
  encodeU32 raw.payloadLen ++
  encodeArray raw.checksum ++
  raw.payload.consensusEncode

def consensusEncode (raw : RawNetworkMessage) : Emission IoError :=
  match raw.payload.command with
  | .ok command => raw.encodeFrame command
  | .error _ => .fail (.other "cmd returns valid commands")

variable [Hashes]

/-- `RawNetworkMessage::new`, with `none` for a panic. -/
def new (magic : ByteArr 4) (payload : NetworkMessage) : Option RawNetworkMessage :=
  match payload.consensusEncode with
  | .ok (payloadLen, written) =>
    if payloadLen < 2 ^ 32 then
      some { magic, payload, payloadLen := UInt32.ofNat payloadLen, checksum := sha2Checksum written }
    else none
  | .error _ => none

variable [Layout]

def consensusDecodeFromFiniteReader : Decoder Error RawNetworkMessage := do
  let magic ← readExact 4
  let cmd ← CommandString.consensusDecode
  let checkedData ← CheckedData.consensusDecodeFromFiniteReader
  let payload ← Decoder.ofExcept (NetworkMessage.ofRawPayload cmd checkedData.data)
  pure { magic, payload, payloadLen := UInt32.ofNat checkedData.data.toList.length
         checksum := checkedData.checksum }

def consensusDecode : Decoder Error RawNetworkMessage :=
  consensusDecodeFromFiniteReader.take maxMsgSize

end RawNetworkMessage
end Litecoin.P2p
