import Litecoin.Consensus.Framing
import Litecoin.Crypto.Engine

/-! Network addresses (`p2p/address.rs`). -/
namespace Litecoin.P2p
open Wire Consensus

abbrev ServiceFlags : Type := UInt64

/-- `[u16; 8]`. -/
abbrev Words : Type := { words : List UInt16 // words.length = 8 }

/-- `w.write_all(&word.to_be_bytes())`. -/
def encodeBeU16 (word : UInt16) : Emission IoError := .counted 2 (bigEndianBytes 2 word.toNat)

def swapBytes (word : UInt16) : UInt16 := word <<< 8 ||| word >>> 8

/-- `u16::swap_bytes(Decodable::consensus_decode(r)?)`. -/
def readSwappedU16 : Decoder Error UInt16 := swapBytes <$> readU16

/-- `u16::from_be_bytes` of two bytes. -/
def readBeU16 : Decoder Error UInt16 :=
  (fun buf => UInt16.ofNat (fromLittleEndian buf.val.reverse)) <$> readExact 2

def readBeAddress : Decoder Error Words := readBeU16.times 8

def onion : List UInt16 := [0xFD87, 0xD87E, 0xEB43]

structure Address where
  services : ServiceFlags
  address : Words
  port : UInt16
deriving DecidableEq

namespace Address

def consensusEncode (address : Address) : Emission IoError :=
  encodeU64 address.services ++ .each encodeBeU16 address.address.val ++ encodeBeU16 address.port

def consensusDecode : Decoder Error Address := do
  let services ← readU64
  let address ← readBeAddress
  let port ← readSwappedU16
  pure { services, address, port }

end Address

/-- `AddrV2`; the addresses of the two kinds of IPv6 are their segments. -/
inductive AddrV2 where
  | ipv4 (addr : ByteArr 4)
  | ipv6 (addr : Words)
  | torV2 (bytes : ByteArr 10)
  | torV3 (bytes : ByteArr 32)
  | i2p (bytes : ByteArr 32)
  | cjdns (addr : Words)
  | unknown (network : UInt8) (bytes : ByteVec)
deriving DecidableEq

namespace AddrV2

/-- `Ipv6Addr::octets`. -/
def octets (addr : Words) : Bytes := addr.val.flatMap fun word => bigEndianBytes 2 word.toNat

def encodeAddr (network : UInt8) (bytes : Bytes) : Emission IoError :=
  encodeU8 network ++ VarInt.consensusEncode (UInt64.ofNat bytes.length) ++
  .counted bytes.length bytes

def consensusEncode : AddrV2 → Emission IoError
  | .ipv4 addr => encodeAddr 1 addr.val
  | .ipv6 addr => encodeAddr 2 (octets addr)
  | .torV2 bytes => encodeAddr 3 bytes.val
  | .torV3 bytes => encodeAddr 4 bytes.val
  | .i2p bytes => encodeAddr 5 bytes.val
  | .cjdns addr => encodeAddr 6 (octets addr)
  | .unknown network bytes => encodeAddr network bytes.toList

/-- An array behind a length that must be its own. -/
def decodeArray (n : Nat) (len : UInt64) (message : String) (make : ByteArr n → AddrV2) :
    Decoder Error AddrV2 :=
  if len ≠ UInt64.ofNat n then Decoder.fail (.parseFailed message) else make <$> readExact n

def decodeIpv6 (len : UInt64) : Decoder Error AddrV2 :=
  if len ≠ 16 then Decoder.fail (.parseFailed "Invalid IPv6 address")
  else do
    let addr ← readBeAddress
    if addr.val.take 3 = onion then
      Decoder.fail (.parseFailed "OnionCat address sent with IPv6 network id")
    else if addr.val.take 6 = [0x0000, 0x0000, 0x0000, 0x0000, 0x0000, 0xFFFF] then
      Decoder.fail (.parseFailed "IPV4 wrapped address sent with IPv6 network id")
    else pure (.ipv6 addr)

def decodeCjdns (len : UInt64) : Decoder Error AddrV2 :=
  if len ≠ 16 then Decoder.fail (.parseFailed "Invalid CJDNS address")
  else do
    let addr ← readBeAddress
    -- the marker is the first byte
    if addr.val.headD 0 >>> 8 ≠ 0xFC then Decoder.fail (.parseFailed "Invalid CJDNS address")
    else pure (.cjdns addr)

theorem unknown_fits {len : UInt64} (addr : ByteArr len.toNat) : addr.val.length < 2 ^ 64 := by
  rw [addr.property]
  exact len.toNat_lt

def decodeUnknown (network : UInt8) (len : UInt64) : Decoder Error AddrV2 := do
  let addr ← readExact len.toNat
  pure (.unknown network ⟨addr.val, unknown_fits addr⟩)

/-- The address proper, once its network and length are known. -/
def decodeOf (network : UInt8) (len : UInt64) : Decoder Error AddrV2 :=
  if network = 1 then decodeArray 4 len "Invalid IPv4 address" .ipv4
  else if network = 2 then decodeIpv6 len
  else if network = 3 then decodeArray 10 len "Invalid TorV2 address" .torV2
  else if network = 4 then decodeArray 32 len "Invalid TorV3 address" .torV3
  else if network = 5 then decodeArray 32 len "Invalid I2P address" .i2p
  else if network = 6 then decodeCjdns len
  else decodeUnknown network len

def consensusDecode : Decoder Error AddrV2 := do
  let networkId ← readU8
  let len ← VarInt.consensusDecode
  if 512 < len then Decoder.fail (.parseFailed "IP must be <= 512 bytes")
  else decodeOf networkId len

end AddrV2

structure AddrV2Message where
  time : UInt32
  services : ServiceFlags
  addr : AddrV2
  port : UInt16
deriving DecidableEq

namespace AddrV2Message

def consensusEncode (message : AddrV2Message) : Emission IoError :=
  encodeU32 message.time ++
  VarInt.consensusEncode message.services ++
  message.addr.consensusEncode ++
  encodeBeU16 message.port

def consensusDecode : Decoder Error AddrV2Message := do
  let time ← readU32
  let services ← VarInt.consensusDecode
  let addr ← AddrV2.consensusDecode
  let port ← readSwappedU16
  pure { time, services, addr, port }

end AddrV2Message

/-- `(u32, Address)`. -/
def encodeTimed (entry : UInt32 × Address) : Emission IoError :=
  encodeU32 entry.1 ++ entry.2.consensusEncode

def readTimed : Decoder Error (UInt32 × Address) := do
  let time ← readU32
  let address ← Address.consensusDecode
  pure (time, address)

theorem readBeU16_codec :
    Codec encodeBeU16 readBeU16 (fun word => bigEndianBytes 2 word.toNat) where
  emits word := Emission.counted_eq_written (by simp [bigEndianBytes])
  reads := by
    intro bytes word rest
    simp only [readBeU16, Decoder.map_eq_ok, (readExact_codec 2).reads _ _ _, true_and, bigEndianBytes]
    constructor
    · rintro ⟨⟨buf, length⟩, rfl, rfl⟩
      have reversed : buf.reverse.length = 2 := by rw [List.length_reverse, length]
      have fits := fromLittleEndian_lt buf.reverse
      rw [reversed] at fits
      have image := littleEndian_fromLittleEndian buf.reverse
      rw [reversed] at image
      rw [UInt16.toNat_ofNat_of_lt' fits, image, List.reverse_reverse]
    · rintro rfl
      refine ⟨⟨(littleEndian 2 word.toNat).reverse, by simp⟩, rfl, ?_⟩
      rw [List.reverse_reverse, fromLittleEndian_littleEndian word.toNat_lt, UInt16.ofNat_toNat]

theorem swapBytes_toNat (word : UInt16) :
    (swapBytes word).toNat = word.toNat % 256 * 256 + word.toNat / 256 := by
  have fits := word.toNat_lt
  have high : word.toNat <<< 8 % 2 ^ 16 = (word.toNat % 256) <<< 8 := by
    rw [Nat.shiftLeft_eq, Nat.shiftLeft_eq]
    omega
  have low : word.toNat >>> 8 = word.toNat / 256 := Nat.shiftRight_eq_div_pow _ _
  have joined := Nat.shiftLeft_add_eq_or_of_lt (i := 8) (b := word.toNat / 256) (by omega)
    (word.toNat % 256)
  rw [swapBytes, UInt16.toNat_or, UInt16.toNat_shiftLeft, UInt16.toNat_shiftRight]
  change word.toNat <<< 8 % 2 ^ 16 ||| word.toNat >>> 8 = _
  rw [high, low, ← joined, Nat.shiftLeft_eq]

theorem swapBytes_swapBytes (word : UInt16) : swapBytes (swapBytes word) = word := by
  have fits := word.toNat_lt
  rw [← UInt16.toNat_inj, swapBytes_toNat, swapBytes_toNat]
  omega

theorem bigEndianBytes_swapBytes (word : UInt16) :
    bigEndianBytes 2 (swapBytes word).toNat = littleEndian 2 word.toNat := by
  have fits := word.toNat_lt
  have high : (word.toNat % 256 * 256 + word.toNat / 256) / 256 = word.toNat % 256 := by omega
  rw [swapBytes_toNat, bigEndianBytes]
  simp only [littleEndian, List.reverse_cons, List.reverse_nil, List.nil_append,
    List.singleton_append, List.cons.injEq, and_true, ← UInt8.toNat_inj, UInt8.toNat_ofNat', high]
  omega

theorem readSwappedU16_codec :
    Codec encodeBeU16 readSwappedU16 (fun word => bigEndianBytes 2 word.toNat) where
  emits := readBeU16_codec.emits
  reads := by
    refine (readU16_codec.reads.map swapBytes swapBytes (fun a _ => swapBytes_swapBytes a)
      fun a _ => swapBytes_swapBytes a).congr (fun _ => Iff.rfl) fun word _ => ?_
    rw [Function.comp_apply, ← bigEndianBytes_swapBytes, swapBytes_swapBytes]

theorem readBeAddress_rewrites : Rewrites (fun words : Words => .each encodeBeU16 words.val)
    readBeAddress readBeAddress (fun _ => True) :=
  (readBeU16_codec.rewrites.times 8).weaken fun _ _ => ⟨trivial, rfl⟩

theorem Address.rewrites :
    Rewrites consensusEncode consensusDecode consensusDecode (fun _ => True) := by
  refine (Rewrites.field services readU64_codec.rewrites fun _ _ =>
    .field address readBeAddress_rewrites fun _ _ =>
    .last port readSwappedU16_codec.rewrites _ fun _ _ => ⟨⟨⟨trivial, rfl⟩, rfl⟩, rfl⟩).congr ?_
  intro address
  simp only [consensusEncode, Emission.append_assoc]

theorem readTimed_rewrites : Rewrites encodeTimed readTimed readTimed (fun _ => True) :=
  .field Prod.fst readU32_codec.rewrites fun _ _ =>
    .last Prod.snd Address.rewrites _ fun _ _ => ⟨⟨trivial, rfl⟩, rfl⟩

namespace AddrV2

def network : AddrV2 → UInt8
  | .ipv4 _ => 1
  | .ipv6 _ => 2
  | .torV2 _ => 3
  | .torV3 _ => 4
  | .i2p _ => 5
  | .cjdns _ => 6
  | .unknown network _ => network

/-- The bytes behind the length. -/
def body : AddrV2 → Bytes
  | .ipv4 addr => addr.val
  | .ipv6 addr => octets addr
  | .torV2 bytes => bytes.val
  | .torV3 bytes => bytes.val
  | .i2p bytes => bytes.val
  | .cjdns addr => octets addr
  | .unknown _ bytes => bytes.toList

theorem consensusEncode_eq (addr : AddrV2) : addr.consensusEncode =
    encodeU8 addr.network ++
      (VarInt.consensusEncode (UInt64.ofNat addr.body.length) ++ .written addr.body) := by
  rw [← Emission.append_assoc]
  cases addr <;> rfl

theorem octets_length (addr : Words) : (octets addr).length = 16 := by
  obtain ⟨words, count⟩ := addr
  rw [octets, List.length_flatMap]
  simp [bigEndianBytes, count]

/-- An address of the announced network and length. -/
def Announced (id : UInt8) (len : UInt64) (addr : AddrV2) : Prop :=
  addr.network = id ∧ UInt64.ofNat addr.body.length = len

abbrev RewritesBody (d : Decoder Error AddrV2) (id : UInt8) (len : UInt64) : Prop :=
  Rewrites (fun addr => (.written addr.body : Emission IoError)) d d (Announced id len)

theorem decodeArray_rewrites {id : UInt8} {make : ByteArr n → AddrV2} (message : String)
    (made : ∀ bytes, (make bytes).network = id ∧ (make bytes).body = bytes.val) :
    RewritesBody (decodeArray n len message make) id len := by
  refine .ite (fun _ => .fail _) fun same => ?_
  refine (readExact_codec n).rewrites.map make fun bytes _ => ?_
  obtain ⟨network, body⟩ := made bytes
  refine ⟨⟨network, ?_⟩, by rw [body]; rfl⟩
  rw [body, bytes.property]
  exact (not_not.mp same).symm

/-- What is read of the segments of an address, when a test follows. -/
theorem segments_rewrites {id : UInt8} (make : Words → AddrV2) {test : Words → Decoder Error AddrV2}
    (made : ∀ addr, (make addr).network = id ∧ (make addr).body = octets addr)
    (tested : ∀ addr, (∃ e, test addr = .fail e) ∨ test addr = pure (make addr)) (len16 : len = 16) :
    RewritesBody (readBeAddress >>= test) id len := by
  have last (addr : Words) (_ : True) :
      Rewrites (fun _ => (.written [] : Emission IoError)) (test addr) (test addr)
        (fun read => read = make addr) := by
    obtain ⟨e, fails⟩ | passes := tested addr
    · rw [fails]
      exact .fail e
    · rw [passes]
      exact .done rfl
  refine readBeAddress_rewrites.bind last fun addr read _ same => ?_
  subst same len16
  obtain ⟨network, body⟩ := made addr
  refine ⟨⟨network, ?_⟩, ?_⟩
  · rw [body, octets_length]
    rfl
  · rw [body, Emission.append_nothing]
    exact (Emission.each_written fun word _ => readBeU16_codec.emits word).symm

theorem decodeIpv6_rewrites (len : UInt64) : RewritesBody (decodeIpv6 len) 2 len := by
  refine .ite (fun _ => .fail _) fun same => ?_
  refine segments_rewrites .ipv6 (fun _ => ⟨rfl, rfl⟩) (fun addr => ?_) (not_not.mp same)
  split_ifs
  · exact .inl ⟨_, rfl⟩
  · exact .inl ⟨_, rfl⟩
  · exact .inr rfl

theorem decodeCjdns_rewrites (len : UInt64) : RewritesBody (decodeCjdns len) 6 len := by
  refine .ite (fun _ => .fail _) fun same => ?_
  refine segments_rewrites .cjdns (fun _ => ⟨rfl, rfl⟩) (fun addr => ?_) (not_not.mp same)
  split_ifs
  · exact .inl ⟨_, rfl⟩
  · exact .inr rfl

theorem decodeUnknown_rewrites (id : UInt8) (len : UInt64) :
    RewritesBody (decodeUnknown id len) id len := by
  refine (readExact_codec len.toNat).rewrites.finish _ fun bytes _ => ⟨⟨rfl, ?_⟩, rfl⟩
  rw [body, bytes.property, UInt64.ofNat_toNat]

theorem decodeOf_rewrites (id : UInt8) (len : UInt64) : RewritesBody (decodeOf id len) id len := by
  refine .ite (fun same => same ▸ decodeArray_rewrites _ fun _ => ⟨rfl, rfl⟩) fun _ =>
    .ite (fun same => same ▸ decodeIpv6_rewrites len) fun _ =>
    .ite (fun same => same ▸ decodeArray_rewrites _ fun _ => ⟨rfl, rfl⟩) fun _ =>
    .ite (fun same => same ▸ decodeArray_rewrites _ fun _ => ⟨rfl, rfl⟩) fun _ =>
    .ite (fun same => same ▸ decodeArray_rewrites _ fun _ => ⟨rfl, rfl⟩) fun _ =>
    .ite (fun same => same ▸ decodeCjdns_rewrites len) fun _ => decodeUnknown_rewrites id len

theorem rewrites : Rewrites consensusEncode consensusDecode consensusDecode (fun _ => True) := by
  have located (id : UInt8) (_ : True) (len : UInt64) (_ : True) :
      RewritesBody (if 512 < len then Decoder.fail (.parseFailed "IP must be <= 512 bytes")
        else decodeOf id len) id len :=
    .ite (fun _ => .fail _) fun _ => decodeOf_rewrites id len
  have sized (id : UInt8) (_ : True) : Rewrites
      (fun addr : AddrV2 => VarInt.consensusEncode (UInt64.ofNat addr.body.length) ++ .written addr.body)
      _ _ (fun addr : AddrV2 => addr.network = id) :=
    VarInt.codec.rewrites.bind (located id trivial) fun len addr _ announced =>
      ⟨announced.1, by rw [announced.2]⟩
  refine readU8_codec.rewrites.bind sized fun id addr _ network => ⟨trivial, ?_⟩
  rw [consensusEncode_eq, network]

end AddrV2

theorem AddrV2Message.rewrites :
    Rewrites consensusEncode consensusDecode consensusDecode (fun _ => True) := by
  refine (Rewrites.field time readU32_codec.rewrites fun _ _ =>
    .field services VarInt.codec.rewrites fun _ _ =>
    .field addr AddrV2.rewrites fun _ _ =>
    .last port readSwappedU16_codec.rewrites _ fun _ _ => ⟨⟨⟨⟨trivial, rfl⟩, rfl⟩, rfl⟩, rfl⟩).congr ?_
  intro message
  simp only [consensusEncode, Emission.append_assoc]

end Litecoin.P2p
