import Litecoin.P2p.Address

/-! Addresses of the network families (BIP155): those that are read back, and what becomes of
the bytes of the others. -/
namespace Litecoin.P2p
open Wire Consensus

theorem exists_words {bytes : Bytes} (length : bytes.length = 2 * n) :
    ∃ words : List UInt16, words.length = n ∧
      (words.flatMap fun word => bigEndianBytes 2 word.toNat) = bytes := by
  induction n generalizing bytes with
  | zero => exact ⟨[], rfl, (List.eq_nil_of_length_eq_zero length).symm⟩
  | succ n ih =>
    obtain ⟨high, tail, rfl⟩ := List.exists_cons_of_length_eq_add_one (length : _ = 2 * n + 1 + 1)
    obtain ⟨low, others, rfl⟩ := List.exists_cons_of_length_eq_add_one (Nat.succ.inj length)
    obtain ⟨words, count, rfl⟩ := ih (Nat.succ.inj (Nat.succ.inj length))
    have pair : ∃ word, readBeU16 [high, low] = .ok (word, []) := ⟨_, rfl⟩
    obtain ⟨word, read⟩ := pair
    obtain ⟨-, same⟩ := (readBeU16_codec.reads _ _ _).mp read
    refine ⟨word :: words, by rw [List.length_cons, count], ?_⟩
    rw [List.flatMap_cons, ← List.append_nil (bigEndianBytes 2 word.toNat), ← same]
    rfl

/-- Segments start alike exactly when their bytes do. -/
theorem flatMap_prefix {words others : List UInt16} :
    (words.flatMap fun word => bigEndianBytes 2 word.toNat) <+:
      (others.flatMap fun word => bigEndianBytes 2 word.toNat) ↔ words <+: others := by
  induction words generalizing others with
  | nil => simp
  | cons word words ih =>
    cases others with
    | nil =>
      refine iff_of_false (fun starts => ?_) (by simp)
      have none := congrArg List.length (List.prefix_nil.mp starts)
      simp [bigEndianBytes] at none
    | cons other others =>
      rw [List.flatMap_cons, List.flatMap_cons, List.cons_prefix_cons, ← ih]
      constructor
      · rintro ⟨rest, same⟩
        rw [List.append_assoc] at same
        obtain ⟨rfl, tails⟩ := readBeU16_codec.reads.unique trivial trivial same
        exact ⟨rfl, rest, tails⟩
      · rintro ⟨rfl, starts⟩
        exact (List.prefix_append_right_inj _).mpr starts

namespace AddrV2

/-- `fd87:d87e:eb43::/48`. -/
def onionCat : Bytes := [0xFD, 0x87, 0xD8, 0x7E, 0xEB, 0x43]

/-- `::ffff:0:0/96`. -/
def ipv4Mapped : Bytes := [0, 0, 0, 0, 0, 0, 0, 0, 0, 0, 0xFF, 0xFF]

/-- The networks that have a variant of their own. -/
def knownNetworks : List UInt8 := [1, 2, 3, 4, 5, 6]

/-- The length or the content is not one of the network. -/
def Misfits (network : UInt8) (bytes : Bytes) : Prop :=
  (network = 1 ∧ bytes.length ≠ 4) ∨
  (network = 2 ∧ (bytes.length ≠ 16 ∨ onionCat <+: bytes ∨ ipv4Mapped <+: bytes)) ∨
  (network = 3 ∧ bytes.length ≠ 10) ∨
  (network = 4 ∧ bytes.length ≠ 32) ∨
  (network = 5 ∧ bytes.length ≠ 32) ∨
  (network = 6 ∧ (bytes.length ≠ 16 ∨ ¬ [0xFC] <+: bytes))

/-- The addresses that are not read back at all. -/
def Refused : AddrV2 → Prop
  | .ipv6 addr => onionCat <+: octets addr ∨ ipv4Mapped <+: octets addr
  | .cjdns addr => ¬ [0xFC] <+: octets addr
  | .unknown network bytes => 512 < bytes.toList.length ∨ Misfits network bytes.toList
  | .ipv4 _ | .torV2 _ | .torV3 _ | .i2p _ => False

/-- An address that holds no network with a variant of its own as an unknown one. -/
def Proper : AddrV2 → Prop
  | .unknown network _ => network ∉ knownNetworks
  | _ => True

def wire (addr : AddrV2) : Bytes :=
  littleEndian 1 addr.network.toNat ++ (VarInt.wire (UInt64.ofNat addr.body.length) ++ addr.body)

theorem consensusEncode_wire (addr : AddrV2) : addr.consensusEncode = .written addr.wire := by
  rw [consensusEncode_eq, readU8_codec.emits, VarInt.codec.emits, Emission.written_append,
    Emission.written_append, wire]

theorem body_length_lt (addr : AddrV2) : addr.body.length < 2 ^ 64 := by
  cases addr with
  | ipv4 addr => rw [body, addr.property]; decide
  | ipv6 addr => rw [body, octets_length]; decide
  | torV2 bytes => rw [body, bytes.property]; decide
  | torV3 bytes => rw [body, bytes.property]; decide
  | i2p bytes => rw [body, bytes.property]; decide
  | cjdns addr => rw [body, octets_length]; decide
  | unknown network bytes => exact bytes.fits

theorem onionCat_prefix_iff (addr : Words) : onionCat <+: octets addr ↔ addr.val.take 3 = onion := by
  have segments : onionCat = onion.flatMap fun word => bigEndianBytes 2 word.toNat := by decide
  rw [segments, octets, flatMap_prefix, List.prefix_iff_eq_take, eq_comm]
  rfl

theorem ipv4Mapped_prefix_iff (addr : Words) : ipv4Mapped <+: octets addr ↔
    addr.val.take 6 = [0x0000, 0x0000, 0x0000, 0x0000, 0x0000, 0xFFFF] := by
  have segments : ipv4Mapped = [0x0000, 0x0000, 0x0000, 0x0000, 0x0000, 0xFFFF].flatMap
      fun word : UInt16 => bigEndianBytes 2 word.toNat := by decide
  rw [segments, octets, flatMap_prefix, List.prefix_iff_eq_take, eq_comm]
  rfl

/-- The first byte is the high one of the first segment. -/
theorem marker_prefix_iff (addr : Words) :
    [0xFC] <+: octets addr ↔ addr.val.headD 0 >>> 8 = 0xFC := by
  obtain ⟨words, count⟩ := addr
  obtain ⟨word, others, rfl⟩ := List.exists_cons_of_length_eq_add_one count
  have fits := word.toNat_lt
  have high : (word >>> 8).toNat = word.toNat / 256 := Nat.shiftRight_eq_div_pow _ _
  rw [octets, List.flatMap_cons, List.headD_cons, ← UInt16.toNat_inj, high]
  simp only [bigEndianBytes, littleEndian, List.reverse_cons, List.reverse_nil, List.nil_append,
    List.cons_append, List.cons_prefix_cons, List.nil_prefix, and_true,
    ← UInt8.toNat_inj, UInt8.toNat_ofNat', UInt8.reduceToNat, UInt16.reduceToNat]
  omega

theorem Misfits.known {network : UInt8} {bytes : Bytes} (misfits : Misfits network bytes) :
    network ∈ knownNetworks := by
  rcases misfits with ⟨rfl, -⟩ | ⟨rfl, -⟩ | ⟨rfl, -⟩ | ⟨rfl, -⟩ | ⟨rfl, -⟩ | ⟨rfl, -⟩ <;> decide

/-- Refusal is about the network and the bytes. -/
theorem refused_iff (addr : AddrV2) :
    addr.Refused ↔ 512 < addr.body.length ∨ Misfits addr.network addr.body := by
  cases addr with
  | ipv4 addr => simp [Refused, Misfits, body, network, addr.property]
  | ipv6 addr => simp [Refused, Misfits, body, network, octets_length]
  | torV2 bytes => simp [Refused, Misfits, body, network, bytes.property]
  | torV3 bytes => simp [Refused, Misfits, body, network, bytes.property]
  | i2p bytes => simp [Refused, Misfits, body, network, bytes.property]
  | cjdns addr => simp [Refused, Misfits, body, network, octets_length]
  | unknown network bytes => rfl

/-- The bytes of a known network that fit are those of an address of its variant. -/
theorem exists_known {network : UInt8} {bytes : Bytes} (known : network ∈ knownNetworks)
    (fits : ¬ Misfits network bytes) :
    ∃ addr : AddrV2, addr.Proper ∧ addr.network = network ∧ addr.body = bytes := by
  simp only [knownNetworks, List.mem_cons, List.not_mem_nil, or_false] at known
  rcases known with rfl | rfl | rfl | rfl | rfl | rfl
  · exact ⟨.ipv4 ⟨bytes, by simpa [Misfits] using fits⟩, trivial, rfl, rfl⟩
  · have length : bytes.length = 2 * 8 := by
      by_contra other
      exact fits (.inr (.inl ⟨rfl, .inl other⟩))
    obtain ⟨words, count, same⟩ := exists_words length
    exact ⟨.ipv6 ⟨words, count⟩, trivial, rfl, same⟩
  · exact ⟨.torV2 ⟨bytes, by simpa [Misfits] using fits⟩, trivial, rfl, rfl⟩
  · exact ⟨.torV3 ⟨bytes, by simpa [Misfits] using fits⟩, trivial, rfl, rfl⟩
  · exact ⟨.i2p ⟨bytes, by simpa [Misfits] using fits⟩, trivial, rfl, rfl⟩
  · have length : bytes.length = 2 * 8 := by
      by_contra other
      exact fits (by simp [Misfits, other])
    obtain ⟨words, count, same⟩ := exists_words length
    exact ⟨.cjdns ⟨words, count⟩, trivial, rfl, same⟩

theorem decodeArray_body {n : Nat} {make : ByteArr n → AddrV2} (message : String) (bytes : ByteArr n)
    (rest : Bytes) :
    decodeArray n (UInt64.ofNat bytes.val.length) message make (bytes.val ++ rest) =
      .ok (make bytes, rest) := by
  rw [bytes.property, decodeArray, if_neg (not_not.mpr rfl)]
  exact Decoder.map_eq_ok.mpr ⟨bytes, (readExact_codec n).reads.read trivial rest, rfl⟩

theorem readBeAddress_octets (addr : Words) (rest : Bytes) :
    readBeAddress (octets addr ++ rest) = .ok (addr, rest) := by
  have reads := readBeU16_codec.reads.times 8
  exact reads.read (fun _ _ => trivial) rest

/-- Every address that is proper and not refused is read from its body. -/
theorem decodeOf_body {addr : AddrV2} (proper : addr.Proper) (admitted : ¬ addr.Refused)
    (rest : Bytes) :
    decodeOf addr.network (UInt64.ofNat addr.body.length) (addr.body ++ rest) = .ok (addr, rest) := by
  cases addr with
  | ipv4 addr => exact decodeArray_body _ addr rest
  | torV2 bytes => exact decodeArray_body _ bytes rest
  | torV3 bytes => exact decodeArray_body _ bytes rest
  | i2p bytes => exact decodeArray_body _ bytes rest
  | ipv6 addr =>
    obtain ⟨onionFree, mappedFree⟩ := not_or.mp admitted
    rw [onionCat_prefix_iff] at onionFree
    rw [ipv4Mapped_prefix_iff] at mappedFree
    change decodeIpv6 (UInt64.ofNat (octets addr).length) (octets addr ++ rest) = _
    rw [octets_length, decodeIpv6, if_neg (by decide)]
    refine Decoder.bind_eq_ok.mpr ⟨addr, rest, readBeAddress_octets addr rest, ?_⟩
    rw [if_neg onionFree, if_neg mappedFree]
    rfl
  | cjdns addr =>
    have marked := (marker_prefix_iff addr).mp (not_not.mp admitted)
    change decodeCjdns (UInt64.ofNat (octets addr).length) (octets addr ++ rest) = _
    rw [octets_length, decodeCjdns, if_neg (by decide)]
    refine Decoder.bind_eq_ok.mpr ⟨addr, rest, readBeAddress_octets addr rest, ?_⟩
    rw [if_neg (not_not.mpr marked)]
    rfl
  | unknown network bytes =>
    simp only [Proper, knownNetworks, List.mem_cons, List.not_mem_nil, or_false, not_or] at proper
    obtain ⟨one, two, three, four, five, six⟩ := proper
    have whole : bytes.toList.length = (UInt64.ofNat bytes.toList.length).toNat :=
      (UInt64.toNat_ofNat_of_lt' bytes.fits).symm
    rw [AddrV2.network, body, decodeOf, if_neg one, if_neg two, if_neg three, if_neg four, if_neg five,
      if_neg six]
    have read := (readExact_codec _).reads.read (a := ⟨bytes.toList, whole⟩) trivial rest
    exact Decoder.bind_eq_ok.mpr ⟨⟨bytes.toList, whole⟩, rest, read, rfl⟩

/-- Only such addresses are read. -/
theorem decodeOf_admits {id : UInt8} {len : UInt64} (short : ¬ 512 < len)
    (read : decodeOf id len bytes = .ok (addr, rest)) : addr.Proper ∧ ¬ addr.Refused := by
  have array {n : Nat} {message : String} (make : ByteArr n → AddrV2)
      (made : ∀ bytes, (make bytes).Proper ∧ ¬ (make bytes).Refused)
      (read : decodeArray n len message make bytes = .ok (addr, rest)) :
      addr.Proper ∧ ¬ addr.Refused := by
    rw [decodeArray] at read
    split_ifs at read
    · contradiction
    · obtain ⟨bytes, -, rfl⟩ := Decoder.map_eq_ok.mp read
      exact made bytes
  rw [decodeOf] at read
  split_ifs at read with one two three four five six
  · exact array .ipv4 (fun _ => ⟨trivial, not_false⟩) read
  · rw [decodeIpv6] at read
    split_ifs at read
    · contradiction
    obtain ⟨words, middle, -, read⟩ := Decoder.bind_eq_ok.mp read
    split_ifs at read with onionCat ipv4Mapped
    · contradiction
    · contradiction
    obtain ⟨rfl, -⟩ := Decoder.pure_eq_ok.mp read
    rw [← onionCat_prefix_iff] at onionCat
    rw [← ipv4Mapped_prefix_iff] at ipv4Mapped
    exact ⟨trivial, not_or.mpr ⟨onionCat, ipv4Mapped⟩⟩
  · exact array .torV2 (fun _ => ⟨trivial, not_false⟩) read
  · exact array .torV3 (fun _ => ⟨trivial, not_false⟩) read
  · exact array .i2p (fun _ => ⟨trivial, not_false⟩) read
  · rw [decodeCjdns] at read
    split_ifs at read
    · contradiction
    obtain ⟨words, middle, -, read⟩ := Decoder.bind_eq_ok.mp read
    split_ifs at read with marker
    · contradiction
    obtain ⟨rfl, -⟩ := Decoder.pure_eq_ok.mp read
    exact ⟨trivial, not_not.mpr ((marker_prefix_iff words).mpr (not_not.mp marker))⟩
  · obtain ⟨bytes, middle, -, read⟩ := Decoder.bind_eq_ok.mp read
    obtain ⟨rfl, -⟩ := Decoder.pure_eq_ok.mp read
    have proper : id ∉ knownNetworks := by simp [knownNetworks, one, two, three, four, five, six]
    refine ⟨proper, not_or.mpr ⟨?_, fun misfits => proper misfits.known⟩⟩
    rw [bytes.property]
    exact short

/-- What is accepted is the image of a proper address that is not refused, which is read back. -/
theorem reads : Reads consensusDecode wire fun addr => addr.Proper ∧ ¬ addr.Refused := by
  intro bytes addr rest
  have fits := UInt64.toNat_ofNat_of_lt' addr.body_length_lt
  constructor
  · intro read
    obtain ⟨image, emitted, -, -, same⟩ := AddrV2.rewrites.rewritten read
    rw [consensusEncode_wire] at emitted
    obtain rfl := (Prod.mk.inj (Except.ok.inj emitted)).2
    refine ⟨?_, same.mp read⟩
    obtain ⟨id, middle, -, read⟩ := Decoder.bind_eq_ok.mp read
    obtain ⟨len, middle, -, read⟩ := Decoder.bind_eq_ok.mp read
    split_ifs at read with long
    · contradiction
    · exact decodeOf_admits long read
  · rintro ⟨⟨proper, admitted⟩, rfl⟩
    rw [wire, List.append_assoc, List.append_assoc]
    refine Decoder.bind_eq_ok.mpr ⟨_, _, readU8_codec.reads.read trivial _, ?_⟩
    refine Decoder.bind_eq_ok.mpr ⟨_, _, VarInt.reads.read trivial _, ?_⟩
    have short := not_or.mp ((refused_iff addr).not.mp admitted) |>.1
    rw [if_neg (by rw [UInt64.lt_iff_toNat_lt, fits]; exact short)]
    exact decodeOf_body proper admitted rest

/-- Another address with the network and the bytes of a given one has its image. -/
theorem wire_congr {addr other : AddrV2} (sameNetwork : addr.network = other.network)
    (sameBody : addr.body = other.body) : addr.wire = other.wire := by
  rw [wire, wire, sameNetwork, sameBody]

theorem wire_inj {addr other : AddrV2} (same : addr.wire ++ rest = other.wire ++ left) :
    addr.network = other.network ∧ addr.body = other.body := by
  rw [wire, wire, List.append_assoc, List.append_assoc, List.append_assoc, List.append_assoc] at same
  obtain ⟨sameNetwork, same⟩ := readU8_codec.reads.unique trivial trivial same
  obtain ⟨sameLength, same⟩ := VarInt.reads.unique trivial trivial same
  have lengths := congrArg UInt64.toNat sameLength
  rw [UInt64.toNat_ofNat_of_lt' addr.body_length_lt,
    UInt64.toNat_ofNat_of_lt' other.body_length_lt] at lengths
  exact ⟨sameNetwork, (List.append_inj same lengths).1⟩

/-- Nothing is read from the image of a refused address. -/
theorem Refused.refuses {addr : AddrV2} (refused : addr.Refused) (rest : Bytes) :
    Decoder.Refuses consensusDecode (addr.wire ++ rest) := by
  intro (read, left) accepted
  obtain ⟨⟨-, admitted⟩, same⟩ := (reads _ _ _).mp accepted
  obtain ⟨sameNetwork, sameBody⟩ := wire_inj same
  rw [refused_iff, sameNetwork, sameBody, ← refused_iff] at refused
  exact admitted refused

/-- An address is read back, and one that is not proper as the proper one of its bytes. -/
theorem exists_read {addr : AddrV2} (admitted : ¬ addr.Refused) :
    ∃ read : AddrV2, (addr.Proper → read = addr) ∧
      (read.Proper ∧ read.network = addr.network ∧ read.body = addr.body) ∧
      ∀ rest, consensusDecode (addr.wire ++ rest) = .ok (read, rest) := by
  by_cases proper : addr.Proper
  · exact ⟨addr, fun _ => rfl, ⟨proper, rfl, rfl⟩, reads.read ⟨proper, admitted⟩⟩
  · obtain ⟨read, properRead, sameNetwork, sameBody⟩ : ∃ read : AddrV2,
        read.Proper ∧ read.network = addr.network ∧ read.body = addr.body := by
      have fits := not_or.mp ((refused_iff addr).not.mp admitted) |>.2
      refine exists_known ?_ fits
      cases addr with
      | unknown network bytes => exact not_not.mp proper
      | _ => exact absurd trivial proper
    have admittedRead : ¬ read.Refused := by
      rw [refused_iff, sameNetwork, sameBody, ← refused_iff]
      exact admitted
    refine ⟨read, fun isProper => absurd isProper proper, ⟨properRead, sameNetwork, sameBody⟩, ?_⟩
    rw [← wire_congr sameNetwork sameBody]
    exact reads.read ⟨properRead, admittedRead⟩

end AddrV2
namespace AddrV2Message

def wire (message : AddrV2Message) : Bytes :=
  littleEndian 4 message.time.toNat ++ (VarInt.wire message.services ++
    (message.addr.wire ++ bigEndianBytes 2 message.port.toNat))

theorem consensusEncode_wire (message : AddrV2Message) :
    message.consensusEncode = .written message.wire := by
  simp only [consensusEncode, readU32_codec.emits, VarInt.codec.emits, AddrV2.consensusEncode_wire,
    readSwappedU16_codec.emits, Emission.written_append, wire, List.append_assoc]

theorem consensusDecode_wire {message : AddrV2Message} {read : AddrV2}
    (back : ∀ rest, AddrV2.consensusDecode (message.addr.wire ++ rest) = .ok (read, rest))
    (rest : Bytes) :
    consensusDecode (message.wire ++ rest) = .ok ({ message with addr := read }, rest) := by
  simp only [wire, List.append_assoc]
  refine Decoder.bind_eq_ok.mpr ⟨_, _, readU32_codec.reads.read trivial _, ?_⟩
  refine Decoder.bind_eq_ok.mpr ⟨_, _, VarInt.reads.read trivial _, ?_⟩
  refine Decoder.bind_eq_ok.mpr ⟨_, _, back _, ?_⟩
  exact Decoder.bind_eq_ok.mpr ⟨_, _, readSwappedU16_codec.reads.read trivial _, rfl⟩

theorem refuses_wire {message : AddrV2Message} (refused : message.addr.Refused) (rest : Bytes) :
    Decoder.Refuses consensusDecode (message.wire ++ rest) := by
  simp only [wire, List.append_assoc]
  refine Decoder.Refuses.after (readU32_codec.reads.read trivial _) ?_
  refine Decoder.Refuses.after (VarInt.reads.read trivial _) ?_
  exact (refused.refuses _).bind _

/-- Accepted bytes are the encoding of what is read. An encoding is read as its message; as an
error if the address is refused; and if an unknown address holds a known network, as that
network's address of the same bytes. -/
theorem comes_back :
    (∀ bytes message rest, consensusDecode bytes = .ok (message, rest) →
      ∃ image, message.consensusEncode = .written image ∧ bytes = image ++ rest) ∧
    ∀ message : AddrV2Message, ∃ image, message.consensusEncode = .written image ∧
      (message.addr.Refused → ∀ rest, ∃ e, consensusDecode (image ++ rest) = .error e) ∧
      (¬ message.addr.Refused → ∃ read : AddrV2,
        (message.addr.Proper → read = message.addr) ∧
        (read.Proper ∧ read.network = message.addr.network ∧ read.body = message.addr.body) ∧
        ∀ rest, consensusDecode (image ++ rest) = .ok ({ message with addr := read }, rest)) := by
  constructor
  · intro bytes message rest read
    obtain ⟨image, emitted, -, -, same⟩ := AddrV2Message.rewrites.rewritten read
    exact ⟨image, emitted, same.mp read⟩
  · intro message
    refine ⟨_, message.consensusEncode_wire, fun refused rest => ?_, fun admitted => ?_⟩
    · have refuses := refuses_wire refused rest
      cases result : consensusDecode (message.wire ++ rest) with
      | error e => exact ⟨e, rfl⟩
      | ok read => exact absurd result (refuses read)
    · obtain ⟨read, proper, same, back⟩ := AddrV2.exists_read admitted
      exact ⟨read, proper, same, consensusDecode_wire back⟩

/-- A CJDNS address, `fc00::1`. -/
theorem cjdns_comes_back : ∃ image read,
    consensusEncode ⟨1700000000, 1, .cjdns ⟨[0xFC00, 0, 0, 0, 0, 0, 0, 1], rfl⟩, 9333⟩ =
        .written image ∧
      consensusDecode image = .ok (read, []) ∧
      read = ⟨1700000000, 1, .cjdns ⟨[0xFC00, 0, 0, 0, 0, 0, 0, 1], rfl⟩, 9333⟩ := by
  obtain ⟨image, emitted, -, back⟩ := comes_back.2
    ⟨1700000000, 1, .cjdns ⟨[0xFC00, 0, 0, 0, 0, 0, 0, 1], rfl⟩, 9333⟩
  obtain ⟨read, same, -, reads⟩ := back fun refused => refused (by decide)
  obtain rfl := same trivial
  have whole := reads []
  rw [List.append_nil] at whole
  exact ⟨image, _, emitted, whole, rfl⟩

end AddrV2Message

end Litecoin.P2p
