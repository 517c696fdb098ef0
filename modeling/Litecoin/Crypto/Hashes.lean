import Litecoin.Consensus.Encode

/-! The hash functions of the `hashes` crate. Nothing below depends on their values. -/
namespace Litecoin

class Hashes where
  ripemd160 : Wire.Bytes → Consensus.ByteArr 20
  sha256 : Wire.Bytes → Consensus.ByteArr 32
  hash160 : Wire.Bytes → Consensus.ByteArr 20
  sha256d : Wire.Bytes → Consensus.ByteArr 32
  /-- `TapLeafHash::from_engine`. -/
  tapLeaf : Wire.Bytes → Consensus.ByteArr 32
  /-- `TapNodeHash::from_engine`. -/
  tapBranch : Wire.Bytes → Consensus.ByteArr 32

/-- `HmacEngine<sha512::Hash>`, from the key and everything that was input. -/
class Hmac where
  sha512 : (key message : Wire.Bytes) → Consensus.ByteArr 64

/-- `TapTweakHash::from_engine`. -/
class TweakHash where
  tapTweak : Wire.Bytes → Consensus.ByteArr 32

/-- The hashes of the empty string, whatever is hashed. -/
@[reducible] def Hashes.ofEmpty : Hashes where
  ripemd160 _ := ⟨[0x9c, 0x11, 0x85, 0xa5, 0xc5, 0xe9, 0xfc, 0x54, 0x61, 0x28, 0x08, 0x97, 0x7e, 0xe8, 0xf5, 0x48,
    0xb2, 0x25, 0x8d, 0x31], rfl⟩
  sha256 _ := ⟨[0xe3, 0xb0, 0xc4, 0x42, 0x98, 0xfc, 0x1c, 0x14, 0x9a, 0xfb, 0xf4, 0xc8, 0x99, 0x6f, 0xb9, 0x24,
    0x27, 0xae, 0x41, 0xe4, 0x64, 0x9b, 0x93, 0x4c, 0xa4, 0x95, 0x99, 0x1b, 0x78, 0x52, 0xb8, 0x55], rfl⟩
  hash160 _ := ⟨[0xb4, 0x72, 0xa2, 0x66, 0xd0, 0xbd, 0x89, 0xc1, 0x37, 0x06, 0xa4, 0x13, 0x2c, 0xcf, 0xb1, 0x6f,
    0x7c, 0x3b, 0x9f, 0xcb], rfl⟩
  sha256d _ := ⟨[0x5d, 0xf6, 0xe0, 0xe2, 0x76, 0x13, 0x59, 0xd3, 0x0a, 0x82, 0x75, 0x05, 0x8e, 0x29, 0x9f, 0xcc,
    0x03, 0x81, 0x53, 0x45, 0x45, 0xf5, 0x5c, 0xf4, 0x3e, 0x41, 0x98, 0x3f, 0x5d, 0x4c, 0x94, 0x56], rfl⟩
  tapLeaf _ := ⟨[0x52, 0x12, 0xc2, 0x88, 0xa3, 0x77, 0xd1, 0xf8, 0x16, 0x49, 0x62, 0xa5, 0xa1, 0x34, 0x29, 0xf9,
    0xba, 0x6a, 0x7b, 0x84, 0xe5, 0x97, 0x76, 0xa5, 0x2c, 0x66, 0x37, 0xdf, 0x21, 0x06, 0xfa, 0xcb], rfl⟩
  tapBranch _ := ⟨[0x53, 0xc3, 0x73, 0xec, 0x4d, 0x6f, 0x3c, 0x53, 0xc1, 0xf5, 0xfb, 0x2f, 0xf5, 0x06, 0xdc, 0xef,
    0xe1, 0xa0, 0xed, 0x74, 0x87, 0x4f, 0x93, 0xfa, 0x93, 0xc8, 0x21, 0x4c, 0xbe, 0x9f, 0xfd, 0xdf], rfl⟩

end Litecoin
