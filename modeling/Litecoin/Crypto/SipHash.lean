import Litecoin.Wire.Endian

/-! SipHash-2-4 over a single input (`hashes/siphash24.rs`). -/
namespace Litecoin.SipHash
open Wire

/-- `State`. -/
structure State where
  v0 : UInt64
  v1 : UInt64
  v2 : UInt64
  v3 : UInt64

/-- `u64::rotate_left`, for a count below 64 and above 0. -/
def rotateLeft (x count : UInt64) : UInt64 := (x <<< count) ||| (x >>> (64 - count))

namespace State

/-- `HashEngine::with_keys`. -/
def withKeys (k0 k1 : UInt64) : State where
  v0 := k0 ^^^ 0x736f6d6570736575
  v1 := k1 ^^^ 0x646f72616e646f6d
  v2 := k0 ^^^ 0x6c7967656e657261
  v3 := k1 ^^^ 0x7465646279746573

/-- `compress!`. -/
def compress (s : State) : State :=
  let v0 := s.v0 + s.v1
  let v1 := rotateLeft s.v1 13
  let v1 := v1 ^^^ v0
  let v0 := rotateLeft v0 32
  let v2 := s.v2 + s.v3
  let v3 := rotateLeft s.v3 16
  let v3 := v3 ^^^ v2
  let v0 := v0 + v3
  let v3 := rotateLeft v3 21
  let v3 := v3 ^^^ v0
  let v2 := v2 + v1
  let v1 := rotateLeft v1 17
  let v1 := v1 ^^^ v2
  let v2 := rotateLeft v2 32
  { v0, v1, v2, v3 }

/-- `c_rounds`. -/
def cRounds (s : State) : State := s.compress.compress

/-- `d_rounds`. -/
def dRounds (s : State) : State := s.compress.compress.compress.compress

/-- One word of the message. -/
def absorb (s : State) (word : UInt64) : State :=
  let s := cRounds { s with v3 := s.v3 ^^^ word }
  { s with v0 := s.v0 ^^^ word }

/-- `input` of an engine that has no tail yet: full words, and the bytes left over. -/
def input (s : State) : Bytes → State × UInt64
  | a :: b :: c :: d :: e :: f :: g :: h :: rest =>
    input (s.absorb (UInt64.ofNat (fromLittleEndian [a, b, c, d, e, f, g, h]))) rest
  | tail => (s, UInt64.ofNat (fromLittleEndian tail))

end State

/-- `hash_to_u64_with_keys`. -/
def hashToU64WithKeys (k0 k1 : UInt64) (data : Bytes) : UInt64 :=
  let (state, tail) := (State.withKeys k0 k1).input data
  let last := (UInt64.ofNat data.length &&& 0xff) <<< 56 ||| tail
  let state := state.absorb last
  let state := State.dRounds { state with v2 := state.v2 ^^^ 0xff }
  state.v0 ^^^ state.v1 ^^^ state.v2 ^^^ state.v3

end Litecoin.SipHash
