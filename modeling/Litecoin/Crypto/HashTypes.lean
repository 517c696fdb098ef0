import Litecoin.Crypto.ConstHash
import Litecoin.Crypto.Hashes
import Litecoin.Crypto.SipHashEngine

/-! The trait `Hash` (`hashes/lib.rs`) and the hashes that are made of others (`sha256d.rs`,
`hash160.rs`, `sha384.rs`, `sha512_256.rs`, `sha256t.rs`, `hmac.rs`). A panic is `none`. -/
namespace Litecoin
open Wire Consensus

/-- `Hash` with its `HashEngine`. -/
structure HashType where
  Engine : Type
  blockSize : Nat
  len : Nat
  engine : Option Engine
  input : Engine → Bytes → Option Engine
  fromEngine : Engine → Option (ByteArr len)

namespace HashType
variable (T : HashType)

/-- `Hash::hash`. -/
def hash (data : Bytes) : Option (ByteArr T.len) := do
  let engine ← T.engine
  let engine ← T.input engine data
  T.fromEngine engine

def hashByteChunks (byteSlices : List Bytes) : Option (ByteArr T.len) := do
  let engine ← T.engine
  let engine ← byteSlices.foldlM T.input engine
  T.fromEngine engine

/-- The first hash, hashed by the second. -/
def rehashed (T second : HashType) : HashType where
  Engine := T.Engine
  blockSize := T.blockSize
  len := second.len
  engine := T.engine
  input := T.input
  fromEngine e := do
    let first ← T.fromEngine e
    second.hash first.val

/-- The start of a hash. -/
def truncated (len : Nat) : HashType where
  Engine := T.Engine
  blockSize := T.blockSize
  len := len
  engine := T.engine
  input := T.input
  fromEngine e := do
    let hash ← T.fromEngine e
    if fits : (hash.val.take len).length = len then some ⟨hash.val.take len, fits⟩ else none

end HashType

structure HmacEngine (T : HashType) where
  iengine : T.Engine
  oengine : T.Engine

namespace HmacEngine
variable {T : HashType}

/-- The loop over `pad.iter_mut().zip(key)`. -/
def xorInto (pad key : Bytes) : Bytes := List.zipWith (· ^^^ ·) pad key ++ pad.drop key.length

/-- What both pads are combined with. -/
def hashedKey (T : HashType) (key : Bytes) : Option Bytes :=
  if T.blockSize < key.length then (T.hash key).map Subtype.val else some key

/-- `HmacEngine::new`. -/
def new (key : Bytes) : Option (HmacEngine T) := do
  guard (T.blockSize ≤ 128)
  let iengine ← T.engine
  let oengine ← T.engine
  let key ← hashedKey T key
  let ipad := xorInto (List.replicate 128 0x36) key
  let opad := xorInto (List.replicate 128 0x5c) key
  let iengine ← T.input iengine (ipad.take T.blockSize)
  let oengine ← T.input oengine (opad.take T.blockSize)
  some { iengine, oengine }

def input (e : HmacEngine T) (buf : Bytes) : Option (HmacEngine T) := do
  let iengine ← T.input e.iengine buf
  some { e with iengine }

def fromEngine (e : HmacEngine T) : Option (ByteArr T.len) := do
  let ihash ← T.fromEngine e.iengine
  let oengine ← T.input e.oengine ihash.val
  T.fromEngine oengine

end HmacEngine

namespace HashType

/-- `Hmac` with an engine for the key. -/
def keyed (T : HashType) (key : Bytes) : HashType where
  Engine := HmacEngine T
  blockSize := T.blockSize
  len := T.len
  engine := HmacEngine.new key
  input := HmacEngine.input
  fromEngine := HmacEngine.fromEngine

/-- `Hmac`, whose default engine has no key. -/
def hmac (T : HashType) : HashType := T.keyed []

/-! A hash type streams a function when its engines compute it, whatever the pieces. -/

/-- `Holds` says what an engine was given. -/
structure Streams (T : HashType) (limit : Nat) (digest : Bytes → ByteArr T.len) where
  Holds : T.Engine → Bytes → Prop
  start : 0 < limit → ∃ e, T.engine = some e ∧ Holds e []
  input : ∀ {e message inp}, Holds e message → (message ++ inp).length < limit →
    ∃ next, T.input e inp = some next ∧ Holds next (message ++ inp)
  finish : ∀ {e message}, Holds e message → message.length < limit → T.fromEngine e = some (digest message)

namespace Streams
variable {T : HashType} {limit : Nat} {digest : Bytes → ByteArr T.len} (s : T.Streams limit digest)
include s

theorem inputs {e : T.Engine} {message : Bytes} (holds : s.Holds e message) (pieces : List Bytes)
    (bound : (message ++ pieces.flatten).length < limit) :
    ∃ next, pieces.foldlM T.input e = some next ∧ s.Holds next (message ++ pieces.flatten) := by
  induction pieces generalizing e message with
  | nil => exact ⟨e, rfl, by rwa [List.flatten_nil, List.append_nil]⟩
  | cons piece rest ih =>
    rw [List.flatten_cons, ← List.append_assoc] at bound ⊢
    have room : (message ++ piece).length < limit := by
      rw [List.length_append] at bound
      omega
    obtain ⟨next, step, held⟩ := s.input holds room
    obtain ⟨last, steps, all⟩ := ih held bound
    exact ⟨last, by rw [List.foldlM_cons, step]; exact steps, all⟩

theorem chunks {pieces : List Bytes} (bound : pieces.flatten.length < limit) :
    T.hashByteChunks pieces = some (digest pieces.flatten) := by
  obtain ⟨e, engine, holds⟩ := s.start (Nat.zero_lt_of_lt bound)
  obtain ⟨next, steps, all⟩ := s.inputs holds pieces bound
  rw [hashByteChunks, engine, Option.bind_eq_bind, Option.bind_some, steps]
  exact s.finish all bound

theorem hash {data : Bytes} (bound : data.length < limit) : T.hash data = some (digest data) := by
  obtain ⟨e, engine, holds⟩ := s.start (Nat.zero_lt_of_lt bound)
  obtain ⟨next, step, all⟩ := s.input holds bound
  rw [HashType.hash, engine, Option.bind_eq_bind, Option.bind_some, step]
  exact s.finish all bound

end Streams

/-- What the hash of a hash computes. -/
def Streams.rehashed {T second : HashType} {limit limit' : Nat} {first : Bytes → ByteArr T.len}
    {digest : Bytes → ByteArr second.len} (s : T.Streams limit first)
    (s' : second.Streams limit' digest) (fits : T.len < limit') :
    (T.rehashed second).Streams limit fun message => digest (first message).val where
  Holds := s.Holds
  start := s.start
  input := s.input
  finish {e message} holds bound := by
    have short : (first message).val.length < limit' := by rwa [(first message).property]
    show (T.fromEngine e).bind (fun first => second.hash first.val) = _
    rw [s.finish holds bound, Option.bind_some, s'.hash short]
    rfl

theorem length_take {n len : Nat} (fits : len ≤ n) (bytes : ByteArr n) : (bytes.val.take len).length = len := by
  rw [List.length_take, bytes.property, Nat.min_eq_left fits]

def takeArr {n len : Nat} (fits : len ≤ n) (bytes : ByteArr n) : ByteArr len :=
  ⟨bytes.val.take len, length_take fits bytes⟩

def Streams.truncated {T : HashType} {limit : Nat} {digest : Bytes → ByteArr T.len}
    (s : T.Streams limit digest) {len : Nat} (fits : len ≤ T.len) :
    (T.truncated len).Streams limit fun message => takeArr fits (digest message) where
  Holds := s.Holds
  start := s.start
  input := s.input
  finish {e message} holds bound := by
    show (T.fromEngine e).bind (fun hash => if fits : (hash.val.take len).length = len then
      some (⟨hash.val.take len, fits⟩ : ByteArr len) else none) = _
    rw [s.finish holds bound, Option.bind_some, dif_pos (length_take fits _)]
    rfl

end HashType

/-- The key in a block, with zeros behind it. -/
def keyBlock (blockSize : Nat) (digest : Bytes → ByteArr len) (key : Bytes) : Bytes :=
  let key := if blockSize < key.length then (digest key).val else key
  key ++ List.replicate (blockSize - key.length) 0

/-- HMAC as it is defined for a hash with blocks of `blockSize` bytes. -/
def rfc2104 (blockSize : Nat) (digest : Bytes → ByteArr len) (key text : Bytes) : ByteArr len :=
  let block := keyBlock blockSize digest key
  digest (block.map (· ^^^ 0x5c) ++ (digest (block.map (· ^^^ 0x36) ++ text)).val)

theorem length_keyBlock {blockSize : Nat} {digest : Bytes → ByteArr len} (fits : len ≤ blockSize)
    (key : Bytes) : (keyBlock blockSize digest key).length = blockSize := by
  rw [keyBlock, List.length_append, List.length_replicate]
  split_ifs with long
  · rw [(digest key).property, Nat.add_sub_cancel' fits]
  · rw [Nat.add_sub_cancel' (Nat.not_lt.mp long)]

namespace HmacEngine

theorem xorInto_replicate {key : Bytes} {size : Nat} (fits : key.length ≤ size) (byte : UInt8) :
    xorInto (List.replicate size byte) key =
      key.map (· ^^^ byte) ++ List.replicate (size - key.length) byte := by
  induction key generalizing size with
  | nil => simp [xorInto]
  | cons b key ih =>
    cases size with
    | zero => contradiction
    | succ size =>
      have later := ih (Nat.le_of_succ_le_succ fits)
      rw [xorInto] at later ⊢
      rw [List.replicate_succ, List.zipWith_cons_cons, List.length_cons, List.drop_succ_cons,
        List.cons_append, later, UInt8.xor_comm, Nat.succ_sub_succ, List.map_cons, List.cons_append]

/-- The pad is that of the key with zeros behind it. -/
theorem xorInto_take {key : Bytes} {blockSize : Nat} (fits : key.length ≤ blockSize)
    (small : blockSize ≤ 128) (byte : UInt8) :
    (xorInto (List.replicate 128 byte) key).take blockSize =
      (key ++ List.replicate (blockSize - key.length) 0).map (· ^^^ byte) := by
  rw [xorInto_replicate (fits.trans small), List.take_append, List.take_of_length_le (by simpa using fits),
    List.length_map, List.take_replicate, List.map_append, List.map_replicate, UInt8.zero_xor]
  congr 2
  omega

theorem new_eq {T : HashType} {limit : Nat} {digest : Bytes → ByteArr T.len}
    (s : T.Streams limit digest) {key : Bytes} (short : key.length < limit) (fits : T.len ≤ T.blockSize)
    (small : T.blockSize ≤ 128) (room : T.blockSize < limit) :
    ∃ e : HmacEngine T, new key = some e ∧
      s.Holds e.iengine ((keyBlock T.blockSize digest key).map (· ^^^ 0x36)) ∧
      s.Holds e.oengine ((keyBlock T.blockSize digest key).map (· ^^^ 0x5c)) := by
  obtain ⟨e, engine, holds⟩ := s.start (Nat.zero_lt_of_lt room)
  have hashed : hashedKey T key = some (if T.blockSize < key.length then (digest key).val else key) := by
    rw [hashedKey, s.hash short, Option.map_some]
    split_ifs <;> rfl
  have pad (byte : UInt8) : (xorInto (List.replicate 128 byte)
      (if T.blockSize < key.length then (digest key).val else key)).take T.blockSize =
      (keyBlock T.blockSize digest key).map (· ^^^ byte) := by
    refine xorInto_take ?_ small byte
    split_ifs with long
    · rwa [(digest key).property]
    · exact Nat.not_lt.mp long
  have given (byte : UInt8) : ∃ next, T.input e ((keyBlock T.blockSize digest key).map (· ^^^ byte)) =
      some next ∧ s.Holds next ((keyBlock T.blockSize digest key).map (· ^^^ byte)) := by
    refine s.input holds ?_
    rwa [List.nil_append, List.length_map, length_keyBlock fits]
  obtain ⟨iengine, inner, innerHolds⟩ := given 0x36
  obtain ⟨oengine, outer, outerHolds⟩ := given 0x5c
  refine ⟨⟨iengine, oengine⟩, ?_, innerHolds, outerHolds⟩
  rw [new]
  simp only [guard, if_pos small, engine, hashed, pad, inner, outer, Option.bind_eq_bind,
    Option.pure_def, Option.bind_some]

end HmacEngine

namespace HashType

/-- How long a message may be behind a block. -/
def hmacLimit (T : HashType) (limit : Nat) : Nat :=
  if T.blockSize + T.len < limit then limit - T.blockSize else 0

theorem lt_hmacLimit {T : HashType} {limit length : Nat} (bound : length < T.hmacLimit limit) :
    T.blockSize + T.len < limit ∧ T.blockSize + length < limit := by
  rw [hmacLimit] at bound
  split_ifs at bound with room
  · exact ⟨room, Nat.add_lt_of_lt_sub' bound⟩
  · contradiction

/-- With a key an engine computes its HMAC. -/
def Streams.keyed {T : HashType} {limit : Nat} {digest : Bytes → ByteArr T.len}
    (s : T.Streams limit digest) {key : Bytes} (short : 0 < T.hmacLimit limit → key.length < limit)
    (fits : T.len ≤ T.blockSize) (small : T.blockSize ≤ 128) :
    (T.keyed key).Streams (T.hmacLimit limit) (rfc2104 T.blockSize digest key) where
  Holds e message := s.Holds e.iengine ((keyBlock T.blockSize digest key).map (· ^^^ 0x36) ++ message) ∧
    s.Holds e.oengine ((keyBlock T.blockSize digest key).map (· ^^^ 0x5c))
  start some' := by
    obtain ⟨-, room⟩ := lt_hmacLimit some'
    obtain ⟨e, engine, inner, outer⟩ := HmacEngine.new_eq s (short some') fits small room
    exact ⟨e, engine, by rwa [List.append_nil], outer⟩
  input {e message inp} holds bound := by
    obtain ⟨inner, outer⟩ := holds
    have room : ((keyBlock T.blockSize digest key).map (· ^^^ 0x36) ++ message ++ inp).length < limit := by
      rw [List.append_assoc, List.length_append, List.length_map, length_keyBlock fits]
      exact (lt_hmacLimit bound).2
    obtain ⟨next, step, held⟩ := s.input inner room
    rw [List.append_assoc] at held
    refine ⟨⟨next, e.oengine⟩, ?_, held, outer⟩
    show (T.input e.iengine inp).bind (fun iengine => some { e with iengine }) = _
    rw [step]
    rfl
  finish {e message} holds bound := by
    obtain ⟨inner, outer⟩ := holds
    have room := lt_hmacLimit bound
    have ihash := s.finish inner (by
      rw [List.length_append, List.length_map, length_keyBlock fits]
      exact room.2)
    generalize hashed : digest ((keyBlock T.blockSize digest key).map (· ^^^ 0x36) ++ message) = inside at ihash
    have size : ((keyBlock T.blockSize digest key).map (· ^^^ 0x5c) ++ inside.val).length < limit := by
      rw [List.length_append, List.length_map, length_keyBlock fits, inside.property]
      exact room.1
    obtain ⟨next, step, held⟩ := s.input outer size
    show (T.fromEngine e.iengine).bind (fun ihash => (T.input e.oengine ihash.val).bind T.fromEngine) = _
    rw [ihash, Option.bind_some, step]
    refine (s.finish held size).trans ?_
    rw [← hashed]
    rfl

end HashType
end Litecoin
