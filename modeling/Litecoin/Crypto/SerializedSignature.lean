import Litecoin.Crypto.Engine
import Litecoin.Crypto.Key
import Litecoin.Pow.Hex

/-! Signatures serialized in a buffer, and the ways to look at one (`crypto/ecdsa.rs`,
`crypto/taproot.rs`, `taproot/serialized_signature.rs`). A panic is `none`. -/
namespace Litecoin

/-- The parts of the `hex` crate that display bytes. -/
class Hex where
  /-- `as_hex`, as `fmt::LowerHex` shows it. -/
  lowerHex : Wire.Bytes → Units.Text
  /-- `fmt_hex_exact!` in lower case. -/
  fmtHexExact : (length : Nat) → Wire.Bytes → Option Units.Text

/-- Two digits for each byte, and a panic if there are more or fewer bytes than declared. -/
class Hex.TwoDigits [Hex] : Prop where
  lowerHex_eq : ∀ bytes, Hex.lowerHex bytes = Pow.hexBytes bytes
  fmtHexExact_eq : ∀ length bytes,
    Hex.fmtHexExact length bytes = if bytes.length = length then some (Pow.hexBytes bytes) else none

namespace Crypto
open Wire Consensus Litecoin.Units
open Sighash (TapSighashType)

/-- `SerializedSignature`, for either kind of signature. -/
structure SerializedSignature (MAX : Nat) where
  data : ByteArr MAX
  len : Nat

namespace SerializedSignature
open HashEngine (setByte)

/-- `&self.data[..self.len]`. -/
def deref (self : SerializedSignature MAX) : Option Bytes :=
  if self.len ≤ MAX then some (self.data.val.take self.len) else none

def writeTo (writeAll : Bytes → α) (self : SerializedSignature MAX) : Option α :=
  self.deref.map writeAll

/-- What is written to the front of a new buffer is found there. -/
theorem copyFront {bytes : Bytes} (fits : bytes.length ≤ MAX) :
    ∃ buf, HashEngine.copyFromSlice (HashEngine.zeroBuffer MAX) 0 bytes = some buf ∧
      buf.val.take bytes.length = bytes := by
  rw [HashEngine.copyFromSlice, dif_pos (by omega)]
  refine ⟨_, rfl, ?_⟩
  simp only [List.take_zero, List.nil_append]
  exact List.take_left

theorem setByte_front {buf : ByteArr MAX} {bytes : Bytes} (front : buf.val.take bytes.length = bytes)
    (room : bytes.length < MAX) (byte : UInt8) :
    ∃ after, setByte buf bytes.length byte = some after ∧
      after.val.take (bytes.length + 1) = bytes ++ [byte] := by
  rw [setByte, HashEngine.copyFromSlice, dif_pos (by rw [List.length_singleton]; omega)]
  refine ⟨_, rfl, ?_⟩
  have length : bytes.length + 1 = (bytes ++ [byte]).length := by
    rw [List.length_append, List.length_singleton]
  simp only [front]
  rw [length, List.take_left]

theorem deref_eq {self : SerializedSignature MAX} (fits : self.len ≤ MAX)
    (front : self.data.val.take self.len = bytes) : self.deref = some bytes := by
  rw [deref, if_pos fits, front]

end SerializedSignature

namespace EcdsaSignature
open SerializedSignature
open HashEngine (setByte)

def maxSigLen : Nat := 73

def serialize [Secp256k1] (self : EcdsaSignature) : Option (SerializedSignature maxSigLen) := do
  let signature := (Secp256k1.serializeDer self.signature).val
  let buf ← HashEngine.copyFromSlice (HashEngine.zeroBuffer maxSigLen) 0 signature
  let buf ← setByte buf signature.length self.sighashType.toU32.toUInt8
  some { data := buf, len := signature.length + 1 }

mutual

/-- `iter`, within a number of calls. It is `self.into_iter()`, which takes the reference. -/
def iter : (calls : Nat) → SerializedSignature maxSigLen → Option Bytes
  | 0, _ => none
  | calls + 1, self => intoIter calls self

/-- `into_iter` of a reference. It is `(*self).iter()`, which is the method above. -/
def intoIter : (calls : Nat) → SerializedSignature maxSigLen → Option Bytes
  | 0, _ => none
  | calls + 1, self => iter calls self

end

def serializeToWriter [Secp256k1] (writeAll : Bytes → α) (self : EcdsaSignature) : Option α :=
  self.serialize.bind (writeTo writeAll)

/-- `Display` of the serialized form. -/
def display [Hex] (self : SerializedSignature maxSigLen) : Option Text :=
  self.deref.map Hex.lowerHex

/-- Either method calls the other one for ever. -/
theorem iter_eq_none (calls : Nat) (self : SerializedSignature maxSigLen) :
    iter calls self = none ∧ intoIter calls self = none := by
  induction calls with
  | zero => exact ⟨by rw [iter], by rw [intoIter]⟩
  | succ calls ih => exact ⟨by rw [iter, ih.2], by rw [intoIter, ih.1]⟩

theorem serialize_spec [Secp256k1] (self : EcdsaSignature) :
    ∃ serialized, self.serialize = some serialized ∧ serialized.deref = some self.toVec := by
  have bound := (Secp256k1.serializeDer self.signature).property
  obtain ⟨buf, copied, front⟩ := copyFront
    (Nat.le_trans bound (by decide : _ ≤ maxSigLen))
  obtain ⟨after, set, whole⟩ := setByte_front front (Nat.lt_of_le_of_lt bound (by decide))
    self.sighashType.toU32.toUInt8
  refine ⟨⟨after, _⟩, ?_, deref_eq ?_ whole⟩
  · rw [serialize, copied]
    simp only [Option.bind_eq_bind, Option.bind_some, set]
  · exact Nat.le_trans (Nat.succ_le_succ bound) (by decide)

end EcdsaSignature

namespace TaprootSignature
open SerializedSignature
open HashEngine (setByte)

def maxLen : Nat := 65

def fromRawParts (data : ByteArr maxLen) (len : Nat) : Option (SerializedSignature maxLen) :=
  if len ≤ maxLen then some { data, len } else none

def serialize [Secp256k1] (self : TaprootSignature) : Option (SerializedSignature maxLen) := do
  let serSig := (Secp256k1.serializeSchnorr self.signature).val
  let buf ← HashEngine.copyFromSlice (HashEngine.zeroBuffer maxLen) 0 serSig
  if self.sighashType = .default then fromRawParts buf 64
  else
    let buf ← setByte buf 64 self.sighashType.toU8
    fromRawParts buf 65

def serializeToWriter [Secp256k1] (writeAll : Bytes → α) (self : TaprootSignature) : Option α :=
  self.serialize.bind (writeTo writeAll)

/-- `iter`, which is that of the slice, as the type has none. -/
def iter (self : SerializedSignature maxLen) : Option Bytes := self.deref

/-- `into_iter` of a reference. -/
def intoIter (self : SerializedSignature maxLen) : Option Bytes := iter self

/-- `Display` of the serialized form. -/
def display [Hex] (self : SerializedSignature maxLen) : Option Text :=
  self.deref.bind (Hex.fmtHexExact maxLen)

theorem serialize_spec [Secp256k1] (self : TaprootSignature) :
    ∃ serialized, self.serialize = some serialized ∧ serialized.deref = some self.toVec := by
  have size := (Secp256k1.serializeSchnorr self.signature).property
  obtain ⟨buf, copied, front⟩ := copyFront (Nat.le_trans size.le (by decide : _ ≤ maxLen))
  rw [serialize, copied, toVec]
  simp only [Option.bind_eq_bind, Option.bind_some]
  by_cases default : self.sighashType = .default
  · refine ⟨⟨buf, 64⟩, ?_, ?_⟩
    · rw [if_pos default]
      rfl
    · rw [size] at front
      rw [if_pos default, List.append_nil]
      exact deref_eq (Nat.le_succ 64) front
  · obtain ⟨after, set, whole⟩ := setByte_front front (Nat.lt_of_le_of_lt size.le (by decide))
      self.sighashType.toU8
    rw [size] at set whole
    refine ⟨⟨after, 65⟩, ?_, ?_⟩
    · rw [if_neg default, set]
      rfl
    · rw [if_neg default]
      exact deref_eq (le_refl 65) whole

theorem length_toVec [Secp256k1] (self : TaprootSignature) :
    self.toVec.length = if self.sighashType = .default then 64 else 65 := by
  rw [toVec, List.length_append, (Secp256k1.serializeSchnorr self.signature).property]
  split_ifs <;> rfl

/-- A byte string that is accepted is the serialization of what it is read as, unless it spells
out the default sighash type. -/
theorem toVec_fromSlice_iff [Secp256k1] [Secp256k1.SignaturesInverse] {bytes : Bytes}
    {signature : TaprootSignature} (accepted : fromSlice bytes = .ok signature) :
    signature.toVec = bytes ↔ ¬ (bytes.length = 65 ∧ bytes.getLast? = some 0x00) := by
  rw [fromSlice] at accepted
  split_ifs at accepted with short long
  · rw [fromSlice.parse] at accepted
    split at accepted
    · rename_i inner parsed
      obtain rfl := Except.ok.inj accepted
      have same := Secp256k1.SignaturesInverse.serializeSchnorr_fromSlice ⟨bytes, short⟩ inner parsed
      refine iff_of_true ?_ (fun other => by omega)
      rw [toVec, same, if_pos rfl, List.append_nil]
    · contradiction
  · obtain rfl | ⟨front, last, rfl⟩ := List.eq_nil_or_concat' bytes
    · contradiction
    have size : front.length = 64 := by simpa using long
    simp only [List.getLast?_concat, List.dropLast_concat] at accepted
    split at accepted
    · contradiction
    rename_i sighashType read
    rw [fromSlice.parse] at accepted
    split at accepted
    · rename_i inner parsed
      obtain rfl := Except.ok.inj accepted
      have same := Secp256k1.SignaturesInverse.serializeSchnorr_fromSlice ⟨front, size⟩ inner parsed
      have byte := TapSighashType.toU8_fromConsensusU8 read
      rw [toVec, same, List.getLast?_concat, Option.some_inj, List.append_cancel_left_eq,
        and_iff_right long]
      by_cases default : sighashType = .default
      · subst default
        exact iff_of_false (by simp) (not_not_intro byte.symm)
      · refine iff_of_true (by rw [if_neg default, byte]) ?_
        rintro rfl
        exact default (Except.ok.inj read).symm
    · contradiction

/-- `into_iter::IntoIter`. -/
structure IntoIter where
  signature : SerializedSignature maxLen
  pos : Nat

/-- How an iterator is asked for a byte. -/
inductive Pull where
  | next
  | nextBack
  | nth (n : Nat)

namespace IntoIter

def new (signature : SerializedSignature maxLen) : IntoIter := { signature, pos := 0 }

def asSlice (self : IntoIter) : Option Bytes := do
  let slice ← self.signature.deref
  if self.pos ≤ slice.length then some (slice.drop self.pos) else none

def next (self : IntoIter) : Option (Option UInt8 × IntoIter) := do
  let slice ← self.signature.deref
  match slice[self.pos]? with
  | none => some (none, self)
  | some byte => some (some byte, { self with pos := self.pos + 1 })

/-- `len`, by `size_hint`. -/
def len (self : IntoIter) : Option Nat :=
  if self.pos ≤ self.signature.len then some (self.signature.len - self.pos) else none

def nth (self : IntoIter) (n : Nat) : Option (Option UInt8 × IntoIter) := do
  let len ← self.len
  if len ≤ n then some (none, { self with pos := self.signature.len })
  else next { self with pos := self.pos + n }

def nextBack (self : IntoIter) : Option (Option UInt8 × IntoIter) :=
  if self.pos = self.signature.len then some (none, self)
  else if self.signature.len = 0 then none
  else do
    let newLen := self.signature.len - 1
    let slice ← self.signature.deref
    let byte ← slice[newLen]?
    some (some byte, { self with signature := { self.signature with len := newLen } })

def pull (self : IntoIter) : Pull → Option (Option UInt8 × IntoIter)
  | .next => self.next
  | .nextBack => self.nextBack
  | .nth n => self.nth n

/-- What is yielded, and what is left. -/
def drive (self : IntoIter) : List Pull → Option (List (Option UInt8) × Bytes)
  | [] => self.asSlice.map ([], ·)
  | pull :: pulls => do
    let (item, rest) ← self.pull pull
    let (items, left) ← rest.drive pulls
    some (item :: items, left)

end IntoIter

/-- The byte that is taken off a list, and the rest. -/
def Pull.take (bytes : Bytes) : Pull → Option UInt8 × Bytes
  | .next => (bytes.head?, bytes.tail)
  | .nextBack => (bytes.getLast?, bytes.dropLast)
  | .nth n => (bytes[n]?, bytes.drop (n + 1))

def Pull.takeAll (bytes : Bytes) : List Pull → List (Option UInt8) × Bytes
  | [] => ([], bytes)
  | pull :: pulls =>
    let (item, rest) := pull.take bytes
    let (items, left) := takeAll rest pulls
    (item :: items, left)

namespace IntoIter

/-- The bytes that an iterator stands for lie between its ends, which are in the buffer. -/
structure Holds (iter : IntoIter) (bytes : Bytes) : Prop where
  bound : iter.signature.len ≤ maxLen
  ends : iter.pos ≤ iter.signature.len
  between : (iter.signature.data.val.take iter.signature.len).drop iter.pos = bytes

theorem holds_new {serialized : SerializedSignature maxLen} (bytes : serialized.deref = some slice) :
    (new serialized).Holds slice := by
  rw [SerializedSignature.deref] at bytes
  split_ifs at bytes with bound
  exact ⟨bound, Nat.zero_le _, Option.some.inj bytes⟩

section
variable {iter : IntoIter} {bytes : Bytes} (holds : iter.Holds bytes)
include holds

theorem Holds.deref :
    iter.signature.deref = some (iter.signature.data.val.take iter.signature.len) :=
  if_pos holds.bound

theorem Holds.length_slice :
    (iter.signature.data.val.take iter.signature.len).length = iter.signature.len := by
  rw [List.length_take, iter.signature.data.property]
  exact min_eq_left holds.bound

theorem Holds.length : bytes.length = iter.signature.len - iter.pos := by
  rw [← holds.between, List.length_drop, holds.length_slice]

theorem Holds.getElem? (n : Nat) :
    (iter.signature.data.val.take iter.signature.len)[iter.pos + n]? = bytes[n]? := by
  rw [← holds.between, List.getElem?_drop]

theorem Holds.asSlice : iter.asSlice = some bytes := by
  rw [IntoIter.asSlice, holds.deref]
  simp only [Option.bind_eq_bind, Option.bind_some]
  rw [if_pos (by rw [holds.length_slice]; exact holds.ends), holds.between]

/-- Bytes are left out at the front. -/
theorem Holds.skip {n : Nat} (inside : n ≤ bytes.length) :
    Holds { iter with pos := iter.pos + n } (bytes.drop n) := by
  have length := holds.length
  have ends := holds.ends
  refine ⟨holds.bound, by simp only; omega, ?_⟩
  rw [← holds.between, List.drop_drop]

theorem Holds.next :
    ∃ rest, iter.next = some (bytes.head?, rest) ∧ rest.Holds bytes.tail := by
  have first := holds.getElem? 0
  rw [Nat.add_zero] at first
  rw [IntoIter.next, holds.deref]
  simp only [Option.bind_eq_bind, Option.bind_some, first]
  cases bytes with
  | nil => exact ⟨iter, rfl, holds⟩
  | cons byte bytes => exact ⟨_, rfl, holds.skip (n := 1) (by simp)⟩

theorem Holds.nth (n : Nat) :
    ∃ rest, iter.nth n = some (bytes[n]?, rest) ∧ rest.Holds (bytes.drop (n + 1)) := by
  have length := holds.length
  rw [IntoIter.nth, IntoIter.len, if_pos holds.ends, ← length]
  simp only [Option.bind_eq_bind, Option.bind_some]
  split_ifs with past
  · rw [List.getElem?_eq_none past, List.drop_eq_nil_of_le (Nat.le_succ_of_le past)]
    refine ⟨_, rfl, holds.bound, le_refl _, List.drop_eq_nil_of_le ?_⟩
    exact holds.length_slice.le
  · obtain ⟨rest, read, left⟩ := (holds.skip (n := n) (by omega)).next
    rw [List.head?_drop] at read
    rw [List.tail_drop] at left
    exact ⟨rest, read, left⟩

theorem Holds.nextBack :
    ∃ rest, iter.nextBack = some (bytes.getLast?, rest) ∧ rest.Holds bytes.dropLast := by
  have length := holds.length
  have ends := holds.ends
  rw [IntoIter.nextBack]
  split_ifs with met empty
  · obtain rfl : bytes = [] := List.length_eq_zero_iff.mp (by omega)
    exact ⟨iter, rfl, holds⟩
  · omega
  · have last := holds.getElem? (bytes.length - 1)
    rw [show iter.pos + (bytes.length - 1) = iter.signature.len - 1 by omega,
      ← List.getLast?_eq_getElem?] at last
    obtain ⟨byte, found⟩ : ∃ byte, bytes.getLast? = some byte :=
      List.getLast?_isSome.mpr (by rintro rfl; simp at length; omega) |> Option.isSome_iff_exists.mp
    rw [holds.deref]
    simp only [Option.bind_eq_bind, Option.bind_some, last, found]
    refine ⟨_, rfl, Nat.le_trans (Nat.sub_le _ 1) holds.bound, by simp only; omega, ?_⟩
    rw [List.dropLast_eq_take, ← holds.between, List.length_drop, holds.length_slice,
      List.take_drop, List.take_take]
    simp only
    congr 2
    omega

theorem Holds.pull (pull : Pull) :
    ∃ rest, iter.pull pull = some ((pull.take bytes).1, rest) ∧ rest.Holds (pull.take bytes).2 := by
  cases pull with
  | next => exact holds.next
  | nextBack => exact holds.nextBack
  | nth n => exact holds.nth n

end

/-- The iterator is the list that it holds, from whichever end it is consumed. -/
theorem Holds.drive {iter : IntoIter} {bytes : Bytes} (holds : iter.Holds bytes) (pulls : List Pull) :
    iter.drive pulls = some (Pull.takeAll bytes pulls) := by
  induction pulls generalizing iter bytes with
  | nil =>
    rw [IntoIter.drive, holds.asSlice]
    rfl
  | cons pull pulls ih =>
    obtain ⟨rest, pulled, left⟩ := holds.pull pull
    rw [IntoIter.drive, pulled]
    simp only [Option.bind_eq_bind, Option.bind_some, ih left]
    rfl

end IntoIter
end TaprootSignature

/-- The ways to look at a signature that both kinds have. -/
inductive Rendering where
  | slice
  | iter
  | intoIter
  | toVec
  | writer
  | display
deriving DecidableEq

section
variable [Secp256k1] [Hex]

/-- A rendering returns, and what it returns stands for the bytes. -/
def EcdsaSignature.Denotes (self : EcdsaSignature) (bytes : Bytes) : Rendering → Prop
  | .slice => self.serialize.bind SerializedSignature.deref = some bytes
  | .iter => ∃ calls, self.serialize.bind (iter calls) = some bytes
  | .intoIter => ∃ calls, self.serialize.bind (intoIter calls) = some bytes
  | .toVec => self.toVec = bytes
  | .writer => ∀ (W : Type) (writeAll : Bytes → W),
    self.serializeToWriter writeAll = some (writeAll bytes)
  | .display => self.serialize.bind display = some (Pow.hexBytes bytes)

def TaprootSignature.Denotes (self : TaprootSignature) (bytes : Bytes) : Rendering → Prop
  | .slice => self.serialize.bind SerializedSignature.deref = some bytes
  | .iter => self.serialize.bind iter = some bytes
  | .intoIter => self.serialize.bind intoIter = some bytes
  | .toVec => self.toVec = bytes
  | .writer => ∀ (W : Type) (writeAll : Bytes → W),
    self.serializeToWriter writeAll = some (writeAll bytes)
  | .display => self.serialize.bind display = some (Pow.hexBytes bytes)

theorem EcdsaSignature.denotes_iff [Hex.TwoDigits] (self : EcdsaSignature) (rendering : Rendering) :
    self.Denotes self.toVec rendering ↔ rendering ≠ .iter ∧ rendering ≠ .intoIter := by
  obtain ⟨serialized, serialize, slice⟩ := self.serialize_spec
  cases rendering with
  | slice => exact iff_of_true (by rw [Denotes, serialize, Option.bind_some, slice]) (by decide)
  | iter =>
    refine iff_of_false ?_ (by decide)
    rintro ⟨calls, returned⟩
    rw [serialize, Option.bind_some, (iter_eq_none calls serialized).1] at returned
    contradiction
  | intoIter =>
    refine iff_of_false ?_ (by decide)
    rintro ⟨calls, returned⟩
    rw [serialize, Option.bind_some, (iter_eq_none calls serialized).2] at returned
    contradiction
  | toVec => exact iff_of_true rfl (by decide)
  | writer =>
    refine iff_of_true (fun W writeAll => ?_) (by decide)
    rw [serializeToWriter, serialize, Option.bind_some, SerializedSignature.writeTo, slice,
      Option.map_some]
  | display =>
    refine iff_of_true ?_ (by decide)
    rw [Denotes, serialize, Option.bind_some, display, slice, Option.map_some,
      Hex.TwoDigits.lowerHex_eq]

theorem TaprootSignature.denotes_iff [Hex.TwoDigits] (self : TaprootSignature)
    (rendering : Rendering) :
    self.Denotes self.toVec rendering ↔ (rendering = .display → self.sighashType ≠ .default) := by
  obtain ⟨serialized, serialize, slice⟩ := self.serialize_spec
  cases rendering with
  | slice => exact iff_of_true (by rw [Denotes, serialize, Option.bind_some, slice]) nofun
  | iter => exact iff_of_true (by rw [Denotes, serialize, Option.bind_some, iter, slice]) nofun
  | intoIter =>
    exact iff_of_true (by rw [Denotes, serialize, Option.bind_some, intoIter, iter, slice]) nofun
  | toVec => exact iff_of_true rfl nofun
  | writer =>
    refine iff_of_true (fun W writeAll => ?_) nofun
    rw [serializeToWriter, serialize, Option.bind_some, SerializedSignature.writeTo, slice,
      Option.map_some]
  | display =>
    rw [Denotes, serialize, Option.bind_some, display, slice, Option.bind_some,
      Hex.TwoDigits.fmtHexExact_eq, self.length_toVec]
    by_cases default : self.sighashType = .default
    · simp [default, maxLen]
    · simp [default, maxLen]

/-- Every rendering of an ECDSA signature but its iterators denotes its bytes, and every one of a
Taproot signature but the display of one with the default sighash type; the bytes are read back as
the signature. A Taproot signature that was read is written as the bytes that it was read from,
but for a spelt out default. -/
theorem renderings_agree_iff [Hex.TwoDigits] [Secp256k1.SignaturesInverse] :
    (∀ self : EcdsaSignature, EcdsaSignature.fromSlice self.toVec = .ok self ∧
      ∀ rendering, self.Denotes self.toVec rendering ↔ rendering ≠ .iter ∧ rendering ≠ .intoIter) ∧
    (∀ self : TaprootSignature, TaprootSignature.fromSlice self.toVec = .ok self ∧
      (∀ pulls, (self.serialize.bind fun serialized =>
        (TaprootSignature.IntoIter.new serialized).drive pulls) =
        some (TaprootSignature.Pull.takeAll self.toVec pulls)) ∧
      ∀ rendering, self.Denotes self.toVec rendering ↔
        (rendering = .display → self.sighashType ≠ .default)) ∧
    ∀ bytes self, TaprootSignature.fromSlice bytes = .ok self →
      (self.toVec = bytes ↔ ¬ (bytes.length = 65 ∧ bytes.getLast? = some 0x00)) := by
  refine ⟨fun self => ⟨self.fromSlice_toVec, self.denotes_iff⟩,
    fun self => ⟨self.fromSlice_toVec, fun pulls => ?_, self.denotes_iff⟩,
    fun bytes self accepted => TaprootSignature.toVec_fromSlice_iff accepted⟩
  obtain ⟨serialized, serialize, slice⟩ := self.serialize_spec
  rw [serialize, Option.bind_some]
  exact (TaprootSignature.IntoIter.holds_new slice).drive pulls

end

namespace Sample

@[reducible] def hex : Hex where
  lowerHex := Pow.hexBytes
  fmtHexExact length bytes := if bytes.length = length then some (Pow.hexBytes bytes) else none

theorem hex_twoDigits : @Hex.TwoDigits hex :=
  letI := hex
  { lowerHex_eq := fun _ => rfl
    fmtHexExact_eq := fun _ _ => rfl }

attribute [local instance] hex hex_twoDigits Secp256k1.signaturesOnly Secp256k1.signaturesOnly_inverse

def ones : EcdsaSignature := ⟨(), .all⟩

def zeros (sighashType : TapSighashType) : TaprootSignature := ⟨⟨List.replicate 64 0, rfl⟩, sighashType⟩

theorem zeros_all_displayed :
    (zeros .all).serialize.bind TaprootSignature.display =
      some (Pow.hexBytes (List.replicate 64 0 ++ [1])) :=
  ((renderings_agree_iff.2.1 (zeros .all)).2.2 .display).mpr fun _ => by decide

/-- What `iter` of an ECDSA signature, the display of a Taproot signature with the default type, and
a default type that is spelt out come to. -/
theorem renderings_disagree :
    (¬ ∀ rendering, ones.Denotes ones.toVec rendering) ∧
      (¬ ∀ rendering, (zeros .default).Denotes (zeros .default).toVec rendering) ∧
      ¬ ∀ bytes self, TaprootSignature.fromSlice bytes = .ok self → self.toVec = bytes := by
  refine ⟨fun all => ?_, fun all => ?_, fun all => ?_⟩
  · exact ((ones.denotes_iff .iter).mp (all .iter)).1 rfl
  · exact ((zeros .default).denotes_iff .display).mp (all .display) rfl rfl
  · exact absurd (all (List.replicate 65 0) (zeros .default) rfl) (by decide)

end Sample
end Crypto
end Litecoin
