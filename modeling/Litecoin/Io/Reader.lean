import Mathlib.Algebra.Group.Nat.Defs
import Litecoin.Wire.Decoder
import Litecoin.Wire.Process

/-! Readers (`io/src/lib.rs`): the traits `Read` and `BufRead`, slices, `Cursor`, and `Take` in
any nesting. -/
namespace Litecoin.Io
open Wire
open Wire.Process (Stop)

/-- `io::ErrorKind`, which is all that is looked at of an `io::Error`. -/
inductive ErrorKind where
  | notFound | permissionDenied | connectionRefused | connectionReset | connectionAborted
  | notConnected | addrInUse | addrNotAvailable | brokenPipe | alreadyExists | wouldBlock
  | invalidInput | invalidData | timedOut | writeZero | interrupted | unexpectedEof | other
deriving DecidableEq

/-- `target_pointer_width`; a build for 16 bits is refused. -/
inductive PointerWidth where
  | w32
  | w64

/-- What a program is built for: the width of `usize`, and whether an operator panics where its
result overflows or wraps there. -/
structure Target where
  width : PointerWidth
  overflowChecks : Bool

namespace Target

/-- How many numbers a `usize` can be. -/
def size (target : Target) : Nat :=
  match target.width with
  | .w32 => 2 ^ 32
  | .w64 => 2 ^ 64

abbrev Usize (target : Target) : Type := Fin target.size

/-- `usize::try_from`. -/
def tryIntoUsize (target : Target) (n : UInt64) : Option Nat :=
  if n.toNat < target.size then some n.toNat else none

/-- `n as usize`. -/
def asUsize (target : Target) (n : Nat) : Nat := n % target.size

def sub (target : Target) (a b : UInt64) : Option UInt64 :=
  if target.overflowChecks ∧ a < b then none else some (a - b)

def add (target : Target) (a b : UInt64) : Option UInt64 :=
  if target.overflowChecks ∧ 2 ^ 64 ≤ a.toNat + b.toNat then none else some (a + b)

end Target

/-- `u64::try_from` of a `usize`. -/
def tryIntoU64 (n : Nat) : Option UInt64 := if n < 2 ^ 64 then some (.ofNat n) else none

def saturatingAdd (a b : UInt64) : UInt64 := .ofNat (min (a.toNat + b.toNat) (2 ^ 64 - 1))

/-- A method on `&mut self` of a reader, which may panic. -/
abbrev Method (σ α : Type) : Type := Process σ (Stop ErrorKind) α

/-- `Read::read`, by the length of the buffer: it returns what it wrote to the front of it. -/
class Read (target : Target) (σ : Type) where
  read : (len : Nat) → Method σ Bytes

class BufRead (target : Target) (σ : Type) extends Read target σ where
  fillBuf : Method σ Bytes
  consume : (amount : Nat) → Method σ Unit

namespace Slice

/-- `Read for &[u8]`. -/
def read (len : Nat) : Method Bytes Bytes := fun slice =>
  let cnt := min slice.length len
  (.ok (slice.take cnt), slice.drop cnt)

def fillBuf : Method Bytes Bytes := fun slice => (.ok slice, slice)

/-- Panics when `amount` is out of bounds. -/
def consume (amount : Nat) : Method Bytes Unit := fun slice =>
  if amount ≤ slice.length then (.ok (), slice.drop amount) else (.error .panic, slice)

end Slice

instance : BufRead target Bytes where
  read := Slice.read
  fillBuf := Slice.fillBuf
  consume := Slice.consume

structure Cursor where
  inner : Bytes
  pos : UInt64

namespace Cursor

def new (inner : Bytes) : Cursor := { inner, pos := 0 }

def read (target : Target) (len : Nat) : Method Cursor Bytes := fun cursor =>
  let startPos := (target.tryIntoUsize cursor.pos).getD cursor.inner.length
  let read := min (cursor.inner.length - startPos) len
  -- `inner[start_pos..start_pos + read]`
  if startPos + read ≤ cursor.inner.length then
    (.ok ((cursor.inner.drop startPos).take read),
      { cursor with pos := saturatingAdd cursor.pos ((tryIntoU64 read).getD (.ofNat (2 ^ 64 - 1))) })
  else (.error .panic, cursor)

def fillBuf (target : Target) : Method Cursor Bytes := fun cursor =>
  let start := target.asUsize cursor.pos.toNat
  if start ≤ cursor.inner.length then (.ok (cursor.inner.drop start), cursor)
  else (.error .panic, cursor)

/-- The assertion is about the whole of `inner`, not about what is left of it. -/
def consume (target : Target) (amount : Nat) : Method Cursor Unit := fun cursor =>
  if amount ≤ cursor.inner.length then match target.add cursor.pos (.ofNat amount) with
    | some pos => (.ok (), { cursor with pos })
    | none => (.error .panic, cursor)
  else (.error .panic, cursor)

end Cursor

instance : BufRead target Cursor where
  read := Cursor.read target
  fillBuf := Cursor.fillBuf target
  consume := Cursor.consume target

/-- A source inside any number of `Take`s. -/
inductive Reader (σ : Type) where
  | source (reader : σ)
  | take (remaining : UInt64) (reader : Reader σ)

namespace Reader

/-- `Read for Take`, the reader of which may be another `Take`. -/
def read (target : Target) [Read target σ] :
    (reader : Reader σ) → (len : Nat) → Except (Stop ErrorKind) Bytes × Reader σ
  | .source reader, len => ((Read.read target len reader).1, .source (Read.read target len reader).2)
  | .take remaining reader, len =>
    match reader.read target (min len ((target.tryIntoUsize remaining).getD len)) with
    | (.error stop, reader) => (.error stop, .take remaining reader)
    | (.ok bytes, reader) =>
      match target.sub remaining ((tryIntoU64 bytes.length).getD remaining) with
      | none => (.error .panic, .take remaining reader)
      | some remaining => (.ok bytes, .take remaining reader)

def fillBuf (target : Target) [BufRead target σ] :
    (reader : Reader σ) → Except (Stop ErrorKind) Bytes × Reader σ
  | .source reader =>
    ((BufRead.fillBuf target reader).1, .source (BufRead.fillBuf target reader).2)
  | .take remaining reader =>
    if remaining = 0 then (.ok [], .take remaining reader)
    else match reader.fillBuf target with
      | (.error stop, reader) => (.error stop, .take remaining reader)
      | (.ok buf, reader) =>
        let cap := target.asUsize (min buf.length remaining.toNat)
        (.ok (buf.take cap), .take remaining reader)

def consume (target : Target) [BufRead target σ] :
    (reader : Reader σ) → (amount : Nat) → Except (Stop ErrorKind) Unit × Reader σ
  | .source reader, amount =>
    ((BufRead.consume target amount reader).1, .source (BufRead.consume target amount reader).2)
  | .take remaining reader, amount =>
    if UInt64.ofNat amount ≤ remaining then match target.sub remaining (.ofNat amount) with
      | none => (.error .panic, .take remaining reader)
      | some remaining =>
        ((reader.consume target amount).1, .take remaining (reader.consume target amount).2)
    else (.error .panic, .take remaining reader)

instance [Read target σ] : Read target (Reader σ) where
  read len reader := reader.read target len

instance [BufRead target σ] : BufRead target (Reader σ) where
  fillBuf reader := reader.fillBuf target
  consume amount reader := reader.consume target amount

end Reader
end Litecoin.Io
