import Litecoin.Crypto.Hashes
import Litecoin.Wire.Counter
import Litecoin.Wire.Digits
import Litecoin.Wire.Endian
import Litecoin.Wire.Text

/-! Base58 text, with and without a checksum (`base58/lib.rs`). -/
namespace Litecoin.Base58
open Wire

/-- `BASE58_CHARS`. -/
def base58Chars : Bytes := ascii "123456789ABCDEFGHJKLMNPQRSTUVWXYZabcdefghijkmnopqrstuvwxyz"

/-- `BASE58_DIGITS`. -/
def base58Digits : List (Option UInt8) := [
  none,    none,    none,    none,    none,    none,    none,    none,
  none,    none,    none,    none,    none,    none,    none,    none,
  none,    none,    none,    none,    none,    none,    none,    none,
  none,    none,    none,    none,    none,    none,    none,    none,
  none,    none,    none,    none,    none,    none,    none,    none,
  none,    none,    none,    none,    none,    none,    none,    none,
  none,    some 0,  some 1,  some 2,  some 3,  some 4,  some 5,  some 6,
  some 7,  some 8,  none,    none,    none,    none,    none,    none,
  none,    some 9,  some 10, some 11, some 12, some 13, some 14, some 15,
  some 16, none,    some 17, some 18, some 19, some 20, some 21, none,
  some 22, some 23, some 24, some 25, some 26, some 27, some 28, some 29,
  some 30, some 31, some 32, none,    none,    none,    none,    none,
  none,    some 33, some 34, some 35, some 36, some 37, some 38, some 39,
  some 40, some 41, some 42, some 43, none,    some 44, some 45, some 46,
  some 47, some 48, some 49, some 50, some 51, some 52, some 53, some 54,
  some 55, some 56, some 57, none,    none,    none,    none,    none]

structure InvalidCharacterError where
  invalid : UInt8
deriving Repr, DecidableEq

/-- `error::Error`. The checksums are `u32`. -/
inductive Error where
  | decode (e : InvalidCharacterError)
  | incorrectChecksum (incorrect expected : Nat)
  | tooShort (length : Nat)
deriving Repr, DecidableEq

/-- The value of a character: what `decode` looks up first. -/
def digitOf (d58 : UInt8) : Except InvalidCharacterError Nat :=
  -- `get?` is also `none` past the end of the table, where the source returns the same error.
  match base58Digits[d58.toNat]? with
  | some (some digit) => .ok digit.toNat
  | _ => .error ⟨d58⟩

/-- One byte of "X = X * 58 + next_digit" in base 256. -/
def decodeStep (carry : Nat) (d256 : UInt8) : UInt8 × Nat :=
  let carry := carry + d256.toNat * 58
  (UInt8.ofNat carry, carry / 256)

/-- The loop of `decode`. The outer `none` is the failed assertion. -/
def decodeLoop : Bytes → Bytes → ExceptT InvalidCharacterError Option Bytes
  | [], scratch => pure scratch
  | d58 :: rest, scratch => do
    let carry ← liftM (digitOf d58)
    let (written, carry) := passThrough decodeStep carry scratch.reverse
    if carry = 0 then decodeLoop rest written.reverse else ExceptT.mk none

def decode (data : Bytes) : ExceptT InvalidCharacterError Option Bytes := do
  let scratch ← decodeLoop data (List.replicate (1 + data.length * 11 / 15) 0)
  let ret := (data.takeWhile fun x => some x == base58Chars[0]?).map fun _ => 0
  pure (ret ++ scratch.dropWhile (· == 0))

/-- `decode_check`. The checksums are compared as little-endian `u32`s. -/
def decodeCheck [Hashes] (data : Bytes) : ExceptT Error Option Bytes := do
  let ret ← ExceptT.mk ((decode data).run.map (Except.mapError Error.decode))
  if ret.length < 4 then throw (.tooShort ret.length) else
    let checkStart := ret.length - 4
    let expected := fromLittleEndian ((Hashes.sha256d (ret.take checkStart)).val.take 4)
    let actual := fromLittleEndian (ret.drop checkStart)
    if actual ≠ expected then throw (.incorrectChecksum actual expected)
    else pure (ret.take checkStart)

/-- `SmallVec`: the first elements on a stack of fixed size, the rest on the heap. The source
has a stack of 100. -/
structure SmallVec (capacity : Nat) (α : Type) where
  len : Nat
  stack : List α
  heap : List α
  full : stack.length = capacity
  within : len ≤ capacity
  /-- Nothing goes to the heap before the stack is full. -/
  spilled : len < capacity → heap = []

namespace SmallVec

/-- `SmallVec::new`. -/
def new [Inhabited α] : SmallVec capacity α where
  len := 0
  stack := List.replicate capacity default
  heap := []
  full := List.length_replicate
  within := Nat.zero_le capacity
  spilled _ := rfl

def push (vec : SmallVec capacity α) (val : α) : SmallVec capacity α :=
  if room : vec.len < capacity then
    { vec with
      len := vec.len + 1
      stack := vec.stack.set vec.len val
      full := by rw [List.length_set, vec.full]
      within := room
      spilled := fun _ => vec.spilled room }
  else { vec with heap := vec.heap ++ [val], spilled := fun free => absurd free room }

/-- `iter`. -/
def toList (vec : SmallVec capacity α) : List α := vec.stack.take vec.len ++ vec.heap

/-- A loop over `iter_mut`. -/
def pass (step : σ → α → α × σ) (carry : σ) (vec : SmallVec capacity α) :
    SmallVec capacity α × σ :=
  let front := passThrough step carry (vec.stack.take vec.len)
  let back := passThrough step front.2 vec.heap
  ({ vec with
      stack := front.1 ++ vec.stack.drop vec.len
      heap := back.1
      full := by simp [front, vec.full, vec.within]
      spilled := fun free => by simp [back, vec.spilled free, passThrough] }, back.2)

end SmallVec

/-- One digit of "X = X * 256 + next byte" in base 58. -/
def formatStep (carry : Nat) (ch : UInt8) : UInt8 × Nat :=
  let newCh := ch.toNat * 256 + carry
  (UInt8.ofNat (newCh % 58), newCh / 58)

/-- `while carry > 0`. -/
def pushCarry (ret : SmallVec capacity UInt8) (carry : Nat) : SmallVec capacity UInt8 :=
  if carry = 0 then ret else pushCarry (ret.push (UInt8.ofNat (carry % 58))) (carry / 58)
termination_by carry

/-- The count is an `i32`, as its type is left open. -/
structure FormatState (capacity : Nat) where
  ret : SmallVec capacity UInt8
  leadingZeroCount : Int32
  leadingZeroes : Bool

/-- One byte of the data. `none` is an overflow of the count. -/
def FormatState.next (overflowChecks : Bool) (s : FormatState capacity) (d256 : UInt8) :
    Option (FormatState capacity) := do
  let s ← if s.leadingZeroes ∧ d256.toNat = 0 then
      (increment overflowChecks s.leadingZeroCount).map fun leadingZeroCount => { s with leadingZeroCount }
    else some { s with leadingZeroes := false }
  let (ret, carry) := s.ret.pass formatStep d256.toNat
  some { s with ret := pushCarry ret carry }

/-- `format_iter`, with a stack of any size. `none` is an overflow, or an index past
`BASE58_CHARS`. -/
def formatIterWith (overflowChecks : Bool) (capacity : Nat) (data : Bytes) : Option Bytes := do
  let s ← data.foldlM (FormatState.next overflowChecks) (⟨SmallVec.new, 0, true⟩ : FormatState capacity)
  -- A range up to a negative number is empty.
  let ret := (List.range s.leadingZeroCount.toNatClampNeg).foldl (fun ret _ => ret.push 0) s.ret
  ret.toList.reverse.mapM fun ch => base58Chars[ch.toNat]?

/-- `format_iter`. -/
def formatIter (overflowChecks : Bool) (data : Bytes) : Option Bytes :=
  formatIterWith overflowChecks 100 data

def encode (overflowChecks : Bool) (data : Bytes) : Option Bytes := formatIter overflowChecks data

def encodeCheck [Hashes] (overflowChecks : Bool) (data : Bytes) : Option Bytes :=
  formatIter overflowChecks (data ++ (Hashes.sha256d data).val.take 4)

end Litecoin.Base58
