import Litecoin.Consensus.Encode
import Litecoin.Crypto.SipHash
import Litecoin.Wire.Outcome
import Litecoin.Wire.Run
import Mathlib.Data.List.Sort

/-! Golomb coded sets, the content of compact block filters (`bip158.rs`). Filters are
written to and read from byte strings in memory. -/
namespace Litecoin.Bip158
open Wire Consensus

/-- `P`. -/
def P : UInt8 := 19

/-- `M`. -/
def M : UInt64 := 784931

/-- A result or an error; arithmetic that leaves its type panics, which is the outer `none`. -/
abbrev Outcome (α : Type) : Type := ExceptT IoError Option α

/-- The value of a sum or product of `u64`. -/
def checked (value : Nat) : Outcome UInt64 :=
  if value < 2 ^ 64 then pure (UInt64.ofNat value) else ExceptT.mk none

def checkedSub (a b : UInt64) : Outcome UInt64 :=
  if b ≤ a then pure (a - b) else ExceptT.mk none

/-- The amount of a shift of a `u64`. -/
def shift (bits : UInt8) : Outcome UInt64 :=
  if bits < 64 then pure bits.toUInt64 else ExceptT.mk none

structure BitStreamReader where
  buffer : UInt8
  offset : Nat
  reader : Bytes

namespace BitStreamReader

def new (reader : Bytes) : BitStreamReader := { buffer := 0, offset := 8, reader }

/-- The next byte, once the buffer is used up. -/
def refill (self : BitStreamReader) : Except IoError BitStreamReader :=
  if self.offset = 8 then match self.reader with
    | [] => .error .unexpectedEof
    | byte :: reader => .ok { buffer := byte, offset := 0, reader }
  else .ok self

/-- The loop of `read`. A round takes at least one bit. -/
def readLoop : (rounds nbits : Nat) → UInt64 → BitStreamReader →
    Except IoError (UInt64 × BitStreamReader)
  | rounds + 1, nbits + 1, data, self => do
    let self ← self.refill
    let bits := min (8 - self.offset) (nbits + 1)
    let data := data <<< UInt64.ofNat bits |||
      ((self.buffer <<< UInt8.ofNat self.offset) >>> UInt8.ofNat (8 - bits)).toUInt64
    readLoop rounds (nbits + 1 - bits) data { self with offset := self.offset + bits }
  | _, _, data, self => .ok (data, self)

def read (self : BitStreamReader) (nbits : UInt8) : Except IoError (UInt64 × BitStreamReader) :=
  if nbits > 64 then .error (.other "can not read more than 64 bits at once")
  else readLoop nbits.toNat nbits.toNat 0 self

/-- How many bits are left to read. -/
def available (self : BitStreamReader) : Nat := (8 - self.offset) + 8 * self.reader.length

end BitStreamReader

/-- The bytes of `writer` are those written through this stream. -/
structure BitStreamWriter where
  buffer : UInt8
  offset : Nat
  writer : Bytes

namespace BitStreamWriter

def new : BitStreamWriter := { buffer := 0, offset := 0, writer := [] }

def flush (self : BitStreamWriter) : Nat × BitStreamWriter :=
  if 0 < self.offset then (1, { buffer := 0, offset := 0, writer := self.writer ++ [self.buffer] })
  else (0, self)

/-- `if self.offset == 8`: a full buffer comes out. -/
def settle (self : BitStreamWriter) : Nat × BitStreamWriter :=
  if self.offset = 8 then self.flush else (0, self)

/-- The loop of `write`. A round puts down at least one bit. -/
def writeLoop (data : UInt64) : (rounds nbits : Nat) → Nat → BitStreamWriter → Nat × BitStreamWriter
  | rounds + 1, nbits + 1, wrote, self =>
    let bits := min (8 - self.offset) (nbits + 1)
    let buffer := self.buffer |||
      ((data <<< UInt64.ofNat (64 - (nbits + 1))) >>> UInt64.ofNat (64 - 8 + self.offset)).toUInt8
    let (flushed, self) := { self with buffer, offset := self.offset + bits }.settle
    writeLoop data rounds (nbits + 1 - bits) (wrote + flushed) self
  | _, _, wrote, self => (wrote, self)

def write (self : BitStreamWriter) (data : UInt64) (nbits : UInt8) :
    Except IoError (Nat × BitStreamWriter) :=
  if nbits > 64 then .error (.other "can not write more than 64 bits at once")
  else .ok (writeLoop data nbits.toNat nbits.toNat 0 self)

end BitStreamWriter

structure GcsFilter where
  k0 : UInt64
  k1 : UInt64
  p : UInt8

namespace GcsFilter

/-- `while q > 0` of `golomb_rice_encode`. -/
def encodeQuotient : (rounds q : Nat) → Nat → BitStreamWriter → Except IoError (Nat × BitStreamWriter)
  | rounds + 1, q + 1, wrote, writer => do
    let nbits := min (q + 1) 64
    let (count, writer) ← writer.write (~~~ 0) (UInt8.ofNat nbits)
    encodeQuotient rounds (q + 1 - nbits) (wrote + count) writer
  | _, _, wrote, writer => .ok (wrote, writer)

def golombRiceEncode (self : GcsFilter) (writer : BitStreamWriter) (n : UInt64) :
    Outcome (Nat × BitStreamWriter) := do
  let q := n >>> (← shift self.p)
  let (quotient, writer) ← encodeQuotient q.toNat q.toNat 0 writer
  let (stop, writer) ← writer.write 0 1
  let (remainder, writer) ← writer.write n self.p
  pure (quotient + stop + remainder, writer)

/-- `while reader.read(1)? == 1` of `golomb_rice_decode`. A round takes one bit, and no bit
can be read when none is left. -/
def decodeQuotient : (rounds : Nat) → UInt64 → BitStreamReader → Outcome (UInt64 × BitStreamReader)
  | 0, _, _ => throw .unexpectedEof
  | rounds + 1, q, reader => do
    let (bit, reader) ← reader.read 1
    if bit = 1 then decodeQuotient rounds (← checked (q.toNat + 1)) reader else pure (q, reader)

def golombRiceDecode (self : GcsFilter) (reader : BitStreamReader) :
    Outcome (UInt64 × BitStreamReader) := do
  let (q, reader) ← decodeQuotient reader.available 0 reader
  let (r, reader) ← reader.read self.p
  let n ← checked ((q <<< (← shift self.p)).toNat + r.toNat)
  pure (n, reader)

def hash (self : GcsFilter) (element : Bytes) : UInt64 :=
  SipHash.hashToU64WithKeys self.k0 self.k1 element

end GcsFilter

def mapToRange (hash nm : UInt64) : UInt64 := UInt64.ofNat ((hash.toNat * nm.toNat) >>> 64)

/-- What the bytes are written to is left out: `finish` returns them. -/
structure GcsFilterWriter where
  filter : GcsFilter
  elements : BTreeSet Bytes
  m : UInt64

namespace GcsFilterWriter

def new (k0 k1 m : UInt64) (p : UInt8) : GcsFilterWriter :=
  { filter := { k0, k1, p }, elements := ∅, m }

def addElement (self : GcsFilterWriter) (element : Bytes) : GcsFilterWriter :=
  if element.isEmpty then self else { self with elements := self.elements.insert element }

/-- `for data in mapped` of `finish`. -/
def encodeDeltas (filter : GcsFilter) : List UInt64 → UInt64 → Nat → BitStreamWriter →
    Outcome (Nat × BitStreamWriter)
  | [], _, wrote, writer => pure (wrote, writer)
  | data :: mapped, last, wrote, writer => do
    let (count, writer) ← filter.golombRiceEncode writer (← checkedSub data last)
    encodeDeltas filter mapped data (wrote + count) writer

def finish (self : GcsFilterWriter) : Outcome (Nat × Bytes) := do
  let nm ← checked ((UInt64.ofNat self.elements.size).toNat * self.m.toNat)
  let mapped := self.elements.toList.map fun e => mapToRange (self.filter.hash e) nm
  let mapped := mapped.insertionSort (· ≤ ·)
  let (wrote, count) ← VarInt.consensusEncode (UInt64.ofNat mapped.length)
  let (wrote, writer) ← encodeDeltas self.filter mapped 0 wrote .new
  let (flushed, writer) := writer.flush
  pure (wrote + flushed, count ++ writer.writer)

end GcsFilterWriter

/-- `Vec::dedup`. -/
def dedup : List UInt64 → List UInt64
  | a :: b :: rest => if a = b then dedup (b :: rest) else a :: dedup (b :: rest)
  | rest => rest

structure GcsFilterReader where
  filter : GcsFilter
  m : UInt64

/-- Where a filter has been read to: the value there, and the number of values that follow. -/
structure Cursor where
  data : UInt64
  remaining : Nat
  reader : BitStreamReader

namespace GcsFilterReader

def new (k0 k1 m : UInt64) (p : UInt8) : GcsFilterReader := { filter := { k0, k1, p }, m }

/-- The inner loop of both passes: goes to the first value that is not below `p`, and
compares it with `p`. The value is still below `p` when none is left. -/
def seek (filter : GcsFilter) (p : UInt64) : (remaining : Nat) → UInt64 → BitStreamReader →
    Outcome (Ordering × Cursor)
  | remaining, data, reader => match compare data p with
    | .lt => match remaining with
      | 0 => pure (.lt, ⟨data, 0, reader⟩)
      | remaining + 1 => do
        let (delta, reader) ← filter.golombRiceDecode reader
        seek filter p remaining (← checked (data.toNat + delta.toNat)) reader
    | found => pure (found, ⟨data, remaining, reader⟩)

/-- `for p in mapped` of `match_any`. -/
def anyLoop (filter : GcsFilter) : List UInt64 → Cursor → Outcome Bool
  | [], _ => pure false
  | p :: mapped, cursor => do
    let (found, cursor) ← seek filter p cursor.remaining cursor.data cursor.reader
    match found with
    | .eq => pure true
    | .lt => pure false
    | .gt => anyLoop filter mapped cursor

/-- `for p in mapped` of `match_all`. -/
def allLoop (filter : GcsFilter) : List UInt64 → Cursor → Outcome Bool
  | [], _ => pure true
  | p :: mapped, cursor => do
    let (found, cursor) ← seek filter p cursor.remaining cursor.data cursor.reader
    match found with
    | .eq => allLoop filter mapped cursor
    | .lt => pure false
    | .gt => pure false

/-- `consensus_decode(reader).unwrap_or(VarInt(0))`. -/
def nElements (reader : Bytes) : UInt64 × Bytes :=
  match VarInt.consensusDecode reader with
  | .ok read => read
  | .error _ => (0, reader)

/-- The first value, of a filter that has one. -/
def start (filter : GcsFilter) (nElements : UInt64) (reader : Bytes) : Outcome Cursor := do
  let (data, reader) ← filter.golombRiceDecode (.new reader)
  pure { data, remaining := (nElements - 1).toNat, reader }

def matchAny (self : GcsFilterReader) (reader : Bytes) (query : List Bytes) : Outcome Bool := do
  let (nElements, reader) := nElements reader
  let nm ← checked (nElements.toNat * self.m.toNat)
  let mapped := (query.map fun e => mapToRange (self.filter.hash e) nm).insertionSort (· ≤ ·)
  if mapped.isEmpty then pure false
  else if nElements = 0 then pure false
  else anyLoop self.filter mapped (← start self.filter nElements reader)

def matchAll (self : GcsFilterReader) (reader : Bytes) (query : List Bytes) : Outcome Bool := do
  let (nElements, reader) := nElements reader
  let nm ← checked (nElements.toNat * self.m.toNat)
  let mapped := dedup ((query.map fun e => mapToRange (self.filter.hash e) nm).insertionSort (· ≤ ·))
  if mapped.isEmpty then pure true
  else if nElements = 0 then pure false
  else allLoop self.filter mapped (← start self.filter nElements reader)

end GcsFilterReader

end Litecoin.Bip158
