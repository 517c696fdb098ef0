import Litecoin.Io.FiniteSource

/-! Slices and cursors as readers of the bytes they have left, and the calls that cannot tell
them apart. -/
namespace Litecoin.Io
open Wire
open Wire.Process (Stop)

/-- A reader that has the bytes it has left in memory: it delivers as many as there is room for. -/
class InMemory (target : Target) (σ : Type) extends BufRead target σ where
  Valid : σ → Prop
  left : σ → Bytes
  fits : ∀ source, Valid source → (left source).length < target.size
  read_eq : ∀ source len, Valid source → len < target.size → ∃ next,
    read len source = (.ok ((left source).take len), next) ∧ Valid next ∧
      left next = (left source).drop len
  fillBuf_eq : ∀ source, Valid source → fillBuf source = (.ok (left source), source)
  consume_eq : ∀ source amount, Valid source → amount ≤ (left source).length → ∃ next,
    consume amount source = (.ok (), next) ∧ Valid next ∧ left next = (left source).drop amount

instance [InMemory target σ] : FiniteSource target σ where
  Valid := InMemory.Valid target
  left := InMemory.left target
  patience _ := 0
  outcome source len valid usize := by
    obtain ⟨next, ran, kept, rest⟩ := InMemory.read_eq source len valid usize
    rw [ran]
    refine .filled ⟨kept, ?_⟩ (List.length_take_le _ _) List.take_eq_nil_iff.mp (Nat.le_refl 0)
    rw [rest, List.take_append_drop]

theorem take_min_length (bytes : Bytes) (len : Nat) :
    bytes.take (min bytes.length len) = bytes.take len := by
  rcases Nat.le_total bytes.length len with short | long
  · rw [Nat.min_eq_left short, List.take_length, List.take_of_length_le short]
  · rw [Nat.min_eq_right long]

theorem drop_min_length (bytes : Bytes) (len : Nat) :
    bytes.drop (min bytes.length len) = bytes.drop len := by
  rcases Nat.le_total bytes.length len with short | long
  · rw [Nat.min_eq_left short, List.drop_length, List.drop_of_length_le short]
  · rw [Nat.min_eq_right long]

/-- A limit that went down by what was read lets through what it let through before, less that. -/
theorem take_drop_counted {bytes : Bytes} {len limit further : Nat}
    (counted : limit = (bytes.take (min len limit)).length + further) :
    (bytes.drop (min len limit)).take further = (bytes.take limit).drop len := by
  rw [List.length_take] at counted
  rw [List.drop_take]
  rcases Nat.lt_or_ge bytes.length (min len limit) with short | long
  · have none : bytes.drop len = [] := List.drop_of_length_le (by omega)
    rw [List.drop_of_length_le (Nat.le_of_lt short), none, List.take_nil, List.take_nil]
  · rcases Nat.le_total len limit with inner | outer
    · rw [Nat.min_eq_left inner] at counted long ⊢
      rw [show further = limit - len by omega]
    · rw [Nat.min_eq_right outer] at counted long ⊢
      rw [show further = 0 by omega, show limit - len = 0 by omega, List.take_zero, List.take_zero]

instance : InMemory target Bytes where
  Valid slice := slice.length < target.size
  left := id
  fits _ := id
  read_eq slice len valid _ := by
    refine ⟨slice.drop len, ?_, ?_, rfl⟩
    · change Slice.read len slice = _
      rw [Slice.read, take_min_length, drop_min_length]
      rfl
    · rw [List.length_drop]
      exact Nat.lt_of_le_of_lt (Nat.sub_le _ _) valid
  fillBuf_eq _ _ := rfl
  consume_eq slice amount valid le := by
    refine ⟨slice.drop amount, if_pos le, ?_, rfl⟩
    rw [List.length_drop]
    exact Nat.lt_of_le_of_lt (Nat.sub_le _ _) valid

namespace Cursor

/-- No further than behind the last byte, in a buffer whose length is a `usize`. -/
def Valid (target : Target) (cursor : Cursor) : Prop :=
  cursor.inner.length < target.size ∧ cursor.pos.toNat ≤ cursor.inner.length

/-- What is left, as a slice. -/
def slice (cursor : Cursor) : Bytes := cursor.inner.drop cursor.pos.toNat

theorem valid_new {inner : Bytes} (fits : inner.length < target.size) : (new inner).Valid target :=
  ⟨fits, Nat.zero_le _⟩

variable {target : Target} {cursor : Cursor}

theorem Valid.length_slice (valid : cursor.Valid target) : cursor.slice.length < target.size := by
  rw [slice, List.length_drop]
  exact Nat.lt_of_le_of_lt (Nat.sub_le _ _) valid.1

/-- The position after `count` of the bytes that are left. -/
theorem Valid.advance (valid : cursor.Valid target) (count : Nat) (le : count ≤ cursor.slice.length)
    (pos : UInt64) (moved : pos.toNat = cursor.pos.toNat + count) :
    ({ cursor with pos } : Cursor).Valid target ∧
      ({ cursor with pos } : Cursor).slice = cursor.slice.drop count := by
  rw [slice, List.length_drop] at le
  have inside := valid.2
  refine ⟨⟨valid.1, ?_⟩, ?_⟩
  · change pos.toNat ≤ cursor.inner.length
    omega
  · change cursor.inner.drop pos.toNat = (cursor.inner.drop cursor.pos.toNat).drop count
    rw [moved, List.drop_drop]

theorem Valid.tryIntoUsize_pos (valid : cursor.Valid target) :
    target.tryIntoUsize cursor.pos = some cursor.pos.toNat :=
  if_pos (Nat.lt_of_le_of_lt valid.2 valid.1)

theorem Valid.asUsize_pos (valid : cursor.Valid target) :
    target.asUsize cursor.pos.toNat = cursor.pos.toNat :=
  Nat.mod_eq_of_lt (Nat.lt_of_le_of_lt valid.2 valid.1)

theorem read_eq (valid : cursor.Valid target) (len : Nat) : ∃ next,
    cursor.read target len = (.ok (cursor.slice.take len), next) ∧ next.Valid target ∧
      next.slice = cursor.slice.drop len := by
  have length : cursor.slice.length = cursor.inner.length - cursor.pos.toNat := List.length_drop
  have inside := valid.2
  have small := valid.1
  have words := target.size_le
  have count : min cursor.slice.length len < 2 ^ 64 := by omega
  have word : tryIntoU64 (min cursor.slice.length len) = some (.ofNat (min cursor.slice.length len)) :=
    if_pos count
  have exact : (UInt64.ofNat (min cursor.slice.length len)).toNat = min cursor.slice.length len :=
    UInt64.toNat_ofNat_of_lt' count
  have moved : (saturatingAdd cursor.pos (.ofNat (min cursor.slice.length len))).toNat =
      cursor.pos.toNat + min cursor.slice.length len := by
    rw [saturatingAdd, exact, UInt64.toNat_ofNat_of_lt' (by change _ < 2 ^ 64; omega)]
    omega
  obtain ⟨kept, rest⟩ := valid.advance _ (Nat.min_le_left _ len) _ moved
  rw [drop_min_length] at rest
  refine ⟨_, ?_, kept, rest⟩
  rw [read]
  simp only [valid.tryIntoUsize_pos, Option.getD_some, ← length, word]
  rw [if_pos (by omega), ← slice, take_min_length]

theorem fillBuf_eq (valid : cursor.Valid target) :
    fillBuf target cursor = (.ok cursor.slice, cursor) := by
  rw [fillBuf, valid.asUsize_pos, if_pos valid.2]
  rfl

theorem add_pos (target : Target) {cursor : Cursor} (sum : cursor.pos.toNat + amount < 2 ^ 64) :
    ∃ pos, target.add cursor.pos (.ofNat amount) = some pos ∧
      pos.toNat = cursor.pos.toNat + amount := by
  have exact : (UInt64.ofNat amount).toNat = amount :=
    UInt64.toNat_ofNat_of_lt' (Nat.lt_of_le_of_lt (Nat.le_add_left _ _) sum)
  rw [← exact] at sum
  refine ⟨_, if_neg fun exceeds => absurd exceeds.2 (Nat.not_le.mpr sum), ?_⟩
  rw [UInt64.toNat_add, Nat.mod_eq_of_lt sum, exact]

theorem consume_eq (valid : cursor.Valid target) (le : amount ≤ cursor.slice.length) : ∃ next,
    consume target amount cursor = (.ok (), next) ∧ next.Valid target ∧
      next.slice = cursor.slice.drop amount := by
  have length : cursor.slice.length = cursor.inner.length - cursor.pos.toNat := List.length_drop
  have inside := valid.2
  have small := valid.1
  have words := target.size_le
  have sum : cursor.pos.toNat + amount < 2 ^ 64 := by omega
  obtain ⟨pos, added, moved⟩ := add_pos target sum
  obtain ⟨kept, rest⟩ := valid.advance amount le pos moved
  refine ⟨_, ?_, kept, rest⟩
  rw [consume, if_pos (by omega), added]

end Cursor

instance : InMemory target Cursor where
  Valid := Cursor.Valid target
  left := Cursor.slice
  fits _ valid := valid.length_slice
  read_eq _ len valid _ := Cursor.read_eq valid len
  fillBuf_eq _ valid := Cursor.fillBuf_eq valid
  consume_eq _ _ valid le := Cursor.consume_eq valid le

namespace Reader
variable {target : Target} [InMemory target σ]

theorem fits {reader : Reader σ} (valid : reader.Valid target) :
    (reader.left target).length < target.size := by
  induction reader with
  | source reader => exact InMemory.fits reader valid
  | take remaining reader ih =>
    rw [left, List.length_take]
    exact Nat.lt_of_le_of_lt (Nat.min_le_right _ _) (ih valid)

theorem read_eq {reader : Reader σ} (valid : reader.Valid target) (usize : len < target.size) : ∃ next,
    reader.read target len = (.ok ((reader.left target).take len), next) ∧ next.Valid target ∧
      next.left target = (reader.left target).drop len := by
  induction reader generalizing len with
  | source reader =>
    obtain ⟨next, ran, kept, rest⟩ := InMemory.read_eq reader len valid usize
    refine ⟨.source next, ?_, kept, rest⟩
    rw [read, ran]
    rfl
  | take remaining reader ih =>
    rw [read, target.tryIntoUsize_cap usize]
    have capped : min len remaining.toNat < target.size :=
      Nat.lt_of_le_of_lt (Nat.min_le_left _ _) usize
    obtain ⟨next, ran, kept, rest⟩ := ih valid capped
    have within : ((reader.left target).take (min len remaining.toNat)).length ≤ remaining.toNat := by
      rw [List.length_take]
      omega
    obtain ⟨word, -, further, charged, counted⟩ := target.charge within
    refine ⟨.take further next, ?_, kept, ?_⟩
    · simp only [ran, word, Option.getD_some, charged]
      rw [left, List.take_take]
    · rw [left, left, rest]
      exact take_drop_counted counted

theorem fillBuf_eq {reader : Reader σ} (valid : reader.Valid target) :
    reader.fillBuf target = (.ok (reader.left target), reader) := by
  induction reader with
  | source reader =>
    rw [fillBuf, InMemory.fillBuf_eq reader valid]
    rfl
  | take remaining reader ih =>
    rw [fillBuf]
    split
    case isTrue none =>
      rw [left, none, UInt64.toNat_zero, List.take_zero]
    case isFalse =>
      have exact : target.asUsize (min (reader.left target).length remaining.toNat) =
          min (reader.left target).length remaining.toNat :=
        Nat.mod_eq_of_lt (Nat.lt_of_le_of_lt (Nat.min_le_left _ _) (fits valid))
      simp only [ih valid, exact, take_min_length, left]

theorem consume_eq {reader : Reader σ} (valid : reader.Valid target)
    (le : amount ≤ (reader.left target).length) : ∃ next,
    reader.consume target amount = (.ok (), next) ∧ next.Valid target ∧
      next.left target = (reader.left target).drop amount := by
  induction reader with
  | source reader =>
    obtain ⟨next, ran, kept, rest⟩ := InMemory.consume_eq reader amount valid le
    refine ⟨.source next, ?_, kept, rest⟩
    rw [consume, ran]
  | take remaining reader ih =>
    rw [left, List.length_take] at le
    obtain ⟨next, ran, kept, rest⟩ := ih valid (Nat.le_trans le (Nat.min_le_right _ _))
    obtain ⟨-, inside, further, charged, counted⟩ := target.charge (Nat.le_trans le (Nat.min_le_left _ _))
    refine ⟨.take further next, ?_, kept, ?_⟩
    · rw [consume, if_pos inside]
      simp only [charged, ran]
    · rw [left, left, rest, List.drop_take, counted, Nat.add_sub_cancel_left]

instance : InMemory target (Reader σ) where
  Valid := Reader.Valid target
  left := Reader.left target
  fits _ valid := Reader.fits valid
  read_eq _ _ valid usize := Reader.read_eq valid usize
  fillBuf_eq _ valid := Reader.fillBuf_eq valid
  consume_eq _ _ valid le := Reader.consume_eq valid le

/-- The same `Take`s around another source. -/
def map (f : σ → τ) : Reader σ → Reader τ
  | .source reader => .source (f reader)
  | .take remaining reader => .take remaining (reader.map f)

theorem left_map [InMemory target τ] {f : σ → τ} (same : ∀ source,
    InMemory.left target (f source) = InMemory.left target source) (reader : Reader σ) :
    (reader.map f).left target = reader.left target := by
  induction reader with
  | source reader => exact same reader
  | take remaining reader ih => rw [map, left, left, ih]

theorem valid_map [InMemory target τ] {f : σ → τ} (kept : ∀ source,
    InMemory.Valid target source → InMemory.Valid target (f source)) {reader : Reader σ}
    (valid : reader.Valid target) : (reader.map f).Valid target := by
  induction reader with
  | source reader => exact kept reader valid
  | take remaining reader ih => exact ih valid

end Reader

/-- A call of a method of `BufRead`; the length of a buffer and an amount are each a `usize`. -/
inductive Call (target : Target) where
  | read (len : target.Usize)
  | fillBuf
  | consume (amount : target.Usize)

namespace Call

def run [BufRead target σ] : Call target → Method σ Bytes
  | .read len => Read.read target len.val
  | .fillBuf => BufRead.fillBuf target
  | .consume amount => (fun _ => []) <$> BufRead.consume target amount.val

/-- What may be consumed after a call that returned `returned`: as much as the last fill returned,
less what was read and consumed since. -/
def allowance (before : Nat) (returned : Bytes) : Call target → Nat
  | .read _ => before - returned.length
  | .fillBuf => returned.length
  | .consume amount => before - amount.val

end Call

/-- What the calls return, up to the first that panics. -/
def trace [BufRead target σ] : List (Call target) → σ → List (Except (Stop ErrorKind) Bytes)
  | [], _ => []
  | call :: calls, reader => match call.run reader with
    | (.error .panic, _) => [.error .panic]
    | (result, next) => result :: trace calls next

/-- No call consumes more than the last fill allows. -/
def Respects [BufRead target σ] (allowance : Nat) : List (Call target) → σ → Prop
  | [], _ => True
  | call :: calls, reader => (∀ amount, call = .consume amount → amount.val ≤ allowance) ∧
      ∀ returned next, call.run reader = (.ok returned, next) →
        Respects (call.allowance allowance returned) calls next

section Alike
variable {target : Target} [InMemory target σ] [InMemory target τ]

/-- What a call returns where `left` is left, and what is left then. -/
def Call.on (left : Bytes) : Call target → Bytes × Bytes
  | .read len => (left.take len.val, left.drop len.val)
  | .fillBuf => (left, left)
  | .consume amount => ([], left.drop amount.val)

theorem Call.run_eq {source : σ} (valid : InMemory.Valid target source) {call : Call target}
    (allowed : ∀ amount, call = .consume amount → amount.val ≤ (InMemory.left target source).length) :
    ∃ next, call.run source = (.ok (call.on (InMemory.left target source)).1, next) ∧
      InMemory.Valid target next ∧
      InMemory.left target next = (call.on (InMemory.left target source)).2 := by
  cases call with
  | read len => exact InMemory.read_eq source len.val valid len.isLt
  | fillBuf => exact ⟨source, InMemory.fillBuf_eq source valid, valid, rfl⟩
  | consume amount =>
    obtain ⟨next, ran, kept, rest⟩ := InMemory.consume_eq source amount.val valid (allowed amount rfl)
    exact ⟨next, Process.bind_of_ok ran, kept, rest⟩

theorem Call.allowance_le (call : Call target) {before : Nat} {left : Bytes}
    (within : before ≤ left.length) : call.allowance before (call.on left).1 ≤ (call.on left).2.length := by
  cases call with
  | read len =>
    simp only [allowance, on, List.length_take, List.length_drop]
    omega
  | fillBuf => exact Nat.le_refl _
  | consume amount =>
    simp only [allowance, on, List.length_drop]
    omega

theorem trace_alike {calls : List (Call target)} {one : σ} {two : τ} {allowance : Nat}
    (valid : InMemory.Valid target one) (valid' : InMemory.Valid target two)
    (same : InMemory.left target two = InMemory.left target one)
    (within : allowance ≤ (InMemory.left target one).length) (respects : Respects allowance calls one) :
    trace calls two = trace calls one ∧ ∀ result ∈ trace calls one, ∃ bytes, result = .ok bytes := by
  induction calls generalizing one two allowance with
  | nil => exact ⟨rfl, by simp [trace]⟩
  | cons call calls ih =>
    obtain ⟨allowed, later⟩ := respects
    have inside : ∀ amount, call = .consume amount → amount.val ≤ (InMemory.left target one).length :=
      fun amount consumed => Nat.le_trans (allowed amount consumed) within
    obtain ⟨next, ran, kept, rest⟩ := call.run_eq valid inside
    obtain ⟨next', ran', kept', rest'⟩ := call.run_eq valid' (by rw [same]; exact inside)
    rw [same] at ran' rest'
    have room : call.allowance allowance (call.on (InMemory.left target one)).1 ≤
        (InMemory.left target next).length := by
      rw [rest]
      exact call.allowance_le within
    obtain ⟨alike, returned⟩ := ih kept kept' (rest'.trans rest.symm) room (later _ _ ran)
    simp only [trace, ran, ran', alike, List.forall_mem_cons, true_and]
    exact ⟨⟨_, rfl⟩, returned⟩

end Alike
end Litecoin.Io
