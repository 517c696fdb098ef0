import Litecoin.Wire.Record

/-! Writers as the pair of the returned byte count and the bytes appended. The
count is kept beside the bytes because the two are computed separately. -/
namespace Litecoin.Wire

/-- The result of one write into an in-memory buffer. -/
abbrev Emission (ε : Type) : Type := Except ε (Nat × Bytes)

namespace Emission

def fail (e : ε) : Emission ε := .error e

/-- Writes `bytes` and reports `count`. -/
def counted (count : Nat) (bytes : Bytes) : Emission ε := .ok (count, bytes)

/-- Writes `bytes` and reports how many they are. -/
def written (bytes : Bytes) : Emission ε := .ok (bytes.length, bytes)

/-- `len += first; len += second`. -/
def append : Emission ε → Emission ε → Emission ε
  | .ok (count₁, bytes₁), .ok (count₂, bytes₂) => .ok (count₁ + count₂, bytes₁ ++ bytes₂)
  | .ok _, .error e => .error e
  | .error e, _ => .error e

instance : Append (Emission ε) := ⟨append⟩

/-- `for value in values { len += emit(value); }`. -/
def each (emit : α → Emission ε) : List α → Emission ε
  | [] => written []
  | value :: rest => emit value ++ each emit rest

/-- A present optional field, or a missing one reported as `e`. -/
def required (emit : α → Emission ε) (e : ε) : Option α → Emission ε
  | some value => emit value
  | none => fail e

/-- Writes nothing unless the field is switched on. -/
def gated (on : Bool) (emission : Emission ε) : Emission ε :=
  if on then emission else written []

/-- The bytes of a write, without the count. -/
def toBytes : Emission ε → Except ε Bytes
  | .ok (_, bytes) => .ok bytes
  | .error e => .error e

theorem counted_eq_written (same : count = bytes.length) :
    (counted count bytes : Emission ε) = written bytes := by
  rw [counted, written, same]

@[simp] theorem written_append (bytes₁ bytes₂ : Bytes) :
    (written bytes₁ ++ written bytes₂ : Emission ε) = written (bytes₁ ++ bytes₂) := by
  change append _ _ = _
  simp [append, written]

theorem append_eq_ok {first second : Emission ε} :
    first ++ second = .ok (count, bytes) ↔ ∃ count₁ bytes₁ count₂ bytes₂,
      first = .ok (count₁, bytes₁) ∧ second = .ok (count₂, bytes₂) ∧
        count = count₁ + count₂ ∧ bytes = bytes₁ ++ bytes₂ := by
  change append _ _ = _ ↔ _
  cases first with
  | error e => simp [append]
  | ok first =>
    cases second with
    | error e => simp [append]
    | ok second =>
      simp only [append, Except.ok.injEq, Prod.mk.injEq]
      constructor
      · rintro ⟨rfl, rfl⟩
        exact ⟨_, _, _, _, rfl, rfl, rfl, rfl⟩
      · rintro ⟨_, _, _, _, rfl, rfl, rfl, rfl⟩
        exact ⟨rfl, rfl⟩

theorem each_written {emit : α → Emission ε} {wire : α → Bytes} {values : List α}
    (emits : ∀ a ∈ values, emit a = written (wire a)) :
    each emit values = written (values.flatMap wire) := by
  induction values with
  | nil => rfl
  | cons value rest ih =>
    simp only [List.forall_mem_cons] at emits
    simp only [each, emits.1, ih emits.2, written_append, List.flatMap_cons]

theorem each_eq_ok {emit : α → Emission ε} {values : List α}
    (emitted : each emit values = .ok result) : ∀ a ∈ values, ∃ result, emit a = .ok result := by
  induction values generalizing result with
  | nil => simp
  | cons value rest ih =>
    obtain ⟨count₁, bytes₁, count₂, bytes₂, head, tail, _⟩ := append_eq_ok.mp emitted
    exact List.forall_mem_cons.mpr ⟨⟨_, head⟩, ih tail⟩

theorem gated_written (on : Bool) (bytes : Bytes) :
    (gated on (written bytes) : Emission ε) = written (announced on bytes) := by
  cases on <;> rfl

/-- A field that is there whenever it is announced is written as announced. -/
theorem gated_required {emit : α → Emission ε} {wire : α → Bytes} {value : Option α} {on : Bool}
    (emits : ∀ a, emit a = written (wire a)) (complete : on = true → value.isSome = true) :
    gated on (required emit e value) = written (announced on (optionalWire wire value)) := by
  cases on with
  | false => rfl
  | true =>
    obtain ⟨a, rfl⟩ := Option.isSome_iff_exists.mp (complete rfl)
    exact emits a

/-- A missing announced field is reported. -/
theorem gated_required_eq_ok {emit : α → Emission ε} {value : Option α} {on : Bool}
    (emitted : gated on (required emit e value) = .ok result) :
    on = true → value.isSome = true := by
  rintro rfl
  cases value with
  | none => contradiction
  | some a => rfl

@[simp] theorem toBytes_written (bytes : Bytes) :
    (written bytes : Emission ε).toBytes = .ok bytes := rfl

theorem toBytes_eq_ok {emission : Emission ε} :
    emission.toBytes = .ok bytes ↔ ∃ count, emission = .ok (count, bytes) := by
  cases emission with
  | error e => simp [toBytes]
  | ok result =>
    obtain ⟨count, emitted⟩ := result
    simp only [toBytes, Except.ok.injEq, Prod.mk.injEq]
    exact ⟨fun same => ⟨count, rfl, same⟩, fun ⟨_, _, same⟩ => same⟩

end Emission
end Litecoin.Wire
