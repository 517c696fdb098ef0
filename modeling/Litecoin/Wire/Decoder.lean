import Mathlib.Data.List.Basic
import Mathlib.Tactic.Common

/-! Byte readers as state-passing functions, and the exactness judgment every
record format below is stated with. Nothing here knows a concrete format. -/
namespace Litecoin.Wire

abbrev Bytes := List UInt8

/-- Consumes a prefix of the remaining bytes, or fails. A failed read carries no
position: no caller resumes a reader after an error. -/
def Decoder (ε α : Type) : Type := Bytes → Except ε (α × Bytes)

namespace Decoder

instance : Monad (Decoder ε) where
  pure a := fun bytes => .ok (a, bytes)
  bind d next := fun bytes => match d bytes with
    | .ok (a, rest) => next a rest
    | .error e => .error e

def fail (e : ε) : Decoder ε α := fun _ => .error e

/-- Fails with `e` unless `accepted`. -/
def guard (accepted : Bool) (e : ε) : Decoder ε Unit :=
  if accepted then pure () else fail e

def mapError (f : ε → δ) (d : Decoder ε α) : Decoder δ α := fun bytes =>
  match d bytes with
  | .ok result => .ok result
  | .error e => .error (f e)

/-- Succeeds with a value computed without reading. -/
def ofExcept (result : Except ε α) : Decoder ε α := fun bytes =>
  match result with
  | .ok a => .ok (a, bytes)
  | .error e => .error e

/-- Runs `d` on at most `limit` bytes; what it leaves, and everything past the
limit, stays unread. -/
def take (limit : Nat) (d : Decoder ε α) : Decoder ε α := fun bytes =>
  match d (bytes.take limit) with
  | .ok (a, rest) => .ok (a, rest ++ bytes.drop limit)
  | .error e => .error e

/-- Reads exactly `n` bytes, failing with `e` when fewer remain. -/
def exact (n : Nat) (e : ε) : Decoder ε { chunk : Bytes // chunk.length = n } := fun bytes =>
  if enough : n ≤ bytes.length then
    .ok (⟨bytes.take n, List.length_take_of_le enough⟩, bytes.drop n)
  else .error e

/-- Reads `n` values in turn. -/
def times (d : Decoder ε α) : (n : Nat) → Decoder ε { values : List α // values.length = n }
  | 0 => pure ⟨[], rfl⟩
  | n + 1 => do
    let a ← d
    let rest ← times d n
    pure ⟨a :: rest.val, congrArg (· + 1) rest.property⟩

/-- Runs `d` on a whole byte string and fails with `e` when bytes are left over. -/
def whole (d : Decoder ε α) (e : ε) (bytes : Bytes) : Except ε α :=
  match d bytes with
  | .ok (a, []) => .ok a
  | .ok (_, _ :: _) => .error e
  | .error e => .error e

@[simp] theorem pure_eq_ok {a b : α} {bytes rest : Bytes} :
    (pure a : Decoder ε α) bytes = .ok (b, rest) ↔ a = b ∧ bytes = rest := by
  simp only [pure, Except.ok.injEq, Prod.mk.injEq]

@[simp] theorem bind_eq_ok {d : Decoder ε α} {next : α → Decoder ε β} :
    (d >>= next) bytes = .ok (b, rest) ↔
      ∃ a middle, d bytes = .ok (a, middle) ∧ next a middle = .ok (b, rest) := by
  simp only [bind]
  cases d bytes with
  | error e => simp
  | ok result =>
    obtain ⟨a, middle⟩ := result
    simp

@[simp] theorem map_eq_ok {f : α → β} {d : Decoder ε α} :
    (f <$> d) bytes = .ok (b, rest) ↔ ∃ a, d bytes = .ok (a, rest) ∧ f a = b := by
  change (d >>= fun a => pure (f a)) bytes = .ok (b, rest) ↔ _
  simp only [bind_eq_ok, pure_eq_ok]
  constructor
  · rintro ⟨a, middle, read, same, rfl⟩
    exact ⟨a, read, same⟩
  · rintro ⟨a, read, same⟩
    exact ⟨a, rest, read, same, rfl⟩

theorem map_apply (f : α → β) (d : Decoder ε α) (bytes : Bytes) :
    (f <$> d) bytes = (d bytes).map fun read => (f read.1, read.2) := by
  change (d >>= fun a => pure (f a)) bytes = _
  simp only [bind]
  cases d bytes with
  | error e => rfl
  | ok read => rfl

@[simp] theorem fail_eq_ok {e : ε} {result : α × Bytes} :
    (fail e : Decoder ε α) bytes = .ok result ↔ False := by
  simp [fail]

@[simp] theorem guard_eq_ok {accepted : Bool} {e : ε} :
    guard accepted e bytes = .ok (u, rest) ↔ accepted = true ∧ bytes = rest := by
  cases accepted <;> simp [guard]

@[simp] theorem mapError_eq_ok {f : ε → δ} {d : Decoder ε α} {result : α × Bytes} :
    mapError f d bytes = .ok result ↔ d bytes = .ok result := by
  simp only [mapError]
  cases d bytes <;> simp

@[simp] theorem ofExcept_eq_ok {result : Except ε α} :
    ofExcept result bytes = .ok (a, rest) ↔ result = .ok a ∧ bytes = rest := by
  cases result <;> simp [ofExcept]

@[simp] theorem ite_eq_ok {c : Prop} [Decidable c] {d₁ d₂ : Decoder ε α} {result : α × Bytes} :
    (if c then d₁ else d₂) bytes = .ok result ↔
      (c ∧ d₁ bytes = .ok result) ∨ (¬c ∧ d₂ bytes = .ok result) := by
  split <;> simp_all

theorem whole_eq_ok {d : Decoder ε α} {e : ε} :
    whole d e bytes = .ok a ↔ d bytes = .ok (a, []) := by
  simp only [whole]
  cases d bytes with
  | error e => simp
  | ok result =>
    obtain ⟨b, rest⟩ := result
    cases rest <;> simp

theorem take_eq_ok {d : Decoder ε α} {limit : Nat} :
    take limit d bytes = .ok (a, rest) ↔
      ∃ left, d (bytes.take limit) = .ok (a, left) ∧ rest = left ++ bytes.drop limit := by
  simp only [take]
  cases d (bytes.take limit) with
  | error e => simp
  | ok result =>
    obtain ⟨b, left⟩ := result
    simp only [Except.ok.injEq, Prod.mk.injEq]
    constructor
    · rintro ⟨rfl, rfl⟩
      exact ⟨left, ⟨rfl, rfl⟩, rfl⟩
    · rintro ⟨left', ⟨rfl, rfl⟩, rfl⟩
      exact ⟨rfl, rfl⟩

/-- Cutting the stream only hides the images that are longer than the limit. -/
theorem take_images {d : Decoder ε α} (Image : α → Bytes → Prop) {limit : Nat}
    (reads : ∀ bytes a rest, d bytes = .ok (a, rest) ↔ ∃ image, Image a image ∧ bytes = image ++ rest) :
    take limit d bytes = .ok (a, rest) ↔
      ∃ image, Image a image ∧ image.length ≤ limit ∧ bytes = image ++ rest := by
  simp only [take_eq_ok, reads]
  constructor
  · rintro ⟨left, ⟨image, found, same⟩, rfl⟩
    have bound := congrArg List.length same
    simp only [List.length_take, List.length_append] at bound
    refine ⟨image, found, by omega, ?_⟩
    rw [← List.append_assoc, ← same, List.take_append_drop]
  · rintro ⟨image, found, bound, rfl⟩
    refine ⟨rest.take (limit - image.length), ⟨image, found, ?_⟩, ?_⟩
    · rw [List.take_append, List.take_of_length_le bound]
    · rw [List.drop_append, List.drop_of_length_le bound, List.nil_append, List.take_append_drop]

@[simp] theorem exact_eq_ok {n : Nat} {e : ε} {chunk : { chunk : Bytes // chunk.length = n }} :
    exact n e bytes = .ok (chunk, rest) ↔ bytes = chunk.val ++ rest := by
  obtain ⟨chunk, rfl⟩ := chunk
  simp only [exact]
  constructor
  · intro read
    split at read
    · simp only [Except.ok.injEq, Prod.mk.injEq, Subtype.mk.injEq] at read
      conv_lhs => rw [← List.take_append_drop chunk.length bytes, read.1, read.2]
    · contradiction
  · rintro rfl
    simp

/-- A run of images that are each read back. -/
theorem times_images {d : Decoder ε α} {image : α → Bytes} {values : List α}
    (each : ∀ a ∈ values, ∀ rest, d (image a ++ rest) = .ok (a, rest)) (count : values.length = n)
    (rest : Bytes) : d.times n (values.flatMap image ++ rest) = .ok (⟨values, count⟩, rest) := by
  subst count
  induction values with
  | nil => simp [times]
  | cons a tail ih =>
    simp only [List.forall_mem_cons] at each
    rw [List.flatMap_cons, List.append_assoc]
    simp only [List.length_cons, times, bind_eq_ok, pure_eq_ok, each.1, Except.ok.injEq,
      Prod.mk.injEq]
    exact ⟨a, _, ⟨rfl, rfl⟩, ⟨tail, rfl⟩, rest, ih each.2, rfl, rfl⟩

/-- No value is read, whatever the reported error. -/
def Refuses (d : Decoder ε α) (bytes : Bytes) : Prop := ∀ result, d bytes ≠ .ok result

theorem Refuses.bind {d : Decoder ε α} (refuses : d.Refuses bytes) (next : α → Decoder ε β) :
    (d >>= next).Refuses bytes := by
  intro (b, rest) read
  obtain ⟨a, middle, head, _⟩ := bind_eq_ok.mp read
  exact refuses _ head

theorem Refuses.after {d : Decoder ε α} {next : α → Decoder ε β}
    (head : d bytes = .ok (a, middle)) (refuses : (next a).Refuses middle) :
    (d >>= next).Refuses bytes := by
  intro (b, rest) read
  obtain ⟨a', middle', head', tail⟩ := bind_eq_ok.mp read
  rw [head] at head'
  simp only [Except.ok.injEq, Prod.mk.injEq] at head'
  obtain ⟨rfl, rfl⟩ := head'
  exact refuses _ tail

/-- A run of images is refused at its first bad one. -/
theorem Refuses.times {d : Decoder ε α} {wire : α → Bytes} {Good : α → Prop} {values : List α}
    (good : ∀ a ∈ values, Good a → ∀ rest, ∃ b, d (wire a ++ rest) = .ok (b, rest))
    (bad : ∀ a ∈ values, ¬ Good a → ∀ rest, d.Refuses (wire a ++ rest))
    (refused : ∃ a ∈ values, ¬ Good a) (rest : Bytes) :
    (d.times values.length).Refuses (values.flatMap wire ++ rest) := by
  induction values with
  | nil => simp at refused
  | cons a tail ih =>
    simp only [List.forall_mem_cons] at good bad
    rw [List.flatMap_cons, List.append_assoc]
    by_cases first : Good a
    · obtain ⟨b, head⟩ := good.1 first (tail.flatMap wire ++ rest)
      have remaining : ∃ a ∈ tail, ¬ Good a := by
        obtain ⟨c, member, refused⟩ := refused
        obtain rfl | member := List.mem_cons.mp member
        · contradiction
        · exact ⟨c, member, refused⟩
      exact Refuses.after head ((ih good.2 bad.2 remaining).bind _)
    · exact (bad.1 first _).bind _

/-- Success only depends on the bytes consumed. -/
def Extends (d : Decoder ε α) : Prop :=
  ∀ {bytes a rest}, d bytes = .ok (a, rest) → ∀ suffix, d (bytes ++ suffix) = .ok (a, rest ++ suffix)

end Decoder

/-- `d` accepts exactly the wire images of the values in `Valid`, and stops right
after them. One statement gives canonicity, the round trip and prefix-freeness. -/
abbrev Reads (d : Decoder ε α) (wire : α → Bytes) (Valid : α → Prop) : Prop :=
  ∀ bytes a rest, d bytes = .ok (a, rest) ↔ Valid a ∧ bytes = wire a ++ rest

namespace Reads
variable {d : Decoder ε α} {wire : α → Bytes} {Valid : α → Prop}

theorem read (reads : Reads d wire Valid) (valid : Valid a) (rest : Bytes) :
    d (wire a ++ rest) = .ok (a, rest) :=
  (reads _ _ _).mpr ⟨valid, rfl⟩

theorem read_all (reads : Reads d wire Valid) (valid : Valid a) : d (wire a) = .ok (a, []) := by
  simpa only [List.append_nil] using reads.read valid []

/-- Two valid images that start one byte string are the same image. -/
theorem unique (reads : Reads d wire Valid) (validA : Valid a) (validB : Valid b)
    (same : wire a ++ restA = wire b ++ restB) : a = b ∧ restA = restB := by
  have readA := reads.read validA restA
  rw [same, reads.read validB restB] at readA
  simp only [Except.ok.injEq, Prod.mk.injEq] at readA
  exact ⟨readA.1.symm, readA.2.symm⟩

/-- Images that are not empty need no count to be told apart in a row. -/
theorem flatMap_inj (reads : Reads d wire fun _ => True) (nonempty : ∀ a, wire a ≠ [])
    {values values' : List α} (same : values.flatMap wire = values'.flatMap wire) :
    values = values' := by
  induction values generalizing values' with
  | nil =>
    cases values' with
    | nil => rfl
    | cons first rest =>
      have empty := (List.append_eq_nil_iff.mp same.symm).1
      exact absurd empty (nonempty first)
  | cons value values ih =>
    cases values' with
    | nil =>
      have empty := (List.append_eq_nil_iff.mp same).1
      exact absurd empty (nonempty value)
    | cons first rest =>
      obtain ⟨rfl, tails⟩ := reads.unique trivial trivial same
      rw [ih tails]

theorem exact (n : Nat) (e : ε) : Reads (Decoder.exact n e) Subtype.val (fun _ => True) := by
  intro bytes chunk rest
  simp

/-- Reading a different presentation of the same values. -/
theorem map (reads : Reads d wire Valid) (f : α → β) (g : β → α)
    (left : ∀ a, Valid a → g (f a) = a) (right : ∀ b, Valid (g b) → f (g b) = b) :
    Reads (f <$> d) (wire ∘ g) (Valid ∘ g) := by
  intro bytes b rest
  simp only [Decoder.map_eq_ok, reads bytes, Function.comp_apply]
  constructor
  · rintro ⟨a, ⟨valid, rfl⟩, rfl⟩
    simp only [left a valid, valid, and_self]
  · rintro ⟨valid, rfl⟩
    exact ⟨g b, ⟨valid, rfl⟩, right b valid⟩

theorem take (reads : Reads d wire Valid) (limit : Nat) :
    Reads (d.take limit) wire (fun a => Valid a ∧ (wire a).length ≤ limit) := by
  intro bytes a rest
  have images : ∀ bytes a rest, d bytes = .ok (a, rest) ↔
      ∃ image, (Valid a ∧ image = wire a) ∧ bytes = image ++ rest := by
    intro bytes a rest
    rw [reads]
    constructor
    · rintro ⟨valid, rfl⟩
      exact ⟨_, ⟨valid, rfl⟩, rfl⟩
    · rintro ⟨_, ⟨valid, rfl⟩, rfl⟩
      exact ⟨valid, rfl⟩
  rw [Decoder.take_images _ images]
  constructor
  · rintro ⟨_, ⟨valid, rfl⟩, bound, rfl⟩
    exact ⟨⟨valid, bound⟩, rfl⟩
  · rintro ⟨⟨valid, bound⟩, rfl⟩
    exact ⟨_, ⟨valid, rfl⟩, bound, rfl⟩

theorem times (reads : Reads d wire Valid) (n : Nat) :
    Reads (d.times n) (fun values => values.val.flatMap wire)
      (fun values => ∀ a ∈ values.val, Valid a) := by
  induction n with
  | zero =>
    rintro bytes ⟨values, empty⟩ rest
    obtain rfl := List.eq_nil_of_length_eq_zero empty
    simp [Decoder.times]
  | succ n ih =>
    rintro bytes ⟨values, count⟩ rest
    cases values with
    | nil => simp at count
    | cons a tail =>
      simp only [Decoder.times, Decoder.bind_eq_ok, Decoder.pure_eq_ok, reads, Subtype.mk.injEq,
        List.cons.injEq, List.forall_mem_cons, List.flatMap_cons, List.append_assoc]
      constructor
      · rintro ⟨_, _, ⟨valid, rfl⟩, ⟨values, _⟩, _, read, ⟨rfl, rfl⟩, rfl⟩
        obtain ⟨valids, rfl⟩ := (ih _ _ _).mp read
        exact ⟨⟨valid, valids⟩, rfl⟩
      · rintro ⟨⟨valid, valids⟩, rfl⟩
        have tailCount : tail.length = n := by simpa using count
        exact ⟨a, _, ⟨valid, rfl⟩, ⟨tail, tailCount⟩, rest, (ih _ _ _).mpr ⟨valids, rfl⟩,
          ⟨rfl, rfl⟩, rfl⟩

end Reads
end Litecoin.Wire
