import Litecoin.Wire.Decoder

/-! Formats of records read field by field. A reader in the middle of a record has
fixed the fields it has read; `Known` is what it has fixed so far. -/
namespace Litecoin.Wire

namespace Decoder

/-- Reads the field when it is switched on, and records its absence otherwise. -/
def gated (on : Bool) (d : Decoder ε α) : Decoder ε (Option α) :=
  if on then some <$> d else pure none

/-- Reads the field when it is switched on, and takes `absent` otherwise. -/
def orAbsent (on : Bool) (d : Decoder ε α) (absent : α) : Decoder ε α :=
  if on then d else pure absent

end Decoder

/-- The image of an optional field. -/
def optionalWire (wire : α → Bytes) : Option α → Bytes
  | none => []
  | some a => wire a

/-- The image of a field that only stands there when it is switched on. -/
def announced (on : Bool) (bytes : Bytes) : Bytes := if on then bytes else []

namespace Reads
variable {d : Decoder ε α} {wire : α → Bytes} {Valid : α → Prop}

theorem congr {d : Decoder ε α} {wire wire' : α → Bytes} {Valid Valid' : α → Prop}
    (reads : Reads d wire Valid) (valid : ∀ a, Valid' a ↔ Valid a)
    (same : ∀ a, Valid a → wire' a = wire a) : Reads d wire' Valid' := by
  intro bytes a rest
  rw [reads bytes a rest, valid a]
  constructor
  · rintro ⟨accepted, rfl⟩
    exact ⟨accepted, by rw [same a accepted]⟩
  · rintro ⟨accepted, rfl⟩
    exact ⟨accepted, by rw [same a accepted]⟩

theorem gated (reads : Reads d wire Valid) (on : Bool) :
    Reads (d.gated on) (fun a => announced on (optionalWire wire a))
      (fun a => a.isSome = on ∧ ∀ b ∈ a, Valid b) := by
  intro bytes a rest
  cases on with
  | false => cases a <;> simp [Decoder.gated, announced]
  | true =>
    cases a with
    | none => simp [Decoder.gated]
    | some a => simp [Decoder.gated, announced, optionalWire, reads bytes]

theorem orAbsent (reads : Reads d wire Valid) (on : Bool) (absent : α) :
    Reads (d.orAbsent on absent) (fun a => announced on (wire a))
      (fun a => if on then Valid a else a = absent) := by
  intro bytes a rest
  cases on with
  | false =>
    simp only [Decoder.orAbsent, announced, Bool.false_eq_true, if_false, Decoder.pure_eq_ok,
      List.nil_append]
    rw [eq_comm]
  | true => simp [Decoder.orAbsent, announced, reads bytes]

/-- The field `project` comes next. What the head's format depends on must already
be known. -/
theorem fieldOf {k : α → Decoder ε β} {wireHead wireRest : β → Bytes}
    {Known ValidHead ValidRest : β → Prop} (project : β → α) (head : Reads d wire Valid)
    (valid : ∀ b, Known b → (ValidHead b ↔ Valid (project b)))
    (same : ∀ b, Known b → wireHead b = wire (project b))
    (next : ∀ a, Valid a →
      Reads (k a) wireRest (fun b => (Known b ∧ project b = a) ∧ ValidRest b)) :
    Reads (d >>= k) (fun b => wireHead b ++ wireRest b)
      (fun b => Known b ∧ ValidHead b ∧ ValidRest b) := by
  intro bytes b rest
  simp only [Decoder.bind_eq_ok, head _ _ _]
  constructor
  · rintro ⟨a, middle, ⟨accepted, rfl⟩, read⟩
    obtain ⟨⟨⟨known, rfl⟩, others⟩, rfl⟩ := (next a accepted _ _ _).mp read
    exact ⟨⟨known, (valid b known).mpr accepted, others⟩, by rw [same b known, List.append_assoc]⟩
  · rintro ⟨⟨known, accepted, others⟩, rfl⟩
    have accepted := (valid b known).mp accepted
    refine ⟨project b, wireRest b ++ rest, ⟨accepted, ?_⟩, ?_⟩
    · rw [same b known, List.append_assoc]
    · exact (next _ accepted).read ⟨⟨known, rfl⟩, others⟩ rest

theorem field {k : α → Decoder ε β} {wireRest : β → Bytes} {Known ValidRest : β → Prop}
    (project : β → α) (head : Reads d wire Valid)
    (next : ∀ a, Valid a →
      Reads (k a) wireRest (fun b => (Known b ∧ project b = a) ∧ ValidRest b)) :
    Reads (d >>= k) (fun b => wire (project b) ++ wireRest b)
      (fun b => Known b ∧ Valid (project b) ∧ ValidRest b) :=
  fieldOf project head (fun _ _ => Iff.rfl) (fun _ _ => rfl) next

/-- An optional field announced by `flag`. -/
theorem gatedField {k : Option α → Decoder ε β} {wireRest : β → Bytes} {on : Bool}
    {Known ValidRest : β → Prop} (project : β → Option α) (flag : β → Bool)
    (head : Reads d wire Valid)
    (next : ∀ a, (a.isSome = on ∧ ∀ b ∈ a, Valid b) →
      Reads (k a) wireRest (fun b => (Known b ∧ project b = a) ∧ ValidRest b))
    (known : ∀ b, Known b → flag b = on := by exact fun b known => by simp only [known]) :
    Reads (d.gated on >>= k) (fun b => announced (flag b) (optionalWire wire (project b)) ++ wireRest b)
      (fun b => Known b ∧ ((project b).isSome = flag b ∧ ∀ a ∈ project b, Valid a) ∧
        ValidRest b) :=
  fieldOf project (head.gated on) (fun b fixed => by rw [known b fixed])
    (fun b fixed => by rw [known b fixed]) next

/-- A field announced by `flag` and `absent` without it. -/
theorem absentField {k : α → Decoder ε β} {wireRest : β → Bytes} {on : Bool} {absent : α}
    {Known ValidRest : β → Prop} (project : β → α) (flag : β → Bool) (head : Reads d wire Valid)
    (next : ∀ a, (if on then Valid a else a = absent) →
      Reads (k a) wireRest (fun b => (Known b ∧ project b = a) ∧ ValidRest b))
    (known : ∀ b, Known b → flag b = on := by exact fun b known => by simp only [known]) :
    Reads (d.orAbsent on absent >>= k)
      (fun b => announced (flag b) (wire (project b)) ++ wireRest b)
      (fun b => Known b ∧ (if flag b then Valid (project b) else project b = absent) ∧
        ValidRest b) :=
  fieldOf project (head.orAbsent on absent) (fun b fixed => by rw [known b fixed])
    (fun b fixed => by rw [known b fixed]) next

/-- A check between two fields. -/
theorem check {k : Unit → Decoder ε β} {wireRest : β → Bytes} {accepted : Bool}
    {Known ValidRest : β → Prop} (ValidHead : β → Prop)
    (valid : ∀ b, Known b → (ValidHead b ↔ accepted = true))
    (next : accepted = true → Reads (k ()) wireRest (fun b => Known b ∧ ValidRest b)) :
    Reads (Decoder.guard accepted e >>= k) wireRest
      (fun b => Known b ∧ ValidHead b ∧ ValidRest b) := by
  intro bytes b rest
  simp only [Decoder.bind_eq_ok, Decoder.guard_eq_ok]
  constructor
  · rintro ⟨_, middle, ⟨checked, rfl⟩, read⟩
    obtain ⟨⟨known, others⟩, rfl⟩ := (next checked _ _ _).mp read
    exact ⟨⟨known, (valid b known).mpr checked, others⟩, rfl⟩
  · rintro ⟨⟨known, head, others⟩, rfl⟩
    have checked := (valid b known).mp head
    exact ⟨(), _, ⟨checked, rfl⟩, (next checked).read ⟨known, others⟩ rest⟩

/-- All fields have been read. -/
theorem done {b : β} {Known : β → Prop} (known : ∀ c, Known c ↔ c = b) :
    Reads (pure b : Decoder ε β) (fun _ => []) (fun c => Known c ∧ True) := by
  intro bytes c rest
  simp only [Decoder.pure_eq_ok, known, and_true, List.nil_append]
  rw [eq_comm]

/-- The record starts with nothing known. -/
theorem record {d : Decoder ε β} {wire : β → Bytes} {Valid : β → Prop}
    (reads : Reads d wire (fun b => True ∧ Valid b)) : Reads d wire Valid :=
  reads.congr (fun _ => (true_and _).symm.to_iff) (fun _ _ => rfl)

end Reads
end Litecoin.Wire
