import Mathlib.Data.List.Forall2

/-! Computations that return, report an error or panic. The panic is the outer `none`. -/
namespace Litecoin.Wire

theorem mapM_eq_some {f : α → Option β} {g : α → β} {values : List α}
    (each : ∀ a ∈ values, f a = some (g a)) : values.mapM f = some (values.map g) := by
  induction values with
  | nil => rfl
  | cons value rest ih =>
    rw [List.forall_mem_cons] at each
    rw [List.mapM_cons, each.1, ih each.2]
    rfl

theorem run_bind_eq_ok {x : ExceptT ε Option α} {f : α → ExceptT ε Option β} :
    (x >>= f).run = some (.ok b) ↔ ∃ a, x.run = some (.ok a) ∧ (f a).run = some (.ok b) := by
  rcases x with _ | e | a
  · exact ⟨nofun, fun ⟨_, returned, _⟩ => absurd returned nofun⟩
  · exact ⟨fun failed => absurd (Option.some.inj failed) nofun,
      fun ⟨_, returned, _⟩ => absurd (Option.some.inj returned) nofun⟩
  · constructor
    · intro returned
      exact ⟨a, rfl, returned⟩
    · rintro ⟨_, same, returned⟩
      obtain rfl := Except.ok.inj (Option.some.inj same)
      exact returned

theorem run_pure_eq_ok {a b : α} : (pure a : ExceptT ε Option α).run = some (.ok b) ↔ a = b := by
  constructor
  · intro same
    exact Except.ok.inj (Option.some.inj same)
  · rintro rfl
    rfl

theorem run_mapError_eq_ok {x : ExceptT ε Option α} {f : ε → ε'} :
    (ExceptT.mk (x.run.map (Except.mapError f)) : ExceptT ε' Option α).run = some (.ok a) ↔
      x.run = some (.ok a) := by
  rcases x with _ | e | a'
  · exact ⟨nofun, nofun⟩
  · exact ⟨fun failed => absurd (Option.some.inj failed) nofun,
      fun failed => absurd (Option.some.inj failed) nofun⟩
  · constructor
    · intro same
      exact congrArg (some ∘ Except.ok) (Except.ok.inj (Option.some.inj same))
    · intro same
      exact congrArg (some ∘ Except.ok) (Except.ok.inj (Option.some.inj same))

/-- A step that can fail but not panic goes on with its result. -/
theorem lift_ok_bind (a : α) (f : α → ExceptT ε Option β) :
    (liftM (Except.ok a : Except ε α) : ExceptT ε Option α) >>= f = f a := rfl

theorem run_liftM_eq_ok {x : Except ε α} :
    (liftM x : ExceptT ε Option α).run = some (.ok a) ↔ x = .ok a := by
  rcases x with e | a'
  · exact ⟨fun failed => absurd (Option.some.inj failed) nofun, nofun⟩
  · constructor
    · intro same
      exact Option.some.inj same
    · rintro ⟨⟩
      rfl

theorem run_liftM_mapError_eq_ok {x : Except ε α} {f : ε → ε'} :
    (liftM (x.mapError f) : ExceptT ε' Option α).run = some (.ok a) ↔ x = .ok a := by
  rcases x with e | a'
  · exact ⟨fun failed => absurd (Option.some.inj failed) nofun, nofun⟩
  · constructor
    · intro same
      exact congrArg Except.ok (Except.ok.inj (Option.some.inj same))
    · rintro ⟨⟩
      rfl

theorem toOption_eq_some {x : Except ε α} : x.toOption = some a ↔ x = .ok a := by
  cases x with
  | error e => exact ⟨nofun, nofun⟩
  | ok b => exact ⟨fun same => congrArg _ (Option.some.inj same), fun same => congrArg _ (Except.ok.inj same)⟩

/-- A computation that can panic but not fail. -/
def orPanic (x : Option α) : ExceptT ε Option α := ExceptT.mk (x.map .ok)

theorem orPanic_bind (a : α) (f : α → ExceptT ε Option β) : orPanic (some a) >>= f = f a := rfl

/-- The results of a loop, one for each element. -/
theorem run_mapM_forall₂ {f : α → ExceptT ε Option β} {values : List α} {results : List β}
    (mapped : (values.mapM f).run = some (.ok results)) :
    List.Forall₂ (fun a b => (f a).run = some (.ok b)) values results := by
  induction values generalizing results with
  | nil =>
    obtain rfl := run_pure_eq_ok.mp mapped
    exact .nil
  | cons a rest ih =>
    rw [List.mapM_cons, run_bind_eq_ok] at mapped
    obtain ⟨b, head, mapped⟩ := mapped
    obtain ⟨others, tail, mapped⟩ := run_bind_eq_ok.mp mapped
    obtain rfl := run_pure_eq_ok.mp mapped
    exact .cons head (ih tail)

theorem run_mapM_of_forall₂ {f : α → ExceptT ε Option β} {values : List α} {results : List β}
    (each : List.Forall₂ (fun a b => (f a).run = some (.ok b)) values results) :
    (values.mapM f).run = some (.ok results) := by
  induction each with
  | nil => rfl
  | cons head _ ih =>
    rw [List.mapM_cons]
    exact run_bind_eq_ok.mpr ⟨_, head, run_bind_eq_ok.mpr ⟨_, ih, rfl⟩⟩

/-- A computation that does not panic. -/
def Returns (x : ExceptT ε Option α) : Prop := x.run ≠ none

theorem Returns.ofExcept (x : Except ε α) : Returns (liftM x : ExceptT ε Option α) := by
  cases x <;> exact Option.some_ne_none _

theorem Returns.bind {x : ExceptT ε Option α} {f : α → ExceptT ε Option β} (first : Returns x)
    (next : ∀ a, Returns (f a)) : Returns (x >>= f) := by
  rcases x with _ | e | a
  · exact absurd rfl first
  · exact Option.some_ne_none _
  · exact next a

theorem returns_bind {x : ExceptT ε Option α} {f : α → ExceptT ε Option β} :
    Returns (x >>= f) ↔ Returns x ∧ ∀ a, x = pure a → Returns (f a) := by
  rcases x with _ | e | a
  · exact iff_of_false (fun returns => returns rfl) fun returns => returns.1 rfl
  · refine iff_of_true (Option.some_ne_none _) ⟨Option.some_ne_none _, fun a same => ?_⟩
    exact absurd (Option.some.inj same) (by simp)
  · constructor
    · intro returns
      refine ⟨Option.some_ne_none _, fun a' same => ?_⟩
      obtain rfl := Except.ok.inj (Option.some.inj same)
      exact returns
    · rintro ⟨_, returns⟩
      exact returns a rfl

theorem Returns.mapM {f : α → ExceptT ε Option β} (each : ∀ a, Returns (f a)) (values : List α) :
    Returns (values.mapM f) := by
  induction values with
  | nil => exact Option.some_ne_none _
  | cons a rest ih =>
    rw [List.mapM_cons]
    exact (each a).bind fun b => ih.bind fun others => Option.some_ne_none _

/-- What holds of related elements alike holds of all of them alike. -/
theorem forall_iff_of_forall₂ {R : α → β → Prop} {values : List α} {results : List β}
    (related : List.Forall₂ R values results) {p : α → Prop} {q : β → Prop}
    (alike : ∀ a b, R a b → (p a ↔ q b)) : (∀ a ∈ values, p a) ↔ ∀ b ∈ results, q b := by
  induction related with
  | nil => simp
  | cons head _ ih => rw [List.forall_mem_cons, List.forall_mem_cons, alike _ _ head, ih]

/-- What holds of a related pair exactly when it holds of its first element. -/
theorem forall_and_forall₂_iff {R S : α → β → Prop} {values : List α} {results : List β}
    (related : List.Forall₂ R values results) {p : α → Prop} {q : β → Prop}
    (alike : ∀ a b, R a b → (q b ∧ S a b ↔ p a)) :
    ((∀ b ∈ results, q b) ∧ List.Forall₂ S values results) ↔ ∀ a ∈ values, p a := by
  induction related with
  | nil => simp
  | cons head _ ih =>
    rw [List.forall_mem_cons, List.forall_mem_cons, List.forall₂_cons, ← alike _ _ head, ← ih,
      and_and_and_comm]

end Litecoin.Wire
