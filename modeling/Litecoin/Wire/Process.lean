import Mathlib.Tactic.Common

/-! Fallible computations on a state that outlives their failure, with the two-run
judgment that a relation between states is kept and cannot be observed, and one-run
judgments on errors and results. -/
namespace Litecoin.Wire

/-- A method on `&mut self` that returns a `Result`. -/
def Process (σ ε α : Type) : Type := σ → Except ε α × σ

namespace Process

instance : Monad (Process σ ε) where
  pure a := fun state => (.ok a, state)
  bind p next := fun state => match p state with
    | (.ok a, state) => next a state
    | (.error e, state) => (.error e, state)

/-- Returns a result computed without the state. -/
def ofExcept (result : Except ε α) : Process σ ε α := fun state => (result, state)

/-- Returns what `read` sees of the state. -/
def look (read : σ → α) : Process σ ε α := fun state => (.ok (read state), state)

/-- Returns a value while changing the state, without failing. -/
def update (change : σ → α × σ) : Process σ ε α := fun state =>
  (.ok (change state).1, (change state).2)

/-- Why a run that can panic does not return a value. -/
inductive Stop (ε : Type) where
  | panic
  | error (error : ε)

/-- Panics on `none`. -/
def orPanic (value : Option α) : Process σ (Stop ε) α :=
  ofExcept (match value with
    | some a => .ok a
    | none => .error .panic)

/-- Returns what `p` returns or reports; only a panic goes through. -/
def attempt (p : Process σ (Stop ε) α) : Process σ (Stop ε) (Except ε α) := fun state =>
  match p state with
  | (.ok a, state) => (.ok (.ok a), state)
  | (.error (.error e), state) => (.ok (.error e), state)
  | (.error .panic, state) => (.error .panic, state)

/-- Runs `p` only when `c` holds. -/
def gated (c : Prop) [Decidable c] (p : Process σ ε Unit) : Process σ ε Unit :=
  if c then p else pure ()

theorem bind_apply (p : Process σ ε α) (next : α → Process σ ε β) (state : σ) :
    (p >>= next) state = match p state with
      | (.ok a, state) => next a state
      | (.error e, state) => (.error e, state) := rfl

theorem bind_of_ok {p : Process σ ε α} {next : α → Process σ ε β}
    (first : p state = (.ok a, after)) : (p >>= next) state = next a after := by
  rw [bind_apply, first]

theorem bind_of_error {p : Process σ ε α} {next : α → Process σ ε β}
    (first : p state = (.error e, after)) : (p >>= next) state = (.error e, after) := by
  rw [bind_apply, first]

@[simp] theorem pure_apply (a : α) (state : σ) :
    (pure a : Process σ ε α) state = (.ok a, state) := rfl

@[simp] theorem ofExcept_apply (result : Except ε α) (state : σ) :
    ofExcept result state = (result, state) := rfl

@[simp] theorem look_apply (read : σ → α) (state : σ) :
    (look read : Process σ ε α) state = (.ok (read state), state) := rfl

@[simp] theorem update_apply (change : σ → α × σ) (state : σ) :
    (update change : Process σ ε α) state = (.ok (change state).1, (change state).2) := rfl

/-- Runs from related states return the same and end in related states. -/
def Lockstep (Related : σ → σ → Prop) (p : Process σ ε α) : Prop :=
  ∀ state state', Related state state' →
    (p state).1 = (p state').1 ∧ Related (p state).2 (p state').2

namespace Lockstep
variable {Related : σ → σ → Prop}

theorem pure (a : α) : Lockstep Related (Pure.pure a : Process σ ε α) :=
  fun _ _ related => ⟨rfl, related⟩

theorem ofExcept (result : Except ε α) : Lockstep Related (Process.ofExcept result) :=
  fun _ _ related => ⟨rfl, related⟩

theorem look {read : σ → α} (same : ∀ state state', Related state state' → read state = read state') :
    Lockstep Related (Process.look read : Process σ ε α) :=
  fun _ _ related => ⟨congrArg Except.ok (same _ _ related), related⟩

theorem update {change : σ → α × σ}
    (same : ∀ state state', Related state state' → (change state).1 = (change state').1)
    (kept : ∀ state state', Related state state' → Related (change state).2 (change state').2) :
    Lockstep Related (Process.update change : Process σ ε α) :=
  fun _ _ related => ⟨congrArg Except.ok (same _ _ related), kept _ _ related⟩

theorem bind {p : Process σ ε α} {next : α → Process σ ε β} (first : Lockstep Related p)
    (second : ∀ a, Lockstep Related (next a)) : Lockstep Related (p >>= next) := by
  intro state state' related
  obtain ⟨same, kept⟩ := first state state' related
  rw [bind_apply, bind_apply]
  rcases left : p state with ⟨result, after⟩
  rcases right : p state' with ⟨result', after'⟩
  rw [left, right] at same kept
  obtain rfl : result = result' := same
  cases result with
  | error e => exact ⟨rfl, kept⟩
  | ok a => exact second a after after' kept

theorem ofExcept_bind {result : Except ε α} {next : α → Process σ ε β}
    (second : ∀ a, result = .ok a → Lockstep Related (next a)) :
    Lockstep Related (Process.ofExcept result >>= next) := by
  cases result with
  | error e => exact fun _ _ related => ⟨rfl, related⟩
  | ok a => exact second a rfl

theorem gated {c : Prop} [Decidable c] {p : Process σ ε Unit} (yes : c → Lockstep Related p) :
    Lockstep Related (p.gated c) := by
  rw [Process.gated]
  split
  case isTrue holds => exact yes holds
  case isFalse => exact pure ()

theorem ite {c : Prop} [Decidable c] {p q : Process σ ε α} (yes : Lockstep Related p)
    (no : Lockstep Related q) : Lockstep Related (if c then p else q) := by
  split
  · exact yes
  · exact no

theorem foldlM {step : β → α → Process σ ε β} (each : ∀ b a, Lockstep Related (step b a))
    (values : List α) (b : β) : Lockstep Related (values.foldlM step b) := by
  induction values generalizing b with
  | nil => exact pure b
  | cons a values ih => exact (each b a).bind ih

end Lockstep

/-- Runs that fail do so with an allowed error. -/
def FailsWith (p : Process σ ε α) (Allowed : ε → Prop) : Prop :=
  ∀ state e after, p state = (.error e, after) → Allowed e

namespace FailsWith
variable {p : Process σ ε α} {Allowed : ε → Prop}

theorem of_ok (returns : ∀ state, ∃ a after, p state = (.ok a, after)) : FailsWith p Allowed := by
  intro state e after failed
  obtain ⟨a, _, ran⟩ := returns state
  rw [ran] at failed
  exact absurd (congrArg Prod.fst failed) nofun

theorem ofExcept {result : Except ε α} (allowed : ∀ e, result = .error e → Allowed e) :
    FailsWith (Process.ofExcept result : Process σ ε α) Allowed :=
  fun _ e _ failed => allowed e (congrArg Prod.fst failed)

theorem bind {next : α → Process σ ε β} (first : FailsWith p Allowed)
    (second : ∀ a, FailsWith (next a) Allowed) : FailsWith (p >>= next) Allowed := by
  intro state e after failed
  rw [bind_apply] at failed
  rcases middle : p state with ⟨result, state'⟩
  rw [middle] at failed
  cases result with
  | error e' =>
    obtain rfl : e' = e := Except.error.inj (congrArg Prod.fst failed)
    exact first state e' state' middle
  | ok a => exact second a state' e after failed

theorem ite {c : Prop} [Decidable c] {q : Process σ ε α} (yes : FailsWith p Allowed)
    (no : FailsWith q Allowed) : FailsWith (if c then p else q) Allowed := by
  split
  · exact yes
  · exact no

end FailsWith

/-- Runs keep `Inv` of the state, whether they fail or not, and return what `Post` holds of. -/
def Yields (Inv : σ → Prop) (p : Process σ ε α) (Post : α → Prop) : Prop :=
  ∀ state, Inv state → Inv (p state).2 ∧ ∀ a, (p state).1 = .ok a → Post a

namespace Yields
variable {Inv : σ → Prop} {p : Process σ ε α} {Post : α → Prop}

theorem pure {a : α} (post : Post a) : Yields Inv (Pure.pure a : Process σ ε α) Post := by
  intro state inv
  refine ⟨inv, ?_⟩
  rintro _ ⟨⟩
  exact post

theorem ofExcept {result : Except ε α} (post : ∀ a, result = .ok a → Post a) :
    Yields Inv (Process.ofExcept result) Post :=
  fun _ inv => ⟨inv, post⟩

theorem look {read : σ → α} (post : ∀ state, Inv state → Post (read state)) :
    Yields Inv (Process.look read : Process σ ε α) Post := by
  intro state inv
  refine ⟨inv, ?_⟩
  rintro _ ⟨⟩
  exact post state inv

theorem update {change : σ → α × σ} (kept : ∀ state, Inv state → Inv (change state).2)
    (post : ∀ state, Inv state → Post (change state).1) :
    Yields Inv (Process.update change : Process σ ε α) Post := by
  intro state inv
  refine ⟨kept state inv, ?_⟩
  rintro _ ⟨⟩
  exact post state inv

theorem bind {next : α → Process σ ε β} {Post' : β → Prop} (first : Yields Inv p Post)
    (second : ∀ a, Post a → Yields Inv (next a) Post') : Yields Inv (p >>= next) Post' := by
  intro state inv
  obtain ⟨inv', post⟩ := first state inv
  rw [bind_apply]
  rcases middle : p state with ⟨result, state'⟩
  rw [middle] at inv' post
  cases result with
  | error e => exact ⟨inv', fun _ failed => absurd failed nofun⟩
  | ok a => exact second a (post a rfl) state' inv'

theorem ite {c : Prop} [Decidable c] {q : Process σ ε α} (yes : c → Yields Inv p Post)
    (no : ¬ c → Yields Inv q Post) : Yields Inv (if c then p else q) Post := by
  split
  case isTrue holds => exact yes holds
  case isFalse fails => exact no fails

theorem gated {c : Prop} [Decidable c] {p : Process σ ε Unit} {Post : Unit → Prop}
    (yes : c → Yields Inv p Post) (no : ¬ c → Post ()) : Yields Inv (p.gated c) Post := by
  rw [Process.gated]
  split
  case isTrue holds => exact yes holds
  case isFalse fails => exact pure (no fails)

theorem mono {Post' : α → Prop} (yields : Yields Inv p Post) (weaker : ∀ a, Post a → Post' a) :
    Yields Inv p Post' := by
  intro state inv
  obtain ⟨inv', post⟩ := yields state inv
  exact ⟨inv', fun a returned => weaker a (post a returned)⟩

/-- What holds of the values consumed so far and of the accumulator. -/
theorem foldlM {step : β → α → Process σ ε β} {Holds : List α → β → Prop} {values : List α}
    {b : β} (start : Holds [] b) (next : ∀ before a b, a ∈ values → Holds before b →
      Yields Inv (step b a) (Holds (before ++ [a]))) :
    Yields Inv (values.foldlM step b) (Holds values) := by
  suffices general : ∀ rest before b, (∀ a ∈ rest, a ∈ values) → Holds before b →
      Yields Inv (rest.foldlM step b) (Holds (before ++ rest)) from
    general values [] b (fun _ inside => inside) start
  intro rest
  induction rest with
  | nil =>
    intro before b _ holds
    rw [List.append_nil]
    exact pure holds
  | cons a rest ih =>
    intro before b inside holds
    rw [List.forall_mem_cons] at inside
    refine (next before a b inside.1 holds).bind fun b' holds' => ?_
    rw [List.append_cons]
    exact ih (before ++ [a]) b' inside.2 holds'

end Yields

/-- Runs from a state with `Inv` return exactly when `Cond` holds. What they return has `Post`,
and the state they leave has `Inv`. -/
def Decides (Inv : σ → Prop) (p : Process σ ε α) (Cond : Prop) (Post : α → Prop) : Prop :=
  ∀ state, Inv state → (Cond → ∃ a after, p state = (.ok a, after) ∧ Inv after ∧ Post a) ∧
    (¬ Cond → ∃ e after, p state = (.error e, after))

namespace Decides
variable {Inv : σ → Prop} {p : Process σ ε α} {Cond : Prop} {Post : α → Prop}

theorem pure {a : α} (post : Post a) : Decides Inv (Pure.pure a : Process σ ε α) True Post :=
  fun state inv => ⟨fun _ => ⟨a, state, rfl, inv, post⟩, fun never => absurd trivial never⟩

theorem look {read : σ → α} (post : ∀ state, Inv state → Post (read state)) :
    Decides Inv (Process.look read : Process σ ε α) True Post :=
  fun state inv => ⟨fun _ => ⟨_, state, rfl, inv, post state inv⟩, fun never => absurd trivial never⟩

theorem update {change : σ → α × σ} (kept : ∀ state, Inv state → Inv (change state).2)
    (post : ∀ state, Inv state → Post (change state).1) :
    Decides Inv (Process.update change : Process σ ε α) True Post :=
  fun state inv => ⟨fun _ => ⟨_, _, rfl, kept state inv, post state inv⟩,
    fun never => absurd trivial never⟩

theorem ofExcept {result : Except ε α} (decided : Cond ↔ ∃ a, result = .ok a)
    (post : ∀ a, result = .ok a → Post a) : Decides Inv (Process.ofExcept result) Cond Post := by
  intro state inv
  constructor
  · intro cond
    obtain ⟨a, rfl⟩ := decided.mp cond
    exact ⟨a, state, rfl, inv, post a rfl⟩
  · intro fails
    cases result with
    | error e => exact ⟨e, state, rfl⟩
    | ok a => exact absurd (decided.mpr ⟨a, rfl⟩) fails

theorem bind {next : α → Process σ ε β} {Cond' : Prop} {Post' : β → Prop}
    (first : Decides Inv p Cond Post) (second : ∀ a, Post a → Decides Inv (next a) Cond' Post') :
    Decides Inv (p >>= next) (Cond ∧ Cond') Post' := by
  intro state inv
  obtain ⟨returns, fails⟩ := first state inv
  by_cases cond : Cond
  · obtain ⟨a, middle, ran, inv', post⟩ := returns cond
    rw [bind_of_ok ran, and_iff_right cond]
    exact second a post middle inv'
  · obtain ⟨e, after, ran⟩ := fails cond
    exact ⟨fun both => absurd both.1 cond, fun _ => ⟨e, after, bind_of_error ran⟩⟩

/-- A step that cannot fail. -/
theorem andThen {next : α → Process σ ε β} {Post' : β → Prop} (first : Decides Inv p True Post)
    (second : ∀ a, Post a → Decides Inv (next a) Cond Post') : Decides Inv (p >>= next) Cond Post' := by
  intro state inv
  obtain ⟨a, middle, ran, inv', post⟩ := (first state inv).1 trivial
  rw [bind_of_ok ran]
  exact second a post middle inv'

theorem gated {c : Prop} [Decidable c] {p : Process σ ε Unit} {Post : Unit → Prop}
    (yes : Decides Inv p Cond Post) (no : ¬ c → Post ()) : Decides Inv (p.gated c) (c → Cond) Post := by
  rw [Process.gated]
  split
  case isTrue holds =>
    intro state inv
    rw [forall_prop_of_true holds]
    exact yes state inv
  case isFalse fails =>
    intro state inv
    exact ⟨fun _ => ⟨(), state, rfl, inv, no fails⟩, fun never => absurd (fun holds => absurd holds fails) never⟩

theorem ite {c : Prop} [Decidable c] {q : Process σ ε α} (yes : Decides Inv p Cond Post)
    (no : Decides Inv q True Post) : Decides Inv (if c then p else q) (c → Cond) Post := by
  intro state inv
  split
  case isTrue holds =>
    rw [forall_prop_of_true holds]
    exact yes state inv
  case isFalse fails =>
    obtain ⟨returns, -⟩ := no state inv
    exact ⟨fun _ => returns trivial, fun never => absurd (fun holds => absurd holds fails) never⟩

theorem mono {Cond' : Prop} (decides : Decides Inv p Cond Post) (same : Cond' ↔ Cond) :
    Decides Inv p Cond' Post := by
  rwa [propext same]

/-- A run that returned or failed tells which it was. -/
theorem returns_iff (decides : Decides Inv p Cond Post) {state : σ} (inv : Inv state) :
    (∃ a, (p state).1 = .ok a) ↔ Cond := by
  obtain ⟨returns, fails⟩ := decides state inv
  by_cases cond : Cond
  · obtain ⟨a, after, ran, -⟩ := returns cond
    rw [ran]
    exact ⟨fun _ => cond, fun _ => ⟨a, rfl⟩⟩
  · obtain ⟨e, after, ran⟩ := fails cond
    rw [ran]
    exact ⟨fun returned => by obtain ⟨a, failed⟩ := returned; contradiction, fun holds => absurd holds cond⟩

end Decides

/-- A loop, by what holds after each of its rounds and what holds when it is left early. -/
theorem foldlM_run {step : β → α → Process σ ε β} (Holds : List α → β → σ → Prop) (Ended : σ → Prop)
    {values : List α} {b : β} {state : σ} (start : Holds [] b state)
    (next : ∀ done a rest, done ++ a :: rest = values → ∀ b state, Holds done b state →
      (∀ b' after, step b a state = (.ok b', after) → Holds (done ++ [a]) b' after) ∧
        ∀ e after, step b a state = (.error e, after) → Ended after) :
    (∀ b' after, values.foldlM step b state = (.ok b', after) → Holds values b' after) ∧
      ∀ e after, values.foldlM step b state = (.error e, after) → Ended after := by
  suffices general : ∀ rest done b state, done ++ rest = values → Holds done b state →
      (∀ b' after, rest.foldlM step b state = (.ok b', after) → Holds values b' after) ∧
        ∀ e after, rest.foldlM step b state = (.error e, after) → Ended after from
    general values [] b state rfl start
  intro rest
  induction rest with
  | nil =>
    intro done b state whole holds
    rw [List.append_nil] at whole
    subst whole
    refine ⟨?_, fun e after failed => absurd (congrArg Prod.fst failed) nofun⟩
    intro b' after returned
    obtain ⟨same, rfl⟩ := Prod.mk.inj returned
    obtain rfl := Except.ok.inj same
    exact holds
  | cons a rest ih =>
    intro done b state whole holds
    obtain ⟨returns, fails⟩ := next done a rest whole b state holds
    rw [List.foldlM_cons, bind_apply]
    rcases stepped : step b a state with ⟨e | b', after⟩
    · refine ⟨fun _ _ returned => absurd (congrArg Prod.fst returned) nofun, fun _ _ failed => ?_⟩
      obtain ⟨-, rfl⟩ := Prod.mk.inj failed
      exact fails e _ stepped
    · refine ih (done ++ [a]) b' after ?_ (returns b' after stepped)
      rw [List.append_assoc, List.singleton_append, whole]

/-- Runs that succeed keep `Inv` of the state and append to the log; `Post` holds of what
they return and append. -/
def Appends (Inv : σ → Prop) (p : Process (σ × List β) ε α) (Post : α → List β → Prop) : Prop :=
  ∀ state log a after, Inv state → p (state, log) = (.ok a, after) →
    Inv after.1 ∧ ∃ appended, after.2 = log ++ appended ∧ Post a appended

namespace Appends
variable {Inv : σ → Prop} {p : Process (σ × List β) ε α} {Post : α → List β → Prop}

theorem pure {a : α} (post : Post a []) :
    Appends Inv (Pure.pure a : Process (σ × List β) ε α) Post := by
  rintro state log _ _ inv ⟨⟩
  exact ⟨inv, [], (List.append_nil log).symm, post⟩

theorem bind {next : α → Process (σ × List β) ε γ} {Post : γ → List β → Prop}
    (first : Appends Inv p fun a appended =>
      Appends Inv (next a) fun b rest => Post b (appended ++ rest)) :
    Appends Inv (p >>= next) Post := by
  intro state log b after inv ran
  rw [bind_apply] at ran
  rcases middle : p (state, log) with ⟨result, state', log'⟩
  rw [middle] at ran
  cases result with
  | error e =>
    have failed : Except.error e = Except.ok b := congrArg Prod.fst ran
    contradiction
  | ok a =>
    obtain ⟨inv', appended, rfl, rest⟩ := first state log a _ inv middle
    obtain ⟨inv'', appended', same, post⟩ := rest state' _ b after inv' ran
    exact ⟨inv'', appended ++ appended', same.trans (List.append_assoc _ _ _), post⟩

theorem ofExcept {result : Except ε α} (post : ∀ a, result = .ok a → Post a []) :
    Appends Inv (Process.ofExcept result) Post := by
  rintro state log a _ inv ran
  obtain ⟨rfl, rfl⟩ := Prod.mk.inj ran
  exact ⟨inv, [], (List.append_nil log).symm, post a rfl⟩

theorem gated {c : Prop} [Decidable c] {p : Process (σ × List β) ε Unit}
    {Post : Unit → List β → Prop} (yes : c → Appends Inv p Post) (no : ¬ c → Post () []) :
    Appends Inv (p.gated c) Post := by
  rw [Process.gated]
  split
  case isTrue holds => exact yes holds
  case isFalse fails => exact pure (no fails)

theorem ite {c : Prop} [Decidable c] {q : Process (σ × List β) ε α} (yes : c → Appends Inv p Post)
    (no : ¬ c → Appends Inv q Post) : Appends Inv (if c then p else q) Post := by
  split
  case isTrue holds => exact yes holds
  case isFalse fails => exact no fails

end Appends
end Process
end Litecoin.Wire
