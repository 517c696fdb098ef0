import Mathlib.Tactic.Common

/-! Loops as a function for one step, which is `none` in the states that the loop ends in. -/
namespace Litecoin.Wire.Loop

/-- The state after `steps` steps, or the one that the loop ended in before. -/
def run (step : σ → Option σ) : (steps : Nat) → σ → σ
  | 0, state => state
  | steps + 1, state => match step state with
    | none => state
    | some next => run step steps next

/-- Each step keeps `Inv` and takes something off `measure`. -/
def Descends (step : σ → Option σ) (Inv : σ → Prop) (measure : σ → Nat) : Prop :=
  ∀ state next, Inv state → step state = some next → Inv next ∧ measure next < measure state

variable {step : σ → Option σ} {Inv : σ → Prop} {measure : σ → Nat} {state : σ}

theorem Descends.run (descends : Descends step Inv measure) (inv : Inv state) (steps : Nat) :
    Inv (run step steps state) := by
  induction steps generalizing state with
  | zero => exact inv
  | succ steps ih =>
    rw [Loop.run]
    split
    case h_1 => exact inv
    case h_2 next stepped => exact ih (descends state next inv stepped).1

theorem Descends.ends (descends : Descends step Inv measure) (inv : Inv state) :
    ∃ steps ≤ measure state, step (Loop.run step steps state) = none := by
  induction bound : measure state using Nat.strongRecOn generalizing state with
  | ind n ih =>
    subst bound
    cases stepped : step state with
    | none => exact ⟨0, Nat.zero_le _, stepped⟩
    | some next =>
      obtain ⟨kept, less⟩ := descends state next inv stepped
      obtain ⟨steps, few, ended⟩ := ih _ less kept rfl
      refine ⟨steps + 1, Nat.lt_of_le_of_lt few less, ?_⟩
      rw [Loop.run, stepped]
      exact ended

end Litecoin.Wire.Loop
