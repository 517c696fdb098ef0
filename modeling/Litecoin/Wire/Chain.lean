import Litecoin.Wire.Record
import Mathlib.Data.Set.Function

/-! Chains: each link is added to what the links before it come to. -/
namespace Litecoin.Wire

/-- The links of a chain, each with what it is added to. -/
def links (step : β → α → β) : β → List α → List (β × α)
  | _, [] => []
  | first, link :: rest => (first, link) :: links step (step first link) rest

/-- Chains of one length that come to the same are the same, when no two of their steps come
to the same. -/
theorem eq_of_foldl_eq {step : β → α → β} {first first' : β} {chain chain' : List α}
    (length : chain.length = chain'.length)
    (binds : Set.InjOn (fun link => step link.1 link.2)
      ({link | link ∈ links step first chain} ∪ {link | link ∈ links step first' chain'}))
    (same : chain.foldl step first = chain'.foldl step first') : first = first' ∧ chain = chain' := by
  induction chain generalizing first first' chain' with
  | nil =>
    obtain rfl := List.eq_nil_of_length_eq_zero length.symm
    exact ⟨same, rfl⟩
  | cons link chain ih =>
    cases chain' with
    | nil => contradiction
    | cons link' chain' =>
      have later := binds.mono (Set.union_subset_union
        (fun _ => List.mem_cons_of_mem (first, link)) fun _ => List.mem_cons_of_mem (first', link'))
      obtain ⟨steps, rfl⟩ := ih (Nat.succ.inj length) later same
      have joined := binds (.inl List.mem_cons_self) (.inr List.mem_cons_self) steps
      obtain ⟨rfl, rfl⟩ := Prod.mk.inj joined
      exact ⟨rfl, rfl⟩

end Litecoin.Wire
