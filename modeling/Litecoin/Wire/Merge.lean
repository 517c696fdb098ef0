import Litecoin.Wire.Indexed
import Mathlib.Data.List.GetD

/-! Merging partial data: options of which one side is kept, vectors merged index by
index, and vectors merged as far as one of them goes. -/
namespace Litecoin.Wire

/-- Two optional values that are equal where both are present. -/
def Agree (a b : Option α) : Prop := ∀ v w, a = some v → b = some w → v = w

/-- `r` is present where `a` or `b` is, and is one of them. -/
def Merges (a b r : Option α) : Prop := r = a.or b ∨ r = b.or a

section
variable {a b c r : Option α}

theorem Agree.symm (agree : Agree a b) : Agree b a := by
  intro v w left right
  exact (agree w v right left).symm

theorem Agree.or_comm (agree : Agree a b) : a.or b = b.or a := by
  cases a with
  | none => simp
  | some v =>
    cases b with
    | none => simp
    | some w => simp [agree v w rfl rfl]

theorem Agree.eq_iff (agree : Agree a b) : a = b ↔ (a = none ↔ b = none) := by
  cases a with
  | none => simp [eq_comm]
  | some v =>
    cases b with
    | none => simp
    | some w => simp [agree v w rfl rfl]

theorem or_eq_left_iff : a.or b = a ↔ (a = none → b = none) := by
  cases a <;> simp

theorem Merges.eq_or (merges : Merges a b r) (agree : Agree a b) : r = a.or b := by
  rcases merges with left | right
  · exact left
  · rw [right, agree.or_comm]

theorem Merges.eq_none_iff (merges : Merges a b r) : r = none ↔ a = none ∧ b = none := by
  rcases merges with rfl | rfl <;> cases a <;> cases b <;> simp

theorem Merges.source (merges : Merges a b r) (present : r = some v) : a = some v ∨ b = some v := by
  rcases merges with rfl | rfl <;> cases a <;> cases b <;> simp_all

theorem Merges.agree (merges : Merges a b r) (left : Agree a c) (right : Agree b c) : Agree r c := by
  intro v w present other
  rcases merges.source present with first | second
  · exact left v w first other
  · exact right v w second other

theorem Merges.eq_left (merges : Merges a b r) (empty : b = none) : r = a := by
  rcases merges with rfl | rfl <;> simp [empty]

theorem Merges.left (a b : Option α) : Merges a b (a.or b) := .inl rfl

end

/-- `for (i, other) in other.into_iter().enumerate()` with the element of that index made
first where it is missing. -/
def mergeVec (default : α) (combine : α → α → α) (self other : List α) : List α :=
  (other.zipIdx.map fun (element, i) => (i, element)).foldl (applyAt default combine) self

/-- `for (self, other) in self.iter_mut().zip(other)`. -/
def mergeZip (combine : α → α → α) : (self other : List α) → List α
  | element :: self, other :: others => combine element other :: mergeZip combine self others
  | self, [] => self
  | [], _ => []

theorem ext_getD {self other : List α} (default : α) (lengths : self.length = other.length)
    (each : ∀ k, self.getD k default = other.getD k default) : self = other := by
  apply List.ext_getElem lengths
  intro k left right
  have same := each k
  rwa [List.getD_eq_getElem?_getD, List.getD_eq_getElem?_getD, List.getElem?_eq_getElem left,
    List.getElem?_eq_getElem right] at same

section
variable {default : α} {combine : α → α → α}

theorem mergeVec_nil (self : List α) : mergeVec default combine self [] = self := rfl

theorem mergeVec_concat (self init : List α) (last : α) :
    mergeVec default combine self (init ++ [last]) =
      applyAt default combine (mergeVec default combine self init) (init.length, last) := by
  simp [mergeVec, List.zipIdx_append]

theorem length_mergeVec (self other : List α) :
    (mergeVec default combine self other).length = max self.length other.length := by
  induction other using List.reverseRecOn with
  | nil => simp [mergeVec_nil]
  | append_singleton init last ih =>
    rw [mergeVec_concat, length_applyAt, ih, List.length_append, List.length_singleton]
    omega

theorem getD_applyAt (vec : List α) (index k : Nat) (field : φ) (apply : α → φ → α) :
    (applyAt default apply vec (index, field)).getD k default =
      if index = k then apply (vec.getD k default) field else vec.getD k default := by
  have single := getD_foldl_applyAt default apply [(index, field)] vec k
  by_cases same : index = k
  · simpa [same] using single
  · simpa [same] using single

section
variable (neutral : ∀ a, combine a default = a)
include neutral

/-- A missing element merges like the default one. -/
theorem getD_mergeVec (self other : List α) (k : Nat) :
    (mergeVec default combine self other).getD k default =
      combine (self.getD k default) (other.getD k default) := by
  induction other using List.reverseRecOn with
  | nil => simp [mergeVec_nil, neutral]
  | append_singleton init last ih =>
    rw [mergeVec_concat, getD_applyAt, ih]
    split_ifs with at_
    · subst at_
      simp [neutral]
    · rcases Nat.lt_or_gt_of_ne at_ with above | below
      · have beyond : (init ++ [last]).length ≤ k := by simpa using Nat.succ_le_of_lt above
        rw [List.getD_eq_default init _ (Nat.le_of_lt above), List.getD_eq_default _ _ beyond]
      · rw [List.getD_append _ _ _ _ below]

theorem mergeVec_comm_iff (self other : List α) :
    mergeVec default combine self other = mergeVec default combine other self ↔
      ∀ k, combine (self.getD k default) (other.getD k default) =
        combine (other.getD k default) (self.getD k default) := by
  constructor
  · intro same k
    rw [← getD_mergeVec neutral, same, getD_mergeVec neutral]
  · intro each
    apply ext_getD default
    · rw [length_mergeVec, length_mergeVec, Nat.max_comm]
    · intro k
      rw [getD_mergeVec neutral, getD_mergeVec neutral, each]

theorem mergeVec_assoc {a b c : List α}
    (each : ∀ k, combine (combine (a.getD k default) (b.getD k default)) (c.getD k default) =
      combine (a.getD k default) (combine (b.getD k default) (c.getD k default))) :
    mergeVec default combine (mergeVec default combine a b) c =
      mergeVec default combine a (mergeVec default combine b c) := by
  apply ext_getD default
  · simp only [length_mergeVec, Nat.max_assoc]
  · intro k
    simp only [getD_mergeVec neutral, each]

end

theorem length_mergeZip (self other : List α) :
    (mergeZip combine self other).length = self.length := by
  induction self, other using mergeZip.induct with
  | case1 element self other others ih => simp [mergeZip, ih]
  | case2 self => simp [mergeZip]
  | case3 other nonempty => simp [mergeZip]

section
variable (neutral : ∀ a, combine a default = a)
include neutral

theorem getD_mergeZip (self other : List α) (k : Nat) :
    (mergeZip combine self other).getD k default = if k < self.length then
      combine (self.getD k default) (other.getD k default) else default := by
  induction self, other using mergeZip.induct generalizing k with
  | case1 element self other others ih =>
    cases k with
    | zero => simp [mergeZip]
    | succ k => simpa [mergeZip] using ih k
  | case2 self =>
    split_ifs with inside
    · simp [mergeZip, neutral]
    · simpa [mergeZip] using List.getD_eq_default _ _ (Nat.le_of_not_lt inside)
  | case3 other nonempty => simp [mergeZip]

theorem mergeZip_comm_iff (self other : List α) :
    mergeZip combine self other = mergeZip combine other self ↔
      self.length = other.length ∧ ∀ k < self.length,
        combine (self.getD k default) (other.getD k default) =
          combine (other.getD k default) (self.getD k default) := by
  constructor
  · intro same
    have lengths := congrArg List.length same
    rw [length_mergeZip, length_mergeZip] at lengths
    refine ⟨lengths, fun k inside => ?_⟩
    have element := congrArg (List.getD · k default) same
    simp only [getD_mergeZip neutral] at element
    rwa [if_pos inside, if_pos (lengths ▸ inside)] at element
  · rintro ⟨lengths, each⟩
    apply ext_getD default
    · rw [length_mergeZip, length_mergeZip, lengths]
    · intro k
      rw [getD_mergeZip neutral, getD_mergeZip neutral, ← lengths]
      split_ifs with inside
      · exact each k inside
      · rfl

/-- The second list bounds how far the third one reaches when it is merged into it first. -/
theorem mergeZip_assoc_iff (a b c : List α) :
    mergeZip combine (mergeZip combine a b) c = mergeZip combine a (mergeZip combine b c) ↔
      ∀ k < a.length, if k < b.length then
        combine (combine (a.getD k default) (b.getD k default)) (c.getD k default) =
          combine (a.getD k default) (combine (b.getD k default) (c.getD k default))
      else combine (a.getD k default) (c.getD k default) = a.getD k default := by
  have left (k : Nat) (inside : k < a.length) :
      (mergeZip combine (mergeZip combine a b) c).getD k default =
        combine (combine (a.getD k default) (b.getD k default)) (c.getD k default) := by
    rw [getD_mergeZip neutral, length_mergeZip, if_pos inside, getD_mergeZip neutral, if_pos inside]
  have right (k : Nat) (inside : k < a.length) :
      (mergeZip combine a (mergeZip combine b c)).getD k default =
        combine (a.getD k default) (if k < b.length then
          combine (b.getD k default) (c.getD k default) else default) := by
    rw [getD_mergeZip neutral, if_pos inside, getD_mergeZip neutral]
  have each (k : Nat) (inside : k < a.length) :
      (mergeZip combine (mergeZip combine a b) c).getD k default =
        (mergeZip combine a (mergeZip combine b c)).getD k default ↔
      if k < b.length then
        combine (combine (a.getD k default) (b.getD k default)) (c.getD k default) =
          combine (a.getD k default) (combine (b.getD k default) (c.getD k default))
      else combine (a.getD k default) (c.getD k default) = a.getD k default := by
    rw [left k inside, right k inside]
    split_ifs with reached
    · exact Iff.rfl
    · rw [List.getD_eq_default b _ (Nat.le_of_not_lt reached), neutral]
  constructor
  · intro same k inside
    rw [← each k inside, same]
  · intro assoc
    apply ext_getD default
    · simp only [length_mergeZip]
    · intro k
      by_cases inside : k < a.length
      · exact (each k inside).mpr (assoc k inside)
      · rw [getD_mergeZip neutral, length_mergeZip, if_neg inside, getD_mergeZip neutral, if_neg inside]

end
end
end Litecoin.Wire
