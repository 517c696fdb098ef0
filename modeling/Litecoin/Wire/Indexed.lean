import Mathlib.Data.List.DropRight
import Mathlib.Tactic.Common

/-! Vectors built from updates that name an index: an update grows the vector with
default elements until its index exists. -/
namespace Litecoin.Wire

/-- `while vec.len() <= index { vec.push(T::default()); }`. -/
def ensureIndex (default : α) (vec : List α) (index : Nat) : List α :=
  vec ++ List.replicate (index + 1 - vec.length) default

theorem length_ensureIndex (default : α) (vec : List α) (index : Nat) :
    (ensureIndex default vec index).length = max vec.length (index + 1) := by
  rw [ensureIndex, List.length_append, List.length_replicate]
  omega

theorem getD_ensureIndex (default : α) (vec : List α) (index k : Nat) :
    (ensureIndex default vec index).getD k default = vec.getD k default := by
  rw [ensureIndex, List.getD_eq_getElem?_getD, List.getD_eq_getElem?_getD, List.getElem?_append]
  split
  · rfl
  · rename_i beyond
    rw [List.getElem?_replicate, List.getElem?_eq_none (by omega)]
    split <;> rfl

/-- Applies `field` to the element at its index. -/
def applyAt (default : α) (apply : α → φ → α) (vec : List α) (update : Nat × φ) : List α :=
  (ensureIndex default vec update.1).modify update.1 (apply · update.2)

section
variable (default : α) (apply : α → φ → α)

theorem length_applyAt (vec : List α) (update : Nat × φ) :
    (applyAt default apply vec update).length = max vec.length (update.1 + 1) := by
  rw [applyAt, List.length_modify, length_ensureIndex]

theorem forall_mem_applyAt {Holds : α → Prop} {vec : List α} (all : ∀ a ∈ vec, Holds a)
    (start : Holds default) (kept : ∀ a, Holds a → Holds (apply a field)) :
    ∀ a ∈ applyAt default apply vec (index, field), Holds a := by
  have padded : ∀ a ∈ ensureIndex default vec index, Holds a := by
    intro a member
    obtain member | member := List.mem_append.mp member
    · exact all a member
    · rw [List.eq_of_mem_replicate member]
      exact start
  intro a member
  rw [applyAt] at member
  obtain ⟨k, bound, rfl⟩ := List.getElem_of_mem member
  rw [List.length_modify] at bound
  rw [List.getElem_modify]
  split
  · exact kept _ (padded _ (List.getElem_mem bound))
  · exact padded _ (List.getElem_mem bound)

theorem length_foldl_applyAt_le (updates : List (Nat × φ)) (vec : List α) (n : Nat) :
    (updates.foldl (applyAt default apply) vec).length ≤ n ↔
      vec.length ≤ n ∧ ∀ update ∈ updates, update.1 < n := by
  induction updates generalizing vec with
  | nil => simp
  | cons update rest ih =>
    rw [List.foldl_cons, ih, length_applyAt, List.forall_mem_cons, Nat.max_le, Nat.succ_le_iff,
      and_assoc]

/-- Each element only sees the updates that name it. -/
theorem getD_foldl_applyAt (updates : List (Nat × φ)) (vec : List α) (k : Nat) :
    (updates.foldl (applyAt default apply) vec).getD k default =
      (updates.filter (·.1 = k)).foldl (fun a update => apply a update.2) (vec.getD k default) := by
  induction updates generalizing vec with
  | nil => rfl
  | cons update rest ih =>
    obtain ⟨index, field⟩ := update
    have stepped : (applyAt default apply vec (index, field)).getD k default =
        if index = k then apply (vec.getD k default) field else vec.getD k default := by
      rw [← getD_ensureIndex default vec index k, applyAt, List.getD_eq_getElem?_getD,
        List.getD_eq_getElem?_getD, List.getElem?_modify]
      split
      · rename_i same
        subst same
        have inside : index < (ensureIndex default vec index).length := by
          rw [length_ensureIndex]
          omega
        rw [List.getElem?_eq_getElem inside]
        rfl
      · exact congrArg (Option.getD · default) (id_map _)
    rw [List.foldl_cons, ih, stepped, List.filter_cons]
    by_cases same : index = k
    · simp [same]
    · simp [same]

/-- A property of new elements holds everywhere exactly when it holds of what the updates
of each index leave. -/
theorem forall_mem_foldl_applyAt {Holds : α → Prop} (start : Holds default)
    (updates : List (Nat × φ)) :
    (∀ a ∈ updates.foldl (applyAt default apply) [], Holds a) ↔
      ∀ k, Holds ((updates.filter (·.1 = k)).foldl (fun a update => apply a update.2) default) := by
  have element (k : Nat) := getD_foldl_applyAt default apply updates [] k
  simp only [List.getD_eq_getElem?_getD, List.getElem?_nil, Option.getD_none] at element
  constructor
  · intro all k
    rw [← element k]
    cases found : (updates.foldl (applyAt default apply) [])[k]? with
    | none => exact start
    | some a => exact all a (List.mem_of_getElem? found)
  · intro each a member
    obtain ⟨k, bound, rfl⟩ := List.getElem_of_mem member
    have same := element k
    rw [List.getElem?_eq_getElem bound, Option.getD_some] at same
    rw [same]
    exact each k

/-- An element is set once one of its updates is. -/
theorem foldl_set_iff {Set : α → Prop} {Sets : φ → Prop}
    (sets : ∀ a field, Set (apply a field) ↔ Set a ∨ Sets field) (updates : List (Nat × φ)) (a : α) :
    Set (updates.foldl (fun a update => apply a update.2) a) ↔
      Set a ∨ ∃ update ∈ updates, Sets update.2 := by
  induction updates generalizing a with
  | nil => simp
  | cons update rest ih =>
    rw [List.foldl_cons, ih, sets, List.exists_mem_cons_iff, or_assoc]

/-- No index is beyond those of the updates that set something. -/
def Covered (Sets : φ → Prop) (updates : List (Nat × φ)) : Prop :=
  ∀ update ∈ updates, ∃ top ∈ updates, update.1 ≤ top.1 ∧ Sets top.2

/-- The last element is set exactly when the updates are covered. -/
theorem getLast_foldl_applyAt {Set : α → Prop} {Sets : φ → Prop} (start : ¬ Set default)
    (sets : ∀ a field, Set (apply a field) ↔ Set a ∨ Sets field) (updates : List (Nat × φ)) :
    (∀ last ∈ (updates.foldl (applyAt default apply) []).getLast?, Set last) ↔
      Covered Sets updates := by
  have sizes := length_foldl_applyAt_le default apply updates []
  have element (k : Nat) : Set ((updates.foldl (applyAt default apply) []).getD k default) ↔
      ∃ update ∈ updates, update.1 = k ∧ Sets update.2 := by
    rw [getD_foldl_applyAt, foldl_set_iff apply sets, List.getD_nil, or_iff_right start]
    simp [and_assoc]
  cases built : updates.foldl (applyAt default apply) [] using List.reverseRecOn with
  | nil =>
    rw [built] at sizes
    have none := ((sizes 0).mp (Nat.le_refl _)).2
    constructor
    · exact fun _ update member => absurd (none update member) (Nat.not_lt_zero _)
    · exact fun _ last absent => absurd absent (Option.not_mem_none _)
  | append_singleton init last =>
    rw [built] at sizes element
    have own := element init.length
    have final : (init ++ [last]).getD init.length default = last := by simp
    rw [final] at own
    have within := ((sizes (init.length + 1)).mp (by simp)).2
    simp only [List.getLast?_concat, Option.mem_def, Option.some.injEq, forall_eq', own]
    constructor
    · rintro ⟨top, member, index, set⟩ update listed
      exact ⟨top, member, index ▸ Nat.le_of_lt_succ (within update listed), set⟩
    · intro covered
      -- some update has made the list this long
      have reached : ¬ (init ++ [last]).length ≤ init.length := by simp
      rw [sizes] at reached
      simp only [List.length_nil, Nat.zero_le, true_and, not_forall, Nat.not_lt] at reached
      obtain ⟨update, listed, far⟩ := reached
      obtain ⟨top, member, above, set⟩ := covered update listed
      have bound := within top member
      exact ⟨top, member, by omega, set⟩

theorem applyAt_last (init : List α) (a : α) (field : φ) :
    applyAt default apply (init ++ [a]) (init.length, field) = init ++ [apply a field] := by
  have whole : ensureIndex default (init ++ [a]) init.length = init ++ [a] := by
    simp [ensureIndex]
  rw [applyAt, whole, List.modify_eq_take_cons_drop (by simp)]
  simp

theorem applyAt_beyond {vec : List α} (short : vec.length ≤ index) (field : φ) :
    applyAt default apply vec (index, field) =
      vec ++ List.replicate (index - vec.length) default ++ [apply default field] := by
  have padded : ensureIndex default vec index =
      (vec ++ List.replicate (index - vec.length) default) ++ [default] := by
    rw [ensureIndex, show index + 1 - vec.length = (index - vec.length) + 1 by omega,
      List.replicate_succ', ← List.append_assoc]
  have size : (vec ++ List.replicate (index - vec.length) default).length = index := by
    rw [List.length_append, List.length_replicate]
    omega
  have modified := applyAt_last default apply
    (vec ++ List.replicate (index - vec.length) default) default field
  rw [size] at modified
  rw [applyAt, padded, ← modified, applyAt]
  congr 1
  simp only [ensureIndex, List.length_append, List.length_replicate, List.length_singleton]
  rw [show index + 1 - (vec.length + (index - vec.length) + 1) = 0 by omega, List.replicate_zero,
    List.append_nil]

theorem foldl_applyAt_last (fields : List φ) (init : List α) (a : α) :
    (fields.map (init.length, ·)).foldl (applyAt default apply) (init ++ [a]) =
      init ++ [fields.foldl apply a] := by
  induction fields generalizing a with
  | nil => rfl
  | cons field rest ih => rw [List.map_cons, List.foldl_cons, applyAt_last, ih, List.foldl_cons]

theorem foldl_applyAt_beyond {vec : List α} {fields : List φ} (short : vec.length ≤ index)
    (some : fields ≠ []) :
    (fields.map (index, ·)).foldl (applyAt default apply) vec =
      vec ++ List.replicate (index - vec.length) default ++ [fields.foldl apply default] := by
  obtain ⟨field, rest, rfl⟩ := List.exists_cons_of_ne_nil some
  have size : (vec ++ List.replicate (index - vec.length) default).length = index := by
    rw [List.length_append, List.length_replicate]
    omega
  have last := foldl_applyAt_last default apply rest
    (vec ++ List.replicate (index - vec.length) default) (apply default field)
  rw [size] at last
  rw [List.map_cons, List.foldl_cons, applyAt_beyond default apply short, last, List.foldl_cons]

end

/-- The updates that enumerate the fields of each element in turn. -/
def indexedFields (fields : List (List φ)) : List (Nat × φ) :=
  fields.zipIdx.flatMap fun (own, index) => own.map (index, ·)

theorem mem_indexedFields {fields : List (List φ)} (member : update ∈ indexedFields fields) :
    update.1 < fields.length ∧ ∃ own ∈ fields, update.2 ∈ own := by
  obtain ⟨⟨own, index⟩, listed, inner⟩ := List.mem_flatMap.mp member
  obtain ⟨field, found, rfl⟩ := List.mem_map.mp inner
  obtain ⟨_, bound, same⟩ := List.mem_zipIdx listed
  refine ⟨by omega, own, ?_, found⟩
  rw [same]
  exact List.getElem_mem _

theorem indexedFields_concat (fields : List (List φ)) (last : List φ) :
    indexedFields (fields ++ [last]) = indexedFields fields ++ last.map (fields.length, ·) := by
  simp [indexedFields, List.zipIdx_append]

section
variable (default : α) (apply : α → φ → α)

theorem rdropWhile_padded (fields : List (List φ)) :
    (fields.rdropWhile List.isEmpty).map (List.foldl apply default) ++
      List.replicate (fields.length - (fields.rdropWhile List.isEmpty).length) default =
    fields.map (List.foldl apply default) := by
  induction fields using List.reverseRecOn with
  | nil => rfl
  | append_singleton init last ih =>
    cases last with
    | nil =>
      have bound := (List.rdropWhile_prefix List.isEmpty init).length_le
      rw [List.rdropWhile_concat_pos _ _ _ rfl, List.length_append, List.length_singleton,
        show init.length + 1 - (init.rdropWhile List.isEmpty).length =
          (init.length - (init.rdropWhile List.isEmpty).length) + 1 by omega,
        List.replicate_succ', ← List.append_assoc, ih, List.map_append]
      rfl
    | cons field rest =>
      rw [List.rdropWhile_concat_neg _ _ _ (by simp), Nat.sub_self, List.replicate_zero,
        List.append_nil]

/-- Trailing elements without fields leave no trace; every other element is the fold
of its own fields. -/
theorem foldl_indexedFields (fields : List (List φ)) :
    (indexedFields fields).foldl (applyAt default apply) [] =
      (fields.rdropWhile List.isEmpty).map (List.foldl apply default) := by
  induction fields using List.reverseRecOn with
  | nil => rfl
  | append_singleton init last ih =>
    rw [indexedFields_concat, List.foldl_append, ih]
    cases last with
    | nil => rw [List.rdropWhile_concat_pos _ _ _ rfl]; rfl
    | cons field rest =>
      have bound := (List.rdropWhile_prefix List.isEmpty init).length_le
      rw [foldl_applyAt_beyond default apply (by rwa [List.length_map]) (List.cons_ne_nil _ _), List.length_map,
        rdropWhile_padded, List.rdropWhile_concat_neg _ _ _ (by simp), List.map_append]
      rfl

/-- Writing the fields of all elements and reading them back restores the vector
exactly when its last element has a field and every element is made of its fields. -/
theorem foldl_indexedFields_eq_iff (fieldsOf : α → List φ) (values : List α) :
    (indexedFields (values.map fieldsOf)).foldl (applyAt default apply) [] = values ↔
      (∀ last ∈ values.getLast?, fieldsOf last ≠ []) ∧
      ∀ a ∈ values, (fieldsOf a).foldl apply default = a := by
  rw [foldl_indexedFields]
  have pointwise := List.map_inj_left (l := values) (f := List.foldl apply default ∘ fieldsOf) (g := id)
  have whole : (values.map fieldsOf).rdropWhile List.isEmpty = values.map fieldsOf ↔
      ∀ last ∈ values.getLast?, fieldsOf last ≠ [] := by
    rw [List.rdropWhile_eq_self_iff]
    cases values using List.reverseRecOn with
    | nil => simp
    | append_singleton init last => simp
  constructor
  · intro same
    have lengths := congrArg List.length same
    rw [List.length_map] at lengths
    have complete : (values.map fieldsOf).rdropWhile List.isEmpty = values.map fieldsOf :=
      (List.rdropWhile_prefix _ _).eq_of_length (by rw [lengths, List.length_map])
    refine ⟨whole.mp complete, fun a member => ?_⟩
    rw [complete, List.map_map] at same
    exact pointwise.mp (same.trans (List.map_id values).symm) a member
  · rintro ⟨last, each⟩
    rw [whole.mpr last, List.map_map]
    exact (pointwise.mpr each).trans (List.map_id values)

end

/-- One more element, or at least as many as an index needs. -/
def growth (size : Nat) : Option Nat → Nat
  | none => size + 1
  | some index => max size (index + 1)

/-- Every named index is followed by few enough appended elements. -/
def IndicesLeaveRoom (n : Nat) : List (Option Nat) → Prop
  | [] => True
  | none :: rest => IndicesLeaveRoom n rest
  | some index :: rest => index + 1 + rest.count none ≤ n ∧ IndicesLeaveRoom n rest

theorem foldl_growth_le (marks : List (Option Nat)) (size n : Nat) :
    marks.foldl growth size ≤ n ↔ size + marks.count none ≤ n ∧ IndicesLeaveRoom n marks := by
  induction marks generalizing size with
  | nil => simp [IndicesLeaveRoom]
  | cons mark rest ih =>
    cases mark with
    | none =>
      rw [List.foldl_cons, ih, growth, IndicesLeaveRoom, List.count_cons_self, Nat.add_right_comm,
        Nat.add_assoc]
    | some index =>
      rw [List.foldl_cons, ih, growth, IndicesLeaveRoom, List.count_cons_of_ne (by simp)]
      constructor
      · rintro ⟨bound, room⟩
        exact ⟨by omega, by omega, room⟩
      · rintro ⟨bound, own, room⟩
        exact ⟨by omega, room⟩

end Litecoin.Wire
