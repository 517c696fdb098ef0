import Mathlib.Algebra.Group.Nat.Defs
import Mathlib.Order.Nat

/-! Vectors in an array of fixed size (`internals/array_vec.rs`), against lists that are not
longer than the array. -/
namespace Litecoin.Internals

/-- `[MaybeUninit<T>; CAP]`: a slot is empty until it is written. -/
abbrev Slots (T : Type) (CAP : Nat) : Type := { slots : List (Option T) // slots.length = CAP }

namespace Slots

def uninit : Slots T CAP := ⟨List.replicate CAP none, List.length_replicate⟩

def write (slots : Slots T CAP) (i : Nat) (element : T) : Slots T CAP :=
  ⟨slots.val.set i (some element), by rw [List.length_set, slots.property]⟩

/-- `slots[start..].copy_from_slice(slice)`, which panics unless the two have one length. -/
def copyFrom (slots : Slots T CAP) (start : Nat) (slice : List T) : Option (Slots T CAP) :=
  if fits : start ≤ CAP ∧ slice.length = CAP - start then
    some ⟨slots.val.take start ++ slice.map some, by
      rw [List.length_append, List.length_take, slots.property, List.length_map]
      omega⟩
  else none

end Slots

structure ArrayVec (T : Type) (CAP : Nat) where
  len : Nat
  data : Slots T CAP

namespace ArrayVec

def new : ArrayVec T CAP := { len := 0, data := .uninit }

/-- The loop of `from_slice`; writing past the array panics. -/
def fill (data : Slots T CAP) : (i : Nat) → List T → Option (Slots T CAP)
  | _, [] => some data
  | i, element :: slice => if i < CAP then fill (data.write i element) (i + 1) slice else none

def fromSlice (slice : List T) : Option (ArrayVec T CAP) :=
  if slice.length ≤ CAP then
    (fill .uninit 0 slice).map fun data => { len := slice.length, data }
  else none

/-- What the first `len` slots hold. There is no value for a slot that was never written, nor
behind the array. -/
def asSlice (self : ArrayVec T CAP) : Option (List T) :=
  if self.len ≤ CAP then (self.data.val.take self.len).mapM id else none

/-- What a method leaves of its vector, and whether it returned: it panicked if not. -/
abbrev Left (T : Type) (CAP : Nat) : Type := Bool × ArrayVec T CAP

def push (self : ArrayVec T CAP) (element : T) : Left T CAP :=
  if self.len < CAP then
    (true, { len := self.len + 1, data := self.data.write self.len element })
  else (false, self)

/-- `usize::checked_add`. -/
def checkedAdd (a b : Nat) : Option Nat := if a + b < 2 ^ 64 then some (a + b) else none

def extendFromSlice (self : ArrayVec T CAP) (slice : List T) : Left T CAP :=
  match checkedAdd self.len slice.length with
  | none => (false, self)
  | some newLen =>
    if newLen ≤ CAP then match self.data.copyFrom self.len slice with
      | none => (false, self)
      | some data => (true, { len := newLen, data })
    else (false, self)

def clone (self : ArrayVec T CAP) : Option (ArrayVec T CAP) := self.asSlice.bind fromSlice

/-- `PartialEq` between vectors of any two capacities. -/
def eq [BEq T] (self : ArrayVec T CAP) (other : ArrayVec T CAP') : Option Bool := do
  some ((← self.asSlice) == (← other.asSlice))

/-- `PartialOrd` for slices: the first pair that is not equal decides, then the lengths do. -/
def partialCmpSlices (partialCmp : T → T → Option Ordering) : List T → List T → Option Ordering
  | [], [] => some .eq
  | [], _ :: _ => some .lt
  | _ :: _, [] => some .gt
  | a :: left, b :: right => match partialCmp a b with
    | some .eq => partialCmpSlices partialCmp left right
    | decided => decided

def partialCmp (order : T → T → Option Ordering) (self : ArrayVec T CAP) (other : ArrayVec T CAP') :
    Option (Option Ordering) := do
  some (partialCmpSlices order (← self.asSlice) (← other.asSlice))

def cmp [Ord T] (self other : ArrayVec T CAP) : Option Ordering := do
  some (List.compareLex compare (← self.asSlice) (← other.asSlice))

/-- What is done to a variable that holds a vector. -/
inductive Operation (T : Type) where
  | new
  | fromSlice (slice : List T)
  | push (element : T)
  | extendFromSlice (slice : List T)
  | clone

/-- A new vector takes the place of the old one unless it cannot be made. -/
def replace (self : ArrayVec T CAP) (made : Option (ArrayVec T CAP)) : Left T CAP :=
  match made with
  | none => (false, self)
  | some next => (true, next)

def step (self : ArrayVec T CAP) : Operation T → Left T CAP
  | .new => (true, new)
  | .fromSlice slice => self.replace (fromSlice slice)
  | .push element => self.push element
  | .extendFromSlice slice => self.extendFromSlice slice
  | .clone => self.replace self.clone

/-- Whether each operation returned, and the slice after it. -/
def trace (self : ArrayVec T CAP) : List (Operation T) → List (Bool × Option (List T))
  | [] => []
  | operation :: rest =>
    let (returned, next) := self.step operation
    (returned, next.asSlice) :: next.trace rest

/-- What a list becomes if there is room for it. -/
def Operation.on (list : List T) : Operation T → List T
  | .new => []
  | .fromSlice slice => slice
  | .push element => list ++ [element]
  | .extendFromSlice slice => list ++ slice
  | .clone => list

/-- A bounded list: an operation whose result is too long has no effect. -/
def listStep (CAP : Nat) (list : List T) (operation : Operation T) : Bool × List T :=
  if (operation.on list).length ≤ CAP then (true, operation.on list) else (false, list)

def listTrace (CAP : Nat) (list : List T) : List (Operation T) → List (Bool × Option (List T))
  | [] => []
  | operation :: rest =>
    let (returned, next) := listStep CAP list operation
    (returned, some next) :: listTrace CAP next rest

/-- The extension that an operation is leaves no room behind it. -/
def FillsUp (CAP : Nat) (list : List T) (operation : Operation T) : Prop :=
  ∀ slice, operation = .extendFromSlice slice → CAP ≤ list.length + slice.length

/-- No extension leaves room behind it. -/
def ExtendsFill (CAP : Nat) (list : List T) : List (Operation T) → Prop
  | [] => True
  | operation :: rest =>
    FillsUp CAP list operation ∧ ExtendsFill CAP (listStep CAP list operation).2 rest

/-- The vector holds a list: it is in the first slots, whatever the others are. -/
structure Holds (vec : ArrayVec T CAP) (list : List T) : Prop where
  len : vec.len = list.length
  bound : list.length ≤ CAP
  front : vec.data.val.take list.length = list.map some

theorem mapM_id_some (list : List T) : (list.map some).mapM id = some list := by
  induction list with
  | nil => rfl
  | cons a rest ih =>
    rw [List.map_cons, List.mapM_cons, ih]
    rfl

theorem Holds.asSlice {self : ArrayVec T CAP} {list : List T} (holds : self.Holds list) :
    self.asSlice = some list := by
  rw [ArrayVec.asSlice, if_pos (by rw [holds.len]; exact holds.bound), holds.len, holds.front,
    mapM_id_some]

theorem holds_new : (new : ArrayVec T CAP).Holds [] :=
  ⟨rfl, Nat.zero_le CAP, rfl⟩

/-- One more slot is written behind those that are full. -/
theorem take_write {slots : Slots T CAP} {list : List T}
    (front : slots.val.take list.length = list.map some) (room : list.length < CAP) (element : T) :
    (slots.write list.length element).val.take (list ++ [element]).length =
      (list ++ [element]).map some := by
  have inside : list.length < slots.val.length := by rwa [slots.property]
  rw [Slots.write, List.length_append, List.length_singleton, List.take_add_one, List.take_set,
    List.getElem?_set_self inside, List.set_eq_of_length_le (List.length_take_le _ _), front,
    List.map_append]
  rfl

theorem fill_spec {data : Slots T CAP} {list : List T}
    (front : data.val.take list.length = list.map some) (slice : List T)
    (bound : (list ++ slice).length ≤ CAP) :
    ∃ filled, fill data list.length slice = some filled ∧
      filled.val.take (list ++ slice).length = (list ++ slice).map some := by
  induction slice generalizing data list with
  | nil => exact ⟨data, rfl, by rw [List.append_nil, front]⟩
  | cons element slice ih =>
    rw [List.append_cons] at bound ⊢
    have room : list.length < CAP := by
      simp only [List.length_append, List.length_singleton] at bound
      omega
    obtain ⟨filled, run, whole⟩ := ih (take_write front room element) bound
    rw [List.length_append, List.length_singleton] at run
    exact ⟨filled, by rw [fill, if_pos room, run], whole⟩

theorem fromSlice_spec {slice : List T} (bound : slice.length ≤ CAP) :
    ∃ made : ArrayVec T CAP, fromSlice slice = some made ∧ made.Holds slice := by
  obtain ⟨data, filled, whole⟩ := fill_spec (holds_new :
    (new : ArrayVec T CAP).Holds []).front slice bound
  refine ⟨⟨slice.length, data⟩, ?_, rfl, bound, whole⟩
  have run : fill (Slots.uninit : Slots T CAP) 0 slice = some data := filled
  rw [fromSlice, if_pos bound, run]
  rfl

theorem fromSlice_long {slice : List T} (long : ¬ slice.length ≤ CAP) :
    (fromSlice slice : Option (ArrayVec T CAP)) = none := if_neg long

theorem Holds.clone {self : ArrayVec T CAP} {list : List T} (holds : self.Holds list) :
    self.clone = fromSlice list := by
  rw [ArrayVec.clone, holds.asSlice, Option.bind_some]

theorem Holds.push {self : ArrayVec T CAP} {list : List T} (holds : self.Holds list) (element : T) :
    (list.length < CAP ∧ ∃ next, self.push element = (true, next) ∧ next.Holds (list ++ [element])) ∨
      (¬ list.length < CAP ∧ self.push element = (false, self)) := by
  rw [ArrayVec.push, holds.len]
  by_cases room : list.length < CAP
  · refine .inl ⟨room, _, if_pos room, ?_, ?_, take_write holds.front room element⟩
    · rw [List.length_append, List.length_singleton]
    · rw [List.length_append, List.length_singleton]
      exact room
  · exact .inr ⟨room, if_neg room⟩

/-- Only a slice that takes all of the room is copied. -/
theorem Holds.extendFromSlice {self : ArrayVec T CAP} {list : List T} (holds : self.Holds list)
    (usize : CAP < 2 ^ 64) (slice : List T) :
    (list.length + slice.length = CAP ∧
        ∃ next, self.extendFromSlice slice = (true, next) ∧ next.Holds (list ++ slice)) ∨
      (list.length + slice.length ≠ CAP ∧ self.extendFromSlice slice = (false, self)) := by
  have bound := holds.bound
  rw [ArrayVec.extendFromSlice, holds.len, checkedAdd, Slots.copyFrom]
  by_cases full : list.length + slice.length = CAP
  · have total : (list ++ slice).length = CAP := List.length_append.trans full
    have length : (self.data.val.take list.length ++ slice.map some).length = CAP := by
      rw [List.length_append, List.length_take, self.data.property, List.length_map]
      omega
    refine .inl ⟨full, ⟨CAP, ⟨self.data.val.take list.length ++ slice.map some, length⟩⟩, ?_, ?_⟩
    · rw [full, if_pos usize]
      simp only [le_refl, if_true]
      rw [dif_pos ⟨bound, by omega⟩]
    · refine ⟨total.symm, total.le, ?_⟩
      rw [total, List.take_of_length_le length.le, holds.front, List.map_append]
  · refine .inr ⟨full, ?_⟩
    rw [dif_neg (by omega)]
    split
    · rfl
    · split_ifs <;> rfl

/-- What an operation does to a vector that holds a list: it returns with the new list, or it
panics and changes nothing. It panics if there is no room, and if it is an extension that
leaves some. -/
theorem Holds.step {vec : ArrayVec T CAP} {list : List T} (holds : vec.Holds list)
    (usize : CAP < 2 ^ 64) (operation : Operation T) :
    ((operation.on list).length ≤ CAP ∧ FillsUp CAP list operation ∧
        ∃ next, vec.step operation = (true, next) ∧ next.Holds (operation.on list)) ∨
      (¬ ((operation.on list).length ≤ CAP ∧ FillsUp CAP list operation) ∧
        vec.step operation = (false, vec)) := by
  have made {slice : List T} {option : Option (ArrayVec T CAP)} (same : option = fromSlice slice) :
      (slice.length ≤ CAP ∧ ∃ next, vec.replace option = (true, next) ∧ next.Holds slice) ∨
        (¬ slice.length ≤ CAP ∧ vec.replace option = (false, vec)) := by
    by_cases bound : slice.length ≤ CAP
    · obtain ⟨next, run, held⟩ := fromSlice_spec bound
      exact .inl ⟨bound, next, by rw [same, run]; rfl, held⟩
    · exact .inr ⟨bound, by rw [same, fromSlice_long bound]; rfl⟩
  cases operation with
  | new => exact .inl ⟨Nat.zero_le CAP, nofun, new, rfl, holds_new⟩
  | fromSlice slice =>
    obtain ⟨bound, step⟩ | ⟨long, panics⟩ := made (rfl : fromSlice slice = _)
    · exact .inl ⟨bound, nofun, step⟩
    · exact .inr ⟨fun fits => long fits.1, panics⟩
  | push element =>
    have length : (list ++ [element]).length = list.length + 1 := by simp
    obtain ⟨room, step⟩ | ⟨full, panics⟩ := holds.push element
    · exact .inl ⟨length.trans_le room, nofun, step⟩
    · exact .inr ⟨fun fits => full (length.symm.trans_le fits.1), panics⟩
  | extendFromSlice slice =>
    have length : (list ++ slice).length = list.length + slice.length := List.length_append
    obtain ⟨exactly, step⟩ | ⟨other, panics⟩ := holds.extendFromSlice usize slice
    · refine .inl ⟨(length.trans exactly).le, ?_, step⟩
      rintro _ ⟨rfl⟩
      exact exactly.ge
    · refine .inr ⟨fun fits => other (le_antisymm (length.symm.trans_le fits.1) ?_), panics⟩
      exact fits.2 slice rfl
  | clone =>
    obtain ⟨bound, step⟩ | ⟨long, panics⟩ := made holds.clone
    · exact .inl ⟨bound, nofun, step⟩
    · exact absurd holds.bound long

/-- A vector behaves like the list that it holds as long as no extension leaves room. -/
theorem Holds.trace_iff {vec : ArrayVec T CAP} {list : List T} (holds : vec.Holds list)
    (usize : CAP < 2 ^ 64) (operations : List (Operation T)) :
    vec.trace operations = listTrace CAP list operations ↔ ExtendsFill CAP list operations := by
  induction operations generalizing vec list with
  | nil => exact iff_of_true rfl trivial
  | cons operation rest ih =>
    rw [trace, listTrace, ExtendsFill, listStep]
    obtain ⟨bound, fills, next, step, held⟩ | ⟨stuck, step⟩ := holds.step usize operation
    · rw [step, if_pos bound]
      simp only [held.asSlice, List.cons.injEq, true_and]
      rw [ih held, and_iff_right fills]
    · rw [step]
      by_cases bound : (operation.on list).length ≤ CAP
      · -- only an extension can panic although there is room
        have leaves : ¬ FillsUp CAP list operation := fun fills => stuck ⟨bound, fills⟩
        rw [if_pos bound]
        simp only [List.cons.injEq, Prod.mk.injEq, Bool.false_eq_true, false_and, leaves]
      · have fills : FillsUp CAP list operation := by
          rintro slice rfl
          have length : (list ++ slice).length = list.length + slice.length := List.length_append
          have long : ¬ (list ++ slice).length ≤ CAP := bound
          omega
        rw [if_neg bound]
        simp only [holds.asSlice, List.cons.injEq, true_and]
        rw [ih holds, and_iff_right fills]

/-- The vector after a run, whatever panicked in it. -/
def after (self : ArrayVec T CAP) : List (Operation T) → ArrayVec T CAP
  | [] => self
  | operation :: rest => (self.step operation).2.after rest

/-- Every run leaves a vector that holds a list. -/
theorem Holds.after {vec : ArrayVec T CAP} {list : List T} (holds : vec.Holds list)
    (usize : CAP < 2 ^ 64) (operations : List (Operation T)) :
    ∃ final, (vec.after operations).Holds final := by
  induction operations generalizing vec list with
  | nil => exact ⟨list, holds⟩
  | cons operation rest ih =>
    rw [ArrayVec.after]
    obtain ⟨-, -, next, step, held⟩ | ⟨-, step⟩ := holds.step usize operation
    · rw [step]
      exact ih held
    · rw [step]
      exact ih holds

theorem Holds.eq [BEq T] {vec : ArrayVec T CAP} {other : ArrayVec T CAP'} {list list' : List T}
    (holds : vec.Holds list) (holds' : other.Holds list') :
    vec.eq other = some (list == list') := by
  rw [ArrayVec.eq, holds.asSlice, holds'.asSlice]
  rfl

theorem Holds.partialCmp {vec : ArrayVec T CAP} {other : ArrayVec T CAP'} {list list' : List T}
    (holds : vec.Holds list) (holds' : other.Holds list') (order : T → T → Option Ordering) :
    vec.partialCmp order other = some (partialCmpSlices order list list') := by
  rw [ArrayVec.partialCmp, holds.asSlice, holds'.asSlice]
  rfl

theorem Holds.cmp [Ord T] {vec other : ArrayVec T CAP} {list list' : List T}
    (holds : vec.Holds list) (holds' : other.Holds list') :
    vec.cmp other = some (List.compareLex compare list list') := by
  rw [ArrayVec.cmp, holds.asSlice, holds'.asSlice]
  rfl

/-- A vector refines a bounded list exactly in the runs where no extension leaves room. Two
vectors that runs leave, those or others, compare as the lists in them. -/
theorem refines_bounded_list [BEq T] [Ord T] (usize : CAP < 2 ^ 64) (usize' : CAP' < 2 ^ 64)
    (operations : List (Operation T)) :
    let vec : ArrayVec T CAP := new.after operations
    ((new : ArrayVec T CAP).trace operations = listTrace CAP [] operations ↔
        ExtendsFill CAP [] operations) ∧
      (∀ operation, (vec.step operation).1 = false → (vec.step operation).2 = vec) ∧
      ∃ list, vec.asSlice = some list ∧
        (∀ others : List (Operation T),
          let other : ArrayVec T CAP' := new.after others
          ∃ list', other.asSlice = some list' ∧ vec.eq other = some (list == list') ∧
            ∀ order, vec.partialCmp order other = some (partialCmpSlices order list list')) ∧
        ∀ others : List (Operation T),
          let other : ArrayVec T CAP := new.after others
          ∃ list', other.asSlice = some list' ∧
            vec.cmp other = some (List.compareLex compare list list') := by
  intro vec
  obtain ⟨list, holds⟩ := holds_new.after usize operations
  refine ⟨holds_new.trace_iff usize operations, fun operation panics => ?_, list, holds.asSlice,
    fun others => ?_, fun others => ?_⟩
  · obtain ⟨-, -, next, step, -⟩ | ⟨-, step⟩ := holds.step usize operation
    · rw [step] at panics
      contradiction
    · rw [step]
  · obtain ⟨list', holds'⟩ := holds_new.after usize' others
    exact ⟨list', holds'.asSlice, holds.eq holds', holds.partialCmp holds'⟩
  · obtain ⟨list', holds'⟩ := holds_new.after usize others
    exact ⟨list', holds'.asSlice, holds.cmp holds'⟩

/-- Three elements by two pushes and an extension that takes all of the room. -/
theorem refines_bounded_list_three :
    (new : ArrayVec Nat 3).trace [.push 5, .push 6, .extendFromSlice [7]] =
      [(true, some [5]), (true, some [5, 6]), (true, some [5, 6, 7])] :=
  ((@refines_bounded_list Nat 3 0 _ _ (by decide) (by decide)
    [.push 5, .push 6, .extendFromSlice [7]]).1.mpr
      (by simp [ExtendsFill, FillsUp, listStep, Operation.on])).trans rfl

/-- One element fits into two slots, but extending by it panics. -/
theorem extendFromSlice_short :
    ¬ ∀ operations, (new : ArrayVec Nat 2).trace operations = listTrace 2 [] operations :=
  fun refines => absurd (refines [.extendFromSlice [7]]) (by decide)

end ArrayVec
end Litecoin.Internals
