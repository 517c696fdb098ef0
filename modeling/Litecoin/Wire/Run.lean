import Litecoin.Wire.Decoder
import Litecoin.Wire.Order
import Mathlib.Data.List.Duplicate

/-! Runs of a fallible step over a list of items, and steps that fill the slots of a
record at most once: options, and finite maps ordered by key. -/
namespace Litecoin.Wire

@[simp] theorem bind_eq_ok {x : Except ε α} {f : α → Except ε β} :
    x >>= f = .ok b ↔ ∃ a, x = .ok a ∧ f a = .ok b := by
  cases x with
  | error e => simp [bind, Except.bind]
  | ok a => simp [bind, Except.bind]

@[simp] theorem map_eq_ok {x : Except ε α} {f : α → β} :
    f <$> x = .ok b ↔ ∃ a, x = .ok a ∧ f a = b := by
  cases x with
  | error e => simp [Functor.map, Except.map]
  | ok a => simp [Functor.map, Except.map]

theorem map_eq_error {x : Except ε α} {f : α → β} : f <$> x = .error e ↔ x = .error e := by
  cases x with
  | error e => simp [Functor.map, Except.map]
  | ok a => simp [Functor.map, Except.map]

@[simp] theorem pure_eq_ok {a b : α} : (pure a : Except ε α) = .ok b ↔ a = b := by
  simp [pure, Except.pure]

@[simp] theorem mapError_eq_ok {f : ε → δ} {x : Except ε α} :
    x.mapError f = .ok a ↔ x = .ok a := by
  cases x with
  | error e => simp [Except.mapError]
  | ok b => simp [Except.mapError]

/-- Feeds `items` to `step` one after the other and stops at the first error. -/
def run (step : σ → π → Except ε σ) (state : σ) : List π → Except ε σ
  | [] => .ok state
  | item :: rest => match step state item with
    | .ok next => run step next rest
    | .error e => .error e

@[simp] theorem run_nil (step : σ → π → Except ε σ) (state : σ) : run step state [] = .ok state := rfl

theorem run_cons_eq_ok {step : σ → π → Except ε σ} :
    run step state (item :: rest) = .ok final ↔
      ∃ next, step state item = .ok next ∧ run step next rest = .ok final := by
  rw [run]
  cases step state item with
  | error e => simp
  | ok next => simp

theorem run_cons {step : σ → π → Except ε σ} (first : step state item = .ok next) :
    run step state (item :: rest) = run step next rest := by
  rw [run, first]

theorem run_append {step : σ → π → Except ε σ} (first : run step state items = .ok middle) :
    run step state (items ++ rest) = run step middle rest := by
  induction items generalizing state with
  | nil =>
    obtain rfl := Except.ok.inj first
    rfl
  | cons item items ih =>
    obtain ⟨next, head, tail⟩ := run_cons_eq_ok.mp first
    rw [List.cons_append, run_cons head, ih tail]

theorem run_append_eq_ok {step : σ → π → Except ε σ} :
    run step state (items ++ rest) = .ok final ↔
      ∃ middle, run step state items = .ok middle ∧ run step middle rest = .ok final := by
  induction items generalizing state with
  | nil => simp
  | cons item items ih =>
    rw [List.cons_append, run_cons_eq_ok]
    constructor
    · rintro ⟨next, head, tail⟩
      obtain ⟨middle, first, second⟩ := ih.mp tail
      exact ⟨middle, run_cons_eq_ok.mpr ⟨next, head, first⟩, second⟩
    · rintro ⟨middle, first, second⟩
      obtain ⟨next, head, tail⟩ := run_cons_eq_ok.mp first
      exact ⟨next, head, ih.mpr ⟨middle, tail, second⟩⟩

/-- A run fails at the first item whose step does. -/
theorem run_eq_error {step : σ → π → Except ε σ} : run step state items = .error e ↔
    ∃ before item after middle, items = before ++ item :: after ∧
      run step state before = .ok middle ∧ step middle item = .error e := by
  induction items generalizing state with
  | nil => simp
  | cons first rest ih =>
    constructor
    · intro failed
      rw [run] at failed
      split at failed
      · rename_i next head
        obtain ⟨before, item, after, middle, rfl, ran, stopped⟩ := ih.mp failed
        exact ⟨first :: before, item, after, middle, rfl, by rw [run_cons head, ran], stopped⟩
      · rename_i head
        obtain rfl := Except.error.inj failed
        exact ⟨[], first, rest, state, rfl, rfl, head⟩
    · rintro ⟨before, item, after, middle, split, ran, stopped⟩
      rcases before with _ | ⟨head, before⟩
      · obtain ⟨rfl, rfl⟩ := List.cons.inj split
        obtain rfl := Except.ok.inj ran
        rw [run, stopped]
      · obtain ⟨rfl, rfl⟩ := List.cons.inj split
        obtain ⟨next, start, tail⟩ := run_cons_eq_ok.mp ran
        rw [run_cons start]
        exact ih.mpr ⟨before, item, after, middle, rfl, tail, stopped⟩

theorem run_map {step : σ → π → Except ε σ} (f : ρ → π) {items : List ρ} :
    run step state (items.map f) = run (fun state item => step state (f item)) state items := by
  induction items generalizing state with
  | nil => rfl
  | cons item rest ih =>
    rw [List.map_cons, run, run]
    cases step state (f item) with
    | error e => rfl
    | ok next => exact ih

/-- What one step preserves, a run preserves. -/
theorem run_invariant {step : σ → π → Except ε σ} {Holds : σ → Prop}
    (preserves : ∀ state, ∀ item ∈ items, ∀ next, Holds state → step state item = .ok next → Holds next)
    (start : Holds state) (ran : run step state items = .ok final) : Holds final := by
  induction items generalizing state with
  | nil =>
    obtain rfl := Except.ok.inj ran
    exact start
  | cons item rest ih =>
    obtain ⟨next, head, tail⟩ := run_cons_eq_ok.mp ran
    exact ih (fun state item member => preserves state item (List.mem_cons_of_mem _ member))
      (preserves state item List.mem_cons_self next start head) tail

/-- A part of the state that only some items update is folded over those. -/
theorem run_project {step : σ → π → Except ε σ} (project : σ → α) (part : π → Option β)
    (update : α → β → α)
    (updates : ∀ state item next, step state item = .ok next →
      project next = (part item).elim (project state) (update (project state)))
    (ran : run step state items = .ok final) :
    project final = (items.filterMap part).foldl update (project state) := by
  induction items generalizing state with
  | nil =>
    obtain rfl := Except.ok.inj ran
    rfl
  | cons item rest ih =>
    obtain ⟨next, head, tail⟩ := run_cons_eq_ok.mp ran
    rw [ih tail, updates _ _ _ head]
    cases found : part item with
    | none => rw [List.filterMap_cons_none found, Option.elim_none]
    | some b => rw [List.filterMap_cons_some found, Option.elim_some, List.foldl_cons]

/-- Steps that cannot fail on a part of the state fold over it. -/
theorem run_foldl {step : σ → π → Except ε σ} {updates : List β} (put : α → σ) {item : β → π}
    {update : α → β → α}
    (each : ∀ a, ∀ b ∈ updates, step (put a) (item b) = .ok (put (update a b))) (a : α) :
    run step (put a) (updates.map item) = .ok (put (updates.foldl update a)) := by
  induction updates generalizing a with
  | nil => rfl
  | cons b rest ih =>
    rw [List.map_cons, run_cons (each a b List.mem_cons_self), List.foldl_cons]
    exact ih (fun a b member => each a b (List.mem_cons_of_mem _ member)) _

/-- `while !bytes.is_empty()`: feeds what `d` reads to `step` until nothing is left.
As many rounds as there are bytes are enough for a reader that always takes one. -/
def Decoder.toEnd (d : Decoder ε α) (step : σ → α → Except ε σ) :
    (rounds : Nat) → σ → Bytes → Except ε σ
  | _, state, [] => .ok state
  | 0, state, _ :: _ => .ok state
  | rounds + 1, state, byte :: tail => match d (byte :: tail) with
    | .error e => .error e
    | .ok (a, rest) => match step state a with
      | .error e => .error e
      | .ok next => toEnd d step rounds next rest

theorem Decoder.toEnd_nil {d : Decoder ε α} {step : σ → α → Except ε σ} :
    d.toEnd step rounds state [] = .ok state := by
  cases rounds with
  | zero => rfl
  | succ rounds => rfl

theorem Decoder.toEnd_cons {d : Decoder ε α} {step : σ → α → Except ε σ} (some : bytes ≠ []) :
    d.toEnd step (rounds + 1) state bytes = .ok final ↔ ∃ a rest next, d bytes = .ok (a, rest) ∧
      step state a = .ok next ∧ d.toEnd step rounds next rest = .ok final := by
  obtain ⟨byte, tail, rfl⟩ := List.exists_cons_of_ne_nil some
  rw [toEnd]
  cases head : d (byte :: tail) with
  | error e => simp
  | ok read =>
    obtain ⟨a, rest⟩ := read
    cases stepped : step state a with
    | error e => simp [stepped]
    | ok next => simp [stepped]

theorem Decoder.toEnd_eq_ok {d : Decoder ε α} {step : σ → α → Except ε σ} (reads : Reads d wire Valid)
    (nonempty : ∀ a, wire a ≠ []) (enough : bytes.length ≤ rounds) :
    d.toEnd step rounds state bytes = .ok final ↔ ∃ items, (∀ a ∈ items, Valid a) ∧
      bytes = items.flatMap wire ∧ run step state items = .ok final := by
  induction rounds generalizing state bytes with
  | zero =>
    obtain rfl := List.eq_nil_of_length_eq_zero (Nat.le_zero.mp enough)
    rw [toEnd_nil]
    constructor
    · intro done
      exact ⟨[], fun _ member => absurd member List.not_mem_nil, rfl, done⟩
    · rintro ⟨items, _, whole, ran⟩
      cases items with
      | nil => exact ran
      | cons a rest => exact absurd (List.append_eq_nil_iff.mp whole.symm).1 (nonempty a)
  | succ rounds ih =>
    by_cases empty : bytes = []
    · subst empty
      have done := @ih state [] (Nat.zero_le _)
      rw [toEnd_nil] at done ⊢
      exact done
    rw [toEnd_cons empty]
    constructor
    · rintro ⟨a, rest, next, read, stepped, done⟩
      obtain ⟨valid, rfl⟩ := (reads _ _ _).mp read
      have taken := List.length_pos_iff.mpr (nonempty a)
      rw [List.length_append] at enough
      obtain ⟨items, others, rfl, ran⟩ := (ih (by omega)).mp done
      exact ⟨a :: items, List.forall_mem_cons.mpr ⟨valid, others⟩, rfl,
        run_cons_eq_ok.mpr ⟨next, stepped, ran⟩⟩
    · rintro ⟨items, valid, rfl, ran⟩
      cases items with
      | nil => exact absurd rfl empty
      | cons a items =>
        obtain ⟨next, stepped, ran⟩ := run_cons_eq_ok.mp ran
        rw [List.forall_mem_cons] at valid
        have taken := List.length_pos_iff.mpr (nonempty a)
        rw [List.flatMap_cons, List.length_append] at enough
        exact ⟨a, items.flatMap wire, next, reads.read valid.1 _, stepped,
          (ih (by omega)).mpr ⟨items, valid.2, rfl, ran⟩⟩

/-- The results of a run over a list, one for each element. -/
theorem mapM_forall₂ {f : α → Except ε β} {values : List α} {results : List β}
    (mapped : values.mapM f = .ok results) :
    List.Forall₂ (fun a b => f a = .ok b) values results := by
  induction values generalizing results with
  | nil =>
    obtain rfl : [] = results := Except.ok.inj mapped
    exact .nil
  | cons a rest ih =>
    rw [List.mapM_cons] at mapped
    cases head : f a with
    | error e => rw [head] at mapped; contradiction
    | ok b =>
      cases tail : rest.mapM f with
      | error e => rw [head, tail] at mapped; contradiction
      | ok others =>
        rw [head, tail] at mapped
        obtain rfl : b :: others = results := Except.ok.inj mapped
        exact .cons head (ih tail)

theorem mapM_ok {f : α → Except ε β} {g : α → β} {values : List α}
    (each : ∀ a ∈ values, f a = .ok (g a)) : values.mapM f = .ok (values.map g) := by
  induction values with
  | nil => rfl
  | cons a rest ih =>
    rw [List.forall_mem_cons] at each
    rw [List.mapM_cons, each.1, ih each.2]
    rfl

theorem exists_mapM_ok {f : α → Except ε β} {values : List α}
    (each : ∀ a ∈ values, ∃ b, f a = .ok b) : ∃ results, values.mapM f = .ok results := by
  induction values with
  | nil => exact ⟨[], rfl⟩
  | cons a rest ih =>
    rw [List.forall_mem_cons] at each
    obtain ⟨⟨b, head⟩, others⟩ := each
    obtain ⟨results, tail⟩ := ih others
    rw [List.mapM_cons, head, tail]
    exact ⟨b :: results, rfl⟩

/-- Values that are each written and read back are so in a row. -/
theorem mapM_times {write : α → Except ε' Bytes} {d : Decoder ε α} {values : List α}
    (each : ∀ a ∈ values, ∃ image, write a = .ok image ∧ ∀ rest, d (image ++ rest) = .ok (a, rest)) :
    ∃ images, values.mapM write = .ok images ∧
      ∀ rest, d.times values.length (images.flatten ++ rest) = .ok (⟨values, rfl⟩, rest) := by
  induction values with
  | nil => exact ⟨[], rfl, fun rest => rfl⟩
  | cons a values ih =>
    rw [List.forall_mem_cons] at each
    obtain ⟨⟨image, written, read⟩, others⟩ := each
    obtain ⟨images, writtenAll, readAll⟩ := ih others
    refine ⟨image :: images, ?_, fun rest => ?_⟩
    · rw [List.mapM_cons, written, writtenAll]
      rfl
    · rw [List.flatten_cons, List.append_assoc]
      simp only [List.length_cons, Decoder.times, Decoder.bind_eq_ok, Decoder.pure_eq_ok]
      exact ⟨a, _, read _, ⟨values, rfl⟩, rest, readAll rest, rfl, rfl⟩

/-- What holds of everything `d` reads holds of all values in a row. -/
theorem forall_mem_times {d : Decoder ε α} {Holds : α → Prop}
    (each : ∀ bytes a rest, d bytes = .ok (a, rest) → Holds a)
    {values : { values : List α // values.length = n }} (read : d.times n bytes = .ok (values, rest)) :
    ∀ a ∈ values.val, Holds a := by
  induction n generalizing bytes with
  | zero =>
    obtain ⟨values, empty⟩ := values
    obtain rfl := List.eq_nil_of_length_eq_zero empty
    exact fun _ absent => absurd absent List.not_mem_nil
  | succ n ih =>
    simp only [Decoder.times, Decoder.bind_eq_ok, Decoder.pure_eq_ok] at read
    obtain ⟨a, _, head, others, _, tail, rfl, rfl⟩ := read
    exact List.forall_mem_cons.mpr ⟨each _ _ _ head, ih tail⟩

section Slots
variable {F : Type} [DecidableEq F] {Slot : F → Type} {step : σ → π → Except ε σ}
variable (put : ((f : F) → Slot f) → σ) {insert : (f : F) → Slot f → π → Except ε (Slot f)}
variable {items : F → List π} {slots target : (f : F) → Slot f}

/-- Steps that only see one slot of a record run as steps on that slot. -/
theorem run_slot {own : List π} {slot : Slot f}
    (dispatch : ∀ (slots : (f : F) → Slot f), ∀ item ∈ own, ∀ slot, insert f (slots f) item = .ok slot →
      step (put slots) item = .ok (put (Function.update slots f slot)))
    (ran : run (insert f) (slots f) own = .ok slot) :
    run step (put slots) own = .ok (put (Function.update slots f slot)) := by
  induction own generalizing slots with
  | nil =>
    obtain rfl := Except.ok.inj ran
    rw [Function.update_eq_self]
    rfl
  | cons item rest ih =>
    obtain ⟨next, head, tail⟩ := run_cons_eq_ok.mp ran
    rw [run_cons (dispatch slots item List.mem_cons_self next head)]
    have rerun : run (insert f) (Function.update slots f next f) rest = .ok slot := by
      rwa [Function.update_self]
    rw [ih (fun slots item member => dispatch slots item (List.mem_cons_of_mem _ member)) rerun,
      Function.update_idem]

/-- A record is filled slot by slot. -/
theorem run_slots {fields : List F} (nodup : fields.Nodup)
    (dispatch : ∀ (slots : (f : F) → Slot f) f, ∀ item ∈ items f, ∀ slot,
      insert f (slots f) item = .ok slot →
      step (put slots) item = .ok (put (Function.update slots f slot)))
    (fills : ∀ f ∈ fields, run (insert f) (slots f) (items f) = .ok (target f))
    (others : ∀ f, f ∉ fields → slots f = target f) :
    run step (put slots) (fields.flatMap items) = .ok (put target) := by
  induction fields generalizing slots with
  | nil =>
    obtain rfl : slots = target := funext fun f => others f List.not_mem_nil
    rfl
  | cons first rest ih =>
    rw [List.nodup_cons] at nodup
    rw [List.forall_mem_cons] at fills
    rw [List.flatMap_cons, run_append (run_slot put (fun slots => dispatch slots first) fills.1)]
    apply ih nodup.2
    · intro f member
      have other : f ≠ first := fun same => nodup.1 (same ▸ member)
      rw [Function.update_of_ne other]
      exact fills.2 f member
    · intro f absent
      by_cases same : f = first
      · subst same
        rw [Function.update_self]
      · rw [Function.update_of_ne same]
        exact others f (List.not_mem_cons_of_ne_of_not_mem same absent)

end Slots
section Keys
variable {step : σ → π → Except ε σ} (key : π → κ) (held : σ → κ → Prop) (Guarded : κ → Prop)
variable
  (takes : ∀ state item next, Guarded (key item) → step state item = .ok next →
    ¬ held state (key item) ∧ held next (key item))
  (keeps : ∀ state item next k, step state item = .ok next → held state k → held next k)
include takes keeps

theorem run_not_mem (guarded : Guarded k) (start : held state k)
    (ran : run step state items = .ok final) : k ∉ items.map key := by
  induction items generalizing state with
  | nil => exact List.not_mem_nil
  | cons item rest ih =>
    obtain ⟨next, head, tail⟩ := run_cons_eq_ok.mp ran
    rw [List.map_cons, List.mem_cons]
    rintro (rfl | member)
    · exact (takes _ _ _ guarded head).1 start
    · exact ih (keeps _ _ _ _ head start) tail member

/-- A key that takes a vacant place, which stays taken, is read at most once. -/
theorem run_not_duplicate (guarded : Guarded k) (ran : run step state items = .ok final) :
    ¬ (items.map key).Duplicate k := by
  induction items generalizing state with
  | nil => exact List.not_duplicate_nil k
  | cons item rest ih =>
    obtain ⟨next, head, tail⟩ := run_cons_eq_ok.mp ran
    rw [List.map_cons, List.duplicate_cons_iff]
    rintro (⟨rfl, member⟩ | again)
    · exact run_not_mem key held Guarded takes keeps guarded (takes _ _ _ guarded head).2 tail member
    · exact ih tail again

end Keys

/-- `BTreeMap`: a finite map that lists its entries in the order of their keys. -/
abbrev BTreeMap (κ α : Type) [Ord κ] : Type := Std.ExtTreeMap κ α compare

/-- `BTreeSet`. -/
abbrev BTreeSet (α : Type) [Ord α] : Type := Std.ExtTreeSet α compare

namespace BTreeMap
variable [Ord κ] [Std.TransOrd κ]

/-- `map.entry(key)`: fills a vacant entry, and fails on an occupied one. -/
def fillEntry (map : BTreeMap κ α) (key : κ) (value : Except ε α) (occupied : ε) :
    Except ε (BTreeMap κ α) :=
  if map.contains key then .error occupied else map.insert key <$> value

theorem fillEntry_eq_ok {map next : BTreeMap κ α} {value : Except ε α} :
    fillEntry map key value occupied = .ok next ↔
      key ∉ map ∧ ∃ a, value = .ok a ∧ next = map.insert key a := by
  rw [fillEntry, Std.ExtTreeMap.mem_iff_contains]
  cases map.contains key with
  | true => simp
  | false =>
    cases value with
    | error e => simp [Functor.map, Except.map]
    | ok a => simp [Functor.map, Except.map, eq_comm]

variable [Std.LawfulEqOrd κ]

theorem mem_insert {map : BTreeMap κ α} : other ∈ map.insert key value ↔ key = other ∨ other ∈ map := by
  rw [Std.ExtTreeMap.mem_insert, Std.LawfulEqCmp.compare_eq_iff_eq]

/-- Entries change nothing when they are inserted again. -/
theorem insertMany_again (map : BTreeMap κ α) (entries : List (κ × α)) :
    (map.insertMany entries).insertMany entries = map.insertMany entries := by
  classical
  refine Std.ExtTreeMap.ext_getElem? fun {key} => ?_
  rw [Std.ExtTreeMap.getElem?_insertMany_list, Std.ExtTreeMap.getElem?_insertMany_list,
    ← Option.or_assoc, Option.or_self]

/-- What holds of every entry still holds when an entry with the property is added. -/
theorem forall_mem_insert {map : BTreeMap κ α} {Holds : κ × α → Prop}
    (entries : ∀ entry ∈ map.toList, Holds entry) (added : Holds (key, value)) :
    ∀ entry ∈ (map.insert key value).toList, Holds entry := by
  rintro ⟨k, a⟩ member
  rw [Std.ExtTreeMap.mem_toList_iff_getElem?_eq_some, Std.ExtTreeMap.getElem?_insert] at member
  split at member
  · rename_i same
    obtain rfl := Std.LawfulEqCmp.eq_of_compare same
    obtain rfl := Option.some.inj member
    exact added
  · exact entries _ (Std.ExtTreeMap.mem_toList_iff_getElem?_eq_some.mpr member)

/-- Filling a slot from some entries of a map, where the others are there already,
restores the map. -/
theorem run_entries {step : σ → π → Except ε σ} {item : κ × α → π} {slot : BTreeMap κ α → σ}
    {target map : BTreeMap κ α} {entries : List (κ × α)}
    (fills : ∀ (map : BTreeMap κ α), ∀ entry ∈ entries, entry.1 ∉ map →
      step (slot map) (item entry) = .ok (slot (map.insert entry.1 entry.2)))
    (listed : ∀ entry ∈ entries, target[entry.1]? = some entry.2)
    (distinct : entries.Pairwise (fun a b => ¬ compare a.1 b.1 = .eq))
    (vacant : ∀ entry ∈ entries, entry.1 ∉ map)
    (others : ∀ k, k ∉ entries.map Prod.fst → map[k]? = target[k]?) :
    run step (slot map) (entries.map item) = .ok (slot target) := by
  induction entries generalizing map with
  | nil =>
    have same : map = target := Std.ExtTreeMap.ext_getElem? fun {k} => others k List.not_mem_nil
    rw [same]
    rfl
  | cons entry rest ih =>
    obtain ⟨k, a⟩ := entry
    simp only [List.forall_mem_cons] at listed vacant
    rw [List.pairwise_cons] at distinct
    rw [List.map_cons, run_cons (fills map (k, a) List.mem_cons_self vacant.1)]
    apply ih
    · exact fun map entry member => fills map entry (List.mem_cons_of_mem _ member)
    · exact listed.2
    · exact distinct.2
    · intro entry member present
      obtain same | present := Std.ExtTreeMap.mem_insert.mp present
      · exact distinct.1 entry member same
      · exact vacant.2 entry member present
    · intro k' other
      rw [Std.ExtTreeMap.getElem?_insert]
      split
      · rename_i same
        obtain rfl := Std.LawfulEqCmp.eq_of_compare same
        exact listed.1.symm
      · rename_i different
        apply others
        rw [List.map_cons, List.mem_cons]
        rintro (rfl | member)
        · exact different Std.ReflCmp.compare_self
        · exact other member

/-- A map is made up of its entries. -/
theorem ofList_toList (map : BTreeMap κ α) : Std.ExtTreeMap.ofList map.toList = map := by
  classical
  refine Std.ExtTreeMap.ext_getElem? fun {k} => ?_
  by_cases present : k ∈ map
  · have own := Std.ExtTreeMap.getElem?_eq_some_getElem present
    rw [own]
    exact Std.ExtTreeMap.getElem?_ofList_of_mem Std.ReflCmp.compare_self
      Std.ExtTreeMap.distinct_keys_toList (Std.ExtTreeMap.mem_toList_iff_getElem?_eq_some.mpr own)
  · have absent : k ∉ Std.ExtTreeMap.ofList map.toList := by
      rw [Std.ExtTreeMap.mem_ofList, Std.ExtTreeMap.map_fst_toList_eq_keys]
      simpa using present
    rw [Std.ExtTreeMap.getElem?_eq_none present, Std.ExtTreeMap.getElem?_eq_none absent]

/-- Entries with different keys fill an empty map one after the other. -/
theorem run_ofList {step : σ → π → Except ε σ} {item : κ × α → π} (slot : BTreeMap κ α → σ)
    {entries : List (κ × α)} (distinct : entries.Pairwise (fun a b => ¬ compare a.1 b.1 = .eq))
    (fills : ∀ (map : BTreeMap κ α), ∀ entry ∈ entries, entry.1 ∉ map →
      step (slot map) (item entry) = .ok (slot (map.insert entry.1 entry.2))) :
    run step (slot ∅) (entries.map item) = .ok (slot (.ofList entries)) := by
  apply run_entries fills
  · exact fun entry member =>
      Std.ExtTreeMap.getElem?_ofList_of_mem Std.ReflCmp.compare_self distinct member
  · exact distinct
  · exact fun entry _ => Std.ExtTreeMap.not_mem_empty
  · intro k other
    have absent : k ∉ Std.ExtTreeMap.ofList entries := by
      classical
      rw [Std.ExtTreeMap.mem_ofList]
      simpa using other
    rw [Std.ExtTreeMap.getElem?_empty, Std.ExtTreeMap.getElem?_eq_none absent]

theorem run_toList {step : σ → π → Except ε σ} {item : κ × α → π} (slot : BTreeMap κ α → σ)
    {target : BTreeMap κ α}
    (fills : ∀ (map : BTreeMap κ α), ∀ entry ∈ target.toList, entry.1 ∉ map →
      step (slot map) (item entry) = .ok (slot (map.insert entry.1 entry.2))) :
    run step (slot ∅) (target.toList.map item) = .ok (slot target) := by
  have filled := run_ofList slot Std.ExtTreeMap.distinct_keys_toList fills
  rwa [ofList_toList] at filled

end BTreeMap

/-- A vacant option is filled from its item, if it has one. -/
theorem run_option {step : σ → π → Except ε σ} {item : α → π} (slot : Option α → σ)
    {target : Option α} (fills : ∀ a ∈ target, step (slot none) (item a) = .ok (slot (some a))) :
    run step (slot none) (target.toList.map item) = .ok (slot target) := by
  cases target with
  | none => rfl
  | some a => exact run_cons_eq_ok.mpr ⟨_, fills a rfl, rfl⟩

end Litecoin.Wire
