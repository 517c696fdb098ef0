import Litecoin.Script.RoundTrip

/-! Instructions with their positions (`InstructionIndices` of `script/instruction.rs`). -/
namespace Litecoin.Script
open Wire

namespace Instructions

/-- One call of `next`, with where the iterator stands then. -/
def pull (self : Instructions) : Option (Except Error Instruction) × Instructions :=
  match self.next with
  | none => (none, self)
  | some (item, after) => (some item, after)

/-- `Iterator::advance_by`, which reports whether there were enough items. -/
def advanceBy : Nat → Instructions → Bool × Instructions
  | 0, self => (true, self)
  | n + 1, self => match self.next with
    | none => (false, self)
    | some (_, after) => advanceBy n after

/-- `Iterator::nth`, which `Instructions` does not override. -/
def nth (self : Instructions) (n : Nat) : Option (Except Error Instruction) × Instructions :=
  match advanceBy n self with
  | (false, after) => (none, after)
  | (true, after) => after.pull

end Instructions

structure InstructionIndices where
  instructions : Instructions
  pos : Nat
deriving DecidableEq

namespace InstructionIndices

/-- An item: an instruction with its position, or an error without one. -/
abbrev Item : Type := Except Error (Nat × Instruction)

def fromInstructions (instructions : Instructions) : InstructionIndices := ⟨instructions, 0⟩

def remainingBytes (self : InstructionIndices) : Nat := self.instructions.data.length

def nextWith (self : InstructionIndices)
    (nextFn : Instructions → Option (Except Error Instruction) × Instructions) :
    Option Item × InstructionIndices :=
  let prevRemaining := self.remainingBytes
  let prevPos := self.pos
  match nextFn self.instructions with
  | (none, instructions) => (none, { self with instructions })
  | (some instruction, instructions) =>
    let self := { self with instructions }
    let consumed := prevRemaining - self.remainingBytes
    (some (instruction.map (prevPos, ·)), { self with pos := self.pos + consumed })

def next (self : InstructionIndices) : Option Item × InstructionIndices :=
  self.nextWith Instructions.pull

def nth (self : InstructionIndices) (n : Nat) : Option Item × InstructionIndices :=
  self.nextWith (·.nth n)

/-- What the last of `n + 1` calls of `next` returns. -/
def lastOf : (n : Nat) → InstructionIndices → Option Item
  | 0, self => self.next.1
  | n + 1, self => lastOf n self.next.2

/-- Everything an iterator yields within `fuel` calls. -/
def drain : (fuel : Nat) → InstructionIndices → List Item
  | 0, _ => []
  | fuel + 1, self => match self.next with
    | (none, _) => []
    | (some item, after) => item :: after.drain fuel

def collect (self : InstructionIndices) : List Item := self.drain self.remainingBytes

end InstructionIndices

/-- `Script::instruction_indices` and `instruction_indices_minimal`. -/
def ScriptBuf.instructionIndices (script : ScriptBuf) (enforceMinimal : Bool) : InstructionIndices :=
  .fromInstructions ⟨script, enforceMinimal⟩

/-- The states of an iterator over a script. -/
inductive Reached (script : ScriptBuf) (enforceMinimal : Bool) : InstructionIndices → Prop where
  | start : Reached script enforceMinimal (script.instructionIndices enforceMinimal)
  | next {self : InstructionIndices} : Reached script enforceMinimal self →
      Reached script enforceMinimal self.next.2
  | nth {self : InstructionIndices} (n : Nat) : Reached script enforceMinimal self →
      Reached script enforceMinimal (self.nth n).2

namespace Instructions
variable {self after : Instructions}

theorem next_eq_none : self.next = none ↔ self.data = [] := by
  obtain ⟨data, enforceMinimal⟩ := self
  cases data with
  | nil => exact ⟨fun _ => rfl, fun _ => rfl⟩
  | cons byte data => simp [next_cons]

theorem collect_of_nil (nothing : self.data = []) : self.collect = [] := by
  rw [collect, nothing]
  rfl

/-- `nth` reads the items in order. -/
theorem nth_eq (self : Instructions) (n : Nat) : (self.nth n).1 = self.collect[n]? := by
  rw [nth]
  induction n generalizing self with
  | zero =>
    rw [advanceBy]
    dsimp only
    rw [pull]
    cases read : self.next with
    | none => rw [collect_of_nil (next_eq_none.mp read)]; rfl
    | some step => rw [collect_of_next read]; rfl
  | succ n ih =>
    rw [advanceBy]
    cases read : self.next with
    | none => rw [collect_of_nil (next_eq_none.mp read)]; rfl
    | some step =>
      rw [collect_of_next read, List.getElem?_cons_succ]
      exact ih step.2

theorem length_drain_le (fuel : Nat) (self : Instructions) : (self.drain fuel).length ≤ fuel := by
  induction fuel generalizing self with
  | zero => exact Nat.le_refl _
  | succ fuel ih =>
    rw [drain]
    split
    · exact Nat.zero_le _
    · exact Nat.succ_le_succ (ih _)

theorem collect_suffix {result : Except Error Instruction} (read : self.next = some (result, after)) :
    after.collect <:+ self.collect := by
  rw [collect_of_next read]
  exact List.suffix_cons _ _

theorem advanceBy_suffix (self : Instructions) (n : Nat) :
    (self.advanceBy n).2.collect <:+ self.collect := by
  induction n generalizing self with
  | zero => exact List.suffix_rfl
  | succ n ih =>
    rw [advanceBy]
    split
    · exact List.suffix_rfl
    · next read => exact (ih _).trans (collect_suffix read)

theorem pull_suffix (self : Instructions) : self.pull.2.collect <:+ self.collect := by
  rw [pull]
  split
  · exact List.suffix_rfl
  · next read => exact collect_suffix read

theorem nth_suffix (self : Instructions) (n : Nat) : (self.nth n).2.collect <:+ self.collect := by
  have advanced := self.advanceBy_suffix n
  rw [nth]
  split
  · next state =>
    rw [state] at advanced
    exact advanced
  · next after state =>
    rw [state] at advanced
    exact after.pull_suffix.trans advanced

end Instructions

namespace InstructionIndices
variable {self after : InstructionIndices}

/-- What one step does: nothing at the end, else an item, and the position moves with the script. -/
theorem next_cases (self : InstructionIndices) :
    (self.instructions.next = none ∧ self.next = (none, self)) ∨
    ∃ result after, self.next = (some (Except.map (self.pos, ·) result), after) ∧
      self.instructions.next = some (result, after.instructions) ∧
      after.remainingBytes < self.remainingBytes ∧
      after.pos = self.pos + (self.remainingBytes - after.remainingBytes) := by
  cases read : self.instructions.next with
  | none =>
    refine .inl ⟨rfl, ?_⟩
    rw [next, nextWith, Instructions.pull, read]
  | some step =>
    refine .inr ⟨step.1, ⟨step.2, self.pos + (self.remainingBytes - step.2.data.length)⟩, ?_, rfl,
      Instructions.next_shorter read, rfl⟩
    rw [next, nextWith, Instructions.pull, read]
    rfl

theorem drain_of_none (ended : self.instructions.next = none) (fuel : Nat) : self.drain fuel = [] := by
  cases fuel with
  | zero => rfl
  | succ fuel => rw [drain, next, nextWith, Instructions.pull, ended]

theorem drain_eq_drain {fuel other : Nat} (enough : self.remainingBytes ≤ fuel)
    (also : self.remainingBytes ≤ other) : self.drain fuel = self.drain other := by
  induction fuel generalizing self other with
  | zero =>
    have ended := Instructions.next_eq_none.mpr (List.length_eq_zero_iff.mp (Nat.le_zero.mp enough))
    rw [drain_of_none ended, drain_of_none ended]
  | succ fuel ih =>
    rcases self.next_cases with ⟨ended, -⟩ | ⟨result, after, step, -, less, -⟩
    · rw [drain_of_none ended, drain_of_none ended]
    · cases other with
      | zero => omega
      | succ other =>
        rw [drain, drain, step]
        exact congrArg _ (ih (by omega) (by omega))

theorem collect_of_none (ended : self.instructions.next = none) : self.collect = [] :=
  drain_of_none ended _

theorem collect_of_some {item : Item} (step : self.next = (some item, after))
    (less : after.remainingBytes < self.remainingBytes) : self.collect = item :: after.collect := by
  obtain ⟨fuel, size⟩ := Nat.exists_eq_add_of_lt less
  rw [collect, size, drain, step]
  exact congrArg _ (drain_eq_drain (by omega) (Nat.le_refl _))

/-- Calls of `next` yield the items in order, and nothing after the last. -/
theorem lastOf_eq (self : InstructionIndices) (n : Nat) : self.lastOf n = self.collect[n]? := by
  induction n generalizing self with
  | zero =>
    rw [lastOf]
    rcases self.next_cases with ⟨ended, same⟩ | ⟨result, after, step, -, less, -⟩
    · rw [collect_of_none ended, same]
      rfl
    · rw [collect_of_some step less, step]
      rfl
  | succ n ih =>
    rw [lastOf, ih]
    rcases self.next_cases with ⟨ended, same⟩ | ⟨result, after, step, -, less, -⟩
    · rw [same, collect_of_none ended]
      rfl
    · rw [collect_of_some step less, step, List.getElem?_cons_succ]

/-- Without their positions, the items are the instructions. -/
theorem map_collect (self : InstructionIndices) :
    self.collect.map (Except.map Prod.snd) = self.instructions.collect := by
  induction size : self.remainingBytes using Nat.strong_induction_on generalizing self with
  | h size ih =>
    subst size
    rcases self.next_cases with ⟨ended, -⟩ | ⟨result, after, step, read, less, -⟩
    · rw [collect_of_none ended, Instructions.collect_of_nil (Instructions.next_eq_none.mp ended)]
      rfl
    · have item : Except.map Prod.snd (Except.map (self.pos, ·) result) = result := by
        cases result <;> rfl
      rw [collect_of_some step less, List.map_cons, item, Instructions.collect_of_next read,
        ih _ less _ rfl]

/-- What `nth` makes of an item: it has the position from before the items that it skips. -/
theorem nth_eq (self : InstructionIndices) (n : Nat) :
    (self.nth n).1 = (self.instructions.collect[n]?).map (Except.map (self.pos, ·)) := by
  rw [← Instructions.nth_eq, nth, nextWith]
  split
  · next read => rw [read]; rfl
  · next read => rw [read]; rfl

/-- Positions go forward from the one before the first item. -/
theorem pos_le {n : Nat} {entry : Nat × Instruction} (found : self.collect[n]? = some (.ok entry)) :
    self.pos ≤ entry.1 ∧ (self.pos = entry.1 ↔ n = 0) := by
  induction n generalizing self with
  | zero =>
    rw [← lastOf_eq, lastOf] at found
    rcases self.next_cases with ⟨-, same⟩ | ⟨result, after, step, -⟩
    · rw [same] at found
      cases found
    · rw [step] at found
      cases result with
      | error e => cases found
      | ok instruction =>
        cases found
        exact ⟨Nat.le_refl _, fun _ => rfl, fun _ => rfl⟩
  | succ n ih =>
    rcases self.next_cases with ⟨ended, -⟩ | ⟨result, after, step, -, less, pos⟩
    · rw [collect_of_none ended] at found
      cases found
    · rw [collect_of_some step less, List.getElem?_cons_succ] at found
      obtain ⟨beyond, -⟩ := ih found
      omega

/-- `nth` is as many calls of `next` exactly when it skips nothing or yields no instruction. -/
theorem nth_eq_lastOf_iff (self : InstructionIndices) (n : Nat) : (self.nth n).1 = self.lastOf n ↔
    n = 0 ∨ ¬ ∃ instruction, self.instructions.collect[n]? = some (.ok instruction) := by
  rw [nth_eq, lastOf_eq, ← map_collect, List.getElem?_map]
  cases found : self.collect[n]? with
  | none => simp
  | some item =>
    cases item with
    | error e => simp [Except.map]
    | ok entry =>
      rw [← (pos_le found).2]
      simp [Except.map, Prod.ext_iff]

/-- A state whose position is where its instructions stand in the script. -/
structure At (script : ScriptBuf) (enforceMinimal : Bool) (state : InstructionIndices) : Prop where
  instructions : state.instructions = ⟨script.drop state.pos, enforceMinimal⟩
  within : state.pos ≤ script.length

theorem At.next {script : ScriptBuf} {enforceMinimal : Bool} (located : self.At script enforceMinimal)
    {result : Except Error Instruction} (read : self.instructions.next = some
      (result, after.instructions))
    (pos : after.pos = self.pos + (self.remainingBytes - after.remainingBytes)) :
    after.At script enforceMinimal := by
  obtain ⟨instructions, within⟩ := located
  obtain ⟨byte, data, shape, suffix, minimal, -⟩ := Instructions.next_step read
  have size : self.remainingBytes = script.length - self.pos := by
    rw [remainingBytes, instructions, List.length_drop]
  have later : after.instructions.data <:+ script.drop self.pos := by
    have whole : byte :: data = script.drop self.pos := by rw [← shape, instructions]
    exact whole ▸ suffix.trans (List.suffix_cons byte data)
  have rest : after.instructions.data = script.drop after.pos := by
    rw [List.suffix_iff_eq_drop.mp later, List.drop_drop, pos, size, List.length_drop]
    rfl
  have same : after.instructions.enforceMinimal = enforceMinimal := minimal.trans (by rw [instructions])
  exact ⟨by rw [← rest, ← same], by rw [pos, size]; omega⟩

end InstructionIndices

/-- The items of a script: instructions at increasing positions from 0, each what iterating from its
position yields first, then at most one error. -/
structure Positions (script : ScriptBuf) (enforceMinimal : Bool) (start : Nat)
    (items : List InstructionIndices.Item) (read : List (Nat × Instruction)) (stop : Option Error) :
    Prop where
  shape : items = read.map .ok ++ stop.toList.map .error
  first : ∀ entry ∈ read.head?, entry.1 = start
  increasing : (read.map Prod.fst).Pairwise (· < ·)
  located : ∀ entry ∈ read,
    (Instructions.collect ⟨script.drop entry.1, enforceMinimal⟩).head? = some (.ok entry.2)

namespace InstructionIndices
variable {self after : InstructionIndices}

theorem At.positions {script : ScriptBuf} {enforceMinimal : Bool}
    (located : self.At script enforceMinimal) :
    ∃ read stop, Positions script enforceMinimal self.pos self.collect read stop := by
  induction size : self.remainingBytes using Nat.strong_induction_on generalizing self with
  | h size ih =>
    subst size
    rcases self.next_cases with ⟨ended, -⟩ | ⟨result, after, step, read, less, pos⟩
    · rw [collect_of_none ended]
      exact ⟨[], none, rfl, nofun, List.Pairwise.nil, nofun⟩
    · rw [collect_of_some step less]
      cases result with
      | error e =>
        -- an error ends the iteration
        obtain ⟨byte, data, -, step⟩ := Instructions.next_step read
        have ended := Instructions.next_eq_none.mpr (step.killed e rfl)
        rw [collect_of_none ended]
        exact ⟨[], some e, rfl, nofun, List.Pairwise.nil, nofun⟩
      | ok instruction =>
        obtain ⟨entries, stop, shape, first, increasing, heads⟩ := ih _ less (located.next read pos) rfl
        refine ⟨(self.pos, instruction) :: entries, stop, by rw [shape]; rfl, by simp, ?_, ?_⟩
        · refine List.Pairwise.cons (fun p member => ?_) increasing
          obtain ⟨entry, listed, rfl⟩ := List.mem_map.mp member
          have yielded : .ok entry ∈ after.collect := by
            rw [shape]
            exact List.mem_append_left _ (List.mem_map_of_mem listed)
          obtain ⟨n, found⟩ := List.mem_iff_getElem?.mp yielded
          obtain ⟨beyond, -⟩ := pos_le found
          omega
        · refine List.forall_mem_cons.mpr ⟨?_, heads⟩
          rw [← located.instructions, Instructions.collect_of_next read]
          rfl

theorem length_collect_le (self : InstructionIndices) : self.collect.length ≤ self.remainingBytes := by
  rw [← List.length_map (f := Except.map Prod.snd), map_collect]
  exact Instructions.length_drain_le _ _

theorem next_suffix (self : InstructionIndices) :
    self.next.2.instructions.collect <:+ self.instructions.collect := by
  rcases self.next_cases with ⟨-, same⟩ | ⟨result, after, step, read, -⟩
  · simp only [same, List.suffix_rfl]
  · rw [step]
    exact Instructions.collect_suffix read

theorem nth_suffix (self : InstructionIndices) (n : Nat) :
    (self.nth n).2.instructions.collect <:+ self.instructions.collect := by
  have advanced := self.instructions.nth_suffix n
  rw [nth, nextWith]
  split
  · next read =>
    rw [read] at advanced
    exact advanced
  · next read =>
    rw [read] at advanced
    exact advanced

end InstructionIndices

/-- Calls only take instructions from the front. -/
theorem Reached.suffix {script : ScriptBuf} {enforceMinimal : Bool} {state : InstructionIndices}
    (reached : Reached script enforceMinimal state) :
    state.instructions.collect <:+ Instructions.collect ⟨script, enforceMinimal⟩ := by
  induction reached with
  | start => exact List.suffix_rfl
  | @next state _ ih => exact state.next_suffix.trans ih
  | @nth state n _ ih => exact (state.nth_suffix n).trans ih

theorem getElem?_of_suffix {l₁ l₂ : List α} (suffix : l₁ <:+ l₂) {n : Nat} {a : α}
    (found : l₁[n]? = some a) : ∃ m, n ≤ m ∧ l₂[m]? = some a := by
  obtain ⟨front, rfl⟩ := suffix
  refine ⟨front.length + n, Nat.le_add_left _ _, ?_⟩
  rwa [List.getElem?_append_right (Nat.le_add_right _ _), Nat.add_sub_cancel_left]

/-- Iterating by `next` gives every instruction its position. A call of `nth` gives an instruction the
position of the first one that it skips, so it agrees with calls of `next` only where it skips nothing. -/
theorem instructionIndices_spec (script : ScriptBuf) (enforceMinimal : Bool) :
    (∃ read stop, Positions script enforceMinimal 0
      (script.instructionIndices enforceMinimal).collect read stop) ∧
    (∀ n, (script.instructionIndices enforceMinimal).lastOf n =
      (script.instructionIndices enforceMinimal).collect[n]?) ∧
    (script.instructionIndices enforceMinimal).collect.length ≤ script.length ∧
    (∀ (state : InstructionIndices) (n : Nat), (state.nth n).1 = state.lastOf n ↔
      n = 0 ∨ ¬ ∃ instruction, state.instructions.collect[n]? = some (.ok instruction)) ∧
    ((∀ state, Reached script enforceMinimal state → ∀ n, (state.nth n).1 = state.lastOf n) ↔
      ∀ n, n = 0 ∨ ¬ ∃ instruction,
        (Instructions.collect ⟨script, enforceMinimal⟩)[n]? = some (.ok instruction)) := by
  have start : (script.instructionIndices enforceMinimal).At script enforceMinimal :=
    ⟨rfl, Nat.zero_le _⟩
  refine ⟨start.positions, InstructionIndices.lastOf_eq _, InstructionIndices.length_collect_le _,
    InstructionIndices.nth_eq_lastOf_iff, ?_⟩
  constructor
  · intro agree n
    exact (InstructionIndices.nth_eq_lastOf_iff _ n).mp (agree _ .start n)
  · intro few state reached n
    refine (state.nth_eq_lastOf_iff n).mpr ?_
    by_contra skips
    obtain ⟨skipped, instruction, found⟩ := by simpa using skips
    obtain ⟨m, later, found⟩ := getElem?_of_suffix reached.suffix found
    exact (few m).elim (by omega) fun none => none ⟨instruction, found⟩

/-- The second of two instructions comes with the position of the first. -/
theorem nth_skips :
    ¬ ∀ state, Reached [0x51, 0x52] false state → ∀ n, (state.nth n).1 = state.lastOf n := by
  intro agree
  have same := agree _ .start 1
  revert same
  decide

end Litecoin.Script
