import Litecoin.Script.Multisig
import Litecoin.Script.Template

/-! Counting signature checks (`count_sigops_internal` of `script/borrowed.rs`). -/
namespace Litecoin.Script
open Wire

namespace Opcode

def checksigverify : Opcode := ⟨0xad⟩

def isChecksig (opcode : Opcode) : Bool := opcode = checksig || opcode = checksigverify

def isCheckmultisig (opcode : Opcode) : Bool := opcode = checkmultisig || opcode = checkmultisigverify

theorem not_isCheckmultisig {opcode : Opcode} (single : opcode.isChecksig) :
    opcode.isCheckmultisig = false := by
  simp only [isChecksig, Bool.or_eq_true, decide_eq_true_eq] at single
  rcases single with rfl | rfl <;> rfl

theorem decodePushnum_of_check {opcode : Opcode} (check : opcode.isChecksig || opcode.isCheckmultisig) :
    opcode.decodePushnum = none := by
  simp only [isChecksig, isCheckmultisig, Bool.or_eq_true, decide_eq_true_eq] at check
  rcases check with (rfl | rfl) | rfl | rfl <;> rfl

end Opcode

/-- The loop of `count_sigops_internal`. -/
def countSigopsLoop (accurate : Bool) : (n : Nat) → (pushnumCache : Option UInt8) → List Item → Nat
  | n, _, [] => n
  | n, pushnumCache, .ok (.op opcode) :: rest =>
    if opcode.isChecksig then countSigopsLoop accurate (n + 1) pushnumCache rest
    else if opcode.isCheckmultisig then
      match accurate, pushnumCache with
      | true, some pushnum => countSigopsLoop accurate (n + pushnum.toNat) pushnumCache rest
      | _, _ => countSigopsLoop accurate (n + 20) pushnumCache rest
    else countSigopsLoop accurate n opcode.decodePushnum rest
  | n, _, .ok (.pushBytes _) :: rest => countSigopsLoop accurate n none rest
  | n, _, .error _ :: _ => n

namespace ScriptBuf

def countSigopsInternal (script : ScriptBuf) (accurate : Bool) : Nat :=
  countSigopsLoop accurate 0 none script.instructions

def countSigops (script : ScriptBuf) : Nat := script.countSigopsInternal true

def countSigopsLegacy (script : ScriptBuf) : Nat := script.countSigopsInternal false

def lastPushdata (script : ScriptBuf) : Option PushBytes :=
  match script.instructions.getLast? with
  | some (.ok (.pushBytes bytes)) => some bytes
  | _ => none

def isPushOnly (script : ScriptBuf) : Bool :=
  script.instructions.all fun
    | .error _ => false
    | .ok (.pushBytes _) => true
    | .ok (.op op) => op.toU8 ≤ 0x60

end ScriptBuf

/-- The instructions before the first error. -/
def parsed : List Item → List Instruction
  | .ok instruction :: rest => instruction :: parsed rest
  | _ => []

/-- The number that an instruction pushes by its opcode alone. -/
def numberOf : Option Instruction → Option UInt8
  | some (.op opcode) => opcode.decodePushnum
  | _ => none

/-- The signature checks of an instruction, which depend on the one right before. -/
def consensusWeight (accurate : Bool) (previous : Option Instruction) : Instruction → Nat
  | .pushBytes _ => 0
  | .op opcode =>
    if opcode.isChecksig then 1
    else if opcode.isCheckmultisig then
      if accurate then ((numberOf previous).map UInt8.toNat).getD 20 else 20
    else 0

def consensusSigops (accurate : Bool) : (previous : Option Instruction) → List Instruction → Nat
  | _, [] => 0
  | previous, instruction :: rest =>
    consensusWeight accurate previous instruction + consensusSigops accurate (some instruction) rest

def ScriptBuf.consensusSigops (script : ScriptBuf) (accurate : Bool) : Nat :=
  Script.consensusSigops accurate none (parsed script.instructions)

def Instruction.isCheck : Instruction → Bool
  | .op opcode => opcode.isChecksig || opcode.isCheckmultisig
  | .pushBytes _ => false

/-- A multisig check behind nothing but checks, at least one of them unless `stale`. -/
def Follows (stale : Bool) (instructions : List Instruction) : Prop :=
  ∃ (checks : List Instruction) (opcode : Opcode) (rest : List Instruction),
    instructions = checks ++ .op opcode :: rest ∧ (∀ check ∈ checks, check.isCheck) ∧
      opcode.isCheckmultisig ∧ (stale = false → checks ≠ [])

/-- A number, checks, and a multisig check that is not the first of them. -/
def Shadowed (instructions : List Instruction) : Prop :=
  ∃ (before : List Instruction) (opcode : Opcode) (rest : List Instruction),
    instructions = before ++ .op opcode :: rest ∧ opcode.decodePushnum ≠ none ∧ Follows false rest

section
variable {stale accurate : Bool} {instruction : Instruction} {rest : List Instruction}

theorem not_follows_nil : ¬ Follows stale [] := by
  rintro ⟨checks, opcode, rest, shape, -⟩
  simp at shape

theorem follows_cons : Follows stale (instruction :: rest) ↔
    (stale = true ∧ ∃ opcode, instruction = .op opcode ∧ opcode.isCheckmultisig) ∨
      (instruction.isCheck ∧ Follows true rest) := by
  constructor
  · rintro ⟨checks, opcode, after, shape, all, multisig, some⟩
    cases checks with
    | nil =>
      obtain ⟨rfl, rfl⟩ := List.cons.inj shape
      refine .inl ⟨?_, opcode, rfl, multisig⟩
      cases stale with
      | false => exact absurd rfl (some rfl)
      | true => rfl
    | cons check checks =>
      obtain ⟨rfl, rfl⟩ := List.cons.inj shape
      obtain ⟨first, others⟩ := List.forall_mem_cons.mp all
      exact .inr ⟨first, checks, opcode, after, rfl, others, multisig, nofun⟩
  · rintro (⟨rfl, opcode, rfl, multisig⟩ | ⟨check, checks, opcode, after, rfl, all, multisig, -⟩)
    · exact ⟨[], opcode, rest, rfl, nofun, multisig, nofun⟩
    · exact ⟨instruction :: checks, opcode, after, rfl, List.forall_mem_cons.mpr ⟨check, all⟩, multisig,
        fun _ => List.cons_ne_nil _ _⟩

theorem not_shadowed_nil : ¬ Shadowed [] := by
  rintro ⟨before, opcode, rest, shape, -⟩
  simp at shape

theorem shadowed_cons : Shadowed (instruction :: rest) ↔
    (numberOf (some instruction) ≠ none ∧ Follows false rest) ∨ Shadowed rest := by
  constructor
  · rintro ⟨before, opcode, after, shape, number, follows⟩
    cases before with
    | nil =>
      obtain ⟨rfl, rfl⟩ := List.cons.inj shape
      exact .inl ⟨number, follows⟩
    | cons first before =>
      obtain ⟨rfl, rfl⟩ := List.cons.inj shape
      exact .inr ⟨before, opcode, after, rfl, number, follows⟩
  · rintro (⟨number, follows⟩ | ⟨before, opcode, after, rfl, number, follows⟩)
    · rcases instruction with bytes | opcode
      · exact absurd rfl number
      · exact ⟨[], opcode, rest, rfl, number, follows⟩
    · exact ⟨instruction :: before, opcode, after, rfl, number, follows⟩

/-- What the loop adds for an opcode. -/
def addedFor (accurate : Bool) (cache : Option UInt8) (opcode : Opcode) : Nat :=
  if opcode.isChecksig then 1
  else if opcode.isCheckmultisig then
    if accurate then (cache.map UInt8.toNat).getD 20 else 20
  else 0

/-- Checks leave the cache as it is. -/
def cacheAfter (cache : Option UInt8) (opcode : Opcode) : Option UInt8 :=
  if opcode.isChecksig || opcode.isCheckmultisig then cache else opcode.decodePushnum

theorem countSigopsLoop_op (n : Nat) (cache : Option UInt8) (opcode : Opcode) (items : List Item) :
    countSigopsLoop accurate n cache (.ok (.op opcode) :: items) =
      countSigopsLoop accurate (n + addedFor accurate cache opcode)
        (cacheAfter cache opcode) items := by
  rw [countSigopsLoop.eq_def, addedFor, cacheAfter]
  dsimp only
  cases opcode.isChecksig with
  | true => rfl
  | false =>
    cases opcode.isCheckmultisig with
    | false => rfl
    | true => cases accurate <;> cases cache <;> rfl

/-- The cache is the number pushed by the instruction before, unless that was a check. -/
def Tracks (cache : Option UInt8) (previous : Option Instruction) (stale : Bool) : Prop :=
  numberOf previous = if stale then none else cache

theorem cacheAfter_le {cache : Option UInt8} (small : ∀ number ∈ cache, number.toNat ≤ 16)
    (opcode : Opcode) :
    ∀ number ∈ cacheAfter cache opcode, number.toNat ≤ 16 := by
  rw [cacheAfter]
  split_ifs
  · exact small
  · intro number decoded
    exact (Opcode.decodePushnum_eq_some.mp decoded).2.1

theorem tracks_cacheAfter (cache : Option UInt8) (opcode : Opcode) :
    Tracks (cacheAfter cache opcode) (some (.op opcode))
      (opcode.isChecksig || opcode.isCheckmultisig) := by
  rw [Tracks, cacheAfter, numberOf]
  split_ifs with check
  · exact opcode.decodePushnum_of_check check
  · rfl

/-- An accurate count falls short of the definition by what a shadowed check is short of 20. -/
theorem countSigopsLoop_accurate {cache : Option UInt8} {previous : Option Instruction}
    (tracks : Tracks cache previous stale) (small : ∀ number ∈ cache, number.toNat ≤ 16) (n : Nat)
    (items : List Item) :
    countSigopsLoop true n cache items ≤ n + consensusSigops true previous (parsed items) ∧
    (countSigopsLoop true n cache items = n + consensusSigops true previous (parsed items) ↔
      ¬ (cache ≠ none ∧ Follows stale (parsed items)) ∧ ¬ Shadowed (parsed items)) := by
  induction items generalizing n cache previous stale with
  | nil => simp [countSigopsLoop, parsed, consensusSigops, not_follows_nil, not_shadowed_nil]
  | cons item items ih =>
    rcases item with e | bytes | opcode
    · simp [countSigopsLoop, parsed, consensusSigops, not_follows_nil, not_shadowed_nil]
    · have tracks : Tracks none (some (.pushBytes bytes)) false := rfl
      have rest := ih tracks nofun n
      rw [countSigopsLoop, parsed, consensusSigops, consensusWeight, Nat.zero_add, follows_cons,
        shadowed_cons]
      simpa [numberOf, Instruction.isCheck] using rest
    · obtain ⟨le, exact⟩ := ih (tracks_cacheAfter cache opcode) (cacheAfter_le small opcode)
        (n + addedFor true cache opcode)
      have number := tracks_cacheAfter cache opcode
      rw [Tracks] at tracks number
      rw [countSigopsLoop_op, parsed, consensusSigops, consensusWeight, follows_cons, shadowed_cons,
        number, Instruction.isCheck]
      by_cases single : opcode.isChecksig
      · simp only [addedFor, cacheAfter, single, if_true, Bool.true_or] at le exact ⊢
        rw [← Nat.add_assoc]
        simpa [Opcode.not_isCheckmultisig single] using And.intro le exact
      by_cases multisig : opcode.isCheckmultisig
      · cases cache with
        | none =>
          have before : numberOf previous = none := by rw [tracks, ite_self]
          simp only [addedFor, cacheAfter, single, multisig, before, Option.map_none,
            Option.getD_none] at le exact ⊢
          rw [← Nat.add_assoc]
          simpa using And.intro le exact
        | some pushnum =>
          cases stale with
          | false =>
            have before : numberOf previous = some pushnum := tracks
            simp only [addedFor, cacheAfter, single, multisig, before, Option.map_some,
              Option.getD_some] at le exact ⊢
            rw [← Nat.add_assoc]
            simpa using And.intro le exact
          | true =>
            -- the number was pushed before an earlier check
            have before : numberOf previous = none := tracks
            have fewer := small pushnum rfl
            have added : addedFor true (some pushnum) opcode = pushnum.toNat := by simp [addedFor,
              single, multisig]
            have below : countSigopsLoop true (n + addedFor true (some pushnum) opcode)
                (cacheAfter (some pushnum) opcode) items <
                  n + (20 + consensusSigops true (some (.op opcode)) (parsed items)) := by
              rw [added] at le ⊢
              omega
            simp only [single, multisig, before]
            refine ⟨below.le, fun same => absurd same below.ne, fun fresh => ?_⟩
            exact absurd ⟨Option.some_ne_none _, .inl ⟨trivial, opcode, rfl, multisig⟩⟩ fresh.1
      · simp only [addedFor, cacheAfter, single, multisig] at le exact ⊢
        simpa [not_or, multisig] using And.intro le exact

theorem countSigopsLoop_legacy (n : Nat) (cache : Option UInt8) (previous : Option Instruction)
    (items : List Item) :
    countSigopsLoop false n cache items = n + consensusSigops false previous (parsed items) := by
  induction items generalizing n cache previous with
  | nil => rfl
  | cons item items ih =>
    rcases item with e | bytes | opcode
    · rfl
    · rw [countSigopsLoop, ih n none (some (.pushBytes bytes)), parsed, consensusSigops,
        consensusWeight,
        Nat.zero_add]
    · rw [countSigopsLoop_op, ih _ _ (some (.op opcode)), parsed, consensusSigops, Nat.add_assoc]
      rfl

theorem numberOf_le (previous : Option Instruction) : ∀ number ∈ numberOf previous,
    number.toNat ≤ 16 := by
  intro number found
  rcases previous with _ | bytes | opcode
  · cases found
  · cases found
  · exact (Opcode.decodePushnum_eq_some.mp found).2.1

theorem consensusSigops_le (previous : Option Instruction) (instructions : List Instruction) :
    consensusSigops true previous instructions ≤ consensusSigops false previous instructions := by
  induction instructions generalizing previous with
  | nil => exact Nat.le_refl _
  | cons instruction rest ih =>
    refine Nat.add_le_add ?_ (ih _)
    have few : ((numberOf previous).map UInt8.toNat).getD 20 ≤ 20 := by
      cases found : numberOf previous with
      | none => exact Nat.le_refl _
      | some number => exact Nat.le_trans (numberOf_le previous number found) (by decide)
    rcases instruction with bytes | opcode
    · exact Nat.le_refl _
    · simp only [consensusWeight, if_true, Bool.false_eq_true, if_false]
      split_ifs
      · exact Nat.le_refl _
      · exact few
      · exact Nat.le_refl _

end

namespace ScriptBuf

/-- Some multisig check comes after a number with other checks between them. -/
def Shadowed (script : ScriptBuf) : Prop := Script.Shadowed (parsed script.instructions)

theorem countSigops_spec (script : ScriptBuf) : script.countSigops ≤ script.consensusSigops true ∧
    (script.countSigops = script.consensusSigops true ↔ ¬ script.Shadowed) := by
  have tracks : Tracks none none false := rfl
  have counted := countSigopsLoop_accurate tracks nofun 0 script.instructions
  simpa [countSigops, countSigopsInternal, ScriptBuf.consensusSigops, Shadowed] using counted

theorem countSigopsLegacy_eq (script : ScriptBuf) : script.countSigopsLegacy =
    script.consensusSigops false := by
  rw [countSigopsLegacy, countSigopsInternal, countSigopsLoop_legacy 0 none none, Nat.zero_add]
  rfl

theorem countSigops_le_legacy (script : ScriptBuf) : script.countSigops ≤ script.countSigopsLegacy := by
  rw [countSigopsLegacy_eq]
  exact script.countSigops_spec.1.trans (consensusSigops_le none _)

end ScriptBuf
end Litecoin.Script
