import Litecoin.Io.Source

/-! A reader that follows a script: what its calls of `read` deliver is written down in advance,
pieces and interruptions in any order, and then its end or the error it breaks with. -/
namespace Litecoin.Io
open Wire
open Wire.Process (Stop)

/-- What a call of `read` meets. -/
inductive Delivery where
  | piece (first : UInt8) (more : Bytes)
  | interruption

structure Scripted where
  script : List Delivery
  ending : Option ErrorKind

namespace Scripted

/-- A piece that is cut short leaves the rest of it for later calls. -/
def putBack : Bytes → List Delivery → List Delivery
  | [], script => script
  | first :: more, script => .piece first more :: script

def read (len : Nat) : Method Scripted Bytes := fun source =>
  if len = 0 then (.ok [], source)
  else match source.script, source.ending with
    | [], none => (.ok [], source)
    | [], some kind => (.error (.error kind), source)
    | .interruption :: script, _ => (.error (.error .interrupted), { source with script })
    | .piece first more :: script, _ => (.ok ((first :: more).take len),
        { source with script := putBack ((first :: more).drop len) script })

instance : Read target Scripted where
  read := read

/-- The bytes of the pieces. -/
def pieces : List Delivery → Bytes
  | [] => []
  | .piece first more :: script => first :: more ++ pieces script
  | .interruption :: script => pieces script

def interruptions : List Delivery → Nat
  | [] => 0
  | .piece _ _ :: script => interruptions script
  | .interruption :: script => interruptions script + 1

def left (source : Scripted) : Bytes := pieces source.script

def patience (source : Scripted) : Nat := interruptions source.script

/-- No script ends with what `read_exact` takes for an interruption. -/
def Valid (source : Scripted) : Prop := source.ending ≠ some .interrupted

theorem pieces_putBack (rest : Bytes) (script : List Delivery) :
    pieces (putBack rest script) = rest ++ pieces script := by
  cases rest <;> rfl

theorem interruptions_putBack (rest : Bytes) (script : List Delivery) :
    interruptions (putBack rest script) = interruptions script := by
  cases rest <;> rfl

/-- The bytes are the next ones of the script, and it ends as before. -/
structure Passes (source : Scripted) (bytes : Bytes) (next : Scripted) : Prop where
  valid : next.Valid
  ending : next.ending = source.ending
  split : source.left = bytes ++ next.left
  calm : next.patience ≤ source.patience

/-- What a call comes to: a piece, or nothing for want of room or in the end; an interruption; at
the end of the script also the error to break with. -/
inductive Delivers (source : Scripted) (len : Nat) : Except (Stop ErrorKind) Bytes × Scripted → Prop
    where
  | filled (passes : source.Passes bytes next) (fits : bytes.length ≤ len)
      (empty : bytes = [] → len = 0 ∨ source.left = [] ∧ source.ending = none) :
      Delivers source len (.ok bytes, next)
  | interrupted (passes : source.Passes [] next) (calmer : next.patience < source.patience) :
      Delivers source len (.error (.error .interrupted), next)
  | broke (reached : source.script = []) (positive : 0 < len) (ends : source.ending = some kind) :
      Delivers source len (.error (.error kind), source)

variable {source : Scripted}

theorem Passes.refl (valid : source.Valid) : source.Passes [] source :=
  ⟨valid, rfl, rfl, Nat.le_refl _⟩

theorem read_delivers (valid : source.Valid) (len : Nat) : Delivers source len (read len source) := by
  obtain ⟨script, ending⟩ := source
  rw [read]
  split
  case isTrue zero => exact .filled (.refl valid) (Nat.zero_le _) fun _ => .inl zero
  case isFalse positive =>
    cases script with
    | nil =>
      cases ending with
      | none => exact .filled (.refl valid) (Nat.zero_le _) fun _ => .inr ⟨rfl, rfl⟩
      | some kind => exact .broke rfl (Nat.pos_of_ne_zero positive) rfl
    | cons delivery script =>
      cases delivery with
      | interruption => exact .interrupted ⟨valid, rfl, rfl, Nat.le_succ _⟩ (Nat.lt_succ_self _)
      | piece first more =>
        refine .filled ⟨valid, rfl, ?_, ?_⟩ (List.length_take_le _ _) fun none => .inl ?_
        · change first :: more ++ pieces script = _ ++ pieces (putBack _ script)
          rw [pieces_putBack, ← List.append_assoc, List.take_append_drop]
        · exact Nat.le_of_eq (interruptions_putBack _ script)
        · exact (List.take_eq_nil_iff.mp none).resolve_right (List.cons_ne_nil _ _)

def prospect : Prospect Scripted where
  left := left
  ending := ending
  patience := patience
  Passes := Passes
  Broken source next := next = { source with script := [] }

theorem read_event (valid : source.Valid) (len : Nat) : Event prospect source len (read len source) := by
  have delivers := read_delivers valid len
  generalize read len source = ran at delivers ⊢
  cases delivers with
  | filled passes fits empty => exact .filled passes fits empty
  | interrupted passes calmer => exact .interrupted passes calmer
  | broke reached positive ends =>
    refine .broke ?_ ends ?_ ?_
    · change (pieces source.script).length < len
      rwa [reached]
    · rintro rfl
      exact valid ends
    · change source = { source with script := [] }
      rw [← reached]

theorem read_outcome (valid : source.Valid) (len : Nat) :
    Outcome (fun bytes next => next.Valid ∧ source.left = bytes ++ next.left) patience
      (source.left = []) source len (read len source) := by
  have delivers := read_delivers valid len
  generalize read len source = ran at delivers ⊢
  cases delivers with
  | filled passes fits empty =>
    exact .filled ⟨passes.valid, passes.split⟩ fits (fun none => (empty none).imp_right And.left)
      passes.calm
  | interrupted passes calmer => exact .interrupted ⟨passes.valid, passes.split⟩ calmer
  | broke reached positive ends =>
    refine .failed ⟨valid, rfl⟩ (congrArg pieces reached) ?_
    rintro rfl
    exact valid ends

instance : Source target Scripted where
  prospect := prospect
  Valid := Valid
  refl _ := .refl
  trans _ _ _ _ _ first second := ⟨second.valid, second.ending.trans first.ending, by
    rw [first.split, second.split, List.append_assoc], Nat.le_trans second.calm first.calm⟩
  valid _ _ _ passes := passes.valid
  left_eq _ _ _ passes := passes.split
  calm _ _ _ passes := passes.calm
  ending_eq _ _ _ passes := passes.ending
  broken source _ _ last passes broken := by
    change last = { source with script := [] }
    rw [broken, passes.ending]
  event _ len valid _ := read_event valid len

instance : FiniteSource target Scripted where
  Valid := Valid
  left := left
  patience := patience
  outcome _ len valid _ := read_outcome valid len

end Scripted
end Litecoin.Io
