import Litecoin.Io.Reader

/-! Sources that hold finitely many bytes, and what is read of them through any nesting of
`Take`s. -/
namespace Litecoin.Io
open Wire
open Wire.Process (Stop)

namespace Target

theorem size_le (target : Target) : target.size ≤ 2 ^ 64 := by
  rw [size]
  split
  · exact Nat.pow_le_pow_right (by decide) (by decide)
  · exact Nat.le_refl _

/-- The conversion that saturates leaves the smaller of a length and a limit. -/
theorem tryIntoUsize_cap (target : Target) {len : Nat} (usize : len < target.size)
    (remaining : UInt64) :
    min len ((target.tryIntoUsize remaining).getD len) = min len remaining.toNat := by
  rw [tryIntoUsize]
  split
  case isTrue => rw [Option.getD_some]
  case isFalse wide => rw [Option.getD_none]; omega

theorem sub_eq_some (target : Target) {a b : UInt64} (le : b ≤ a) : target.sub a b = some (a - b) :=
  if_neg fun below => absurd below.2 (UInt64.not_lt.mpr le)

/-- A limit goes down by what was read, which it was above. -/
theorem charge (target : Target) {read : Nat} {remaining : UInt64} (within : read ≤ remaining.toNat) :
    tryIntoU64 read = some (.ofNat read) ∧ UInt64.ofNat read ≤ remaining ∧
      ∃ further, target.sub remaining (.ofNat read) = some further ∧
        remaining.toNat = read + further.toNat := by
  have word : read < 2 ^ 64 := Nat.lt_of_le_of_lt within remaining.toNat_lt
  have exact : (UInt64.ofNat read).toNat = read := UInt64.toNat_ofNat_of_lt' word
  have le : UInt64.ofNat read ≤ remaining := UInt64.le_iff_toNat_le.mpr (by rwa [exact])
  refine ⟨if_pos word, le, _, target.sub_eq_some le, ?_⟩
  rw [UInt64.toNat_sub_of_le _ _ le, exact]
  omega

end Target

/-- What a call of `read` may come to, with a buffer of `len` bytes: a piece of what is left, empty
only in the end or for want of room; an interruption; in the end also another error. -/
inductive Outcome (After : Bytes → σ → Prop) (patience : σ → Nat) (ended : Prop) (source : σ)
    (len : Nat) : Except (Stop ErrorKind) Bytes × σ → Prop where
  | filled (after : After bytes next) (fits : bytes.length ≤ len)
      (empty : bytes = [] → len = 0 ∨ ended) (calm : patience next ≤ patience source) :
      Outcome After patience ended source len (.ok bytes, next)
  | interrupted (after : After [] next) (calmer : patience next < patience source) :
      Outcome After patience ended source len (.error (.error .interrupted), next)
  | failed (after : After [] next) (reached : ended) (other : e ≠ .interrupted) :
      Outcome After patience ended source len (.error (.error e), next)

/-- A source that has finitely many bytes left, which it delivers in pieces of its choice, and that
is interrupted no more than `patience` times. -/
class FiniteSource (target : Target) (σ : Type) extends Read target σ where
  Valid : σ → Prop
  left : σ → Bytes
  patience : σ → Nat
  outcome : ∀ source len, Valid source → len < target.size →
    Outcome (fun bytes next => Valid next ∧ left source = bytes ++ left next) patience
      (left source = []) source len (read len source)

namespace Reader

/-- The limits of the `Take`s, from the outermost on. -/
def limits : Reader σ → List Nat
  | .source _ => []
  | .take remaining reader => remaining.toNat :: reader.limits

variable (target : Target) [FiniteSource target σ]

def Valid : Reader σ → Prop
  | .source reader => FiniteSource.Valid target reader
  | .take _ reader => reader.Valid

/-- The bytes that the source still holds. -/
def held : Reader σ → Bytes
  | .source reader => FiniteSource.left target reader
  | .take _ reader => reader.held

/-- The bytes that the `Take`s let through of those. -/
def left : Reader σ → Bytes
  | .source reader => FiniteSource.left target reader
  | .take remaining reader => reader.left.take remaining.toNat

def patience : Reader σ → Nat
  | .source reader => FiniteSource.patience target reader
  | .take _ reader => reader.patience

/-- The reader that is left when `bytes` have been read, by the source and by every `Take`. -/
inductive Advances : Reader σ → Bytes → Reader σ → Prop where
  | source : FiniteSource.left target reader = bytes ++ FiniteSource.left target next →
      Advances (.source reader) bytes (.source next)
  | take : remaining.toNat = bytes.length + further.toNat → Advances reader bytes next →
      Advances (.take remaining reader) bytes (.take further next)

variable {target} {reader next last : Reader σ}

theorem Advances.refl (reader : Reader σ) : reader.Advances target [] reader := by
  induction reader with
  | source reader => exact .source rfl
  | take remaining reader ih => exact .take (Nat.zero_add _).symm ih

theorem Advances.trans (first : reader.Advances target front next)
    (second : next.Advances target back last) :
    reader.Advances target (front ++ back) last := by
  induction first generalizing last with
  | source split =>
    cases second with
    | source rest => exact .source (by rw [split, rest, List.append_assoc])
  | take counted _ ih =>
    cases second with
    | take rest second => exact .take (by rw [List.length_append]; omega) (ih second)

theorem Advances.held (advances : reader.Advances target bytes next) :
    reader.held target = bytes ++ next.held target := by
  induction advances with
  | source split => exact split
  | take _ _ ih => exact ih

theorem Advances.left (advances : reader.Advances target bytes next) :
    reader.left target = bytes ++ next.left target := by
  induction advances with
  | source split => exact split
  | take counted _ ih =>
    rw [Reader.left, Reader.left, ih, counted, List.take_length_add_append]

/-- Every limit went down by what was read. -/
theorem Advances.limits (advances : reader.Advances target bytes next) :
    reader.limits = next.limits.map (bytes.length + ·) := by
  induction advances with
  | source => rfl
  | take counted _ ih => rw [Reader.limits, Reader.limits, List.map_cons, ih, counted]

theorem Advances.within (advances : reader.Advances target bytes next) :
    ∀ limit ∈ reader.limits, bytes.length ≤ limit := by
  rw [advances.limits]
  intro limit member
  obtain ⟨further, -, rfl⟩ := List.mem_map.mp member
  exact Nat.le_add_right _ _

theorem outcome {reader : Reader σ} (valid : reader.Valid target) (usize : len < target.size) :
    Outcome (fun bytes next => next.Valid target ∧ reader.Advances target bytes next)
      (Reader.patience target) (reader.left target = []) reader len (reader.read target len) := by
  induction reader generalizing len with
  | source reader =>
    have inner := FiniteSource.outcome reader len valid usize
    rw [Reader.read]
    generalize Read.read target len reader = ran at inner
    cases inner with
    | filled after fits empty calm => exact .filled ⟨after.1, .source after.2⟩ fits empty calm
    | interrupted after calmer => exact .interrupted ⟨after.1, .source after.2⟩ calmer
    | failed after ended other => exact .failed ⟨after.1, .source after.2⟩ ended other
  | take remaining reader ih =>
    rw [Reader.read, target.tryIntoUsize_cap usize]
    have capped : min len remaining.toNat < target.size :=
      Nat.lt_of_le_of_lt (Nat.min_le_left _ _) usize
    have inner := ih valid capped
    generalize reader.read target (min len remaining.toNat) = ran at inner
    cases inner with
    | @filled bytes next after fits empty calm =>
      have within : bytes.length ≤ remaining.toNat := Nat.le_trans fits (Nat.min_le_right _ _)
      obtain ⟨word, -, further, charged, counted⟩ := target.charge within
      simp only [word, Option.getD_some, charged]
      refine .filled ⟨after.1, .take counted after.2⟩ (Nat.le_trans fits (Nat.min_le_left _ _)) ?_ calm
      intro none
      rcases empty none with zero | ended
      · rcases Nat.min_eq_zero_iff.mp zero with zero | zero
        · exact .inl zero
        · exact .inr (by rw [Reader.left, zero, List.take_zero])
      · exact .inr (by rw [Reader.left, ended, List.take_nil])
    | interrupted after calmer =>
      exact .interrupted ⟨after.1, .take (Nat.zero_add _).symm after.2⟩ calmer
    | failed after ended other =>
      refine .failed ⟨after.1, .take (Nat.zero_add _).symm after.2⟩ ?_ other
      rw [Reader.left, ended, List.take_nil]

/-- So many bytes are left as the source holds and every limit lets through. -/
theorem le_length_left {reader : Reader σ} : len ≤ (reader.left target).length ↔
    len ≤ (reader.held target).length ∧ ∀ limit ∈ reader.limits, len ≤ limit := by
  induction reader with
  | source reader =>
    simp only [left, held, limits, List.not_mem_nil, false_implies, implies_true, and_true]
  | take remaining reader ih =>
    rw [left, held, limits, List.length_take, Nat.le_min, ih, List.forall_mem_cons]
    exact and_left_comm

end Reader
end Litecoin.Io
