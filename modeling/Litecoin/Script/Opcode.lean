import Litecoin.Wire.Decoder

/-! Opcodes and their classification (`blockdata/opcodes.rs`). -/
namespace Litecoin.Script
open Wire

structure Opcode where
  code : UInt8
deriving DecidableEq, Repr

inductive ClassifyContext where
  | tapScript
  | legacy
deriving DecidableEq, Repr

namespace Opcode

def toU8 (opcode : Opcode) : UInt8 := opcode.code

def pushbytes0 : Opcode := ⟨0x00⟩
def pushbytes75 : Opcode := ⟨0x4b⟩
def pushdata1 : Opcode := ⟨0x4c⟩
def pushdata2 : Opcode := ⟨0x4d⟩
def pushdata4 : Opcode := ⟨0x4e⟩
def pushnumNeg1 : Opcode := ⟨0x4f⟩
def reserved : Opcode := ⟨0x50⟩
def pushnum1 : Opcode := ⟨0x51⟩
def pushnum16 : Opcode := ⟨0x60⟩
def nop : Opcode := ⟨0x61⟩
def ver : Opcode := ⟨0x62⟩
def verif : Opcode := ⟨0x65⟩
def vernotif : Opcode := ⟨0x66⟩
def opReturn : Opcode := ⟨0x6a⟩
def reserved1 : Opcode := ⟨0x89⟩
def reserved2 : Opcode := ⟨0x8a⟩
def checkmultisig : Opcode := ⟨0xae⟩
def checkmultisigverify : Opcode := ⟨0xaf⟩
def nop1 : Opcode := ⟨0xb0⟩
def nop10 : Opcode := ⟨0xb9⟩
def checksigadd : Opcode := ⟨0xba⟩
def invalidopcode : Opcode := ⟨0xff⟩

/-- `OP_CAT` to `OP_RIGHT`, `OP_INVERT` to `OP_XOR`, `OP_2MUL`, `OP_2DIV` and
`OP_MUL` to `OP_RSHIFT`. -/
def disabled : List Opcode :=
  [⟨0x7e⟩, ⟨0x7f⟩, ⟨0x80⟩, ⟨0x81⟩, ⟨0x83⟩, ⟨0x84⟩, ⟨0x85⟩, ⟨0x86⟩, ⟨0x8d⟩, ⟨0x8e⟩,
    ⟨0x95⟩, ⟨0x96⟩, ⟨0x97⟩, ⟨0x98⟩, ⟨0x99⟩]

/-- The variants of `Ordinary`, in declaration order. -/
def ordinary : List Opcode :=
  [pushdata1, pushdata2, pushdata4,
    -- control flow
    ⟨0x63⟩, ⟨0x64⟩, ⟨0x67⟩, ⟨0x68⟩, ⟨0x69⟩,
    -- stack
    ⟨0x6b⟩, ⟨0x6c⟩, ⟨0x6d⟩, ⟨0x6e⟩, ⟨0x6f⟩, ⟨0x70⟩, ⟨0x71⟩, ⟨0x72⟩, ⟨0x75⟩, ⟨0x76⟩, ⟨0x77⟩, ⟨0x78⟩,
    ⟨0x79⟩, ⟨0x7a⟩, ⟨0x7b⟩, ⟨0x7c⟩, ⟨0x7d⟩, ⟨0x73⟩, ⟨0x74⟩, ⟨0x82⟩,
    -- equality
    ⟨0x87⟩, ⟨0x88⟩,
    -- arithmetic
    ⟨0x8b⟩, ⟨0x8c⟩, ⟨0x8f⟩, ⟨0x90⟩, ⟨0x91⟩, ⟨0x92⟩, ⟨0x93⟩, ⟨0x94⟩, ⟨0x9a⟩, ⟨0x9b⟩, ⟨0x9c⟩, ⟨0x9d⟩,
    ⟨0x9e⟩, ⟨0x9f⟩, ⟨0xa0⟩, ⟨0xa1⟩, ⟨0xa2⟩, ⟨0xa3⟩, ⟨0xa4⟩, ⟨0xa5⟩,
    -- crypto
    ⟨0xa6⟩, ⟨0xa7⟩, ⟨0xa8⟩, ⟨0xa9⟩, ⟨0xaa⟩, ⟨0xab⟩, ⟨0xac⟩, ⟨0xad⟩, checkmultisig,
    checkmultisigverify, checksigadd]

end Opcode

/-- `Ordinary`, an enumeration whose discriminants are opcodes. -/
abbrev Ordinary : Type := { opcode : Opcode // opcode ∈ Opcode.ordinary }

/-- `Ordinary::with`; the match ends in `unreachable!`. -/
def Ordinary.with (opcode : Opcode) : Option Ordinary :=
  if member : opcode ∈ Opcode.ordinary then some ⟨opcode, member⟩ else none

inductive Class where
  | pushNum (number : Int)
  | pushBytes (length : UInt32)
  | returnOp
  | successOp
  | illegalOp
  | noOp
  | ordinary (opcode : Ordinary)
deriving DecidableEq

/-- Neither a direct push nor an opcode that announces a length. -/
def Class.isPlain : Class → Bool
  | .pushBytes _ => false
  | .ordinary opcode => opcode.val ∉ [Opcode.pushdata1, Opcode.pushdata2, Opcode.pushdata4]
  | _ => true

namespace Opcode

def isSuccess (opcode : Opcode) : Bool :=
  opcode.code = 80 || opcode.code = 98
  || (126 ≤ opcode.code && opcode.code ≤ 129)
  || (131 ≤ opcode.code && opcode.code ≤ 134)
  || (137 ≤ opcode.code && opcode.code ≤ 138)
  || (141 ≤ opcode.code && opcode.code ≤ 142)
  || (149 ≤ opcode.code && opcode.code ≤ 153)
  || (187 ≤ opcode.code && opcode.code ≤ 254)

/-- The arms of the match in order; `none` is the panic of `Ordinary::with`. -/
def classify (opcode : Opcode) (ctx : ClassifyContext) : Option Class :=
  if opcode = verif ∨ opcode = vernotif ∨ opcode = invalidopcode then some .illegalOp
  else if opcode ∈ disabled ∧ ctx = .legacy then some .illegalOp
  else if ctx = .tapScript ∧ opcode.isSuccess then some .successOp
  else if opcode = nop then some .noOp
  else if nop1.code ≤ opcode.code ∧ opcode.code ≤ nop10.code then some .noOp
  else if opcode = opReturn then some .returnOp
  else if (opcode = reserved ∨ opcode = reserved1 ∨ opcode = reserved2 ∨ opcode = ver)
      ∧ ctx = .legacy then some .returnOp
  else if ctx = .legacy ∧ checksigadd.code ≤ opcode.code then some .returnOp
  else if (opcode = checkmultisig ∨ opcode = checkmultisigverify) ∧ ctx = .tapScript then
    some .returnOp
  else if opcode = pushnumNeg1 then some (.pushNum (-1))
  else if pushnum1.code ≤ opcode.code ∧ opcode.code ≤ pushnum16.code then
    some (.pushNum (1 + opcode.code.toNat - pushnum1.code.toNat))
  else if opcode.code ≤ pushbytes75.code then some (.pushBytes opcode.code.toUInt32)
  else (Ordinary.with opcode).map .ordinary

/-- A property of all opcodes is a property of 256 bytes. -/
@[elab_as_elim]
theorem byteCases {motive : Opcode → Prop} (byte : ∀ n : Fin 256, motive ⟨UInt8.ofFin n⟩)
    (opcode : Opcode) : motive opcode := by
  exact byte opcode.code.toFin

/-- The codes between the ordinary ones, which the earlier arms take. -/
def between : List Nat :=
  [79, 80, 97, 98, 101, 102, 106, 137, 138] ++ List.range' 81 16 ++ List.range' 176 10 ++
    disabled.map (·.code.toNat)

theorem between_or_ordinary : (List.range' 76 111).all (fun code =>
    between.any (Nat.beq code) || (ordinary.map (·.code.toNat)).any (Nat.beq code)) = true := by
  decide

theorem mem_of_mem_codes {opcodes : List Opcode} {opcode : Opcode}
    (listed : opcode.code.toNat ∈ opcodes.map (·.code.toNat)) : opcode ∈ opcodes := by
  obtain ⟨⟨code⟩, listed, same⟩ := List.mem_map.mp listed
  obtain rfl := UInt8.toNat_inj.mp same
  exact listed

theorem mem_ordinary {opcode : Opcode} (above : 75 < opcode.code.toNat)
    (below : opcode.code.toNat < 187) (free : opcode.code.toNat ∉ between) :
    opcode ∈ ordinary := by
  have covered := List.all_eq_true.mp between_or_ordinary opcode.code.toNat
    (List.mem_range'_1.mpr ⟨above, below⟩)
  rcases Bool.or_eq_true_iff.mp covered with taken | listed
  · obtain ⟨code, taken, same⟩ := List.any_eq_true.mp taken
    obtain rfl := Nat.eq_of_beq_eq_true same
    exact absurd taken free
  · obtain ⟨code, listed, same⟩ := List.any_eq_true.mp listed
    rw [← Nat.eq_of_beq_eq_true same] at listed
    exact mem_of_mem_codes listed

theorem isSuccess_of_disabled : ∀ opcode ∈ disabled, opcode.isSuccess := by decide

theorem isSome_ite {α : Type} {p : Prop} [Decidable p] {a : α} {rest : Option α}
    (more : ¬ p → rest.isSome) : (if p then some a else rest).isSome := by
  split
  · rfl
  · exact more ‹_›

/-- `Ordinary::with` is reached with ordinary opcodes only. -/
theorem classify_isSome (opcode : Opcode) (ctx : ClassifyContext) :
    (opcode.classify ctx).isSome := by
  rw [classify]
  refine isSome_ite fun illegal => isSome_ite fun off => isSome_ite fun success =>
    isSome_ite fun noOp => isSome_ite fun noOps => isSome_ite fun ret => isSome_ite fun returns =>
    isSome_ite fun late => isSome_ite fun _ => isSome_ite fun negative => isSome_ite fun small =>
    isSome_ite fun direct => ?_
  have enabled : opcode ∉ disabled := by
    intro member
    cases ctx with
    | tapScript => exact success ⟨rfl, isSuccess_of_disabled opcode member⟩
    | legacy => exact off ⟨member, rfl⟩
  obtain ⟨code⟩ := opcode
  have range := code.toNat_lt
  simp only [verif, vernotif, invalidopcode, nop, opReturn, pushnumNeg1, mk.injEq, nop1, nop10,
    pushnum1, pushnum16, pushbytes75, ← UInt8.toNat_inj, UInt8.le_iff_toNat_le,
    UInt8.reduceToNat] at illegal noOp noOps ret negative small direct
  have apart : code.toNat < 187 ∧ code.toNat ∉ [80, 98, 137, 138] := by
    cases ctx with
    | tapScript =>
      have ends := mt (And.intro rfl) success
      simp only [isSuccess, Bool.or_eq_true, Bool.and_eq_true, decide_eq_true_eq,
        ← UInt8.toNat_inj, UInt8.le_iff_toNat_le, UInt8.reduceToNat] at ends
      simp only [List.mem_cons, List.not_mem_nil, or_false]
      omega
    | legacy =>
      have kept := mt (And.intro · rfl) returns
      have ends := mt (And.intro rfl) late
      simp only [reserved, reserved1, reserved2, ver, checksigadd, mk.injEq, ← UInt8.toNat_inj,
        UInt8.le_iff_toNat_le, UInt8.reduceToNat] at kept ends
      simp only [List.mem_cons, List.not_mem_nil, or_false]
      omega
  have free : code.toNat ∉ between := by
    intro taken
    simp only [between, List.mem_append, List.mem_range'_1] at taken
    rcases taken with ((single | push) | nops) | off
    · simp only [List.mem_cons, List.not_mem_nil, or_false] at single apart
      omega
    · omega
    · omega
    · exact enabled (mem_of_mem_codes off)
  have member : ⟨code⟩ ∈ ordinary := mem_ordinary (Nat.lt_of_not_le direct) apart.1 free
  simp [Ordinary.with, member]

/-- The class the instruction reader matches on. -/
def legacyClass (opcode : Opcode) : Class :=
  (opcode.classify .legacy).get (opcode.classify_isSome .legacy)

theorem classify_legacyClass (opcode : Opcode) :
    opcode.classify .legacy = some opcode.legacyClass :=
  (Option.some_get (opcode.classify_isSome .legacy)).symm

theorem legacyClass_pushBytes (opcode : Opcode) (low : opcode.code ≤ pushbytes75.code) :
    opcode.legacyClass = .pushBytes opcode.code.toUInt32 := by
  have low' : opcode.code.toNat ≤ 75 := low
  have apart {other : Opcode} (above : 75 < other.code.toNat) : opcode ≠ other := by
    rintro rfl
    omega
  have on : opcode ∉ disabled := by
    intro off
    have above : ∀ other ∈ disabled, 75 < other.code.toNat := by decide
    exact apart (above opcode off) rfl
  refine Option.some.inj ?_
  rw [← classify_legacyClass, classify,
    if_neg (by simp [apart, verif, vernotif, invalidopcode]), if_neg (fun off => on off.1),
    if_neg (by simp), if_neg (apart (by decide)),
    if_neg (fun noOp => absurd (UInt8.le_trans noOp.1 low) (by decide)),
    if_neg (apart (by decide)),
    if_neg (by simp [apart, reserved, reserved1, reserved2, ver]),
    if_neg (fun late => absurd (UInt8.le_trans late.2 low) (by decide)), if_neg (by simp),
    if_neg (apart (by decide)),
    if_neg (fun small => absurd (UInt8.le_trans small.1 low) (by decide)), if_pos low]

theorem legacyClass_pushdata1 : pushdata1.legacyClass = .ordinary ⟨pushdata1, by decide⟩ := by
  decide

theorem legacyClass_pushdata2 : pushdata2.legacyClass = .ordinary ⟨pushdata2, by decide⟩ := by
  decide

theorem legacyClass_pushdata4 : pushdata4.legacyClass = .ordinary ⟨pushdata4, by decide⟩ := by
  decide

theorem isPlain_ite {p : Prop} [Decidable p] {first : Class} {rest : Option Class}
    (taken : p → first.isPlain) (more : ∀ other ∈ rest, other.isPlain) :
    ∀ other ∈ (if p then some first else rest), other.isPlain := by
  intro other chosen
  split at chosen
  · obtain rfl := Option.some.inj chosen
    exact taken ‹_›
  · exact more other chosen

theorem legacyClass_isPlain (opcode : Opcode) (high : pushdata4.code < opcode.code) :
    opcode.legacyClass.isPlain := by
  have apart {other : Opcode} (below : other.code ≤ pushdata4.code) : opcode ≠ other := by
    rintro rfl
    exact UInt8.not_lt.mpr below high
  refine (?_ : ∀ other ∈ opcode.classify .legacy, other.isPlain) _ (classify_legacyClass opcode)
  rw [classify]
  iterate 11 refine isPlain_ite (fun _ => rfl) ?_
  refine isPlain_ite (fun direct => ?_) ?_
  · exact absurd (UInt8.lt_of_lt_of_le high direct) (by decide)
  · intro other ordinary
    obtain ⟨named, found, rfl⟩ := Option.map_eq_some_iff.mp ordinary
    obtain ⟨member, ⟨⟩⟩ := Option.dite_none_right_eq_some.mp found
    have late : opcode ∉ [pushdata1, pushdata2, pushdata4] := by
      simp [apart (by decide : pushdata1.code ≤ _), apart (by decide : pushdata2.code ≤ _),
        apart (UInt8.le_refl _ : pushdata4.code ≤ _)]
    exact decide_eq_true late

end Opcode
end Litecoin.Script
