import Litecoin.Script.Indices

/-! Bare multisig scripts (`Script::is_multisig` of `script/borrowed.rs`). -/
namespace Litecoin.Script
open Wire

namespace Opcode

/-- `decode_pushnum`: `OP_1` to `OP_16`. -/
def decodePushnum (opcode : Opcode) : Option UInt8 :=
  if pushnum1.code ≤ opcode.code ∧ opcode.code ≤ pushnum16.code then
    some (opcode.code - pushnum1.code + 1)
  else none

/-- `OP_1` to `OP_16` by their numbers. -/
def pushnum (n : Nat) : Opcode := ⟨UInt8.ofNat (0x50 + n)⟩

theorem decodePushnum_eq_some {opcode : Opcode} {number : UInt8} :
    opcode.decodePushnum = some number ↔
      1 ≤ number.toNat ∧ number.toNat ≤ 16 ∧ opcode = pushnum number.toNat := by
  obtain ⟨code⟩ := opcode
  have below := code.toNat_lt
  have fits := number.toNat_lt
  have code₁ : pushnum1.code.toNat = 0x51 := rfl
  have code₁₆ : pushnum16.code.toNat = 0x60 := rfl
  simp only [decodePushnum, pushnum, UInt8.le_iff_toNat_le, Opcode.mk.injEq, ← UInt8.toNat_inj,
    UInt8.toNat_ofNat', code₁, code₁₆]
  split_ifs with known
  · simp only [Option.some.injEq, ← UInt8.toNat_inj, UInt8.toNat_add, UInt8.toNat_sub, code₁,
      UInt8.reduceToNat]
    omega
  · simp only [false_iff]
    omega

theorem toNat_number {number : Nat} (high : number ≤ 16) : (UInt8.ofNat number).toNat = number := by
  rw [UInt8.toNat_ofNat']
  omega

theorem decodePushnum_pushnum {number : Nat} (low : 1 ≤ number) (high : number ≤ 16) :
    (pushnum number).decodePushnum = some (UInt8.ofNat number) := by
  rw [decodePushnum_eq_some, toNat_number high]
  exact ⟨low, high, rfl⟩

end Opcode

/-- What the iterator over a script yields. -/
abbrev Item : Type := Except Error Instruction

/-- The loop over the keys: their count and the items after the one that ends it. The inner `none` is
a number that is not the count, and the outer one an overflow of the count. -/
def countPubkeys : (numPubkeys : Nat) → List Item → Option (Option (Nat × List Item))
  | numPubkeys, .ok (.pushBytes _) :: rest =>
    if numPubkeys < 255 then countPubkeys (numPubkeys + 1) rest else none
  | numPubkeys, .ok (.op op) :: rest =>
    match op.decodePushnum with
    | some pushnum => if pushnum.toNat ≠ numPubkeys then some none else some (some (numPubkeys, rest))
    | none => some (some (numPubkeys, rest))
  | numPubkeys, .error _ :: rest => some (some (numPubkeys, rest))
  | numPubkeys, [] => some (some (numPubkeys, []))

/-- The checks after the loop. -/
def endsMultisig (requiredSigs : UInt8) (numPubkeys : Nat) (rest : List Item) : Bool :=
  if numPubkeys < requiredSigs.toNat then false
  else match rest with
    | .ok (.op op) :: rest => if op ≠ .checkmultisig then false else rest.isEmpty
    | _ => false

/-- `is_multisig`; `none` is an overflow. -/
def ScriptBuf.isMultisig (script : ScriptBuf) : Option Bool :=
  match script.instructions with
  | .ok (.op op) :: rest =>
    match op.decodePushnum with
    | some requiredSigs =>
      (countPubkeys 0 rest).map fun
        | some (numPubkeys, rest) => endsMultisig requiredSigs numPubkeys rest
        | none => false
    | none => some false
  | _ => some false

/-- Keys between `OP_m` and two more opcodes. -/
def keyScript (m : Nat) (keys : List PushBytes) (op last : Opcode) : List Instruction :=
  .op (.pushnum m) :: keys.map .pushBytes ++ [.op op, .op last]

/-- `OP_m`, pushes, the number of the pushes and `OP_CHECKMULTISIG`, with nothing else. -/
def ScriptBuf.BareMultisig (script : ScriptBuf) : Prop :=
  ∃ (m n : Nat) (keys : List PushBytes), 1 ≤ m ∧ m ≤ n ∧ n ≤ 16 ∧ keys.length = n ∧
    script.instructions = (keyScript m keys (.pushnum n) .checkmultisig).map .ok

/-- More pushes after `OP_m` than a count of eight bits can hold. -/
def ScriptBuf.Overfull (script : ScriptBuf) : Prop :=
  ∃ (m : Nat) (keys : List PushBytes) (rest : List Item), 1 ≤ m ∧ m ≤ 16 ∧ 255 < keys.length ∧
    script.instructions = .ok (.op (.pushnum m)) :: keys.map (.ok ∘ .pushBytes) ++ rest

/-- An opcode that is no number where the number of keys should stand. -/
def ScriptBuf.Uncounted (script : ScriptBuf) : Prop :=
  ∃ (m : Nat) (keys : List PushBytes) (op : Opcode), 1 ≤ m ∧ m ≤ 16 ∧ m ≤ keys.length ∧
    keys.length ≤ 255 ∧ op.decodePushnum = none ∧
    script.instructions = (keyScript m keys op .checkmultisig).map .ok

/-- An error ends the items. -/
theorem Instructions.pairwise_collect (self : Instructions) :
    self.collect.Pairwise fun item _ => ∃ instruction, item = .ok instruction := by
  induction size : self.data.length using Nat.strong_induction_on generalizing self with
  | h size ih =>
    subst size
    cases read : self.next with
    | none =>
      rw [collect_of_nil (next_eq_none.mp read)]
      exact List.Pairwise.nil
    | some step =>
      obtain ⟨item, after⟩ := step
      rw [collect_of_next read, List.pairwise_cons]
      refine ⟨fun later member => ?_, ih _ (next_shorter read) after rfl⟩
      cases item with
      | ok instruction => exact ⟨instruction, rfl⟩
      | error e =>
        obtain ⟨byte, data, -, step⟩ := next_step read
        rw [collect_of_nil (step.killed e rfl)] at member
        contradiction

section
variable {script : ScriptBuf} {m n : Nat} {keys : List PushBytes} {rest : List Item}

theorem error_last {front back : List Item} {e : Error}
    (items : script.instructions = front ++ .error e :: back) : back = [] := by
  have ends := Instructions.pairwise_collect ⟨script, false⟩
  rw [ScriptBuf.instructions] at items
  rw [items, List.pairwise_append, List.pairwise_cons] at ends
  cases back with
  | nil => rfl
  | cons item back =>
    obtain ⟨instruction, same⟩ := ends.2.1.1 item List.mem_cons_self
    contradiction

/-- The items are pushes and then something else. -/
theorem exists_pushes (items : List Item) : ∃ (keys : List PushBytes) (rest : List Item),
    items = keys.map (.ok ∘ .pushBytes) ++ rest ∧ ∀ key others, rest ≠ .ok
      (.pushBytes key) :: others := by
  induction items with
  | nil => exact ⟨[], [], rfl, nofun⟩
  | cons item items ih =>
    rcases item with e | key | op
    · exact ⟨[], _, rfl, nofun⟩
    · obtain ⟨keys, rest, rfl, other⟩ := ih
      exact ⟨key :: keys, rest, rfl, other⟩
    · exact ⟨[], _, rfl, nofun⟩

theorem countPubkeys_append (within : n ≤ 255) (keys : List PushBytes) (rest : List Item) :
    countPubkeys n (keys.map (.ok ∘ .pushBytes) ++ rest) =
      if n + keys.length ≤ 255 then countPubkeys (n + keys.length) rest else none := by
  induction keys generalizing n with
  | nil => rw [List.length_nil, Nat.add_zero, if_pos within]; rfl
  | cons key keys ih =>
    have size : n + (key :: keys).length = n + 1 + keys.length := by
      rw [List.length_cons]
      omega
    rw [List.map_cons, List.cons_append, Function.comp_apply, countPubkeys, size]
    split_ifs with room fits fits
    · rw [ih (n := n + 1) room, if_pos fits]
    · rw [ih (n := n + 1) room, if_neg fits]
    · omega
    · rfl

theorem endsMultisig_iff {requiredSigs : UInt8} :
    endsMultisig requiredSigs n rest = true ↔ requiredSigs.toNat ≤ n ∧ rest =
      [.ok (.op .checkmultisig)] := by
  rw [endsMultisig.eq_def]
  by_cases few : n < requiredSigs.toNat
  · rw [if_pos few]
    exact ⟨nofun, fun ⟨enough, _⟩ => absurd enough (Nat.not_le.mpr few)⟩
  · rw [if_neg few, and_iff_right (Nat.not_lt.mp few)]
    split
    · next op rest =>
      split_ifs with other
      · simp [other]
      · simp [not_not.mp other]
    · next other => exact ⟨nofun, fun same => absurd same (other _ _)⟩

/-- After `OP_m`, the pushes are counted and the rest is checked. -/
theorem isMultisig_of_items (low : 1 ≤ m) (high : m ≤ 16) (items : script.instructions =
      .ok (.op (.pushnum m)) :: (keys.map (.ok ∘ .pushBytes) ++ rest)) :
    script.isMultisig = if keys.length ≤ 255 then
      (countPubkeys keys.length rest).map fun counted =>
        (counted.map fun (numPubkeys, rest) => endsMultisig (UInt8.ofNat m) numPubkeys rest).getD false
    else none := by
  rw [ScriptBuf.isMultisig, items]
  dsimp only
  rw [Opcode.decodePushnum_pushnum low high, countPubkeys_append (Nat.zero_le _), Nat.zero_add]
  split_ifs
  · cases countPubkeys keys.length rest with
    | none => rfl
    | some counted => cases counted <;> rfl
  · rfl

/-- A script that does not begin with `OP_m` is no multisig script. -/
theorem isMultisig_cases (script : ScriptBuf) : script.isMultisig = some false ∨
    ∃ (m : Nat) (keys : List PushBytes) (rest : List Item), 1 ≤ m ∧ m ≤ 16 ∧
      (∀ key others, rest ≠ .ok (.pushBytes key) :: others) ∧
      script.instructions = .ok (.op (.pushnum m)) :: (keys.map (.ok ∘ .pushBytes) ++ rest) := by
  rw [ScriptBuf.isMultisig.eq_def]
  split
  · next op items same =>
    cases decoded : op.decodePushnum with
    | none => exact .inl rfl
    | some requiredSigs =>
      obtain ⟨low, high, rfl⟩ := Opcode.decodePushnum_eq_some.mp decoded
      obtain ⟨keys, rest, rfl, other⟩ := exists_pushes items
      exact .inr ⟨_, keys, rest, low, high, other, same⟩
  · exact .inl rfl

/-- The opcode that ends the keys is no number, or it is their number. -/
theorem countPubkeys_op (op : Opcode) (rest : List Item) : countPubkeys n (.ok (.op op) :: rest) =
    some (if op.decodePushnum.all (·.toNat == n) then some (n, rest) else none) := by
  rw [countPubkeys]
  cases op.decodePushnum with
  | none => rfl
  | some number =>
    by_cases same : number.toNat = n
    · exact (if_neg (not_not.mpr same)).trans (congrArg some (if_pos (beq_iff_eq.mpr same)).symm)
    · exact (if_pos same).trans (congrArg some (if_neg (mt beq_iff_eq.mp same)).symm)

theorem all_decodePushnum {op : Opcode} : op.decodePushnum.all (·.toNat == n) = true ↔
    ∀ number ∈ op.decodePushnum, number.toNat = n := by
  simp [Option.all_eq_true]

theorem isMultisig_eq_none : script.isMultisig = none ↔ script.Overfull := by
  constructor
  · intro overflow
    rcases isMultisig_cases script with refused | ⟨m, keys, rest, low, high, other, items⟩
    · rw [refused] at overflow
      contradiction
    · refine ⟨m, keys, rest, low, high, Nat.lt_of_not_le fun few => ?_, items⟩
      rw [isMultisig_of_items low high items, if_pos few, Option.map_eq_none_iff] at overflow
      rcases rest with _ | ⟨e | key | op, rest⟩
      · cases overflow
      · cases overflow
      · exact other key rest rfl
      · rw [countPubkeys_op] at overflow
        contradiction
  · rintro ⟨m, keys, rest, low, high, many, items⟩
    rw [isMultisig_of_items low high items, if_neg (Nat.not_le.mpr many)]

theorem isMultisig_eq_true : script.isMultisig = some true ↔
    ∃ (m : Nat) (keys : List PushBytes) (op : Opcode), 1 ≤ m ∧ m ≤ 16 ∧ m ≤ keys.length ∧
      keys.length ≤ 255 ∧
      (∀ number ∈ op.decodePushnum, number.toNat = keys.length) ∧
      script.instructions = (keyScript m keys op .checkmultisig).map .ok := by
  have shape (m : Nat) (keys : List PushBytes) (op : Opcode) :
    (keyScript m keys op .checkmultisig).map .ok =
      (.ok (.op (.pushnum m)) :: (keys.map (.ok ∘ .pushBytes) ++
        [.ok (.op op), .ok (.op .checkmultisig)]) : List Item) := by
    simp [keyScript]
  constructor
  · intro taken
    rcases isMultisig_cases script with refused | ⟨m, keys, rest, low, high, other, items⟩
    · rw [refused] at taken
      contradiction
    · rw [isMultisig_of_items low high items] at taken
      split_ifs at taken with few
      obtain ⟨counted, count, ends⟩ := Option.map_eq_some_iff.mp taken
      rcases rest with _ | ⟨e | key | op, rest⟩
      · cases count
        have checked : endsMultisig (UInt8.ofNat m) keys.length [] = true := ends
        cases (endsMultisig_iff.mp checked).2
      · rw [← List.cons_append] at items
        obtain rfl := error_last items
        cases count
        have checked : endsMultisig (UInt8.ofNat m) keys.length [] = true := ends
        cases (endsMultisig_iff.mp checked).2
      · exact absurd rfl (other key rest)
      · rw [countPubkeys_op, Option.some.injEq] at count
        split_ifs at count with number
        · subst count
          have checked : endsMultisig (UInt8.ofNat m) keys.length rest = true := ends
          obtain ⟨enough, rfl⟩ := endsMultisig_iff.mp checked
          rw [Opcode.toNat_number high] at enough
          exact ⟨m, keys, op, low, high, enough, few, all_decodePushnum.mp number, by rw [items, shape]⟩
        · subst count
          contradiction
  · rintro ⟨m, keys, op, low, high, enough, few, number, items⟩
    rw [shape] at items
    rw [isMultisig_of_items low high items, if_pos few, countPubkeys_op,
      if_pos (all_decodePushnum.mpr number)]
    exact congrArg some (endsMultisig_iff.mpr ⟨by rwa [Opcode.toNat_number high], rfl⟩)

/-- The opcode before the last tells the two apart. -/
theorem not_bareMultisig (uncounted : script.Uncounted) : ¬ script.BareMultisig := by
  obtain ⟨m, keys, op, -, -, -, -, none, items⟩ := uncounted
  rintro ⟨m', n, keys', low, le, high, -, items'⟩
  have lists := List.map_injective_iff.mpr (fun _ _ => Except.ok.inj) (items.symm.trans items')
  obtain rfl : op = .pushnum n := by simpa using (List.append_inj' lists rfl).2
  rw [Opcode.decodePushnum_pushnum (low.trans le) high] at none
  contradiction

end

/-- A script is recognised for what it is unless the keys overflow their count or an opcode that is no
number stands in its place. -/
theorem isMultisig_iff (script : ScriptBuf) :
    (script.isMultisig ≠ none ∧ (script.isMultisig = some true ↔ script.BareMultisig)) ↔
      ¬ script.Overfull ∧ ¬ script.Uncounted := by
  rw [Ne, isMultisig_eq_none, isMultisig_eq_true]
  refine and_congr_right fun counted => ?_
  constructor
  · intro taken uncounted
    obtain ⟨m, keys, op, low, high, enough, few, none, items⟩ := id uncounted
    exact not_bareMultisig uncounted (taken.mp ⟨m, keys, op, low, high, enough, few, by simp [none],
      items⟩)
  · intro numbered
    constructor
    · rintro ⟨m, keys, op, low, high, enough, few, number, items⟩
      cases decoded : op.decodePushnum with
      | none => exact absurd ⟨m, keys, op, low, high, enough, few, decoded, items⟩ numbered
      | some n =>
        obtain ⟨-, small, rfl⟩ := Opcode.decodePushnum_eq_some.mp decoded
        have size := number n decoded
        exact ⟨m, n.toNat, keys, low, size ▸ enough, small, size.symm, items⟩
    · rintro ⟨m, n, keys, low, le, high, rfl, items⟩
      refine ⟨m, keys, _, low, le.trans high, le, high.trans (by decide), ?_, items⟩
      intro number decoded
      rw [Opcode.decodePushnum_pushnum (low.trans le) high, Option.mem_def,
        Option.some.injEq] at decoded
      rw [← decoded, Opcode.toNat_number high]

/-- `OP_1`, a push, `OP_NOP` and `OP_CHECKMULTISIG` pass for multisig. -/
theorem isMultisig_nop : ¬ (ScriptBuf.isMultisig [0x51, 0x01, 0xaa, 0x61, 0xae] ≠ none ∧
    (ScriptBuf.isMultisig [0x51, 0x01, 0xaa, 0x61, 0xae] = some true ↔
      ScriptBuf.BareMultisig [0x51, 0x01, 0xaa, 0x61, 0xae])) := by
  rintro ⟨-, exact⟩
  have uncounted : ScriptBuf.Uncounted [0x51, 0x01, 0xaa, 0x61, 0xae] :=
    ⟨1, [⟨[0xaa], by decide⟩], .nop, by decide⟩
  exact not_bareMultisig uncounted (exact.mp (by decide))

end Litecoin.Script
