import Litecoin.Blockdata.Transaction
import Litecoin.Blockdata.WitnessStack
import Litecoin.Script.Sigops

/-! The signature check cost of a transaction (`total_sigop_cost` of `blockdata/transaction.rs`).
`none` is a panic of a lookup in a witness. -/
namespace Litecoin.Blockdata
open Wire Consensus Script

def usizeMax : Nat := 2 ^ 64 - 1

/-- `usize::saturating_add`. -/
def saturatingAdd (a b : Nat) : Nat := min (a + b) usizeMax

/-- `usize::saturating_mul`. -/
def saturatingMul (a b : Nat) : Nat := min (a * b) usizeMax

/-- The output that an outpoint is looked up as. -/
abbrev Spent : Type := OutPoint → Option TxOut

/-- `count_sigops` in `count_p2sh_sigops`. -/
def p2shSigops (prevout : TxOut) (input : TxIn) : Option Nat := do
  if ← ScriptBuf.isP2sh prevout.scriptPubkey.toList then
    match ScriptBuf.lastPushdata input.scriptSig.toList with
    | some redeem => some (saturatingAdd 0 (ScriptBuf.countSigops redeem.val))
    | none => some 0
  else some 0

/-- `count_sigops_with_witness_program`. -/
def witnessProgramSigops (witness : Witness) (witnessProgram : ScriptBuf) : Option Nat := do
  if ← witnessProgram.isP2wpkh then some 1
  else if ← witnessProgram.isP2wsh then
    let last ← witness.packed.last
    some ((last.map ScriptBuf.countSigops).getD 0)
  else some 0

/-- `count_sigops` in `count_witness_sigops`. -/
def witnessSigops (prevout : TxOut) (input : TxIn) : Option Nat := do
  let scriptSig : ScriptBuf := input.scriptSig.toList
  if ← ScriptBuf.isWitnessProgram prevout.scriptPubkey.toList then
    witnessProgramSigops input.witness prevout.scriptPubkey.toList
  else if (← ScriptBuf.isP2sh prevout.scriptPubkey.toList) && scriptSig.isPushOnly then
    match scriptSig.lastPushdata with
    | some pushBytes => witnessProgramSigops input.witness pushBytes.val
    | none => some 0
  else some 0

/-- The loop that `count_p2sh_sigops` and `count_witness_sigops` share, and one turn of it. -/
def addSpent (sigops : TxOut → TxIn → Option Nat) (spent : Spent) (count : Nat) (input : TxIn) :
    Option Nat :=
  match spent input.previousOutput with
  | some prevout => (sigops prevout input).map (saturatingAdd count)
  | none => some count

def countSpent (sigops : TxOut → TxIn → Option Nat) (spent : Spent) (inputs : List TxIn) : Option Nat :=
  inputs.foldlM (addSpent sigops spent) 0

namespace Transaction
variable [Secp256k1]

def countP2pkP2pkhSigops (tx : Transaction) : Nat :=
  let count := tx.input.toList.foldl
    (fun count input => saturatingAdd count (ScriptBuf.countSigopsLegacy input.scriptSig.toList)) 0
  tx.output.toList.foldl
    (fun count output => saturatingAdd count
    (ScriptBuf.countSigopsLegacy output.scriptPubkey.toList)) count

def countP2shSigops (tx : Transaction) (spent : Spent) : Option Nat :=
  countSpent p2shSigops spent tx.input.toList

def countWitnessSigops (tx : Transaction) (spent : Spent) : Option Nat :=
  countSpent witnessSigops spent tx.input.toList

def totalSigopCost (tx : Transaction) (spent : Spent) : Option Nat := do
  let cost := saturatingMul tx.countP2pkP2pkhSigops 4
  let cost := saturatingAdd cost (saturatingMul (← tx.countP2shSigops spent) 4)
  some (saturatingAdd cost (← tx.countWitnessSigops spent))

end Transaction

/-! ### The scripts that are counted -/

/-- Scripts that spends reveal, and spends of key hashes, which check one signature each. -/
structure Revealed where
  scripts : List ScriptBuf
  keys : Nat

namespace Revealed

def nothing : Revealed := ⟨[], 0⟩

def append (r s : Revealed) : Revealed := ⟨r.scripts ++ s.scripts, r.keys + s.keys⟩

def cost (accurate : ScriptBuf → Nat) (r : Revealed) : Nat := (r.scripts.map accurate).sum + r.keys

theorem cost_append (accurate : ScriptBuf → Nat) (r s : Revealed) :
    (r.append s).cost accurate = r.cost accurate + s.cost accurate := by
  simp only [cost, append, List.map_append, List.sum_append]
  omega

end Revealed

def redeemScripts (prevout : TxOut) (input : TxIn) : Option Revealed :=
  (ScriptBuf.isP2sh prevout.scriptPubkey.toList).map fun p2sh =>
    if p2sh then ⟨(ScriptBuf.lastPushdata input.scriptSig.toList).toList.map Subtype.val,
      0⟩ else .nothing

def programScripts (witness : Witness) (witnessProgram : ScriptBuf) : Option Revealed := do
  if ← witnessProgram.isP2wpkh then some ⟨[], 1⟩
  else if ← witnessProgram.isP2wsh then some ⟨(← witness.packed.last).toList, 0⟩
  else some .nothing

def witnessScripts (prevout : TxOut) (input : TxIn) : Option Revealed := do
  let scriptSig : ScriptBuf := input.scriptSig.toList
  if ← ScriptBuf.isWitnessProgram prevout.scriptPubkey.toList then
    programScripts input.witness prevout.scriptPubkey.toList
  else if (← ScriptBuf.isP2sh prevout.scriptPubkey.toList) && scriptSig.isPushOnly then
    match scriptSig.lastPushdata with
    | some pushBytes => programScripts input.witness pushBytes.val
    | none => some .nothing
  else some .nothing

def gatherSpent (scripts : TxOut → TxIn → Option Revealed) (spent : Spent) (found : Revealed)
    (input : TxIn) :
    Option Revealed :=
  match spent input.previousOutput with
  | some prevout => (scripts prevout input).map found.append
  | none => some found

/-- What the spends of known outputs reveal. -/
def gather (scripts : TxOut → TxIn → Option Revealed) (spent : Spent) (inputs : List TxIn) :
    Option Revealed :=
  inputs.foldlM (gatherSpent scripts spent) .nothing

/-- The scripts of a transaction whose signature checks count. -/
structure CountedScripts where
  own : List ScriptBuf
  redeem : Revealed
  witness : Revealed

/-- Legacy counts of own scripts and accurate ones of revealed scripts, those outside of a witness
times 4. -/
def CountedScripts.cost (legacy accurate : ScriptBuf → Nat) (counted : CountedScripts) : Nat :=
  (counted.own.map legacy).sum * 4 + counted.redeem.cost accurate * 4 + counted.witness.cost accurate

def Transaction.countedScripts [Secp256k1] (tx : Transaction) (spent : Spent) :
    Option CountedScripts := do
  let redeem ← gather redeemScripts spent tx.input.toList
  let witness ← gather witnessScripts spent tx.input.toList
  let own := tx.input.toList.map (·.scriptSig.toList) ++ tx.output.toList.map (·.scriptPubkey.toList)
  some { own, redeem, witness }

theorem saturatingAdd_min (a b : Nat) : saturatingAdd (min a usizeMax) b = min (a + b) usizeMax := by
  rw [saturatingAdd]
  omega

theorem saturatingAdd_min_right (a b : Nat) : saturatingAdd a (min b usizeMax) = min
    (a + b) usizeMax := by
  rw [saturatingAdd]
  omega

theorem saturatingAdd_min_min (a b : Nat) :
    saturatingAdd (min a usizeMax) (min b usizeMax) = min (a + b) usizeMax := by
  rw [saturatingAdd_min_right, ← saturatingAdd, saturatingAdd_min]

theorem saturatingMul_four_min (a : Nat) : saturatingMul (min a usizeMax) 4 = min (a * 4) usizeMax := by
  rw [saturatingMul]
  omega

/-- A loop of saturating additions is the sum, saturated. -/
theorem foldl_saturatingAdd (count : α → Nat) (values : List α) (start : Nat) :
    values.foldl (fun total value => saturatingAdd total (count value)) (min start usizeMax) =
      min (start + (values.map count).sum) usizeMax := by
  induction values generalizing start with
  | nil => rfl
  | cons value values ih =>
    rw [List.foldl_cons, saturatingAdd_min, ih, List.map_cons, List.sum_cons, Nat.add_assoc]

/-- So is the loop over spends, for any count that saturates like the scripts that it counts. -/
theorem countSpent_eq {sigops : TxOut → TxIn → Option Nat} {scripts : TxOut → TxIn → Option Revealed}
    (counts : ∀ prevout input total, (sigops prevout input).map (saturatingAdd total) =
      (scripts prevout input).map fun r => min (total + r.cost ScriptBuf.countSigops) usizeMax)
    (spent : Spent) (inputs : List TxIn) : countSpent sigops spent inputs =
      (gather scripts spent inputs).map fun r => min (r.cost ScriptBuf.countSigops) usizeMax := by
  suffices run : ∀ found : Revealed,
      inputs.foldlM (addSpent sigops spent) (min (found.cost ScriptBuf.countSigops) usizeMax) =
        (inputs.foldlM (gatherSpent scripts spent) found).map fun r =>
          min (r.cost ScriptBuf.countSigops) usizeMax from run .nothing
  induction inputs with
  | nil => exact fun _ => rfl
  | cons input inputs ih =>
    intro found
    rw [List.foldlM_cons, List.foldlM_cons, addSpent, gatherSpent]
    cases spent input.previousOutput with
    | none => exact ih found
    | some prevout =>
      dsimp only
      rw [counts]
      cases scripts prevout input with
      | none => rfl
      | some revealed =>
        have added : min
          (min (found.cost ScriptBuf.countSigops) usizeMax + revealed.cost ScriptBuf.countSigops)
            usizeMax = min ((found.append revealed).cost ScriptBuf.countSigops) usizeMax := by
          rw [Revealed.cost_append]
          omega
        rw [Option.map_some, Option.map_some, added]
        exact ih (found.append revealed)

theorem p2shSigops_eq (prevout : TxOut) (input : TxIn) : p2shSigops prevout input =
    (redeemScripts prevout input).map fun r => min (r.cost ScriptBuf.countSigops) usizeMax := by
  rw [p2shSigops, redeemScripts]
  cases ScriptBuf.isP2sh prevout.scriptPubkey.toList with
  | none => rfl
  | some p2sh =>
    cases p2sh with
    | false => rfl
    | true =>
      cases pushed : ScriptBuf.lastPushdata input.scriptSig.toList with
      | none => simp [Revealed.cost]
      | some redeem => simp [Revealed.cost, saturatingAdd]

theorem witnessProgramSigops_eq (witness : Witness) (witnessProgram : ScriptBuf) :
    witnessProgramSigops witness witnessProgram =
      (programScripts witness witnessProgram).map (Revealed.cost ScriptBuf.countSigops) := by
  rw [witnessProgramSigops, programScripts]
  cases witnessProgram.isP2wpkh with
  | none => rfl
  | some p2wpkh =>
    cases p2wpkh with
    | true => rfl
    | false =>
      cases witnessProgram.isP2wsh with
      | none => rfl
      | some p2wsh =>
        cases p2wsh with
        | false => rfl
        | true =>
          cases witness.packed.last with
          | none => rfl
          | some script => cases script <;> simp [Revealed.cost]

theorem witnessSigops_eq (prevout : TxOut) (input : TxIn) : witnessSigops prevout input =
    (witnessScripts prevout input).map (Revealed.cost ScriptBuf.countSigops) := by
  rw [witnessSigops, witnessScripts]
  cases ScriptBuf.isWitnessProgram prevout.scriptPubkey.toList with
  | none => rfl
  | some program =>
    cases program with
    | true => exact witnessProgramSigops_eq _ _
    | false =>
      cases ScriptBuf.isP2sh prevout.scriptPubkey.toList with
      | none => rfl
      | some p2sh =>
        cases p2sh with
        | false => rfl
        | true =>
          simp only [Option.bind_eq_bind, Option.bind_some, Bool.true_and, Bool.false_eq_true, if_false]
          split_ifs
          · cases ScriptBuf.lastPushdata input.scriptSig.toList with
            | none => rfl
            | some pushBytes => exact witnessProgramSigops_eq _ _
          · rfl

/-- The total is the cost of the counted scripts, saturated. -/
theorem totalSigopCost_eq [Secp256k1] (tx : Transaction) (spent : Spent) : tx.totalSigopCost spent =
    (tx.countedScripts spent).map fun counted =>
      min (counted.cost ScriptBuf.countSigopsLegacy ScriptBuf.countSigops) usizeMax := by
  have p2sh : tx.countP2shSigops spent = _ := countSpent_eq (fun prevout input total => by
    rw [p2shSigops_eq, Option.map_map]
    exact congrArg (Option.map · _) (funext fun r => saturatingAdd_min_right _ _)) spent tx.input.toList
  have witness : tx.countWitnessSigops spent = _ := countSpent_eq (fun prevout input total => by
    rw [witnessSigops_eq, Option.map_map]
    rfl) spent tx.input.toList
  have own : tx.countP2pkP2pkhSigops = min ((tx.input.toList.map (·.scriptSig.toList) ++
      tx.output.toList.map (·.scriptPubkey.toList)).map ScriptBuf.countSigopsLegacy).sum usizeMax := by
    have inputs := foldl_saturatingAdd (fun input : TxIn =>
      ScriptBuf.countSigopsLegacy input.scriptSig.toList)
      tx.input.toList 0
    rw [Nat.zero_min] at inputs
    rw [Transaction.countP2pkP2pkhSigops, inputs, foldl_saturatingAdd, Nat.zero_add, List.map_append,
      List.sum_append, List.map_map, List.map_map]
    rfl
  rw [Transaction.totalSigopCost, p2sh, witness, own, Transaction.countedScripts]
  cases gather redeemScripts spent tx.input.toList with
  | none => rfl
  | some redeem =>
    cases gather witnessScripts spent tx.input.toList with
    | none => rfl
    | some witness =>
      show some (saturatingAdd (saturatingAdd (saturatingMul (min _ usizeMax) 4)
        (saturatingMul (min _ usizeMax) 4)) (min _ usizeMax)) = some (min (_ * 4 + _ * 4 + _) usizeMax)
      rw [saturatingMul_four_min, saturatingMul_four_min, saturatingAdd_min_min,
        saturatingAdd_min_min]

/-- Sums of terms that are at most others are equal only term by term. -/
theorem sum_map_le_iff {f g : α → Nat} (values : List α) (below : ∀ value, f value ≤ g value) :
    (values.map f).sum ≤ (values.map g).sum ∧
      ((values.map g).sum ≤ (values.map f).sum ↔ ∀ value ∈ values, f value = g value) := by
  induction values with
  | nil => simp
  | cons value values ih =>
    have first := below value
    obtain ⟨le, exact⟩ := ih
    rw [List.map_cons, List.map_cons, List.sum_cons, List.sum_cons, List.forall_mem_cons, ← exact]
    omega

namespace CountedScripts

/-- The cost that the code finds, and the one by definition. -/
def foundCost (counted : CountedScripts) : Nat :=
    counted.cost ScriptBuf.countSigopsLegacy ScriptBuf.countSigops

def consensusCost (counted : CountedScripts) : Nat :=
  counted.cost (ScriptBuf.consensusSigops · false) (ScriptBuf.consensusSigops · true)

theorem foundCost_le (counted : CountedScripts) : counted.foundCost ≤ counted.consensusCost ∧
    (counted.consensusCost ≤ counted.foundCost ↔
      ∀ script ∈ counted.redeem.scripts ++ counted.witness.scripts, ¬ ScriptBuf.Shadowed script) := by
  have below (script : ScriptBuf) := script.countSigops_spec.1
  have same (script : ScriptBuf) := script.countSigops_spec.2
  obtain ⟨redeemLe, redeemIff⟩ := sum_map_le_iff counted.redeem.scripts below
  obtain ⟨witnessLe, witnessIff⟩ := sum_map_le_iff counted.witness.scripts below
  have legacy : ScriptBuf.countSigopsLegacy = (ScriptBuf.consensusSigops · false) :=
    funext ScriptBuf.countSigopsLegacy_eq
  simp only [same] at redeemIff witnessIff
  rw [List.forall_mem_append, ← redeemIff, ← witnessIff, foundCost, consensusCost, cost, cost, legacy,
    Revealed.cost, Revealed.cost, Revealed.cost, Revealed.cost]
  omega

end CountedScripts

/-- A count is the one by definition unless it is accurate and some multisig check comes after a number
with other checks between them; such scripts alone make a transaction's total too small. -/
theorem countSigops_iff [Secp256k1] :
    (∀ (script : ScriptBuf) (accurate : Bool),
      script.countSigopsInternal accurate = script.consensusSigops accurate ↔
        accurate = false ∨ ¬ script.Shadowed) ∧
    (∀ script : ScriptBuf, script.countSigopsInternal true ≤ script.countSigopsInternal false) ∧
    ∀ (tx : Transaction) (spent : Spent) (counted : CountedScripts), tx.countedScripts spent =
      some counted →
      ∃ total, tx.totalSigopCost spent = some total ∧
        ((∀ script ∈ counted.redeem.scripts ++ counted.witness.scripts, ¬ ScriptBuf.Shadowed script) →
          total = min counted.consensusCost usizeMax) ∧
        (counted.consensusCost ≤ usizeMax → counted.consensusCost ≤ total →
          ∀ script ∈ counted.redeem.scripts ++ counted.witness.scripts,
            ¬ ScriptBuf.Shadowed script) := by
  refine ⟨fun script accurate => ?_, ScriptBuf.countSigops_le_legacy, fun tx spent counted found => ?_⟩
  · cases accurate with
    | false => exact ⟨fun _ => .inl rfl, fun _ => script.countSigopsLegacy_eq⟩
    | true =>
      refine script.countSigops_spec.2.trans ⟨.inr, ?_⟩
      rintro (accurate | fresh)
      · contradiction
      · exact fresh
  · obtain ⟨le, exact⟩ := counted.foundCost_le
    refine ⟨min counted.foundCost usizeMax, ?_, fun fresh => ?_, fun small enough => ?_⟩
    · rw [totalSigopCost_eq, found]
      rfl
    · rw [Nat.le_antisymm le (exact.mpr fresh)]
    · exact exact.mp (enough.trans (Nat.min_le_left _ _))

/-- `OP_2 OP_CHECKSIG OP_CHECKMULTISIG` is counted as 3 checks, not 21. -/
theorem countSigops_shadowed : ¬ ScriptBuf.countSigopsInternal [0x52, 0xac, 0xae] true =
    ScriptBuf.consensusSigops [0x52, 0xac, 0xae] true := by
  decide

end Litecoin.Blockdata
