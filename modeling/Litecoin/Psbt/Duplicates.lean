import Litecoin.Psbt.Layout

/-! Which keys can stand twice in a map of an accepted PSBT. -/
namespace Litecoin.Psbt
open Wire Consensus Blockdata

namespace Pair

/-- Lengths of byte vectors fit a machine word. -/
def Sized (pair : Pair) : Prop := pair.key.key.length + 1 < 2 ^ 64 ∧ pair.value.length < 2 ^ 64

theorem Readable.sized {pair : Pair} (readable : pair.Readable) : pair.Sized :=
  ⟨(Nat.succ_le_succ readable.1).trans_lt (by decide), length_lt_of_sizedWire readable.2⟩

theorem sized_of_mem {pairs : List Pair} (short : (pairs.flatMap serialize).length < 2 ^ 64) :
    ∀ pair ∈ pairs, pair.Sized := by
  intro pair member
  have part : pair.serialize.length ≤ (pairs.flatMap serialize).length := by
    rw [List.flatMap_def]
    exact (List.sublist_flatten_of_mem (List.mem_map_of_mem member)).length_le
  rw [serialize_eq, Key.serialize_eq, sizedWire, List.length_append, List.length_append,
    List.length_cons, List.length_append] at part
  exact ⟨by omega, by omega⟩

theorem toNat_ofNat {n : Nat} (short : n < 2 ^ 64) : (UInt64.ofNat n).toNat = n :=
  UInt64.toNat_ofNat_of_lt' short

/-- A sized pair, or the end of a map, is found where it was written. -/
theorem nextWire_unique {a b : Option Pair} (sizedA : ∀ pair ∈ a, pair.Sized)
    (sizedB : ∀ pair ∈ b, pair.Sized) (same : nextWire a ++ restA = nextWire b ++ restB) :
    a = b ∧ restA = restB := by
  let count (next : Option Pair) : Nat := (next.map (·.key.key.length + 1)).getD 0
  let tail (next : Option Pair) : Bytes :=
    (next.map fun pair => pair.key.typeValue :: (pair.key.key ++ sizedWire pair.value)).getD []
  have split (next : Option Pair) (rest : Bytes) :
      nextWire next ++ rest = VarInt.wire (UInt64.ofNat (count next)) ++ (tail next ++ rest) := by
    cases next with
    | none => rfl
    | some pair => simp [nextWire, serialize_eq, Key.serialize_eq, count, tail]
  have counted {next : Option Pair} (sized : ∀ pair ∈ next, pair.Sized) :
      (UInt64.ofNat (count next)).toNat = count next := by
    cases next with
    | none => rfl
    | some pair => exact toNat_ofNat (sized pair rfl).1
  rw [split, split] at same
  obtain ⟨counts, tails⟩ := VarInt.reads.unique trivial trivial same
  have sizes := congrArg UInt64.toNat counts
  rw [counted sizedA, counted sizedB] at sizes
  cases a with
  | none =>
    cases b with
    | none => exact ⟨rfl, tails⟩
    | some pair => exact absurd sizes.symm (Nat.succ_ne_zero _)
  | some first =>
    cases b with
    | none => exact absurd sizes (Nat.succ_ne_zero _)
    | some second =>
      obtain ⟨⟨firstType, firstKey⟩, firstValue⟩ := first
      obtain ⟨⟨secondType, secondKey⟩, secondValue⟩ := second
      simp only [tail, Option.map_some, Option.getD_some, List.cons_append, List.cons.injEq,
        List.append_assoc, sizedWire] at tails
      obtain ⟨rfl, keys⟩ := tails
      obtain ⟨rfl, values⟩ := List.append_inj keys (Nat.succ_inj.mp sizes)
      obtain ⟨lengths, contents⟩ := VarInt.reads.unique trivial trivial values
      have lengths := congrArg UInt64.toNat lengths
      rw [toNat_ofNat (sizedA _ rfl).2, toNat_ofNat (sizedB _ rfl).2] at lengths
      obtain ⟨rfl, rests⟩ := List.append_inj contents lengths
      exact ⟨rfl, rests⟩

end Pair

theorem serializeMap_nil_append (rest : Bytes) :
    serializeMap [] ++ rest = Pair.nextWire none ++ rest := rfl

theorem serializeMap_cons_append (pair : Pair) (pairs : List Pair) (rest : Bytes) :
    serializeMap (pair :: pairs) ++ rest = Pair.nextWire (some pair) ++ (serializeMap pairs ++ rest) := by
  simp [serializeMap, Pair.nextWire]

theorem sized_none : ∀ pair ∈ (none : Option Pair), pair.Sized := nofun

theorem sized_some {pair : Pair} (sized : pair.Sized) : ∀ found ∈ some pair, found.Sized := by
  rintro _ ⟨⟩
  exact sized

/-- Pairs at the start of a map are the first ones of the map. -/
theorem prefix_of_serializeMap {pairs others : List Pair} (sized : ∀ pair ∈ pairs, pair.Sized)
    (sizedOthers : ∀ pair ∈ others, pair.Sized)
    (same : pairs.flatMap Pair.serialize ++ rest = serializeMap others ++ rest') : pairs <+: others := by
  induction pairs generalizing others with
  | nil => exact List.nil_prefix
  | cons pair pairs ih =>
    rw [List.forall_mem_cons] at sized
    rw [List.flatMap_cons, List.append_assoc] at same
    cases others with
    | nil =>
      obtain ⟨absurd, _⟩ := Pair.nextWire_unique (a := some pair) (sized_some sized.1) sized_none same
      contradiction
    | cons other others =>
      rw [List.forall_mem_cons] at sizedOthers
      rw [serializeMap_cons_append] at same
      obtain ⟨head, tail⟩ := Pair.nextWire_unique (a := some pair) (sized_some sized.1)
        (sized_some sizedOthers.1) same
      obtain rfl := Option.some.inj head
      exact List.cons_prefix_cons.mpr ⟨rfl, ih sized.2 sizedOthers.2 tail⟩

theorem serializeMap_unique {pairs others : List Pair} (sized : ∀ pair ∈ pairs, pair.Sized)
    (sizedOthers : ∀ pair ∈ others, pair.Sized)
    (same : serializeMap pairs ++ rest = serializeMap others ++ rest') : pairs = others ∧ rest = rest' := by
  induction pairs generalizing others with
  | nil =>
    cases others with
    | nil => exact ⟨rfl, List.append_cancel_left same⟩
    | cons other others =>
      rw [List.forall_mem_cons] at sizedOthers
      rw [serializeMap_nil_append, serializeMap_cons_append] at same
      obtain ⟨absurd, _⟩ := Pair.nextWire_unique sized_none (sized_some sizedOthers.1) same
      contradiction
  | cons pair pairs ih =>
    rw [List.forall_mem_cons] at sized
    rw [serializeMap_cons_append] at same
    cases others with
    | nil =>
      rw [serializeMap_nil_append] at same
      obtain ⟨absurd, _⟩ := Pair.nextWire_unique (sized_some sized.1) sized_none same
      contradiction
    | cons other others =>
      rw [List.forall_mem_cons] at sizedOthers
      rw [serializeMap_cons_append] at same
      obtain ⟨head, tail⟩ := Pair.nextWire_unique (sized_some sized.1) (sized_some sizedOthers.1) same
      obtain rfl := Option.some.inj head
      obtain ⟨rfl, rests⟩ := ih sized.2 sizedOthers.2 tail
      exact ⟨rfl, rests⟩

/-- Pairs at the start of a map behind others are the first ones of the map at that place. -/
theorem prefix_of_maps {before maps : List (List Pair)} {pairs : List Pair}
    (sized : ∀ pair ∈ pairs, pair.Sized) (sizedBefore : ∀ map ∈ before, ∀ pair ∈ map, pair.Sized)
    (sizedMaps : ∀ map ∈ maps, ∀ pair ∈ map, pair.Sized) (inside : before.length < maps.length)
    (same : before.flatMap serializeMap ++ (pairs.flatMap Pair.serialize ++ rest) =
      maps.flatMap serializeMap ++ rest') : ∃ map, maps[before.length]? = some map ∧ pairs <+: map := by
  induction before generalizing maps with
  | nil =>
    obtain ⟨map, maps, rfl⟩ := List.exists_cons_of_length_pos inside
    rw [List.forall_mem_cons] at sizedMaps
    rw [List.flatMap_cons, List.append_assoc] at same
    exact ⟨map, rfl, prefix_of_serializeMap sized sizedMaps.1 same⟩
  | cons first before ih =>
    obtain ⟨map, maps, rfl⟩ := List.exists_cons_of_length_pos (Nat.zero_lt_of_lt inside)
    rw [List.forall_mem_cons] at sizedBefore sizedMaps
    rw [List.flatMap_cons, List.append_assoc, List.flatMap_cons, List.append_assoc] at same
    obtain ⟨_, tails⟩ := serializeMap_unique sizedBefore.1 sizedMaps.1 same
    exact ih sizedBefore.2 sizedMaps.2 (Nat.lt_of_succ_lt_succ inside) tails

/-- Maps that are read in a row, as the pairs they are read from. -/
theorem times_decodeMap {insertPair : σ → Pair → Except Error σ} {initial : σ}
    {values : { values : List σ // values.length = n }}
    (read : (decodeMap insertPair initial).times n bytes = .ok (values, rest)) :
    ∃ maps : List (List Pair), maps.length = n ∧ bytes = maps.flatMap serializeMap ++ rest ∧
      ∀ map ∈ maps, (∀ pair ∈ map, pair.Readable) ∧ ∃ final, run insertPair initial map = .ok final := by
  induction n generalizing bytes with
  | zero =>
    obtain ⟨_, rfl⟩ := Decoder.pure_eq_ok.mp read
    exact ⟨[], rfl, rfl, fun _ absent => absurd absent List.not_mem_nil⟩
  | succ n ih =>
    simp only [Decoder.times, Decoder.bind_eq_ok, Decoder.pure_eq_ok, decodeMap_eq_ok] at read
    obtain ⟨final, _, ⟨map, readable, rfl, ran⟩, others, _, tail, rfl, rfl⟩ := read
    obtain ⟨maps, count, rfl, each⟩ := ih tail
    refine ⟨map :: maps, congrArg (· + 1) count, ?_, ?_⟩
    · rw [List.flatMap_cons, List.append_assoc]
    · exact List.forall_mem_cons.mpr ⟨⟨readable, final, ran⟩, each⟩

namespace Shape

/-- The place of a key is taken. -/
def Holds : (shape : Shape) → shape.Slot → Key → Prop
  | @unkeyed α _, slot, _ => (show Option α from slot) ≠ none
  | @keyed κ α _ _ _ key _, map, raw =>
    ∃ k, key.deserialize raw.key = .ok k ∧ k ∈ (show BTreeMap κ α from map)

/-- An insertion takes a vacant place and frees none. -/
theorem insert_holds {shape : Shape} {slot next : shape.Slot}
    (inserted : shape.insert slot pair = .ok next) : ¬ shape.Holds slot pair.key ∧
      shape.Holds next pair.key ∧ ∀ key, shape.Holds slot key → shape.Holds next key := by
  cases shape with
  | unkeyed value =>
    obtain ⟨_, rfl, a, _, rfl⟩ := insertUnkeyed_eq_ok.mp inserted
    exact ⟨fun held => held rfl, Option.some_ne_none a, fun _ _ => Option.some_ne_none a⟩
  | keyed key value =>
    obtain ⟨_, k, parsed, vacant, a, _, rfl⟩ := insertKeyed_eq_ok.mp inserted
    refine ⟨?_, ⟨k, parsed, Std.ExtTreeMap.mem_insert_self⟩, ?_⟩
    · rintro ⟨other, again, held⟩
      obtain rfl := Except.ok.inj (parsed.symm.trans again)
      exact vacant held
    · rintro raw ⟨other, again, held⟩
      exact ⟨other, again, Std.ExtTreeMap.mem_insert.mpr (.inr held)⟩

end Shape

namespace FieldMap
variable {F M : Type} {table : MapTable F M}

/-- Keys of MWEB fields: a later value takes the place of an earlier one. -/
def Repeatable (table : MapTable F M) (key : Key) : Prop :=
  table.armOf key.typeValue = .mweb ∧ table.admitsMweb key = true

/-- The place of a key is taken, for keys that have one. -/
def Holds (map : FieldMap table) (key : Key) : Prop :=
  match table.armOf key.typeValue with
  | .typed f => (table.shape f).Holds (map.fields f) key
  | .proprietary => ∃ k, ProprietaryKey.tryFrom key = .ok k ∧ k ∈ map.proprietary
  | .mweb => False
  | .unknown => key ∈ map.unknown

variable [DecidableEq F] {map next : FieldMap table}

theorem insertPair_keeps (inserted : map.insertPair pair = .ok next) (held : map.Holds key) :
    next.Holds key := by
  rw [Holds] at held ⊢
  obtain ⟨f, slot, _, filled, rfl⟩ | ⟨_, _, _, _, rfl⟩ | ⟨_, _, rfl⟩ | ⟨_, _, rfl⟩ :=
    insertPair_cases inserted
  · cases arm : table.armOf key.typeValue with
    | typed g =>
      simp only [arm] at held ⊢
      by_cases same : g = f
      · subst same
        rw [Function.update_self]
        exact (Shape.insert_holds filled).2.2 key held
      · rw [Function.update_of_ne same]
        exact held
    | mweb => exact absurd held (by simp [arm])
    | proprietary | unknown => simpa only [arm] using held
  · cases arm : table.armOf key.typeValue with
    | proprietary =>
      simp only [arm] at held ⊢
      obtain ⟨k, parsed, member⟩ := held
      exact ⟨k, parsed, Std.ExtTreeMap.mem_insert.mpr (.inr member)⟩
    | mweb => exact absurd held (by simp [arm])
    | typed | unknown => simpa only [arm] using held
  · exact held
  · cases arm : table.armOf key.typeValue with
    | unknown =>
      simp only [arm] at held ⊢
      exact Std.ExtTreeMap.mem_insert.mpr (.inr held)
    | mweb => exact absurd held (by simp [arm])
    | typed | proprietary => simpa only [arm] using held

/-- Unless it is an MWEB field, a pair takes a vacant place. -/
theorem insertPair_takes (inserted : map.insertPair pair = .ok next)
    (guarded : ¬ Repeatable table pair.key) :
    ¬ map.Holds pair.key ∧ next.Holds pair.key := by
  rw [Holds, Holds]
  obtain ⟨f, slot, arm, filled, rfl⟩ | ⟨arm, k, parsed, vacant, rfl⟩ | ⟨arm, admitted, rfl⟩ |
    ⟨arm, vacant, rfl⟩ := insertPair_cases inserted
  · simp only [arm, Function.update_self]
    exact ⟨(Shape.insert_holds filled).1, (Shape.insert_holds filled).2.1⟩
  · simp only [arm]
    refine ⟨?_, k, parsed, Std.ExtTreeMap.mem_insert_self⟩
    rintro ⟨other, again, held⟩
    obtain rfl := Except.ok.inj (parsed.symm.trans again)
    exact vacant held
  · exact absurd ⟨arm, admitted⟩ guarded
  · simp only [arm]
    exact ⟨vacant, Std.ExtTreeMap.mem_insert_self⟩

/-- Other keys than those of MWEB fields stand at most once in a map. -/
theorem run_unrepeated (ran : run insertPair map pairs = .ok final)
    (guarded : ¬ Repeatable table key) :
    ¬ (pairs.map Pair.key).Duplicate key := by
  refine run_not_duplicate Pair.key Holds (¬ Repeatable table ·) ?_ ?_ guarded ran
  · exact fun _ _ _ guarded inserted => insertPair_takes inserted guarded
  · exact fun _ _ _ _ inserted held => insertPair_keeps inserted held

end FieldMap
namespace GlobalArm

/-- The arms that keep no record of their keys. -/
def unrecorded : GlobalArm → Bool
  | mwebKernelCount | mwebKernelField | mwebOutputField | mwebInputField => true
  | unsignedTx | xpub | version | proprietary | mwebTxOffset | mwebStealthOffset | unknown => false

end GlobalArm

namespace GlobalState
variable [Secp256k1] {state next final : GlobalState}

def Holds (state : GlobalState) (key : Key) : Prop :=
  match GlobalArm.ofKey key with
  | .unsignedTx => state.tx ≠ none
  | .xpub => ∃ xpub, Bip32.Xpub.decode key.key = .ok xpub ∧ xpub ∈ state.xpub
  | .version => state.version ≠ none
  | .proprietary => ∃ k, ProprietaryKey.tryFrom key = .ok k ∧ k ∈ state.proprietary
  | .mwebTxOffset => state.mwebTxOffset ≠ none
  | .mwebStealthOffset => state.mwebStealthOffset ≠ none
  | .unknown => key ∈ state.unknown
  | .mwebKernelCount | .mwebKernelField | .mwebOutputField | .mwebInputField => False

/-- No place becomes vacant. -/
structure Grows (state next : GlobalState) : Prop where
  tx : state.tx ≠ none → next.tx ≠ none
  xpub : ∀ k ∈ state.xpub, k ∈ next.xpub
  version : state.version ≠ none → next.version ≠ none
  proprietary : ∀ k ∈ state.proprietary, k ∈ next.proprietary
  mwebTxOffset : state.mwebTxOffset ≠ none → next.mwebTxOffset ≠ none
  mwebStealthOffset : state.mwebStealthOffset ≠ none → next.mwebStealthOffset ≠ none
  unknown : ∀ k ∈ state.unknown, k ∈ next.unknown

theorem Grows.refl (state : GlobalState) : Grows state state :=
  ⟨id, fun _ => id, id, fun _ => id, id, id, fun _ => id⟩

theorem insertPair_grows (inserted : state.insertPair pair = .ok next) : Grows state next := by
  have inserts {κ α : Type} [Ord κ] [Std.TransOrd κ] {map : BTreeMap κ α} (key : κ) (a : α) :
      ∀ k ∈ map, k ∈ map.insert key a := fun k member => Std.ExtTreeMap.mem_insert.mpr (.inr member)
  cases insertPair_inserts inserted with
  | unsignedTx => exact { Grows.refl state with tx := fun _ => Option.some_ne_none _ }
  | xpub => exact { Grows.refl state with xpub := inserts _ _ }
  | version => exact { Grows.refl state with version := fun _ => Option.some_ne_none _ }
  | proprietary => exact { Grows.refl state with proprietary := inserts _ _ }
  | mwebTxOffset => exact { Grows.refl state with mwebTxOffset := fun _ => Option.some_ne_none _ }
  | mwebStealthOffset => exact { Grows.refl state with mwebStealthOffset := fun _ => Option.some_ne_none _ }
  | mwebKernelCount => exact Grows.refl state
  | mwebKernelField => exact { Grows.refl state with }
  | mwebOutputField => exact { Grows.refl state with }
  | mwebInputField => exact { Grows.refl state with }
  | unknown => exact { Grows.refl state with unknown := inserts _ _ }

theorem Grows.holds (grows : Grows state next) (held : state.Holds key) : next.Holds key := by
  rw [Holds] at held ⊢
  cases arm : GlobalArm.ofKey key with
  | unsignedTx =>
    simp only [arm] at held ⊢
    exact grows.tx held
  | xpub =>
    simp only [arm] at held ⊢
    exact held.imp fun k found => ⟨found.1, grows.xpub k found.2⟩
  | version =>
    simp only [arm] at held ⊢
    exact grows.version held
  | proprietary =>
    simp only [arm] at held ⊢
    exact held.imp fun k found => ⟨found.1, grows.proprietary k found.2⟩
  | mwebTxOffset =>
    simp only [arm] at held ⊢
    exact grows.mwebTxOffset held
  | mwebStealthOffset =>
    simp only [arm] at held ⊢
    exact grows.mwebStealthOffset held
  | unknown =>
    simp only [arm] at held ⊢
    exact grows.unknown key held
  | mwebKernelCount | mwebKernelField | mwebOutputField | mwebInputField => simp [arm] at held

/-- A pair of a recorded arm takes a vacant place. -/
theorem insertPair_takes (inserted : state.insertPair pair = .ok next)
    (guarded : (GlobalArm.ofKey pair.key).unrecorded = false) :
    ¬ state.Holds pair.key ∧ next.Holds pair.key := by
  rw [Holds, Holds]
  cases insertPair_inserts inserted with
  | unsignedTx arm _ vacant | version arm _ vacant => simp [arm, vacant]
  | mwebTxOffset _ arm vacant | mwebStealthOffset _ arm vacant => simp [arm, vacant]
  | xpub _ arm parsed vacant =>
    simp only [arm, parsed, Except.ok.injEq, exists_eq_left']
    exact ⟨vacant, Std.ExtTreeMap.mem_insert_self⟩
  | proprietary arm parsed vacant =>
    simp only [arm, parsed, Except.ok.injEq, exists_eq_left']
    exact ⟨vacant, Std.ExtTreeMap.mem_insert_self⟩
  | unknown arm vacant =>
    simp only [arm]
    exact ⟨vacant, Std.ExtTreeMap.mem_insert_self⟩
  | mwebKernelCount arm | mwebKernelField arm | mwebOutputField arm | mwebInputField arm =>
    simp [arm, GlobalArm.unrecorded] at guarded

theorem run_unrepeated (ran : run insertPair state pairs = .ok final)
    (guarded : (GlobalArm.ofKey key).unrecorded = false) : ¬ (pairs.map Pair.key).Duplicate key := by
  refine run_not_duplicate Pair.key Holds (fun key => (GlobalArm.ofKey key).unrecorded = false)
    ?_ ?_ guarded ran
  · exact fun _ _ _ guarded inserted => insertPair_takes inserted guarded
  · exact fun _ _ _ _ inserted held => (insertPair_grows inserted).holds held

end GlobalState
inductive MapKind where
  | global
  | input
  | output

section
variable [Secp256k1] [Hashes]

/-- A map of the kind starts at `bytes`. Which maps are those of inputs and outputs is known
once the global map is read. -/
def StartsMap (kind : MapKind) (data bytes : Bytes) : Prop :=
  match kind with
  | .global => data = header ++ bytes
  | .input => ∃ body global, ∃ before : List (List Pair), data = header ++ body ∧
    decodeGlobal body = .ok (global, before.flatMap serializeMap ++ bytes) ∧
    before.length < global.unsignedTx.input.toList.length
  | .output => ∃ body global, ∃ before : List (List Pair), data = header ++ body ∧
    decodeGlobal body = .ok (global, before.flatMap serializeMap ++ bytes) ∧
    global.unsignedTx.input.toList.length ≤ before.length ∧
    before.length < global.unsignedTx.input.toList.length + global.unsignedTx.output.toList.length

/-- Two pairs of one map have this key. -/
def Repeats (kind : MapKind) (key : Key) (data : Bytes) : Prop :=
  ∃ pairs : List Pair, ∃ rest, StartsMap kind data (pairs.flatMap Pair.serialize ++ rest) ∧
    (pairs.map Pair.key).Duplicate key

/-- Keys that may be repeated: those of MWEB fields, and the kernel count, as long as there is
room for two pairs. -/
def Exempt (kind : MapKind) (key : Key) : Prop :=
  match kind with
  | .global => (GlobalArm.ofKey key).unrecorded = true ∧
    14 + 2 * (key.serialize.length + 1) ≤ maxVecSize
  | .input => FieldMap.Repeatable Input.table key ∧ key.Readable
  | .output => FieldMap.Repeatable Output.table key

omit [Secp256k1] [Hashes] in
theorem count_le_length (pairs : List Pair) (key : Key) :
    (pairs.map Pair.key).count key * (key.serialize.length + 1) ≤
      (pairs.flatMap Pair.serialize).length := by
  induction pairs with
  | nil => simp
  | cons pair pairs ih =>
    rw [List.map_cons, List.flatMap_cons, List.length_append]
    by_cases same : pair.key = key
    · subst same
      have size : pair.key.serialize.length + 1 ≤ pair.serialize.length := by
        have positive := VarInt.wire_length_pos (UInt64.ofNat pair.value.length)
        rw [Pair.serialize_eq, sizedWire, List.length_append, List.length_append]
        omega
      rw [List.count_cons_self, Nat.succ_mul]
      omega
    · rw [List.count_cons_of_ne same]
      omega

omit [Hashes] in
/-- Some pair of an accepted global map holds a transaction. -/
theorem exists_unsignedTx {final : GlobalState} (ran : run GlobalState.insertPair .initial pairs = .ok final)
    (found : final.tx = some tx) :
    ∃ pair ∈ pairs, GlobalArm.ofKey pair.key = .unsignedTx ∧ 13 ≤ pair.serialize.length := by
  let Found (state : GlobalState) : Prop := state.tx = none ∨
    ∃ pair ∈ pairs, GlobalArm.ofKey pair.key = .unsignedTx ∧ 13 ≤ pair.serialize.length
  have invariant : Found final := by
    refine run_invariant ?_ (.inl rfl : Found .initial) ran
    intro state pair member next holds inserted
    cases GlobalState.insertPair_inserts inserted with
    | @unsignedTx arm unkeyed vacant unsigned read =>
      refine .inr ⟨pair, member, arm, ?_⟩
      obtain ⟨_, same⟩ := (GlobalState.readUnsignedTx_reads _ _ _).mp read
      have value := congrArg List.length same
      have inputs := VarInt.wire_length_pos unsigned.input.len
      have outputs := VarInt.wire_length_pos unsigned.output.len
      have size := VarInt.wire_length_pos (UInt64.ofNat pair.value.length)
      rw [Transaction.plainWire, vecWire, vecWire, LockTime.wire] at value
      simp only [List.append_nil, List.length_append, littleEndian_length] at value
      have key := VarInt.wire_length_pos (UInt64.ofNat (pair.key.key.length + 1))
      rw [Pair.serialize_eq, Key.serialize_eq, sizedWire]
      simp only [List.length_append, List.length_cons]
      omega
    | _ => exact holds
  exact invariant.resolve_left (by rw [found]; exact Option.some_ne_none tx)

omit [Hashes] in
/-- Two pairs with one key and a transaction take their room. -/
theorem length_of_duplicate {final : GlobalState}
    (ran : run GlobalState.insertPair .initial pairs = .ok final) (found : final.tx = some tx)
    (other : GlobalArm.ofKey key ≠ .unsignedTx) (repeated : (pairs.map Pair.key).Duplicate key) :
    14 + 2 * (key.serialize.length + 1) ≤ (serializeMap pairs).length := by
  obtain ⟨pair, member, arm, size⟩ := exists_unsignedTx ran found
  have different : pair.key ≠ key := fun same => other (same ▸ arm)
  have perm := List.perm_cons_erase member
  have counted := (perm.map Pair.key).count_eq key
  rw [List.map_cons, List.count_cons_of_ne different] at counted
  have twice := List.duplicate_iff_two_le_count.mp repeated
  rw [counted] at twice
  have room := (Nat.mul_le_mul_right (key.serialize.length + 1) twice).trans (count_le_length _ key)
  have lengths := (perm.flatMap_right Pair.serialize).length_eq
  rw [List.flatMap_cons, List.length_append] at lengths
  rw [serializeMap, List.length_append, List.length_singleton]
  omega

omit [Secp256k1] [Hashes] in
theorem sized_maps {maps : List (List Pair)} (short : (maps.flatMap serializeMap).length < 2 ^ 64) :
    ∀ map ∈ maps, ∀ pair ∈ map, pair.Sized := by
  intro map member
  apply Pair.sized_of_mem
  have part : (serializeMap map).length ≤ (maps.flatMap serializeMap).length := by
    rw [List.flatMap_def]
    exact (List.sublist_flatten_of_mem (List.mem_map_of_mem member)).length_le
  rw [serializeMap, List.length_append] at part
  omega

omit [Secp256k1] [Hashes] in
/-- Pairs at the start of one of several maps that were read are part of what was inserted
there. -/
theorem run_of_starts {before maps : List (List Pair)} {pairs : List Pair}
    (readable : ∀ map ∈ maps, ∀ pair ∈ map, pair.Readable) (inside : before.length < maps.length)
    (layout : maps.flatMap serializeMap ++ rest' =
      before.flatMap serializeMap ++ (pairs.flatMap Pair.serialize ++ rest))
    (short : (before.flatMap serializeMap ++ (pairs.flatMap Pair.serialize ++ rest)).length < 2 ^ 64)
    (repeated : (pairs.map Pair.key).Duplicate key) :
    ∃ map, maps[before.length]? = some map ∧ (map.map Pair.key).Duplicate key := by
  rw [List.length_append, List.length_append] at short
  have sized : ∀ pair ∈ pairs, pair.Sized := Pair.sized_of_mem (by omega)
  have sizedBefore : ∀ map ∈ before, ∀ pair ∈ map, pair.Sized := sized_maps (by omega)
  have sizedMaps := fun map member pair own => (readable map member pair own).sized
  obtain ⟨map, found, start⟩ := prefix_of_maps sized sizedBefore sizedMaps inside layout.symm
  exact ⟨map, found, repeated.mono_sublist (start.sublist.map Pair.key)⟩

theorem shortAfter {global : Psbt} (read : decodeGlobal body = .ok (global, rest))
    (short : (header ++ body).length < 2 ^ 64) : rest.length < 2 ^ 64 := by
  obtain ⟨_, _, _, _, rfl, _⟩ := decodeGlobal_eq_ok.mp read
  rw [List.length_append, List.length_append] at short
  omega

/-- A repeated key in an accepted PSBT is an exempt one. -/
theorem Repeats.exempt {psbt : Psbt} (repeats : Repeats kind key data) (short : data.length < 2 ^ 64)
    (accepted : deserialize data = .ok psbt) : Exempt kind key := by
  obtain ⟨_, accepted⟩ := deserialize_eq_ok.mp accepted
  obtain ⟨_, global, _, _, _, _, rfl, read, _, readInputs, readOutputs, _⟩ :=
    deserializeFromReader_eq_ok.mp accepted
  obtain ⟨inputMaps, inputCount, rfl, inputRuns⟩ := times_decodeMap readInputs
  obtain ⟨outputMaps, outputCount, rfl, outputRuns⟩ := times_decodeMap readOutputs
  obtain ⟨pairs, rest, starts, repeated⟩ := repeats
  cases kind with
  | global =>
    obtain ⟨all, state, tx, fits, layout, ran, found, rfl⟩ := decodeGlobal_eq_ok.mp read
    obtain rfl := List.append_cancel_left starts
    have sized : ∀ pair ∈ pairs, pair.Sized := by
      apply Pair.sized_of_mem
      rw [List.length_append, List.length_append] at short
      omega
    have sizedAll := fun pair member => (readable_of_length fits pair member).sized
    have start := prefix_of_serializeMap sized sizedAll layout
    have repeatedAll := repeated.mono_sublist (start.sublist.map Pair.key)
    have unrecorded : (GlobalArm.ofKey key).unrecorded = true := by
      by_contra recorded
      exact GlobalState.run_unrepeated ran (Bool.eq_false_iff.mpr recorded) repeatedAll
    refine ⟨unrecorded, (length_of_duplicate ran found ?_ repeatedAll).trans fits⟩
    intro arm
    rw [arm] at unrecorded
    contradiction
  | input =>
    obtain ⟨_, _, before, same, again, inside⟩ := starts
    obtain rfl := List.append_cancel_left same
    obtain ⟨rfl, layout⟩ := Prod.mk.inj (Except.ok.inj (read.symm.trans again))
    obtain ⟨map, found, repeatedMap⟩ := run_of_starts (fun map member => (inputRuns map member).1)
      (inputCount ▸ inside) layout (shortAfter again short) repeated
    obtain ⟨readable, final, ran⟩ := inputRuns map (List.mem_of_getElem? found)
    obtain ⟨pair, own, rfl⟩ := List.mem_map.mp repeatedMap.mem
    refine ⟨?_, (readable pair own).1⟩
    by_contra guarded
    exact FieldMap.run_unrepeated ran guarded repeatedMap
  | output =>
    obtain ⟨_, _, before, same, again, beyond, inside⟩ := starts
    obtain rfl := List.append_cancel_left same
    obtain ⟨rfl, layout⟩ := Prod.mk.inj (Except.ok.inj (read.symm.trans again))
    rw [← List.append_assoc, ← List.flatMap_append] at layout
    have readable : ∀ map ∈ inputMaps ++ outputMaps, ∀ pair ∈ map, pair.Readable := by
      intro map member
      obtain member | member := List.mem_append.mp member
      · exact (inputRuns map member).1
      · exact (outputRuns map member).1
    have count : before.length < (inputMaps ++ outputMaps).length := by
      rw [List.length_append, inputCount, outputCount]
      exact inside
    obtain ⟨map, found, repeatedMap⟩ := run_of_starts readable count layout (shortAfter again short)
      repeated
    rw [List.getElem?_append_right (inputCount ▸ beyond)] at found
    obtain ⟨_, final, ran⟩ := outputRuns map (List.mem_of_getElem? found)
    by_contra guarded
    exact FieldMap.run_unrepeated ran guarded repeatedMap

def blankInput : TxIn where
  previousOutput := { txid := .filled 32 0, vout := 0 }
  scriptSig := .empty
  sequence := 0
  witness := .new

/-- A transaction whose PSBT has just one map of the kind. -/
def blankTx (kind : MapKind) : Transaction where
  version := 1
  lockTime := .fromConsensus 0
  input := match kind with
    | .input => .singleton blankInput
    | .global | .output => .empty
  output := match kind with
    | .output => .singleton { value := 0, scriptPubkey := .empty }
    | .global | .input => .empty
  mwTx := none
  isHogEx := false

def blankPair (kind : MapKind) : Pair :=
  { key := { typeValue := 0x00, key := [] }, value := (blankTx kind).plainWire }

omit [Hashes] in
theorem blankTx_unsigned (kind : MapKind) : GlobalState.Unsigned (blankTx kind) where
  mwTx := rfl
  isHogEx := rfl
  witnesses := by
    cases kind with
    | input =>
      intro txin member
      rw [List.mem_singleton.mp member]
      rfl
    | global | output => exact fun _ absent => absurd absent List.not_mem_nil

omit [Hashes] in
theorem blankTx_short (kind : MapKind) : (vecWire TxIn.wire (blankTx kind).input).length ≤ 100 ∧
    (vecWire TxOut.wire (blankTx kind).output).length ≤ 100 := by
  cases kind <;> exact ⟨of_decide_eq_true rfl, of_decide_eq_true rfl⟩

omit [Hashes] in
theorem blankTx_read (kind : MapKind) :
    GlobalState.readUnsignedTx (blankTx kind).plainWire = .ok (blankTx kind, []) := by
  obtain ⟨inputs, outputs⟩ := blankTx_short kind
  exact GlobalState.readUnsignedTx_reads.read_all
    ⟨blankTx_unsigned kind, inputs.trans (by decide), outputs.trans (by decide)⟩

omit [Hashes] in
theorem length_blankPair (kind : MapKind) : (serializeMap [blankPair kind]).length ≤ 300 := by
  obtain ⟨inputs, outputs⟩ := blankTx_short kind
  have value : (blankPair kind).value.length ≤ 208 := by
    rw [blankPair, Transaction.plainWire, LockTime.wire]
    simp only [List.length_append, littleEndian_length]
    omega
  have key : (blankPair kind).key.serialize.length = 2 := rfl
  have varint := VarInt.wire_length_le (UInt64.ofNat (blankPair kind).value.length)
  rw [serializeMap, List.flatMap_singleton, Pair.serialize_eq, sizedWire]
  simp only [List.length_append, key, List.length_singleton]
  omega

theorem decodeGlobal_blank {extra : List Pair} {state : GlobalState}
    (ran : run GlobalState.insertPair { GlobalState.initial with tx := some (blankTx kind) } extra =
      .ok state) (found : state.tx = some (blankTx kind))
    (fits : (serializeMap (blankPair kind :: extra)).length ≤ maxVecSize) (rest : Bytes) :
    decodeGlobal (serializeMap (blankPair kind :: extra) ++ rest) =
      .ok (ofGlobal state (blankTx kind), rest) := by
  refine decodeGlobal_eq_ok.mpr ⟨_, state, blankTx kind, fits, rfl, ?_, found, rfl⟩
  have first := GlobalState.run_unsignedTx .initial (blankTx_read kind)
  exact run_append_eq_ok.mpr ⟨_, first, ran⟩

omit [Secp256k1] [Hashes] in
theorem ofKey_kernelCount {key : Key} (arm : GlobalArm.ofKey key = .mwebKernelCount) : key.key = [] := by
  have other {c : Prop} [Decidable c] {first second : GlobalArm} (ne : first ≠ .mwebKernelCount)
      (rest : second ≠ .mwebKernelCount) : (if c then first else second) ≠ .mwebKernelCount := by
    split
    · exact ne
    · exact rest
  by_contra keyed
  have long : ¬ (key.typeValue = 0x92 ∧ key.key.length = 0) := fun found =>
    keyed (List.eq_nil_of_length_eq_zero found.2)
  refine absurd arm ?_
  rw [GlobalArm.ofKey, if_neg long]
  iterate 9 refine other (by decide) ?_
  decide

/-- A value that goes with any unrecorded key. -/
def blankValue (key : Key) : Bytes := if key.key.isEmpty then [0, 0, 0, 0] else []

omit [Hashes] in
theorem insertPair_unrecorded (state : GlobalState) (unrecorded : (GlobalArm.ofKey key).unrecorded = true) :
    ∃ next, state.insertPair { key, value := blankValue key } = .ok next ∧ next.tx = state.tx := by
  cases arm : GlobalArm.ofKey key with
  | mwebKernelCount =>
    have size : (blankValue key).length = 4 := by simp [blankValue, ofKey_kernelCount arm]
    exact ⟨state, by simp [GlobalState.insertPair, arm, size], rfl⟩
  | mwebKernelField | mwebOutputField | mwebInputField =>
    simp only [GlobalState.insertPair, arm]
    exact ⟨_, rfl, rfl⟩
  | unsignedTx | xpub | version | proprietary | mwebTxOffset | mwebStealthOffset | unknown =>
    simp [arm, GlobalArm.unrecorded] at unrecorded

omit [Hashes] in
theorem length_blank_twice (fits : 14 + 2 * (key.serialize.length + 1) ≤ maxVecSize) :
    (serializeMap [blankPair .global, { key, value := blankValue key },
      { key, value := blankValue key }]).length ≤ maxVecSize := by
  have first : (blankPair .global).serialize.length = 13 := rfl
  have value : (sizedWire (blankValue key)).length = 1 ∨
      key.serialize.length = 2 ∧ (sizedWire (blankValue key)).length = 5 := by
    rw [blankValue, Key.serialize_eq]
    cases empty : key.key with
    | nil => exact .inr ⟨rfl, rfl⟩
    | cons byte tail => exact .inl rfl
  have total : (serializeMap [blankPair .global, { key, value := blankValue key },
      { key, value := blankValue key }]).length =
      14 + 2 * (key.serialize.length + (sizedWire (blankValue key)).length) := by
    simp only [serializeMap, List.flatMap_cons, List.flatMap_nil, List.length_append, first,
      List.length_singleton, List.length_nil, Pair.serialize_eq { key, value := blankValue key }]
    omega
  have limit : 28 ≤ maxVecSize := by decide
  rw [total]
  obtain one | ⟨short, five⟩ := value
  · rw [one]
    exact fits
  · rw [short, five]
    exact limit

omit [Secp256k1] [Hashes] in
/-- A map of two pairs with an MWEB key. -/
theorem decodeMap_twice {F M : Type} [DecidableEq F] {table : MapTable F M} {key : Key}
    (repeatable : FieldMap.Repeatable table key) (readable : key.Readable) (rest : Bytes) :
    ∃ map, decodeMap FieldMap.insertPair (FieldMap.default table)
      (serializeMap [{ key, value := [] }, { key, value := [] }] ++ rest) = .ok (map, rest) := by
  have readablePair : Pair.Readable { key, value := [] } :=
    ⟨readable, (by decide : (sizedWire []).length ≤ maxVecSize)⟩
  have each (map : FieldMap table) : map.insertPair { key, value := [] } = .ok _ :=
    FieldMap.insertPair_mweb repeatable.1 repeatable.2
  refine ⟨_, decodeMap_eq_ok.mpr ⟨_, ?_, rfl, run_cons_eq_ok.mpr ⟨_, each _,
    run_cons_eq_ok.mpr ⟨_, each _, rfl⟩⟩⟩⟩
  simp [readablePair]

def blankGlobal (kind : MapKind) : Psbt :=
  ofGlobal { GlobalState.initial with tx := some (blankTx kind) } (blankTx kind)

theorem blank_read (kind : MapKind) (rest : Bytes) :
    decodeGlobal (serializeMap [blankPair kind] ++ rest) =
      .ok (blankGlobal kind, rest) := by
  exact decodeGlobal_blank rfl rfl ((length_blankPair kind).trans (by decide)) rest

omit [Hashes] in
theorem length_blank_maps (kind : MapKind) (readable : key.Readable) :
    (header ++ (serializeMap [blankPair kind] ++
      (serializeMap [{ key, value := [] }, { key, value := [] }] ++ []))).length < 2 ^ 64 := by
  have first := length_blankPair kind
  have headerSize : header.length = 5 := rfl
  have varint := VarInt.wire_length_le (UInt64.ofNat (key.key.length + 1))
  have value : (sizedWire []).length = 1 := rfl
  have limit : maxVecSize < 2 ^ 32 := by decide
  rw [Key.Readable] at readable
  simp only [serializeMap, List.flatMap_cons, List.flatMap_nil, List.length_append, Pair.serialize_eq,
    Key.serialize_eq, List.length_cons, List.length_nil, value, headerSize] at first ⊢
  omega

theorem deserialize_of_parts {global : Psbt} {inputs : { inputs : List Input // inputs.length = _ }}
    {outputs : { outputs : List Output // outputs.length = _ }}
    (read : decodeGlobal body = .ok (global, afterGlobal)) (checked : global.unsignedTxChecks = .ok ())
    (readInputs : Input.decode.times global.unsignedTx.input.toList.length afterGlobal =
      .ok (inputs, afterInputs))
    (readOutputs : Output.decode.times global.unsignedTx.output.toList.length afterInputs =
      .ok (outputs, rest)) : ∃ psbt, deserialize (header ++ body) = .ok psbt :=
  ⟨_, deserialize_eq_ok.mpr ⟨rest, deserializeFromReader_eq_ok.mpr ⟨_, _, _, inputs, _, outputs, rfl, read,
    checked, readInputs, readOutputs, rfl⟩⟩⟩

/-- Every exempt key stands twice in a map of some accepted PSBT. -/
theorem Exempt.repeats (exempt : Exempt kind key) :
    ∃ data : Bytes, data.length < 2 ^ 64 ∧ Repeats kind key data ∧ ∃ psbt, deserialize data = .ok psbt := by
  cases kind with
  | global =>
    obtain ⟨unrecorded, room⟩ := exempt
    let pair : Pair := { key, value := blankValue key }
    obtain ⟨middle, first, kept⟩ := insertPair_unrecorded
      { GlobalState.initial with tx := some (blankTx .global) } unrecorded
    obtain ⟨final, second, keptAgain⟩ := insertPair_unrecorded middle unrecorded
    have ran : run GlobalState.insertPair { GlobalState.initial with tx := some (blankTx .global) }
        [pair, pair] = .ok final :=
      run_cons_eq_ok.mpr ⟨middle, first, run_cons_eq_ok.mpr ⟨final, second, rfl⟩⟩
    have fits := length_blank_twice room
    have read := decodeGlobal_blank ran (keptAgain.trans kept) fits []
    refine ⟨header ++ (serializeMap [blankPair .global, pair, pair] ++ []), ?_, ?_,
      deserialize_of_parts read rfl rfl rfl⟩
    · rw [List.append_nil, List.length_append]
      exact (Nat.add_le_add_left fits _).trans_lt (by decide)
    · refine ⟨[blankPair .global, pair, pair], [0x00] ++ [], ?_, ?_⟩
      · exact congrArg (header ++ ·) (List.append_assoc _ _ _)
      · exact List.duplicate_cons_iff.mpr (.inr (List.duplicate_cons_self_iff.mpr List.mem_cons_self))
  | input =>
    obtain ⟨repeatable, readable⟩ := exempt
    let pairs : List Pair := [{ key, value := [] }, { key, value := [] }]
    obtain ⟨map, mapRead⟩ := decodeMap_twice repeatable readable []
    have inputsRead : Input.decode.times 1 (serializeMap pairs ++ []) = .ok (⟨[map], rfl⟩, []) := by
      simp only [Decoder.times, Decoder.bind_eq_ok, Decoder.pure_eq_ok]
      exact ⟨map, [], mapRead, ⟨[], rfl⟩, [], ⟨rfl, rfl⟩, rfl, rfl⟩
    have read := blank_read .input (serializeMap pairs ++ [])
    refine ⟨header ++ (serializeMap [blankPair .input] ++ (serializeMap pairs ++ [])), ?_, ?_,
      deserialize_of_parts read rfl inputsRead rfl⟩
    · exact length_blank_maps _ readable
    · refine ⟨pairs, [0x00] ++ [], ⟨_, blankGlobal .input, [], rfl, read.trans ?_, Nat.one_pos⟩, ?_⟩
      · rw [serializeMap, List.append_assoc]
        rfl
      · exact List.duplicate_cons_self_iff.mpr List.mem_cons_self
  | output =>
    have readable : key.Readable := by
      have unkeyed : key.key = [] := List.isEmpty_iff.mp exempt.2
      rw [Key.Readable, unkeyed]
      exact Nat.zero_le _
    let pairs : List Pair := [{ key, value := [] }, { key, value := [] }]
    obtain ⟨map, mapRead⟩ := decodeMap_twice exempt readable []
    have outputsRead : Output.decode.times 1 (serializeMap pairs ++ []) = .ok (⟨[map], rfl⟩, []) := by
      simp only [Decoder.times, Decoder.bind_eq_ok, Decoder.pure_eq_ok]
      exact ⟨map, [], mapRead, ⟨[], rfl⟩, [], ⟨rfl, rfl⟩, rfl, rfl⟩
    have read := blank_read .output (serializeMap pairs ++ [])
    refine ⟨header ++ (serializeMap [blankPair .output] ++ (serializeMap pairs ++ [])), ?_, ?_,
      deserialize_of_parts read rfl rfl outputsRead⟩
    · exact length_blank_maps _ readable
    · refine ⟨pairs, [0x00] ++ [], ⟨_, blankGlobal .output, [], rfl, read.trans ?_, Nat.le_refl _, Nat.one_pos⟩, ?_⟩
      · rw [serializeMap, List.append_assoc]
        rfl
      · exact List.duplicate_cons_self_iff.mpr List.mem_cons_self

/-- A repeated key is refused wherever it stands, exactly when it is not exempt. -/
theorem repeats_refused_iff (kind : MapKind) (key : Key) :
    (∀ data : Bytes, data.length < 2 ^ 64 → Repeats kind key data →
      ∀ psbt, deserialize data ≠ .ok psbt) ↔ ¬ Exempt kind key := by
  constructor
  · intro refused exempt
    obtain ⟨data, short, repeats, psbt, accepted⟩ := exempt.repeats
    exact refused data short repeats psbt accepted
  · intro guarded data short repeats psbt accepted
    exact guarded (repeats.exempt short accepted)

end
section
attribute [local instance] Secp256k1.generatorOnly Hashes.ofEmpty

/-- A transaction without inputs and outputs, and two fees of one kernel. -/
def twoFees : Bytes :=
  [0x70, 0x73, 0x62, 0x74, 0xff,
    0x01, 0x00, 0x0a, 0x01, 0x00, 0x00, 0x00, 0x00, 0x00, 0x00, 0x00, 0x00, 0x00,
    0x06, 0x93, 0x00, 0x00, 0x00, 0x00, 0x02, 0x08, 0x05, 0x00, 0x00, 0x00, 0x00, 0x00, 0x00, 0x00,
    0x06, 0x93, 0x00, 0x00, 0x00, 0x00, 0x02, 0x08, 0x07, 0x00, 0x00, 0x00, 0x00, 0x00, 0x00, 0x00,
    0x00]

/-- The second fee takes the place of the first one. -/
theorem twoFees_overwritten :
    Repeats .global { typeValue := 0x93, key := [0x00, 0x00, 0x00, 0x00, 0x02] } twoFees ∧
      ∃ psbt : Psbt, deserialize twoFees = .ok psbt ∧
        (psbt.mwebKernels.map fun kernel => (show Option UInt64 from kernel.fields .fee)) = [some 7] := by
  have accepted : (fun psbt : Psbt => psbt.mwebKernels.map fun kernel =>
      (show Option UInt64 from kernel.fields .fee)) <$> deserialize twoFees = .ok [some 7] := by
    decide
  refine ⟨⟨globalPairs twoFees, [0x00], ?_, ?_⟩, map_eq_ok.mp accepted⟩
  · rw [StartsMap]
    decide
  · rw [List.duplicate_iff_two_le_count]
    decide

end
end Litecoin.Psbt
