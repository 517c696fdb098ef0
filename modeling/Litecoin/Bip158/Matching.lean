import Litecoin.Bip158.BitStream
import Litecoin.Consensus.Format
import Litecoin.Wire.Scan
import Mathlib.Data.Finset.Card

/-! A filter matches a query exactly when it holds the query's hash: what is written for
a set is a sorted list of differences, and one pass over it answers sorted queries. -/
namespace Litecoin.Bip158
open Wire Consensus

/-- Sorted values as the Golomb-Rice codes of their differences. -/
def deltaCode (p last : Nat) (values : List Nat) : List Bool :=
  (differences last values).flatMap (riceCode p)

theorem deltaCode_cons (p last value : Nat) (rest : List Nat) :
    deltaCode p last (value :: rest) = riceCode p (value - last) ++ deltaCode p value rest := by
  rw [deltaCode, differences, List.flatMap_cons]
  rfl

namespace GcsFilterWriter

theorem encodeDeltas_spec {filter : GcsFilter} (short : filter.p < 64) {mapped : List UInt64}
    {last : UInt64}
    (sorted : (last :: mapped).Pairwise (· ≤ ·)) {writer : BitStreamWriter} (valid : writer.Valid)
    (wrote : Nat) :
    ∃ count next, encodeDeltas filter mapped last wrote writer = pure (wrote + count, next) ∧
      writer.Adds (deltaCode filter.p.toNat last.toNat (mapped.map UInt64.toNat)) count next := by
  induction mapped generalizing last writer wrote with
  | nil => exact ⟨0, writer, rfl, .nothing valid⟩
  | cons data mapped ih =>
    rw [List.pairwise_cons] at sorted
    have above := sorted.1 data List.mem_cons_self
    obtain ⟨count, middle, ran, head⟩ := filter.golombRiceEncode_spec short valid (data - last)
    obtain ⟨rest, next, ranRest, tail⟩ := ih sorted.2 head.valid (wrote + count)
    rw [UInt64.toNat_sub_of_le _ _ above] at head
    refine ⟨count + rest, next, ?_, ?_⟩
    · simp only [encodeDeltas, checkedSub, if_pos above, pure_bind, ran, ranRest, Nat.add_assoc]
    · rw [List.map_cons, deltaCode_cons]
      exact head.trans tail

end GcsFilterWriter

/-- The values of a filter from a cursor on. -/
structure Cursor.At (filter : GcsFilter) (cursor : Cursor) (rest : List Nat) : Prop where
  sorted : (cursor.data.toNat :: rest).Pairwise (· ≤ ·)
  bounded : ∀ value ∈ rest, value < 2 ^ 64
  counted : cursor.remaining = rest.length
  stands : ∃ padding, cursor.reader.Before (deltaCode filter.p.toNat cursor.data.toNat rest ++ padding)

namespace GcsFilterReader

theorem compare_toNat (a b : UInt64) : compare a b = compare a.toNat b.toNat := by
  rcases lt_trichotomy a.toNat b.toNat with less | same | more
  · rw [Nat.compare_eq_lt.mpr less, Std.compare_eq_lt.mpr (UInt64.lt_iff_toNat_lt.mpr less)]
  · rw [Nat.compare_eq_eq.mpr same, Std.compare_eq_iff_eq.mpr (UInt64.toNat.inj same)]
  · rw [Nat.compare_eq_gt.mpr more, Std.compare_eq_gt.mpr (UInt64.lt_iff_toNat_lt.mpr more)]

/-- How far a search for `p` gets: past all values, or to the first that is not below it. -/
inductive Reached (filter : GcsFilter) (p : Nat) (values : List Nat) : Ordering → Cursor → Prop where
  | exhausted : values.dropWhile (· < p) = [] → Reached filter p values .lt last
  | stopped : values.dropWhile (· < p) = next.data.toNat :: left → next.At filter left →
      Reached filter p values (compare next.data.toNat p) next

theorem seek_stops {filter : GcsFilter} {p : UInt64} {cursor : Cursor} {rest : List Nat}
    (stands : cursor.At filter rest) (above : p.toNat ≤ cursor.data.toNat) :
    ∃ found next, seek filter p cursor.remaining cursor.data cursor.reader = pure (found, next) ∧
      Reached filter p.toNat (cursor.data.toNat :: rest) found next := by
  refine ⟨_, cursor, ?_, .stopped ?_ stands⟩
  · rw [← compare_toNat]
    unfold seek
    cases found : compare cursor.data p with
    | lt =>
      rw [compare_toNat, Nat.compare_eq_lt] at found
      exact absurd found (not_lt.mpr above)
    | eq => rfl
    | gt => rfl
  · rw [List.dropWhile_cons_of_neg]
    simpa using above

theorem seek_spec {filter : GcsFilter} (short : filter.p < 64) (p : UInt64) {cursor : Cursor}
    {rest : List Nat}
    (stands : cursor.At filter rest) :
    ∃ found next, seek filter p cursor.remaining cursor.data cursor.reader = pure (found, next) ∧
      Reached filter p.toNat (cursor.data.toNat :: rest) found next := by
  induction rest generalizing cursor with
  | nil =>
    by_cases above : p.toNat ≤ cursor.data.toNat
    · exact seek_stops stands above
    have below := not_le.mp above
    refine ⟨.lt, ⟨cursor.data, 0, cursor.reader⟩, ?_, .exhausted ?_⟩
    · rw [stands.counted, List.length_nil, seek, compare_toNat, Nat.compare_eq_lt.mpr below]
    · exact List.dropWhile_cons_of_pos (by simpa using below)
  | cons value rest ih =>
    by_cases above : p.toNat ≤ cursor.data.toNat
    · exact seek_stops stands above
    have below := not_le.mp above
    obtain ⟨sorted, bounded, counted, padding, stands⟩ := stands
    rw [List.forall_mem_cons] at bounded
    rw [List.pairwise_cons] at sorted
    have ascends := sorted.1 value List.mem_cons_self
    have last : (UInt64.ofNat value).toNat = value := UInt64.toNat_ofNat_of_lt' bounded.1
    have delta : (UInt64.ofNat (value - cursor.data.toNat)).toNat = value - cursor.data.toNat :=
      UInt64.toNat_ofNat_of_lt' ((Nat.sub_le _ _).trans_lt bounded.1)
    rw [deltaCode_cons, List.append_assoc, ← delta] at stands
    obtain ⟨reader, decoded, stands⟩ := filter.golombRiceDecode_spec short stands
    have follows : Cursor.At filter ⟨UInt64.ofNat value, rest.length, reader⟩ rest :=
      ⟨last.symm ▸ sorted.2, bounded.2, rfl, padding, last.symm ▸ stands⟩
    obtain ⟨found, next, sought, reached⟩ := ih follows
    refine ⟨found, next, ?_, ?_⟩
    · rw [counted, List.length_cons, seek, compare_toNat, Nat.compare_eq_lt.mpr below]
      simp only [decoded, pure_bind, delta, Nat.add_sub_cancel' ascends,
        GcsFilter.checked_of_lt bounded.1]
      exact sought
    · have passed : (cursor.data.toNat :: value :: rest).dropWhile (· < p.toNat) =
          (value :: rest).dropWhile (· < p.toNat) := List.dropWhile_cons_of_pos (by simpa using below)
      simp only [last] at reached
      cases reached with
      | exhausted none => exact .exhausted (passed.trans none)
      | stopped some stands => exact .stopped (passed.trans some) stands

/-- What a search says of its query, and of the queries after it. -/
theorem Reached.outcome {filter : GcsFilter} {values : List Nat}
    (reached : Reached filter p values found next)
    (sorted : values.Pairwise (· ≤ ·)) :
    (found = .lt ∧ ∀ q, p ≤ q → q ∉ values) ∨
      ∃ left, next.At filter left ∧ (∀ q, p ≤ q → (q ∈ next.data.toNat :: left ↔ q ∈ values)) ∧
        ((found = .eq ∧ p ∈ values) ∨ (found = .gt ∧ p ∉ values)) := by
  cases reached with
  | exhausted none =>
    refine .inl ⟨rfl, fun q later => ?_⟩
    rw [← mem_dropWhile_lt values later, none]
    exact List.not_mem_nil
  | @stopped left _ some stands =>
    have first := mem_iff_of_dropWhile_lt sorted some
    have later : ∀ q, p ≤ q → (q ∈ next.data.toNat :: left ↔ q ∈ values) := by
      intro q later
      rw [← mem_dropWhile_lt values later, some]
    refine .inr ⟨left, stands, later, ?_⟩
    rcases lt_trichotomy next.data.toNat p with less | same | more
    · have above := List.head_dropWhile_not (l := values) (· < p)
        (by rw [some]; exact List.cons_ne_nil _ _)
      simp only [some, List.head_cons, decide_eq_false_iff_not] at above
      exact absurd less above
    · exact .inl ⟨Nat.compare_eq_eq.mpr same, first.mpr same⟩
    · exact .inr ⟨Nat.compare_eq_gt.mpr more, fun member => more.ne' (first.mp member)⟩

theorem anyLoop_spec {filter : GcsFilter} (short : filter.p < 64) {mapped : List UInt64}
    (ordered : mapped.Pairwise (· ≤ ·)) {cursor : Cursor} {rest : List Nat}
    (stands : cursor.At filter rest) :
    ∃ answer, anyLoop filter mapped cursor = pure answer ∧
      (answer = true ↔ ∃ p ∈ mapped, p.toNat ∈ cursor.data.toNat :: rest) := by
  induction mapped generalizing cursor rest with
  | nil => exact ⟨false, rfl, by simp⟩
  | cons p mapped ih =>
    rw [List.pairwise_cons] at ordered
    have after : ∀ q ∈ mapped, p.toNat ≤ q.toNat :=
      fun q member => UInt64.le_iff_toNat_le.mp (ordered.1 q member)
    obtain ⟨found, next, sought, reached⟩ := seek_spec short p stands
    rw [anyLoop, sought]
    simp only [pure_bind, List.exists_mem_cons_iff]
    obtain ⟨rfl, missing⟩ | ⟨left, follows, same, ⟨rfl, here⟩ | ⟨rfl, missing⟩⟩ :=
      reached.outcome stands.sorted
    · refine ⟨false, rfl, iff_of_false Bool.false_ne_true ?_⟩
      rintro (here | ⟨q, member, there⟩)
      · exact missing _ le_rfl here
      · exact missing _ (after q member) there
    · exact ⟨true, rfl, iff_of_true rfl (.inl here)⟩
    · obtain ⟨answer, ran, answers⟩ := ih ordered.2 follows
      refine ⟨answer, ran, answers.trans ?_⟩
      rw [or_iff_right missing]
      exact exists_congr fun q => and_congr_right fun member => same q.toNat (after q member)

theorem allLoop_spec {filter : GcsFilter} (short : filter.p < 64) {mapped : List UInt64}
    (ordered : mapped.Pairwise (· ≤ ·)) {cursor : Cursor} {rest : List Nat}
    (stands : cursor.At filter rest) :
    ∃ answer, allLoop filter mapped cursor = pure answer ∧
      (answer = true ↔ ∀ p ∈ mapped, p.toNat ∈ cursor.data.toNat :: rest) := by
  induction mapped generalizing cursor rest with
  | nil => exact ⟨true, rfl, by simp⟩
  | cons p mapped ih =>
    rw [List.pairwise_cons] at ordered
    have after : ∀ q ∈ mapped, p.toNat ≤ q.toNat :=
      fun q member => UInt64.le_iff_toNat_le.mp (ordered.1 q member)
    obtain ⟨found, next, sought, reached⟩ := seek_spec short p stands
    rw [allLoop, sought]
    simp only [pure_bind, List.forall_mem_cons]
    obtain ⟨rfl, missing⟩ | ⟨left, follows, same, ⟨rfl, here⟩ | ⟨rfl, missing⟩⟩ :=
      reached.outcome stands.sorted
    · exact ⟨false, rfl, iff_of_false Bool.false_ne_true fun all => missing _ le_rfl all.1⟩
    · obtain ⟨answer, ran, answers⟩ := ih ordered.2 follows
      refine ⟨answer, ran, answers.trans ?_⟩
      rw [and_iff_right here]
      exact forall₂_congr fun q member => same q.toNat (after q member)
    · exact ⟨false, rfl, iff_of_false Bool.false_ne_true fun all => missing all.1⟩

theorem mem_dedup {list : List UInt64} : a ∈ dedup list ↔ a ∈ list := by
  fun_induction dedup list with
  | case1 b rest ih =>
    rw [ih, List.mem_cons, List.mem_cons, List.mem_cons]
    tauto
  | case2 b c rest different ih => rw [List.mem_cons, ih, List.mem_cons (a := a) (b := b)]
  | case3 rest other => rfl

theorem dedup_sublist (list : List UInt64) : (dedup list).Sublist list := by
  fun_induction dedup list with
  | case1 b rest ih => exact ih.trans (List.sublist_cons_self _ _)
  | case2 b c rest different ih => exact ih.cons_cons b
  | case3 rest other => exact List.Sublist.refl rest

end GcsFilterReader

/-- What is left of a query or an element in a filter of `count` elements. -/
def GcsFilter.mapped (filter : GcsFilter) (m : UInt64) (count : Nat) (element : Bytes) : UInt64 :=
  mapToRange (filter.hash element) (UInt64.ofNat (count * m.toNat))

/-- The bytes of a filter that holds the given sorted values. -/
structure Holds (filter : GcsFilter) (values : List UInt64) (bytes : Bytes) : Prop where
  counted : values.length < 2 ^ 64
  sorted : values.Pairwise (· ≤ ·)
  coded : ∃ body padding, bytes = VarInt.wire (UInt64.ofNat values.length) ++ body ∧
    bitsOfBytes body = deltaCode filter.p.toNat 0 (values.map UInt64.toNat) ++ padding

theorem pairwise_sort (list : List UInt64) : (list.insertionSort (· ≤ ·)).Pairwise (· ≤ ·) := by
  have : Std.Total fun a b : UInt64 => a ≤ b := ⟨UInt64.le_total⟩
  have : IsTrans UInt64 fun a b => a ≤ b := ⟨fun _ _ _ => UInt64.le_trans⟩
  exact List.pairwise_insertionSort _ list

theorem GcsFilterWriter.finish_spec (writer : GcsFilterWriter) (short : writer.filter.p < 64)
    (positive : 0 < writer.m) (fits : writer.elements.size * writer.m.toNat < 2 ^ 64) :
    ∃ bytes values, writer.finish = pure (bytes.length, bytes) ∧ Holds writer.filter values bytes ∧
      values.length = writer.elements.size ∧
      ∀ value, value ∈ values ↔
        ∃ e ∈ writer.elements, writer.filter.mapped writer.m writer.elements.size e = value := by
  have counted : writer.elements.size < 2 ^ 64 :=
    (Nat.le_mul_of_pos_right _ (UInt64.lt_iff_toNat_lt.mp positive)).trans_lt fits
  obtain ⟨values, same⟩ : ∃ values, values =
      (writer.elements.toList.map
        (writer.filter.mapped writer.m writer.elements.size)).insertionSort (· ≤ ·) :=
    ⟨_, rfl⟩
  have sorted : values.Pairwise (· ≤ ·) := same ▸ pairwise_sort _
  have length : values.length = writer.elements.size := by
    rw [same, List.length_insertionSort, List.length_map, Std.ExtTreeSet.length_toList]
  have first : ∀ value ∈ values, (0 : UInt64) ≤ value :=
    fun value _ => UInt64.le_iff_toNat_le.mpr (Nat.zero_le value.toNat)
  obtain ⟨count, last, ran, added⟩ := encodeDeltas_spec short (List.pairwise_cons.mpr ⟨first, sorted⟩)
    BitStreamWriter.valid_new (VarInt.wire (UInt64.ofNat values.length)).length
  obtain ⟨padding, padded, flushed⟩ := added.valid.flush
  have written : last.writer.length = count := added.counted.trans (Nat.zero_add count)
  refine ⟨VarInt.wire (UInt64.ofNat values.length) ++ last.flush.2.writer, values, ?_,
    ⟨length ▸ counted, sorted, _, padding, rfl, ?_⟩, length, ?_⟩
  · unfold GcsFilter.mapped at same
    rw [finish, UInt64.toNat_ofNat_of_lt' counted, GcsFilter.checked_of_lt fits, pure_bind]
    simp only [← same, VarInt.consensusEncode_eq, Emission.written, lift_ok_bind, ran, pure_bind,
      List.length_append, flushed, written, Nat.add_assoc]
  · rw [padded, added.put]
    rfl
  · intro value
    rw [same, List.mem_insertionSort, List.mem_map]
    simp only [Std.ExtTreeSet.mem_toList]

theorem Holds.start {filter : GcsFilter} (short : filter.p < 64) {values : List UInt64}
    (holds : Holds filter values bytes) :
    ∃ body, GcsFilterReader.nElements bytes = (UInt64.ofNat values.length, body) ∧
      (values ≠ [] → ∃ cursor rest,
        GcsFilterReader.start filter (UInt64.ofNat values.length) body = pure cursor ∧
        cursor.At filter rest ∧ cursor.data.toNat :: rest = values.map UInt64.toNat) := by
  obtain ⟨counted, sorted, body, padding, rfl, coded⟩ := holds
  refine ⟨body, ?_, fun some => ?_⟩
  · rw [GcsFilterReader.nElements, VarInt.reads.read trivial body]
  cases values with
  | nil => exact absurd rfl some
  | cons value rest =>
    rw [List.length_cons] at counted
    have stands := BitStreamReader.before_new body
    rw [coded, List.map_cons, deltaCode_cons, List.append_assoc, Nat.sub_zero] at stands
    obtain ⟨reader, decoded, stands⟩ := filter.golombRiceDecode_spec short stands
    refine ⟨⟨value, rest.length, reader⟩, rest.map UInt64.toNat, ?_, ⟨?_, ?_, ?_, padding, stands⟩, rfl⟩
    · have one : (1 : UInt64) ≤ UInt64.ofNat (rest.length + 1) := by
        rw [UInt64.le_iff_toNat_le, UInt64.toNat_ofNat_of_lt' counted]
        exact Nat.le_add_left 1 rest.length
      have others : (UInt64.ofNat (rest.length + 1) - 1).toNat = rest.length := by
        rw [UInt64.toNat_sub_of_le _ _ one, UInt64.toNat_ofNat_of_lt' counted]
        rfl
      simp only [GcsFilterReader.start, decoded, pure_bind, List.length_cons, others]
    · rw [← List.map_cons, List.pairwise_map]
      exact sorted.imp fun le => UInt64.le_iff_toNat_le.mp le
    · intro n member
      obtain ⟨value, _, rfl⟩ := List.mem_map.mp member
      exact value.toNat_lt
    · exact (List.length_map _).symm

theorem Holds.ofNat_length_eq_zero (holds : Holds filter values bytes) :
    UInt64.ofNat values.length = 0 ↔ values = [] := by
  constructor
  · intro zero
    have length := congrArg UInt64.toNat zero
    rw [UInt64.toNat_ofNat_of_lt' holds.counted] at length
    exact List.eq_nil_of_length_eq_zero length
  · rintro rfl
    rfl

section Queries
variable (reader : GcsFilterReader) {values : List UInt64} {bytes : Bytes}
    (short : reader.filter.p < 64)
  (holds : Holds reader.filter values bytes) (fits : values.length * reader.m.toNat < 2 ^ 64)
include short holds fits

theorem matchAny_spec (query : List Bytes) :
    ∃ answer, reader.matchAny bytes query = pure answer ∧
      (answer = true ↔ ∃ q ∈ query, reader.filter.mapped reader.m values.length q ∈ values) := by
  obtain ⟨body, count, start⟩ := holds.start short
  obtain ⟨mapped, same⟩ : ∃ mapped, mapped =
      (query.map (reader.filter.mapped reader.m values.length)).insertionSort (· ≤ ·) := ⟨_, rfl⟩
  have sorted : mapped.Pairwise (· ≤ ·) := same ▸ pairwise_sort _
  have asked : (∃ q ∈ query, reader.filter.mapped reader.m values.length q ∈ values) ↔
      ∃ p ∈ mapped, p ∈ values := by
    rw [same]
    simp only [List.mem_insertionSort, List.mem_map, exists_exists_and_eq_and]
  unfold GcsFilter.mapped at same
  rw [asked, GcsFilterReader.matchAny, count]
  simp only [UInt64.toNat_ofNat_of_lt' holds.counted, GcsFilter.checked_of_lt fits, pure_bind, ← same]
  split_ifs with none empty
  · obtain rfl := List.isEmpty_iff.mp none
    exact ⟨false, rfl, by simp⟩
  · obtain rfl := holds.ofNat_length_eq_zero.mp empty
    exact ⟨false, rfl, by simp⟩
  · obtain ⟨cursor, rest, started, stands, all⟩ := start (mt holds.ofNat_length_eq_zero.mpr empty)
    obtain ⟨answer, ran, answers⟩ := GcsFilterReader.anyLoop_spec short sorted stands
    simp only [all, List.mem_map_of_injective fun _ _ => UInt64.toNat.inj] at answers
    rw [started, pure_bind]
    exact ⟨answer, ran, answers⟩

theorem matchAll_spec (query : List Bytes) :
    ∃ answer, reader.matchAll bytes query = pure answer ∧
      (answer = true ↔ ∀ q ∈ query, reader.filter.mapped reader.m values.length q ∈ values) := by
  obtain ⟨body, count, start⟩ := holds.start short
  obtain ⟨mapped, same⟩ : ∃ mapped, mapped =
      dedup ((query.map (reader.filter.mapped reader.m values.length)).insertionSort (· ≤ ·)) :=
        ⟨_, rfl⟩
  have sorted : mapped.Pairwise (· ≤ ·) :=
    same ▸ (pairwise_sort _).sublist (GcsFilterReader.dedup_sublist _)
  have asked : (∀ q ∈ query, reader.filter.mapped reader.m values.length q ∈ values) ↔
      ∀ p ∈ mapped, p ∈ values := by
    rw [same]
    simp only [GcsFilterReader.mem_dedup, List.mem_insertionSort, List.forall_mem_map]
  unfold GcsFilter.mapped at same
  rw [asked, GcsFilterReader.matchAll, count]
  simp only [UInt64.toNat_ofNat_of_lt' holds.counted, GcsFilter.checked_of_lt fits, pure_bind, ← same]
  split_ifs with none empty
  · obtain rfl := List.isEmpty_iff.mp none
    exact ⟨true, rfl, by simp⟩
  · obtain rfl := holds.ofNat_length_eq_zero.mp empty
    obtain ⟨p, rest, rfl⟩ := List.exists_cons_of_ne_nil (mt List.isEmpty_iff.mpr none)
    refine ⟨false, rfl, iff_of_false Bool.false_ne_true fun all => ?_⟩
    exact List.not_mem_nil (all p List.mem_cons_self)
  · obtain ⟨cursor, rest, started, stands, all⟩ := start (mt holds.ofNat_length_eq_zero.mpr empty)
    obtain ⟨answer, ran, answers⟩ := GcsFilterReader.allLoop_spec short sorted stands
    simp only [all, List.mem_map_of_injective fun _ _ => UInt64.toNat.inj] at answers
    rw [started, pure_bind]
    exact ⟨answer, ran, answers⟩

end Queries

namespace GcsFilterWriter

theorem addElement_fields (writer : GcsFilterWriter) (element : Bytes) :
    (writer.addElement element).filter = writer.filter ∧ (writer.addElement element).m = writer.m := by
  rw [addElement]
  split_ifs <;> exact ⟨rfl, rfl⟩

theorem mem_addElement (writer : GcsFilterWriter) (element e : Bytes) :
    e ∈ (writer.addElement element).elements ↔ (e = element ∧ element ≠ []) ∨ e ∈ writer.elements := by
  rw [addElement]
  split_ifs with empty
  · obtain rfl := List.isEmpty_iff.mp empty
    simp
  · have some : element ≠ [] := mt List.isEmpty_iff.mpr empty
    rw [Std.ExtTreeSet.mem_insert, Std.compare_eq_iff_eq]
    simp [some, eq_comm]

theorem added_spec (writer : GcsFilterWriter) (added : List Bytes) :
    (added.foldl addElement writer).filter = writer.filter ∧
      (added.foldl addElement writer).m = writer.m ∧
      ∀ e, e ∈ (added.foldl addElement writer).elements ↔
        (e ∈ added ∧ e ≠ []) ∨ e ∈ writer.elements := by
  induction added generalizing writer with
  | nil => simp
  | cons element added ih =>
    obtain ⟨filter, m, elements⟩ := ih (writer.addElement element)
    rw [List.foldl_cons, filter, m, (addElement_fields writer element).1,
      (addElement_fields writer element).2]
    refine ⟨rfl, rfl, fun e => ?_⟩
    rw [elements, mem_addElement, List.mem_cons]
    constructor
    · rintro (⟨later, some⟩ | ⟨rfl, some⟩ | before)
      · exact .inl ⟨.inr later, some⟩
      · exact .inl ⟨.inl rfl, some⟩
      · exact .inr before
    · rintro (⟨rfl | later, some⟩ | before)
      · exact .inr (.inl ⟨rfl, some⟩)
      · exact .inl ⟨later, some⟩
      · exact .inr (.inr before)

theorem size_eq_card {elements : BTreeSet Bytes} {S : Finset Bytes} (same : ∀ e, e ∈ elements ↔ e ∈ S) :
    elements.size = S.card := by
  have nodup : elements.toList.Nodup := by
    refine Std.ExtTreeSet.distinct_toList.imp fun different equal => different ?_
    exact Std.compare_eq_iff_eq.mpr equal
  have listed : elements.toList.toFinset = S := by
    ext e
    rw [List.mem_toFinset, Std.ExtTreeSet.mem_toList, same]
  rw [← listed, List.toFinset_card_of_nodup nodup, Std.ExtTreeSet.length_toList]

end GcsFilterWriter

/-- A filter has no false negatives, and a query matches only through its mapped hash. -/
theorem filter_matches_exactly (k0 k1 m : UInt64) (p : UInt8) (positive : 0 < m) (short : p < 64)
    (S : Finset Bytes) (nonempty : [] ∉ S) (fits : S.card * m.toNat < 2 ^ 64)
    (added : List Bytes) (all : added.toFinset = S) :
    ∃ bytes,
      (added.foldl GcsFilterWriter.addElement (.new k0 k1 m p)).finish.run =
        some (.ok (bytes.length, bytes)) ∧
      (∀ Q, ((GcsFilterReader.new k0 k1 m p).matchAny bytes Q).run =
        some (.ok (decide (∃ q ∈ Q, ∃ e ∈ S,
          GcsFilter.mapped ⟨k0, k1, p⟩ m S.card q = GcsFilter.mapped ⟨k0, k1, p⟩ m S.card e)))) ∧
      (∀ Q, ((GcsFilterReader.new k0 k1 m p).matchAll bytes Q).run =
        some (.ok (decide (∀ q ∈ Q, ∃ e ∈ S,
          GcsFilter.mapped ⟨k0, k1, p⟩ m S.card q = GcsFilter.mapped ⟨k0, k1, p⟩ m S.card e)))) ∧
      (∀ e ∈ S, ∀ Q, e ∈ Q →
        ((GcsFilterReader.new k0 k1 m p).matchAny bytes Q).run = some (.ok true)) ∧
      ∀ Q, (∀ q ∈ Q, q ∈ S) →
        ((GcsFilterReader.new k0 k1 m p).matchAll bytes Q).run = some (.ok true) := by
  obtain ⟨filter, range, elements⟩ := GcsFilterWriter.added_spec (.new k0 k1 m p) added
  obtain ⟨writer, same⟩ : ∃ writer,
      writer = added.foldl GcsFilterWriter.addElement (.new k0 k1 m p) := ⟨_, rfl⟩
  rw [← same] at filter range elements ⊢
  have members : ∀ e, e ∈ writer.elements ↔ e ∈ S := by
    intro e
    rw [elements, ← all, List.mem_toFinset]
    constructor
    · rintro (⟨member, _⟩ | absent)
      · exact member
      · exact absurd absent Std.ExtTreeSet.not_mem_empty
    · intro member
      refine .inl ⟨member, ?_⟩
      rintro rfl
      exact nonempty (all ▸ List.mem_toFinset.mpr member)
  have size := GcsFilterWriter.size_eq_card members
  obtain ⟨bytes, values, finished, holds, length, contents⟩ := writer.finish_spec
    (by rw [filter]; exact short) (by rw [range]; exact positive) (by rw [range, size]; exact fits)
  rw [filter, range, size] at contents
  rw [filter] at holds
  have counted : values.length = S.card := length.trans size
  have mapped : ∀ q, GcsFilter.mapped ⟨k0, k1, p⟩ m values.length q ∈ values ↔
      ∃ e ∈ S, GcsFilter.mapped ⟨k0, k1, p⟩ m S.card q = GcsFilter.mapped ⟨k0, k1, p⟩ m S.card e := by
    intro q
    simp only [counted, contents, members, GcsFilterWriter.new, eq_comm]
  have any : ∀ Q, ((GcsFilterReader.new k0 k1 m p).matchAny bytes Q).run =
      some (.ok (decide (∃ q ∈ Q, ∃ e ∈ S,
        GcsFilter.mapped ⟨k0, k1, p⟩ m S.card q = GcsFilter.mapped ⟨k0, k1, p⟩ m S.card e))) := by
    intro Q
    obtain ⟨answer, ran, answers⟩ := matchAny_spec (.new k0 k1 m p) short holds (counted ▸ fits) Q
    simp only [GcsFilterReader.new, mapped] at answers
    rw [ran, Bool.eq_iff_iff.mpr (answers.trans decide_eq_true_iff.symm)]
    rfl
  have every : ∀ Q, ((GcsFilterReader.new k0 k1 m p).matchAll bytes Q).run =
      some (.ok (decide (∀ q ∈ Q, ∃ e ∈ S,
        GcsFilter.mapped ⟨k0, k1, p⟩ m S.card q = GcsFilter.mapped ⟨k0, k1, p⟩ m S.card e))) := by
    intro Q
    obtain ⟨answer, ran, answers⟩ := matchAll_spec (.new k0 k1 m p) short holds (counted ▸ fits) Q
    simp only [GcsFilterReader.new, mapped] at answers
    rw [ran, Bool.eq_iff_iff.mpr (answers.trans decide_eq_true_iff.symm)]
    rfl
  refine ⟨bytes, congrArg ExceptT.run finished, any, every, ?_, ?_⟩
  · intro e member Q asked
    rw [any, decide_eq_true ⟨e, asked, e, member, rfl⟩]
  · intro Q inside
    rw [every, decide_eq_true fun q asked => ⟨q, inside q asked, rfl⟩]

/-- Two patterns of the source's test, one of them added twice, and a query that asks for
the other one. -/
theorem test_filter_matches : [] ∉ ({[0x00, 0x00, 0x00], [0xee, 0xee, 0xee]} : Finset Bytes) ∧
    ∃ bytes, ([[0xee, 0xee, 0xee], [0x00, 0x00, 0x00], [0xee, 0xee, 0xee]].foldl
        GcsFilterWriter.addElement (.new 0 0 M P)).finish.run = some (.ok (bytes.length, bytes)) ∧
      ((GcsFilterReader.new 0 0 M P).matchAny bytes [[0xab, 0xcd, 0xef], [0x00, 0x00, 0x00]]).run =
        some (.ok true) := by
  have fits : ({[0x00, 0x00, 0x00], [0xee, 0xee, 0xee]} : Finset Bytes).card * M.toNat < 2 ^ 64 := by
    decide
  obtain ⟨bytes, finished, _, _, contained, _⟩ := filter_matches_exactly 0 0 M P (by decide) (by decide)
    {[0x00, 0x00, 0x00], [0xee, 0xee, 0xee]} (by decide) fits
    [[0xee, 0xee, 0xee], [0x00, 0x00, 0x00], [0xee, 0xee, 0xee]] (by decide)
  exact ⟨by decide, bytes, finished, contained [0x00, 0x00, 0x00] (by decide) _ (by decide)⟩

end Litecoin.Bip158
