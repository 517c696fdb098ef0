import Litecoin.Blockdata.Witness

/-! The stack operations of `blockdata/witness.rs` on the packed representation, and the
list of byte strings they maintain. A `none` outside is a panic: an offset past `u32`, a
slice out of range or an overflow of `usize`. -/
namespace Litecoin.Blockdata
open Wire Consensus

namespace Packed

/-- `encode_cursor`, with the panic of its conversion to `u32`. -/
def encodeCursorChecked (buffer : Bytes) (startOfIndices index value : Nat) : Option Bytes :=
  if value < 2 ^ 32 then some (encodeCursor buffer startOfIndices index value) else none

def decodeCursor (bytes : Bytes) (startOfIndices index : Nat) : Option (Option Nat) :=
  let start := startOfIndices + index * 4
  let stop := start + 4
  if 2 ^ 64 ≤ stop then none
  else if bytes.length < stop then some none
  else some (some (fromLittleEndian ((bytes.drop start).take 4)))

/-- Writes the length of an element and the element itself. -/
def writeItem (buffer : Bytes) (cursor : Nat) (element : ByteVec) : Bytes :=
  overwrite (overwrite buffer cursor (VarInt.wire element.len))
    (cursor + VarInt.size element.len) element.toList

/-- The loop of `from_slice`. -/
def fillItems (contentSize : Nat) :
    (i cursor : Nat) → (content : Bytes) → List ByteVec → Option Bytes
  | _, _, content, [] => some content
  | i, cursor, content, element :: rest => do
    let content ← encodeCursorChecked content contentSize i cursor
    let content := writeItem content cursor element
    fillItems contentSize (i + 1) (cursor + VarInt.size element.len + element.toList.length) content rest

def fromSlice (slice : Vec ByteVec) : Option Packed := do
  let witnessElements := slice.toList.length
  let indexSize := witnessElements * 4
  let contentSize := (slice.toList.map itemLen).sum
  let content ← fillItems contentSize 0 0 (List.replicate (contentSize + indexSize) 0) slice.toList
  some { content, witnessElements, indicesStart := contentSize }

/-- `rotate_right` of `buffer[start..]`. -/
def rotateRight (buffer : Bytes) (start k : Nat) : Bytes :=
  let tail := buffer.drop start
  buffer.take start ++ (tail.drop (tail.length - k) ++ tail.take (tail.length - k))

/-- `push_slice`. -/
def pushSlice (self : Packed) (newElement : ByteVec) : Option Packed := do
  let witnessElements := self.witnessElements + 1
  let previousContentEnd := self.indicesStart
  let newItemTotalLen := itemLen newElement
  let content := self.content ++ List.replicate (newItemTotalLen + 4) 0
  let content := rotateRight content previousContentEnd newItemTotalLen
  let indicesStart := self.indicesStart + newItemTotalLen
  let content ← encodeCursorChecked content indicesStart (witnessElements - 1) previousContentEnd
  some { content := writeItem content previousContentEnd newElement, witnessElements, indicesStart }

def push (self : Packed) (newElement : ByteVec) : Option Packed := self.pushSlice newElement

def clear (_ : Packed) : Packed := { content := [], witnessElements := 0, indicesStart := 0 }

/-- The length and the element at a position of the buffer. -/
def itemAt (inner : Bytes) (index : Nat) : Option (Option Bytes) :=
  if inner.length < index then none
  else match VarInt.consensusDecode (inner.drop index) with
    | .error _ => some none
    | .ok (varint, _) =>
      let start := index + VarInt.size varint
      let stop := start + varint.toNat
      if stop < 2 ^ 64 ∧ stop ≤ inner.length then some (some ((inner.drop start).take varint.toNat))
      else none

def elementAt (self : Packed) (index : Nat) : Option (Option Bytes) := itemAt self.content index

def nth (self : Packed) (index : Nat) : Option (Option Bytes) := do
  match ← decodeCursor self.content self.indicesStart index with
  | none => some none
  | some pos => self.elementAt pos

def last (self : Packed) : Option (Option Bytes) :=
  if self.witnessElements = 0 then some none else self.nth (self.witnessElements - 1)

def secondToLast (self : Packed) : Option (Option Bytes) :=
  if self.witnessElements ≤ 1 then some none else self.nth (self.witnessElements - 2)

def thirdToLast (self : Packed) : Option (Option Bytes) :=
  if self.witnessElements ≤ 2 then some none else self.nth (self.witnessElements - 3)

/-- `Iter`. -/
structure Iter where
  inner : Bytes
  indicesStart : Nat
  currentIndex : Nat

def Iter.next (self : Iter) : Option (Option (Bytes × Iter)) := do
  match ← decodeCursor self.inner self.indicesStart self.currentIndex with
  | none => some none
  | some index =>
    let item ← itemAt self.inner index
    some (item.map (·, { self with currentIndex := self.currentIndex + 1 }))

/-- Runs an iterator to its end; a run that needs more than `fuel` calls has no result. -/
def Iter.collect : (fuel : Nat) → Iter → Option (List Bytes)
  | 0, _ => none
  | fuel + 1, self => do
    match ← self.next with
    | none => some []
    | some (item, self) => (item :: ·) <$> self.collect fuel

def iter (self : Packed) : Iter :=
  { inner := self.content, indicesStart := self.indicesStart, currentIndex := 0 }

def toVec (self : Packed) : Option (List Bytes) := self.iter.collect (self.content.length + 1)

def size (self : Packed) : Option Nat := do
  let elements ← self.toVec
  some (VarInt.size (UInt64.ofNat self.witnessElements) +
    (elements.map fun element => VarInt.size (UInt64.ofNat element.length) + element.length).sum)

/-- A stack of less than `2^32` bytes. -/
def Fits (elements : List ByteVec) : Prop := (body elements).length < 2 ^ 32

theorem body_append_length (elements more : List ByteVec) :
    (body (elements ++ more)).length = (body elements).length + (body more).length := by
  rw [body, List.flatMap_append, List.length_append]
  rfl

theorem sum_itemLen (elements : List ByteVec) :
    (elements.map itemLen).sum = (body elements).length := by
  induction elements with
  | nil => rfl
  | cons element rest ih =>
    rw [List.map_cons, List.sum_cons, ih, itemLen_eq, body_cons, List.length_append]

/-- An item fills the gap that was left for it. -/
theorem writeItem_gap {front gap back : Bytes} {element : ByteVec} (at_ : cursor = front.length)
    (room : gap.length = itemLen element) :
    writeItem (front ++ (gap ++ back)) cursor element = front ++ (bytesWire element ++ back) := by
  have size := VarInt.wire_length element.len
  have split : gap = gap.take (VarInt.size element.len) ++ gap.drop (VarInt.size element.len) :=
    (List.take_append_drop _ gap).symm
  have first : (gap.take (VarInt.size element.len)).length = VarInt.size element.len := by
    rw [List.length_take, room, itemLen]
    omega
  rw [writeItem, split, List.append_assoc, overwrite_middle at_ (by rw [size, first]),
    ← List.append_assoc front, overwrite_middle (by rw [at_, List.length_append, size]), bytesWire,
    List.append_assoc, List.append_assoc]
  rw [List.length_drop, room, itemLen, Nat.add_sub_cancel_left]

theorem encodeCursorChecked_gap {front gap back : Bytes} {startOfIndices index : Nat} (value : Nat)
    (at_ : startOfIndices + index * 4 = front.length) (room : gap.length = 4) :
    encodeCursorChecked (front ++ (gap ++ back)) startOfIndices index value =
      if value < 2 ^ 32 then some (front ++ (littleEndian 4 value ++ back)) else none := by
  rw [encodeCursorChecked, encodeCursor, overwrite_middle at_ (by rw [littleEndian_length, room])]

/-- The loop of `from_slice` after the elements `done`: items and offsets fill two areas of
the buffer from their fronts. -/
theorem fillItems_eq_some {contentSize : Nat} {rest : List ByteVec} {items table : Bytes}
    (done : List ByteVec) (total : contentSize = (body (done ++ rest)).length)
    (itemRoom : items.length = (body rest).length) (tableRoom : table.length = rest.length * 4)
    (filled : Bytes) :
    fillItems contentSize done.length (body done).length
        (body done ++ (items ++ (offsets 0 done ++ table))) rest = some filled ↔
      InRange (body done).length rest ∧
        filled = body (done ++ rest) ++ offsets 0 (done ++ rest) := by
  induction rest generalizing done items table with
  | nil =>
    obtain rfl : items = [] := List.eq_nil_of_length_eq_zero itemRoom
    obtain rfl : table = [] := List.eq_nil_of_length_eq_zero tableRoom
    simp [fillItems, InRange, eq_comm]
  | cons element rest ih =>
    have sizes := body_append_length done (element :: rest)
    rw [body_cons, List.length_append, ← itemLen_eq] at itemRoom sizes
    rw [List.length_cons] at tableRoom
    -- the next offset goes to the front of the free table
    have cursorAt : contentSize + done.length * 4 =
        (body done ++ (items ++ offsets 0 done)).length := by
      simp only [List.length_append, offsets_length]
      omega
    have marked : encodeCursorChecked (body done ++ (items ++ (offsets 0 done ++ table))) contentSize
        done.length (body done).length = if (body done).length < 2 ^ 32 then some (body done ++ (items ++
          (offsets 0 (done ++ [element]) ++ table.drop 4))) else none := by
      have grouped : body done ++ (items ++ (offsets 0 done ++ table)) =
          (body done ++ (items ++ offsets 0 done)) ++ (table.take 4 ++ table.drop 4) := by
        simp only [List.append_assoc, List.take_append_drop]
      rw [grouped, encodeCursorChecked_gap _ cursorAt (by rw [List.length_take]; omega),
        offsets_append, Nat.zero_add]
      simp only [List.append_assoc]
    -- and the next item to the front of the free items
    have written : writeItem (body done ++ (items ++ (offsets 0 (done ++ [element]) ++ table.drop 4)))
        (body done).length element = body (done ++ [element]) ++ (items.drop (itemLen element) ++
          (offsets 0 (done ++ [element]) ++ table.drop 4)) := by
      rw [← List.take_append_drop (itemLen element) items, List.append_assoc,
        writeItem_gap rfl (by rw [List.length_take]; omega), body_append, List.append_assoc,
        List.take_append_drop]
    have cursor : (body done).length + VarInt.size element.len + element.toList.length =
        (body (done ++ [element])).length := by
      rw [body_append, List.length_append, bytesWire_length]
      omega
    have index : done.length + 1 = (done ++ [element]).length := by simp
    have grouped : done ++ element :: rest = done ++ [element] ++ rest := by simp
    simp only [fillItems, marked, InRange]
    split_ifs with small
    · have next : (body done).length + itemLen element = (body (done ++ [element])).length := by
        rw [← cursor, itemLen, Nat.add_assoc]
      simp only [Option.bind_eq_bind, Option.bind_some, written, cursor, index, next, small, true_and]
      rw [ih (done ++ [element]) (by rw [total, grouped]) (by rw [List.length_drop]; omega)
        (by rw [List.length_drop]; omega), grouped]
    · simp only [Option.bind_eq_bind, Option.bind_none, reduceCtorEq, small, false_and]

theorem fromSlice_eq_some {elements : Vec ByteVec} :
    fromSlice elements = some packed ↔ InRange 0 elements.toList ∧ packed = pack elements := by
  have size := sum_itemLen elements.toList
  have filled := fillItems_eq_some [] rfl
    (List.length_replicate : (List.replicate _ (0 : UInt8)).length = (body elements.toList).length)
    (List.length_replicate : (List.replicate _ (0 : UInt8)).length = elements.toList.length * 4)
  simp only [fromSlice, size, ← List.replicate_append_replicate, Option.bind_eq_bind,
    Option.bind_eq_some_iff, Option.some.injEq]
  constructor
  · rintro ⟨content, written, rfl⟩
    obtain ⟨inRange, rfl⟩ := (filled content).mp written
    exact ⟨inRange, rfl⟩
  · rintro ⟨inRange, rfl⟩
    exact ⟨_, (filled _).mpr ⟨inRange, rfl⟩, rfl⟩

/-- Rotation moves fresh zeros between the items and the offsets. -/
theorem rotateRight_gap (items table : Bytes) (gap : Nat) :
    rotateRight (items ++ table ++ List.replicate (gap + 4) 0) items.length gap =
      items ++ (List.replicate gap 0 ++ (table ++ (List.replicate 4 0 ++ []))) := by
  have tail : (items ++ table ++ List.replicate (gap + 4) 0).drop items.length =
      (table ++ List.replicate 4 0) ++ List.replicate gap 0 := by
    rw [List.append_assoc, List.drop_left, List.append_assoc, List.replicate_append_replicate,
      Nat.add_comm]
  have kept : ((table ++ List.replicate 4 0) ++ List.replicate gap 0).length - gap =
      (table ++ List.replicate 4 (0 : UInt8)).length := by
    rw [List.length_append, List.length_replicate, Nat.add_sub_cancel]
  rw [rotateRight]
  simp only [tail, kept, List.drop_left, List.take_left]
  rw [List.append_assoc, List.take_left, List.append_nil]

theorem pushSlice_eq_some {elements appended : Vec ByteVec} {element : ByteVec}
    (appends : appended.toList = elements.toList ++ [element]) :
    (pack elements).pushSlice element = some packed ↔
      (body elements.toList).length < 2 ^ 32 ∧ packed = pack appended := by
  have table := offsets_length 0 elements.toList
  have cursorAt : (body elements.toList).length + itemLen element + elements.toList.length * 4 =
      (body elements.toList ++ (List.replicate (itemLen element) 0 ++
        offsets 0 elements.toList)).length := by
    simp only [List.length_append, List.length_replicate, table]
    omega
  have marked : encodeCursorChecked (body elements.toList ++ (List.replicate (itemLen element) 0 ++
        (offsets 0 elements.toList ++ (List.replicate 4 0 ++ []))))
      ((body elements.toList).length + itemLen element) elements.toList.length
      (body elements.toList).length = if (body elements.toList).length < 2 ^ 32 then
        some (body elements.toList ++ (List.replicate (itemLen element) 0 ++
          offsets 0 appended.toList)) else none := by
    have grouped : body elements.toList ++ (List.replicate (itemLen element) 0 ++
        (offsets 0 elements.toList ++ (List.replicate 4 (0 : UInt8) ++ []))) =
        (body elements.toList ++ (List.replicate (itemLen element) 0 ++
          offsets 0 elements.toList)) ++ (List.replicate 4 0 ++ []) := by
      simp only [List.append_assoc]
    rw [grouped, encodeCursorChecked_gap _ cursorAt List.length_replicate, appends,
      offsets_append, Nat.zero_add]
    simp only [List.append_assoc, List.append_nil]
  have written : writeItem (body elements.toList ++ (List.replicate (itemLen element) 0 ++
      offsets 0 appended.toList)) (body elements.toList).length element = _ :=
    writeItem_gap rfl List.length_replicate
  have result : ({ content := body elements.toList ++ (bytesWire element ++ offsets 0 appended.toList)
                   witnessElements := elements.toList.length + 1
                   indicesStart := (body elements.toList).length + itemLen element } : Packed) =
      pack appended := by
    rw [pack, appends, body_append, List.length_append, List.length_append, List.append_assoc,
      itemLen_eq]
    rfl
  simp only [pushSlice, pack, rotateRight_gap, Nat.add_sub_cancel, marked]
  split_ifs with small
  · simp only [Option.bind_eq_bind, Option.bind_some, written, result, small, true_and,
      Option.some.injEq]
    exact eq_comm
  · simp only [Option.bind_eq_bind, Option.bind_none, reduceCtorEq, small, false_and]

theorem offsets_lookup {elements : List ByteVec} {i : Nat} (within : i < elements.length)
    (start : Nat) : ((offsets start elements).drop (i * 4)).take 4 =
      littleEndian 4 (start + (body (elements.take i)).length) := by
  induction elements generalizing i start with
  | nil => simp at within
  | cons element rest ih =>
    cases i with
    | zero => simp [offsets, body, List.take_left']
    | succ i =>
      have skip : (i + 1) * 4 = (littleEndian 4 start).length + i * 4 := by
        rw [littleEndian_length]
        omega
      rw [offsets, skip, List.drop_append, List.drop_of_length_le (Nat.le_add_right _ _),
        Nat.add_sub_cancel_left, List.nil_append, ih (by simpa using within), List.take_succ_cons,
        body_cons, List.length_append, Nat.add_assoc]

theorem length_lt_of_fits {elements : List ByteVec} (fits : Fits elements) :
    elements.length < 2 ^ 32 := by
  exact Nat.lt_of_le_of_lt (length_le_body elements) fits

theorem Fits.indexed {elements : List ByteVec} (fits : Fits elements) : Indexed elements := by
  have count := length_lt_of_fits fits
  rw [Fits] at fits
  exact ⟨inRange_of_lt (by omega), by omega⟩

theorem inRange_append {start : Nat} {elements : List ByteVec} {element : ByteVec} :
    InRange start (elements ++ [element]) ↔
      InRange start elements ∧ start + (body elements).length < 2 ^ 32 := by
  induction elements generalizing start with
  | nil => simp [InRange, body]
  | cons first rest ih =>
    rw [List.cons_append, InRange, InRange, ih, body_cons, List.length_append, ← itemLen_eq,
      Nat.add_assoc, and_assoc]

theorem InRange.offset_lt {start i : Nat} {elements : List ByteVec} (inRange : InRange start elements)
    (within : i < elements.length) : start + (body (elements.take i)).length < 2 ^ 32 := by
  induction elements generalizing start i with
  | nil => simp at within
  | cons element rest ih =>
    cases i with
    | zero => exact inRange.1
    | succ i =>
      have later := ih inRange.2 (Nat.lt_of_succ_lt_succ within)
      rw [List.take_succ_cons, body_cons, List.length_append, ← itemLen_eq]
      omega

/-- The last offset is not below the number of the elements before it. -/
theorem Indexed.length_le {elements : List ByteVec} (indexed : Indexed elements) :
    elements.length ≤ 2 ^ 32 := by
  rcases Nat.eq_zero_or_pos elements.length with empty | some_
  · omega
  · have last := indexed.inRange.offset_lt (Nat.sub_lt some_ Nat.one_pos)
    have before := length_le_body (elements.take (elements.length - 1))
    rw [List.length_take] at before
    omega

section
variable {elements : Vec ByteVec} {i : Nat}

/-- The offset table of a packed stack. -/
theorem decodeCursor_pack (indexed : Indexed elements.toList) (small : i ≤ 2 ^ 32) :
    decodeCursor (pack elements).content (pack elements).indicesStart i =
      some (if i < elements.toList.length then some (body (elements.toList.take i)).length
        else none) := by
  have table := offsets_length 0 elements.toList
  have count := indexed.length_le
  have allocated := indexed.allocated
  have total : (pack elements).content.length =
      (body elements.toList).length + elements.toList.length * 4 := by
    rw [pack, List.length_append, table]
  have start : (pack elements).indicesStart = (body elements.toList).length := rfl
  simp only [decodeCursor, total, start]
  rw [if_neg (by omega)]
  by_cases within : i < elements.toList.length
  · have before := indexed.inRange.offset_lt within
    rw [if_neg (by omega), if_pos within]
    rw [pack, List.drop_append, List.drop_of_length_le (Nat.le_add_right _ _),
      Nat.add_sub_cancel_left, List.nil_append, offsets_lookup within, Nat.zero_add,
      fromLittleEndian_littleEndian (by omega)]
  · rw [if_pos (by omega), if_neg within]

theorem body_split {elements : List ByteVec} {element : ByteVec}
    (found : elements[i]? = some element) :
    body elements = body (elements.take i) ++ (bytesWire element ++ body (elements.drop (i + 1))) := by
  obtain ⟨within, rfl⟩ := List.getElem?_eq_some_iff.mp found
  have split : elements = elements.take i ++ elements[i] :: elements.drop (i + 1) := by
    rw [List.getElem_cons_drop, List.take_append_drop]
  calc body elements = body (elements.take i ++ elements[i] :: elements.drop (i + 1)) := by
        rw [← split]
    _ = _ := by simp only [body, List.flatMap_append, List.flatMap_cons]

/-- An item of a packed stack stands where its offset says. -/
theorem itemAt_pack {element : ByteVec} (indexed : Indexed elements.toList)
    (found : elements.toList[i]? = some element) :
    itemAt (pack elements).content (body (elements.toList.take i)).length =
      some (some element.toList) := by
  have content : (pack elements).content = body (elements.toList.take i) ++ (VarInt.wire element.len ++
      (element.toList ++ (body (elements.toList.drop (i + 1)) ++ offsets 0 elements.toList))) := by
    rw [pack]
    simp only [body_split found, bytesWire, List.append_assoc]
  have lengths : (body elements.toList).length = (body (elements.toList.take i)).length +
      (VarInt.size element.len + element.toList.length +
        (body (elements.toList.drop (i + 1))).length) := by
    rw [body_split found, List.length_append, List.length_append, bytesWire_length]
  have size := VarInt.wire_length element.len
  have read : VarInt.consensusDecode ((pack elements).content.drop
      (body (elements.toList.take i)).length) = .ok (element.len, element.toList ++
        (body (elements.toList.drop (i + 1)) ++ offsets 0 elements.toList)) := by
    rw [content, List.drop_left]
    exact (VarInt.reads _ _ _).mpr ⟨trivial, rfl⟩
  have total : (body elements.toList).length ≤ (pack elements).content.length := by
    rw [pack, List.length_append]
    exact Nat.le_add_right _ _
  have allocated := indexed.allocated
  simp only [itemAt, read, element.len_toNat]
  rw [if_neg (by omega), if_pos (by omega), content, ← List.append_assoc,
    List.drop_left' (by rw [List.length_append, size]), List.take_left]

theorem nth_pack (indexed : Indexed elements.toList) (small : i ≤ 2 ^ 32) :
    (pack elements).nth i = some (elements.toList[i]?.map Vec.toList) := by
  rw [nth, decodeCursor_pack indexed small]
  split_ifs with within
  · have found := List.getElem?_eq_getElem within
    simp only [Option.bind_eq_bind, Option.bind_some, elementAt]
    rw [itemAt_pack indexed found, found, Option.map_some]
  · rw [List.getElem?_eq_none (Nat.le_of_not_lt within)]
    rfl

/-- The iterator of a packed stack, from any position on. -/
theorem collect_pack (indexed : Indexed elements.toList) {fuel : Nat}
    (enough : elements.toList.length < i + fuel) (within : i ≤ elements.toList.length) :
    Iter.collect fuel ⟨(pack elements).content, (pack elements).indicesStart, i⟩ =
      some ((elements.toList.drop i).map Vec.toList) := by
  have count := indexed.length_le
  induction fuel generalizing i with
  | zero => omega
  | succ fuel ih =>
    have small : i ≤ 2 ^ 32 := by omega
    rw [Iter.collect, Iter.next, decodeCursor_pack indexed small]
    split_ifs with more
    · have found := List.getElem?_eq_getElem more
      simp only [Option.bind_eq_bind, Option.bind_some]
      rw [itemAt_pack indexed found]
      simp only [Option.bind_some, Option.map_some]
      have next : elements.toList.length < i + 1 + fuel := by omega
      rw [ih next more, ← List.getElem_cons_drop more]
      rfl
    · rw [List.drop_of_length_le (Nat.le_of_not_lt more)]
      rfl

theorem toVec_pack (indexed : Indexed elements.toList) :
    (pack elements).toVec = some (elements.toList.map Vec.toList) := by
  have long : elements.toList.length ≤ (pack elements).content.length := by
    rw [pack, List.length_append]
    exact (length_le_body _).trans (Nat.le_add_right _ _)
  exact collect_pack indexed (by omega) (Nat.zero_le _)

/-- `size` counts what `consensus_encode` writes. -/
theorem size_pack (indexed : Indexed elements.toList) :
    (pack elements).size = some (vecWire bytesWire elements).length := by
  rw [size, toVec_pack indexed, vecWire_eq, List.length_append, VarInt.wire_length, ← sum_itemLen]
  simp only [Option.bind_eq_bind, Option.bind_some, List.map_map]
  rfl

theorem pack_injective {elements others : Vec ByteVec} (same : pack elements = pack others) :
    elements = others := by
  obtain ⟨content, count, start⟩ := Packed.mk.inj same
  have wires : vecWire bytesWire elements = vecWire bytesWire others := by
    rw [vecWire_eq, vecWire_eq, (List.append_inj content start).1, Vec.len, Vec.len, count]
  have valid (values : Vec ByteVec) : ∀ a ∈ values.toList, True := fun _ _ => trivial
  have first := (decodeVec_reads decodeBytes_reads).read (valid elements) []
  have second := (decodeVec_reads decodeBytes_reads).read (valid others) []
  rw [wires, second] at first
  exact (congrArg Prod.fst (Except.ok.inj first)).symm

end
end Packed

/-- What a caller does to a witness variable. -/
inductive WitnessOp where
  | new
  | fromSlice (slice : Vec ByteVec)
  | push (newElement : ByteVec)
  | clear
  | consensusDecode (bytes : Bytes)

namespace WitnessOp
open Packed

/-- The variable after an operation; bytes that are refused leave it as it was. -/
def apply (self : Packed) : WitnessOp → Option Packed
  | .new => some Packed.new
  | .fromSlice slice => Packed.fromSlice slice
  | .push newElement => self.push newElement
  | .clear => some self.clear
  | .consensusDecode bytes => match Packed.consensusDecode bytes with
    | .ok (witness, _) => some witness
    | .error _ => some self

def execute (ops : List WitnessOp) : Option Packed := ops.foldlM apply Packed.new

/-- The bytes begin with an encoded stack that the decoder has room for. -/
def Encodes (bytes : Bytes) (elements : Vec ByteVec) : Prop :=
  (body elements.toList).length ≤ maxVecSize ∧ ∃ rest, bytes = vecWire bytesWire elements ++ rest

/-- The same operations on lists of byte strings. -/
inductive Acts : WitnessOp → Vec ByteVec → Vec ByteVec → Prop where
  | new : Acts .new before .empty
  | fromSlice : Acts (.fromSlice slice) before slice
  | push (appends : after.toList = before.toList ++ [newElement]) :
      Acts (.push newElement) before after
  | clear : Acts .clear before .empty
  | decoded (encodes : Encodes bytes after) : Acts (.consensusDecode bytes) before after
  | refused (encodes : ¬ ∃ elements, Encodes bytes elements) :
      Acts (.consensusDecode bytes) before before

/-- The lists a sequence of operations goes through, all of them `Within` some limit. -/
inductive Run (Within : List ByteVec → Prop) : List WitnessOp → Vec ByteVec → Prop where
  | start : Run Within [] .empty
  | step (earlier : Run Within ops before) (acts : op.Acts before after)
      (within : Within after.toList) : Run Within (ops ++ [op]) after

theorem encodes_iff {bytes : Bytes} {elements : Vec ByteVec} :
    Encodes bytes elements ↔ ∃ rest, Packed.consensusDecode bytes = .ok (pack elements, rest) := by
  constructor
  · rintro ⟨within, rest, rfl⟩
    exact ⟨rest, consensusDecode_eq_ok.mpr ⟨elements, rfl, within, rfl⟩⟩
  · rintro ⟨rest, read⟩
    obtain ⟨others, same, within, rfl⟩ := consensusDecode_eq_ok.mp read
    obtain rfl := pack_injective same
    exact ⟨within, rest, rfl⟩

/-- One operation on a packed stack that does not panic. -/
theorem apply_eq_some {op : WitnessOp} {before after : Vec ByteVec} {packed : Packed}
    (acts : op.Acts before after) (applied : op.apply (pack before) = some packed) :
    packed = pack after := by
  cases acts with
  | new => exact (Option.some.inj applied).symm
  | fromSlice => exact (fromSlice_eq_some.mp applied).2
  | push appends => exact ((pushSlice_eq_some appends).mp applied).2
  | clear => exact (Option.some.inj applied).symm
  | decoded encodes =>
    obtain ⟨rest, read⟩ := encodes_iff.mp encodes
    simp only [apply, read, Option.some.injEq] at applied
    exact applied.symm
  | @refused bytes _ encodes =>
    cases read : Packed.consensusDecode bytes with
    | error e =>
      simp only [apply, read, Option.some.injEq] at applied
      exact applied.symm
    | ok result =>
      obtain ⟨elements, same, within, split⟩ := consensusDecode_eq_ok.mp read
      exact absurd ⟨elements, within, _, split⟩ encodes

/-- Below `2^32` bytes no operation panics. -/
theorem apply_isSome {op : WitnessOp} {before after : Vec ByteVec} (acts : op.Acts before after)
    (fits : Fits after.toList) : ∃ packed, op.apply (pack before) = some packed := by
  cases acts with
  | new => exact ⟨_, rfl⟩
  | fromSlice =>
    exact ⟨_, fromSlice_eq_some.mpr ⟨inRange_of_lt (by rw [Nat.zero_add]; exact fits), rfl⟩⟩
  | push appends =>
    rw [Fits, appends, body_append_length] at fits
    exact ⟨_, (pushSlice_eq_some appends).mpr ⟨by omega, rfl⟩⟩
  | clear => exact ⟨_, rfl⟩
  | decoded encodes =>
    obtain ⟨rest, read⟩ := encodes_iff.mp encodes
    exact ⟨pack after, by simp only [apply, read]⟩
  | refused encodes =>
    rw [apply]
    split
    · exact ⟨_, rfl⟩
    · exact ⟨_, rfl⟩

theorem execute_append (ops : List WitnessOp) (op : WitnessOp) :
    execute (ops ++ [op]) = (execute ops).bind (apply · op) := by
  rw [execute, List.foldlM_append]
  simp [execute]

/-- A run that does not panic ends in the packing of its list. -/
theorem execute_eq_some {Within : List ByteVec → Prop} {ops : List WitnessOp}
    {elements : Vec ByteVec} {packed : Packed} (run : Run Within ops elements)
    (executed : execute ops = some packed) : packed = pack elements := by
  induction run generalizing packed with
  | start => exact (Option.some.inj executed).symm
  | step earlier acts within ih =>
    rw [execute_append] at executed
    obtain ⟨before, first, last⟩ := Option.bind_eq_some_iff.mp executed
    obtain rfl := ih first
    exact apply_eq_some acts last

theorem execute_isSome {ops : List WitnessOp} {elements : Vec ByteVec}
    (run : Run Fits ops elements) : execute ops = some (pack elements) := by
  induction run with
  | start => rfl
  | step earlier acts fits ih =>
    obtain ⟨packed, applied⟩ := apply_isSome acts fits
    rw [execute_append, ih, Option.bind_some, applied, apply_eq_some acts applied]

/-- A run that does not panic leaves offsets that fit their four bytes. -/
theorem execute_indexed {ops : List WitnessOp} {elements : Vec ByteVec} {packed : Packed}
    (run : Run (fun list => (body list).length + list.length * 4 < 2 ^ 63) ops elements)
    (executed : execute ops = some packed) : Indexed elements.toList := by
  induction run generalizing packed with
  | start => exact indexed_empty
  | @step ops before op after earlier acts within ih =>
    refine ⟨?_, within⟩
    rw [execute_append] at executed
    obtain ⟨middle, first, last⟩ := Option.bind_eq_some_iff.mp executed
    obtain rfl := execute_eq_some earlier first
    have inRange := (ih first).inRange
    cases acts with
    | new => trivial
    | fromSlice => exact (fromSlice_eq_some.mp last).1
    | push appends =>
      rw [appends, inRange_append]
      exact ⟨inRange, by rw [Nat.zero_add]; exact ((pushSlice_eq_some appends).mp last).1⟩
    | clear => trivial
    | decoded encodes => exact (indexed_of_le encodes.1).inRange
    | refused => exact inRange

/-- Whatever a caller does in the memory there is, the variable holds a `Witness`. -/
theorem execute_witness {ops : List WitnessOp} {elements : Vec ByteVec} {packed : Packed}
    (run : Run (fun list => (body list).length + list.length * 4 < 2 ^ 63) ops elements)
    (executed : execute ops = some packed) : ∃ witness : Witness, witness.packed = packed :=
  ⟨⟨packed, elements, execute_eq_some run executed, execute_indexed run executed⟩, rfl⟩

/-- The list after an operation is determined. -/
theorem Acts.unique {op : WitnessOp} {before after other : Vec ByteVec} (acts : op.Acts before after)
    (also : op.Acts before other) : other = after := by
  cases acts with
  | new => cases also; rfl
  | fromSlice => cases also; rfl
  | push appends =>
    cases also with
    | push appends' => exact Vec.ext (appends'.trans appends.symm)
  | clear => cases also; rfl
  | decoded encodes =>
    cases also with
    | decoded encodes' =>
      obtain ⟨_, read⟩ := encodes_iff.mp encodes
      obtain ⟨_, read'⟩ := encodes_iff.mp encodes'
      rw [read] at read'
      exact (pack_injective (congrArg Prod.fst (Except.ok.inj read'))).symm
    | refused none => exact absurd ⟨_, encodes⟩ none
  | refused none =>
    cases also with
    | decoded encodes => exact absurd ⟨_, encodes⟩ none
    | refused _ => rfl

theorem Acts.total (op : WitnessOp) (before : Vec ByteVec) (room : before.toList.length + 1 < 2 ^ 64) :
    ∃ after, op.Acts before after := by
  cases op with
  | new => exact ⟨_, .new⟩
  | fromSlice slice => exact ⟨_, .fromSlice⟩
  | push newElement => exact ⟨⟨before.toList ++ [newElement], by simpa using room⟩, .push rfl⟩
  | clear => exact ⟨_, .clear⟩
  | consensusDecode bytes =>
    by_cases found : ∃ elements, Encodes bytes elements
    · obtain ⟨elements, encodes⟩ := found
      exact ⟨elements, .decoded encodes⟩
    · exact ⟨before, .refused found⟩

theorem Run.fits {ops : List WitnessOp} {elements : Vec ByteVec} (run : Run Fits ops elements) :
    Fits elements.toList := by
  cases run with
  | start => exact Nat.two_pow_pos 32
  | step _ _ fits => exact fits

end WitnessOp

/-- What the readers of a witness return is what the list has, and `size` is the length of
the encoding. -/
structure Represents (packed : Packed) (elements : List ByteVec) : Prop where
  isEmpty : packed.isEmpty = elements.isEmpty
  toVec : packed.toVec = some (elements.map Vec.toList)
  nth : ∀ i < 2 ^ 32, packed.nth i = some (elements[i]?.map Vec.toList)
  last : packed.last = some (elements.reverse[0]?.map Vec.toList)
  secondToLast : packed.secondToLast = some (elements.reverse[1]?.map Vec.toList)
  thirdToLast : packed.thirdToLast = some (elements.reverse[2]?.map Vec.toList)
  size : ∃ wire, packed.consensusEncode = .written wire ∧ packed.size = some wire.length

theorem Packed.represents {elements : Vec ByteVec} (fits : Packed.Fits elements.toList) :
    Represents (Packed.pack elements) elements.toList := by
  have count := Packed.length_lt_of_fits fits
  have elementsOf : (Packed.pack elements).witnessElements = elements.toList.length := rfl
  have fromEnd (k : Nat) : (if elements.toList.length ≤ k then some none
      else (Packed.pack elements).nth (elements.toList.length - (k + 1))) =
        some (elements.toList.reverse[k]?.map Vec.toList) := by
    split_ifs with short
    · rw [List.getElem?_eq_none (by rw [List.length_reverse]; exact short)]
      rfl
    · rw [Packed.nth_pack fits.indexed (by omega), List.getElem?_reverse (by omega)]
      congr 3
      omega
  have indexed := fits.indexed
  refine ⟨?_, Packed.toVec_pack indexed, fun i small => Packed.nth_pack indexed small.le, ?_, fromEnd 1,
    fromEnd 2, _, Packed.consensusEncode_pack elements, Packed.size_pack indexed⟩
  · rw [Packed.isEmpty, elementsOf]
    cases elements.toList <;> rfl
  · rw [← fromEnd 0, Packed.last, elementsOf]
    simp only [Nat.le_zero, Nat.zero_add]

/-- A witness variable that no operation has panicked on holds the packing of the list the
operations describe, and reads as that list while it is below `2^32` bytes; while all
lists are, no operation panics and each has one outcome. Packed stacks are equal when
their lists are. -/
theorem witness_represents_list :
    (∀ ops elements packed, WitnessOp.Run (fun _ => True) ops elements →
      WitnessOp.execute ops = some packed →
      packed = Packed.pack elements ∧
        (Packed.Fits elements.toList → Represents packed elements.toList)) ∧
    (∀ ops elements, WitnessOp.Run Packed.Fits ops elements →
      WitnessOp.execute ops = some (Packed.pack elements) ∧
      ∀ op : WitnessOp, ∃! after, op.Acts elements after) ∧
    ∀ elements others, Packed.pack elements = Packed.pack others ↔ elements = others := by
  refine ⟨?_, ?_, ?_⟩
  · intro ops elements packed run executed
    obtain rfl := WitnessOp.execute_eq_some run executed
    exact ⟨rfl, Packed.represents⟩
  · intro ops elements run
    refine ⟨WitnessOp.execute_isSome run, fun op => ?_⟩
    have count := Packed.length_lt_of_fits run.fits
    obtain ⟨after, acts⟩ := WitnessOp.Acts.total op elements (by omega)
    exact ⟨after, acts, fun other also => acts.unique also⟩
  · intro elements others
    constructor
    · exact Packed.pack_injective
    · rintro rfl
      rfl

def oneByte : ByteVec := ⟨[0xAA], by decide⟩
def twoBytes : ByteVec := ⟨[0x01, 0x02], by decide⟩

/-- `from_slice` of one element, then a `push`. -/
theorem twoElements_represented :
    WitnessOp.execute [.fromSlice ⟨[oneByte], by decide⟩, .push twoBytes] =
        some ⟨[1, 0xAA, 2, 0x01, 0x02, 0, 0, 0, 0, 2, 0, 0, 0], 2, 5⟩ ∧
      Represents ⟨[1, 0xAA, 2, 0x01, 0x02, 0, 0, 0, 0, 2, 0, 0, 0], 2, 5⟩ [oneByte, twoBytes] := by
  have run : WitnessOp.Run (fun _ => True) [.fromSlice ⟨[oneByte], by decide⟩, .push twoBytes]
      ⟨[oneByte, twoBytes], by decide⟩ := by
    refine .step (.step .start .fromSlice trivial) (.push rfl) trivial
  have executed : WitnessOp.execute [.fromSlice ⟨[oneByte], by decide⟩, .push twoBytes] =
      some ⟨[1, 0xAA, 2, 0x01, 0x02, 0, 0, 0, 0, 2, 0, 0, 0], 2, 5⟩ := by
    decide
  have fits : Packed.Fits [oneByte, twoBytes] := by
    rw [Packed.Fits]
    decide
  exact ⟨executed, (witness_represents_list.1 _ _ _ run executed).2 fits⟩

end Litecoin.Blockdata
