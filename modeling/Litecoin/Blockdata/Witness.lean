import Litecoin.Consensus.Format

/-! The packed witness stack (`blockdata/witness.rs`). One buffer holds the elements
with their lengths, followed by a table of their offsets. -/
namespace Litecoin.Blockdata
open Wire Consensus

/-- The fields of `Witness`. -/
structure Packed where
  content : Bytes
  witnessElements : Nat
  indicesStart : Nat
deriving DecidableEq

namespace Packed

/-- `Witness::new`, `Witness::default`. -/
def new : Packed := { content := [], witnessElements := 0, indicesStart := 0 }

/-- Copies `bytes` into `buffer[start..start + bytes.len()]`. -/
def overwrite (buffer : Bytes) (start : Nat) (bytes : Bytes) : Bytes :=
  buffer.take start ++ (bytes ++ buffer.drop (start + bytes.length))

/-- `u32::to_ne_bytes` on a little-endian target. -/
def encodeCursor (buffer : Bytes) (startOfIndices index value : Nat) : Bytes :=
  overwrite buffer (startOfIndices + index * 4) (littleEndian 4 value)

/-- `while new_len <= required_len { new_len *= 2; }`. -/
def growLen (requiredLen : Nat) : (fuel newLen : Nat) → Nat
  | 0, newLen => newLen
  | fuel + 1, newLen =>
    if newLen ≤ requiredLen then growLen requiredLen fuel (newLen * 2) else newLen

def resizeIfNeeded (buffer : Bytes) (requiredLen : Nat) : Bytes :=
  if requiredLen ≥ buffer.length then
    let newLen := growLen requiredLen (requiredLen + 1) (max buffer.length 1)
    buffer ++ List.replicate (newLen - buffer.length) 0
  else buffer

/-- The loop over the elements. Offsets fill the head of `content` while the elements
are appended at `cursor`. -/
def decodeElements (indexSpace : Nat) :
    (remaining i cursor : Nat) → (content : Bytes) → Decoder Error (Nat × Bytes)
  | 0, _, cursor, content => pure (cursor, content)
  | remaining + 1, i, cursor, content => do
    let elementSize ← VarInt.consensusDecode
    let varintLen := VarInt.size elementSize
    if cursor + elementSize.toNat ≥ 2 ^ 64 then
      Decoder.fail (.oversizedVectorAllocation (2 ^ 64 - 1) maxVecSize)
    else if cursor + elementSize.toNat + varintLen ≥ 2 ^ 64 then
      Decoder.fail (.oversizedVectorAllocation (2 ^ 64 - 1) maxVecSize)
    else do
      let requiredLen := cursor + elementSize.toNat + varintLen
      if requiredLen > maxVecSize + indexSpace then
        Decoder.fail (.oversizedVectorAllocation requiredLen maxVecSize)
      else do
        let content := encodeCursor content 0 i (cursor - indexSpace)
        let content := resizeIfNeeded content requiredLen
        let content := overwrite content cursor (VarInt.wire elementSize)
        let element ← readExact elementSize.toNat
        let content := overwrite content (cursor + varintLen) element.val
        decodeElements indexSpace remaining (i + 1) (cursor + varintLen + elementSize.toNat) content

def consensusDecode : Decoder Error Packed := do
  let witnessElements ← VarInt.consensusDecode
  let n := witnessElements.toNat
  if n > maxVecSize then Decoder.fail (.oversizedVectorAllocation n maxVecSize)
  else if n = 0 then pure new
  else do
    let indexSpace := n * 4
    let (cursor, content) ← decodeElements indexSpace n 0 indexSpace
      (List.replicate (indexSpace + 128) 0)
    let content := content.take cursor
    -- `rotate_left` moves the offsets behind the elements
    pure { content := content.drop indexSpace ++ content.take indexSpace
           witnessElements := n, indicesStart := cursor - indexSpace }

def consensusEncode (witness : Packed) : Emission IoError :=
  let len := UInt64.ofNat witness.witnessElements
  let contentLen := witness.content.length - witness.witnessElements * 4
  .counted (contentLen + VarInt.size len) (VarInt.wire len ++ witness.content.take contentLen)

def isEmpty (witness : Packed) : Bool := witness.witnessElements == 0

/-- The elements with their lengths. -/
def body (elements : List ByteVec) : Bytes := elements.flatMap bytesWire

/-- The offset table of elements that start at `start`. -/
def offsets (start : Nat) : List ByteVec → Bytes
  | [] => []
  | element :: rest => littleEndian 4 start ++ offsets (start + (bytesWire element).length) rest

/-- The representation of a stack. -/
def pack (elements : Vec ByteVec) : Packed where
  content := body elements.toList ++ offsets 0 elements.toList
  witnessElements := elements.toList.length
  indicesStart := (body elements.toList).length

@[simp] theorem offsets_length (start : Nat) (elements : List ByteVec) :
    (offsets start elements).length = elements.length * 4 := by
  induction elements generalizing start with
  | nil => rfl
  | cons element rest ih =>
    simp only [offsets, List.length_append, littleEndian_length, ih, List.length_cons]
    omega

theorem offsets_append (start : Nat) (elements : List ByteVec) (element : ByteVec) :
    offsets start (elements ++ [element]) =
      offsets start elements ++ littleEndian 4 (start + (body elements).length) := by
  induction elements generalizing start with
  | nil => simp [offsets, body]
  | cons first rest ih =>
    simp only [List.cons_append, offsets, ih, List.append_assoc, body, List.flatMap_cons,
      List.length_append, Nat.add_assoc]

theorem body_append (elements : List ByteVec) (element : ByteVec) :
    body (elements ++ [element]) = body elements ++ bytesWire element := by
  simp [body]

theorem overwrite_middle {front old new back : Bytes} (at_ : start = front.length)
    (width : new.length = old.length) :
    overwrite (front ++ (old ++ back)) start new = front ++ (new ++ back) := by
  subst at_
  simp [overwrite, width, List.drop_append]

theorem overwrite_end (front junk new : Bytes) (at_ : start = front.length) :
    ∃ rest, overwrite (front ++ junk) start new = front ++ (new ++ rest) := by
  subst at_
  exact ⟨junk.drop new.length, by simp [overwrite, List.drop_append]⟩

theorem resizeIfNeeded_eq (buffer : Bytes) (requiredLen : Nat) :
    ∃ padding, resizeIfNeeded buffer requiredLen = buffer ++ padding := by
  rw [resizeIfNeeded]
  split
  · exact ⟨_, rfl⟩
  · exact ⟨[], (List.append_nil _).symm⟩

/-- The loop's buffer: the offsets so far, room for the others, and the elements. -/
structure Loaded (total : Nat) (elements : List ByteVec) (cursor : Nat) (buffer : Bytes) : Prop where
  count : elements.length ≤ total
  cursor_eq : cursor = total * 4 + (body elements).length
  buffer_eq : ∃ gap junk, gap.length = (total - elements.length) * 4 ∧
    buffer = offsets 0 elements ++ (gap ++ (body elements ++ junk))

theorem Loaded.initial (total : Nat) :
    Loaded total [] (total * 4) (List.replicate (total * 4 + 128) 0) where
  count := Nat.zero_le _
  cursor_eq := rfl
  buffer_eq := by
    refine ⟨List.replicate (total * 4) 0, List.replicate 128 0, List.length_replicate, ?_⟩
    rw [offsets, body, List.flatMap_nil, List.nil_append, List.nil_append,
      List.replicate_append_replicate]

/-- One round of the loop. -/
theorem Loaded.step (loaded : Loaded total elements cursor buffer) (room : elements.length < total)
    (element : ByteVec) (requiredLen : Nat) :
    Loaded total (elements ++ [element]) (cursor + VarInt.size element.len + element.toList.length)
      (overwrite (overwrite (resizeIfNeeded (encodeCursor buffer 0 elements.length
          (cursor - total * 4)) requiredLen) cursor (VarInt.wire element.len))
        (cursor + VarInt.size element.len) element.toList) := by
  obtain ⟨gap, junk, gapLength, rfl⟩ := loaded.buffer_eq
  have cursorEq := loaded.cursor_eq
  have gapSplit : gap = gap.take 4 ++ gap.drop 4 := (List.take_append_drop 4 gap).symm
  have gapFront : (gap.take 4).length = 4 := by rw [List.length_take]; omega
  have table : encodeCursor (offsets 0 elements ++ (gap ++ (body elements ++ junk))) 0
      elements.length (cursor - total * 4) =
      offsets 0 (elements ++ [element]) ++ (gap.drop 4 ++ (body elements ++ junk)) := by
    rw [encodeCursor, gapSplit, List.append_assoc, overwrite_middle (by simp) (by simp [gapFront]),
      offsets_append, cursorEq, Nat.add_sub_cancel_left, Nat.zero_add, List.append_assoc]
    simp
  obtain ⟨padding, resized⟩ := resizeIfNeeded_eq
    (offsets 0 (elements ++ [element]) ++ (gap.drop 4 ++ (body elements ++ junk))) requiredLen
  have front : cursor = (offsets 0 (elements ++ [element]) ++ gap.drop 4 ++ body elements).length := by
    simp only [List.length_append, offsets_length, List.length_drop, gapLength, List.length_singleton,
      cursorEq]
    omega
  have grouped : offsets 0 (elements ++ [element]) ++ (gap.drop 4 ++ (body elements ++ junk)) ++
      padding = (offsets 0 (elements ++ [element]) ++ gap.drop 4 ++ body elements) ++
      (junk ++ padding) := by
    simp only [List.append_assoc]
  obtain ⟨rest₁, written₁⟩ := overwrite_end _ (junk ++ padding)
    (VarInt.wire element.len) front
  have front₂ : cursor + VarInt.size element.len =
      ((offsets 0 (elements ++ [element]) ++ gap.drop 4 ++ body elements) ++
        VarInt.wire element.len).length := by
    rw [List.length_append, ← front, VarInt.wire_length]
  obtain ⟨rest₂, written₂⟩ := overwrite_end _ rest₁ element.toList front₂
  rw [table, resized, grouped, written₁, ← List.append_assoc, written₂]
  refine ⟨?_, ?_, gap.drop 4, rest₂, ?_, ?_⟩
  · rw [List.length_append, List.length_singleton]
    omega
  · rw [body_append, List.length_append, bytesWire, List.length_append, VarInt.wire_length, cursorEq]
    omega
  · rw [List.length_drop, gapLength, List.length_append, List.length_singleton]
    omega
  · simp only [body_append, bytesWire, List.append_assoc]

theorem bytesWire_length (element : ByteVec) :
    (bytesWire element).length = VarInt.size element.len + element.toList.length := by
  rw [bytesWire, List.length_append, VarInt.wire_length]

/-- Whatever the loop accepts is a run of elements that end within the limit. -/
theorem decodeElements_sound (loaded : Loaded total elements cursor buffer)
    (count : elements.length + remaining = total)
    (read : decodeElements (total * 4) remaining elements.length cursor buffer bytes =
      .ok ((cursor', buffer'), rest)) :
    ∃ more, more.length = remaining ∧ bytes = body more ++ rest ∧
      Loaded total (elements ++ more) cursor' buffer' ∧
      (more = [] ∨ (body (elements ++ more)).length ≤ maxVecSize) := by
  induction remaining generalizing elements cursor buffer bytes with
  | zero =>
    simp only [decodeElements, Decoder.pure_eq_ok, Prod.mk.injEq] at read
    obtain ⟨⟨rfl, rfl⟩, rfl⟩ := read
    exact ⟨[], rfl, rfl, by rwa [List.append_nil], .inl rfl⟩
  | succ remaining ih =>
    simp only [decodeElements, Decoder.bind_eq_ok, Decoder.ite_eq_ok, Decoder.fail_eq_ok,
      VarInt.reads _ _ _, readExact, Decoder.exact_eq_ok, and_false, false_or, true_and] at read
    obtain ⟨size, _, rfl, _, _, bound, chunk, _, rfl, read⟩ := read
    let element : ByteVec := ⟨chunk.val, by rw [chunk.property]; exact size.toNat_lt⟩
    have len : element.len = size := by
      apply UInt64.toNat_inj.mp
      rw [element.len_toNat]
      exact chunk.property
    have width : element.toList.length = size.toNat := chunk.property
    have step := loaded.step (by omega) element (cursor + size.toNat + VarInt.size size)
    rw [len, width] at step
    have position : elements.length + 1 = (elements ++ [element]).length := by simp
    rw [position] at read
    obtain ⟨more, moreCount, rfl, final, within⟩ := ih step (by simp; omega) read
    rw [List.append_assoc, List.singleton_append] at final within
    refine ⟨element :: more, by rw [List.length_cons, moreCount], ?_, final, .inr ?_⟩
    · simp only [body, List.flatMap_cons, bytesWire, len, List.append_assoc]
      rfl
    · obtain rfl | within := within
      · have cursorEq := loaded.cursor_eq
        rw [body_append, List.length_append, bytesWire_length, len, width]
        omega
      · exact within

/-- The loop accepts every run of elements within the limit. -/
theorem decodeElements_complete (loaded : Loaded total elements cursor buffer)
    (count : elements.length + more.length = total)
    (total_le : total ≤ maxVecSize)
    (within : (body (elements ++ more)).length ≤ maxVecSize) (rest : Bytes) :
    ∃ cursor' buffer', decodeElements (total * 4) more.length elements.length cursor buffer
        (body more ++ rest) = .ok ((cursor', buffer'), rest) ∧
      Loaded total (elements ++ more) cursor' buffer' := by
  induction more generalizing elements cursor buffer with
  | nil =>
    refine ⟨cursor, buffer, ?_, by rwa [List.append_nil]⟩
    simp [decodeElements, body]
  | cons element more ih =>
    have cursorEq := loaded.cursor_eq
    have lengths : (body elements).length + (VarInt.size element.len + element.toList.length) ≤
        maxVecSize := by
      simp only [body, List.flatMap_append, List.flatMap_cons, List.length_append,
        bytesWire_length] at within
      simp only [body]
      omega
    have step := loaded.step (by simp at count; omega) element
      (cursor + element.toList.length + VarInt.size element.len)
    have position : elements.length + 1 = (elements ++ [element]).length := by simp
    rw [← List.singleton_append, ← List.append_assoc] at within
    obtain ⟨cursor', buffer', read, final⟩ := ih step (by simp at count ⊢; omega) within
    rw [List.append_assoc, List.singleton_append] at final
    refine ⟨cursor', buffer', ?_, final⟩
    have small : maxVecSize * 8 < 2 ^ 64 := by decide
    simp only [List.length_cons, decodeElements, Decoder.bind_eq_ok, Decoder.ite_eq_ok,
      Decoder.fail_eq_ok, VarInt.reads _ _ _, readExact, Decoder.exact_eq_ok, and_false, false_or,
      true_and]
    have width := element.len_toNat
    refine ⟨element.len, element.toList ++ (body more ++ rest), ?_, by omega, by omega, by omega,
      ⟨element.toList, width.symm⟩, body more ++ rest, rfl, ?_⟩
    · simp only [body, List.flatMap_cons, bytesWire, List.append_assoc]
    · rw [position]
      simp only [width]
      exact read

theorem length_le_body (elements : List ByteVec) : elements.length ≤ (body elements).length := by
  induction elements with
  | nil => rfl
  | cons element rest ih =>
    have positive : 1 ≤ VarInt.size element.len := by
      rw [VarInt.size]
      split_ifs <;> decide
    simp only [body, List.flatMap_cons, List.length_append, List.length_cons, bytesWire_length] at ih ⊢
    omega

/-- The truncated and rotated buffer of a finished loop. -/
theorem Loaded.packed (loaded : Loaded elements.toList.length elements.toList cursor buffer) :
    let content := buffer.take cursor
    let indexSpace := elements.toList.length * 4
    ({ content := content.drop indexSpace ++ content.take indexSpace
       witnessElements := elements.toList.length
       indicesStart := cursor - indexSpace } : Packed) = pack elements := by
  obtain ⟨gap, junk, gapLength, rfl⟩ := loaded.buffer_eq
  obtain rfl : gap = [] := by
    apply List.eq_nil_of_length_eq_zero
    rw [gapLength, Nat.sub_self, Nat.zero_mul]
  have table := offsets_length 0 elements.toList
  have kept : (offsets 0 elements.toList ++ ([] ++ (body elements.toList ++ junk))).take cursor =
      offsets 0 elements.toList ++ body elements.toList := by
    rw [List.nil_append, ← List.append_assoc]
    apply List.take_left'
    rw [List.length_append, table, loaded.cursor_eq]
  simp only [kept, pack, Packed.mk.injEq, true_and]
  refine ⟨?_, ?_⟩
  · rw [List.drop_left' table, List.take_left' table]
  · rw [loaded.cursor_eq, Nat.add_sub_cancel_left]

theorem vecWire_eq (elements : Vec ByteVec) :
    vecWire bytesWire elements = VarInt.wire elements.len ++ body elements.toList := rfl

theorem consensusDecode_eq_ok {packed : Packed} :
    consensusDecode bytes = .ok (packed, rest) ↔ ∃ elements, packed = pack elements ∧
      (body elements.toList).length ≤ maxVecSize ∧ bytes = vecWire bytesWire elements ++ rest := by
  simp only [consensusDecode, Decoder.bind_eq_ok, Decoder.ite_eq_ok, Decoder.fail_eq_ok,
    Decoder.pure_eq_ok, VarInt.reads _ _ _, and_false, false_or, true_and, vecWire_eq,
    List.append_assoc]
  constructor
  · rintro ⟨count, _, rfl, limit, ⟨zero, rfl, rfl⟩ | ⟨positive, ⟨cursor, buffer⟩, _, read, rfl, rfl⟩⟩
    · have empty : count = 0 := UInt64.toNat_inj.mp zero
      exact ⟨.empty, rfl, Nat.zero_le _, by rw [empty]; rfl⟩
    · obtain ⟨more, moreCount, rfl, final, within⟩ :=
        decodeElements_sound (Loaded.initial count.toNat) (Nat.zero_add _) read
      let elements : Vec ByteVec := ⟨more, by rw [moreCount]; exact count.toNat_lt⟩
      have len : elements.len = count := by
        apply UInt64.toNat_inj.mp
        rw [elements.len_toNat]
        exact moreCount
      have total : count.toNat = elements.toList.length := moreCount.symm
      rw [List.nil_append, total] at final
      refine ⟨elements, ?_, ?_, by rw [len]⟩
      · rw [← final.packed, total]
      · obtain empty | within := within
        · simp [elements, empty, body]
        · exact within
  · rintro ⟨elements, rfl, within, rfl⟩
    have count := elements.len_toNat
    have limit : elements.toList.length ≤ maxVecSize := (length_le_body _).trans within
    refine ⟨elements.len, _, rfl, by omega, ?_⟩
    by_cases empty : elements = .empty
    · subst empty
      exact .inl ⟨rfl, rfl, rfl⟩
    · have positive : elements.len.toNat ≠ 0 := by
        rw [count]
        intro zero
        exact empty (Vec.ext (List.eq_nil_of_length_eq_zero zero))
      obtain ⟨cursor, buffer, read, final⟩ := decodeElements_complete
        (Loaded.initial elements.toList.length) (Nat.zero_add _) limit within rest
      rw [List.nil_append] at final
      refine .inr ⟨positive, (cursor, buffer), rest, ?_, ?_, rfl⟩
      · rw [count]
        exact read
      · rw [count]
        exact final.packed

theorem consensusEncode_pack (elements : Vec ByteVec) :
    (pack elements).consensusEncode = .written (vecWire bytesWire elements) := by
  have table := offsets_length 0 elements.toList
  simp only [consensusEncode, pack, List.length_append, table, Nat.add_sub_cancel, vecWire_eq]
  rw [List.take_left' rfl]
  refine Emission.counted_eq_written ?_
  rw [List.length_append, VarInt.wire_length, Nat.add_comm]

/-- The bytes an element and its length take. -/
def itemLen (element : ByteVec) : Nat := VarInt.size element.len + element.toList.length

/-- Elements from `start` on whose offsets fit their four bytes. -/
def InRange (start : Nat) : List ByteVec → Prop
  | [] => True
  | element :: rest => start < 2 ^ 32 ∧ InRange (start + itemLen element) rest

theorem body_cons (element : ByteVec) (rest : List ByteVec) :
    body (element :: rest) = bytesWire element ++ body rest := rfl

theorem itemLen_eq (element : ByteVec) : itemLen element = (bytesWire element).length := by
  rw [bytesWire_length, itemLen]

theorem inRange_of_lt {start : Nat} {elements : List ByteVec}
    (bound : start + (body elements).length < 2 ^ 32) : InRange start elements := by
  induction elements generalizing start with
  | nil => trivial
  | cons element rest ih =>
    rw [body_cons, List.length_append, ← itemLen_eq] at bound
    exact ⟨by omega, ih (by omega)⟩

/-- A stack that can be built: its offsets fit their four bytes, and its buffer is one that
can be allocated. -/
structure Indexed (elements : List ByteVec) : Prop where
  inRange : InRange 0 elements
  allocated : (body elements).length + elements.length * 4 < 2 ^ 63

theorem indexed_empty : Indexed [] := ⟨trivial, Nat.two_pow_pos 63⟩

/-- What the reader of a stack accepts can be built. -/
theorem indexed_of_le {elements : List ByteVec} (within : (body elements).length ≤ maxVecSize) :
    Indexed elements := by
  have count := length_le_body elements
  rw [maxVecSize] at within
  exact ⟨inRange_of_lt (by omega), by omega⟩

/-- What the reader returns. -/
theorem pack_of_decoded (bytes : Bytes) (packed : Packed) (rest : Bytes)
    (read : consensusDecode bytes = .ok (packed, rest)) :
    ∃ elements, packed = pack elements ∧ Indexed elements.toList :=
  (consensusDecode_eq_ok.mp read).imp fun _ found => ⟨found.1, indexed_of_le found.2.1⟩

end Packed

/-- The private fields keep every value the packing of a stack that can be built. -/
structure Witness where
  packed : Packed
  wellFormed : ∃ elements, packed = Packed.pack elements ∧ Packed.Indexed elements.toList
deriving DecidableEq

namespace Witness

def new : Witness := ⟨.new, .empty, rfl, Packed.indexed_empty⟩

def isEmpty (witness : Witness) : Bool := witness.packed.isEmpty

def consensusDecode : Decoder Error Witness := fun bytes =>
  match read : Packed.consensusDecode bytes with
  | .ok (packed, rest) =>
    .ok (⟨packed, Packed.pack_of_decoded bytes packed rest read⟩, rest)
  | .error e => .error e

def consensusEncode (witness : Witness) : Emission IoError := witness.packed.consensusEncode

/-- The bytes the writer takes out of the buffer. -/
def wire (witness : Witness) : Bytes :=
  VarInt.wire (UInt64.ofNat witness.packed.witnessElements) ++
    witness.packed.content.take witness.packed.indicesStart

def Valid (witness : Witness) : Prop := witness.packed.indicesStart ≤ maxVecSize

theorem wire_pack {witness : Witness} (packed : witness.packed = Packed.pack elements) :
    witness.wire = vecWire bytesWire elements := by
  simp only [wire, packed, Packed.pack, List.take_left']
  rfl

theorem consensusEncode_eq (witness : Witness) :
    witness.consensusEncode = .written witness.wire := by
  obtain ⟨elements, packed, -⟩ := witness.wellFormed
  rw [wire_pack packed, consensusEncode, packed, Packed.consensusEncode_pack]

theorem reads : Reads consensusDecode wire Valid := by
  intro bytes witness rest
  have raw : consensusDecode bytes = .ok (witness, rest) ↔
      Packed.consensusDecode bytes = .ok (witness.packed, rest) := by
    rw [consensusDecode]
    split
    · rename_i packed rest' read
      cases witness
      simp [read]
    · rename_i e read
      simp [read]
  rw [raw, Packed.consensusDecode_eq_ok]
  constructor
  · rintro ⟨elements, packed, within, rfl⟩
    refine ⟨?_, by rw [wire_pack packed]⟩
    rw [Valid, packed]
    exact within
  · rintro ⟨valid, rfl⟩
    obtain ⟨elements, packed, -⟩ := witness.wellFormed
    rw [Valid, packed] at valid
    exact ⟨elements, packed, valid, by rw [wire_pack packed]⟩

theorem isEmpty_iff (witness : Witness) : witness.isEmpty = true ↔ witness = new := by
  constructor
  · intro empty
    obtain ⟨elements, packed, -⟩ := witness.wellFormed
    have zero : elements.toList.length = 0 := by
      simpa [isEmpty, Packed.isEmpty, packed, Packed.pack] using empty
    have none : elements = .empty := Vec.ext (List.eq_nil_of_length_eq_zero zero)
    subst none
    cases witness
    congr
  · rintro rfl
    rfl

/-- A witness that is written within the limit can be read back. -/
theorem valid_of_wire_length {witness : Witness} (within : witness.wire.length ≤ maxVecSize) :
    witness.Valid := by
  obtain ⟨elements, packed, -⟩ := witness.wellFormed
  rw [wire_pack packed, Packed.vecWire_eq, List.length_append] at within
  rw [Valid, packed]
  exact (Nat.le_add_left _ _).trans within

end Witness
end Litecoin.Blockdata
