import Litecoin.Wire.Endian

/-! Data in blocks of a fixed size, and padding up to a whole number of them. -/
namespace Litecoin.Wire

/-- The complete blocks of the data, from the front. -/
def blocks (size : Nat) (data : List α) : List { block : List α // block.length = size } :=
  go (data.length / size) data
where
  go : Nat → List α → List { block : List α // block.length = size }
    | 0, _ => []
    | count + 1, data =>
      if full : (data.take size).length = size then ⟨data.take size, full⟩ :: go count (data.drop size) else []

theorem blocks_short {size : Nat} {data : List α} (short : data.length < size) : blocks size data = [] := by
  rw [blocks, Nat.div_eq_of_lt short, blocks.go]

theorem blocks_nil {size : Nat} (positive : 0 < size) : blocks size ([] : List α) = [] := blocks_short positive

theorem blocks_cons {size : Nat} (positive : 0 < size) (block : { block : List α // block.length = size })
    (rest : List α) : blocks size (block.val ++ rest) = block :: blocks size rest := by
  have count : (block.val ++ rest).length / size = rest.length / size + 1 := by
    rw [List.length_append, block.property, Nat.add_div_left _ positive]
  have front : (block.val ++ rest).take size = block.val := List.take_left' block.property
  rw [blocks, count, blocks.go, dif_pos (by rw [front, block.property])]
  simp only [front, List.drop_left' block.property]
  rfl

theorem blocks_of_le {size : Nat} (positive : 0 < size) {data : List α} (enough : size ≤ data.length) :
    blocks size data =
      ⟨data.take size, List.length_take_of_le enough⟩ :: blocks size (data.drop size) := by
  have front := blocks_cons positive ⟨data.take size, List.length_take_of_le enough⟩ (data.drop size)
  rwa [List.take_append_drop] at front

theorem blocks_self {size : Nat} (positive : 0 < size) (block : { block : List α // block.length = size }) :
    blocks size block.val = [block] := by
  have one := blocks_cons positive block []
  rwa [List.append_nil, blocks_nil positive] at one

theorem blocks_append {size : Nat} (positive : 0 < size) {front : List α} (whole : size ∣ front.length)
    (back : List α) : blocks size (front ++ back) = blocks size front ++ blocks size back := by
  obtain ⟨count, length⟩ := whole
  induction count generalizing front with
  | zero =>
    obtain rfl := List.length_eq_zero_iff.mp length
    rw [List.nil_append, blocks_nil positive, List.nil_append]
  | succ count ih =>
    rw [Nat.mul_succ] at length
    have full : (front.take size).length = size := by
      rw [List.length_take]
      omega
    have rest : (front.drop size).length = size * count := by
      rw [List.length_drop]
      omega
    have split : front = (front.take size) ++ front.drop size := (List.take_append_drop _ _).symm
    rw [split, List.append_assoc, blocks_cons positive ⟨_, full⟩, blocks_cons positive ⟨_, full⟩, ih rest,
      List.cons_append]

/-- Blocks that are put one after another are found again. -/
theorem blocks_flatten {size : Nat} (positive : 0 < size)
    (pieces : List { block : List α // block.length = size }) :
    blocks size (pieces.map Subtype.val).flatten = pieces := by
  induction pieces with
  | nil => exact blocks_nil positive
  | cons piece rest ih => rw [List.map_cons, List.flatten_cons, blocks_cons positive, ih]

/-- Data of whole blocks is its blocks, one after another. -/
theorem flatten_blocks {size : Nat} (positive : 0 < size) {data : List α} (whole : size ∣ data.length) :
    ((blocks size data).map Subtype.val).flatten = data := by
  obtain ⟨count, length⟩ := whole
  induction count generalizing data with
  | zero =>
    obtain rfl := List.length_eq_zero_iff.mp length
    rw [blocks_nil positive]
    rfl
  | succ count ih =>
    rw [Nat.mul_succ] at length
    have rest : (data.drop size).length = size * count := by
      rw [List.length_drop]
      omega
    rw [blocks_of_le positive (by omega), List.map_cons, List.flatten_cons, ih rest,
      List.take_append_drop]

theorem length_flatten_pieces {size : Nat} (pieces : List { block : List α // block.length = size }) :
    (pieces.map Subtype.val).flatten.length = size * pieces.length := by
  induction pieces with
  | nil => rfl
  | cons piece rest ih =>
    rw [List.map_cons, List.flatten_cons, List.length_append, ih, piece.property, List.length_cons,
      Nat.mul_succ, Nat.add_comm]

/-- How much there is to add for a whole number of blocks. -/
def fill (size used : Nat) : Nat := (size - used % size) % size

theorem fill_lt {size : Nat} (positive : 0 < size) (used : Nat) : fill size used < size := Nat.mod_lt _ positive

theorem dvd_add_fill {size : Nat} (positive : 0 < size) (used : Nat) : size ∣ used + fill size used := by
  have below := Nat.mod_lt used positive
  have division := Nat.div_add_mod used size
  rcases Nat.eq_zero_or_pos (used % size) with zero | some
  · rw [fill, zero, Nat.sub_zero, Nat.mod_self]
    exact Nat.dvd_of_mod_eq_zero zero
  · rw [fill, Nat.mod_eq_of_lt (by omega)]
    refine ⟨used / size + 1, ?_⟩
    rw [Nat.mul_succ]
    omega

/-- No number below it fills the last block. -/
theorem fill_le {size : Nat} (positive : 0 < size) {used count : Nat} (whole : size ∣ used + count) :
    fill size used ≤ count := by
  by_contra less
  have upper := fill_lt positive used
  obtain ⟨k, difference⟩ := (Nat.dvd_add_right whole).mp
    (show size ∣ used + count + (fill size used - count) by
      rw [show used + count + (fill size used - count) = used + fill size used by omega]
      exact dvd_add_fill positive used)
  have small : fill size used - count < size := by omega
  have zero := Nat.eq_zero_of_dvd_of_lt ⟨k, difference⟩ small
  omega

theorem fill_eq {size used count : Nat} (whole : size ∣ used + count) (below : count < size) :
    fill size used = count := by
  have positive : 0 < size := Nat.zero_lt_of_lt below
  have least := fill_le positive whole
  have filled := dvd_add_fill positive used
  obtain ⟨k, difference⟩ := (Nat.dvd_add_right filled).mp
    (show size ∣ used + fill size used + (count - fill size used) by
      rwa [Nat.add_assoc, Nat.add_sub_cancel' least])
  have zero := Nat.eq_zero_of_dvd_of_lt ⟨k, difference⟩ (by omega)
  omega

/-- A message, a marker, the zeros that fill the last block, and a field at the end. -/
def pad (size : Nat) (marker zero : α) (message field : List α) : List α :=
  message ++ marker :: (List.replicate (fill size (message.length + 1 + field.length)) zero ++ field)

theorem dvd_length_pad {size : Nat} (positive : 0 < size) (marker zero : α) (message field : List α) :
    size ∣ (pad size marker zero message field).length := by
  have whole := dvd_add_fill positive (message.length + 1 + field.length)
  simp only [pad, List.length_append, List.length_cons, List.length_replicate]
  rwa [show message.length + (fill size (message.length + 1 + field.length) + field.length + 1) =
    message.length + 1 + field.length + fill size (message.length + 1 + field.length) by omega]

end Litecoin.Wire
