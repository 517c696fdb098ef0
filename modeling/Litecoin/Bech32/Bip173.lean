import Litecoin.Bech32

/-! The algorithms that the `bech32` crate documents, and that they have the properties the
address code relies on. -/
namespace Litecoin.Bech32.Bip173
open Wire

def charset : Bytes := ascii "qpzry9x8gf2tvdw0s3jn54khce6mua7l"

def toChar (fe : Fe32) : UInt8 := charset.getD fe.val 0

def fromChar (c : UInt8) : Option Fe32 := (List.finRange 32).find? fun fe => toChar fe == c

def isUpper (c : UInt8) : Bool := 0x41 ≤ c && c ≤ 0x5a

def isLower (c : UInt8) : Bool := 0x61 ≤ c && c ≤ 0x7a

/-- The separator is the last `1` of the string. -/
def uncheckedHrpstring (s : Bytes) : Option (Bytes × List Fe32) :=
  match s.reverse.dropWhile (· != 0x31) with
  | [] => none
  | _ :: front =>
    let hrp := front.reverse
    if s.any isUpper && s.any isLower then none
    else if hrp = [] ∨ 83 < hrp.length ∨ hrp.any (fun c => c < 33 || 126 < c) then none
    else ((s.reverse.takeWhile (· != 0x31)).reverse.mapM fun c => fromChar (toAsciiLowercase c)).map
      (lower hrp, ·)

/-- One symbol of the checksum of BIP 173. -/
def polymodStep (chk value : Nat) : Nat :=
  let top := chk >>> 25
  let chk := ((chk &&& 0x1ffffff) <<< 5) ^^^ value
  [0x3b6a57b2, 0x26508e6d, 0x1ea119fa, 0x3d4233dd, 0x2a1462b3].zipIdx.foldl
    (fun chk (term, i) => if (top >>> i) &&& 1 = 1 then chk ^^^ term else chk) chk

def hrpExpand (hrp : Bytes) : List Nat :=
  (hrp.map fun c => c.toNat >>> 5) ++ 0 :: hrp.map fun c => c.toNat &&& 31

def target : ChecksumKind → Nat
  | .bech32 => 1
  | .bech32m => 0x2bc830a3

def checksum (kind : ChecksumKind) (hrp : Bytes) (data : List Fe32) : List Fe32 :=
  let values := hrpExpand hrp ++ data.map Fin.val ++ List.replicate 6 0
  let residue := values.foldl polymodStep 1 ^^^ target kind
  (List.range 6).map fun i => Fe32.ofNat (residue >>> (5 * (5 - i)))

def hasValidChecksum (kind : ChecksumKind) (hrp : Bytes) (symbols : List Fe32) : Bool :=
  hrp.length + 1 + symbols.length ≤ 1023 &&
    symbols == removeChecksum symbols ++ checksum kind hrp (removeChecksum symbols)

/-- Bits as the number they spell, most significant first. -/
def ofBits (bits : List Bool) : Nat := bits.foldl (fun n bit => 2 * n + bit.toNat) 0

def fesOfBits : List Bool → List Fe32
  | [] => []
  | [a] => [Fe32.ofNat (ofBits [a, false, false, false, false])]
  | [a, b] => [Fe32.ofNat (ofBits [a, b, false, false, false])]
  | [a, b, c] => [Fe32.ofNat (ofBits [a, b, c, false, false])]
  | [a, b, c, d] => [Fe32.ofNat (ofBits [a, b, c, d, false])]
  | a :: b :: c :: d :: e :: rest => Fe32.ofNat (ofBits [a, b, c, d, e]) :: fesOfBits rest

def bytesOfBits : List Bool → Bytes
  | a :: b :: c :: d :: e :: f :: g :: h :: rest =>
    UInt8.ofNat (ofBits [a, b, c, d, e, f, g, h]) :: bytesOfBits rest
  | _ => []

@[reducible] instance crate : Bech32 where
  uncheckedHrpstring := uncheckedHrpstring
  hasValidChecksum := hasValidChecksum
  bytesToFes bytes := fesOfBits (bitsOfBytes bytes)
  fesToBytes symbols := bytesOfBits (bitsOfFes symbols)
  toChar := toChar
  checksum := checksum

theorem fromChar_eq_some {c : UInt8} {fe : Fe32} : fromChar c = some fe ↔ toChar fe = c := by
  constructor
  · intro found
    exact beq_iff_eq.mp (List.find?_some (p := fun fe => toChar fe == c) found)
  · rintro rfl
    revert fe
    decide

theorem toChar_plain : ∀ fe : Fe32, toChar fe ≠ 0x31 ∧ isUpper (toChar fe) = false ∧
    toAsciiUppercase (toChar fe) ≠ 0x31 ∧ isLower (toAsciiUppercase (toChar fe)) = false ∧
    toAsciiLowercase (toChar fe) = toChar fe := by
  decide

theorem bits_five : ∀ a b c d e : Bool,
    bitsOf (Fe32.ofNat (ofBits [a, b, c, d, e])).val 5 = [a, b, c, d, e] := by
  decide

theorem bits_eight : ∀ a b c d e f g h : Bool,
    bitsOf (UInt8.ofNat (ofBits [a, b, c, d, e, f, g, h])).toNat 8 = [a, b, c, d, e, f, g, h] := by
  decide

theorem bits_fesOfBits (bits : List Bool) :
    ∃ pad < 5, bitsOfFes (fesOfBits bits) = bits ++ List.replicate pad false := by
  fun_induction fesOfBits bits with
  | case1 => exact ⟨0, by decide, rfl⟩
  | case2 a => exact ⟨4, by decide, by rw [bitsOfFes_cons, bits_five]; rfl⟩
  | case3 a b => exact ⟨3, by decide, by rw [bitsOfFes_cons, bits_five]; rfl⟩
  | case4 a b c => exact ⟨2, by decide, by rw [bitsOfFes_cons, bits_five]; rfl⟩
  | case5 a b c d => exact ⟨1, by decide, by rw [bitsOfFes_cons, bits_five]; rfl⟩
  | case6 a b c d e rest ih =>
    obtain ⟨pad, small, tail⟩ := ih
    exact ⟨pad, small, by rw [bitsOfFes_cons, bits_five, tail]; rfl⟩

theorem bits_bytesOfBits (bits : List Bool) :
    bitsOfBytes (bytesOfBits bits) = bits.take (bits.length / 8 * 8) := by
  fun_induction bytesOfBits bits with
  | case1 a b c d e f g h rest ih =>
    have count : (a :: b :: c :: d :: e :: f :: g :: h :: rest).length / 8 * 8 =
        rest.length / 8 * 8 + 8 := by
      simp only [List.length_cons]
      omega
    rw [bitsOfBytes_cons, bits_eight, ih, count]
    rfl
  | case2 bits short =>
    have few : bits.length < 8 := by
      by_contra many
      match bits, many with
      | a :: b :: c :: d :: e :: f :: g :: h :: rest, _ => exact short a b c d e f g h rest rfl
      | [], many | [_], many | [_, _], many | [_, _, _], many | [_, _, _, _], many
      | [_, _, _, _, _], many | [_, _, _, _, _, _], many | [_, _, _, _, _, _, _], many => simp at many
    rw [Nat.div_eq_of_lt few, Nat.zero_mul, List.take_zero]
    rfl

/-! ### Reading text back -/

/-- Symbols are read from their characters, however these are cased. -/
theorem mapM_fromChar {shown : Fe32 → UInt8} (back : ∀ fe, toAsciiLowercase (shown fe) = toChar fe)
    (symbols : List Fe32) :
    ((symbols.map shown).mapM fun c => fromChar (toAsciiLowercase c)) = some symbols := by
  induction symbols with
  | nil => rfl
  | cons fe rest ih =>
    rw [List.map_cons, List.mapM_cons, back, fromChar_eq_some.mpr rfl, ih]
    rfl

theorem map_toChar_of_mapM {data : Bytes} {symbols : List Fe32}
    (read : (data.mapM fun c => fromChar (toAsciiLowercase c)) = some symbols) :
    lower data = symbols.map toChar := by
  induction data generalizing symbols with
  | nil =>
    obtain rfl := Option.some.inj read
    rfl
  | cons c rest ih =>
    simp only [List.mapM_cons, Option.bind_eq_bind, Option.bind_eq_some_iff, fromChar_eq_some] at read
    obtain ⟨fe, head, others, tail, same⟩ := read
    obtain rfl := Option.some.inj same
    rw [lower, List.map_cons, ← lower, ih tail, List.map_cons, head]

theorem split_separator (hrp : Bytes) {back : Bytes} (plain : ∀ c ∈ back, c ≠ 0x31) :
    (hrp ++ 0x31 :: back).reverse.dropWhile (· != 0x31) = 0x31 :: hrp.reverse ∧
      (hrp ++ 0x31 :: back).reverse.takeWhile (· != 0x31) = back.reverse := by
  have shape : (hrp ++ 0x31 :: back).reverse = back.reverse ++ 0x31 :: hrp.reverse := by simp
  have skipped : ∀ c ∈ back.reverse, (c != 0x31) = true := by
    intro c member
    exact bne_iff_ne.mpr (plain c (List.mem_reverse.mp member))
  rw [shape, List.dropWhile_append_of_pos skipped, List.takeWhile_append_of_pos skipped]
  simp

theorem uncheckedHrpstring_append {hrp back : Bytes} {symbols : List Fe32} (plain : ∀ c ∈ back, c ≠ 0x31)
    (unmixed : ((hrp ++ 0x31 :: back).any isUpper && (hrp ++ 0x31 :: back).any isLower) = false)
    (some' : hrp ≠ []) (short : hrp.length ≤ 83) (printable : ∀ c ∈ hrp, 33 ≤ c ∧ c ≤ 126)
    (read : (back.mapM fun c => fromChar (toAsciiLowercase c)) = some symbols) :
    uncheckedHrpstring (hrp ++ 0x31 :: back) = some (lower hrp, symbols) := by
  obtain ⟨after, before⟩ := split_separator hrp plain
  have valid : ¬(hrp = [] ∨ 83 < hrp.length ∨ hrp.any (fun c => c < 33 || 126 < c)) := by
    simp only [List.any_eq_true, Bool.or_eq_true, decide_eq_true_eq, not_or, not_exists, not_and]
    refine ⟨some', by omega, fun c member => ?_⟩
    have range := printable c member
    exact ⟨UInt8.not_lt.mpr range.1, UInt8.not_lt.mpr range.2⟩
  simp only [uncheckedHrpstring, after, before, List.reverse_reverse, unmixed, Bool.false_eq_true, if_false,
    if_neg valid, read, Option.map_some]

/-- Letters in lower case. -/
theorem lowercase_letter : ∀ c : UInt8, 0x61 ≤ c ∧ c ≤ 0x7a → isUpper c = false ∧
    isLower (toAsciiUppercase c) = false ∧ toAsciiLowercase c = c ∧
    (33 ≤ c ∧ c ≤ 126) ∧ 33 ≤ toAsciiUppercase c ∧ toAsciiUppercase c ≤ 126 :=
  forall_byte (by decide +kernel)

theorem lower_plain {hrp : Bytes} (letters : ∀ c ∈ hrp, 0x61 ≤ c ∧ c ≤ 0x7a) : lower hrp = hrp := by
  rw [lower]
  conv_rhs => rw [← List.map_id hrp]
  exact List.map_congr_left fun c member => (lowercase_letter c (letters c member)).2.2.1

theorem uncheckedHrpstring_text {hrp : Bytes} (plain : PlainHrp hrp) (symbols : List Fe32) :
    uncheckedHrpstring (hrp ++ 0x31 :: symbols.map toChar) = some (hrp, symbols) := by
  obtain ⟨some', short, letters⟩ := plain
  have lowered := lower_plain letters
  conv_rhs => rw [← lowered]
  apply uncheckedHrpstring_append _ _ some' short
  · intro c member
    exact (lowercase_letter c (letters c member)).2.2.2.1
  · exact mapM_fromChar (fun fe => (toChar_plain fe).2.2.2.2) symbols
  · intro c member
    obtain ⟨fe, -, rfl⟩ := List.mem_map.mp member
    exact (toChar_plain fe).1
  · have none : (hrp ++ 0x31 :: symbols.map toChar).any isUpper = false := by
      simp only [List.any_append, List.any_cons, List.any_map, Bool.or_eq_false_iff, List.any_eq_false,
        Bool.not_eq_true]
      exact ⟨fun c member => (lowercase_letter c (letters c member)).1, by decide,
        fun fe _ => (toChar_plain fe).2.1⟩
    rw [none, Bool.false_and]

theorem uncheckedHrpstring_upper {hrp : Bytes} (plain : PlainHrp hrp) (symbols : List Fe32) :
    uncheckedHrpstring (upper (hrp ++ 0x31 :: symbols.map toChar)) = some (hrp, symbols) := by
  obtain ⟨some', short, letters⟩ := plain
  have lowered : lower (upper hrp) = hrp := by rw [lower_upper, lower_plain letters]
  have shape : upper (hrp ++ 0x31 :: symbols.map toChar) =
      upper hrp ++ 0x31 :: symbols.map fun fe => toAsciiUppercase (toChar fe) := by
    rw [upper, List.map_append, List.map_cons, List.map_map]
    rfl
  rw [shape]
  conv_rhs => rw [← lowered]
  apply uncheckedHrpstring_append
  · intro c member
    obtain ⟨fe, -, rfl⟩ := List.mem_map.mp member
    exact (toChar_plain fe).2.2.1
  · have none : (upper hrp ++ 0x31 :: symbols.map fun fe => toAsciiUppercase (toChar fe)).any isLower =
        false := by
      simp only [upper, List.any_append, List.any_cons, List.any_map, Bool.or_eq_false_iff, List.any_eq_false,
        Bool.not_eq_true]
      exact ⟨fun c member => (lowercase_letter c (letters c member)).2.1, by decide,
        fun fe _ => (toChar_plain fe).2.2.2.1⟩
    rw [none, Bool.and_false]
  · exact fun empty => some' (List.map_eq_nil_iff.mp empty)
  · rwa [upper, List.length_map]
  · intro c member
    obtain ⟨letter, inside, rfl⟩ := List.mem_map.mp member
    exact (lowercase_letter letter (letters letter inside)).2.2.2.2
  · refine mapM_fromChar (fun fe => ?_) symbols
    rw [toAsciiLowercase_toAsciiUppercase, (toChar_plain fe).2.2.2.2]

theorem lower_of_uncheckedHrpstring {s hrp : Bytes} {symbols : List Fe32}
    (read : uncheckedHrpstring s = some (hrp, symbols)) : lower s = hrp ++ 0x31 :: symbols.map toChar := by
  unfold uncheckedHrpstring at read
  split at read
  · exact absurd read nofun
  · next separator front found =>
    simp only at read
    split_ifs at read
    rw [Option.map_eq_some_iff] at read
    obtain ⟨others, data, same⟩ := read
    obtain ⟨rfl, rfl⟩ := Prod.mk.inj same
    have whole := List.takeWhile_append_dropWhile (p := (· != 0x31)) (l := s.reverse)
    rw [found] at whole
    have one : separator = 0x31 := by
      have head := List.head_dropWhile_not (p := (· != 0x31)) (l := s.reverse) (by rw [found]; nofun)
      simpa [found] using head
    have shape : s = front.reverse ++ 0x31 :: (s.reverse.takeWhile (· != 0x31)).reverse := by
      have reversed := congrArg List.reverse whole
      rw [List.reverse_reverse, List.reverse_append, List.reverse_cons, one, List.append_assoc] at reversed
      exact reversed.symm
    conv_lhs => rw [shape]
    rw [lower, List.map_append, List.map_cons, ← lower, ← lower, map_toChar_of_mapM data]
    rfl

instance lawful : Lawful where
  hrpstring_text plain symbols :=
    ⟨uncheckedHrpstring_text plain symbols, uncheckedHrpstring_upper plain symbols⟩
  text_of_hrpstring read := lower_of_uncheckedHrpstring read
  length_checksum kind hrp data := by
    show (checksum kind hrp data).length = 6
    rw [checksum, List.length_map, List.length_range]
  computed_of_valid {kind hrp symbols} valid := by
    have computed := (Bool.and_eq_true_iff.mp valid).2
    exact ⟨_, beq_iff_eq.mp computed⟩
  valid_computed kind hrp data short := by
    have six : (checksum kind hrp data).length = 6 := by
      rw [checksum, List.length_map, List.length_range]
    have front : removeChecksum (data ++ checksum kind hrp data) = data := by
      rw [removeChecksum, List.length_append, six, Nat.add_sub_cancel, List.take_left]
    refine Bool.and_eq_true_iff.mpr ⟨decide_eq_true ?_, beq_iff_eq.mpr ?_⟩
    · rw [text, List.length_append, List.length_cons, List.length_map] at short
      exact Nat.le_trans (by omega) short
    · exact (congrArg (fun data => data ++ checksum kind hrp data) front).symm
  bits_bytesToFes bytes := bits_fesOfBits (bitsOfBytes bytes)
  bits_fesToBytes symbols := bits_bytesOfBits (bitsOfFes symbols)

end Litecoin.Bech32.Bip173
