import Litecoin.Bip32
import Litecoin.Units.Parse
import Litecoin.Wire.Outcome

/-! Derivation paths as text (`bip32.rs`). -/
namespace Litecoin.Bip32
open Wire Litecoin.Units

/-- `bip32::Error`, as far as parsing a path reports it. -/
inductive PathError where
  | invalidChildNumber (index : UInt32)
  | invalidChildNumberFormat
deriving DecidableEq, Repr

namespace ChildNumber

def fromNormalIdx (index : UInt32) : Except PathError ChildNumber :=
  if index &&& hardenedBit = 0 then .ok (normal index) else .error (.invalidChildNumber index)

def fromHardenedIdx (index : UInt32) : Except PathError ChildNumber :=
  if index &&& hardenedBit = 0 then .ok (hardened index) else .error (.invalidChildNumber index)

/-- `Display`, whose alternate form has another mark. -/
def display (alternate : Bool) : ChildNumber → Text
  | hardened index => decimal index.toNat ++ [if alternate then 'h' else '\'']
  | normal index => decimal index.toNat

/-- `str::parse::<u32>`. -/
def parseIndex (s : Text) : Except PathError UInt32 :=
  match fromStrRadix charDigit 10 32 s with
  | .ok index => .ok (UInt32.ofNat index)
  | .error _ => .error .invalidChildNumberFormat

def isMark (l : Char) : Bool := l = '\'' || l = 'h'

/-- `FromStr`; a slice that ends inside a character would panic. -/
def fromStr (inp : Text) : ExceptT PathError Option ChildNumber :=
  if inp.getLast?.any isMark then do
    let digits ← orPanic (sliceTo (byteLen inp - 1) inp)
    let index ← parseIndex digits
    fromHardenedIdx index
  else do
    let index ← parseIndex inp
    fromNormalIdx index

end ChildNumber

namespace DerivationPath

/-- `Display`. -/
def display : DerivationPath → Text
  | [] => []
  | first :: iter => first.display false ++ iter.flatMap fun cn => '/' :: cn.display false

/-- `strip_prefix("m/")`, or the path as it is. -/
def stripMaster : Text → Text
  | 'm' :: '/' :: path => path
  | path => path

/-- `FromStr`. -/
def fromStr (path : Text) : ExceptT PathError Option DerivationPath :=
  if path = [] ∨ path = ['m'] ∨ path = ['m', '/'] then pure []
  else ((stripMaster path).splitOn '/').mapM ChildNumber.fromStr

/-- The texts of the child numbers in a path. -/
def components (path : Text) : List Text :=
  if path = [] ∨ path = ['m'] ∨ path = ['m', '/'] then [] else (stripMaster path).splitOn '/'

end DerivationPath

/-- A decimal number that may have a plus and leading zeros. -/
def Numbers (text : Text) (n : Nat) : Prop :=
  ∃ digits, (text = digits ∨ text = '+' :: digits) ∧ Spells charDigit 10 digits n

namespace ChildNumber

/-- The texts of a child number. -/
inductive Denotes : Text → ChildNumber → Prop where
  | normal {text : Text} {index : UInt32} : Numbers text index.toNat → Denotes text (normal index)
  | hardened {text : Text} {index : UInt32} {mark : Char} : Numbers text index.toNat → isMark mark →
      Denotes (text ++ [mark]) (hardened index)

theorem parseIndex_eq_ok {s : Text} {index : UInt32} : parseIndex s = .ok index ↔
    Numbers s index.toNat := by
  have read (n : Nat) : fromStrRadix charDigit 10 32 s = .ok n ↔
      ∃ digits, (s = digits ∨ s = '+' :: digits) ∧ Spells charDigit 10 digits n ∧ n < 2 ^ 32 :=
    fromStrRadix_eq_ok decimalRadix
  rw [parseIndex]
  constructor
  · intro parsed
    cases found : fromStrRadix charDigit 10 32 s with
    | error e =>
      rw [found] at parsed
      contradiction
    | ok n =>
      rw [found] at parsed
      obtain rfl := Except.ok.inj parsed
      obtain ⟨digits, shape, spells, fits⟩ := (read n).mp found
      rw [UInt32.toNat_ofNat_of_lt' fits]
      exact ⟨digits, shape, spells⟩
  · rintro ⟨digits, shape, spells⟩
    rw [(read index.toNat).mpr ⟨digits, shape, spells, index.toNat_lt⟩]
    exact congrArg Except.ok UInt32.ofNat_toNat

/-- The last character of a number is a digit, which is no mark. -/
theorem unmarked {text : Text} {n : Nat} (numbers : Numbers text n) : text.getLast?.any isMark =
    false := by
  obtain ⟨digits, shape, nonempty, all, -⟩ := numbers
  obtain ⟨front, last, rfl⟩ := (List.eq_nil_or_concat' digits).resolve_left nonempty
  have isDigit := all last (by simp)
  have plain : isMark last = false := by
    by_contra mark
    rw [Bool.not_eq_false, isMark, Bool.or_eq_true, decide_eq_true_eq, decide_eq_true_eq] at mark
    rcases mark with rfl | rfl <;> revert isDigit <;> decide
  rcases shape with rfl | rfl
  · rw [List.getLast?_concat]
    exact plain
  · rw [← List.cons_append, List.getLast?_concat]
    exact plain

theorem isMark_utf8Size {mark : Char} (marks : isMark mark) : mark.utf8Size = 1 := by
  rw [isMark, Bool.or_eq_true, decide_eq_true_eq, decide_eq_true_eq] at marks
  rcases marks with rfl | rfl <;> decide

/-- A mark is a single byte, so that the slice is what is left of it. -/
theorem sliceTo_mark {text : Text} {mark : Char} (marks : isMark mark) :
    sliceTo (byteLen (text ++ [mark]) - 1) (text ++ [mark]) = some text := by
  refine sliceTo_eq_some.mpr ⟨[mark], rfl, ?_⟩
  rw [byteLen, byteLen, List.map_append, List.sum_append, List.map_singleton, List.sum_singleton,
    isMark_utf8Size marks, Nat.add_sub_cancel]

theorem fromStr_unmarked {inp : Text} (plain : inp.getLast?.any isMark = false) :
    fromStr inp = (do let index ← parseIndex inp; fromNormalIdx index) := by
  rw [fromStr, if_neg (by simp [plain])]

theorem fromStr_mark {text : Text} {mark : Char} (marks : isMark mark) :
    fromStr (text ++ [mark]) = (do let index ← parseIndex text; fromHardenedIdx index) := by
  rw [fromStr, List.getLast?_concat, if_pos (by exact marks), sliceTo_mark marks, orPanic_bind]

theorem fromNormalIdx_eq_ok {index : UInt32} {cn : ChildNumber} :
    fromNormalIdx index = .ok cn ↔ index < hardenedBit ∧ cn = normal index := by
  rw [fromNormalIdx, ← and_hardenedBit]
  split_ifs with low <;> simp [low, eq_comm]

theorem fromHardenedIdx_eq_ok {index : UInt32} {cn : ChildNumber} :
    fromHardenedIdx index = .ok cn ↔ index < hardenedBit ∧ cn = hardened index := by
  rw [fromHardenedIdx, ← and_hardenedBit]
  split_ifs with low <;> simp [low, eq_comm]

theorem marked_shape {inp : Text} (marked : ¬ inp.getLast?.any isMark = false) :
    ∃ text mark, inp = text ++ [mark] ∧ isMark mark := by
  obtain ⟨text, mark, rfl⟩ := (List.eq_nil_or_concat' inp).resolve_left
    (by rintro rfl; exact marked rfl)
  rw [List.getLast?_concat] at marked
  exact ⟨text, mark, rfl, Bool.not_eq_false _ ▸ marked⟩

/-- What is read: a text that denotes a number in range. -/
theorem fromStr_eq_ok {inp : Text} {cn : ChildNumber} :
    (fromStr inp).run = some (.ok cn) ↔ Denotes inp cn ∧ cn.Bounded := by
  by_cases plain : inp.getLast?.any isMark = false
  · rw [fromStr_unmarked plain]
    simp only [run_bind_eq_ok, run_liftM_eq_ok, parseIndex_eq_ok, fromNormalIdx_eq_ok]
    constructor
    · rintro ⟨index, numbers, low, rfl⟩
      exact ⟨.normal numbers, low⟩
    · rintro ⟨denotes, low⟩
      cases denotes with
      | normal numbers => exact ⟨_, numbers, low, rfl⟩
      | hardened numbers marks =>
        rw [List.getLast?_concat] at plain
        exact absurd marks (Bool.eq_false_iff.mp plain)
  · obtain ⟨text, mark, rfl, marks⟩ := marked_shape plain
    rw [fromStr_mark marks]
    simp only [run_bind_eq_ok, run_liftM_eq_ok, parseIndex_eq_ok, fromHardenedIdx_eq_ok]
    constructor
    · rintro ⟨index, numbers, low, rfl⟩
      exact ⟨.hardened numbers marks, low⟩
    · rintro ⟨denotes, low⟩
      generalize shape : text ++ [mark] = inp at denotes
      cases denotes with
      | normal numbers => exact absurd (shape ▸ unmarked numbers) plain
      | hardened numbers _ =>
        obtain ⟨rfl, -⟩ := List.append_inj' shape rfl
        exact ⟨_, numbers, low, rfl⟩

theorem fromStr_returns (inp : Text) : Returns (fromStr inp) := by
  have read (text : Text) (make : UInt32 → Except PathError ChildNumber) :
      Returns (do let index ← parseIndex text; make index : ExceptT PathError Option ChildNumber) :=
    (Returns.ofExcept _).bind fun index => Returns.ofExcept (make index)
  by_cases plain : inp.getLast?.any isMark = false
  · rw [fromStr_unmarked plain]
    exact read inp fromNormalIdx
  · obtain ⟨text, mark, rfl, marks⟩ := marked_shape plain
    rw [fromStr_mark marks]
    exact read text fromHardenedIdx

/-- A number is printed in one of its forms. -/
theorem denotes_display (alternate : Bool) (cn : ChildNumber) : Denotes
    (cn.display alternate) cn := by
  cases cn with
  | normal index => exact .normal ⟨_, .inl rfl, spells_decimal _⟩
  | hardened index => exact .hardened ⟨_, .inl rfl, spells_decimal _⟩ (by cases alternate <;> rfl)

theorem Denotes.isHardened {inp : Text} {cn : ChildNumber} (denotes : Denotes inp cn) :
    cn.isHardened = inp.getLast?.any isMark := by
  cases denotes with
  | normal numbers => exact (unmarked numbers).symm
  | hardened numbers marks =>
    rw [List.getLast?_concat]
    exact marks.symm

/-- A child number is printed as digits and a mark, the first of them a digit. -/
theorem display_shape (cn : ChildNumber) :
    '/' ∉ cn.display false ∧ ∃ first rest, cn.display false = first :: rest ∧ first ≠ 'm' := by
  have spells := spells_decimal cn.index.toNat
  have plain (c : Char) (other : charDigit c = none) : c ∉ decimal cn.index.toNat := by
    intro member
    have isDigit := spells.digits c member
    rw [other] at isDigit
    contradiction
  obtain ⟨first, rest, shape⟩ := List.exists_cons_of_ne_nil spells.nonempty
  have digit : first ≠ 'm' := by
    rintro rfl
    exact plain 'm' (by decide) (shape ▸ List.mem_cons_self)
  cases cn with
  | normal index => exact ⟨plain '/' (by decide), first, rest, shape, digit⟩
  | hardened index =>
    refine ⟨?_, first, rest ++ ['\''], congrArg (· ++ ['\'']) shape, digit⟩
    intro member
    rcases List.mem_append.mp member with listed | mark
    · exact plain '/' (by decide) listed
    · exact absurd (List.mem_singleton.mp mark) (by decide)

end ChildNumber

namespace DerivationPath

theorem fromStr_eq (path : Text) : fromStr path = (components path).mapM ChildNumber.fromStr := by
  rw [fromStr, components]
  split_ifs <;> rfl

/-- The printer joins what the parser splits. -/
theorem display_eq_intercalate {path : DerivationPath} (nonempty : path ≠ []) :
    display path = ['/'].intercalate (path.map (ChildNumber.display false)) := by
  cases path with
  | nil => contradiction
  | cons first iter =>
    rw [display]
    clear nonempty
    induction iter generalizing first with
    | nil => simp
    | cons cn iter ih =>
      rw [List.flatMap_cons, List.map_cons, List.map_cons, List.intercalate_cons_cons,
        ← List.map_cons, ← ih]
      simp

theorem components_display (path : DerivationPath) :
    components (display path) = path.map (ChildNumber.display false) := by
  cases path with
  | nil => rfl
  | cons first iter =>
    obtain ⟨-, c, rest, shape, digit⟩ := first.display_shape
    have start : ∃ more, display (first :: iter) = c :: more := by
      rw [display, shape]
      exact ⟨_, rfl⟩
    obtain ⟨more, start⟩ := start
    have whole : stripMaster (display (first :: iter)) = display (first :: iter) := by
      rw [start, stripMaster.eq_def]
      split
      · next same => exact absurd (List.cons.inj same).1 digit
      · rfl
    rw [components, if_neg, whole, display_eq_intercalate (List.cons_ne_nil _ _),
      List.splitOn_intercalate]
    · intro text member
      obtain ⟨cn, -, rfl⟩ := List.mem_map.mp member
      exact cn.display_shape.1
    · nofun
    · rw [start]
      simp [digit]

/-- What is read: a child number in range from every component. -/
theorem fromStr_eq_ok {s : Text} {path : DerivationPath} : (fromStr s).run = some (.ok path) ↔
    List.Forall₂ (fun text cn => ChildNumber.Denotes text cn ∧ cn.Bounded)
      (components s) path := by
  simp only [fromStr_eq, ← ChildNumber.fromStr_eq_ok]
  exact ⟨run_mapM_forall₂, run_mapM_of_forall₂⟩

theorem fromStr_display {path : DerivationPath} (low : ∀ cn ∈ path, cn.Bounded) :
    (fromStr (display path)).run = some (.ok path) := by
  rw [fromStr_eq_ok, components_display, List.forall₂_map_left_iff, List.forall₂_same]
  exact fun cn member => ⟨ChildNumber.denotes_display false cn, low cn member⟩

theorem fromStr_returns (s : Text) : Returns (fromStr s) := by
  rw [fromStr_eq]
  exact Returns.mapM ChildNumber.fromStr_returns _

/-- Marks are where the text has them. -/
theorem map_isHardened {texts : List Text} {path : DerivationPath}
    (each : List.Forall₂ (fun text cn => ChildNumber.Denotes text cn ∧
    cn.Bounded) texts path) :
    path.map ChildNumber.isHardened = texts.map fun text =>
      text.getLast?.any ChildNumber.isMark := by
  induction each with
  | nil => rfl
  | cons head _ ih => rw [List.map_cons, List.map_cons, head.1.isHardened, ih]

/-- What is printed of a path is read back, and what is read has its indices in range and its marks
where the text has them. -/
theorem fromStr_display_spec :
    (∀ path : DerivationPath, (∀ cn ∈ path, cn.Bounded) →
      (fromStr (display path)).run = some (.ok path)) ∧
    ∀ (s : Text) (path : DerivationPath), (fromStr s).run = some (.ok path) →
      (fromStr (display path)).run = some (.ok path) ∧ (∀ cn ∈ path, cn.Bounded) ∧
        path.map ChildNumber.isHardened =
          (components s).map fun text => text.getLast?.any ChildNumber.isMark := by
  refine ⟨fun path => fromStr_display, fun s path read => ?_⟩
  have each := fromStr_eq_ok.mp read
  have low : ∀ cn ∈ path, cn.Bounded := by
    refine (forall_iff_of_forall₂ each (p := fun _ => True) fun text cn held => ?_).mp fun _ _ =>
      trivial
    exact ⟨fun _ => held.2, fun _ => trivial⟩
  exact ⟨fromStr_display low, low, map_isHardened each⟩

/-- A path with a master prefix, both marks, a plus and leading zeros. -/
theorem fromStr_display_spec_mixed :
    (fromStr (display [.hardened 84, .hardened 2, .normal 7])).run =
      some (.ok [.hardened 84, .hardened 2, .normal 7]) ∧
    (fromStr (display [.hardened 84, .hardened 2, .normal 7])).run =
      some (.ok [.hardened 84, .hardened 2, .normal 7]) :=
  ⟨fromStr_display_spec.1 _ (by decide),
    (fromStr_display_spec.2 "m/084'/2h/+7".toList _ (by decide)).1⟩

end DerivationPath
end Litecoin.Bip32
