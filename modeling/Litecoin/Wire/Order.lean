import Mathlib.Order.Std
import Mathlib.Tactic.Common

/-! Derived orders: records are compared field by field, and a type is compared
through an injective view of its values. -/
namespace Litecoin.Wire

instance lexicographic [Ord α] [Ord β] : Ord (α × β) := lexOrd

instance transOrdProd [Ord α] [Std.TransOrd α] [Ord β] [Std.TransOrd β] : Std.TransOrd (α × β) :=
  inferInstanceAs (@Std.TransOrd _ lexOrd)

instance lawfulEqOrdProd [Ord α] [Std.LawfulEqOrd α] [Ord β] [Std.LawfulEqOrd β] :
    Std.LawfulEqOrd (α × β) :=
  inferInstanceAs (@Std.LawfulEqOrd _ lexOrd)

theorem lawfulEq_compareOn [Ord β] [Std.LawfulEqOrd β] {f : α → β}
    (injective : Function.Injective f) : Std.LawfulEqCmp (compareOn f) where
  compare_self := Std.ReflCmp.compare_self
  eq_of_compare same := injective (Std.LawfulEqCmp.eq_of_compare same)

instance transOrdSubtype [Ord α] [Std.TransOrd α] {Holds : α → Prop} :
    Std.TransOrd { a : α // Holds a } :=
  inferInstanceAs (Std.TransCmp (compareOn Subtype.val))

instance lawfulEqOrdSubtype [Ord α] [Std.LawfulEqOrd α] {Holds : α → Prop} :
    Std.LawfulEqOrd { a : α // Holds a } :=
  lawfulEq_compareOn (f := Subtype.val) fun _ _ => Subtype.ext

end Litecoin.Wire
