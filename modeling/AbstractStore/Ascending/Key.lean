/-! Orders taken from a key. Values compare as their keys do, and where different values have
different keys the order tells them apart. -/

namespace AbstractStore

open Std

variable {α β : Type} [Ord β] {key : α → β}

theorem lawfulEqCmp_compareOn [LawfulEqOrd β] (injective : ∀ a b, key a = key b → a = b) :
    LawfulEqCmp (compareOn key) where
  compare_self := ReflOrd.compare_self (α := β)
  eq_of_compare same := injective _ _ (LawfulEqOrd.eq_of_compare same)

end AbstractStore
