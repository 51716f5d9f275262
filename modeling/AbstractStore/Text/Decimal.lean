/-! Decimal numerals: the digits of a number without leading zeros, and the number that digits
stand for. Reading takes leading zeros too; `value?_digits` says that it undoes writing. -/

namespace AbstractStore.Decimal

def digit (n : Nat) : Char := Char.ofNat (48 + n)

def isDigit (c : Char) : Bool := '0' ≤ c && c ≤ '9'

def digitValue (c : Char) : Nat := c.toNat - 48

/-- The decimal digits of `n`, the most significant first. -/
def digits (n : Nat) : List Char :=
  if n < 10 then [digit n] else digits (n / 10) ++ [digit (n % 10)]

def value (cs : List Char) : Nat := cs.foldl (fun n c => 10 * n + digitValue c) 0

/-- Reads one or more digits and nothing else. -/
def value? (cs : List Char) : Option Nat :=
  if cs ≠ [] ∧ cs.all isDigit then some (value cs) else none

def text (n : Nat) : String := String.ofList (digits n)

/-- The decimal text of `i`, with a sign where it is negative. -/
def intDigits (i : Int) : List Char :=
  if i < 0 then '-' :: digits i.natAbs else digits i.natAbs

theorem digit_spec : ∀ n < 10, isDigit (digit n) = true ∧ digitValue (digit n) = n := by
  decide

theorem digits_ne_nil (n : Nat) : digits n ≠ [] := by
  unfold digits
  split <;> simp

theorem all_isDigit_digits (n : Nat) : (digits n).all isDigit = true := by
  fun_induction digits n with
  | case1 n below => simp [digit_spec n below]
  | case2 n _ ih => simp [ih, digit_spec (n % 10) (Nat.mod_lt n (by decide))]

theorem value_concat (cs : List Char) (c : Char) :
    value (cs ++ [c]) = 10 * value cs + digitValue c := by
  simp [value, List.foldl_append]

theorem value_digits (n : Nat) : value (digits n) = n := by
  fun_induction digits n with
  | case1 n below => simp [value, digit_spec n below]
  | case2 n _ ih =>
      rw [value_concat, ih, (digit_spec (n % 10) (Nat.mod_lt n (by decide))).2]
      omega

theorem value?_digits (n : Nat) : value? (digits n) = some n := by
  simp [value?, digits_ne_nil, all_isDigit_digits, value_digits]

end AbstractStore.Decimal
