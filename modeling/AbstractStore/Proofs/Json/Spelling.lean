import AbstractStore.Json.Scan
import Mathlib.Data.List.Chain

/-! A compact text has the tokens it was spelled from.
Only one thing can go wrong without blanks between tokens: an integer runs on into an integer that
follows it. So tokens are legible where no two integers stand side by side (`Legible`), and legible
tokens are read back (`tokens_compact`). -/

namespace AbstractStore.Decimal

theorem digits_zero : digits 0 = ['0'] := by
  rw [digits, if_pos (by decide)]
  rfl

/-- A number above zero has no leading zero. -/
theorem exists_digits_eq_cons {n : Nat} (positive : 0 < n) :
    ∃ c cs, digits n = c :: cs ∧ c ≠ '0' := by
  fun_induction digits n with
  | case1 n below =>
    have nonzero : ∀ n < 10, 0 < n → digit n ≠ '0' := by decide
    exact ⟨digit n, [], rfl, nonzero n below positive⟩
  | case2 n large ih =>
    obtain ⟨c, cs, split, nonzero⟩ := ih (by omega)
    exact ⟨c, cs ++ [digit (n % 10)], by rw [split]; rfl, nonzero⟩

theorem exists_isDigit_digits (n : Nat) : ∃ c cs, digits n = c :: cs ∧ isDigit c = true := by
  obtain ⟨c, cs, split⟩ := List.exists_cons_of_ne_nil (digits_ne_nil n)
  have all := all_isDigit_digits n
  rw [split, List.all_cons, Bool.and_eq_true] at all
  exact ⟨c, cs, split, all.1⟩

end AbstractStore.Decimal

namespace AbstractStore.Json

namespace Number

open Decimal

/-- No character comes next that would belong to a number. -/
def Ends (cs : List Char) : Prop :=
  ∀ c ∈ cs.head?, isDigit c = false ∧ c ≠ '.' ∧ c ≠ 'e' ∧ c ≠ 'E'

variable {more : List Char}

theorem takeWhile_isDigit {ds : List Char} (digits : ds.all isDigit) (ends : Ends more) :
    (ds ++ more).takeWhile isDigit = ds ∧ (ds ++ more).dropWhile isDigit = more := by
  have each : ∀ c ∈ ds, isDigit c = true := List.all_eq_true.1 digits
  rw [List.takeWhile_append_of_pos each, List.dropWhile_append_of_pos each]
  cases more with
  | nil => simp
  | cons c more => simp [(ends c rfl).1]

theorem whole?_digits (n : Nat) (ends : Ends more) :
    whole? (digits n ++ more) = some (digits n, more) := by
  rcases Nat.eq_zero_or_pos n with rfl | positive
  · rw [digits_zero]
    rfl
  · obtain ⟨c, cs, split, nonzero⟩ := exists_digits_eq_cons positive
    have all : isDigit c = true ∧ cs.all isDigit = true := by
      simpa [split] using all_isDigit_digits n
    have ⟨taken, dropped⟩ := takeWhile_isDigit all.2 ends
    rw [split, List.cons_append, whole?, if_neg nonzero, if_pos all.1, taken, dropped]

theorem fraction?_of_ends (ends : Ends more) : fraction? more = some ([], more) := by
  unfold fraction?
  split
  next => exact absurd rfl (ends _ rfl).2.1
  next => rfl

theorem exponent?_of_ends (ends : Ends more) : exponent? more = some ([], more) := by
  unfold exponent?
  split
  next => rfl
  next e rest => rw [if_neg (not_or.2 (ends e rfl).2.2)]

theorem unsigned?_digits (negative : Bool) {n : Nat} (signed : negative = true → 0 < n)
    (ends : Ends more) :
    unsigned? negative (digits n ++ more) =
      some (.integer (if negative then -(n : Int) else n), more) := by
  have notZero : ¬(negative = true ∧ digits n = ['0']) := by
    rintro ⟨minus, zero⟩
    obtain ⟨c, cs, split, nonzero⟩ := exists_digits_eq_cons (signed minus)
    rw [split] at zero
    exact nonzero (List.cons.inj zero).1
  simp only [unsigned?, whole?_digits n ends, fraction?_of_ends ends, exponent?_of_ends ends,
    Option.bind_eq_bind, Option.bind_some, value_digits]
  rw [if_neg (by simpa using notZero)]

theorem read?_intDigits (i : Int) (ends : Ends more) :
    read? (intDigits i ++ more) = some (.integer i, more) := by
  unfold intDigits
  split
  next negative =>
    have size : -(i.natAbs : Int) = i := by omega
    refine (unsigned?_digits true (fun _ => by omega) ends).trans ?_
    rw [if_pos rfl, size]
  next =>
    have unsigned : read? (digits i.natAbs ++ more) = unsigned? false (digits i.natAbs ++ more) := by
      obtain ⟨c, cs, split, digit⟩ := exists_isDigit_digits i.natAbs
      rw [split, List.cons_append]
      unfold read?
      split
      next same =>
        cases same
        exact absurd digit (by decide)
      next => rfl
    have size : (i.natAbs : Int) = i := by omega
    rw [unsigned, unsigned?_digits false nofun ends, if_neg nofun, size]

theorem exists_intDigits_eq_cons (i : Int) :
    ∃ c cs, intDigits i = c :: cs ∧ (c = '-' ∨ isDigit c = true) := by
  unfold intDigits
  split
  next => exact ⟨'-', _, rfl, .inl rfl⟩
  next =>
    obtain ⟨c, cs, split, digit⟩ := exists_isDigit_digits i.natAbs
    exact ⟨c, cs, split, .inr digit⟩

end Number

namespace Quoted

theorem hex_digit_ne : ∀ n < 16, Hex.digit n ≠ '"' ∧ Hex.digit n ≠ '\\' := by decide

theorem splitClosing_cons {c : Char} (quote : c ≠ '"') (backslash : c ≠ '\\') (cs : List Char) :
    splitClosing (c :: cs) = (splitClosing cs).map fun (body, after) => (c :: body, after) := by
  rw [splitClosing]
  · exact fun same => quote same
  · exact fun _ _ same => absurd same backslash

/-- A character is written as itself, as a short escape or by its number. -/
theorem escape_cases (c : Char) :
    (c ≠ '"' ∧ c ≠ '\\' ∧ 32 ≤ c.toNat ∧ escape c = [c]) ∨
    (∃ d, d ≠ 'u' ∧ shortEscape? d = some c ∧ escape c = ['\\', d]) ∨
    (c.toNat < 32 ∧ escape c =
      ['\\', 'u', '0', '0', Hex.digit (c.toNat / 16), Hex.digit (c.toNat % 16)]) := by
  by_cases quote : c = '"'
  · exact .inr (.inl ⟨'"', by decide, by rw [quote]; rfl, by rw [quote]; rfl⟩)
  by_cases backslash : c = '\\'
  · exact .inr (.inl ⟨'\\', by decide, by rw [backslash]; rfl, by rw [backslash]; rfl⟩)
  by_cases backspace : c = '\x08'
  · exact .inr (.inl ⟨'b', by decide, by rw [backspace]; rfl, by rw [backspace]; rfl⟩)
  by_cases feed : c = '\x0c'
  · exact .inr (.inl ⟨'f', by decide, by rw [feed]; rfl, by rw [feed]; rfl⟩)
  by_cases newline : c = '\n'
  · exact .inr (.inl ⟨'n', by decide, by rw [newline]; rfl, by rw [newline]; rfl⟩)
  by_cases carriage : c = '\r'
  · exact .inr (.inl ⟨'r', by decide, by rw [carriage]; rfl, by rw [carriage]; rfl⟩)
  by_cases tab : c = '\t'
  · exact .inr (.inl ⟨'t', by decide, by rw [tab]; rfl, by rw [tab]; rfl⟩)
  have rest : escape c = if c.toNat < 32 then
      ['\\', 'u', '0', '0', Hex.digit (c.toNat / 16), Hex.digit (c.toNat % 16)] else [c] := by
    simp only [escape, quote, backslash, backspace, feed, newline, carriage, tab, if_false]
  by_cases control : c.toNat < 32
  · exact .inr (.inr ⟨control, rest.trans (if_pos control)⟩)
  · exact .inl ⟨quote, backslash, Nat.le_of_not_lt control, rest.trans (if_neg control)⟩

variable {cs more : List Char}

theorem splitClosing_write (cs more : List Char) :
    splitClosing (cs.flatMap escape ++ '"' :: more) = some (cs.flatMap escape, more) := by
  induction cs with
  | nil => rfl
  | cons c cs ih =>
    rw [List.flatMap_cons, List.append_assoc]
    rcases escape_cases c with ⟨quote, backslash, -, plain⟩ | ⟨d, -, -, short⟩ | ⟨control, long⟩
    · rw [plain, List.singleton_append, splitClosing_cons quote backslash, ih]
      rfl
    · rw [short]
      simp [splitClosing, ih]
    · rw [long]
      have ⟨quote, backslash⟩ := hex_digit_ne (c.toNat / 16) (by omega)
      have ⟨quote', backslash'⟩ := hex_digit_ne (c.toNat % 16) (by omega)
      have zero (cs : List Char) : splitClosing ('0' :: cs) =
          (splitClosing cs).map fun (body, after) => ('0' :: body, after) :=
        splitClosing_cons (by decide) (by decide) cs
      simp only [List.cons_append, List.nil_append]
      rw [splitClosing, zero, zero, splitClosing_cons quote backslash,
        splitClosing_cons quote' backslash', ih]
      rfl

theorem pieces?_write (cs : List Char) : pieces? (cs.flatMap escape) = some (cs.map .char) := by
  induction cs with
  | nil => rfl
  | cons c cs ih =>
    rw [List.flatMap_cons]
    rcases escape_cases c with ⟨quote, backslash, large, plain⟩ | ⟨d, notLong, short, written⟩ |
      ⟨control, long⟩
    · have raw : ¬(c = '\\' ∨ c.toNat < 32) := by
        rintro (same | small)
        · exact backslash same
        · omega
      rw [plain, List.singleton_append, pieces?, if_neg raw, ih]
      · rfl
      · exact fun _ _ _ _ _ same => absurd same backslash
      · exact fun _ _ same => absurd same backslash
    · rw [written]
      simp [pieces?, ih, short, notLong]
    · rw [long]
      have unit : Hex.value4? '0' '0' (Hex.digit (c.toNat / 16)) (Hex.digit (c.toNat % 16)) =
          some c.toNat := by
        have zero : Hex.digitValue? '0' = some 0 := by decide
        simp [Hex.value4?, zero, Hex.digitValue?_digit _ (show c.toNat / 16 < 16 by omega),
          Hex.digitValue?_digit _ (show c.toNat % 16 < 16 by omega)]
        omega
      have same : Piece.ofUnit c.toNat = .char c := by
        have below : (0xD800 ≤ c.toNat && c.toNat < 0xE000) = false := by simp; omega
        rw [Piece.ofUnit, below, Char.ofNat_toNat]
        rfl
      simp [pieces?, ih, unit, same]

theorem joined?_chars (cs : List Char) : joined? (cs.map .char) = some cs := by
  induction cs with
  | nil => rfl
  | cons c cs ih => simp [joined?, ih]

theorem quoted?_write (s : String) (more : List Char) :
    quoted? (s.toList.flatMap escape ++ '"' :: more) = some (.string s, more) := by
  simp [quoted?, splitClosing_write, pieces?_write, joined?_chars]

end Quoted

section Scan

variable {c : Char} {cs more rest : List Char} {t : Token}

theorem scan_of_token? (begun : isBlank c = false) (found : token? (c :: cs) = some (t, rest)) :
    scan (c :: cs) = t :: scan rest := by
  have unblank : (c :: cs).dropWhile isBlank = c :: cs := by simp [begun]
  rw [scan]
  split
  next none => simp [unblank] at none
  next d ds split =>
    obtain ⟨rfl, rfl⟩ := List.cons.inj (unblank.symm.trans split)
    split
    next missing => cases missing.symm.trans found
    next u after same =>
      cases same.symm.trans found
      rfl

theorem isBlank_of_isDigit (digit : Decimal.isDigit c = true) : isBlank c = false := by
  refine Bool.eq_false_iff.2 fun blank => ?_
  simp only [isBlank, Bool.or_eq_true, decide_eq_true_eq] at blank
  rcases blank with ((rfl | rfl) | rfl) | rfl <;> exact absurd digit (by decide)

theorem token?_of_numeral (numeral : c = '-' ∨ Decimal.isDigit c = true) :
    token? (c :: cs) = Number.read? (c :: cs) := by
  unfold token?
  split
  case h_11 => rfl
  all_goals simp_all [Decimal.isDigit]

end Scan

namespace Token

def isInteger : Token → Bool
  | .integer _ => true
  | _ => false

/-- Whether values are ever written with the token. -/
def isPlain : Token → Bool
  | .number _ | .unpaired _ | .stray _ => false
  | _ => true

variable {t : Token} {more : List Char}

theorem ends_spelling (plain : t.isPlain) (notInteger : t.isInteger = false) (more : List Char) :
    Number.Ends (t.spelling ++ more) := by
  cases t with
  | integer => cases notInteger
  | number | unpaired | stray => cases plain
  | bool b => cases b <;> simp [Number.Ends, spelling, Decimal.isDigit]
  | string s => simp [Number.Ends, spelling, Quoted.write, Decimal.isDigit]
  | _ => simp [Number.Ends, spelling, Decimal.isDigit]

theorem scan_spelling (plain : t.isPlain) (ends : t.isInteger → Number.Ends more) :
    scan (t.spelling ++ more) = t :: scan more := by
  cases t with
  | integer i =>
    obtain ⟨c, cs, split, numeral⟩ := Number.exists_intDigits_eq_cons i
    have read := Number.read?_intDigits i (ends rfl)
    have begun : isBlank c = false := by
      rcases numeral with rfl | digit
      · rfl
      · exact isBlank_of_isDigit digit
    rw [spelling]
    rw [split, List.cons_append] at read ⊢
    exact scan_of_token? begun ((token?_of_numeral numeral).trans read)
  | string s =>
    have shape : (Token.string s).spelling ++ more =
        '"' :: (s.toList.flatMap Quoted.escape ++ '"' :: more) := by
      simp [spelling, Quoted.write]
    rw [shape]
    exact scan_of_token? rfl (Quoted.quoted?_write s more)
  | number | unpaired | stray => cases plain
  | bool b => cases b <;> exact scan_of_token? rfl rfl
  | _ => exact scan_of_token? rfl rfl

end Token

/-- Tokens that are read back from their spelling. -/
structure Legible (ts : List Token) : Prop where
  plain : ∀ t ∈ ts, t.isPlain
  apart : ts.IsChain fun t u => t.isInteger → u.isInteger = false

theorem Legible.scan_flatMap {ts : List Token} (legible : Legible ts) :
    scan (ts.flatMap Token.spelling) = ts := by
  obtain ⟨plain, apart⟩ := legible
  induction ts with
  | nil => rw [List.flatMap_nil, scan]; rfl
  | cons t ts ih =>
    have ends (integer : t.isInteger) : Number.Ends (ts.flatMap Token.spelling) := by
      cases ts with
      | nil => exact fun _ none => absurd none (by simp)
      | cons u us =>
        exact Token.ends_spelling (plain u (by simp)) (List.isChain_cons_cons.1 apart |>.1 integer) _
    rw [List.flatMap_cons, Token.scan_spelling (plain t (by simp)) ends,
      ih (fun u inside => plain u (List.mem_cons_of_mem t inside)) apart.tail]

/-- What is written is read back token by token. -/
theorem tokens_compact {ts : List Token} (legible : Legible ts) : tokens (compact ts) = ts := by
  rw [tokens, compact, String.toList_ofList, legible.scan_flatMap]

end AbstractStore.Json
