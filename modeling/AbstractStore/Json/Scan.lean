import AbstractStore.Json.Token

/-! Reading the tokens of a text.
Every text has tokens: where none begins, the rest of the text becomes one stray token, so what
stood before it is read as usual and no reader gets past it. -/

namespace AbstractStore.Json

def isBlank (c : Char) : Bool := c = ' ' || c = '\t' || c = '\n' || c = '\r'

namespace Number

def fraction? : List Char → Option (List Char × List Char)
  | '.' :: rest =>
      let ds := rest.takeWhile Decimal.isDigit
      if ds = [] then none else some ('.' :: ds, rest.dropWhile Decimal.isDigit)
  | cs => some ([], cs)

/-- The sign that may stand before the digits of an exponent. -/
def exponentSign : List Char → List Char × List Char
  | '+' :: rest => (['+'], rest)
  | '-' :: rest => (['-'], rest)
  | cs => ([], cs)

def exponent? : List Char → Option (List Char × List Char)
  | [] => some ([], [])
  | e :: rest =>
      if e = 'e' ∨ e = 'E' then
        let (sign, digits) := exponentSign rest
        let ds := digits.takeWhile Decimal.isDigit
        if ds = [] then none else some (e :: sign ++ ds, digits.dropWhile Decimal.isDigit)
      else some ([], e :: rest)

/-- The digits before the point: a zero alone, or all the digits there are. -/
def whole? : List Char → Option (List Char × List Char)
  | [] => none
  | c :: rest =>
      if c = '0' then some (['0'], rest)
      else if Decimal.isDigit c then
        some (c :: rest.takeWhile Decimal.isDigit, rest.dropWhile Decimal.isDigit)
      else none

def unsigned? (negative : Bool) (cs : List Char) : Option (Token × List Char) := do
  let (whole, rest) ← whole? cs
  let (fraction, rest) ← fraction? rest
  let (exponent, rest) ← exponent? rest
  let sign := if negative then ['-'] else []
  if fraction ≠ [] ∨ exponent ≠ [] ∨ (negative ∧ whole = ['0']) then
    some (.number (sign ++ whole ++ fraction ++ exponent), rest)
  else
    let size : Int := Decimal.value whole
    some (.integer (if negative then -size else size), rest)

def read? : List Char → Option (Token × List Char)
  | '-' :: rest => unsigned? true rest
  | cs => unsigned? false cs

theorem fraction?_noLonger {cs part rest : List Char} (h : fraction? cs = some (part, rest)) :
    rest.length ≤ cs.length := by
  unfold fraction? at h
  split at h
  next tail =>
    have := (List.dropWhile_suffix Decimal.isDigit (l := tail)).length_le
    grind
  next => cases h; exact Nat.le_refl _

theorem exponentSign_noLonger (cs : List Char) : (exponentSign cs).2.length ≤ cs.length := by
  unfold exponentSign
  split <;> simp

theorem exponent?_noLonger {cs part rest : List Char} (h : exponent? cs = some (part, rest)) :
    rest.length ≤ cs.length := by
  unfold exponent? at h
  split at h
  next => cases h; exact Nat.le_refl _
  next e tail =>
    have := exponentSign_noLonger tail
    have := (List.dropWhile_suffix Decimal.isDigit (l := (exponentSign tail).2)).length_le
    grind

theorem whole?_shorter {cs part rest : List Char} (h : whole? cs = some (part, rest)) :
    rest.length < cs.length := by
  unfold whole? at h
  split at h
  next => cases h
  next c tail =>
    have := (List.dropWhile_suffix Decimal.isDigit (l := tail)).length_le
    grind

theorem unsigned?_shorter {negative : Bool} {cs rest : List Char} {t : Token}
    (h : unsigned? negative cs = some (t, rest)) : rest.length < cs.length := by
  simp only [unsigned?, Option.bind_eq_bind, Option.bind_eq_some_iff, Prod.exists] at h
  obtain ⟨_, a, whole, _, b, fraction, _, c, exponent, result⟩ := h
  have := whole?_shorter whole
  have := fraction?_noLonger fraction
  have := exponent?_noLonger exponent
  grind

theorem read?_shorter {cs rest : List Char} {t : Token} (h : read? cs = some (t, rest)) :
    rest.length < cs.length := by
  unfold read? at h
  split at h
  next tail => exact Nat.lt_succ_of_lt (unsigned?_shorter h)
  next => exact unsigned?_shorter h

end Number

/-- A string literal whose opening quote has been read. -/
def quoted? (cs : List Char) : Option (Token × List Char) := do
  let (body, rest) ← Quoted.splitClosing cs
  let pieces ← Quoted.pieces? body
  match Quoted.joined? pieces with
  | some text => some (.string (String.ofList text), rest)
  | none => some (.unpaired body, rest)

/-- The first token of a text that begins with no blank, and what follows it. -/
def token? : List Char → Option (Token × List Char)
  | '\x7b' :: rest => some (.openBrace, rest)
  | '\x7d' :: rest => some (.closeBrace, rest)
  | '[' :: rest => some (.openBracket, rest)
  | ']' :: rest => some (.closeBracket, rest)
  | ':' :: rest => some (.colon, rest)
  | ',' :: rest => some (.comma, rest)
  | '"' :: rest => quoted? rest
  | 'n' :: 'u' :: 'l' :: 'l' :: rest => some (.null, rest)
  | 't' :: 'r' :: 'u' :: 'e' :: rest => some (.bool true, rest)
  | 'f' :: 'a' :: 'l' :: 's' :: 'e' :: rest => some (.bool false, rest)
  | cs => Number.read? cs

theorem quoted?_shorter {cs rest : List Char} {t : Token} (h : quoted? cs = some (t, rest)) :
    rest.length < cs.length := by
  simp only [quoted?, Option.bind_eq_bind, Option.bind_eq_some_iff, Prod.exists] at h
  obtain ⟨body, after, split, pieces, _, result⟩ := h
  have := Quoted.splitClosing_shorter split
  split at result <;> cases result <;> exact this

theorem token?_shorter {cs rest : List Char} {t : Token} (h : token? cs = some (t, rest)) :
    rest.length < cs.length := by
  unfold token? at h
  split at h
  case h_7 tail => exact Nat.lt_succ_of_lt (quoted?_shorter h)
  case h_11 => exact Number.read?_shorter h
  all_goals cases h; simp; try omega

theorem token?_shorter_of_blanks {cs more rest : List Char} {t : Token}
    (begun : cs.dropWhile isBlank = more) (found : token? more = some (t, rest)) :
    rest.length < cs.length := by
  have := token?_shorter found
  have := (List.dropWhile_suffix isBlank (l := cs)).length_le
  grind

def scan (cs : List Char) : List Token :=
  match begun : cs.dropWhile isBlank with
  | [] => []
  | c :: more =>
      match found : token? (c :: more) with
      | none => [.stray (c :: more)]
      | some (t, rest) =>
          have := token?_shorter_of_blanks begun found
          t :: scan rest
termination_by cs.length

def tokens (text : String) : List Token := scan text.toList

end AbstractStore.Json
