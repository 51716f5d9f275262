import AbstractStore.Text.Hex

/-! String literals of JSON.
Writing escapes the quote, the backslash and the control characters, and leaves all else as it is.
Reading takes every escape of the standard; a surrogate has to be followed by its partner, and a
literal where one is not stands for no text. -/

namespace AbstractStore.Json.Quoted

def escape (c : Char) : List Char :=
  if c = '"' then ['\\', '"']
  else if c = '\\' then ['\\', '\\']
  else if c = '\x08' then ['\\', 'b']
  else if c = '\x0c' then ['\\', 'f']
  else if c = '\n' then ['\\', 'n']
  else if c = '\r' then ['\\', 'r']
  else if c = '\t' then ['\\', 't']
  else if c.toNat < 32 then
    ['\\', 'u', '0', '0', Hex.digit (c.toNat / 16), Hex.digit (c.toNat % 16)]
  else [c]

/-- The literal of a text, with its quotes. -/
def write (s : String) : List Char := '"' :: s.toList.flatMap escape ++ ['"']

/-- Splits what follows an opening quote at the closing quote. -/
def splitClosing : List Char → Option (List Char × List Char)
  | [] => none
  | '"' :: rest => some ([], rest)
  | '\\' :: c :: rest => (splitClosing rest).map fun (body, after) => ('\\' :: c :: body, after)
  | c :: rest => (splitClosing rest).map fun (body, after) => (c :: body, after)

/-- What a piece of a literal stands for: a character, or half of one. -/
inductive Piece where
  | char (c : Char)
  | surrogate (unit : Nat)
  deriving DecidableEq

def Piece.ofUnit (unit : Nat) : Piece :=
  if 0xD800 ≤ unit && unit < 0xE000 then .surrogate unit else .char (Char.ofNat unit)

/-- The character that a backslash and one letter stand for. -/
def shortEscape? (c : Char) : Option Char :=
  if c = '"' then some '"'
  else if c = '\\' then some '\\'
  else if c = '/' then some '/'
  else if c = 'b' then some '\x08'
  else if c = 'f' then some '\x0c'
  else if c = 'n' then some '\n'
  else if c = 'r' then some '\r'
  else if c = 't' then some '\t'
  else none

/-- The pieces of a literal without its quotes; a raw control character is refused. -/
def pieces? : List Char → Option (List Piece)
  | [] => some []
  | '\\' :: 'u' :: a :: b :: c :: d :: rest => do
      let unit ← Hex.value4? a b c d
      let later ← pieces? rest
      some (.ofUnit unit :: later)
  | '\\' :: c :: rest => do
      let plain ← shortEscape? c
      let later ← pieces? rest
      some (.char plain :: later)
  | c :: rest =>
      if c = '\\' ∨ c.toNat < 32 then none
      else (pieces? rest).map (.char c :: ·)

/-- The characters of the pieces, if each surrogate stands beside its partner. -/
def joined? : List Piece → Option (List Char)
  | [] => some []
  | .char c :: rest => (joined? rest).map (c :: ·)
  | .surrogate high :: .surrogate low :: rest =>
      if high < 0xDC00 ∧ 0xDC00 ≤ low then
        (joined? rest).map (Char.ofNat (0x10000 + 0x400 * (high - 0xD800) + (low - 0xDC00)) :: ·)
      else none
  | .surrogate _ :: _ => none

theorem splitClosing_shorter {cs body after : List Char}
    (split : splitClosing cs = some (body, after)) : after.length < cs.length := by
  fun_induction splitClosing cs generalizing body with
  | case1 => cases split
  | case2 rest => cases split; simp
  | case3 c rest ih =>
      obtain ⟨⟨b, a⟩, found, same⟩ := Option.map_eq_some_iff.1 split
      cases same
      have := ih found
      grind
  | case4 c rest _ _ ih =>
      obtain ⟨⟨b, a⟩, found, same⟩ := Option.map_eq_some_iff.1 split
      cases same
      have := ih found
      grind

end AbstractStore.Json.Quoted
