import AbstractStore.Text.Decimal
import AbstractStore.Json.Quoted

/-! Tokens of JSON and their spelling. A compact text is the spelling of its tokens in a row. -/

namespace AbstractStore.Json

inductive Token where
  | openBrace
  | closeBrace
  | openBracket
  | closeBracket
  | colon
  | comma
  | null
  | bool (b : Bool)
  | integer (i : Int)
  /-- A number that is not written as an integer; negative zero is one. -/
  | number (literal : List Char)
  | string (s : String)
  /-- A string literal, without its quotes, in which a surrogate lacks its partner. -/
  | unpaired (literal : List Char)
  /-- Where no token begins: all that is left of the text. -/
  | stray (rest : List Char)
  deriving DecidableEq

def Token.spelling : Token → List Char
  | .openBrace => ['\x7b']
  | .closeBrace => ['\x7d']
  | .openBracket => ['[']
  | .closeBracket => [']']
  | .colon => [':']
  | .comma => [',']
  | .null => ['n', 'u', 'l', 'l']
  | .bool true => ['t', 'r', 'u', 'e']
  | .bool false => ['f', 'a', 'l', 's', 'e']
  | .integer i => Decimal.intDigits i
  | .number literal => literal
  | .string s => Quoted.write s
  | .unpaired literal => '"' :: literal ++ ['"']
  | .stray rest => rest

/-- The text of tokens, with no blanks between them. -/
def compact (ts : List Token) : String := String.ofList (ts.flatMap Token.spelling)

end AbstractStore.Json
