import AbstractStore.Text.Hex
import AbstractStore.Text.Unprintable

/-! Literals: how traces and reports spell a value, by its constructor and what that holds. -/

namespace AbstractStore.Literal

def escape (c : Char) : List Char :=
  if c = '\x00' then ['\\', '0']
  else if c = '\t' then ['\\', 't']
  else if c = '\n' then ['\\', 'n']
  else if c = '\r' then ['\\', 'r']
  else if c = '"' then ['\\', '"']
  else if c = '\\' then ['\\', '\\']
  else if isUnprintable c then ['\\', 'u', '\x7b'] ++ Hex.digits c.toNat ++ ['\x7d']
  else [c]

def quoted (s : String) : String := String.ofList ('"' :: s.toList.flatMap escape ++ ['"'])

def commas (parts : List String) : String := ", ".intercalate parts

def bool (b : Bool) : String := if b then "true" else "false"

def call (constructor : String) (arguments : List String) : String :=
  constructor ++ "(" ++ commas arguments ++ ")"

def fields (constructor : String) (parts : List (String × String)) : String :=
  constructor ++ " \x7b " ++ commas (parts.map fun (name, value) => name ++ ": " ++ value) ++
    " \x7d"

def list (items : List String) : String := "[" ++ commas items ++ "]"

def map (entries : List (String × String)) : String :=
  "\x7b" ++ commas (entries.map fun (key, value) => key ++ ": " ++ value) ++ "\x7d"

end AbstractStore.Literal
