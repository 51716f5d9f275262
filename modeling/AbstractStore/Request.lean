import AbstractStore.Value

/-! Requests against a heap, as data, and the answers to them. -/

namespace AbstractStore

inductive Request (A V : Type) [Ord A] where
  | alloc (name : Name)
  | gc (roots : LiveSet A)
  | deref (a : A)
  | assign (a : A) (v : V)
  deriving DecidableEq

inductive Response (A V : Type) [Ord V] where
  | address (a : A)
  | cell (c : Cell V)
  | done
  deriving DecidableEq

variable {A V : Type} [Address A] [Value V A]

open Json

namespace Request

def label : Request A V → String
  | .alloc name => "alloc " ++ name.label
  | .gc roots => "gc " ++ LiveSet.label roots
  | .deref a => "deref " ++ Address.label a
  | .assign a v => "assign " ++ Address.label a ++ " " ++ Value.literal v

/-- Requests that allocate or collect. -/
def allocatorShape? (name : String) : Option (Shape (Request A V)) :=
  if name = "Alloc" then some (.holding do return .alloc (← Name.codec.decode))
  else if name = "Gc" then some (.holding do return .gc (← LiveSet.codec.decode))
  else none

/-- Requests that read or write a cell. -/
def cellShape? (value : Codec V) (name : String) : Option (Shape (Request A V)) :=
  if name = "Deref" then some (.holding do return .deref (← Address.codec.decode))
  else if name = "Assign" then some (.holding do
    let (a, v) ← (Address.codec.pair value).decode
    return .assign a v)
  else none

def codec (value : Codec V) : Codec (Request A V) where
  encode
    | .alloc name =>
        Shape.holdingTokens "Allocator" (Shape.holdingTokens "Alloc" (Name.codec.encode name))
    | .gc roots =>
        Shape.holdingTokens "Allocator" (Shape.holdingTokens "Gc" (LiveSet.codec.encode roots))
    | .deref a =>
        Shape.holdingTokens "Deref" (Shape.holdingTokens "Deref" (Address.codec.encode a))
    | .assign a v => Shape.holdingTokens "Deref"
        (Shape.holdingTokens "Assign" ((Address.codec.pair value).encode (a, v)))
  decode := Shape.decode fun name =>
    if name = "Allocator" then some (.holding (Shape.decode allocatorShape?))
    else if name = "Deref" then some (.holding (Shape.decode (cellShape? value)))
    else none

end Request

def Response.codec (value : Codec V) : Codec (Response A V) where
  encode
    | .address a => Shape.holdingTokens "Address" (Address.codec.encode a)
    | .cell c => Shape.holdingTokens "Cell" ((Cell.codec value).encode c)
    | .done => Shape.bareTokens "Unit"
  decode := Shape.decode fun name =>
    if name = "Address" then some (.holding do return .address (← Address.codec.decode))
    else if name = "Cell" then some (.holding do return .cell (← (Cell.codec value).decode))
    else if name = "Unit" then some (.bare .done)
    else none

end AbstractStore
