import AbstractStore.Ascending.Key
import AbstractStore.Json.Codec
import AbstractStore.Text.Literal

/-! Names of bindings, and the supply of generated ones.
A name is written as a string, so that it can be the key of an object. The spelling `_gensym7` is
kept for the generated name with index 7; a user's name that begins like one, or like an escaped
name, is written behind a backslash. -/

namespace AbstractStore

open Std

inductive Name where
  | user (text : String)
  /-- A generated name, for what needs an address without a binding in the source. -/
  | gensym (index : UInt64)
  deriving DecidableEq

namespace Name

def isGenerated : Name → Bool
  | .user _ => false
  | .gensym _ => true

section Order

attribute [local instance] lexOrd

/-- All users' names come before the generated ones. -/
def orderKey : Name → Bool × String × UInt64
  | .user text => (false, text, 0)
  | .gensym index => (true, "", index)

theorem orderKey_injective (m n : Name) (sameKey : m.orderKey = n.orderKey) : m = n := by
  cases m <;> cases n <;> simp_all [orderKey]

instance : Ord Name := ⟨compareOn orderKey⟩

instance : TransOrd Name := inferInstanceAs (TransCmp (compareOn orderKey))

instance : LawfulEqOrd Name := lawfulEqCmp_compareOn orderKey_injective

end Order

def gensymPrefix : String := "_gensym"

def label : Name → String
  | .user text => text
  | .gensym index => gensymPrefix ++ Decimal.text index.toNat

def literal : Name → String
  | .user text => Literal.call "User" [Literal.quoted text]
  | .gensym index => Literal.call "Gensym" [Decimal.text index.toNat]

/-- Whether a user's name could be read back as another name. -/
def needsEscape (text : List Char) : Bool :=
  gensymPrefix.toList.isPrefixOf text || ['\\'].isPrefixOf text

def spelling : Name → String
  | .user text => if needsEscape text.toList then "\\" ++ text else text
  | .gensym index => gensymPrefix ++ Decimal.text index.toNat

/-- The index that digits stand for, which may follow a plus sign. -/
def index? (cs : List Char) : Option UInt64 :=
  let digits := match cs with
    | '+' :: rest => rest
    | _ => cs
  match Decimal.value? digits with
  | some n => if n < UInt64.size then some (UInt64.ofNat n) else none
  | none => none

def ofSpelling (text : String) : Name :=
  match text.toList with
  | '\\' :: rest => .user (String.ofList rest)
  | cs => match gensymPrefix.toList.isPrefixOf? cs with
    | some rest => match index? rest with
      | some index => .gensym index
      | none => .user text
    | none => .user text

def codec : Json.Codec Name := Json.Codec.string.via ofSpelling spelling

def keyed {β : Type} (c : Json.Codec β) : Json.Codec (AscMap Name β) :=
  .keyed spelling ofSpelling c

end Name

/-- Hands out generated names in the order of their indices, each once. -/
structure NameSupply where
  next : UInt64 := 0
  deriving DecidableEq

namespace NameSupply

def fresh (supply : NameSupply) : Name × NameSupply :=
  (.gensym supply.next, ⟨supply.next + 1⟩)

/-- A supply whose names are fresh to both. -/
def join (s t : NameSupply) : NameSupply := ⟨max s.next t.next⟩

def codec : Json.Codec NameSupply :=
  (Json.Codec.record (.one "next" .uint64)).via NameSupply.mk NameSupply.next

end NameSupply

end AbstractStore
