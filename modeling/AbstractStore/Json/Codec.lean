import AbstractStore.Ascending.Map
import AbstractStore.Json.Decoder

/-! Codecs: for each kind of value the tokens it is written as and the decoder that reads it back.
Reading accepts more than writing produces. A structure may be given as the list of its fields, a
field that no structure has is passed over, sets and lists of entries come in any order, and of
two entries for one key the later counts. -/

namespace AbstractStore.Json

open Std

structure Codec (α : Type) where
  encode : α → List Token
  decode : Decoder α

abbrev Field := String × List Token

def commas (parts : List (List Token)) : List Token := [.comma].intercalate parts

def listTokens (items : List (List Token)) : List Token :=
  .openBracket :: commas items ++ [.closeBracket]

def fieldTokens (f : Field) : List Token := .string f.1 :: .colon :: f.2

def objectTokens (fields : List Field) : List Token :=
  .openBrace :: commas (fields.map fieldTokens) ++ [.closeBrace]

namespace Codec

variable {α β γ κ : Type}

def toText (c : Codec α) (a : α) : String := compact (c.encode a)

def ofText (c : Codec α) (text : String) : Except DecodeError α := c.decode.runText text

/-- Values of `β` written as the values of `α` that they unpack to. -/
def via (c : Codec α) (pack : α → β) (unpack : β → α) : Codec β where
  encode b := c.encode (unpack b)
  decode := do return pack (← c.decode)

/-- As `via`, where some values of `α` stand for no value of `β`. -/
def refine (c : Codec α) (pack : α → Except String β) (unpack : β → α) : Codec β where
  encode b := c.encode (unpack b)
  decode := do
    match pack (← c.decode) with
    | .ok b => return b
    | .error reason => Decoder.fail (.refused reason)

def null : Codec Unit where
  encode _ := [.null]
  decode := .exactly .null

def bool : Codec Bool where
  encode b := [.bool b]
  decode := .token fun
    | .bool b => some b
    | _ => none

def string : Codec String where
  encode s := [.string s]
  decode := .token fun
    | .string s => some s
    | _ => none

/-- Integers below 2^64, from zero on. -/
def uint64 : Codec UInt64 where
  encode n := [.integer n.toNat]
  decode := .token fun
    | .integer i =>
        if 0 ≤ i ∧ i.toNat < UInt64.size then some (UInt64.ofNat i.toNat) else none
    | _ => none

/-- Integers from -2^63 on, below 2^63. -/
def int64 : Codec Int64 where
  encode n := [.integer n.toInt]
  decode := .token fun
    | .integer i =>
        if Int64.minValue.toInt ≤ i ∧ i ≤ Int64.maxValue.toInt then some (Int64.ofInt i) else none
    | _ => none

def list (c : Codec α) : Codec (List α) where
  encode as := listTokens (as.map c.encode)
  decode := c.decode.list

/-- Two values in a list of exactly two. -/
def pair (c : Codec α) (d : Codec β) : Codec (α × β) where
  encode p := listTokens [c.encode p.1, d.encode p.2]
  decode := do
    Decoder.exactly .openBracket
    let a ← c.decode
    Decoder.exactly .comma
    let b ← d.decode
    Decoder.exactly .closeBracket
    return (a, b)

def set [Ord α] [TransOrd α] [LawfulEqOrd α] (c : Codec α) : Codec (AscSet α) :=
  c.list.via .ofList AscSet.toList

def entries [Ord κ] [TransOrd κ] [LawfulEqOrd κ] (c : Codec κ) (d : Codec β) : Codec (AscMap κ β) :=
  (c.pair d).list.via .ofList AscMap.toList

/-- A map as an object, its keys spelled as strings. -/
def keyed [Ord κ] [TransOrd κ] [LawfulEqOrd κ] (spell : κ → String) (read : String → κ)
    (c : Codec β) : Codec (AscMap κ β) where
  encode m := objectTokens (m.toList.map fun (k, b) => (spell k, c.encode b))
  decode := Decoder.object (fun m key => do return m.insert (read key) (← c.decode)) ∅

end Codec

/-- The fields of a structure, in order. While an object is read the values found so far are kept
in slots. -/
structure Fields (α : Type) where
  Slots : Type
  blank : Slots
  /-- How the value for a key is read into the slots, if a field has that key. -/
  fill : Slots → String → Option (Decoder Slots)
  finish : Slots → Option α
  inOrder : Decoder α
  encode : α → List Field

namespace Fields

variable {α β : Type}

/-- One field; it must not come twice. -/
def one (name : String) (c : Codec α) : Fields α where
  Slots := Option α
  blank := none
  fill slot key :=
    if key = name then
      some <| match slot with
        | none => do return some (← c.decode)
        | some _ => Decoder.fail .malformed
    else none
  finish slot := slot
  inOrder := c.decode
  encode a := [(name, c.encode a)]

def and (f : Fields α) (g : Fields β) : Fields (α × β) where
  Slots := f.Slots × g.Slots
  blank := (f.blank, g.blank)
  fill slots key :=
    match f.fill slots.1 key with
    | some d => some do return (← d, slots.2)
    | none => match g.fill slots.2 key with
      | some d => some do return (slots.1, ← d)
      | none => none
  finish slots := do return (← f.finish slots.1, ← g.finish slots.2)
  inOrder := do
    let a ← f.inOrder
    Decoder.exactly .comma
    let b ← g.inOrder
    return (a, b)
  encode p := f.encode p.1 ++ g.encode p.2

/-- The fields as an object. A field of the structure has to be there once; others are skipped. -/
def ofObject (f : Fields α) : Decoder α := do
  let field slots key := match f.fill slots key with
    | some d => d
    | none => do
        Decoder.skip
        return slots
  match f.finish (← Decoder.object field f.blank) with
  | some a => return a
  | none => Decoder.fail .malformed

def ofListing (f : Fields α) : Decoder α := do
  Decoder.exactly .openBracket
  let a ← f.inOrder
  Decoder.exactly .closeBracket
  return a

def decode (f : Fields α) : Decoder α where
  run
    | .openBracket :: ts => f.ofListing.run (.openBracket :: ts)
    | ts => f.ofObject.run ts
  noLonger {ts a rest} h := by
    split at h
    next => exact f.ofListing.noLonger h
    next => exact f.ofObject.noLonger h

end Fields

def Codec.record {α : Type} (f : Fields α) : Codec α where
  encode a := objectTokens (f.encode a)
  decode := f.decode

/-- One of the shapes a value may take: a bare name, or a name with contents. -/
inductive Shape (α : Type) where
  | bare (a : α)
  | holding (contents : Decoder α)

namespace Shape

variable {α : Type}

/-- A value of a type with several shapes, each known by its name. -/
def decode (shapes : String → Option (Shape α)) : Decoder α where
  run
    | .string name :: rest => match shapes name with
      | some (.bare a) => .ok (a, rest)
      | _ => .error .malformed
    | .openBrace :: .string name :: .colon :: ts => match shapes name with
      | some (.bare a) => Decoder.run (do
          Decoder.exactly .null
          Decoder.exactly .closeBrace
          return a) ts
      | some (.holding contents) => Decoder.run (do
          let a ← contents
          Decoder.exactly .closeBrace
          return a) ts
      | none => .error .malformed
    | _ => .error .malformed
  noLonger {ts a rest} h := by
    split at h
    next => split at h <;> cases h; simp
    next =>
      split at h
      next => have := Decoder.noLonger _ h; grind
      next => have := Decoder.noLonger _ h; grind
      next => cases h
    next => cases h

def bareTokens (name : String) : List Token := [.string name]

def holdingTokens (name : String) (contents : List Token) : List Token :=
  objectTokens [(name, contents)]

end Shape

end AbstractStore.Json
