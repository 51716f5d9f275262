import AbstractStore.Value

/-! A domain of values for object-oriented languages.
It keeps what is needed to find bindings across modules: closures remember the addresses that they
capture, records and classes map the names of members to addresses, and classes point at their
superclasses. All else is a scalar, or `top`, which stands for any value. -/

namespace AbstractStore

open Std

inductive Object (A : Type) where
  | top
  | unit
  | boolean (b : Bool)
  | integer (i : Int64)
  | string (s : String)
  /-- The evaluator knows the body of a closure by a number. -/
  | closure (parameters : List Name) (body : UInt64) (captured : AscMap Name A)
  | record (members : AscMap Name A)
  | classDef (name : Name) (superclasses : List A) (members : AscMap Name A)
  | reference (target : A)
  deriving DecidableEq

namespace Object

variable {A : Type}

def isTop : Object A → Bool
  | .top => true
  | _ => false

def member? (member : Name) : Object A → Option A
  | .record members => members.get? member
  | .classDef _ _ members => members.get? member
  | _ => none

def embedded : Object A → List A
  | .closure _ _ captured => captured.values
  | .record members => members.values
  | .classDef _ superclasses members => superclasses ++ members.values
  | .reference target => [target]
  | _ => []

section Order

attribute [local instance] lexOrd

def rank : Object A → Nat
  | .top => 0
  | .unit => 1
  | .boolean _ => 2
  | .integer _ => 3
  | .string _ => 4
  | .closure .. => 5
  | .record _ => 6
  | .classDef .. => 7
  | .reference _ => 8

/-- What an object holds, part by part; a part that it lacks is the same for all of its kind. -/
def parts : Object A →
    Bool × Int64 × String × List Name × UInt64 × List A × AscMap Name A
  | .top | .unit => (false, 0, "", [], 0, [], ∅)
  | .boolean b => (b, 0, "", [], 0, [], ∅)
  | .integer i => (false, i, "", [], 0, [], ∅)
  | .string s => (false, 0, s, [], 0, [], ∅)
  | .closure parameters body captured => (false, 0, "", parameters, body, [], captured)
  | .record members => (false, 0, "", [], 0, [], members)
  | .classDef name superclasses members => (false, 0, "", [name], 0, superclasses, members)
  | .reference target => (false, 0, "", [], 0, [target], ∅)

/-- Objects compare by kind, and within a kind by what they hold, in the order it is given. -/
def orderKey (o : Object A) :
    Nat × Bool × Int64 × String × List Name × UInt64 × List A × AscMap Name A :=
  (o.rank, o.parts)

theorem orderKey_injective (o p : Object A) (sameKey : o.orderKey = p.orderKey) : o = p := by
  cases o <;> cases p <;> simp_all [orderKey, rank, parts]

variable [Ord A]

instance : Ord (Object A) := ⟨compareOn orderKey⟩

instance [TransOrd A] : TransOrd (Object A) := inferInstanceAs (TransCmp (compareOn orderKey))

instance [LawfulEqOrd A] : LawfulEqOrd (Object A) := lawfulEqCmp_compareOn orderKey_injective

end Order

variable [Address A]

def bindingsLiteral (bindings : AscMap Name A) : String :=
  Literal.map (bindings.toList.map fun (name, a) => (name.literal, Address.literal a))

def literal : Object A → String
  | .top => "Top"
  | .unit => "Unit"
  | .boolean b => Literal.call "Boolean" [Literal.bool b]
  | .integer i => Literal.call "Integer" [String.ofList (Decimal.intDigits i.toInt)]
  | .string s => Literal.call "String" [Literal.quoted s]
  | .closure parameters body captured => Literal.fields "Closure"
      [("parameters", Literal.list (parameters.map Name.literal)),
        ("body", Decimal.text body.toNat),
        ("environment", bindingsLiteral captured)]
  | .record members => Literal.call "Record" [bindingsLiteral members]
  | .classDef name superclasses members => Literal.fields "Class"
      [("name", name.literal),
        ("superclasses", Literal.list (superclasses.map Address.literal)),
        ("scope", bindingsLiteral members)]
  | .reference target => Literal.call "Reference" [Address.literal target]

instance : Value (Object A) A where
  embedded := embedded
  literal := literal

section Codec

open Json

def bindings : Codec (AscMap Name A) := Name.keyed Address.codec

def closureFields : Fields (List Name × UInt64 × AscMap Name A) :=
  (Fields.one "parameters" (Codec.list Name.codec)).and
    ((Fields.one "body" .uint64).and (.one "environment" bindings))

def classFields : Fields (Name × List A × AscMap Name A) :=
  (Fields.one "name" Name.codec).and
    ((Fields.one "superclasses" (Codec.list Address.codec)).and (.one "scope" bindings))

def encode : Object A → List Token
  | .top => Shape.bareTokens "Top"
  | .unit => Shape.bareTokens "Unit"
  | .boolean b => Shape.holdingTokens "Boolean" (Codec.bool.encode b)
  | .integer i => Shape.holdingTokens "Integer" (Codec.int64.encode i)
  | .string s => Shape.holdingTokens "String" (Codec.string.encode s)
  | .closure parameters body captured => Shape.holdingTokens "Closure"
      ((Codec.record closureFields).encode (parameters, body, captured))
  | .record members => Shape.holdingTokens "Record" (bindings.encode members)
  | .classDef name superclasses members => Shape.holdingTokens "Class"
      ((Codec.record classFields).encode (name, superclasses, members))
  | .reference target => Shape.holdingTokens "Reference" (Address.codec.encode target)

def shape? (name : String) : Option (Shape (Object A)) :=
  if name = "Top" then some (.bare .top)
  else if name = "Unit" then some (.bare .unit)
  else if name = "Boolean" then some (.holding do return .boolean (← Codec.bool.decode))
  else if name = "Integer" then some (.holding do return .integer (← Codec.int64.decode))
  else if name = "String" then some (.holding do return .string (← Codec.string.decode))
  else if name = "Closure" then some (.holding do
    let (parameters, body, captured) ← closureFields.decode
    return .closure parameters body captured)
  else if name = "Record" then some (.holding do return .record (← bindings.decode))
  else if name = "Class" then some (.holding do
    let (name, superclasses, members) ← classFields.decode
    return .classDef name superclasses members)
  else if name = "Reference" then some (.holding do return .reference (← Address.codec.decode))
  else none

def codec : Codec (Object A) where
  encode := encode
  decode := Shape.decode shape?

end Codec

end Object

end AbstractStore
