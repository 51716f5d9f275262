import AbstractStore.Name
import AbstractStore.Source

/-! Abstract addresses.
An address is only compared, shown and written; what an allocation of it stands for is the concern
of the policy that hands it out. Three kinds are given: one address for each allocation, one for
each name, and one for each name of a module. -/

namespace AbstractStore

open Std

class Address (A : Type) extends Ord A, TransOrd A, LawfulEqOrd A where
  [decEq : DecidableEq A]
  label : A → String
  literal : A → String
  codec : Json.Codec A

attribute [reducible, instance] Address.decEq

/-- An address that stands for exactly one allocation. -/
structure Precise where
  index : UInt64
  deriving DecidableEq

/-- An address that stands for every allocation of a name. -/
structure Monovariant where
  name : Name
  deriving DecidableEq

/-- An address that stands for every allocation of a name in one module. -/
structure Located where
  home : ModuleId
  name : Name
  deriving DecidableEq

namespace Precise

instance : Ord Precise := ⟨compareOn index⟩

instance : TransOrd Precise := inferInstanceAs (TransCmp (compareOn index))

instance : LawfulEqOrd Precise :=
  lawfulEqCmp_compareOn fun a b sameIndex => by cases a; cases b; cases sameIndex; rfl

instance : Address Precise where
  label a := "#" ++ Decimal.text a.index.toNat
  literal a := Literal.call "Precise" [Decimal.text a.index.toNat]
  codec := Json.Codec.uint64.via .mk index

end Precise

namespace Monovariant

instance : Ord Monovariant := ⟨compareOn name⟩

instance : TransOrd Monovariant := inferInstanceAs (TransCmp (compareOn name))

instance : LawfulEqOrd Monovariant :=
  lawfulEqCmp_compareOn fun a b sameName => by cases a; cases b; cases sameName; rfl

instance : Address Monovariant where
  label a := "@" ++ a.name.label
  literal a := Literal.call "Monovariant" [a.name.literal]
  codec := Name.codec.via .mk name

end Monovariant

namespace Located

attribute [local instance] lexOrd

def orderKey (a : Located) : ModuleId × Name := (a.home, a.name)

instance : Ord Located := ⟨compareOn orderKey⟩

instance : TransOrd Located := inferInstanceAs (TransCmp (compareOn orderKey))

instance : LawfulEqOrd Located :=
  lawfulEqCmp_compareOn fun a b sameKey => by cases a; cases b; cases sameKey; rfl

instance : Address Located where
  label a := a.home.label ++ "::" ++ a.name.label
  literal a := Literal.fields "Located"
    [("module", Literal.fields "ModuleInfo" [("path", Literal.quoted a.home.path)]),
      ("name", a.name.literal)]
  codec := (Json.Codec.record ((Json.Fields.one "module" ModuleId.codec).and
    (.one "name" Name.codec))).via (fun (home, name) => ⟨home, name⟩) orderKey

end Located

abbrev LiveSet (A : Type) [Ord A] := AscSet A

namespace LiveSet

variable {A : Type} [Address A]

def label (s : LiveSet A) : String :=
  "\x7b" ++ ", ".intercalate (s.toList.map Address.label) ++ "\x7d"

def codec : Json.Codec (LiveSet A) :=
  (Json.Codec.record (.one "addresses" (Json.Codec.set Address.codec))).via id id

end LiveSet

end AbstractStore
