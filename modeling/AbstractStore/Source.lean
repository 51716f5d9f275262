import AbstractStore.Ascending.Key
import AbstractStore.Json.Codec

/-! Places in source programs: modules, positions and spans. -/

namespace AbstractStore

open Std

/-- A module, known by the path of its file. -/
structure ModuleId where
  path : String := ""
  deriving DecidableEq

structure Position where
  line : UInt64 := 0
  column : UInt64 := 0
  deriving DecidableEq

structure Span where
  first : Position := {}
  last : Position := {}
  deriving DecidableEq

namespace ModuleId

instance : Ord ModuleId := ⟨compareOn path⟩

instance : TransOrd ModuleId := inferInstanceAs (TransCmp (compareOn path))

instance : LawfulEqOrd ModuleId :=
  lawfulEqCmp_compareOn fun m n samePath => by cases m; cases n; cases samePath; rfl

def label (m : ModuleId) : String := if m.path = "" then "<unknown module>" else m.path

def codec : Json.Codec ModuleId := (Json.Codec.record (.one "path" .string)).via .mk path

end ModuleId

namespace Position

attribute [local instance] lexOrd

def orderKey (p : Position) : UInt64 × UInt64 := (p.line, p.column)

instance : Ord Position := ⟨compareOn orderKey⟩

instance : TransOrd Position := inferInstanceAs (TransCmp (compareOn orderKey))

instance : LawfulEqOrd Position :=
  lawfulEqCmp_compareOn fun p q sameKey => by cases p; cases q; cases sameKey; rfl

def label (p : Position) : String :=
  Decimal.text p.line.toNat ++ ":" ++ Decimal.text p.column.toNat

def codec : Json.Codec Position :=
  (Json.Codec.record ((Json.Fields.one "line" .uint64).and (.one "column" .uint64))).via
    (fun (line, column) => ⟨line, column⟩) orderKey

end Position

namespace Span

attribute [local instance] lexOrd

def orderKey (s : Span) : Position × Position := (s.first, s.last)

instance : Ord Span := ⟨compareOn orderKey⟩

instance : TransOrd Span := inferInstanceAs (TransCmp (compareOn orderKey))

instance : LawfulEqOrd Span :=
  lawfulEqCmp_compareOn fun s t sameKey => by cases s; cases t; cases sameKey; rfl

def label (s : Span) : String := s.first.label ++ "-" ++ s.last.label

def codec : Json.Codec Span :=
  (Json.Codec.record ((Json.Fields.one "start" Position.codec).and (.one "end" Position.codec))).via
    (fun (first, last) => ⟨first, last⟩) orderKey

end Span

end AbstractStore
