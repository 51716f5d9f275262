import AbstractStore.Address

/-! Abstract values and cells.
An analysis brings its own domain of values; of a value only the addresses that it embeds matter
here. A cell is the set of values stored at one address. -/

namespace AbstractStore

open Std

class Value (V : Type) (A : outParam Type) extends Ord V, TransOrd V, LawfulEqOrd V where
  [decEq : DecidableEq V]
  /-- The addresses that a value embeds, and so keeps alive. -/
  embedded : V → List A
  literal : V → String

attribute [reducible, instance] Value.decEq

/-- The values that may be stored at an address. A cell without values has been allocated and not
yet been assigned. -/
abbrev Cell (V : Type) [Ord V] := AscSet V

variable {A V : Type} [Address A] [Value V A]

def Value.roots (v : V) : LiveSet A := .ofList (Value.embedded v)

namespace Cell

def roots (c : Cell V) : LiveSet A := c.toList.foldl (fun live v => live ∪ Value.roots v) ∅

def codec (value : Json.Codec V) : Json.Codec (Cell V) :=
  (Json.Codec.record (.one "values" (Json.Codec.set value))).via id id

theorem mem_roots {c : Cell V} {a : A} : a ∈ roots c ↔ ∃ v ∈ c, a ∈ Value.roots v := by
  have general (vs : List V) (live : LiveSet A) :
      a ∈ vs.foldl (fun live v => live ∪ Value.roots v) live ↔
        a ∈ live ∨ ∃ v ∈ vs, a ∈ Value.roots v := by
    induction vs generalizing live with
    | nil => simp
    | cons v vs ih => simp [ih, or_assoc]
  exact (general c.toList ∅).trans (or_iff_right (AscSet.not_mem_empty a))

end Cell

end AbstractStore
