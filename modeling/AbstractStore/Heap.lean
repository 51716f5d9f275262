import AbstractStore.Allocation
import AbstractStore.Value

/-! Abstract heaps: maps from addresses to cells. -/

namespace AbstractStore

open Std

structure Heap (A V : Type) [Ord A] [Ord V] where
  cells : AscMap A (Cell V) := ∅
  deriving DecidableEq

namespace Heap

variable {A V : Type} [Address A] [Value V A]

def lookup (h : Heap A V) (a : A) : Option (Cell V) := h.cells.get? a

/-- Whether there is a cell at an address, with or without values. -/
def contains (h : Heap A V) (a : A) : Bool := h.cells.contains a

def size (h : Heap A V) : Nat := h.cells.size

def addresses (h : Heap A V) : LiveSet A := h.cells.keys

/-- Put a cell at an address, in the stead of the one there. -/
def put (h : Heap A V) (a : A) (c : Cell V) : Heap A V := ⟨h.cells.insert a c⟩

/-- See to it that there is a cell at `a`; one that is there stays as it is. -/
def reserve (h : Heap A V) (a : A) : Heap A V := if h.contains a then h else h.put a ∅

def replace (h : Heap A V) (a : A) (v : V) : Heap A V := h.put a (.singleton v)

/-- The values at an address; where there is no cell there are none. -/
def valuesAt (h : Heap A V) (a : A) : Cell V := (h.lookup a).getD ∅

def joinInsert (h : Heap A V) (a : A) (v : V) : Heap A V := h.put a ((h.valuesAt a).insert v)

def assign (h : Heap A V) (a : A) (v : V) : StoreMode → Heap A V
  | .strong => h.replace a v
  | .weak => h.joinInsert a v

def erase (h : Heap A V) (a : A) : Heap A V := ⟨h.cells.erase a⟩

def restrict (h : Heap A V) (live : LiveSet A) : Heap A V :=
  ⟨h.cells.filter fun (a, _) => live.contains a⟩

/-- The heap of two branches that meet: each address has the values it has in either. -/
def join (h k : Heap A V) : Heap A V :=
  k.cells.toList.foldl (fun h (a, c) => h.put a (h.valuesAt a ∪ c)) h

def embedded (h : Heap A V) : LiveSet A :=
  h.cells.values.foldl (fun live c => live ∪ Cell.roots c) ∅

def successors (h : Heap A V) (a : A) : LiveSet A := Cell.roots (h.valuesAt a)

def codec (value : Json.Codec V) : Json.Codec (Heap A V) :=
  (Json.Codec.record (.one "cells" (.entries Address.codec (Cell.codec value)))).via .mk cells

theorem lookup_put {h : Heap A V} {a b : A} {c : Cell V} :
    (h.put a c).lookup b = if a = b then some c else h.lookup b := by
  simp only [lookup, put, AscMap.get?_insert, LawfulEqCmp.compare_eq_iff_eq]

theorem contains_iff {h : Heap A V} {a : A} : h.contains a = true ↔ ∃ c, h.lookup a = some c :=
  Option.isSome_iff_exists

/-- Reserving an address leaves every cell as it is and adds at most an empty one. -/
theorem lookup_reserve {h : Heap A V} {a b : A} :
    (h.reserve a).lookup b = if a = b then some (h.valuesAt a) else h.lookup b := by
  unfold reserve
  split
  next there =>
    obtain ⟨c, found⟩ := contains_iff.1 there
    by_cases same : a = b
    · subst same; simp [valuesAt, found]
    · simp [same]
  next absent =>
    have missing : h.lookup a = none := by
      simpa [contains_iff, ← Option.ne_none_iff_exists'] using absent
    simp [lookup_put, valuesAt, missing]

theorem lookup_assign {h : Heap A V} {a b : A} {v : V} {mode : StoreMode} :
    (h.assign a v mode).lookup b =
      if a = b then
        some (match mode with
          | .strong => .singleton v
          | .weak => (h.valuesAt a).insert v)
      else h.lookup b := by
  cases mode <;> exact lookup_put

theorem lookup_erase {h : Heap A V} {a b : A} :
    (h.erase a).lookup b = if a = b then none else h.lookup b := by
  simp only [lookup, erase, AscMap.get?_erase, LawfulEqCmp.compare_eq_iff_eq]

theorem lookup_restrict {h : Heap A V} {live : LiveSet A} {a : A} :
    (h.restrict live).lookup a = if a ∈ live then h.lookup a else none := by
  simp only [lookup, restrict, AscMap.get?_filter]
  cases h.cells.get? a <;> by_cases inside : a ∈ live <;> simp [Option.filter, inside]

/-- Joining adds the values of the other heap and touches no address that it lacks. -/
theorem lookup_join {h k : Heap A V} {a : A} :
    (h.join k).lookup a = match k.lookup a with
      | none => h.lookup a
      | some c => some (h.valuesAt a ∪ c) := by
  obtain ⟨⟨l, ascending⟩⟩ := k
  change (l.foldl _ h).lookup a = match (l.find? (compare a ·.1 == .eq)).map Prod.snd with
    | none => _
    | some c => _
  induction l generalizing h with
  | nil => rfl
  | cons e l ih =>
      have ⟨below, rest⟩ := List.pairwise_cons.1 ascending
      rw [List.foldl_cons, ih rest]
      by_cases here : a = e.1
      · subst here
        have absent : l.find? (compare e.1 ·.1 == .eq) = none :=
          List.find?_eq_none.2 fun d inRest => by simp [below d inRest]
        simp [absent, lookup_put, ReflCmp.compare_self]
      · have differ : (compare a e.1 == .eq) = false :=
          beq_eq_false_iff_ne.2 fun same => here (LawfulEqCmp.eq_of_compare same)
        simp only [valuesAt, lookup_put, Ne.symm here, if_false, List.find?_cons, differ]

theorem mem_addresses {h : Heap A V} {a : A} : a ∈ h.addresses ↔ h.contains a = true :=
  AscMap.mem_keys

@[ext] theorem ext {h k : Heap A V} (sameCells : ∀ a, h.lookup a = k.lookup a) : h = k := by
  cases h; cases k
  exact congrArg Heap.mk (AscMap.ext sameCells)

theorem mem_embedded {h : Heap A V} {b : A} :
    b ∈ h.embedded ↔ ∃ c ∈ h.cells.values, b ∈ Cell.roots c := by
  have general (cs : List (Cell V)) (live : LiveSet A) :
      b ∈ cs.foldl (fun live c => live ∪ Cell.roots c) live ↔
        b ∈ live ∨ ∃ c ∈ cs, b ∈ Cell.roots c := by
    induction cs generalizing live with
    | nil => simp
    | cons c cs ih => simp [ih, or_assoc]
  exact (general h.cells.values ∅).trans (or_iff_right (AscSet.not_mem_empty b))

theorem mem_embedded_of_successors {h : Heap A V} {a b : A} (next : b ∈ h.successors a) :
    b ∈ h.embedded := by
  cases found : h.lookup a with
  | none =>
      rw [successors, valuesAt, found] at next
      exact absurd next (AscSet.not_mem_empty b)
  | some c =>
      rw [successors, valuesAt, found] at next
      have entry := AscMap.get?_eq_some_iff.1 found
      exact mem_embedded.2 ⟨c, List.mem_map.2 ⟨_, entry, rfl⟩, next⟩

end Heap

end AbstractStore
